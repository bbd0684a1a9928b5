import Logline.Line.Script
import Logline.Line.Trail

/-!
A line while it is composed. Chunks gather in the scratch space and are handed on in one piece when
the line is released. A chunk that does not fit makes the line take the output lock for itself;
from then on it hands on what has gathered whenever the space is full, and passes chunks larger
than the space by it. A line that is given up loses what has gathered.
-/

namespace Logline

/-- How many bytes the scratch space holds. -/
def scratchSize : Nat := 16384

/-- `used` counts the bytes of the gathered chunks; these and what the line itself has handed on are
kept with the latest first. `behind` holds what helpers go on to do once the line gives the lock
back. -/
structure Draft where
  thread : Thread
  route : Route
  gathered : List Text.Bytes
  used : Nat
  handed : List Text.Bytes
  owed : Bool
  locked : Bool
  behind : List Trail
  trail : Trail

namespace Draft

def start (thread : Thread) (route : Route) (trail : Trail) : Draft :=
  ⟨thread, route, [], 0, [], false, false, [], trail⟩

def scratch (d : Draft) : Text.Bytes := d.gathered.reverse.flatten

def handOn (d : Draft) (bytes : Text.Bytes) : Draft :=
  if d.trail.goesOn then
    { d with
      handed := bytes :: d.handed
      trail := d.trail.push (.wrote d.route.destination bytes d.route.reportErrors) }
  else d

def flush (d : Draft) : Draft :=
  if d.used = 0 then d else { d.handOn d.scratch with gathered := [], used := 0 }

/-- Takes the output lock, unless the line has it, and makes room. -/
def lock (d : Draft) : Draft :=
  if d.locked then d.flush
  else if d.thread.holdsLock then { d with trail := d.trail.stopWith .waits }
  else { d with locked := true, trail := d.trail.add .locked }.flush

def write (d : Draft) (chunk : Text.Bytes) : Draft :=
  let d := if scratchSize < d.used + chunk.length then d.lock else d
  if scratchSize < chunk.length then d.handOn chunk
  else { d with gathered := chunk :: d.gathered, used := d.used + chunk.length }

def reserve (d : Draft) (n : Nat) : Draft :=
  if scratchSize < d.used + n then d.lock else d

/-- The thread as code of a caller finds it. -/
def caller (d : Draft) : Thread := { d.thread with holdsLock := d.thread.holdsLock || d.locked }

/-- Gives the lock back; then helpers that waited for it go on. -/
def unlock (d : Draft) : Trail :=
  d.behind.reverse.foldl Trail.join (d.trail.push .unlocked)

/-- Hands on what has gathered, a line that fits together with other lines that do. -/
def complete (d : Draft) : Draft :=
  if d.locked then d.flush
  else if d.thread.holdsLock then { d with trail := d.trail.stopWith .waits }
  else { d with trail := d.trail.add .shared }.flush

/-- Completes a line and gives back what it has of the output lock. -/
def release (d : Draft) : Trail :=
  let d := d.complete
  if d.locked then d.unlock else d.trail.add .unshared

/-- What becomes of a line that cannot be finished. -/
def abandon (d : Draft) : Trail := if d.locked then d.unlock else d.trail

end Draft

/-- What follows on a thread from having written a line. -/
def Route.after (r : Route) (thread : Thread) (t : Trail) : Trail :=
  match r.severity with
  | .exit => t.stopWith (if thread.wrappers = 0 then .ends (some 1) else .exits)
  | .panic => t.stopWith (.panics "lager::panic() logged (see above)")
  | _ => t

/-- What a helper got done in time, whether it came to its result, and what it goes on to do once
the output lock is free. -/
structure Helped where
  early : List Event
  answered : Bool
  behind : Trail

namespace Helped

def done : Helped := ⟨[], true, .empty⟩

def late (behind : Trail) : Helped := ⟨[], false, behind⟩

def calling (label : Nat) (h : Helped) : Helped :=
  { h with early := .called label .helper :: h.early }

end Helped

namespace Draft

/-- Ends a line: released if its script came to its end. -/
def finish (d : Draft) : Trail :=
  if d.trail.goesOn then d.route.after d.thread d.release else d.abandon

/-- Takes over what a helper did. -/
def helped (d : Draft) (h : Helped) : Draft :=
  { d with
    trail := h.early.foldl Trail.add d.trail
    behind := if h.answered then d.behind else h.behind :: d.behind }

end Draft

mutual

def Instr.run : Instr → Draft → Draft
  | .chunk bytes, d => d.write bytes
  | .reserve n, d => d.reserve n
  | .separate mark, d => if d.owed then d.write mark else d
  | .owe owed, d => { d with owed }
  | .block body, d => runScript body d
  | .later made, d => (made ()).run d
  | .direct acts, d => { d with trail := runActs acts d.caller d.trail }
  | .guarded acts onTime late, d =>
    if d.locked then
      let h := runHelper acts
      if h.answered then runScript onTime (d.helped h) else runScript late (d.helped h)
    else runScript onTime { d with trail := runActs acts d.caller d.trail }
termination_by structural i => i

/-- Runs a script as far as nothing stops it. -/
def runScript : Script → Draft → Draft
  | [], d => d
  | i :: rest, d => if d.trail.goesOn then runScript rest (i.run d) else d
termination_by structural s => s

def Act.run : Act → Thread → Trail → Trail
  | .called label, thread, t => t.add (.called label thread.place)
  | .slow, _, t => t
  | .line route body, thread, t => (runScript body (.start thread route t)).finish
  | .panic message, _, t => t.stopWith (.panics message)
termination_by structural a => a

/-- Runs code of a caller on the given thread, as long as it takes. -/
def runActs : List Act → Thread → Trail → Trail
  | [], _, t => t
  | a :: rest, thread, t => if t.goesOn then runActs rest thread (a.run thread t) else t
termination_by structural acts => acts

/-- Runs code of a caller on a helper while the output lock is held. A line of its own has to wait
for that lock, longer than the line outside waits for the helper. -/
def runHelper : List Act → Helped
  | [] => .done
  | .called label :: rest => (runHelper rest).calling label
  | .slow :: rest => .late (runActs rest .helper .empty)
  | .line route body :: rest =>
    .late (runActs rest .helper ((runScript body (.start .helper route .empty)).finish))
  | .panic _ :: _ => .late .empty
termination_by structural acts => acts

end

end Logline
