import Logline.Settings
import Logline.Text.Utf8

/-!
What a thread does that others can see, and how its code may end before its time. After the end
nothing more happens: `add` leaves an ended trail as it is.
-/

namespace Logline

/-- On which thread code of a caller runs: the one that writes the line, which may hold the output
lock at that moment, or a helper. -/
inductive Place where
  | own (locked : Bool)
  | helper
deriving DecidableEq, Repr

inductive Event where
  | called (label : Nat) (place : Place)
  /-- The output lock is taken for this thread alone, or given back. -/
  | locked
  | unlocked
  /-- The output lock is taken together with others, or given back. -/
  | shared
  | unshared
  /-- A destination is handed bytes, to take all of them. -/
  | wrote (destination : Destination) (bytes : Text.Bytes) (reportErrors : Bool)
deriving DecidableEq, Repr

/-- Why code does not go on. -/
inductive Stop where
  /-- An exit line unwinds to the code that wants to hear of it. -/
  | exits
  | panics (message : String)
  /-- The process is over; one that a signal ended has no status. -/
  | ends (status : Option Int)
  /-- The thread waits for the output lock that it holds itself. -/
  | waits
deriving DecidableEq, Repr

/-- The events are kept with the latest first. -/
structure Trail where
  latest : List Event
  stop : Option Stop
deriving DecidableEq, Repr

namespace Trail

def empty : Trail := ⟨[], none⟩

def events (t : Trail) : List Event := t.latest.reverse

def goesOn (t : Trail) : Bool := t.stop.isNone

/-- Records an event even of a thread that is unwinding. -/
def push (t : Trail) (e : Event) : Trail := { t with latest := e :: t.latest }

def add (t : Trail) (e : Event) : Trail := if t.goesOn then t.push e else t

def stopWith (t : Trail) (s : Stop) : Trail := if t.goesOn then { t with stop := some s } else t

/-- Of what happens on a helper only the end of the process, or that it waits for ever, reaches
beyond it. -/
def join (t helper : Trail) : Trail :=
  let stop := match t.stop, helper.stop with
    | some (.ends n), _ => some (.ends n)
    | _, some (.ends n) => some (.ends n)
    | some .waits, _ => some .waits
    | _, some .waits => some .waits
    | s, _ => s
  ⟨helper.latest ++ t.latest, stop⟩

end Trail

/-- What a thread brings along when it runs code. -/
structure Thread where
  /-- How many callers want to hear of an exit line. -/
  wrappers : Nat
  isHelper : Bool
  /-- A line further out holds the output lock. -/
  holdsLock : Bool
deriving DecidableEq, Repr

namespace Thread

/-- Nobody on a helper thread waits for an exit line. -/
def helper : Thread := ⟨0, true, false⟩

def place (t : Thread) : Place := if t.isHelper then .helper else .own t.holdsLock

end Thread

end Logline
