import Logline.Settings
import Logline.Text.Utf8

/-!
What writing a line asks for, step by step. A script knows neither how full the scratch space is
nor who holds the output lock; it only says which chunks follow each other, where room is wanted,
and where code of a caller has to run and what follows from it.

The wording of a script is what it comes to in bytes if all code of callers answers in time, however
these are gathered and handed on. Whether a separator is owed is told before and after. Scripts that
follow each other say what each of them says (`wording_append`).
-/

namespace Logline

/-- Where a line goes and what becomes of its thread afterwards, which its severity decides. -/
structure Route where
  destination : Destination
  reportErrors : Bool
  severity : Severity
deriving DecidableEq, Repr

mutual

inductive Instr where
  | chunk (bytes : Text.Bytes)
  /-- The next `n` bytes shall be kept together. -/
  | reserve (n : Nat)
  /-- Writes the mark if a separator is owed. -/
  | separate (mark : Text.Bytes)
  | owe (owed : Bool)
  /-- A script within the script. -/
  | block (body : List Instr)
  /-- Is made when the line comes to it. -/
  | later (made : Unit → Instr)
  /-- Runs code of a caller on the thread that writes the line. -/
  | direct (acts : List Act)
  /-- Runs code of a caller, but while the line holds the output lock on a thread of its own, and
  only for a limited time. -/
  | guarded (acts : List Act) (onTime late : List Instr)

/-- What code of a caller does. -/
inductive Act where
  /-- The code with this label starts. -/
  | called (label : Nat)
  | slow
  | line (route : Route) (body : List Instr)
  | panic (message : String)

end

abbrev Script := List Instr

/-! ### Wording -/

mutual

def Instr.wording : Instr → Bool → Text.Bytes × Bool
  | .chunk bytes, owed => (bytes, owed)
  | .reserve _, owed => ([], owed)
  | .separate mark, owed => (if owed then mark else [], owed)
  | .owe owed, _ => ([], owed)
  | .block body, owed => Script.wording body owed
  | .later made, owed => (made ()).wording owed
  | .direct _, owed => ([], owed)
  | .guarded _ onTime _, owed => Script.wording onTime owed
termination_by structural i => i

def Script.wording : List Instr → Bool → Text.Bytes × Bool
  | [], owed => ([], owed)
  | i :: rest, owed =>
    let (bytes, owed) := i.wording owed
    let (more, owed) := Script.wording rest owed
    (bytes ++ more, owed)
termination_by structural s => s

end

theorem Script.wording_append (a b : Script) (owed : Bool) :
    Script.wording (a ++ b) owed =
      ((Script.wording a owed).1 ++ (Script.wording b (Script.wording a owed).2).1,
        (Script.wording b (Script.wording a owed).2).2) := by
  induction a generalizing owed with
  | nil => simp [Script.wording]
  | cons i rest ih => simp [Script.wording, ih]

end Logline
