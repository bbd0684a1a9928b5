import Logline.Program

/-!
Hearing of exit lines. An exit line written while a wrapper runs its body unwinds to the innermost
such wrapper, which may decide on the status the process ends with, or that it goes on. Anything
else passes through.
-/

namespace Logline.Run

variable {σ α : Type}

/-- Runs code and tells how it ended. -/
def attempt (body : Run σ α) : Run σ (Except Stop α) := do
  try return .ok (← body) catch s => return .error s

/-- Runs code and catches an unwinding. The end of the process is no unwinding. -/
def catchUnwind (body : Run σ α) : Run σ (Except Stop α) := do
  match ← attempt body with
  | .ok a => return .ok a
  | .error .exits => return .error .exits
  | .error (.panics m) => return .error (.panics m)
  | .error s => throw s

/-- `onExit` gets the status 1 and gives the one to end with; a negative one lets the process go
on, with nothing to show for the body. -/
def recoverExit (body : Run σ α) (onExit : Int → Run σ Int) : Run σ (Option α) := do
  modify fun p => { p with wrappers := p.wrappers + 1 }
  let ended ← attempt body
  modify fun p => { p with wrappers := p.wrappers - 1 }
  match ended with
  | .ok a => return some a
  | .error .exits =>
    let status ← onExit 1
    if 0 ≤ status then throw (.ends (some status)) else return none
  | .error s => throw s

/-- Always ends with the status 1 after an exit line. -/
def exitViaPanic (body : Run σ α) : Run σ α := do
  match ← recoverExit body pure with
  | some a => return a
  | none => throw (.ends (some 1))

def abortNote : String := "thread caused non-unwinding panic. aborting.\n"

/-- What unwinds already cannot unwind for a second reason: the process is aborted, and says so. -/
def abort : Run σ α := do
  modify fun p => { p with latest := .wrote .stderr (Text.encode abortNote.toList) false :: p.latest }
  throw (.ends none)

end Logline.Run

namespace Logline

/-- The status others see of a process that code ended: eight bits of what it asked for, 101 for a
panic that nobody caught. -/
def Stop.status? : Stop → Option Nat
  | .exits => some 1
  | .panics _ => some 101
  | .ends status => status.map fun n => (n % 256).toNat
  | .waits => none

end Logline
