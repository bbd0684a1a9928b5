import Logline.Unwind

/-!
A stream of bytes logged line by line. How the bytes are cut into writes makes no difference: a
line is logged when its newline arrives, without it and without one carriage return before it, and
what is left over when the stream is flushed or ends. Streams end with the program that uses them,
and also while it unwinds.
-/

namespace Logline

/-- `left` is the start of a line whose end has not come yet. -/
structure LineStream where
  handle : Handle Value
  left : Text.Bytes

namespace LineStream

def newline : UInt8 := 0x0A

/-- Whole lines, and the start of one more. -/
def cut : Text.Bytes → List Text.Bytes × Text.Bytes
  | [] => ([], [])
  | b :: rest =>
    let (lines, left) := cut rest
    if b = newline then ([] :: lines, left)
    else match lines with
      | [] => ([], b :: left)
      | line :: lines => ((b :: line) :: lines, left)

def trimmed (line : Text.Bytes) : Text.Bytes :=
  if line.getLast? = some 0x0D then line.dropLast else line

def entry (line : Text.Bytes) : Form Value := .list [.bytes (trimmed line)]

/-- The lines that bytes complete, and what is left after them. The first line starts with what was
left before, and without a newline all is left. -/
def complete (left bytes : Text.Bytes) : List Text.Bytes × Text.Bytes :=
  match cut bytes with
  | ([], rest) => ([], left ++ rest)
  | (line :: lines, rest) => ((if left.isEmpty then line else left ++ line) :: lines, rest)

/-- The entries that a write completes, and the stream after them. -/
def write (s : LineStream) (bytes : Text.Bytes) : List (Form Value) × LineStream :=
  if s.handle.isEnabled then
    let (lines, left) := complete s.left bytes
    (lines.map entry, { s with left })
  else ([], s)

/-- The entry that a flush, or the end of the stream, completes. -/
def flush (s : LineStream) : List (Form Value) × LineStream :=
  if s.left.isEmpty then ([], s) else ([entry s.left], { s with left := [] })

/-- Writing an entry may stop the program; nothing is then kept of what was left. -/
def stopped (s : LineStream) : LineStream := { s with left := [] }

variable {σ : Type}

def log (s : LineStream) (entries : List (Form Value)) : Run σ Unit :=
  entries.forM (Run.writeForm s.handle)

/-- Writes bytes, and answers how many were taken. -/
def put (s : LineStream) (bytes : Text.Bytes) : Run σ (Nat × LineStream) := do
  let (entries, after) := s.write bytes
  s.log entries
  return (bytes.length, after)

/-- Flushes the stream. -/
def push (s : LineStream) : Run σ LineStream := do
  let (entries, after) := s.flush
  s.log entries
  return after

/-- Ends the stream. -/
def finish (s : LineStream) : Run σ Unit := s.log s.flush.1

/-- Ends streams one after the other, while the program unwinds if a reason for that is given. A
panic on the way leaves out none of them, but what already unwinds cannot panic once more: then the
process is aborted. -/
def finishAll : List LineStream → Option Stop → Run σ Unit
  | [], none => return ()
  | [], some reason => throw reason
  | s :: rest, unwinding => do
    match ← Run.attempt s.finish, unwinding with
    | .ok (), _ => finishAll rest unwinding
    | .error (.ends status), _ => throw (.ends status)
    | .error reason, none => finishAll rest (some reason)
    | .error _, some _ => Run.abort

def shown : String := "LogWriter \x7b .. \x7d"

end LineStream

end Logline
