import Logline.Decimal.Notation
import Logline.Text.Split

/-!
How a thing tells that it could not be turned into JSON: by a text, which may end in the place in
the document where that happened. Lines count from 1, so a place in line 0 is none, and is not told.
-/

namespace Logline

structure Failure where
  message : List Char
  line : Nat
  column : Nat

namespace Failure

def lineMark : List Char := " at line ".toList

def columnMark : List Char := " column ".toList

/-- A count of at most 64 bits. -/
def count? (digits : List Char) : Option Nat :=
  let n := digits.foldl (fun n c => n * 10 + (c.toNat - 0x30)) 0
  if digits.isEmpty || 0x10000000000000000 ≤ n then none else some n

/-- Reads a text from its end. -/
def placed? (text : List Char) : Option Failure := do
  let back := text.reverse
  let column := back.takeWhile Char.isDigit
  let back ← Text.after? columnMark.reverse (back.dropWhile Char.isDigit)
  let line := back.takeWhile Char.isDigit
  let back ← Text.after? lineMark.reverse (back.dropWhile Char.isDigit)
  return ⟨back.reverse, ← count? line.reverse, ← count? column.reverse⟩

def ofText (text : List Char) : Failure := (placed? text).getD ⟨text, 0, 0⟩

def text (f : Failure) : List Char :=
  if f.line = 0 then f.message
  else
    f.message ++ lineMark ++ (Decimal.intText f.line).toList ++ columnMark ++
      (Decimal.intText f.column).toList

end Failure

end Logline
