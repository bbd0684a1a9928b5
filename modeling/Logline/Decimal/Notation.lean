import Logline.Decimal.Shortest

/-!
Decimals as text: all digits in their places, or one digit before the point and an exponent.
-/

namespace Logline.Decimal

def digits (n : Nat) : List Char := Nat.toDigits 10 n

def intText (n : Int) : String :=
  if n < 0 then "-" ++ String.ofList (digits n.natAbs) else String.ofList (digits n.natAbs)

namespace Numeral

/-- The exponent of the first digit. -/
def order (d : Numeral) : Int := (digits d.coefficient).length + d.exponent - 1

/-- Every digit in its place. With `pointed` a whole number ends in `.0`. -/
def positional (pointed : Bool) (d : Numeral) : String :=
  let ds := digits d.coefficient
  let whole := ds.length + d.exponent
  if 0 ≤ d.exponent then
    String.ofList (ds ++ List.replicate d.exponent.toNat '0') ++ if pointed then ".0" else ""
  else if 0 < whole then
    String.ofList (ds.take whole.toNat ++ '.' :: ds.drop whole.toNat)
  else
    "0." ++ String.ofList (List.replicate (-whole).toNat '0' ++ ds)

/-- One digit before the point. An exponent that is not negative has a sign only with `signed`. -/
def scientific (signed : Bool) (d : Numeral) : String :=
  let exponent := "e" ++ (if signed && 0 ≤ d.order then "+" else "") ++ intText d.order
  match digits d.coefficient with
  | [] => ""
  | [c] => c.toString ++ exponent
  | c :: cs => c.toString ++ "." ++ String.ofList cs ++ exponent

end Numeral

/-- How numbers are spelled: the tie rule for their digits, which decimals have all digits in
place, whether whole numbers end in `.0` and exponents always have a sign, and the words for what
is no number. -/
structure Spelling where
  tie : Tie
  positional : Magnitude → Numeral → Bool
  pointed : Bool
  signed : Bool
  nan : String
  infinity : String
  negativeInfinity : String

def Spelling.magnitude (s : Spelling) (m : Magnitude) : String :=
  let d := if m.isZero then ⟨0, 0⟩ else shortest s.tie m
  if m.isZero || s.positional m d then d.positional s.pointed else d.scientific s.signed

/-- Zero keeps its sign. -/
def Spelling.text (s : Spelling) : Binary → String
  | .nan => s.nan
  | .infinite true => s.negativeInfinity
  | .infinite false => s.infinity
  | .finite true m => "-" ++ s.magnitude m
  | .finite false m => s.magnitude m

/-- All digits in place, whatever the size. -/
def Spelling.plain : Spelling := ⟨.up, fun _ _ => true, false, false, "NaN", "inf", "-inf"⟩

/-- For showing to a programmer: an exponent from 10^16 on and below 10^-4, and never a bare whole
number. -/
def Spelling.shown : Spelling :=
  ⟨.up, fun _ d => -4 ≤ d.order && d.order < 16, true, false, "NaN", "inf", "-inf"⟩

/-- In a line: an exponent exactly if the number is at least 10^21 or, not being zero, below
10^-4; what is no number is a JSON string. -/
def Spelling.line : Spelling :=
  ⟨.up, fun m _ => m.atLeastTenTo (-4) && !m.atLeastTenTo 21, false, false, "\"NaN\"", "\"+Inf\"",
    "\"-Inf\""⟩

end Logline.Decimal
