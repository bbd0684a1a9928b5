import Logline.Decimal.Notation

/-!
Moments in universal time and their text, cut to a tenth of a millisecond. In a leap second the
nanoseconds run on past a whole second and the fraction stays at `.9999`, so that within a year the
text of a later moment never sorts before that of an earlier one.
-/

namespace Logline

structure Moment where
  year : Int
  month : Nat
  day : Nat
  hour : Nat
  minute : Nat
  second : Nat
  nanosecond : Nat
deriving DecidableEq, Repr

/-- Whom to ask for the time. -/
inductive Clock where
  | system
  | given
deriving DecidableEq, Repr

namespace Moment

/-- Decimal digits, filled up with single zeros to the width given. -/
def padded (width n : Nat) : List String :=
  let ds := Decimal.digits n
  List.replicate (width - ds.length) "0" ++ [String.ofList ds]

/-- Sign and digits, as many as there are. -/
def signed (n : Int) : List String :=
  (if n < 0 then ["-"] else []) ++ [String.ofList (Decimal.digits n.natAbs)]

def fraction (m : Moment) : Nat := min (m.nanosecond / 100000) 9999

/-- The pieces of the text up to its closing `Z`, date and time parted by `sep`. The year has as
many digits as it needs. -/
def pieces (m : Moment) (sep : String) : List String :=
  signed m.year ++ "-" :: padded 2 m.month ++ "-" :: padded 2 m.day ++ sep :: padded 2 m.hour ++
    ":" :: padded 2 m.minute ++ ":" :: padded 2 m.second ++ "." :: padded 4 m.fraction

def text (m : Moment) (sep : String) : String := String.join (m.pieces sep) ++ "Z"

end Moment

end Logline
