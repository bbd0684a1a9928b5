import Logline.Decimal.Binary

/-!
The shortest decimal that reads back as a given binary number. Decimal grids `10^e` are tried from
the coarsest on; the first that has a point among the numbers which round to the given one is
taken, and on it the point nearer to the number. If a grid has such a point at all, one of the two
neighbours of the number on that grid is one, so only these are looked at.
-/

namespace Logline.Decimal

/-- `coefficient * 10^exponent`. -/
structure Numeral where
  coefficient : Nat
  exponent : Int
deriving Repr, DecidableEq

/-- Which neighbour is taken if both are equally near. -/
inductive Tie where
  | up
  | even
deriving Repr, DecidableEq

/-- A binary number set against the grid `10^e`: a bound of `q` quarters stands at `q * scale`, a
grid point `d` at `d * step`. -/
structure Grid where
  step : Nat
  scale : Nat

def Grid.at (m : Magnitude) (e : Int) : Grid :=
  ⟨Nat.pow 10 e.toNat * Nat.pow 2 (2 - m.exponent).toNat,
    Nat.pow 2 (m.exponent - 2).toNat * Nat.pow 10 (-e).toNat⟩

/-- The grid point just below the number, or at it. -/
def Grid.floor (g : Grid) (m : Magnitude) : Nat := m.quarters * g.scale / g.step

/-- Whether the grid point `d` rounds to the number. -/
def Grid.hits (g : Grid) (m : Magnitude) (d : Nat) : Bool :=
  let low := m.lowQuarters * g.scale
  let high := m.highQuarters * g.scale
  (low < d * g.step && d * g.step < high) ||
    (m.boundsCount && (d * g.step = low || d * g.step = high))

/-- Of the two neighbours of the number the one that is nearer. -/
def Grid.nearer (g : Grid) (m : Magnitude) (tie : Tie) (d : Nat) : Nat :=
  let below := m.quarters * g.scale - d * g.step
  let above := (d + 1) * g.step - m.quarters * g.scale
  if below < above then d
  else if above < below then d + 1
  else match tie with
    | .up => d + 1
    | .even => if d % 2 = 0 then d else d + 1

/-- The number's neighbour on the grid that reads back as it, if there is one. -/
def Grid.point? (g : Grid) (m : Magnitude) (tie : Tie) : Option Nat :=
  let d := g.floor m
  match g.hits m d, g.hits m (d + 1) with
  | true, true => some (g.nearer m tie d)
  | true, false => some d
  | false, true => some (d + 1)
  | false, false => none

/-- Looks for the coarsest grid from `10^e` down that has a point, on at most `grids` of them. -/
def search (m : Magnitude) (tie : Tie) : Nat → Int → Numeral
  | 0, e => ⟨(Grid.at m e).floor m, e⟩
  | grids + 1, e => match (Grid.at m e).point? m tie with
    | some d => ⟨d, e⟩
    | none => search m tie grids (e - 1)

/-- No number that rounds to this one reaches `10^(ceiling m)`. -/
def ceiling (m : Magnitude) : Int := (m.significand.log2 + m.exponent) * 30103 / 100000 + 2

/-- Seventeen digits tell all doubles apart, and `ceiling` lies at most two places above the first of
them, so that nineteen grids always are enough. -/
def shortest (tie : Tie) (m : Magnitude) : Numeral := search m tie 22 (ceiling m)

end Logline.Decimal
