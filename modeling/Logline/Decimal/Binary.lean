/-!
Binary floating-point numbers, read from their bits. A finite number is `significand * 2^exponent`
exactly; what rounds to it lies between `lowQuarters` and `highQuarters`, in units of
`2^(exponent - 2)`.
-/

namespace Logline.Decimal

/-- How many bits of a word hold the fraction and the exponent. -/
structure Format where
  fractionBits : Nat
  exponentBits : Nat

def Format.single : Format := ⟨23, 8⟩

def Format.double : Format := ⟨52, 11⟩

/-- A finite magnitude. `narrowBelow` holds at a power of two, where the next number below is only
half as far away as the next above. -/
structure Magnitude where
  significand : Nat
  exponent : Int
  narrowBelow : Bool
deriving Repr, DecidableEq

inductive Binary where
  | nan
  | infinite (negative : Bool)
  | finite (negative : Bool) (magnitude : Magnitude)
deriving Repr, DecidableEq

def Format.read (f : Format) (bits : Nat) : Binary :=
  let fraction := bits % Nat.pow 2 f.fractionBits
  let biased := bits / Nat.pow 2 f.fractionBits % Nat.pow 2 f.exponentBits
  let negative := bits / Nat.pow 2 (f.fractionBits + f.exponentBits) % 2 = 1
  let least : Int := 2 - Nat.pow 2 (f.exponentBits - 1) - f.fractionBits
  if biased = Nat.pow 2 f.exponentBits - 1 then
    if fraction = 0 then .infinite negative else .nan
  else if biased = 0 then .finite negative ⟨fraction, least, false⟩
  else
    .finite negative
      ⟨fraction + Nat.pow 2 f.fractionBits, least + (biased - 1), fraction = 0 && 1 < biased⟩

namespace Magnitude

def isZero (m : Magnitude) : Bool := m.significand = 0

/-- The number itself, in units of `2^(exponent - 2)`. -/
def quarters (m : Magnitude) : Nat := 4 * m.significand

/-- The least bound of what rounds to the number, in the same units. -/
def lowQuarters (m : Magnitude) : Nat := 4 * m.significand - if m.narrowBelow then 1 else 2

def highQuarters (m : Magnitude) : Nat := 4 * m.significand + 2

/-- The bounds themselves round to the number if its significand is even. -/
def boundsCount (m : Magnitude) : Bool := m.significand % 2 = 0

/-- Whether the number is at least `10^n`. -/
def atLeastTenTo (m : Magnitude) (n : Int) : Bool :=
  Nat.pow 10 n.toNat * Nat.pow 2 (-m.exponent).toNat ≤
    m.significand * Nat.pow 2 m.exponent.toNat * Nat.pow 10 (-n).toNat

end Magnitude

end Logline.Decimal
