import Mathlib.Algebra.Order.Field.Power
import Mathlib.Data.Nat.Cast.Order.Field
import Mathlib.Tactic.FieldSimp
import Mathlib.Tactic.NormNum
import Mathlib.Tactic.Positivity
import Mathlib.Tactic.Ring
import Logline.Proofs.Decimal.Numbers

/-!
How long numbers are as text, and in which notation they stand. A number is below `10^ceiling`
(`value_lt_ceiling`), so a decimal found on the grid `j` places below has at most `j + 1` digits
(`shortest_bounds`). In a line a finite number has an exponent exactly if it is at least `10^21` or,
not being zero, below `10^-4` (`hasExponent_magnitude_iff`). Between these bounds few zeros stand beside
its digits, and beyond them the exponent has at most three digits, so the text is short either way
(`length_line_le`).
-/

namespace Logline

/-- An exponent follows the digits of a number. -/
def Json.HasExponent (cs : List Char) : Prop := 'e' ∈ cs ∨ 'E' ∈ cs

namespace Decimal

/-! ### Powers of two and of ten -/

theorem zpow_eq_div (a : ℚ) (n : Int) : a ^ n = a ^ n.toNat / a ^ (-n).toNat := by
  obtain ⟨k, rfl | rfl⟩ := n.eq_nat_or_neg
  · simp
  · simp [zpow_neg]

theorem two_pow_le_ten_pow (n : Nat) : 2 ^ n ≤ 10 ^ (28 * n / 93 + 1) := by
  have hrest : ∀ r < 93, 2 ^ r ≤ 10 ^ (28 * r / 93 + 1) := by decide
  calc 2 ^ n = (2 ^ 93) ^ (n / 93) * 2 ^ (n % 93) := by rw [← pow_mul, ← pow_add, Nat.div_add_mod]
    _ ≤ (10 ^ 28) ^ (n / 93) * 10 ^ (28 * (n % 93) / 93 + 1) :=
      Nat.mul_le_mul (Nat.pow_le_pow_left (by decide) _) (hrest _ (Nat.mod_lt n (by decide)))
    _ = 10 ^ (28 * n / 93 + 1) := by
      rw [← pow_mul, ← pow_add]
      congr 1
      omega

theorem ten_pow_le_two_pow (n : Nat) : 10 ^ n ≤ 2 ^ (196 * n / 59 + 1) := by
  have hrest : ∀ r < 59, 10 ^ r ≤ 2 ^ (196 * r / 59 + 1) := by decide
  calc 10 ^ n = (10 ^ 59) ^ (n / 59) * 10 ^ (n % 59) := by rw [← pow_mul, ← pow_add, Nat.div_add_mod]
    _ ≤ (2 ^ 196) ^ (n / 59) * 2 ^ (196 * (n % 59) / 59 + 1) :=
      Nat.mul_le_mul (Nat.pow_le_pow_left (by decide) _) (hrest _ (Nat.mod_lt n (by decide)))
    _ = 2 ^ (196 * n / 59 + 1) := by
      rw [← pow_mul, ← pow_add]
      congr 1
      omega

/-- A power of two with a power of ten that is not below it, of exponents as doubles have them. -/
theorem two_zpow_le_ten_zpow {k : Int} (hleast : -1074 ≤ k) (hgreatest : k ≤ 1023) :
    (2 : ℚ) ^ (k + 1) ≤ 10 ^ (k * 30103 / 100000 + 2) := by
  have hone : (1 : ℚ) ≤ 2 := by norm_num
  by_cases hk : 0 ≤ k
  · obtain ⟨n, rfl⟩ := Int.eq_ofNat_of_zero_le hk
    have hpow : (2 : ℚ) ^ (n + 1) ≤ 10 ^ (28 * (n + 1) / 93 + 1) := by
      exact_mod_cast two_pow_le_ten_pow (n + 1)
    calc (2 : ℚ) ^ ((n : Int) + 1) = 2 ^ (n + 1) := by exact_mod_cast zpow_natCast (2 : ℚ) (n + 1)
      _ ≤ 10 ^ (28 * (n + 1) / 93 + 1) := hpow
      _ = 10 ^ ((28 * (n + 1) / 93 + 1 : Nat) : Int) := (zpow_natCast _ _).symm
      _ ≤ 10 ^ ((n : Int) * 30103 / 100000 + 2) := zpow_le_zpow_right₀ (by norm_num) (by omega)
  · by_cases hc : 0 ≤ k * 30103 / 100000 + 2
    · calc (2 : ℚ) ^ (k + 1) ≤ 2 ^ (0 : Int) := zpow_le_zpow_right₀ hone (by omega)
        _ = 10 ^ (0 : Int) := by simp
        _ ≤ 10 ^ (k * 30103 / 100000 + 2) := zpow_le_zpow_right₀ (by norm_num) hc
    · obtain ⟨n, hn⟩ := Int.eq_ofNat_of_zero_le (a := -(k * 30103 / 100000 + 2)) (by omega)
      have hpow : (10 : ℚ) ^ n ≤ 2 ^ (196 * n / 59 + 1) := by exact_mod_cast ten_pow_le_two_pow n
      calc (2 : ℚ) ^ (k + 1) ≤ 2 ^ (-((196 * n / 59 + 1 : Nat) : Int)) :=
            zpow_le_zpow_right₀ hone (by omega)
        _ = (2 ^ (196 * n / 59 + 1))⁻¹ := by rw [zpow_neg, zpow_natCast]
        _ ≤ (10 ^ n)⁻¹ := inv_anti₀ (by positivity) hpow
        _ = 10 ^ (-(n : Int)) := by rw [zpow_neg, zpow_natCast]
        _ = 10 ^ (k * 30103 / 100000 + 2) := by rw [← hn, neg_neg]

/-! ### Magnitudes -/

/-- So large or so small that an exponent is called for. -/
def Extreme (x : ℚ) : Prop := 10 ^ 21 ≤ x ∨ 0 < x ∧ x < 10 ^ (-4 : Int)

namespace Magnitude

/-- The number itself. -/
def value (m : Magnitude) : ℚ := m.significand * 2 ^ m.exponent

theorem atLeastTenTo_iff (m : Magnitude) (n : Int) : m.atLeastTenTo n ↔ (10 : ℚ) ^ n ≤ m.value := by
  rw [atLeastTenTo, decide_eq_true_iff, value, zpow_eq_div 10 n, zpow_eq_div 2 m.exponent,
    ← mul_div_assoc, div_le_div_iff₀ (by positivity) (by positivity)]
  norm_cast

theorem isZero_iff {m : Magnitude} : m.isZero ↔ m.value = 0 := by
  have hpow : (2 : ℚ) ^ m.exponent ≠ 0 := by positivity
  simp [isZero, value, hpow]

theorem value_pos {m : Magnitude} (h : 0 < m.significand) : 0 < m.value := by
  have hs : (0 : ℚ) < m.significand := by exact_mod_cast h
  exact mul_pos hs (by positivity)

theorem value_lt (m : Magnitude) : m.value < 2 ^ (m.significand.log2 + m.exponent + 1) := by
  have hs : (m.significand : ℚ) < 2 ^ (m.significand.log2 + 1) := by
    exact_mod_cast Nat.lt_log2_self
  calc m.value < 2 ^ (m.significand.log2 + 1) * 2 ^ m.exponent :=
        mul_lt_mul_of_pos_right hs (by positivity)
    _ = 2 ^ (m.significand.log2 + m.exponent + 1) := by
        rw [← zpow_natCast, ← zpow_add₀ two_ne_zero]
        congr 1
        push_cast
        ring

theorem le_value {m : Magnitude} (h : 0 < m.significand) :
    2 ^ (m.significand.log2 + m.exponent) ≤ m.value := by
  have hs : (2 : ℚ) ^ m.significand.log2 ≤ m.significand := by
    exact_mod_cast Nat.log2_self_le (by omega)
  calc (2 : ℚ) ^ (m.significand.log2 + m.exponent) = 2 ^ m.significand.log2 * 2 ^ m.exponent := by
        rw [zpow_add₀ two_ne_zero, zpow_natCast]
    _ ≤ m.value := mul_le_mul_of_nonneg_right hs (by positivity)

theorem value_lt_ceiling {m : Magnitude} (hm : m.InRange) : m.value < 10 ^ ceiling m := by
  obtain ⟨hfirst, hleast, hgreatest⟩ := hm
  exact (value_lt m).trans_le (two_zpow_le_ten_zpow (by omega) (by omega))

/-- What is not extreme lies in the middle of the exponents. -/
theorem ceiling_of_not_extreme {m : Magnitude} (h : 0 < m.significand) (hm : ¬ Extreme m.value) :
    -3 ≤ ceiling m ∧ ceiling m ≤ 22 := by
  simp only [Extreme, value_pos h, true_and, not_or, not_le, not_lt] at hm
  obtain ⟨hlarge, hsmall⟩ := hm
  have hhigh : (2 : ℚ) ^ (m.significand.log2 + m.exponent) < 2 ^ (70 : Int) :=
    ((le_value h).trans_lt hlarge).trans (by norm_num)
  have hlow : (2 : ℚ) ^ (-14 : Int) < 2 ^ (m.significand.log2 + m.exponent + 1) :=
    lt_of_lt_of_le (by norm_num) (hsmall.trans (value_lt m).le)
  rw [zpow_lt_zpow_iff_right₀ one_lt_two] at hhigh hlow
  unfold ceiling
  omega

end Magnitude

/-! ### The digits of shortest decimals -/

theorem floor_le (m : Magnitude) (e : Int) : ((Grid.at m e).floor m : ℚ) ≤ m.value / 10 ^ e := by
  have hquarter : (2 : ℚ) ^ m.exponent = 4 * 2 ^ (m.exponent - 2) := by
    rw [zpow_sub₀ two_ne_zero]
    norm_num
    ring
  have hneg : -(m.exponent - 2) = 2 - m.exponent := by ring
  refine Nat.cast_div_le.trans (le_of_eq ?_)
  rw [Magnitude.value, hquarter, zpow_eq_div 10 e, zpow_eq_div 2 (m.exponent - 2), hneg]
  simp only [Grid.at, Magnitude.quarters, Nat.pow_eq]
  push_cast
  field_simp

theorem floor_lt {m : Magnitude} (hm : m.InRange) (j : Nat) :
    (Grid.at m (ceiling m - j)).floor m < 10 ^ j := by
  have hten : (10 : ℚ) ^ ceiling m / 10 ^ (ceiling m - j) = 10 ^ j := by
    rw [← zpow_sub₀ (by norm_num), sub_sub_cancel, zpow_natCast]
  have hfloor : ((Grid.at m (ceiling m - j)).floor m : ℚ) < 10 ^ j := by
    rw [← hten]
    exact (floor_le m _).trans_lt (div_lt_div_of_pos_right (Magnitude.value_lt_ceiling hm) (by positivity))
  exact_mod_cast hfloor

theorem point?_le {m : Magnitude} {tie : Tie} {e : Int} {d : Nat}
    (hd : (Grid.at m e).point? m tie = some d) : d ≤ (Grid.at m e).floor m + 1 := by
  unfold Grid.point? at hd
  dsimp only at hd
  split at hd <;> cases hd
  · unfold Grid.nearer
    dsimp only
    repeat' split
    all_goals omega
  · omega
  · omega

/-- A search ends on one of its grids, at a neighbour of the number. -/
theorem search_bounds (m : Magnitude) (tie : Tie) (grids : Nat) (e : Int) :
    ∃ j ≤ grids, (search m tie grids e).exponent = e - j ∧
      (search m tie grids e).coefficient ≤ (Grid.at m (e - j)).floor m + 1 := by
  induction grids generalizing e with
  | zero => exact ⟨0, Nat.le_refl 0, by simp [search], by simp [search]⟩
  | succ grids ih =>
    unfold search
    split
    · next d hd => exact ⟨0, Nat.zero_le _, by simp, by simpa using point?_le hd⟩
    · obtain ⟨j, hj, hexponent, hcoefficient⟩ := ih (e - 1)
      have hgrid : e - 1 - (j : Int) = e - ((j + 1 : Nat) : Int) := by omega
      rw [hgrid] at hexponent hcoefficient
      exact ⟨j + 1, by omega, hexponent, hcoefficient⟩

/-- A decimal that is found `j` places below the ceiling has at most `j + 1` digits. -/
theorem shortest_bounds {m : Magnitude} (hm : m.InRange) (tie : Tie) :
    ∃ j : Nat, j ≤ 22 ∧ (shortest tie m).exponent = ceiling m - j ∧
      (digits (shortest tie m).coefficient).length ≤ j + 1 := by
  obtain ⟨j, hj, hexponent, hcoefficient⟩ := search_bounds m tie 22 (ceiling m)
  refine ⟨j, hj, hexponent, (Nat.length_toDigits_le_iff (by decide) j.succ_pos).2 ?_⟩
  calc (shortest tie m).coefficient ≤ (Grid.at m (ceiling m - j)).floor m + 1 := hcoefficient
    _ ≤ 10 ^ j := floor_lt hm j
    _ < 10 ^ (j + 1) := Nat.pow_lt_pow_right (by decide) j.lt_succ_self

/-! ### Texts -/

theorem length_intText_le {n : Int} {k : Nat} (hk : 0 < k) (h : n.natAbs < 10 ^ k) :
    (intText n).toList.length ≤ k + 1 := by
  have hdigits := (Nat.length_toDigits_le_iff (by decide) hk).2 h
  unfold intText digits
  split
  · simpa using hdigits
  · simpa using Nat.le_succ_of_le hdigits

theorem mem_intText {n : Int} {c : Char} (h : c ∈ (intText n).toList) : c.isDigit ∨ c = '-' := by
  have hdigits := (allDigits_digits n.natAbs).2
  unfold intText at h
  split at h
  · have hc : c = '-' ∨ c ∈ digits n.natAbs := by simpa using h
    exact hc.symm.imp_left (hdigits c)
  · exact .inl (hdigits c (by simpa using h))

namespace Numeral

theorem length_positional_le (d : Numeral) :
    (d.positional false).toList.length ≤ (digits d.coefficient).length + d.exponent.natAbs + 2 := by
  unfold positional
  dsimp only
  split
  · simp
    omega
  split
  · simp
    omega
  · simp
    omega

theorem mem_positional {d : Numeral} {c : Char} (h : c ∈ (d.positional false).toList) :
    c.isDigit ∨ c = '.' := by
  have hdigits := (allDigits_digits d.coefficient).2
  unfold positional at h
  dsimp only at h
  split at h
  · have hc : c ∈ digits d.coefficient ∨ c ∈ List.replicate d.exponent.toNat '0' := by simpa using h
    exact .inl (hc.elim (hdigits c) (isDigit_zeros _ c))
  split at h
  · simp only [String.toList_ofList, List.mem_append, List.mem_cons] at h
    rcases h with h | rfl | h
    · exact .inl (hdigits c (List.mem_of_mem_take h))
    · exact .inr rfl
    · exact .inl (hdigits c (List.mem_of_mem_drop h))
  · simp only [String.toList_append, String.toList_ofList, List.mem_append] at h
    rcases h with h | h | h
    · have hc : c = '0' ∨ c = '.' := by simpa using h
      exact hc.imp_left fun hzero => by rw [hzero]; rfl
    · exact .inl (isDigit_zeros _ c h)
    · exact .inl (hdigits c h)

/-- The exponent of a numeral with its mark comes after all digits, between the first and the others of
which stands a point. -/
theorem toList_scientific (d : Numeral) : ∃ first rest point, digits d.coefficient = first :: rest ∧
    (point = [] ∨ point = ['.']) ∧
      (d.scientific false).toList = first :: (point ++ rest) ++ 'e' :: (intText d.order).toList := by
  obtain ⟨first, rest, hd⟩ := List.exists_cons_of_ne_nil (allDigits_digits d.coefficient).1
  refine ⟨first, rest, if rest = [] then [] else ['.'], hd, ?_, ?_⟩
  · split
    · exact .inl rfl
    · exact .inr rfl
  · unfold scientific
    dsimp only
    rw [hd]
    cases rest <;> simp

theorem length_scientific_le (d : Numeral) : (d.scientific false).toList.length ≤
    (digits d.coefficient).length + (intText d.order).toList.length + 2 := by
  obtain ⟨first, rest, point, hd, hpoint, htext⟩ := d.toList_scientific
  rw [htext, hd]
  rcases hpoint with rfl | rfl
  · simp
    omega
  · simp
    omega

theorem mem_scientific {d : Numeral} {c : Char} (h : c ∈ (d.scientific false).toList) :
    c.isDigit ∨ c = '.' ∨ c = 'e' ∨ c = '-' := by
  obtain ⟨first, rest, point, hd, hpoint, htext⟩ := d.toList_scientific
  have hdigits := (allDigits_digits d.coefficient).2
  rw [hd] at hdigits
  simp only [htext, List.mem_append, List.mem_cons] at h
  rcases h with (rfl | h | h) | rfl | h
  · exact .inl (hdigits c (List.mem_cons_self ..))
  · rcases hpoint with rfl | rfl
    · exact absurd h List.not_mem_nil
    · exact .inr (.inl (List.mem_singleton.1 h))
  · exact .inl (hdigits c (List.mem_cons_of_mem _ h))
  · exact .inr (.inr (.inl rfl))
  · exact (mem_intText h).imp_right fun hc => .inr (.inr hc)

end Numeral

/-! ### Numbers of a line -/

/-- Digits, and the few characters that stand between them. -/
def InNumeral (c : Char) : Prop := c.isDigit ∨ c = '.' ∨ c = 'e' ∨ c = '-'

theorem InNumeral.ascii {c : Char} (h : InNumeral c) : c.toNat < 0x80 := by
  rcases h with h | rfl | rfl | rfl
  · exact ascii_of_isDigit h
  all_goals decide

theorem not_hasExponent {cs : List Char} (h : ∀ c ∈ cs, c.isDigit ∨ c = '.' ∨ c = '-') :
    ¬ Json.HasExponent cs := by
  rintro (he | he)
  · simpa using h 'e' he
  · simpa using h 'E' he

section Magnitudes

variable {m : Magnitude}

/-- In a line a zero is the digit, and any other number its shortest decimal: with all digits in place
unless it is extreme. -/
theorem magnitude_line_cases (m : Magnitude) :
    m.value = 0 ∧ Spelling.line.magnitude m = "0" ∨
      0 < m.significand ∧ ¬ Extreme m.value ∧
        Spelling.line.magnitude m = (shortest .up m).positional false ∨
      0 < m.significand ∧ Extreme m.value ∧
        Spelling.line.magnitude m = (shortest .up m).scientific false := by
  by_cases hz : m.isZero
  · refine .inl ⟨Magnitude.isZero_iff.1 hz, ?_⟩
    simp only [Spelling.magnitude, hz, if_true, Bool.true_or]
    decide
  · have hpos : 0 < m.significand := Nat.pos_of_ne_zero (by simpa [Magnitude.isZero] using hz)
    have hplaces : (m.atLeastTenTo (-4) && !m.atLeastTenTo 21) = true ↔ ¬ Extreme m.value := by
      have hlarge := m.atLeastTenTo_iff 21
      have hsmall := m.atLeastTenTo_iff (-4)
      rw [zpow_ofNat] at hlarge
      simp only [Extreme, Magnitude.value_pos hpos, true_and, not_or, not_lt, ← hlarge, ← hsmall,
        Bool.and_eq_true, Bool.not_eq_true', Bool.not_eq_true]
      exact and_comm
    have htext : Spelling.line.magnitude m =
        if m.atLeastTenTo (-4) && !m.atLeastTenTo 21 then (shortest .up m).positional false
        else (shortest .up m).scientific false := by
      simp only [Spelling.magnitude, hz, Bool.false_eq_true, if_false, Bool.false_or]
      rfl
    by_cases hm : Extreme m.value
    · exact .inr (.inr ⟨hpos, hm, by rw [htext, if_neg (by simpa [hplaces] using hm)]⟩)
    · exact .inr (.inl ⟨hpos, hm, by rw [htext, if_pos (hplaces.2 hm)]⟩)

theorem mem_magnitude_line {c : Char} (h : c ∈ (Spelling.line.magnitude m).toList) : InNumeral c := by
  rcases magnitude_line_cases m with ⟨-, htext⟩ | ⟨-, -, htext⟩ | ⟨-, -, htext⟩
  · obtain rfl : c = '0' := by simpa [htext] using h
    exact .inl rfl
  · exact (Numeral.mem_positional (htext ▸ h)).imp_right .inl
  · exact Numeral.mem_scientific (htext ▸ h)

theorem hasExponent_magnitude_iff (m : Magnitude) :
    Json.HasExponent (Spelling.line.magnitude m).toList ↔ Extreme m.value := by
  rcases magnitude_line_cases m with ⟨hz, htext⟩ | ⟨-, hm, htext⟩ | ⟨-, hm, htext⟩
  · have hzero : ¬ Extreme m.value := by
      rw [hz]
      norm_num [Extreme]
    rw [htext]
    exact iff_of_false (not_hasExponent (by simp)) hzero
  · rw [htext]
    exact iff_of_false
      (not_hasExponent fun c hc => (Numeral.mem_positional hc).imp_right .inl) hm
  · obtain ⟨first, rest, point, -, -, hd⟩ := (shortest .up m).toList_scientific
    rw [htext, hd]
    exact iff_of_true (.inl (by simp)) hm

theorem length_magnitude_line_le (hm : m.InRange) :
    (Spelling.line.magnitude m).toList.length ≤ 50 := by
  obtain ⟨j, hj, hexponent, hdigits⟩ := shortest_bounds hm .up
  rcases magnitude_line_cases m with ⟨-, htext⟩ | ⟨hpos, hm, htext⟩ | ⟨-, -, htext⟩
  · rw [htext]
    decide
  · have hceiling := Magnitude.ceiling_of_not_extreme hpos hm
    have hlength := (shortest .up m).length_positional_le
    rw [htext]
    omega
  · have hlength := (shortest .up m).length_scientific_le
    have hceiling : -400 < ceiling m ∧ ceiling m < 400 := by
      obtain ⟨hfirst, hleast, hgreatest⟩ := hm
      unfold ceiling
      omega
    have horder : (shortest .up m).order.natAbs < 10 ^ 3 := by
      have hsome := List.length_pos_iff.2 (allDigits_digits (shortest .up m).coefficient).1
      unfold Numeral.order
      omega
    have hexponent := length_intText_le (by decide) horder
    rw [htext]
    omega

end Magnitudes

namespace Binary

/-- The size of a number. What is infinite has none. -/
def abs? : Binary → Option ℚ
  | .finite _ m => some m.value
  | _ => none

/-- Finite numbers are as large as doubles are. -/
def InRange (x : Binary) : Prop := ∀ negative m, x = .finite negative m → m.InRange

variable {x : Binary}

/-- What is no number is told in words, and a number with its sign. -/
theorem text_line_cases (x : Binary) :
    x.abs? = none ∧ Spelling.line.text x ∈ ["\"NaN\"", "\"+Inf\"", "\"-Inf\""] ∨
      ∃ negative m sign, x = .finite negative m ∧ (sign = [] ∨ sign = ['-']) ∧
        (Spelling.line.text x).toList = sign ++ (Spelling.line.magnitude m).toList := by
  cases x with
  | nan => exact .inl ⟨rfl, by simp [Spelling.text, Spelling.line]⟩
  | infinite negative => cases negative <;> exact .inl ⟨rfl, by simp [Spelling.text, Spelling.line]⟩
  | finite negative m =>
    cases negative with
    | true => exact .inr ⟨true, m, ['-'], rfl, .inr rfl, by simp [Spelling.text]⟩
    | false => exact .inr ⟨false, m, [], rfl, .inl rfl, by simp [Spelling.text]⟩

theorem length_line_le (hx : x.InRange) : (Spelling.line.text x).toList.length ≤ 51 := by
  rcases text_line_cases x with ⟨-, hword⟩ | ⟨negative, m, sign, hm, hsign, htext⟩
  · have hall : ∀ word ∈ ["\"NaN\"", "\"+Inf\"", "\"-Inf\""], word.toList.length ≤ 51 := by decide
    exact hall _ hword
  · have hlength := length_magnitude_line_le (hx negative m hm)
    have hone : sign.length ≤ 1 := by rcases hsign with rfl | rfl <;> simp
    rw [htext, List.length_append]
    omega

theorem isNumber_or_word (hx : x.InRange) : Json.IsNumber (Spelling.line.text x).toList ∨
    Spelling.line.text x ∈ ["\"NaN\"", "\"+Inf\"", "\"-Inf\""] := by
  rcases text_line_cases x with ⟨-, hword⟩ | ⟨negative, m, -, rfl, -, -⟩
  · exact .inr hword
  · exact .inl (isNumber_line (hx negative m rfl) negative)

theorem hasExponent_line_iff (x : Binary) : Json.HasExponent (Spelling.line.text x).toList ↔
    ∃ size, x.abs? = some size ∧ Extreme size := by
  rcases text_line_cases x with ⟨hnone, hword⟩ | ⟨negative, m, sign, rfl, hsign, htext⟩
  · have hall : ∀ word ∈ ["\"NaN\"", "\"+Inf\"", "\"-Inf\""],
        'e' ∉ word.toList ∧ 'E' ∉ word.toList := by decide
    simpa [hnone, Json.HasExponent] using hall _ hword
  · have hsize := hasExponent_magnitude_iff m
    rw [htext]
    rcases hsign with rfl | rfl
    · simpa [abs?] using hsize
    · simpa [abs?, Json.HasExponent] using hsize

theorem ascii_line (x : Binary) : ∀ c ∈ (Spelling.line.text x).toList, c.toNat < 0x80 := by
  rcases text_line_cases x with ⟨-, hword⟩ | ⟨negative, m, sign, -, hsign, htext⟩
  · have hall : ∀ word ∈ ["\"NaN\"", "\"+Inf\"", "\"-Inf\""], ∀ c ∈ word.toList, c.toNat < 0x80 := by
      simp
    exact hall _ hword
  · intro c hc
    rw [htext] at hc
    rcases List.mem_append.1 hc with hc | hc
    · rcases hsign with rfl | rfl
      · exact absurd hc List.not_mem_nil
      · exact (List.mem_singleton.1 hc).symm ▸ (by decide)
    · exact (mem_magnitude_line hc).ascii

end Binary

end Decimal

end Logline
