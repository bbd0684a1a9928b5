import Logline.Decimal.Notation
import Logline.Proofs.Json.Reading

/-!
Numbers in a line are numbers of JSON, read to their last character: whole numbers
(`isNumber_intText`) and finite floating-point numbers in either notation (`isNumber_line`). For the
latter the decimal found must not be zero; a float that is not zero never comes to a zero decimal
(`coefficient_shortest_pos`), since the grids that are tried reach below its first digit.
-/

namespace Logline

open Json

namespace Decimal

/-! ### Digits -/

def AllDigits (ds : List Char) : Prop := ds ≠ [] ∧ ∀ d ∈ ds, d.isDigit = true

theorem AllDigits.append {a b : List Char} (ha : AllDigits a) (hb : ∀ d ∈ b, d.isDigit = true) :
    AllDigits (a ++ b) := by
  refine ⟨by simp [ha.1], fun d hd => ?_⟩
  rcases List.mem_append.1 hd with h | h
  · exact ha.2 d h
  · exact hb d h

theorem allDigits_digits (n : Nat) : AllDigits (digits n) :=
  ⟨Nat.toDigits_ne_nil, fun _ hd => Nat.isDigit_of_mem_toDigits (by decide) (by decide) hd⟩

theorem isDigit_zeros (n : Nat) : ∀ d ∈ List.replicate n '0', d.isDigit = true := by
  intro d hd
  rw [List.eq_of_mem_replicate hd]
  rfl

theorem isDigit_iff {d : Char} :
    d.isDigit ↔ '0'.toNat ≤ d.toNat ∧ d.toNat < '0'.toNat + 10 := by
  have hrange : d.toNat < 58 ↔ d.toNat ≤ 57 := by omega
  simp [Char.isDigit, UInt32.le_iff_toNat_le, hrange]

theorem ascii_of_isDigit {c : Char} (h : c.isDigit) : c.toNat < 0x80 := by
  obtain ⟨-, hlast⟩ := isDigit_iff.1 h
  exact Nat.lt_of_lt_of_le hlast (by decide)

/-- The first digit of a number that is not zero is not zero. -/
theorem head_digits {n : Nat} (h : 0 < n) : ∃ c cs, digits n = c :: cs ∧ c ≠ '0' := by
  induction n using Nat.strong_induction_on with
  | _ n ih =>
    by_cases hn : n < 10
    · refine ⟨n.digitChar, [], Nat.toDigits_of_lt_base hn, ?_⟩
      have hall : ∀ m < 10, 0 < m → m.digitChar ≠ '0' := by decide
      exact hall n hn h
    · obtain ⟨c, cs, hd, hc⟩ := ih (n / 10) (by omega) (by omega)
      refine ⟨c, cs ++ [(n % 10).digitChar], ?_, hc⟩
      have hstep : digits n = digits (n / 10) ++ [(n % 10).digitChar] :=
        Nat.toDigits_of_base_le (by decide) (by omega)
      rw [hstep, hd]
      rfl

/-- What follows does not go on with the digits. -/
theorem readDigits_allDigits {ds t : List Char} (h : AllDigits ds)
    (ht : ∀ c ∈ t.head?, c.isDigit = false) : readDigits (ds ++ t) = some (ds, t) := by
  obtain ⟨htake, hdrop⟩ := takeWhile_append_of_head (s := ds) ht
  have hall : ds.takeWhile Char.isDigit = ds := by
    rw [List.takeWhile_eq_self_iff]
    exact h.2
  have hnone : ds.dropWhile Char.isDigit = [] := List.dropWhile_eq_nil_iff.2 h.2
  unfold readDigits
  rw [htake, hdrop, hall, hnone]
  split
  · exact absurd rfl h.1
  · rfl

/-- The part of a number before its point and exponent. -/
structure IsWhole (ds : List Char) : Prop where
  digits : AllDigits ds
  lead : ds = ['0'] ∨ ds.head? ≠ some '0'

theorem isWhole_zero : IsWhole ['0'] := ⟨⟨by simp, by simp⟩, .inl rfl⟩

theorem isWhole_digits (n : Nat) : IsWhole (digits n) := by
  refine ⟨allDigits_digits n, ?_⟩
  by_cases h : 0 < n
  · obtain ⟨c, cs, hd, hc⟩ := head_digits h
    exact .inr (by simpa [hd] using hc)
  · obtain rfl : n = 0 := by omega
    exact .inl (Nat.toDigits_zero 10)

theorem readWhole_isWhole {ds t : List Char} (h : IsWhole ds)
    (ht : ∀ c ∈ t.head?, c.isDigit = false) : readWhole (ds ++ t) = some (ds, t) := by
  rcases h.lead with rfl | hlead
  · rfl
  · obtain ⟨c, cs, rfl⟩ := List.exists_cons_of_ne_nil h.digits.1
    have hc : c ≠ '0' := by simpa using hlead
    rw [List.cons_append, readWhole_of_ne_zero hc, ← List.cons_append]
    exact readDigits_allDigits h.digits ht

theorem IsWhole.not_sign {ds : List Char} (h : IsWhole ds) : ∀ c ∈ ds.head?, c ≠ '-' := by
  intro c hc
  rintro rfl
  have hd := h.digits.2 '-' (List.mem_of_mem_head? hc)
  simp at hd

theorem readSign_sign_append {sign s : List Char} (hsign : sign = [] ∨ sign = ['-'])
    (h : ∀ c ∈ s.head?, c ≠ '-') : readSign (sign ++ s) = (sign, s) := by
  rcases hsign with rfl | rfl
  · rw [List.nil_append]
    unfold readSign
    split
    · exact absurd rfl (h '-' (by simp))
    · rfl
  · rfl

/-- An exponent with its mark, negative or not. -/
def IsExponent (es : List Char) : Prop :=
  ∃ sign ds, (sign = [] ∨ sign = ['-']) ∧ AllDigits ds ∧ es = 'e' :: sign ++ ds

theorem readExponent_isExponent {es : List Char} (h : IsExponent es) :
    readExponent es = some (es, []) := by
  obtain ⟨sign, ds, hsign, hds, rfl⟩ := h
  have hread := readDigits_allDigits (t := []) hds (by simp)
  rw [List.append_nil] at hread
  have hes : readExponentSign (sign ++ ds) = (sign, ds) := by
    rcases hsign with rfl | rfl
    · obtain ⟨c, cs, rfl⟩ := List.exists_cons_of_ne_nil hds.1
      have hc := hds.2 c (List.mem_cons_self ..)
      have hm : c ≠ '-' ∧ c ≠ '+' := by
        constructor <;> rintro rfl <;> simp at hc
      simp [readExponentSign, hm]
    · rfl
  rw [List.cons_append, readExponent_mark (.inl rfl), hes, hread]
  rfl

theorem isExponent_order (n : Int) : IsExponent ('e' :: (intText n).toList) := by
  unfold intText
  split
  · exact ⟨['-'], digits n.natAbs, .inr rfl, allDigits_digits _, by simp⟩
  · exact ⟨[], digits n.natAbs, .inl rfl, allDigits_digits _, by simp⟩

theorem not_digit_of_exponent {es : List Char} (h : es = [] ∨ IsExponent es) :
    ∀ c ∈ es.head?, c.isDigit = false ∧ c ≠ '.' := by
  rcases h with rfl | ⟨sign, ds, -, -, rfl⟩
  · simp
  · simp

/-- Sign, whole part, fraction and exponent, of which all but the whole part may be missing. -/
theorem isNumber_of_parts {sign whole fraction exponent : List Char}
    (hsign : sign = [] ∨ sign = ['-']) (hw : IsWhole whole)
    (hf : fraction = [] ∨ ∃ ds, AllDigits ds ∧ fraction = '.' :: ds)
    (he : exponent = [] ∨ IsExponent exponent) :
    IsNumber (sign ++ (whole ++ (fraction ++ exponent))) := by
  have hhead := not_digit_of_exponent he
  have hfraction : readFraction (fraction ++ exponent) = some (fraction, exponent) := by
    rcases hf with rfl | ⟨ds, hds, rfl⟩
    · exact readFraction_none fun c hc => (hhead c hc).2
    · rw [List.cons_append, readFraction_point, readDigits_allDigits hds fun c hc => (hhead c hc).1]
      rfl
  have hexponent : readExponent exponent = some (exponent, []) := by
    rcases he with rfl | he
    · rfl
    · exact readExponent_isExponent he
  have hnext : ∀ c ∈ (fraction ++ exponent).head?, c.isDigit = false := by
    rcases hf with rfl | ⟨ds, -, rfl⟩
    · exact fun c hc => (hhead c hc).1
    · simp
  have hstart : ∀ c ∈ (whole ++ (fraction ++ exponent)).head?, c ≠ '-' := by
    rw [List.head?_append_of_ne_nil _ hw.digits.1]
    exact hw.not_sign
  have hs := readSign_sign_append hsign hstart
  exact readNumber_eq_some.2 ⟨whole, fraction ++ exponent, fraction, exponent, exponent,
    by rw [hs]; exact readWhole_isWhole hw hnext, hfraction, hexponent, by rw [hs]; simp⟩

theorem isNumber_intText (n : Int) : IsNumber (intText n).toList := by
  have h := fun {sign : List Char} (hs : sign = [] ∨ sign = ['-']) =>
    isNumber_of_parts hs (isWhole_digits n.natAbs) (.inl rfl) (.inl rfl)
  unfold intText
  split
  · simpa using h (.inr rfl)
  · simpa using h (.inl rfl)

/-! ### Characters of numbers -/

theorem printable_of_isDigit {c : Char} (h : c.isDigit = true) : 0x20 ≤ c.toNat ∧ c.toNat ≠ 0x7F := by
  have hd : 0x30 ≤ c.toNat ∧ c.toNat ≤ 0x39 := by
    simpa [Char.isDigit, UInt32.le_iff_toNat_le] using h
  omega

theorem printable_readDigits {s ds r : List Char} (h : readDigits s = some (ds, r)) :
    Text.Printable ds := by
  unfold readDigits at h
  split at h
  · simp at h
  · obtain ⟨rfl, -⟩ := Prod.mk.inj (Option.some.inj h)
    exact fun c hc => printable_of_isDigit (List.mem_takeWhile_imp hc)

theorem printable_signs {s : List Char} :
    Text.Printable (readSign s).1 ∧ Text.Printable (readExponentSign s).1 := by
  constructor
  · unfold readSign
    split <;> simp [Text.Printable]
  · unfold readExponentSign
    split <;> simp [Text.Printable]

/-- A number has no control character in it. -/
theorem printable_of_isNumber {cs : List Char} (h : IsNumber cs) : Text.Printable cs := by
  obtain ⟨whole, a, fraction, b, exponent, hw, hf, he, hcs⟩ := readNumber_eq_some.1 h
  have hwhole : Text.Printable whole := by
    unfold readWhole at hw
    split at hw
    · obtain ⟨rfl, -⟩ := Prod.mk.inj (Option.some.inj hw)
      simp [Text.Printable]
    · exact printable_readDigits hw
  have hfraction : Text.Printable fraction := by
    unfold readFraction at hf
    split at hf
    · obtain ⟨⟨ds, r⟩, hd, heq⟩ := Option.map_eq_some_iff.1 hf
      obtain ⟨rfl, -⟩ := Prod.mk.inj heq
      exact Text.Printable.append (a := ['.']) (by simp [Text.Printable]) (printable_readDigits hd)
    · obtain ⟨rfl, -⟩ := Prod.mk.inj (Option.some.inj hf)
      simp [Text.Printable]
  have hexponent : Text.Printable exponent := by
    unfold readExponent at he
    split at he
    · next c rest =>
      split at he
      · next hc =>
        obtain ⟨⟨ds, r⟩, hd, heq⟩ := Option.map_eq_some_iff.1 he
        obtain ⟨rfl, -⟩ := Prod.mk.inj heq
        have hmark : Text.Printable [c] := by
          simp only [Bool.or_eq_true, decide_eq_true_eq] at hc
          rcases hc with rfl | rfl <;> simp [Text.Printable]
        exact (hmark.append printable_signs.2).append (printable_readDigits hd)
      · obtain ⟨rfl, -⟩ := Prod.mk.inj (Option.some.inj he)
        simp [Text.Printable]
    · obtain ⟨rfl, -⟩ := Prod.mk.inj (Option.some.inj he)
      simp [Text.Printable]
  rw [hcs]
  exact ((printable_signs.1.append hwhole).append hfraction).append hexponent

/-! ### Decimals -/

/-- The text of a decimal that is not zero, unless it is the plain zero. -/
theorem isNumber_positional {sign : List Char} {d : Numeral} (hsign : sign = [] ∨ sign = ['-'])
    (h : 0 < d.coefficient ∨ d = ⟨0, 0⟩) : IsNumber (sign ++ (d.positional false).toList) := by
  rcases h with h | rfl
  · obtain ⟨c, cs, hd, hc⟩ := head_digits h
    have hall := allDigits_digits d.coefficient
    have hlead : ∀ ds, (c :: ds).head? ≠ some '0' := fun ds => by simpa using hc
    unfold Numeral.positional
    dsimp only
    split
    · have hw : IsWhole (digits d.coefficient ++ List.replicate d.exponent.toNat '0') :=
        ⟨hall.append (isDigit_zeros _), .inr (by rw [hd]; exact hlead _)⟩
      simpa using isNumber_of_parts hsign hw (.inl rfl) (.inl rfl)
    split
    · next hneg hpos =>
      generalize hn : (((digits d.coefficient).length : Int) + d.exponent).toNat = n
      have hn1 : 0 < n := by omega
      have hn2 : n < (digits d.coefficient).length := by omega
      have hw : IsWhole ((digits d.coefficient).take n) := by
        refine ⟨⟨?_, fun x hx => hall.2 x (List.mem_of_mem_take hx)⟩, .inr ?_⟩
        · simp [hd]
          omega
        · obtain ⟨k, rfl⟩ : ∃ k, n = k + 1 := ⟨n - 1, by omega⟩
          rw [hd]
          exact hlead _
      have hf : AllDigits ((digits d.coefficient).drop n) :=
        ⟨by simp; omega, fun x hx => hall.2 x (List.mem_of_mem_drop hx)⟩
      simpa using isNumber_of_parts hsign hw (.inr ⟨_, hf, rfl⟩) (.inl rfl)
    · have hf : AllDigits (List.replicate (-(((digits d.coefficient).length : Int) +
          d.exponent)).toNat '0' ++ digits d.coefficient) := by
        refine ⟨by simp [hall.1], fun x hx => ?_⟩
        rcases List.mem_append.1 hx with hx | hx
        · exact isDigit_zeros _ x hx
        · exact hall.2 x hx
      have hn := isNumber_of_parts hsign isWhole_zero (.inr ⟨_, hf, rfl⟩) (.inl rfl)
      simpa using hn
  · have hz : (Numeral.positional false ⟨0, 0⟩).toList = ['0'] := by decide
    rw [hz]
    simpa using isNumber_of_parts hsign isWhole_zero (.inl rfl) (.inl rfl)

theorem isNumber_scientific {sign : List Char} {d : Numeral} (hsign : sign = [] ∨ sign = ['-'])
    (h : 0 < d.coefficient) : IsNumber (sign ++ (d.scientific false).toList) := by
  obtain ⟨c, cs, hd, hc⟩ := head_digits h
  have hall := allDigits_digits d.coefficient
  rw [hd] at hall
  have hw : IsWhole [c] := ⟨⟨by simp, fun x hx => hall.2 x (by simp_all)⟩, .inr (by simpa using hc)⟩
  have he := isExponent_order d.order
  unfold Numeral.scientific
  dsimp only
  rw [hd]
  cases cs with
  | nil => simpa using isNumber_of_parts hsign hw (.inl rfl) (.inr he)
  | cons c' cs =>
    have hf : AllDigits (c' :: cs) := ⟨by simp, fun x hx => hall.2 x (List.mem_cons_of_mem c hx)⟩
    simpa using isNumber_of_parts hsign hw (.inr ⟨_, hf, rfl⟩) (.inr he)

/-! ### Floats never come to a zero decimal -/

namespace Magnitude

/-- The exponents of numbers of at most 64 bits, with the place of the first binary digit. -/
structure InRange (m : Magnitude) : Prop where
  first : m.significand.log2 < 53
  least : -1074 ≤ m.exponent
  greatest : m.exponent ≤ 971

end Magnitude

/-- A finite number is subnormal or has a hidden first digit. -/
theorem read_eq_finite {f : Format} {bits : Nat} {negative : Bool} {m : Magnitude}
    (h : f.read bits = .finite negative m) :
    ∃ fraction < Nat.pow 2 f.fractionBits, ∃ biased : Nat, biased + 1 < Nat.pow 2 f.exponentBits ∧
      m.significand = (if biased = 0 then fraction else fraction + Nat.pow 2 f.fractionBits) ∧
      m.exponent = 2 - Nat.pow 2 (f.exponentBits - 1) - f.fractionBits +
        (if biased = 0 then 0 else biased - 1 : Int) := by
  have hfraction : bits % Nat.pow 2 f.fractionBits < Nat.pow 2 f.fractionBits :=
    Nat.mod_lt bits (Nat.two_pow_pos _)
  have hbiased : bits / Nat.pow 2 f.fractionBits % Nat.pow 2 f.exponentBits <
      Nat.pow 2 f.exponentBits := Nat.mod_lt _ (Nat.two_pow_pos _)
  simp only [Format.read] at h
  generalize bits % Nat.pow 2 f.fractionBits = fraction at *
  generalize bits / Nat.pow 2 f.fractionBits % Nat.pow 2 f.exponentBits = biased at *
  generalize Nat.pow 2 f.exponentBits = top at *
  refine ⟨fraction, hfraction, biased, ?_⟩
  by_cases htop : biased = top - 1
  · rw [if_pos htop] at h
    by_cases h0 : fraction = 0 <;> simp [h0] at h
  · rw [if_neg htop] at h
    by_cases h0 : biased = 0
    · rw [if_pos h0, Binary.finite.injEq] at h
      obtain ⟨-, rfl⟩ := h
      exact ⟨by omega, by simp [h0], by simp [h0]⟩
    · rw [if_neg h0, Binary.finite.injEq] at h
      obtain ⟨-, rfl⟩ := h
      exact ⟨by omega, by simp [h0], by simp [h0]⟩

theorem inRange_of_read {f : Format} (hf : f = .single ∨ f = .double) {bits : Nat} {negative : Bool}
    {m : Magnitude} (h : f.read bits = .finite negative m) : m.InRange := by
  obtain ⟨fraction, hfraction, biased, hbiased, hs, he⟩ := read_eq_finite h
  have hlt : m.significand < 2 ^ 53 := by
    rcases hf with rfl | rfl <;> simp only [Format.single, Format.double, Nat.pow_eq] at * <;>
      split at hs <;> omega
  have hlog : m.significand.log2 < 53 := by
    by_cases h0 : m.significand = 0
    · simp [h0]
    · exact (Nat.log2_lt h0).2 hlt
  rcases hf with rfl | rfl <;> simp only [Format.single, Format.double, Nat.pow_eq] at * <;>
    split at he <;> exact ⟨hlog, by omega, by omega⟩

theorem lt_ten_pow (n : Nat) : Nat.pow 2 (13 * (n / 4)) ≤ Nat.pow 10 n := by
  calc 2 ^ (13 * (n / 4)) = (2 ^ 13) ^ (n / 4) := by rw [Nat.pow_mul]
    _ ≤ (10 ^ 4) ^ (n / 4) := Nat.pow_le_pow_left (by decide) _
    _ = 10 ^ (4 * (n / 4)) := by rw [Nat.pow_mul]
    _ ≤ 10 ^ n := Nat.pow_le_pow_right (by decide) (by omega)

theorem ten_pow_le (n : Nat) : Nat.pow 10 n ≤ Nat.pow 2 (10 * (n / 3 + 1)) := by
  calc 10 ^ n ≤ 10 ^ (3 * (n / 3 + 1)) := Nat.pow_le_pow_right (by decide) (by omega)
    _ = (10 ^ 3) ^ (n / 3 + 1) := by rw [Nat.pow_mul]
    _ ≤ (2 ^ 10) ^ (n / 3 + 1) := Nat.pow_le_pow_left (by decide) _
    _ = 2 ^ (10 * (n / 3 + 1)) := by rw [Nat.pow_mul]

/-- The last grid that is tried has a point between zero and the number. -/
theorem floor_last_pos {m : Magnitude} (hm : m.InRange) (h : 0 < m.significand) :
    0 < (Grid.at m (ceiling m - 22)).floor m := by
  obtain ⟨hfirst, hleast, hgreatest⟩ := hm
  have hs : 2 ^ m.significand.log2 ≤ m.significand := Nat.log2_self_le (by omega)
  have hc : ceiling m = (m.significand.log2 + m.exponent) * 30103 / 100000 + 2 := rfl
  generalize ceiling m = c at hc ⊢
  generalize m.significand.log2 = l at *
  refine Nat.div_pos ?_ (Nat.mul_pos (Nat.pow_pos (by decide)) (Nat.pow_pos (by decide)))
  simp only [Grid.at, Magnitude.quarters]
  generalize hu : (2 - m.exponent).toNat = u
  generalize hv : (m.exponent - 2).toNat = v
  generalize hp : (c - 22).toNat = p
  generalize hn : (-(c - 22)).toNat = n
  have hpow : 10 ^ p * 2 ^ u ≤ 2 ^ (l + 2 + v) * 10 ^ n := by
    by_cases h0 : n = 0
    · calc 10 ^ p * 2 ^ u ≤ 2 ^ (10 * (p / 3 + 1)) * 2 ^ u := Nat.mul_le_mul_right _ (ten_pow_le p)
        _ = 2 ^ (10 * (p / 3 + 1) + u) := (Nat.pow_add ..).symm
        _ ≤ 2 ^ (l + 2 + v) := Nat.pow_le_pow_right (by decide) (by omega)
        _ = 2 ^ (l + 2 + v) * 10 ^ n := by rw [h0, Nat.pow_zero, Nat.mul_one]
    · obtain rfl : p = 0 := by omega
      calc 10 ^ 0 * 2 ^ u = 2 ^ u := Nat.one_mul _
        _ ≤ 2 ^ (l + 2 + v + 13 * (n / 4)) := Nat.pow_le_pow_right (by decide) (by omega)
        _ = 2 ^ (l + 2 + v) * 2 ^ (13 * (n / 4)) := Nat.pow_add ..
        _ ≤ 2 ^ (l + 2 + v) * 10 ^ n := Nat.mul_le_mul_left _ (lt_ten_pow n)
  calc 10 ^ p * 2 ^ u ≤ 2 ^ (l + 2 + v) * 10 ^ n := hpow
    _ = 4 * 2 ^ l * (2 ^ v * 10 ^ n) := by rw [Nat.pow_add, Nat.pow_add]; grind
    _ ≤ 4 * m.significand * (2 ^ v * 10 ^ n) :=
      Nat.mul_le_mul_right _ (Nat.mul_le_mul_left _ hs)

/-- Zero rounds to no other number. -/
theorem pos_of_hits {m : Magnitude} (h : 0 < m.significand) {e : Int} {d : Nat}
    (hd : (Grid.at m e).hits m d = true) : 0 < d := by
  rcases Nat.eq_zero_or_pos d with rfl | hpos
  · have hscale : 0 < (Grid.at m e).scale :=
      Nat.mul_pos (Nat.pow_pos (by decide)) (Nat.pow_pos (by decide))
    have hlow : 0 < m.lowQuarters * (Grid.at m e).scale :=
      Nat.mul_pos (by unfold Magnitude.lowQuarters; split <;> omega) hscale
    have hhigh : 0 < m.highQuarters * (Grid.at m e).scale :=
      Nat.mul_pos (by unfold Magnitude.highQuarters; omega) hscale
    simp only [Grid.hits, Nat.zero_mul, Bool.or_eq_true, Bool.and_eq_true, decide_eq_true_eq] at hd
    omega
  · exact hpos

theorem pos_of_point? {m : Magnitude} (h : 0 < m.significand) {tie : Tie} {e : Int} {d : Nat}
    (hd : (Grid.at m e).point? m tie = some d) : 0 < d := by
  unfold Grid.point? at hd
  dsimp only at hd
  split at hd <;> cases hd
  · next hlow _ =>
    have hpos := pos_of_hits h hlow
    unfold Grid.nearer
    dsimp only
    repeat' split
    all_goals omega
  · next hlow _ => exact pos_of_hits h hlow
  · omega

theorem coefficient_search_pos {m : Magnitude} (h : 0 < m.significand) (tie : Tie) {grids : Nat}
    {e : Int} (hlast : 0 < (Grid.at m (e - grids)).floor m) :
    0 < (search m tie grids e).coefficient := by
  induction grids generalizing e with
  | zero => simpa [search] using hlast
  | succ grids ih =>
    unfold search
    split
    · next d hd => exact pos_of_point? h hd
    · exact ih (by rwa [show e - 1 - (grids : Int) = e - ((grids + 1 : Nat) : Int) by omega])

theorem coefficient_shortest_pos {m : Magnitude} (hm : m.InRange) (h : 0 < m.significand)
    (tie : Tie) : 0 < (shortest tie m).coefficient :=
  coefficient_search_pos h tie (floor_last_pos hm h)

/-- A finite float in a line is a number of JSON. -/
theorem isNumber_line {m : Magnitude} (hm : m.InRange) (negative : Bool) :
    IsNumber (Spelling.line.text (.finite negative m)).toList := by
  have hmagnitude : ∀ {sign : List Char}, sign = [] ∨ sign = ['-'] →
      IsNumber (sign ++ (Spelling.line.magnitude m).toList) := by
    intro sign hsign
    by_cases hz : m.isZero
    · simp only [Spelling.magnitude, hz, if_true, Bool.true_or]
      exact isNumber_positional hsign (.inr rfl)
    · have hpos : 0 < m.significand := Nat.pos_of_ne_zero (by simpa [Magnitude.isZero] using hz)
      have hd := coefficient_shortest_pos hm hpos Spelling.line.tie
      simp only [Spelling.magnitude, hz, Bool.false_eq_true, if_false, Bool.false_or]
      split
      · exact isNumber_positional hsign (.inl hd)
      · exact isNumber_scientific hsign hd
  cases negative with
  | true => simpa [Spelling.text] using hmagnitude (.inr rfl)
  | false => simpa [Spelling.text] using hmagnitude (.inl rfl)

end Decimal

end Logline
