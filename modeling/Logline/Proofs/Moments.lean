import Mathlib.Algebra.Group.Nat.Defs
import Mathlib.Data.List.Forall2
import Logline.Proofs.Decimal.Numbers
import Logline.Proofs.Text.Escaping
import Logline.Line.Layout

/-!
Timestamps and the order of time (`timestamps_in_order`). A moment of the calendar is later than
another one if it has more seconds since the year 0 began, and of the same second the one with more
nanoseconds is later; that is the order of its fields one by one (`before_iff`). Its text tells the
fields in digits at fixed places. Digits of the same width are in the order of their numbers
(`Field.lt_iff`), so texts are in the order of time, leap seconds included, as long as the digits of
their years are (`bytes_text_lt_iff`). Every field is filled up to its width but the year: a year
before 1000 has fewer digits than four, and `999-12-31` stands behind `1000-01-01`.
-/

namespace Logline

open Text Script

/-! ### Days that are counted -/

/-- What comes before the `n`th of some lengths one after the other. -/
def lengthBefore (length : Nat → Nat) : Nat → Nat
  | 0 => 0
  | n + 1 => lengthBefore length n + length n

theorem lengthBefore_of_lt {length : Nat → Nat} {i j : Nat} (h : i < j) :
    lengthBefore length i + length i ≤ lengthBefore length j := by
  induction j with
  | zero => omega
  | succ j ih =>
    rw [lengthBefore]
    rcases Nat.lt_succ_iff_lt_or_eq.1 h with hlt | rfl
    · exact Nat.le_add_right_of_le (ih hlt)
    · omega

/-- Of places within lengths one after the other the lengths count first. -/
theorem lengthBefore_lt_iff {length : Nat → Nat} {i j d e : Nat} (hd : d < length i)
    (he : e < length j) :
    lengthBefore length i + d < lengthBefore length j + e ↔ i < j ∨ i = j ∧ d < e := by
  rcases Nat.lt_trichotomy i j with h | rfl | h
  · have hbefore : lengthBefore length i + length i ≤ lengthBefore length j :=
      lengthBefore_of_lt h
    omega
  · omega
  · have hbefore : lengthBefore length j + length j ≤ lengthBefore length i :=
      lengthBefore_of_lt h
    omega

theorem lengthBefore_const (place n : Nat) : lengthBefore (fun _ => place) n = place * n := by
  induction n with
  | zero => rfl
  | succ n ih => rw [lengthBefore, ih, Nat.mul_succ]

namespace Moment

def isLeap (year : Nat) : Bool := year % 4 = 0 && (year % 100 ≠ 0 || year % 400 = 0)

/-- The days of a month, months counted from 0. -/
def monthLength (year month : Nat) : Nat :=
  match month with
  | 1 => if isLeap year then 29 else 28
  | 3 | 5 | 8 | 10 => 30
  | _ => 31

def yearLength (year : Nat) : Nat := lengthBefore (monthLength year) 12

/-- The moment is one of the calendar, in a year of at most four digits. In a leap second the
nanoseconds run on for another second. -/
structure InCalendar (m : Moment) : Prop where
  year : 0 ≤ m.year ∧ m.year < 10000
  month : 1 ≤ m.month ∧ m.month ≤ 12
  day : 1 ≤ m.day ∧ m.day ≤ monthLength m.year.toNat (m.month - 1)
  hour : m.hour < 24
  minute : m.minute < 60
  second : m.second < 60
  nanosecond : m.nanosecond < 2000000000

/-- Days since the year 0 began. -/
def days (m : Moment) : Nat :=
  lengthBefore yearLength m.year.toNat +
    (lengthBefore (monthLength m.year.toNat) (m.month - 1) + (m.day - 1))

/-- Seconds since the year 0 began, leap seconds not counted. -/
def seconds (m : Moment) : Nat := ((m.days * 24 + m.hour) * 60 + m.minute) * 60 + m.second

/-- One moment is earlier than another one. -/
def Before (t u : Moment) : Prop :=
  t.seconds < u.seconds ∨ t.seconds = u.seconds ∧ t.nanosecond < u.nanosecond

instance (t u : Moment) : Decidable (t.Before u) :=
  inferInstanceAs (Decidable (t.seconds < u.seconds ∨ _))

/-- What the calendar and the clock show. -/
def fields (m : Moment) : List Nat :=
  [m.year.toNat, m.month, m.day, m.hour, m.minute, m.second, m.nanosecond]

variable {t u : Moment}

theorem InCalendar.dayOfYear_lt (ht : t.InCalendar) :
    lengthBefore (monthLength t.year.toNat) (t.month - 1) + (t.day - 1) <
      yearLength t.year.toNat := by
  obtain ⟨hfirst, hlast⟩ := ht.month
  obtain ⟨hday, hin⟩ := ht.day
  have hbefore : lengthBefore (monthLength t.year.toNat) (t.month - 1) +
      monthLength t.year.toNat (t.month - 1) ≤ yearLength t.year.toNat :=
    lengthBefore_of_lt (by omega)
  omega

theorem days_lt_iff (ht : t.InCalendar) (hu : u.InCalendar) :
    t.days < u.days ↔ t.year.toNat < u.year.toNat ∨ t.year.toNat = u.year.toNat ∧
      (t.month < u.month ∨ t.month = u.month ∧ t.day < u.day) := by
  have hyear := lengthBefore_lt_iff ht.dayOfYear_lt hu.dayOfYear_lt
  rw [days, days, hyear]
  refine or_congr_right (and_congr_right fun hsame => ?_)
  obtain ⟨htday, htlast⟩ := ht.day
  obtain ⟨huday, hulast⟩ := hu.day
  rw [← hsame] at hulast ⊢
  have htin : t.day - 1 < monthLength t.year.toNat (t.month - 1) := by omega
  have huin : u.day - 1 < monthLength t.year.toNat (u.month - 1) := by omega
  have htmonth := ht.month
  have humonth := hu.month
  rw [lengthBefore_lt_iff htin huin]
  omega

/-- Time goes by the fields in their order. -/
theorem before_iff (ht : t.InCalendar) (hu : u.InCalendar) :
    t.Before u ↔ t.fields < u.fields := by
  have hlt := days_lt_iff ht hu
  have hgt := days_lt_iff hu ht
  have h1 := ht.hour
  have h2 := ht.minute
  have h3 := ht.second
  have h4 := hu.hour
  have h5 := hu.minute
  have h6 := hu.second
  simp only [fields, List.cons_lt_cons_iff, List.lt_irrefl, and_false, or_false]
  simp only [Before, seconds]
  omega

end Moment

/-! ### Digits in their order -/

namespace Decimal

/-- Digits that tell a number, filled up to a width. -/
structure Field (width n : Nat) (ds : List Char) : Prop where
  digits : ∀ d ∈ ds, d.isDigit
  width : ds.length = width
  value : Nat.ofDigitChars 10 ds 0 = n

variable {width v n m : Nat} {a b ds : List Char} {c d : Char}

theorem field_digits (n : Nat) : Field (digits n).length n (digits n) :=
  ⟨(allDigits_digits n).2, rfl, Nat.ofDigitChars_ten_toDigits⟩

/-- Digits with zeros before them up to a width. -/
def filled (width n : Nat) : List Char :=
  List.replicate (width - (digits n).length) '0' ++ digits n

theorem field_filled (hwidth : 0 < width) (hn : n < 10 ^ width) :
    Field width n (filled width n) where
  digits := List.forall_mem_append.2 ⟨isDigit_zeros _, (allDigits_digits n).2⟩
  width := by
    have hlength : (digits n).length ≤ width :=
      (Nat.length_toDigits_le_iff (by decide) hwidth).2 hn
    rw [filled, List.length_append, List.length_replicate]
    omega
  value := by
    rw [filled, Nat.ofDigitChars_append, Nat.ofDigitChars_replicate_zero, Nat.mul_zero]
    exact Nat.ofDigitChars_ten_toDigits

theorem value_cons (d : Char) (ds : List Char) :
    Nat.ofDigitChars 10 (d :: ds) 0 =
      10 ^ ds.length * (d.toNat - '0'.toNat) + Nat.ofDigitChars 10 ds 0 := by
  rw [Nat.ofDigitChars_cons, Nat.mul_zero, Nat.zero_add, Nat.ofDigitChars_eq_ofDigitChars_zero]

theorem value_lt (h : ∀ d ∈ ds, d.isDigit) : Nat.ofDigitChars 10 ds 0 < 10 ^ ds.length := by
  induction ds with
  | nil => simp
  | cons d ds ih =>
    obtain ⟨hd, hds⟩ := List.forall_mem_cons.1 h
    obtain ⟨-, hlast⟩ := isDigit_iff.1 hd
    have hplace : 10 ^ ds.length * (d.toNat - '0'.toNat) ≤ 10 ^ ds.length * 9 :=
      Nat.mul_le_mul_left _ (by omega)
    have hrest := ih hds
    rw [value_cons, List.length_cons, Nat.pow_succ]
    omega

theorem lt_iff_toNat_lt : c < d ↔ c.toNat < d.toNat := UInt32.lt_iff_toNat_lt

/-- Of two numbers the first digits count first. -/
theorem place_lt_iff {place x y : Nat} (hv : v < place) (hn : n < place) :
    place * x + v < place * y + n ↔ x < y ∨ x = y ∧ v < n := by
  have hplaces : lengthBefore (fun _ => place) x + v < lengthBefore (fun _ => place) y + n ↔
      x < y ∨ x = y ∧ v < n := lengthBefore_lt_iff hv hn
  rwa [lengthBefore_const, lengthBefore_const] at hplaces

theorem digits_lt_iff (ha : ∀ d ∈ a, d.isDigit) (hb : ∀ d ∈ b, d.isDigit)
    (hlength : a.length = b.length) :
    a < b ↔ Nat.ofDigitChars 10 a 0 < Nat.ofDigitChars 10 b 0 := by
  induction a generalizing b with
  | nil =>
    obtain rfl : b = [] := List.eq_nil_of_length_eq_zero hlength.symm
    simp
  | cons c a ih =>
    cases b with
    | nil => cases hlength
    | cons d b =>
      obtain ⟨hc, ha⟩ := List.forall_mem_cons.1 ha
      obtain ⟨hd, hb⟩ := List.forall_mem_cons.1 hb
      have hrest : a.length = b.length := Nat.succ.inj hlength
      obtain ⟨hc, -⟩ := isDigit_iff.1 hc
      obtain ⟨hd, -⟩ := isDigit_iff.1 hd
      have hvalue := value_lt ha
      rw [hrest] at hvalue
      have hlt : c < d ↔ c.toNat - '0'.toNat < d.toNat - '0'.toNat := by
        rw [lt_iff_toNat_lt]
        omega
      have heq : c = d ↔ c.toNat - '0'.toNat = d.toNat - '0'.toNat := by
        rw [← Char.toNat_inj]
        omega
      rw [List.cons_lt_cons_iff, ih ha hb hrest, value_cons, value_cons, hrest,
        place_lt_iff hvalue (value_lt hb), hlt, heq]

/-- Digits of the same width are in the order of their numbers. -/
theorem Field.lt_iff (ha : Field width n a) (hb : Field width m b) : a < b ↔ n < m := by
  rw [digits_lt_iff ha.digits hb.digits (ha.width.trans hb.width.symm), ha.value, hb.value]

end Decimal

/-! ### Texts in their order -/

namespace Text

theorem append_lt_append_iff {a b s t : List Char} (h : a.length = b.length) :
    a ++ s < b ++ t ↔ a < b ∨ a = b ∧ s < t := by
  induction a generalizing b with
  | nil =>
    obtain rfl : b = [] := List.eq_nil_of_length_eq_zero h.symm
    simp
  | cons c a ih =>
    cases b with
    | nil => cases h
    | cons d b =>
      rw [List.cons_append, List.cons_append, List.cons_lt_cons_iff, List.cons_lt_cons_iff,
        ih (Nat.succ.inj h), List.cons.injEq, and_or_left, and_assoc, or_assoc]

/-- Bytes of a text that is plain ASCII are in the order of its characters. -/
theorem encode_lt_iff {s t : List Char} (hs : ∀ c ∈ s, c.toNat < 0x80)
    (ht : ∀ c ∈ t, c.toNat < 0x80) : encode s < encode t ↔ s < t := by
  induction s generalizing t with
  | nil =>
    cases t with
    | nil => exact iff_of_false (List.lt_irrefl _) (List.lt_irrefl _)
    | cons d t =>
      rw [encode_cons_ascii (List.forall_mem_cons.1 ht).1]
      exact iff_of_true (List.nil_lt_cons ..) (List.nil_lt_cons ..)
  | cons c s ih =>
    obtain ⟨hc, hs⟩ := List.forall_mem_cons.1 hs
    cases t with
    | nil =>
      rw [encode_cons_ascii hc]
      exact iff_of_false (List.not_lt_nil _) (List.not_lt_nil _)
    | cons d t =>
      obtain ⟨hd, ht⟩ := List.forall_mem_cons.1 ht
      have hbyte : ∀ {n : Nat}, n < 0x80 → (UInt8.ofNat n).toNat = n := fun hn =>
        UInt8.toNat_ofNat_of_lt' (Nat.lt_trans hn (by decide))
      rw [encode_cons_ascii hc, encode_cons_ascii hd, List.cons_lt_cons_iff, List.cons_lt_cons_iff,
        ih hs ht, UInt8.lt_iff_toNat_lt, ← UInt8.toNat_inj, hbyte hc, hbyte hd,
        Decimal.lt_iff_toNat_lt, Char.toNat_inj]

end Text

/-! ### The text of a moment -/

namespace Moment

open Decimal

/-- Marks, each with the digits after it. -/
def marked : List (String × Nat) → List Nat → List Char
  | (mark, width) :: shape, n :: ns => mark.toList ++ (filled width n ++ marked shape ns)
  | _, _ => []

/-- The marks after the year, and how many digits stand behind each. -/
def shape (sep : String) : List (String × Nat) :=
  [("-", 2), ("-", 2), (sep, 2), (":", 2), (":", 2), (".", 4)]

/-- What is said after the year. -/
def shown (m : Moment) : List Nat := [m.month, m.day, m.hour, m.minute, m.second, m.fraction]

/-- Every number has a digit or more, and has no more than there are to be behind its mark. -/
def Fits : List (String × Nat) → List Nat → Prop :=
  List.Forall₂ fun mark n => 0 < mark.2 ∧ n < 10 ^ mark.2

variable {m t u : Moment} {width n k : Nat} {sep : String} {r : List Char} {ns ks : List Nat}
  {marks : List (String × Nat)}

theorem toList_padded (width n : Nat) :
    (padded width n).flatMap String.toList = filled width n := by
  rw [padded, filled, List.flatMap_append, List.flatMap_replicate]
  simp

theorem toList_text (h : 0 ≤ m.year) (sep : String) :
    (m.text sep).toList = digits m.year.toNat ++ (marked (shape sep) m.shown ++ ['Z']) := by
  have hyear : signed m.year = [String.ofList (digits m.year.toNat)] := by
    have habs : m.year.natAbs = m.year.toNat := by omega
    rw [signed, if_neg (Int.not_lt.2 h), habs, List.nil_append]
  simp [text, String.toList_join, pieces, hyear, shape, shown, marked, toList_padded]

theorem marked_lt_iff (hn : Fits marks ns) (hk : Fits marks ks) :
    marked marks ns ++ r < marked marks ks ++ r ↔ ns < ks := by
  induction hn generalizing ks with
  | nil =>
    cases hk
    exact iff_of_false (List.lt_irrefl _) (List.lt_irrefl _)
  | @cons mark n marks ns hfirst _ ih =>
    obtain _ | @⟨_, k, _, ks, hother, hrest⟩ := hk
    have hn := field_filled hfirst.1 hfirst.2
    have hk := field_filled hother.1 hother.2
    have hsame : filled mark.2 n = filled mark.2 k ↔ n = k :=
      ⟨fun h => by rw [← hn.value, h, hk.value], fun h => by rw [h]⟩
    simp only [marked, List.append_assoc]
    rw [append_lt_append_iff rfl, append_lt_append_iff (hn.width.trans hk.width.symm), hn.lt_iff hk,
      hsame, ih hrest, List.cons_lt_cons_iff]
    simp

/-- A year of fewer digits ends with a dash where the other one goes on, and a dash comes before
all digits. -/
theorem dashed_lt_iff {a b r s : List Char} (ha : ∀ d ∈ a, d.isDigit) (hb : ∀ d ∈ b, d.isDigit)
    (hlength : a.length ≤ b.length) (hne : a ≠ b) :
    b ++ '-' :: s < a ++ '-' :: r ↔ b < a := by
  induction a generalizing b with
  | nil =>
    obtain ⟨d, b, rfl⟩ := List.exists_cons_of_ne_nil hne.symm
    obtain ⟨hdigit, -⟩ := isDigit_iff.1 (List.forall_mem_cons.1 hb).1
    have hdash : ¬ (d < '-' ∨ d = '-' ∧ b ++ '-' :: s < r) := by
      rintro (h | ⟨rfl, -⟩)
      · exact absurd (lt_iff_toNat_lt.1 h) (Nat.not_lt.2 (Nat.le_trans (by decide) hdigit))
      · exact absurd hdigit (by decide)
    rw [List.cons_append, List.nil_append, List.cons_lt_cons_iff]
    exact iff_of_false hdash (List.not_lt_nil _)
  | cons c a ih =>
    cases b with
    | nil => simp at hlength
    | cons d b =>
      obtain ⟨-, ha⟩ := List.forall_mem_cons.1 ha
      obtain ⟨-, hb⟩ := List.forall_mem_cons.1 hb
      rw [List.cons_append, List.cons_append, List.cons_lt_cons_iff, List.cons_lt_cons_iff]
      have hrest : a.length ≤ b.length := Nat.le_of_succ_le_succ hlength
      refine or_congr_right (and_congr_right fun hfirst => ih ha hb hrest ?_)
      rintro rfl
      exact hne (by rw [hfirst])

theorem fraction_lt : m.fraction < 10 ^ 4 := by
  simp only [fraction]
  omega

theorem monthLength_le (year month : Nat) : monthLength year month ≤ 31 := by
  unfold monthLength
  split
  · split <;> decide
  all_goals decide

theorem InCalendar.fits (ht : t.InCalendar) : Fits (shape sep) t.shown := by
  have hmonth := ht.month
  have hday := Nat.le_trans ht.day.2 (monthLength_le _ _)
  have hhour := ht.hour
  have hminute := ht.minute
  have hsecond := ht.second
  simp only [Fits, shape, shown, List.forall₂_cons]
  refine ⟨?_, ?_, ?_, ?_, ?_, ⟨by decide, fraction_lt⟩, .nil⟩ <;> omega

/-- A moment that is not earlier is in a later year, or is said to be no earlier in the same one. -/
theorem year_lt_or_not_shown_lt (ht : t.InCalendar) (hu : u.InCalendar) (h : ¬ u.Before t) :
    t.year.toNat < u.year.toNat ∨ t.year.toNat = u.year.toNat ∧ ¬ u.shown < t.shown := by
  rw [before_iff hu ht] at h
  simp only [fields, shown, fraction, List.cons_lt_cons_iff, List.lt_irrefl, and_false,
    or_false] at h ⊢
  omega

theorem length_digits_le (h : n ≤ k) : (digits n).length ≤ (digits k).length :=
  (Nat.length_toDigits_le_iff (by decide) Nat.length_toDigits_pos).2
    (Nat.lt_of_le_of_lt h ((Nat.length_toDigits_le_iff (by decide) Nat.length_toDigits_pos).1
      (Nat.le_refl _)))

theorem toList_text_lt_iff (ht : t.InCalendar) (hu : u.InCalendar) (h : ¬ u.Before t) :
    (u.text sep).toList < (t.text sep).toList ↔
      digits u.year.toNat < digits t.year.toNat := by
  rw [toList_text ht.year.1, toList_text hu.year.1]
  rcases year_lt_or_not_shown_lt ht hu h with hyear | ⟨hyear, hshown⟩
  · have hne : digits t.year.toNat ≠ digits u.year.toNat := fun hsame => by
      have hvalue := congrArg (fun ds => Nat.ofDigitChars 10 ds 0) hsame
      simp only [(field_digits _).value] at hvalue
      omega
    exact dashed_lt_iff (field_digits _).digits (field_digits _).digits
      (length_digits_le (Nat.le_of_lt hyear)) hne
  · rw [hyear, append_lt_append_iff rfl, marked_lt_iff hu.fits ht.fits]
    simp [hshown]

theorem ascii_marked (hmarks : ∀ x ∈ marks, ∀ c ∈ x.1.toList, c.toNat < 0x80) :
    ∀ c ∈ marked marks ns, c.toNat < 0x80 := by
  induction marks generalizing ns with
  | nil => simp [marked]
  | cons mark marks ih =>
    cases ns with
    | nil => simp [marked]
    | cons n ns =>
      obtain ⟨hmark, hmarks⟩ := List.forall_mem_cons.1 hmarks
      have hdigits : ∀ c ∈ filled mark.2 n, c.toNat < 0x80 := fun c hc =>
        ascii_of_isDigit <| (List.mem_append.1 hc).elim (isDigit_zeros _ c)
          ((allDigits_digits n).2 c)
      rw [marked, List.forall_mem_append, List.forall_mem_append]
      exact ⟨hmark, hdigits, ih hmarks⟩

theorem ascii_text (h : 0 ≤ m.year) (hsep : ∀ c ∈ sep.toList, c.toNat < 0x80) :
    ∀ c ∈ (m.text sep).toList, c.toNat < 0x80 := by
  have hmarks : ∀ x ∈ shape sep, ∀ c ∈ x.1.toList, c.toNat < 0x80 := by
    simpa [shape] using hsep
  rw [toList_text h, List.forall_mem_append, List.forall_mem_append]
  have hyear : ∀ c ∈ digits m.year.toNat, c.toNat < 0x80 := fun c hc =>
    ascii_of_isDigit ((allDigits_digits _).2 c hc)
  exact ⟨hyear, ascii_marked hmarks, by simp⟩

theorem bytes_text_lt_iff (ht : t.InCalendar) (hu : u.InCalendar) (h : ¬ u.Before t)
    (hsep : ∀ c ∈ sep.toList, c.toNat < 0x80) :
    bytes (u.text sep) < bytes (t.text sep) ↔ digits u.year.toNat < digits t.year.toNat := by
  rw [bytes, bytes, encode_lt_iff (ascii_text hu.year.1 hsep) (ascii_text ht.year.1 hsep),
    toList_text_lt_iff ht hu h]

/-- The text tells the fields of the moment in their order, each in as many digits as given and all
but the year at their full width, the time cut to a tenth of a millisecond. -/
def Shows (m : Moment) (sep : String) (yearWidth : Nat) (cs : List Char) : Prop :=
  ∃ year month day hour minute second fraction,
    cs = year ++ '-' :: month ++ '-' :: day ++ sep.toList ++
      hour ++ ':' :: minute ++ ':' :: second ++ '.' :: fraction ++ ['Z'] ∧
    Field yearWidth m.year.toNat year ∧ Field 2 m.month month ∧ Field 2 m.day day ∧
    Field 2 m.hour hour ∧ Field 2 m.minute minute ∧ Field 2 m.second second ∧
    Field 4 (if m.nanosecond < 1000000000 then m.nanosecond / 100000 else 9999) fraction

theorem fraction_eq (m : Moment) :
    m.fraction = if m.nanosecond < 1000000000 then m.nanosecond / 100000 else 9999 := by
  rw [fraction]
  split <;> omega

theorem shows_text (ht : t.InCalendar) :
    t.Shows sep (digits t.year.toNat).length (t.text sep).toList := by
  have hmonth := ht.month
  have hday := Nat.le_trans ht.day.2 (monthLength_le _ _)
  have hhour := ht.hour
  have hminute := ht.minute
  have hsecond := ht.second
  have htwo : ∀ {n : Nat}, n < 100 → Field 2 n (filled 2 n) := field_filled Nat.zero_lt_two
  refine ⟨digits t.year.toNat, filled 2 t.month, filled 2 t.day, filled 2 t.hour,
    filled 2 t.minute, filled 2 t.second, filled 4 t.fraction, ?_, field_digits _,
    htwo (by omega), htwo (by omega), htwo (by omega), htwo (by omega), htwo (by omega), ?_⟩
  · simp [toList_text ht.year.1, shape, shown, marked]
  · rw [← fraction_eq]
    exact field_filled (by decide) fraction_lt

theorem Shows.length {cs : List Char} (h : m.Shows sep width cs) :
    cs.length = width + sep.toList.length + 20 := by
  obtain ⟨year, month, day, hour, minute, second, fraction, rfl, hyear, hmonth, hday, hhour,
    hminute, hsecond, hfraction⟩ := h
  simp only [List.length_append, List.length_cons, List.length_nil, hyear.width, hmonth.width,
    hday.width, hhour.width, hminute.width, hsecond.width, hfraction.width]
  omega

theorem shows_text_iff (ht : t.InCalendar) (width : Nat) :
    t.Shows sep width (t.text sep).toList ↔ width = (digits t.year.toNat).length := by
  refine ⟨fun h => ?_, fun h => h ▸ shows_text ht⟩
  have hown : t.Shows sep _ (t.text sep).toList := shows_text ht
  have hlength := h.length.symm.trans hown.length
  omega

theorem length_year (ht : t.InCalendar) : (digits t.year.toNat).length = 4 ↔ 1000 ≤ t.year := by
  have hshort : (digits t.year.toNat).length ≤ 3 ↔ t.year.toNat < 10 ^ 3 :=
    Nat.length_toDigits_le_iff (by decide) (by decide)
  have hlong : (digits t.year.toNat).length ≤ 4 ↔ t.year.toNat < 10 ^ 4 :=
    Nat.length_toDigits_le_iff (by decide) (by decide)
  have hyear := ht.year
  omega

/-- Years of four digits are in the order of time. -/
theorem not_digits_year_lt (ht : t.InCalendar) (hu : u.InCalendar) (h : ¬ u.Before t)
    (hfull : 1000 ≤ t.year) : ¬ digits u.year.toNat < digits t.year.toNat := by
  have hle : t.year.toNat ≤ u.year.toNat := by
    rcases year_lt_or_not_shown_lt ht hu h with hlt | ⟨heq, -⟩
    · exact Nat.le_of_lt hlt
    · exact Nat.le_of_eq heq
  have hother : 1000 ≤ u.year := by
    have hyear := hu.year
    omega
  have hwidth : (digits u.year.toNat).length = (digits t.year.toNat).length :=
    ((length_year hu).2 hother).trans ((length_year ht).2 hfull).symm
  have hfield := field_digits u.year.toNat
  rw [hwidth] at hfield
  rw [hfield.lt_iff (field_digits _)]
  exact Nat.not_lt.2 hle

end Moment

/-! ### Timestamps of lines -/

namespace Layout

/-- What parts date and time. -/
def dateMark (s : Settings) : String := if s.labels.isNone then " " else "T"

theorem ascii_dateMark (s : Settings) : ∀ c ∈ (dateMark s).toList, c.toNat < 0x80 := by
  unfold dateMark
  split <;> simp

theorem wording_texts (texts : List String) (owed : Bool) :
    Script.wording (texts.map text) owed = (encode (texts.flatMap String.toList), owed) := by
  induction texts with
  | nil => rfl
  | cons s texts ih =>
    simp [text, Script.wording, Instr.wording, ih, bytes, encode_append]

/-- A line tells its time in quotes. -/
theorem wording_timestamp (s : Settings) (t : Moment) (owed : Bool) :
    Script.wording (timestamp s fun _ => t) owed =
      (bytes ((if owed then ", " else "") ++ "\"" ++ t.text (dateMark s) ++ "\""), true) := by
  have hparted : (if owed then bytes ", " else []) = bytes (if owed then ", " else "") := by
    cases owed <;> rfl
  have hpieces : ((t.pieces (dateMark s)).flatMap String.toList) ++ ['Z', '"'] =
      (t.text (dateMark s) ++ "\"").toList := by
    simp [Moment.text, String.toList_join]
  simp only [timestamp, itemMark, List.cons_append, Script.wording, Instr.wording, hparted]
  rw [Script.wording_append, ← dateMark, wording_texts]
  simp [text, Script.wording, Instr.wording, bytes, ← encode_append, hpieces]

end Layout

/-- A timestamp tells its moment in digits at fixed places, and from the year 1000 on a later moment
never stands before an earlier one. The year is not filled up: before, it has fewer digits, and a
later moment stands before an earlier one if the digits of its year do. -/
theorem timestamps_in_order (s : Settings) (owed : Bool) {t u : Moment} (ht : t.InCalendar)
    (hu : u.InCalendar) (h : ¬ u.Before t) :
    Script.wording (Layout.timestamp s fun _ => t) owed =
      (bytes ((if owed then ", " else "") ++ "\"" ++ t.text (Layout.dateMark s) ++ "\""), true) ∧
    (∀ width, t.Shows (Layout.dateMark s) width (t.text (Layout.dateMark s)).toList ↔
      width = (Decimal.digits t.year.toNat).length) ∧
    (t.Shows (Layout.dateMark s) 4 (t.text (Layout.dateMark s)).toList ↔ 1000 ≤ t.year) ∧
    (bytes (u.text (Layout.dateMark s)) < bytes (t.text (Layout.dateMark s)) ↔
      Decimal.digits u.year.toNat < Decimal.digits t.year.toNat) ∧
    (1000 ≤ t.year →
      ¬ bytes (u.text (Layout.dateMark s)) < bytes (t.text (Layout.dateMark s))) := by
  have hascii := Layout.ascii_dateMark s
  have horder := Moment.bytes_text_lt_iff ht hu h hascii
  have hfull : t.Shows (Layout.dateMark s) 4 (t.text (Layout.dateMark s)).toList ↔
      1000 ≤ t.year := (Moment.shows_text_iff ht 4).trans (eq_comm.trans (Moment.length_year ht))
  exact ⟨Layout.wording_timestamp s t owed, Moment.shows_text_iff ht, hfull, horder,
    fun hyear hless => Moment.not_digits_year_lt ht hu h hyear (horder.1 hless)⟩

/-- The last moment of the year 999, within a leap second, stands behind the first one of the year
1000. -/
theorem year_of_three_digits :
    let s := Settings.initial none
    let t : Moment := ⟨999, 12, 31, 23, 59, 59, 1999999999⟩
    let u : Moment := ⟨1000, 1, 1, 0, 0, 0, 0⟩
    t.InCalendar ∧ u.InCalendar ∧ t.Before u ∧
      Script.wording (Layout.timestamp s fun _ => t) true =
        (bytes ", \"999-12-31 23:59:59.9999Z\"", true) ∧
      t.Shows " " 3 (t.text " ").toList ∧ ¬ t.Shows " " 4 (t.text " ").toList ∧
      bytes (u.text " ") < bytes (t.text " ") := by
  intro s t u
  have ht : t.InCalendar := by constructor <;> decide +kernel
  have hu : u.InCalendar := by constructor <;> decide +kernel
  have hnot : ¬ u.Before t := by decide +kernel
  obtain ⟨hwording, hshows, hfull, horder, -⟩ := timestamps_in_order s true ht hu hnot
  have htext : bytes ((if true then ", " else "") ++ "\"" ++ t.text " " ++ "\"") =
      bytes ", \"999-12-31 23:59:59.9999Z\"" := by decide +kernel
  refine ⟨ht, hu, by decide +kernel, hwording.trans (congrArg (·, true) htext),
    (hshows 3).2 (by decide +kernel), fun h => ?_, horder.2 (by decide +kernel)⟩
  exact absurd (hfull.1 h) (by decide +kernel)

end Logline
