import Mathlib.Data.List.TakeWhile
import Logline.Proofs.Json.Strings

/-!
The reader looks no further than a document goes: what it reads off a text it reads off any longer
one, unless that goes on like a number (`readValue_append`), and more depth than needed changes
nothing. So a document found to be one alone is one in any place of a larger text
(`reads_of_read?`).
-/

namespace Logline.Json

/-- What follows a number cannot be taken for a part of it. -/
def Ends (t : List Char) : Prop :=
  ∀ c ∈ t.head?, c.isDigit = false ∧ c ≠ '.' ∧ c ≠ 'e' ∧ c ≠ 'E'

theorem ends_nil : Ends [] := by
  simp [Ends]

theorem ends_cons {c : Char} {t : List Char}
    (h : c.isDigit = false ∧ c ≠ '.' ∧ c ≠ 'e' ∧ c ≠ 'E') : Ends (c :: t) := by
  simpa [Ends] using h

/-! ### Blanks -/

theorem skipBlanks_of_not_blank {c : Char} {s : List Char} (h : isBlank c = false) :
    skipBlanks (c :: s) = c :: s := by
  simp [skipBlanks, h]

theorem skipBlanks_append_of_cons {s t u : List Char} {c : Char} (h : skipBlanks s = c :: u) :
    skipBlanks (s ++ t) = c :: (u ++ t) := by
  induction s with
  | nil => simp [skipBlanks] at h
  | cons d s ih =>
    by_cases hd : isBlank d
    · simp only [skipBlanks, List.cons_append, List.dropWhile_cons, hd, if_true] at h ⊢
      exact ih h
    · simp only [skipBlanks, List.cons_append, List.dropWhile_cons, hd] at h ⊢
      simpa using congrArg (· ++ t) h

theorem skipBlanks_append_blanks {blanks t : List Char} (h : blanks.all isBlank = true) :
    skipBlanks (blanks ++ t) = skipBlanks t := by
  induction blanks with
  | nil => rfl
  | cons b blanks ih =>
    simp only [List.all_cons, Bool.and_eq_true] at h
    simpa [skipBlanks, h.1] using ih h.2

theorem all_isBlank_of_skipBlanks {s : List Char} (h : (skipBlanks s).isEmpty = true) :
    s.all isBlank = true := by
  simpa [skipBlanks, List.dropWhile_eq_nil_iff] using h

theorem skipBlanks_idem (s : List Char) : skipBlanks (skipBlanks s) = skipBlanks s := by
  induction s with
  | nil => rfl
  | cons c s ih =>
    by_cases hc : isBlank c
    · simpa [skipBlanks, hc] using ih
    · simp [skipBlanks, hc]

/-! ### Longer texts -/

theorem takeWhile_append_of_head {p : Char → Bool} {s t : List Char}
    (h : ∀ c ∈ t.head?, p c = false) :
    (s ++ t).takeWhile p = s.takeWhile p ∧ (s ++ t).dropWhile p = s.dropWhile p ++ t := by
  induction s with
  | nil =>
    cases t with
    | nil => simp
    | cons c t => simp [h c (by simp)]
  | cons c s ih =>
    by_cases hc : p c
    · simpa [hc] using ih
    · simp [hc]

theorem readDigits_append {s ds r t : List Char} (h : readDigits s = some (ds, r)) (ht : Ends t) :
    readDigits (s ++ t) = some (ds, r ++ t) := by
  obtain ⟨htake, hdrop⟩ := takeWhile_append_of_head (s := s) fun c hc => (ht c hc).1
  unfold readDigits at h ⊢
  rw [htake, hdrop]
  split at h
  · simp at h
  · obtain ⟨rfl, rfl⟩ := Prod.mk.inj (Option.some.inj h)
    rfl

theorem readWhole_of_ne_zero {c : Char} {s : List Char} (h : c ≠ '0') :
    readWhole (c :: s) = readDigits (c :: s) := by
  unfold readWhole
  split
  · next heq => exact absurd (List.cons.inj heq).1 h
  · rfl

theorem readWhole_append {s ds r t : List Char} (h : readWhole s = some (ds, r)) (ht : Ends t) :
    readWhole (s ++ t) = some (ds, r ++ t) := by
  cases s with
  | nil => simp [readWhole, readDigits] at h
  | cons c s =>
    by_cases hc : c = '0'
    · subst hc
      obtain ⟨rfl, rfl⟩ := Prod.mk.inj (Option.some.inj h)
      rfl
    · rw [readWhole_of_ne_zero hc] at h
      rw [List.cons_append, readWhole_of_ne_zero hc]
      exact readDigits_append h ht

theorem readFraction_point (s : List Char) :
    readFraction ('.' :: s) = (readDigits s).map fun r => ('.' :: r.1, r.2) := rfl

theorem readFraction_none {s : List Char} (h : ∀ c ∈ s.head?, c ≠ '.') :
    readFraction s = some ([], s) := by
  unfold readFraction
  split
  · next rest => exact absurd rfl (h '.' (by simp))
  · rfl

theorem readFraction_append {s ds r t : List Char} (h : readFraction s = some (ds, r))
    (ht : Ends t) : readFraction (s ++ t) = some (ds, r ++ t) := by
  cases s with
  | nil =>
    rw [List.nil_append, readFraction_none fun c hc => (ht c hc).2.1]
    obtain ⟨rfl, rfl⟩ := Prod.mk.inj (Option.some.inj h)
    rfl
  | cons c s =>
    by_cases hc : c = '.'
    · subst hc
      rw [readFraction_point, Option.map_eq_some_iff] at h
      obtain ⟨⟨ds', r'⟩, hd, heq⟩ := h
      obtain ⟨rfl, rfl⟩ := Prod.mk.inj heq
      rw [List.cons_append, readFraction_point, readDigits_append hd ht]
      rfl
    · have hs : ∀ u, readFraction (c :: u) = some ([], c :: u) := fun u =>
        readFraction_none (by simpa using hc)
      rw [hs] at h
      obtain ⟨rfl, rfl⟩ := Prod.mk.inj (Option.some.inj h)
      exact hs (s ++ t)

theorem readExponentSign_append {s t : List Char} (h : s ≠ []) :
    readExponentSign (s ++ t) = ((readExponentSign s).1, (readExponentSign s).2 ++ t) := by
  obtain ⟨c, s, rfl⟩ := List.exists_cons_of_ne_nil h
  rw [List.cons_append]
  unfold readExponentSign
  grind

theorem readExponent_mark {c : Char} (hc : c = 'e' ∨ c = 'E') (s : List Char) :
    readExponent (c :: s) =
      (readDigits (readExponentSign s).2).map fun r => (c :: (readExponentSign s).1 ++ r.1, r.2) := by
  simp [readExponent, hc]

theorem readExponent_none {s : List Char} (h : ∀ c ∈ s.head?, c ≠ 'e' ∧ c ≠ 'E') :
    readExponent s = some ([], s) := by
  cases s with
  | nil => rfl
  | cons c s => simp [readExponent, h c (by simp)]

theorem readExponent_append {s ds r t : List Char} (h : readExponent s = some (ds, r))
    (ht : Ends t) : readExponent (s ++ t) = some (ds, r ++ t) := by
  cases s with
  | nil =>
    rw [List.nil_append, readExponent_none fun c hc => (ht c hc).2.2]
    obtain ⟨rfl, rfl⟩ := Prod.mk.inj (Option.some.inj h)
    rfl
  | cons c s =>
    by_cases hc : c = 'e' ∨ c = 'E'
    · rw [readExponent_mark hc, Option.map_eq_some_iff] at h
      obtain ⟨⟨ds', r'⟩, hd, heq⟩ := h
      obtain ⟨rfl, rfl⟩ := Prod.mk.inj heq
      have hs : s ≠ [] := by
        rintro rfl
        simp [readExponentSign, readDigits] at hd
      rw [List.cons_append, readExponent_mark hc, readExponentSign_append hs,
        readDigits_append hd ht]
      rfl
    · have hs : ∀ u, readExponent (c :: u) = some ([], c :: u) := fun u =>
        readExponent_none (by simpa using hc)
      rw [hs] at h
      obtain ⟨rfl, rfl⟩ := Prod.mk.inj (Option.some.inj h)
      exact hs (s ++ t)

theorem readSign_append {s t : List Char} (h : s ≠ []) :
    readSign (s ++ t) = ((readSign s).1, (readSign s).2 ++ t) := by
  obtain ⟨c, s, rfl⟩ := List.exists_cons_of_ne_nil h
  rw [List.cons_append]
  unfold readSign
  grind

theorem readNumber_eq_some {s ds r : List Char} :
    readNumber s = some (ds, r) ↔ ∃ whole a fraction b exponent,
      readWhole (readSign s).2 = some (whole, a) ∧ readFraction a = some (fraction, b) ∧
        readExponent b = some (exponent, r) ∧
          ds = (readSign s).1 ++ whole ++ fraction ++ exponent := by
  simp only [readNumber, Option.bind_eq_bind, Option.bind_eq_some_iff, Prod.exists, pure,
    Option.some.injEq, Prod.mk.injEq]
  constructor
  · rintro ⟨whole, a, hw, fraction, b, hf, exponent, c, he, rfl, rfl⟩
    exact ⟨whole, a, fraction, b, exponent, hw, hf, he, rfl⟩
  · rintro ⟨whole, a, fraction, b, exponent, hw, hf, he, rfl⟩
    exact ⟨whole, a, hw, fraction, b, hf, exponent, r, he, rfl, rfl⟩

theorem readNumber_append {s ds r t : List Char} (h : readNumber s = some (ds, r))
    (ht : Ends t) : readNumber (s ++ t) = some (ds, r ++ t) := by
  obtain ⟨whole, a, fraction, b, exponent, hw, hf, he, rfl⟩ := readNumber_eq_some.1 h
  have hs : s ≠ [] := by
    rintro rfl
    simp [readSign, readWhole, readDigits] at hw
  have hsign := readSign_append (t := t) hs
  exact readNumber_eq_some.2 ⟨whole, a ++ t, fraction, b ++ t, exponent,
    by rw [hsign]; exact readWhole_append hw ht, readFraction_append hf ht,
    readExponent_append he ht, by rw [hsign]⟩

theorem andThen_eq_some {x : Char} {o : Option (List Char × List Char)} {cs r : List Char} :
    andThen x o = some (cs, r) ↔ ∃ ds, o = some (ds, r) ∧ cs = x :: ds := by
  cases o with
  | none => simp [andThen]
  | some p =>
    obtain ⟨ds, r'⟩ := p
    simp only [andThen, Option.bind_some, Option.some.injEq, Prod.mk.injEq]
    constructor
    · rintro ⟨rfl, rfl⟩
      exact ⟨ds, ⟨rfl, rfl⟩, rfl⟩
    · rintro ⟨_, ⟨rfl, rfl⟩, rfl⟩
      exact ⟨rfl, rfl⟩

/-- A string ends at its closing quote. -/
theorem readString_append {s cs r : List Char} (h : readString s = some (cs, r)) (t : List Char) :
    readString (s ++ t) = some (cs, r ++ t) := by
  have step : ∀ {x : Char} {s u : List Char}
      (ih : ∀ {cs r}, readString s = some (cs, r) → readString (s ++ t) = some (cs, r ++ t))
      {cs r : List Char}, andThen x (readString s) = some (cs, r) →
        readString u = andThen x (readString (s ++ t)) → readString u = some (cs, r ++ t) := by
    intro x s u ih cs r h hu
    obtain ⟨ds, hd, rfl⟩ := andThen_eq_some.1 h
    rw [hu, ih hd]
    rfl
  fun_induction readString s generalizing cs r with
  | case1 rest =>
    obtain ⟨rfl, rfl⟩ := Prod.mk.inj (Option.some.inj h)
    simp [readString]
  | case2 a b c d e f g h' rest ih2 ih1 =>
    simp only [Option.bind_eq_bind, Option.bind_eq_some_iff] at h
    obtain ⟨n, hn, h⟩ := h
    split at h
    · next x hx => exact step (x := x) ih2 h (readString_unit hn hx)
    · next hx =>
      simp only [Option.bind_eq_some_iff] at h
      obtain ⟨low, hlow, x, hpair, h⟩ := h
      exact step (x := x) ih1 (Option.bind_eq_some_iff.2 h) (readString_pair hn hlow hx hpair)
  | case3 a b c d rest hshort ih1 =>
    simp only [Option.bind_eq_bind, Option.bind_eq_some_iff] at h
    obtain ⟨n, hn, x, hx, h⟩ := h
    exact step (x := x) ih1 (Option.bind_eq_some_iff.2 h) (readString_unit hn hx)
  | case4 c rest _ _ ih1 =>
    simp only [Option.bind_eq_bind, Option.bind_eq_some_iff] at h
    obtain ⟨x, hx, h⟩ := h
    exact step (x := x) ih1 (Option.bind_eq_some_iff.2 h) (readString_letter hx)
  | case5 => exact absurd h (by simp)
  | case6 c rest hq _ _ _ _ hc =>
    rename_i ih1
    simp only [Bool.or_eq_true, decide_eq_true_eq, not_or, Nat.not_lt] at hc
    exact step (x := c) ih1 h (readString_plain hq hc.2 hc.1)
  | case7 => simp at h

/-! ### One step of the reader -/

theorem readValue_skipBlanks (fuel : Nat) (s : List Char) :
    readValue fuel (skipBlanks s) = readValue fuel s := by
  cases fuel with
  | zero => rfl
  | succ fuel => simp only [readValue, skipBlanks_idem]

theorem readValue_quote (fuel : Nat) (s : List Char) :
    readValue (fuel + 1) ('"' :: s) =
      (readString s).map fun r => (.string (String.ofList r.1), r.2) := by
  have hb : isBlank '"' = false := by decide
  cases hs : readString s <;> simp [readValue, skipBlanks_of_not_blank hb, hs]

theorem readValue_nil (fuel : Nat) : readValue fuel [] = none := by
  cases fuel with
  | zero => rfl
  | succ fuel => simp [readValue, skipBlanks, readNumber, readSign, readWhole, readDigits]

/-- The first character of a number. -/
def startsNumber (c : Char) : Bool := c.isDigit || c = '-'

theorem readNumber_eq_none {c : Char} {s : List Char} (h : startsNumber c = false) :
    readNumber (c :: s) = none := by
  simp only [startsNumber, Bool.or_eq_false_iff, decide_eq_false_iff_not] at h
  have hsign : readSign (c :: s) = ([], c :: s) := by
    unfold readSign
    grind
  have hzero : c ≠ '0' := by
    rintro rfl
    simp at h
  simp [readNumber, hsign, readWhole_of_ne_zero hzero, readDigits, h.1]

theorem readValue_number {c : Char} {s : List Char} (fuel : Nat) (h : startsNumber c = true) :
    readValue (fuel + 1) (c :: s) =
      (readNumber (c :: s)).map fun r => (.number (String.ofList r.1), r.2) := by
  have hblank : c ≠ ' ' ∧ c ≠ '\n' ∧ c ≠ '\r' ∧ c ≠ '\t' := by
    refine ⟨?_, ?_, ?_, ?_⟩ <;> rintro rfl <;> simp [startsNumber] at h
  have hb : isBlank c = false := by simp [isBlank, hblank]
  have hn : c ≠ 'n' ∧ c ≠ 't' ∧ c ≠ 'f' ∧ c ≠ '"' ∧ c ≠ '[' ∧ c ≠ '\x7b' := by
    refine ⟨?_, ?_, ?_, ?_, ?_, ?_⟩ <;> rintro rfl <;> simp [startsNumber] at h
  cases hs : readNumber (c :: s) <;> simp [readValue, skipBlanks_of_not_blank hb, hs, hn]

theorem startsNumber_of_readNumber {c : Char} {s : List Char} {r : List Char × List Char}
    (h : readNumber (c :: s) = some r) : startsNumber c = true := by
  cases hc : startsNumber c with
  | true => rfl
  | false => simp [readNumber_eq_none hc] at h

/-- Items up to the closing bracket, or none at all. -/
def readArray (fuel : Nat) (s : List Char) : Option (Json × List Char) :=
  match skipBlanks s with
  | ']' :: rest => some (.array [], rest)
  | rest => (readItems fuel rest).map fun r => (.array r.1, r.2)

/-- Members up to the closing brace, or none at all. -/
def readObject (fuel : Nat) (s : List Char) : Option (Json × List Char) :=
  match skipBlanks s with
  | '\x7d' :: rest => some (.object [], rest)
  | rest => (readMembers fuel rest).map fun r => (.object r.1, r.2)

theorem readValue_bracket (fuel : Nat) (s : List Char) :
    readValue (fuel + 1) ('[' :: s) = readArray fuel s := by
  have hb : isBlank '[' = false := by decide
  simp only [readValue, skipBlanks_of_not_blank hb, readArray]
  generalize skipBlanks s = u
  split
  · rfl
  · simp only [bind_pure_comp, Option.map_eq_map]

theorem readValue_brace (fuel : Nat) (s : List Char) :
    readValue (fuel + 1) ('\x7b' :: s) = readObject fuel s := by
  have hb : isBlank '\x7b' = false := by decide
  simp only [readValue, skipBlanks_of_not_blank hb, readObject]
  generalize skipBlanks s = u
  split
  · rfl
  · simp only [bind_pure_comp, Option.map_eq_map]

theorem readValue_null (fuel : Nat) (s : List Char) :
    readValue (fuel + 1) ('n' :: 'u' :: 'l' :: 'l' :: s) = some (.null, s) := by
  simp [readValue, skipBlanks_of_not_blank (show isBlank 'n' = false by decide)]

theorem readValue_true (fuel : Nat) (s : List Char) :
    readValue (fuel + 1) ('t' :: 'r' :: 'u' :: 'e' :: s) = some (.bool true, s) := by
  simp [readValue, skipBlanks_of_not_blank (show isBlank 't' = false by decide)]

theorem readValue_false (fuel : Nat) (s : List Char) :
    readValue (fuel + 1) ('f' :: 'a' :: 'l' :: 's' :: 'e' :: s) = some (.bool false, s) := by
  simp [readValue, skipBlanks_of_not_blank (show isBlank 'f' = false by decide)]

/-- What a document starts with once blanks are skipped decides how it is read. -/
theorem readValue_cases {fuel : Nat} {s : List Char} {j : Json} {r : List Char}
    (h : readValue (fuel + 1) s = some (j, r)) :
    (∃ u, skipBlanks s = 'n' :: 'u' :: 'l' :: 'l' :: u ∧ j = .null ∧ r = u) ∨
    (∃ u, skipBlanks s = 't' :: 'r' :: 'u' :: 'e' :: u ∧ j = .bool true ∧ r = u) ∨
    (∃ u, skipBlanks s = 'f' :: 'a' :: 'l' :: 's' :: 'e' :: u ∧ j = .bool false ∧ r = u) ∨
    (∃ u cs, skipBlanks s = '"' :: u ∧ readString u = some (cs, r) ∧
      j = .string (String.ofList cs)) ∨
    (∃ u, skipBlanks s = '[' :: u ∧ readArray fuel u = some (j, r)) ∨
    (∃ u, skipBlanks s = '\x7b' :: u ∧ readObject fuel u = some (j, r)) ∨
    (∃ c u cs, skipBlanks s = c :: u ∧ readNumber (c :: u) = some (cs, r) ∧
      j = .number (String.ofList cs)) := by
  have hread := h
  rw [← readValue_skipBlanks] at hread
  rw [readValue] at h
  split at h
  · next u hs => exact .inl ⟨u, hs, by simp_all⟩
  · next u hs => exact .inr (.inl ⟨u, hs, by simp_all⟩)
  · next u hs => exact .inr (.inr (.inl ⟨u, hs, by simp_all⟩))
  · next u hs =>
    rw [hs, readValue_quote, Option.map_eq_some_iff] at hread
    obtain ⟨⟨cs, r'⟩, hstring, heq⟩ := hread
    obtain ⟨rfl, rfl⟩ := Prod.mk.inj heq
    exact .inr (.inr (.inr (.inl ⟨u, cs, hs, hstring, rfl⟩)))
  · next u hs =>
    rw [hs, readValue_bracket] at hread
    exact .inr (.inr (.inr (.inr (.inl ⟨u, hs, hread⟩))))
  · next u hs =>
    rw [hs, readValue_brace] at hread
    exact .inr (.inr (.inr (.inr (.inr (.inl ⟨u, hs, hread⟩)))))
  · next =>
    cases hs : skipBlanks s with
    | nil => simp [hs, readValue_nil] at hread
    | cons c u =>
      simp only [hs, Option.bind_eq_bind, Option.bind_eq_some_iff] at h
      obtain ⟨⟨cs, r'⟩, hnumber, heq⟩ := h
      obtain ⟨rfl, rfl⟩ := Prod.mk.inj (Option.some.inj heq)
      exact .inr (.inr (.inr (.inr (.inr (.inr ⟨c, u, cs, rfl, hnumber, rfl⟩)))))

theorem readItems_eq_some {fuel : Nat} {s : List Char} {items : List Json} {r : List Char} :
    readItems (fuel + 1) s = some (items, r) ↔
      ∃ item a, readValue fuel s = some (item, a) ∧
        (skipBlanks a = ']' :: r ∧ items = [item] ∨
          ∃ u more, skipBlanks a = ',' :: u ∧ readItems fuel u = some (more, r) ∧
            items = item :: more) := by
  simp only [readItems, Option.bind_eq_bind, Option.bind_eq_some_iff, Prod.exists]
  refine exists_congr fun item => exists_congr fun a => and_congr_right fun _ => ?_
  split
  · next u hu => simp [hu, eq_comm, and_comm]
  · next u hu =>
    simp only [Option.bind_eq_some_iff, Prod.exists, pure, Option.some.injEq, Prod.mk.injEq]
    constructor
    · rintro ⟨more, r', hm, rfl, rfl⟩
      exact .inr ⟨u, more, hu, hm, rfl⟩
    · rintro (⟨hc, -⟩ | ⟨u', more, hu', hm, rfl⟩)
      · simp [hu] at hc
      · obtain rfl : u = u' := by simpa [hu] using hu'
        exact ⟨more, r, hm, rfl, rfl⟩
  · next hclose hcomma =>
    constructor
    · simp
    · rintro (⟨hc, -⟩ | ⟨u', more, hu', -, -⟩)
      · exact (hclose r hc).elim
      · exact (hcomma u' hu').elim

theorem readMembers_eq_some {fuel : Nat} {s : List Char} {members : List (String × Json)}
    {r : List Char} :
    readMembers (fuel + 1) s = some (members, r) ↔
      ∃ u key a v value b, skipBlanks s = '"' :: u ∧ readString u = some (key, a) ∧
        skipBlanks a = ':' :: v ∧ readValue fuel v = some (value, b) ∧
          (skipBlanks b = '\x7d' :: r ∧ members = [(String.ofList key, value)] ∨
            ∃ w more, skipBlanks b = ',' :: w ∧ readMembers fuel w = some (more, r) ∧
              members = (String.ofList key, value) :: more) := by
  constructor
  · intro h
    simp only [readMembers] at h
    split at h
    · next u hu =>
      simp only [Option.bind_eq_bind, Option.bind_eq_some_iff, Prod.exists] at h
      obtain ⟨key, a, hkey, h⟩ := h
      split at h
      · next v hv =>
        simp only [Option.bind_eq_some_iff, Prod.exists] at h
        obtain ⟨value, b, hvalue, h⟩ := h
        split at h
        · next w hw =>
          obtain ⟨rfl, rfl⟩ := Prod.mk.inj (Option.some.inj h)
          exact ⟨u, key, a, v, value, b, hu, hkey, hv, hvalue, .inl ⟨hw, rfl⟩⟩
        · next w hw =>
          simp only [Option.bind_eq_some_iff, Prod.exists] at h
          obtain ⟨more, r', hm, h⟩ := h
          obtain ⟨rfl, rfl⟩ := Prod.mk.inj (Option.some.inj h)
          exact ⟨u, key, a, v, value, b, hu, hkey, hv, hvalue, .inr ⟨w, more, hw, hm, rfl⟩⟩
        · simp at h
      · simp at h
    · simp at h
  · rintro ⟨u, key, a, v, value, b, hu, hkey, hv, hvalue, ⟨hb, rfl⟩ | ⟨w, more, hw, hm, rfl⟩⟩
    · simp [readMembers, hu, hkey, hv, hvalue, hb]
    · simp [readMembers, hu, hkey, hv, hvalue, hw, hm]

theorem readArray_eq_some {fuel : Nat} {s : List Char} {j : Json} {r : List Char} :
    readArray fuel s = some (j, r) ↔
      skipBlanks s = ']' :: r ∧ j = .array [] ∨
        (∀ u, skipBlanks s ≠ ']' :: u) ∧
          ∃ items, readItems fuel (skipBlanks s) = some (items, r) ∧ j = .array items := by
  unfold readArray
  split
  · next u hu => simp [hu, eq_comm, and_comm]
  · next hne =>
    simp only [Option.map_eq_some_iff, Prod.exists, Prod.mk.injEq]
    constructor
    · rintro ⟨items, r', hi, rfl, rfl⟩
      exact .inr ⟨hne, items, hi, rfl⟩
    · rintro (⟨hc, -⟩ | ⟨-, items, hi, rfl⟩)
      · exact (hne r hc).elim
      · exact ⟨items, r, hi, rfl, rfl⟩

theorem readObject_eq_some {fuel : Nat} {s : List Char} {j : Json} {r : List Char} :
    readObject fuel s = some (j, r) ↔
      skipBlanks s = '\x7d' :: r ∧ j = .object [] ∨
        (∀ u, skipBlanks s ≠ '\x7d' :: u) ∧
          ∃ members, readMembers fuel (skipBlanks s) = some (members, r) ∧
            j = .object members := by
  unfold readObject
  split
  · next u hu => simp [hu, eq_comm, and_comm]
  · next hne =>
    simp only [Option.map_eq_some_iff, Prod.exists, Prod.mk.injEq]
    constructor
    · rintro ⟨members, r', hi, rfl, rfl⟩
      exact .inr ⟨hne, members, hi, rfl⟩
    · rintro (⟨hc, -⟩ | ⟨-, members, hi, rfl⟩)
      · exact (hne r hc).elim
      · exact ⟨members, r, hi, rfl, rfl⟩

/-! ### Longer texts and more depth -/

theorem exists_cons_of_readValue {fuel : Nat} {s : List Char} {p : Json × List Char}
    (h : readValue fuel s = some p) : ∃ c u, skipBlanks s = c :: u := by
  rw [← readValue_skipBlanks] at h
  cases hs : skipBlanks s with
  | nil => simp [hs, readValue_nil] at h
  | cons c u => exact ⟨c, u, rfl⟩

theorem exists_cons_of_readItems {fuel : Nat} {s : List Char} {p : List Json × List Char}
    (h : readItems fuel s = some p) : ∃ c u, skipBlanks s = c :: u := by
  cases fuel with
  | zero => simp [readItems] at h
  | succ fuel =>
    obtain ⟨item, a, hitem, -⟩ := readItems_eq_some.1 h
    exact exists_cons_of_readValue hitem

theorem exists_cons_of_readMembers {fuel : Nat} {s : List Char}
    {p : List (String × Json) × List Char} (h : readMembers fuel s = some p) :
    ∃ u, skipBlanks s = '"' :: u := by
  cases fuel with
  | zero => simp [readMembers] at h
  | succ fuel =>
    obtain ⟨u, _, _, _, _, _, hu, -⟩ := readMembers_eq_some.1 h
    exact ⟨u, hu⟩

mutual

/-- A document is read the same before any text that does not go on like a number, and with any
more depth. -/
theorem readValue_append {fuel fuel' : Nat} (hf : fuel ≤ fuel') {s : List Char} {j : Json}
    {r t : List Char} (h : readValue fuel s = some (j, r)) (ht : Ends t) :
    readValue fuel' (s ++ t) = some (j, r ++ t) := by
  match fuel, fuel' with
  | 0, _ => simp [readValue] at h
  | fuel + 1, 0 => omega
  | fuel + 1, fuel' + 1 =>
    have hf' : fuel ≤ fuel' := by omega
    rw [← readValue_skipBlanks]
    rcases readValue_cases h with ⟨u, hs, rfl, rfl⟩ | ⟨u, hs, rfl, rfl⟩ | ⟨u, hs, rfl, rfl⟩ |
      ⟨u, cs, hs, hread, rfl⟩ | ⟨u, hs, hread⟩ | ⟨u, hs, hread⟩ | ⟨c, u, cs, hs, hread, rfl⟩
    all_goals rw [skipBlanks_append_of_cons hs]
    · exact readValue_null ..
    · exact readValue_true ..
    · exact readValue_false ..
    · rw [readValue_quote, readString_append hread]
      rfl
    · rw [readValue_bracket]
      rcases readArray_eq_some.1 hread with ⟨hclose, rfl⟩ | ⟨hne, items, hitems, rfl⟩
      · exact readArray_eq_some.2 (.inl ⟨skipBlanks_append_of_cons hclose, rfl⟩)
      · have hmore := readItems_append hf' hitems ht
        obtain ⟨c, v, hv⟩ := exists_cons_of_readItems hitems
        rw [skipBlanks_idem] at hv
        have hcons := skipBlanks_append_of_cons (t := t) hv
        refine readArray_eq_some.2 (.inr ⟨fun w hw => ?_, items, ?_, rfl⟩)
        · rw [hcons] at hw
          exact hne v (by rw [hv, (List.cons.inj hw).1])
        · rw [hcons, ← List.cons_append, ← hv]
          exact hmore
    · rw [readValue_brace]
      rcases readObject_eq_some.1 hread with ⟨hclose, rfl⟩ | ⟨hne, members, hmembers, rfl⟩
      · exact readObject_eq_some.2 (.inl ⟨skipBlanks_append_of_cons hclose, rfl⟩)
      · have hmore := readMembers_append hf' hmembers ht
        obtain ⟨v, hv⟩ := exists_cons_of_readMembers hmembers
        rw [skipBlanks_idem] at hv
        have hcons := skipBlanks_append_of_cons (t := t) hv
        refine readObject_eq_some.2 (.inr ⟨fun w hw => ?_, members, ?_, rfl⟩)
        · rw [hcons] at hw
          exact hne v (by rw [hv, (List.cons.inj hw).1])
        · rw [hcons, ← List.cons_append, ← hv]
          exact hmore
    · rw [readValue_number _ (startsNumber_of_readNumber hread), ← List.cons_append,
        readNumber_append hread ht]
      rfl
termination_by structural fuel

theorem readItems_append {fuel fuel' : Nat} (hf : fuel ≤ fuel') {s : List Char} {items : List Json}
    {r t : List Char} (h : readItems fuel s = some (items, r)) (ht : Ends t) :
    readItems fuel' (s ++ t) = some (items, r ++ t) := by
  match fuel, fuel' with
  | 0, _ => simp [readItems] at h
  | fuel + 1, 0 => omega
  | fuel + 1, fuel' + 1 =>
    have hf' : fuel ≤ fuel' := by omega
    obtain ⟨item, a, hitem, hrest⟩ := readItems_eq_some.1 h
    refine readItems_eq_some.2 ⟨item, a ++ t, readValue_append hf' hitem ht, ?_⟩
    rcases hrest with ⟨hclose, rfl⟩ | ⟨u, more, hcomma, hmore, rfl⟩
    · exact .inl ⟨skipBlanks_append_of_cons hclose, rfl⟩
    · exact .inr ⟨u ++ t, more, skipBlanks_append_of_cons hcomma,
        readItems_append hf' hmore ht, rfl⟩
termination_by structural fuel

theorem readMembers_append {fuel fuel' : Nat} (hf : fuel ≤ fuel') {s : List Char}
    {members : List (String × Json)} {r t : List Char}
    (h : readMembers fuel s = some (members, r)) (ht : Ends t) :
    readMembers fuel' (s ++ t) = some (members, r ++ t) := by
  match fuel, fuel' with
  | 0, _ => simp [readMembers] at h
  | fuel + 1, 0 => omega
  | fuel + 1, fuel' + 1 =>
    have hf' : fuel ≤ fuel' := by omega
    obtain ⟨u, key, a, v, value, b, hu, hkey, hv, hvalue, hrest⟩ := readMembers_eq_some.1 h
    refine readMembers_eq_some.2 ⟨u ++ t, key, a ++ t, v ++ t, value, b ++ t,
      skipBlanks_append_of_cons hu, readString_append hkey t, skipBlanks_append_of_cons hv,
      readValue_append hf' hvalue ht, ?_⟩
    rcases hrest with ⟨hclose, rfl⟩ | ⟨w, more, hcomma, hmore, rfl⟩
    · exact .inl ⟨skipBlanks_append_of_cons hclose, rfl⟩
    · exact .inr ⟨w ++ t, more, skipBlanks_append_of_cons hcomma,
        readMembers_append hf' hmore ht, rfl⟩
termination_by structural fuel

end

theorem readValue_mono {fuel fuel' : Nat} (hf : fuel ≤ fuel') {s : List Char}
    {p : Json × List Char} (h : readValue fuel s = some p) : readValue fuel' s = some p := by
  simpa using readValue_append hf h ends_nil

/-! ### Documents within a larger text -/

/-- Wherever the text stands, unless the rest goes on like a number, it is read as the document;
blanks after it may be left over. -/
def Reads (cs : List Char) (j : Json) : Prop :=
  ∀ fuel rest, 2 * cs.length + 2 ≤ fuel → Ends rest →
    ∃ blanks, blanks.all isBlank = true ∧ readValue fuel (cs ++ rest) = some (j, blanks ++ rest)

/-- A text that is a document alone is one anywhere. -/
theorem reads_of_read? {s : String} {j : Json} (h : read? s = some j) : Reads s.toList j := by
  intro fuel rest hfuel hrest
  simp only [read?, Option.bind_eq_bind, Option.bind_eq_some_iff, Prod.exists] at h
  obtain ⟨j', r, hread, h⟩ := h
  split at h
  · next hblank =>
    obtain rfl := Option.some.inj h
    exact ⟨r, all_isBlank_of_skipBlanks hblank, readValue_append hfuel hread hrest⟩
  · simp at h

/-- A text read without a remainder, whatever follows it. -/
theorem reads_of_readValue {cs : List Char} {j : Json}
    (h : ∀ fuel rest, Ends rest → readValue (fuel + 1) (cs ++ rest) = some (j, rest)) :
    Reads cs j := by
  intro fuel rest hfuel hrest
  obtain ⟨k, rfl⟩ : ∃ k, fuel = k + 1 := ⟨fuel - 1, by omega⟩
  exact ⟨[], rfl, h k rest hrest⟩

theorem reads_null : Reads "null".toList .null := reads_of_readValue fun _ _ _ => readValue_null ..

theorem reads_bool (b : Bool) : Reads (if b then "true" else "false").toList (.bool b) := by
  cases b with
  | true => exact reads_of_readValue fun _ _ _ => readValue_true ..
  | false => exact reads_of_readValue fun _ _ _ => readValue_false ..

/-- A text in quotes with its characters escaped. -/
def quotedText (cs : List Char) : List Char := '"' :: Text.escaped cs ++ ['"']

theorem reads_quotedText (s : String) : Reads (quotedText s.toList) (.string s) := by
  refine reads_of_readValue fun fuel rest _ => ?_
  rw [quotedText, List.cons_append, List.cons_append, List.append_assoc, List.singleton_append,
    readValue_quote, readString_escaped]
  simp

/-- A text that is a JSON number from its first to its last character. -/
def IsNumber (cs : List Char) : Prop := readNumber cs = some (cs, [])

theorem reads_number {s : String} (h : IsNumber s.toList) : Reads s.toList (.number s) := by
  refine reads_of_readValue fun fuel rest hrest => ?_
  obtain ⟨c, cs, hs⟩ : ∃ c cs, s.toList = c :: cs := by
    cases hs : s.toList with
    | nil => simp [IsNumber, hs, readNumber, readSign, readWhole, readDigits] at h
    | cons c cs => exact ⟨c, cs, rfl⟩
  have hread : readNumber (s.toList ++ rest) = some (s.toList, rest) := readNumber_append h hrest
  rw [hs, List.cons_append] at hread ⊢
  rw [readValue_number _ (startsNumber_of_readNumber hread), hread, ← hs]
  simp

/-- The document of a whole text. -/
theorem read?_of_reads {cs : List Char} {j : Json} (h : Reads cs j) :
    read? (String.ofList cs) = some j := by
  obtain ⟨blanks, hb, hread⟩ := h (2 * cs.length + 2) [] (Nat.le_refl _) ends_nil
  rw [List.append_nil, List.append_nil] at hread
  have hskip : skipBlanks blanks = [] := by
    simpa [skipBlanks, List.dropWhile_eq_nil_iff] using hb
  simp [read?, hread, hskip]

end Logline.Json
