import Logline.Proofs.Json.Reading

/-!
Texts that are cut between escapes only. In JSON a backslash starts an escape: with one letter, or
with `u` and four hexadecimal digits. A text is `Uncut` if all its escapes are whole. Every document
is (`uncut_of_read?`), since whatever the reader takes off the start of a text is (`Passes`).
-/

namespace Logline.Json

/-- All escapes in the text are whole. -/
inductive Uncut : List Char → Prop where
  | nil : Uncut []
  | plain {c : Char} {cs : List Char} (hc : c ≠ '\\') (h : Uncut cs) : Uncut (c :: cs)
  | letter {c : Char} {cs : List Char} (hc : (unescape? c).isSome) (h : Uncut cs) :
    Uncut ('\\' :: c :: cs)
  | unit {a b c d : Char} {cs : List Char} (hu : (unit? a b c d).isSome) (h : Uncut cs) :
    Uncut ('\\' :: 'u' :: a :: b :: c :: d :: cs)

namespace Uncut

variable {a b : List Char}

theorem append (ha : Uncut a) (hb : Uncut b) : Uncut (a ++ b) := by
  induction ha with
  | nil => exact hb
  | plain hc _ ih => exact .plain hc ih
  | letter hc _ ih => exact .letter hc ih
  | unit hu _ ih => exact .unit hu ih

theorem of_no_backslash (h : '\\' ∉ a) : Uncut a := by
  induction a with
  | nil => exact .nil
  | cons c cs ih =>
    simp only [List.mem_cons, not_or] at h
    exact .plain (Ne.symm h.1) (ih h.2)

end Uncut

/-! ### What the reader takes -/

/-- The reader may get from `s` to the rest `r` over a start that is uncut. -/
def Passes (s r : List Char) : Prop := ∃ taken, s = taken ++ r ∧ Uncut taken

namespace Passes

variable {s r t : List Char}

theorem refl (s : List Char) : Passes s s := ⟨[], rfl, .nil⟩

theorem trans (h : Passes s r) (h' : Passes r t) : Passes s t := by
  obtain ⟨a, rfl, ha⟩ := h
  obtain ⟨b, rfl, hb⟩ := h'
  exact ⟨a ++ b, (List.append_assoc ..).symm, ha.append hb⟩

theorem plain {c : Char} (hc : c ≠ '\\') (h : Passes s r) : Passes (c :: s) r := by
  obtain ⟨a, rfl, ha⟩ := h
  exact ⟨c :: a, rfl, .plain hc ha⟩

theorem letter {c : Char} (hc : (unescape? c).isSome) (h : Passes s r) :
    Passes ('\\' :: c :: s) r := by
  obtain ⟨a, rfl, ha⟩ := h
  exact ⟨'\\' :: c :: a, rfl, .letter hc ha⟩

theorem unit {a b c d : Char} (hu : (unit? a b c d).isSome) (h : Passes s r) :
    Passes ('\\' :: 'u' :: a :: b :: c :: d :: s) r := by
  obtain ⟨t, rfl, ht⟩ := h
  exact ⟨'\\' :: 'u' :: a :: b :: c :: d :: t, rfl, .unit hu ht⟩

theorem dropWhile {p : Char → Bool} (hp : p '\\' = false) (s : List Char) :
    Passes s (s.dropWhile p) := by
  refine ⟨s.takeWhile p, List.takeWhile_append_dropWhile.symm, .of_no_backslash fun h => ?_⟩
  exact absurd (List.mem_takeWhile_imp h) (by simp [hp])

theorem skipBlanks (s : List Char) : Passes s (skipBlanks s) := dropWhile (by decide) s

/-- What is left behind blanks and a character that starts no escape. -/
theorem of_skipBlanks {c : Char} (h : Json.skipBlanks s = c :: t) (hc : c ≠ '\\') (h' : Passes t r) :
    Passes s r :=
  (h ▸ skipBlanks s).trans (plain hc h')

end Passes

theorem passes_readSign (s : List Char) : Passes s (readSign s).2 := by
  unfold readSign
  split
  · exact (Passes.refl _).plain (by decide)
  · exact .refl _

theorem passes_readExponentSign (s : List Char) : Passes s (readExponentSign s).2 := by
  unfold readExponentSign
  split
  · exact (Passes.refl _).plain (by decide)
  · exact (Passes.refl _).plain (by decide)
  · exact .refl _

theorem passes_readDigits {s ds r : List Char} (h : readDigits s = some (ds, r)) : Passes s r := by
  unfold readDigits at h
  split at h
  · simp at h
  · obtain ⟨-, rfl⟩ := Prod.mk.inj (Option.some.inj h)
    exact .dropWhile (by decide) s

theorem passes_readWhole {s ds r : List Char} (h : readWhole s = some (ds, r)) : Passes s r := by
  unfold readWhole at h
  split at h
  · obtain ⟨-, rfl⟩ := Prod.mk.inj (Option.some.inj h)
    exact (Passes.refl _).plain (by decide)
  · exact passes_readDigits h

theorem passes_readFraction {s ds r : List Char} (h : readFraction s = some (ds, r)) :
    Passes s r := by
  unfold readFraction at h
  split at h
  · obtain ⟨⟨ds', r'⟩, hdigits, heq⟩ := Option.map_eq_some_iff.1 h
    obtain ⟨-, rfl⟩ := Prod.mk.inj heq
    exact (passes_readDigits hdigits).plain (by decide)
  · obtain ⟨-, rfl⟩ := Prod.mk.inj (Option.some.inj h)
    exact .refl _

theorem passes_readExponent {s ds r : List Char} (h : readExponent s = some (ds, r)) :
    Passes s r := by
  cases s with
  | nil =>
    obtain ⟨-, rfl⟩ := Prod.mk.inj (Option.some.inj h)
    exact .refl _
  | cons c s =>
    by_cases hc : c = 'e' ∨ c = 'E'
    · rw [readExponent_mark hc] at h
      obtain ⟨⟨ds', r'⟩, hdigits, heq⟩ := Option.map_eq_some_iff.1 h
      obtain ⟨-, rfl⟩ := Prod.mk.inj heq
      have hmark : c ≠ '\\' := by rcases hc with rfl | rfl <;> decide
      exact ((passes_readExponentSign s).trans (passes_readDigits hdigits)).plain hmark
    · rw [readExponent_none (by simpa using hc)] at h
      obtain ⟨-, rfl⟩ := Prod.mk.inj (Option.some.inj h)
      exact .refl _

theorem passes_readNumber {s ds r : List Char} (h : readNumber s = some (ds, r)) : Passes s r := by
  obtain ⟨whole, a, fraction, b, exponent, hw, hf, he, -⟩ := readNumber_eq_some.1 h
  exact (passes_readSign s).trans
    ((passes_readWhole hw).trans ((passes_readFraction hf).trans (passes_readExponent he)))

theorem passes_readString {s cs r : List Char} (h : readString s = some (cs, r)) : Passes s r := by
  fun_induction readString s generalizing cs r with
  | case1 rest =>
    obtain ⟨-, rfl⟩ := Prod.mk.inj (Option.some.inj h)
    exact (Passes.refl _).plain (by decide)
  | case2 a b c d e f g h' rest ih2 ih1 =>
    simp only [Option.bind_eq_bind, Option.bind_eq_some_iff] at h
    obtain ⟨n, hn, h⟩ := h
    have hunit : (unit? a b c d).isSome := Option.isSome_of_eq_some hn
    split at h
    · simp only [Option.bind_eq_some_iff, pure, Option.some.injEq, Prod.mk.injEq] at h
      obtain ⟨⟨ds, r'⟩, hrest, -, rfl⟩ := h
      exact (ih2 hrest).unit hunit
    · simp only [Option.bind_eq_some_iff, pure, Option.some.injEq, Prod.mk.injEq] at h
      obtain ⟨low, hlow, x, -, ⟨ds, r'⟩, hrest, -, rfl⟩ := h
      exact ((ih1 hrest).unit (Option.isSome_of_eq_some hlow)).unit hunit
  | case3 a b c d rest hshort ih1 =>
    simp only [Option.bind_eq_bind, Option.bind_eq_some_iff, pure, Option.some.injEq,
      Prod.mk.injEq] at h
    obtain ⟨n, hn, x, -, ⟨ds, r'⟩, hrest, -, rfl⟩ := h
    exact (ih1 hrest).unit (Option.isSome_of_eq_some hn)
  | case4 c rest _ _ ih1 =>
    simp only [Option.bind_eq_bind, Option.bind_eq_some_iff, pure, Option.some.injEq,
      Prod.mk.injEq] at h
    obtain ⟨x, hx, ⟨ds, r'⟩, hrest, -, rfl⟩ := h
    exact (ih1 hrest).letter (Option.isSome_of_eq_some hx)
  | case5 => exact absurd h (by simp)
  | case6 c rest hq _ _ _ _ hc =>
    rename_i ih1
    obtain ⟨ds, hrest, -⟩ := andThen_eq_some.1 h
    simp only [Bool.or_eq_true, decide_eq_true_eq, not_or] at hc
    exact (ih1 hrest).plain hc.2
  | case7 => simp at h

mutual

theorem passes_readValue {fuel : Nat} {s : List Char} {j : Json} {r : List Char}
    (h : readValue fuel s = some (j, r)) : Passes s r := by
  match fuel with
  | 0 => simp [readValue] at h
  | fuel + 1 =>
    have hskip := Passes.skipBlanks s
    rcases readValue_cases h with ⟨u, hs, -, rfl⟩ | ⟨u, hs, -, rfl⟩ | ⟨u, hs, -, rfl⟩ |
      ⟨u, cs, hs, hread, -⟩ | ⟨u, hs, hread⟩ | ⟨u, hs, hread⟩ | ⟨c, u, cs, hs, hread, -⟩
    · exact (hs ▸ hskip).trans ⟨['n', 'u', 'l', 'l'], rfl, .of_no_backslash (by decide)⟩
    · exact (hs ▸ hskip).trans ⟨['t', 'r', 'u', 'e'], rfl, .of_no_backslash (by decide)⟩
    · exact (hs ▸ hskip).trans ⟨['f', 'a', 'l', 's', 'e'], rfl, .of_no_backslash (by decide)⟩
    · exact .of_skipBlanks hs (by decide) (passes_readString hread)
    · refine .of_skipBlanks hs (by decide) ?_
      rcases readArray_eq_some.1 hread with ⟨hclose, -⟩ | ⟨-, items, hitems, -⟩
      · exact .of_skipBlanks hclose (by decide) (.refl _)
      · exact (Passes.skipBlanks u).trans (passes_readItems hitems)
    · refine .of_skipBlanks hs (by decide) ?_
      rcases readObject_eq_some.1 hread with ⟨hclose, -⟩ | ⟨-, members, hmembers, -⟩
      · exact .of_skipBlanks hclose (by decide) (.refl _)
      · exact (Passes.skipBlanks u).trans (passes_readMembers hmembers)
    · exact (hs ▸ hskip).trans (passes_readNumber hread)
termination_by structural fuel

theorem passes_readItems {fuel : Nat} {s : List Char} {items : List Json} {r : List Char}
    (h : readItems fuel s = some (items, r)) : Passes s r := by
  match fuel with
  | 0 => simp [readItems] at h
  | fuel + 1 =>
    obtain ⟨item, a, hitem, hrest⟩ := readItems_eq_some.1 h
    refine (passes_readValue hitem).trans ?_
    rcases hrest with ⟨hclose, -⟩ | ⟨u, more, hcomma, hmore, -⟩
    · exact .of_skipBlanks hclose (by decide) (.refl _)
    · exact .of_skipBlanks hcomma (by decide) (passes_readItems hmore)
termination_by structural fuel

theorem passes_readMembers {fuel : Nat} {s : List Char} {members : List (String × Json)}
    {r : List Char} (h : readMembers fuel s = some (members, r)) : Passes s r := by
  match fuel with
  | 0 => simp [readMembers] at h
  | fuel + 1 =>
    obtain ⟨u, key, a, v, value, b, hu, hkey, hv, hvalue, hrest⟩ := readMembers_eq_some.1 h
    refine .of_skipBlanks hu (by decide) ((passes_readString hkey).trans ?_)
    refine .of_skipBlanks hv (by decide) ((passes_readValue hvalue).trans ?_)
    rcases hrest with ⟨hclose, -⟩ | ⟨w, more, hcomma, hmore, -⟩
    · exact .of_skipBlanks hclose (by decide) (.refl _)
    · exact .of_skipBlanks hcomma (by decide) (passes_readMembers hmore)
termination_by structural fuel

end

/-- A document holds whole escapes only. -/
theorem uncut_of_read? {s : String} {j : Json} (h : read? s = some j) : Uncut s.toList := by
  simp only [read?, Option.bind_eq_bind, Option.bind_eq_some_iff, Prod.exists] at h
  obtain ⟨j', r, hread, h⟩ := h
  obtain ⟨taken, hs, htaken⟩ := passes_readValue hread
  split at h
  · next hblank =>
    have hblanks := all_isBlank_of_skipBlanks hblank
    rw [hs]
    refine htaken.append (.of_no_backslash fun hmem => ?_)
    exact absurd (List.all_eq_true.1 hblanks _ hmem) (by decide)
  · simp at h

theorem uncut_of_isNumber {cs : List Char} (h : IsNumber cs) : Uncut cs := by
  obtain ⟨taken, hs, htaken⟩ := passes_readNumber h
  rwa [hs, List.append_nil]

end Logline.Json
