import Logline.Proofs.Json.Reading
import Logline.Proofs.Text.Decoding

/-!
What a byte sequence is shown as, told without the reader that cuts it: the characters it holds
stay, and every run of bytes at which none starts, as long as it goes, stands in hexadecimal digits
between `«x` and `»` (`Shown`). Each sequence is shown as one text and no other
(`shown_visible`, `Shown.eq_visible`), and what stands in a line for a character of it is told by
`Stands`.
-/

namespace Logline.Text

/-- No character starts a byte sequence. -/
def StartsNone (s : Bytes) : Prop := ∀ c, ¬ encodeChar c <+: s

/-- A byte sequence that holds none but bytes at which, before `rest`, no character starts. -/
def BadRun (bad rest : Bytes) : Prop := ∀ a b, bad = a ++ b → b ≠ [] → StartsNone (b ++ rest)

/-- The digits of bytes, two upper-case ones for each. -/
def hexLetters (bs : Bytes) : List Char :=
  bs.flatMap fun b => [hexLetter (b.toNat / 16), hexLetter (b.toNat % 16)]

/-- What a byte sequence is shown as. A run of bad bytes ends at a character or at the end of the
sequence, so that it stands between characters and cannot be made longer. -/
inductive Shown : Bytes → List Char → Prop
  | nil : Shown [] []
  | char (c : Char) {rest : Bytes} {cs : List Char} (h : Shown rest cs) :
    Shown (encodeChar c ++ rest) (c :: cs)
  | run {bad rest : Bytes} {cs : List Char} (hne : bad ≠ []) (hbad : BadRun bad rest)
    (hend : rest = [] ∨ ¬ StartsNone rest) (h : Shown rest cs) :
    Shown (bad ++ rest) (['«', 'x'] ++ hexLetters bad ++ ['»'] ++ cs)

/-! ### Where characters start -/

theorem first?_eq_none_iff {s : Bytes} : first? s = none ↔ StartsNone s := by
  constructor
  · rintro h c ⟨rest, rfl⟩
    simp [first?_encodeChar] at h
  · intro h
    cases hf : first? s with
    | none => rfl
    | some found =>
      obtain ⟨rest, hs, -⟩ := eq_encodeChar_of_first? (c := found.1) (n := found.2) hf
      exact absurd ⟨rest, hs.symm⟩ (h found.1)

theorem segments_cons_of_startsNone {b : UInt8} {rest : Bytes} (h : StartsNone (b :: rest)) :
    segments (b :: rest) = .bad b :: segments rest := by
  rw [segments, segmentsFrom, first?_eq_none_iff.2 h]
  rfl

theorem BadRun.tail {b : UInt8} {bad rest : Bytes} (h : BadRun (b :: bad) rest) :
    BadRun bad rest :=
  fun x y hxy hy => h (b :: x) y (by rw [hxy]; rfl) hy

theorem BadRun.cons {b : UInt8} {bad rest : Bytes} (hb : StartsNone (b :: (bad ++ rest)))
    (h : BadRun bad rest) : BadRun (b :: bad) rest := by
  intro x y hxy hy
  cases x with
  | nil =>
    obtain rfl : b :: bad = y := hxy
    exact hb
  | cons a x => exact h x y (List.cons.inj hxy).2 hy

theorem segments_badRun {bad rest : Bytes} (h : BadRun bad rest) :
    segments (bad ++ rest) = bad.map .bad ++ segments rest := by
  induction bad with
  | nil => rfl
  | cons b bad ih =>
    have hb : StartsNone (b :: (bad ++ rest)) := h [] (b :: bad) rfl (by simp)
    rw [List.cons_append, segments_cons_of_startsNone hb, ih h.tail]
    rfl

/-- Where a run of bad bytes may end, the reader goes on with a character. -/
theorem endsRun_segments {rest : Bytes} (h : rest = [] ∨ ¬ StartsNone rest) :
    EndsRun (segments rest) := by
  rcases h with rfl | h
  · simp [EndsRun, segments, segmentsFrom]
  · obtain ⟨c, tail, rfl⟩ : ∃ c, encodeChar c <+: rest := by
      simpa [StartsNone] using h
    rw [segments_encodeChar_append]
    simp [EndsRun, Segment.isBad]

/-- Every sequence starts with a run of bad bytes, possibly empty, that cannot be made longer. -/
theorem exists_badRun (s : Bytes) :
    ∃ bad rest, s = bad ++ rest ∧ BadRun bad rest ∧ (rest = [] ∨ ¬ StartsNone rest) := by
  induction s with
  | nil => exact ⟨[], [], rfl, by simp [BadRun], .inl rfl⟩
  | cons b s ih =>
    by_cases hb : StartsNone (b :: s)
    · obtain ⟨bad, rest, rfl, hbad, hend⟩ := ih
      exact ⟨b :: bad, rest, rfl, hbad.cons hb, hend⟩
    · exact ⟨[], b :: s, rfl, by simp [BadRun], .inr hb⟩

/-! ### The visible text -/

theorem visibleSegments_badRun {bad : Bytes} {rest : List Segment} (hne : bad ≠ [])
    (h : EndsRun rest) :
    visibleSegments false (bad.map .bad ++ rest) =
      ['«', 'x'] ++ hexLetters bad ++ ['»'] ++ visibleSegments false rest := by
  obtain ⟨b, bs, rfl⟩ := List.exists_cons_of_ne_nil hne
  simp [visibleSegments, visibleSegments_bad h, hexLetters]

/-- The text of a byte sequence. -/
theorem shown_visible (s : Bytes) : Shown s (visible s).toList := by
  rw [visible, String.toList_ofList]
  induction hn : s.length using Nat.strongRecOn generalizing s with
  | ind n ih =>
    obtain ⟨bad, rest, rfl, hbad, hend⟩ := exists_badRun s
    by_cases hne : bad = []
    · subst hne
      rcases hend with rfl | hstart
      · exact .nil
      · obtain ⟨c, tail, rfl⟩ : ∃ c, encodeChar c <+: rest := by
          simpa [StartsNone] using hstart
        have hc := List.length_pos_iff.2 (encodeChar_ne_nil c)
        rw [List.nil_append, segments_encodeChar_append]
        exact .char c (ih tail.length (by simp at hn; omega) tail rfl)
    · have hlen := List.length_pos_iff.2 hne
      rw [segments_badRun hbad, visibleSegments_badRun hne (endsRun_segments hend)]
      exact .run hne hbad hend (ih rest.length (by simp at hn; omega) rest rfl)

/-- There is no second text. -/
theorem Shown.eq_visible {s : Bytes} {cs : List Char} (h : Shown s cs) :
    cs = (visible s).toList := by
  rw [visible, String.toList_ofList]
  induction h with
  | nil => rfl
  | char c _ ih =>
    rw [segments_encodeChar_append, ih]
    rfl
  | run hne hbad hend _ ih =>
    rw [segments_badRun hbad, visibleSegments_badRun hne (endsRun_segments hend), ih]

/-! ### What stands for a character -/

/-- The characters with an escape of two letters, with its second. -/
def namedEscapes : List (Char × Char) :=
  [('"', '"'), ('\\', '\\'), ('\x08', 'b'), ('\x0c', 'f'), ('\n', 'n'), ('\r', 'r'), ('\t', 't')]

/-- What stands for a character between the quotes of a JSON string: itself only where nothing has
to be escaped, the two letters of a named escape, a `\u` escape for the other controls, and two of
them, the halves of a surrogate pair, for what lies beyond U+FFFF. -/
inductive Stands : Char → List Char → Prop
  | itself {c : Char} (hquote : c ≠ '"') (hback : c ≠ '\\') (hlow : 0x20 ≤ c.toNat)
    (hdelete : c.toNat < 0x7F ∨ 0x9F < c.toNat) (hhigh : c.toNat ≤ 0xFFFF) : Stands c [c]
  | letter {c l : Char} (h : (c, l) ∈ namedEscapes) : Stands c ['\\', l]
  | unit {c : Char} (hnamed : ∀ l, (c, l) ∉ namedEscapes)
    (h : c.toNat < 0x20 ∨ 0x7F ≤ c.toNat ∧ c.toNat ≤ 0x9F) : Stands c (unitLetters c.toNat)
  | pair {c : Char} {high low : Nat} (hhigh : 0xD800 ≤ high ∧ high < 0xDC00)
    (hlow : 0xDC00 ≤ low ∧ low < 0xE000)
    (h : 0x10000 + (high - 0xD800) * 0x400 + (low - 0xDC00) = c.toNat) :
    Stands c (unitLetters high ++ unitLetters low)

theorem namedEscape?_of_mem {c l : Char} (h : (c, l) ∈ namedEscapes) :
    namedEscape? c = some l := by
  have hall : ∀ p ∈ namedEscapes, namedEscape? p.1 = some p.2 := by decide
  exact hall _ h

theorem stands_escapedChar (c : Char) : Stands c (escapedChar c) := by
  have hv : c.toNat < 0xD800 ∨ 0xDFFF < c.toNat ∧ c.toNat < 0x110000 := c.valid
  unfold escapedChar
  split
  · next l hl => exact .letter (namedEscape?_eq_some hl)
  next hnone =>
  have hnamed : ∀ l, (c, l) ∉ namedEscapes := fun l hl => by
    rw [namedEscape?_of_mem hl] at hnone
    cases hnone
  have hquote : c ≠ '"' := fun h => by simp [h, namedEscape?] at hnone
  have hback : c ≠ '\\' := fun h => by simp [h, namedEscape?] at hnone
  split
  · next hplain =>
    simp only [isPlain, Bool.and_eq_true, decide_eq_true_eq] at hplain
    exact .itself hquote hback hplain.1.1.1 (by omega) (by omega)
  next hplain =>
  have hcontrol : c.toNat < 0x20 ∨ 0x7F ≤ c.toNat := by
    simp [isPlain, hquote, hback] at hplain
    omega
  split
  · exact .unit hnamed (by omega)
  split
  · exact .itself hquote hback (by omega) (by omega) (by omega)
  · exact .pair (by omega) (by omega) (by omega)

/-- Characters that may be part of an escaped text. -/
def MayStand (l : Char) : Prop :=
  0x20 ≤ l.toNat ∧ ¬ (0x7F ≤ l.toNat ∧ l.toNat ≤ 0x9F) ∧ l.toNat ≤ 0xFFFF

theorem mayStand_hexLetter {n : Nat} (h : n < 16) : MayStand (hexLetter n) := by
  have hall : ∀ n < 16, 0x20 ≤ (hexLetter n).toNat ∧ (hexLetter n).toNat < 0x7F := by decide
  have hn := hall n h
  exact ⟨hn.1, by omega, by omega⟩

theorem mayStand_unitLetters {n : Nat} {l : Char} (h : l ∈ unitLetters n) : MayStand l := by
  simp only [unitLetters, List.mem_cons, List.not_mem_nil, or_false] at h
  rcases h with rfl | rfl | rfl | rfl | rfl | rfl
  · exact ⟨by decide, by decide, by decide⟩
  · exact ⟨by decide, by decide, by decide⟩
  all_goals exact mayStand_hexLetter (by omega)

theorem Stands.mayStand {c x : Char} {letters : List Char} (h : Stands c letters)
    (hx : x ∈ letters) : MayStand x := by
  cases h with
  | itself _ _ hlow hdelete hhigh =>
    obtain rfl := List.mem_singleton.1 hx
    exact ⟨hlow, by omega, hhigh⟩
  | @letter l h =>
    have hall : ∀ p ∈ namedEscapes, 0x20 ≤ p.2.toNat ∧ p.2.toNat < 0x7F := by decide
    have hl : 0x20 ≤ l.toNat ∧ l.toNat < 0x7F := hall _ h
    rcases List.mem_cons.1 hx with rfl | hx
    · exact ⟨by decide, by decide, by decide⟩
    · obtain rfl := List.mem_singleton.1 hx
      exact ⟨hl.1, by omega, by omega⟩
  | unit => exact mayStand_unitLetters hx
  | pair =>
    rcases List.mem_append.1 hx with hx | hx <;> exact mayStand_unitLetters hx

theorem forall₂_stands (cs : List Char) : List.Forall₂ Stands cs (cs.map escapedChar) := by
  induction cs with
  | nil => exact .nil
  | cons c cs ih => exact .cons (stands_escapedChar c) ih

theorem escaped_eq_flatten (cs : List Char) : escaped cs = (cs.map escapedChar).flatten :=
  List.flatMap_def

/-! ### Between quotes -/

theorem decode?_quoted_escapeBytes (s : Bytes) :
    decode? (bytes "\"" ++ (escapeBytes s).flatten ++ bytes "\"") =
      some (String.ofList ('"' :: escaped (visible s).toList ++ ['"'])) := by
  have hquoted : bytes "\"" ++ (escapeBytes s).flatten ++ bytes "\"" =
      encode (['"'] ++ escaped (visible s).toList ++ ['"']) := by
    rw [flatten_escapeBytes, encode_append, encode_append]
    rfl
  rw [hquoted, decode?_encode]
  rfl

end Logline.Text
