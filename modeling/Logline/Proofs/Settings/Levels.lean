import Mathlib.Logic.Function.Basic
import Logline.Levels
import Logline.Proofs.Firsts

/-!
Levels read from a text. A reader that goes through the text letter by letter keeps the letters that
count and a switch for each severity; a set of levels tells both (`Reading.ofText_eq`), so the
letters and the switches always agree (`Levels.readOf_ofText`).
-/

namespace Logline

namespace Levels

/-- The letters of the levels that can be switched on and off. -/
def optionalLetters : List Char := "FWNAITDOG".toList

theorem ofLetter?_eq_some_iff {c : Char} {s : Severity} :
    ofLetter? c = some s ↔ s.alwaysOn = false ∧ s.code = c := by
  refine ⟨fun h => ⟨alwaysOn_of_ofLetter? h, ?_⟩, ?_⟩
  · have hfound := List.find?_some h
    simp only [Bool.and_eq_true, decide_eq_true_eq] at hfound
    exact hfound.2
  · rintro ⟨hs, rfl⟩
    exact ofLetter?_code hs

theorem mem_optionalLetters {c : Char} :
    c ∈ optionalLetters ↔ ∃ s : Severity, s.alwaysOn = false ∧ s.code = c := by
  constructor
  · intro h
    have hcodes : optionalLetters = (Severity.all.filter fun s => !s.alwaysOn).map Severity.code := by
      decide
    rw [hcodes] at h
    obtain ⟨s, hs, rfl⟩ := List.mem_map.1 h
    exact ⟨s, by simpa using (List.mem_filter.1 hs).2, rfl⟩
  · rintro ⟨s, hs, rfl⟩
    cases s <;> first | decide | cases hs

theorem ofLetter?_eq_none_iff {c : Char} : ofLetter? c = none ↔ c ∉ optionalLetters := by
  rw [mem_optionalLetters, Option.eq_none_iff_forall_ne_some]
  exact ⟨fun h ⟨s, hs⟩ => h s (ofLetter?_eq_some_iff.2 hs),
    fun h s hs => h ⟨s, ofLetter?_eq_some_iff.1 hs⟩⟩

theorem code_inj {s t : Severity} (h : s.code = t.code) : s = t := by
  have hs := Severity.ofCode?_code s
  rw [h, Severity.ofCode?_code] at hs
  exact (Option.some.inj hs).symm

/-- The letters of a set tell what it holds. -/
theorem code_mem_text {l : Levels} {s : Severity} : s.code ∈ l.text.toList ↔ s ∈ l.optional := by
  rw [text, String.toList_ofList, List.mem_map]
  refine ⟨?_, fun h => ⟨s, h, rfl⟩⟩
  rintro ⟨t, ht, hcode⟩
  rwa [← code_inj hcode]

theorem alwaysOn_iff {s : Severity} : s.alwaysOn = true ↔ s = .panic ∨ s = .exit := by
  cases s <;> simp [Severity.alwaysOn]

theorem enables_iff {l : Levels} {s : Severity} :
    l.enables s = true ↔ (s = .panic ∨ s = .exit) ∨ s.code ∈ l.text.toList := by
  rw [enables, Bool.or_eq_true, alwaysOn_iff, List.contains_iff_mem, code_mem_text]

end Levels

/-! ### Letter by letter -/

/-- What is kept while a text is read: the letters that count, and which severities are on. -/
@[ext] structure Reading where
  letters : List Char
  on : Severity → Bool

namespace Reading

def start : Reading := ⟨[], Severity.alwaysOn⟩

/-- Reads one letter. A letter is taken for the byte of its number; those that count are all bytes. -/
def next (r : Reading) (c : Char) : Reading :=
  if c ∈ Levels.optionalLetters then
    { letters := if c ∈ r.letters then r.letters else r.letters ++ [c]
      on := match Severity.ofCode? (UInt8.ofNat c.toNat) with
        | some s => Function.update r.on s true
        | none => r.on }
  else r

def ofText (text : String) : Reading := text.toList.foldl next start

/-- The letters of a set of levels, and its switches. -/
def ofLevels (l : Levels) : Reading := ⟨l.text.toList, l.enables⟩

theorem next_of_letter (l : List Severity) {c : Char} {s : Severity}
    (h : Levels.ofLetter? c = some s) :
    (ofLevels ⟨l⟩).next c = ofLevels ⟨if s ∈ l then l else l ++ [s]⟩ := by
  obtain ⟨hs, rfl⟩ := Levels.ofLetter?_eq_some_iff.1 h
  have hletter : s.code ∈ Levels.optionalLetters := Levels.mem_optionalLetters.2 ⟨s, hs, rfl⟩
  rw [next, if_pos hletter, Severity.ofCode?_code]
  apply Reading.ext
  · show (if s.code ∈ (Levels.mk l).text.toList then (Levels.mk l).text.toList
        else (Levels.mk l).text.toList ++ [s.code]) =
      (Levels.mk (if s ∈ l then l else l ++ [s])).text.toList
    by_cases hmem : s ∈ l
    · rw [if_pos (Levels.code_mem_text.2 hmem), if_pos hmem]
    · rw [if_neg (mt Levels.code_mem_text.1 hmem), if_neg hmem]
      simp [Levels.text]
  · funext t
    show Function.update (Levels.mk l).enables s true t = _
    by_cases ht : t = s
    · subst ht
      by_cases hmem : t ∈ l <;> simp [ofLevels, Levels.enables, hmem]
    · rw [Function.update_of_ne ht]
      by_cases hmem : s ∈ l <;> simp [ofLevels, Levels.enables, hmem, ht]

/-- **A set of levels is what is kept of its text**, letters and switches. -/
theorem ofText_eq (text : String) : ofText text = ofLevels (.ofText text) := by
  have hall : ∀ cs : List Char,
      cs.foldl next start = ofLevels ⟨(cs.filterMap Levels.ofLetter?).eraseDups⟩ := by
    intro cs
    induction cs using List.reverseRecOn with
    | nil => apply Reading.ext <;> simp [start, ofLevels, Levels.text, Levels.enables, funext_iff]
    | append_singleton cs c ih =>
      rw [List.foldl_append, List.foldl_cons, List.foldl_nil, ih, List.filterMap_append]
      cases h : Levels.ofLetter? c with
      | none => simp [next, h, Levels.ofLetter?_eq_none_iff.1 h]
      | some s =>
        have hlast : (cs.filterMap Levels.ofLetter? ++ [s]).eraseDups =
            if s ∈ (cs.filterMap Levels.ofLetter?).eraseDups
              then (cs.filterMap Levels.ofLetter?).eraseDups
              else (cs.filterMap Levels.ofLetter?).eraseDups ++ [s] :=
          (firstsOf_eraseDups _).unique ((firstsOf_eraseDups _).snoc s)
        rw [next_of_letter _ h, ← hlast]
        simp [h]
  exact hall text.toList

theorem firsts_letters (text : String) :
    FirstsOf (text.toList.filter (· ∈ Levels.optionalLetters)) (ofText text).letters := by
  have hall : ∀ cs : List Char,
      FirstsOf (cs.filter (· ∈ Levels.optionalLetters)) (cs.foldl next start).letters := by
    intro cs
    induction cs using List.reverseRecOn with
    | nil => exact .nil
    | append_singleton cs c ih =>
      rw [List.foldl_append, List.foldl_cons, List.foldl_nil, List.filter_append]
      by_cases hc : c ∈ Levels.optionalLetters
      · simpa [next, hc] using ih.snoc c
      · simpa [next, hc] using ih
  exact hall text.toList

end Reading

/-! ### What holds of levels -/

/-- The levels were read from a text: a severity is on if it is always on or its letter is recorded;
the letters are those of the text that count, each once, in the order in which they occur first; and
they and the switches are what is kept of the text. -/
structure Levels.ReadOf (l : Levels) (text : String) : Prop where
  enables : ∀ s, l.enables s = true ↔ (s = .panic ∨ s = .exit) ∨ s.code ∈ l.text.toList
  nodup : l.text.toList.Nodup
  optional : ∀ c ∈ l.text.toList, c ∈ optionalLetters
  firsts : FirstsOf (text.toList.filter (· ∈ optionalLetters)) l.text.toList
  kept : Reading.ofText text = ⟨l.text.toList, l.enables⟩

theorem Levels.readOf_ofText (text : String) : (ofText text).ReadOf text := by
  have hfirsts : FirstsOf (text.toList.filter (· ∈ optionalLetters)) (ofText text).text.toList := by
    have h := Reading.firsts_letters text
    rwa [Reading.ofText_eq] at h
  exact
    { enables := fun _ => enables_iff
      nodup := hfirsts.nodup
      optional := fun c hc => by simpa using (List.mem_filter.1 ((hfirsts.mem c).1 hc)).2
      firsts := hfirsts
      kept := Reading.ofText_eq text }

end Logline
