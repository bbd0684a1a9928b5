import Logline.Severity

/-!
Which severities are switched on. A set of levels is written as the letters of its severities;
reading any text keeps the letters that mean something, each once, in the order they first occur.
Reading a written set gives the set back (`ofText_text`).
-/

namespace Logline

structure Levels where
  optional : List Severity
deriving DecidableEq, Repr

namespace Levels

/-- The severity a letter switches on; only capital letters count. -/
def ofLetter? (c : Char) : Option Severity :=
  Severity.all.find? fun s => !s.alwaysOn && s.code = c

def ofText (s : String) : Levels := ⟨(s.toList.filterMap ofLetter?).eraseDups⟩

def text (l : Levels) : String := String.ofList (l.optional.map Severity.code)

/-- What is switched on where nothing else was asked for. -/
def default : String := "FWNA"

def enables (l : Levels) (s : Severity) : Bool := s.alwaysOn || l.optional.contains s

def enabled (l : Levels) : List Severity := Severity.all.filter l.enables

/-! ### Reading what was written -/

theorem nodup_eraseDups : ∀ l : List Severity, l.eraseDups.Nodup
  | [] => by simp
  | a :: as => by
    rw [List.eraseDups_cons, List.nodup_cons, List.mem_eraseDups]
    exact ⟨by simp, nodup_eraseDups _⟩
termination_by l => l.length
decreasing_by exact Nat.lt_succ_of_le (List.length_filter_le ..)

theorem eraseDups_of_nodup {l : List Severity} (h : l.Nodup) : l.eraseDups = l := by
  induction l with
  | nil => simp
  | cons a as ih =>
    rw [List.nodup_cons] at h
    rw [List.eraseDups_cons, List.filter_eq_self.2 (by grind), ih h.2]

theorem ofLetter?_code {s : Severity} (h : s.alwaysOn = false) : ofLetter? s.code = some s := by
  cases s <;> first | decide | cases h

theorem alwaysOn_of_ofLetter? {c : Char} {s : Severity} (h : ofLetter? c = some s) :
    s.alwaysOn = false := by
  have := List.find?_some h
  grind

/-- Severities of a set are no two the same, and none is always on. -/
theorem nodup_ofText (s : String) : (ofText s).optional.Nodup := nodup_eraseDups _

theorem alwaysOn_of_mem_ofText {text : String} {s : Severity} (h : s ∈ (ofText text).optional) :
    s.alwaysOn = false := by
  rw [ofText, List.mem_eraseDups, List.mem_filterMap] at h
  obtain ⟨c, -, hc⟩ := h
  exact alwaysOn_of_ofLetter? hc

theorem filterMap_code {l : List Severity} (h : ∀ s ∈ l, s.alwaysOn = false) :
    (l.map Severity.code).filterMap ofLetter? = l := by
  induction l with
  | nil => rfl
  | cons s rest ih =>
    rw [List.map_cons, List.filterMap_cons, ofLetter?_code (h s List.mem_cons_self)]
    exact congrArg _ (ih fun t ht => h t (List.mem_cons_of_mem _ ht))

theorem ofText_text (s : String) : ofText (ofText s).text = ofText s := by
  have h := filterMap_code fun t (ht : t ∈ (ofText s).optional) => alwaysOn_of_mem_ofText ht
  rw [ofText, text, String.toList_ofList, h, eraseDups_of_nodup (nodup_ofText s)]

end Levels

end Logline
