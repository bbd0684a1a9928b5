import Logline.Line.Draft
import Logline.Line.Script

/-!
What a line comes to say. `Script.Says` tells which bytes a script may append, however full the
scratch space is and whoever holds the output lock; with `late` the code of a caller may also miss
its time, so that the placeholder is said in its place. Without it there is one answer only, the
wording (`says_false_iff`).

`Script.Tame` tells of code of callers in which manner it behaves: it may have to be silent, or be
allowed to take its time, to panic or to write lines.
-/

namespace Logline

/-! ### What a script says -/

mutual

/-- The bytes an instruction may append, with whether a separator is owed before and after. -/
def Instr.Says (late : Bool) : Instr → Bool → Text.Bytes → Bool → Prop
  | .chunk bytes, owed, out, after => out = bytes ∧ after = owed
  | .reserve _, owed, out, after => out = [] ∧ after = owed
  | .separate mark, owed, out, after => out = (if owed then mark else []) ∧ after = owed
  | .owe next, _, out, after => out = [] ∧ after = next
  | .block body, owed, out, after => Script.Says late body owed out after
  | .later made, owed, out, after => (made ()).Says late owed out after
  | .direct _, owed, out, after => out = [] ∧ after = owed
  | .guarded _ onTime tooLate, owed, out, after =>
    Script.Says late onTime owed out after ∨ late = true ∧ Script.Says late tooLate owed out after
termination_by structural i => i

def Script.Says (late : Bool) : List Instr → Bool → Text.Bytes → Bool → Prop
  | [], owed, out, after => out = [] ∧ after = owed
  | i :: rest, owed, out, after =>
    ∃ a b mid, out = a ++ b ∧ i.Says late owed a mid ∧ Script.Says late rest mid b after
termination_by structural s => s

end

theorem Script.says_append {late : Bool} {s t : Script} {owed after : Bool} {out : Text.Bytes} :
    Script.Says late (s ++ t) owed out after ↔
      ∃ a b mid, out = a ++ b ∧ Script.Says late s owed a mid ∧ Script.Says late t mid b after := by
  induction s generalizing owed out with
  | nil =>
    constructor
    · exact fun h => ⟨[], out, owed, rfl, ⟨rfl, rfl⟩, h⟩
    · rintro ⟨_, b, _, rfl, ⟨rfl, rfl⟩, h⟩
      exact h
  | cons i rest ih =>
    constructor
    · rintro ⟨a, b, mid, rfl, hi, hrest⟩
      obtain ⟨b, c, mid', rfl, hb, hc⟩ := ih.1 hrest
      exact ⟨a ++ b, c, mid', by simp, ⟨a, b, mid, rfl, hi, hb⟩, hc⟩
    · rintro ⟨_, c, mid', rfl, ⟨a, b, mid, rfl, hi, hb⟩, hc⟩
      exact ⟨a, b ++ c, mid, by simp, hi, ih.2 ⟨b, c, mid', rfl, hb, hc⟩⟩

mutual

theorem Instr.says_false_iff (i : Instr) (owed : Bool) (out : Text.Bytes) (after : Bool) :
    i.Says false owed out after ↔ i.wording owed = (out, after) := by
  cases i with
  | block body => exact Script.says_false_iff body owed out after
  | later made => exact Instr.says_false_iff (made ()) owed out after
  | guarded acts onTime tooLate =>
    simpa [Instr.Says, Instr.wording] using Script.says_false_iff onTime owed out after
  | _ => simp [Instr.Says, Instr.wording, Prod.ext_iff, eq_comm]
termination_by structural i

/-- If all code answers in time, a script says its wording and nothing else. -/
theorem Script.says_false_iff (s : List Instr) (owed : Bool) (out : Text.Bytes) (after : Bool) :
    Script.Says false s owed out after ↔ Script.wording s owed = (out, after) := by
  cases s with
  | nil => simp [Script.Says, Script.wording, eq_comm]
  | cons i rest =>
    simp only [Script.Says, Script.wording, Instr.says_false_iff i, Script.says_false_iff rest]
    constructor
    · rintro ⟨a, b, mid, rfl, hi, hrest⟩
      simp [hi, hrest]
    · rintro ⟨⟩
      exact ⟨_, _, _, rfl, rfl, rfl⟩
termination_by structural s

end

/-! ### Manners of code -/

/-- What code of callers may do besides coming to its result: take its time, panic, write lines of its
own, and write lines also where it gives the text of a key. -/
structure Manner where
  slow : Bool
  panics : Bool
  lines : Bool
  keyLines : Bool

namespace Manner

def silent : Manner := ⟨false, false, false, false⟩

/-- Code may do anything but write lines. -/
def unlogged : Manner := ⟨true, true, false, false⟩

def atKeys (m : Manner) : Manner := { m with lines := m.keyLines }

end Manner

mutual

/-- Code of callers does not end the thread by a line, and keeps to a manner. -/
def Instr.Tame (m : Manner) : Instr → Prop
  | .block body => Script.Tame m body
  | .later made => (made ()).Tame m
  | .direct acts => Acts.Tame m.atKeys acts
  | .guarded acts onTime tooLate =>
    Acts.Tame m acts ∧ Script.Tame m onTime ∧ Script.Tame m tooLate
  | _ => True
termination_by structural i => i

def Script.Tame (m : Manner) : List Instr → Prop
  | [] => True
  | i :: rest => i.Tame m ∧ Script.Tame m rest
termination_by structural s => s

def Act.Tame (m : Manner) : Act → Prop
  | .called _ => True
  | .slow => m.slow = true
  | .line route body => m.lines = true ∧ route.severity.alwaysOn = false ∧ Script.Tame m body
  | .panic _ => m.panics = true
termination_by structural a => a

def Acts.Tame (m : Manner) : List Act → Prop
  | [] => True
  | a :: rest => a.Tame m ∧ Acts.Tame m rest
termination_by structural acts => acts

end

theorem Script.tame_iff {m : Manner} {s : Script} :
    Script.Tame m s ↔ ∀ i ∈ s, i.Tame m := by
  induction s with
  | nil => simp [Script.Tame]
  | cons i rest ih => simp [Script.Tame, ih]

theorem Acts.tame_iff {m : Manner} {acts : List Act} :
    Acts.Tame m acts ↔ ∀ a ∈ acts, a.Tame m := by
  induction acts with
  | nil => simp [Acts.Tame]
  | cons a rest ih => simp [Acts.Tame, ih]

theorem Script.tame_append {m : Manner} {a b : Script} :
    Script.Tame m (a ++ b) ↔ Script.Tame m a ∧ Script.Tame m b := by
  simp only [tame_iff, List.mem_append]
  exact ⟨fun h => ⟨fun i hi => h i (.inl hi), fun i hi => h i (.inr hi)⟩,
    fun h i hi => hi.elim (h.1 i) (h.2 i)⟩

/-- Silent code answers a helper in time. -/
theorem answered_of_tame {acts : List Act} (h : Acts.Tame .silent acts) :
    (runHelper acts).answered = true := by
  induction acts with
  | nil => rfl
  | cons a rest ih =>
    cases a with
    | called label => exact ih h.2
    | _ => simp [Acts.Tame, Act.Tame, Manner.silent] at h

end Logline
