import Logline.Proofs.Line.Codes

/-!
The code that writing a value runs is the code its parts bring along: if that is tame, so is the
script (`Value.writing_tame`). Code of what stands in the place of a key is asked for its text on the
thread that writes the line, whoever holds the output lock, and is told apart.
-/

namespace Logline

open Script

mutual

theorem Instr.tame_iff_runs {m : Manner} (i : Instr) :
    i.Tame m ↔ i.Runs (Acts.Tame m.atKeys) fun acts _ => Acts.Tame m acts := by
  cases i with
  | block body => exact Script.tame_iff_runs body
  | later made => exact Instr.tame_iff_runs (made ())
  | guarded acts onTime tooLate =>
    exact and_congr Iff.rfl (and_congr (Script.tame_iff_runs onTime) (Script.tame_iff_runs tooLate))
  | _ => exact Iff.rfl
termination_by structural i

/-- A script is tame if the code it runs is. -/
theorem Script.tame_iff_runs {m : Manner} (s : List Instr) :
    Script.Tame m s ↔ Script.Runs (Acts.Tame m.atKeys) (fun acts _ => Acts.Tame m acts) s := by
  cases s with
  | nil => exact Iff.rfl
  | cons i rest => exact and_congr (Instr.tame_iff_runs i) (Script.tame_iff_runs rest)
termination_by structural s

end

/-- The code of the value itself is tame. -/
def Value.Behaves (now : Clock → Moment) (m : Manner) (v : Value) : Prop :=
  ∀ code ∈ v.codes, Acts.Tame m (codeActs now code)

/-- All three ways of a writing are tame. -/
structure Writing.Tame (m : Manner) (w : Writing) : Prop where
  item : Script.Tame m w.item
  member : ∀ k, Script.Tame m k → Script.Tame m (w.member k)
  splice : Script.Tame m w.splice

theorem Writing.tame_of_runs {m : Manner} {w : Writing}
    (h : w.Runs (Acts.Tame m.atKeys) fun acts _ => Acts.Tame m acts) : w.Tame m where
  item := (Script.tame_iff_runs _).2 h.item
  member k hk := (Script.tame_iff_runs _).2 (h.member k ((Script.tame_iff_runs k).1 hk))
  splice := (Script.tame_iff_runs _).2 h.splice

namespace Value

variable {now : Clock → Moment} {m : Manner}

theorem Behaves.written {v : Value} (h : v.Behaves now m) : Acts.Tame m (v.writtenActs now) := by
  rw [Acts.tame_iff]
  intro a ha
  obtain ⟨code, hcode, hmem⟩ := List.mem_flatMap.1 ha
  exact Acts.tame_iff.1 (h code (mem_codes_of_written hcode)) a hmem

/-- The code a value brings along is tame, and that of what may stand as a key also in the manner
that keys have to keep. -/
structure Tame (now : Clock → Moment) (m : Manner) (parts keys : List Value) : Prop where
  parts : ∀ x ∈ parts, x.Behaves now m
  keys : ∀ k ∈ keys, ∀ x ∈ k.parts, x.Behaves now m.atKeys

theorem Tame.runs {parts keys : List Value} (h : Tame now m parts keys) :
    Runs now (Acts.Tame m.atKeys) (fun acts _ => Acts.Tame m acts) parts keys := by
  refine ⟨fun x hx _ _ _ => (h.parts x hx).written, fun k hk => Acts.tame_iff.2 ?_⟩
  intro a ha
  obtain ⟨x, hx, code, hcode, hmem⟩ := (textActs_of_parts k).1 a ha
  exact Acts.tame_iff.1 (h.keys k hk x hx code (mem_codes_of_text hcode)) a hmem

/-- Tame code makes a tame script. -/
theorem writing_tame (v : Value) (h : Tame now m v.parts v.keys) : (v.writing now).Tame m :=
  Writing.tame_of_runs (writing_runs v h.runs)

end Value

end Logline
