import Logline.Proofs.Settings.Levels
import Logline.Proofs.Settings.Runs

/-!
Levels that are asked for and set again. A set of levels is read back from its letters, so that the
levels stay what they are; only where none is switched on the letters are the empty text, which stands
for the default in settings and for the levels in force in a module (`Levels.standing_text`).
-/

namespace Logline

namespace Levels

variable {text empty : String}

/-- A level has its letter in the text. -/
def Named (text : String) : Prop := ∃ c ∈ text.toList, c ∈ optionalLetters

instance (text : String) : Decidable (Named text) :=
  decidable_of_iff (text.toList.any (optionalLetters.contains ·) = true) (by simp [Named])

theorem ofText_of_not_named (h : ¬ Named text) : ofText text = ⟨[]⟩ := by
  have hnone : text.toList.filterMap ofLetter? = [] :=
    List.filterMap_eq_nil_iff.2 fun c hc => ofLetter?_eq_none_iff.2 fun hletter => h ⟨c, hc, hletter⟩
  rw [ofText, hnone, List.eraseDups_nil]

theorem text_ofText_of_named (h : Named text) : (ofText text).text ≠ "" := by
  obtain ⟨c, hc, hletter⟩ := h
  have hmem : c ∈ (ofText text).text.toList :=
    ((readOf_ofText text).firsts.mem c).2 (List.mem_filter.2 ⟨hc, by simpa using hletter⟩)
  intro hempty
  rw [hempty] at hmem
  exact List.not_mem_nil hmem

/-- The levels a text stands for where the empty text stands for those of another one. -/
def standing (empty text : String) : Levels := ofText (if text = "" then empty else text)

theorem standing_of_ne (h : text ≠ "") : standing empty text = ofText text := by
  rw [standing, if_neg h]

/-- What was read is written and read again: if a text names no level though it is not empty, what the
empty text stands for takes the place of its levels. -/
theorem standing_text (empty text : String) :
    standing empty (standing empty text).text =
      if text = "" ∨ Named text then standing empty text else ofText empty := by
  have hread : ∀ t, standing empty (ofText t).text = if Named t then ofText t else ofText empty := by
    intro t
    by_cases ht : Named t
    · rw [standing_of_ne (text_ofText_of_named ht), ofText_text, if_pos ht]
    · rw [ofText_of_not_named ht, if_neg ht]
      rfl
  by_cases hempty : text = ""
  · -- what stands for the empty text is read again, whatever it names
    have hstands : standing empty text = ofText empty := by rw [hempty]; rfl
    rw [if_pos (.inl hempty), hstands, hread, ite_self]
  · have hnamed : text = "" ∨ Named text ↔ Named text := or_iff_right hempty
    rw [standing_of_ne hempty, hread]
    exact (if_congr hnamed rfl rfl).symm

theorem standing_restored_iff (empty text : String) :
    standing empty (standing empty text).text = standing empty text ↔
      (text = "" ∨ Named text) ∨ ¬ Named empty := by
  rw [standing_text]
  by_cases hkept : text = "" ∨ Named text
  · rw [if_pos hkept]
    exact ⟨fun _ => .inl hkept, fun _ => rfl⟩
  · obtain ⟨hempty, hnamed⟩ := not_or.1 hkept
    have hoff : standing empty text = ⟨[]⟩ := by
      rw [standing_of_ne hempty, ofText_of_not_named hnamed]
    rw [if_neg hkept, hoff, or_iff_right hkept]
    refine ⟨fun h hon => text_ofText_of_named hon ?_, ofText_of_not_named⟩
    rw [h]
    rfl

end Levels

open Levels

/-! ### Settings -/

theorem Settings.setLevels_text (s : Settings) (text : String) :
    (s.setLevels text).setLevels (s.setLevels text).levels.text =
      if text = "" ∨ Named text then s.setLevels text else s.setLevels "" := by
  have hagain : (s.setLevels text).setLevels (s.setLevels text).levels.text =
      { s with levels := standing Levels.default (standing Levels.default text).text } := rfl
  rw [hagain, standing_text]
  split
  · rfl
  · rfl

/-! ### Modules -/

namespace Modules

variable {ms : Modules} {m : Module} {name : String}

theorem setLevels_setLevels (ms : Modules) (name : String) (levels later : Levels) :
    (ms.setLevels name levels).setLevels name later = ms.setLevels name later := by
  refine congrArg Modules.mk ?_
  rw [setLevels, List.map_map]
  refine List.map_congr_left fun m _ => ?_
  by_cases hm : m.name = name <;> simp [hm]

theorem find?_setLevels (h : ms.find? name = some m) (levels : Levels) :
    (ms.setLevels name levels).find? name = some { m with levels } := by
  have hname := (mem_of_find? h).2
  have hsame : ((fun x : Module => decide (x.name = name)) ∘
      fun x => if x.name = name then { x with levels } else x) =
      fun x => decide (x.name = name) := by
    funext x
    by_cases hx : x.name = name <;> simp [hx]
  rw [find?] at h ⊢
  rw [setLevels, List.find?_map, hsame, h, Option.map_some, if_pos hname]

theorem setLevels_inj (h : ms.find? name = some m) {levels later : Levels} :
    ms.setLevels name later = ms.setLevels name levels ↔ later = levels := by
  refine ⟨fun hsame => ?_, fun hsame => by rw [hsame]⟩
  have hfound := find?_setLevels h later
  rw [hsame, find?_setLevels h] at hfound
  exact (congrArg Module.levels (Option.some.inj hfound)).symm

end Modules

/-! ### Programs -/

namespace Run

variable {σ : Type} {p q : Program σ}

theorem Comes.mono {α : Type} {x : Run σ α} {P Q : α → Program σ → Prop} (h : Comes p x P)
    (hmono : ∀ a q, P a q → Q a q) : Comes p x Q :=
  h.imp_left fun ⟨a, q, hrun, hq⟩ => ⟨a, q, hrun, hmono a q hq⟩

theorem Comes.of_not_refuses {α : Type} {x : Run σ α} {P : α → Program σ → Prop}
    (h : Comes p x P) (hp : ¬ p.Refuses) : ∃ a q, x.run.run p = (.ok a, q) ∧ P a q :=
  h.resolve_right fun ⟨_, _, _, _, hrefuses⟩ => hp hrefuses

theorem comes_change (f : Settings → Settings) (p : Program σ) :
    Comes p (change f) fun _ q => q.inForce = f p.inForce ∧ q.modules = p.modules ∧
      ∃ s, q.published = some s := by
  rw [change, update]
  refine (comes_snapshot p).bind_ok ?_
  rintro s q ⟨hlooks, -, hforce⟩
  refine ⟨(), Updates.publishing q (f s.settings), rfl, ?_, hlooks.modules, _, rfl⟩
  exact congrArg f hforce

theorem run_change (f : Settings → Settings) {s : Snapshot} (h : p.published = some s) :
    (change f).run.run p = (.ok (), Updates.publishing p (f p.inForce)) := by
  rw [change, Updates.run_update _ h, p.inForce_of_published h]

theorem run_enabledLevels {s : Snapshot} (h : p.published = some s) :
    (enabledLevels).run.run p = (.ok p.inForce.levels.text, p) := by
  rw [enabledLevels, Updates.run_bind (Updates.run_snapshot h), p.inForce_of_published h]
  rfl

end Run

open Run

/-- **Levels that are asked for and set again come back.** That holds of settings, of what is in force in
a program and of each module, the letters and what is switched on, if the levels were set to the empty
text or to one that names a level. A text that names none switches all of them off; what is asked for is
then the empty text, which brings the default back in settings, and in a module the levels in force. -/
theorem levels_come_back {σ : Type} (text : String) :
    (∀ s : Settings, (s.setLevels text).setLevels (s.setLevels text).levels.text =
        if text = "" ∨ Named text then s.setLevels text else s.setLevels "") ∧
      (∀ p : Program σ, Comes p (change (·.setLevels text)) fun _ q =>
        q.inForce = p.inForce.setLevels text ∧
          ∃ saved r, enabledLevels.run.run q = (.ok saved, q) ∧
            (change (·.setLevels saved)).run.run q = (.ok (), r) ∧ r.modules = q.modules ∧
              r.inForce = if text = "" ∨ Named text then q.inForce else p.inForce.setLevels "") ∧
      ∀ (p : Program σ) (name : String) (m : Module), p.modules.find? name = some m →
        Comes p (setModuleLevels name text) fun found q => found = true ∧ (q.Refuses → p.Refuses) ∧
          ∃ saved, (levelsOfModule name).run.run q = (.ok saved, q) ∧
            Comes q (setModuleLevels name saved) fun found r => found = true ∧
              r.inForce = q.inForce ∧
              (r.modules = q.modules ↔
                (text = "" ∨ Named text) ∨ ¬ Named p.inForce.levels.text) ∧
              (¬ (text = "" ∨ Named text) →
                r.modules = p.modules.setLevels name (.ofText p.inForce.levels.text)) := by
  refine ⟨fun s => s.setLevels_text text, fun p => ?_, fun p name m hfind => ?_⟩
  · refine (comes_change _ p).mono ?_
    rintro _ q ⟨hforce, -, s, hs⟩
    refine ⟨hforce, _, _, run_enabledLevels hs, run_change _ hs, rfl, ?_⟩
    show q.inForce.setLevels q.inForce.levels.text = _
    rw [hforce, p.inForce.setLevels_text text]
  · refine (comes_setModuleLevels text hfind).mono ?_
    rintro _ _ ⟨hfound, q, hlooks, rfl⟩
    set g := p.inForce.levels.text
    have hset := Modules.find?_setLevels hfind (standing g text)
    have hforce : q.inForce.levels.text = g := by rw [hlooks.inForce]
    refine ⟨hfound, hlooks.refuses, _, run_levelsOfModule_of_find? hset, ?_⟩
    refine (comes_setModuleLevels _ hset).mono ?_
    rintro _ _ ⟨hfound', r, hlooks', rfl⟩
    -- the second time the levels in force are still those of the first
    have hagain : (p.modules.setLevels name (standing g text)).setLevels name
          (standing q.inForce.levels.text (standing g text).text) =
        p.modules.setLevels name (standing g (standing g text).text) := by
      rw [Modules.setLevels_setLevels, hforce]
    refine ⟨hfound', hlooks'.inForce, ?_, fun hnone => ?_⟩
    · rw [← standing_restored_iff, ← Modules.setLevels_inj hfind, ← hagain]
      exact Iff.rfl
    · refine hagain.trans ?_
      rw [standing_text, if_neg hnone]

/-- A module has its levels set to letters of which two count, and to one that counts for nothing. -/
theorem levels_of_module_come_back :
    let p : Program Unit := ⟨none, fun _ => none, fun _ => ⟨2026, 1, 1, 12, 0, 0, 0⟩, none,
      ⟨[⟨1, "db", .ofText "F"⟩]⟩, 0, 1, [], ()⟩
    (∃ q saved r, (setModuleLevels "db" "GxGW").run.run p = (.ok true, q) ∧
        (levelsOfModule "db").run.run q = (.ok saved, q) ∧
          (setModuleLevels "db" saved).run.run q = (.ok true, r) ∧ r.modules = q.modules) ∧
      ∃ q saved r, (setModuleLevels "db" "-").run.run p = (.ok true, q) ∧
        (levelsOfModule "db").run.run q = (.ok saved, q) ∧
          (setModuleLevels "db" saved).run.run q = (.ok true, r) ∧
            r.modules = p.modules.setLevels "db" (.ofText "FWNA") := by
  intro p
  have hp : ¬ p.Refuses := fun h => h.2 rfl
  constructor
  · obtain ⟨-, -, hmodule⟩ := levels_come_back (σ := Unit) "GxGW"
    obtain ⟨_, q, hset, rfl, hq, saved, hsaved, hagain⟩ :=
      (hmodule p "db" _ rfl).of_not_refuses hp
    obtain ⟨_, r, hrun, rfl, -, hsame, -⟩ := hagain.of_not_refuses (mt hq hp)
    exact ⟨q, saved, r, hset, hsaved, hrun, hsame.2 (.inl (by decide))⟩
  · obtain ⟨-, -, hmodule⟩ := levels_come_back (σ := Unit) "-"
    obtain ⟨_, q, hset, rfl, hq, saved, hsaved, hagain⟩ :=
      (hmodule p "db" _ rfl).of_not_refuses hp
    obtain ⟨_, r, hrun, rfl, -, -, hglobal⟩ := hagain.of_not_refuses (mt hq hp)
    have hinforce : Levels.ofText p.inForce.levels.text = .ofText "FWNA" := by decide +kernel
    exact ⟨q, saved, r, hset, hsaved, hrun, by rw [hglobal (by decide), hinforce]⟩

/-- All levels are switched off, in settings and in a module; what is asked for then switches some on. -/
theorem switched_off_levels_do_not_come_back :
    let off := (Settings.initial none).setLevels "-"
    let p : Program Unit := ⟨none, fun _ => none, fun _ => ⟨2026, 1, 1, 12, 0, 0, 0⟩, none,
      ⟨[⟨1, "db", .ofText "F"⟩]⟩, 0, 1, [], ()⟩
    let restored : Run Unit (String × String) := do
      let _ ← setModuleLevels "db" "-"
      let saved ← levelsOfModule "db"
      let _ ← setModuleLevels "db" saved
      return (saved, ← levelsOfModule "db")
    (off.levels.text = "" ∧ (off.setLevels off.levels.text).levels.text = "FWNA" ∧
        (off.setLevels off.levels.text).levels.enables .warn ≠ off.levels.enables .warn) ∧
      (restored.run.run p).1.toOption = some ("", "FWNA") := by
  decide +kernel

end Logline
