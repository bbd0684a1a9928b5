import Logline.Proofs.Line.Handed
import Logline.Proofs.Settings.Environment
import Logline.Proofs.Settings.Levels
import Logline.Proofs.Settings.Runs

/-!
What is switched on. However settings were made and changed, and whatever was done to modules, the
letters of their levels, the switches and the handles they give agree, and the letters are those of
the text the levels were last read from (`levels_agree`). Which text that is does not depend on what a
program answers: new levels of a module are read whenever there is such a module, unless the text asks
for the levels in force and the first look for these finds labels that are refused, which ends the
program (`Run.run_setModuleLevels_of_not_reads`).
-/

namespace Logline

namespace Settings

/-- The text that a text of levels stands for in settings. -/
def levelsText (text : String) : String := if text = "" then Levels.default else text

/-- One thing that can be set. -/
inductive Adjustment where
  | levels (text : String)
  | labels (labels : Option Labels)
  | output (output : Option Destination)
  | errorOutput (output : Destination)
  | pathParts (parts : Nat)
  | levelText (f : Option (String → String))
  | inCloud (inCloud : Bool)
  | spanLabel (label : String)
  | clock (clock : Clock)
  | reportErrors (report : Bool)

namespace Adjustment

def make : Adjustment → Settings → Settings
  | .levels t, s => s.setLevels t
  | .labels l, s => s.setLabels l
  | .output d, s => s.setOutput d
  | .errorOutput d, s => s.setErrorOutput d
  | .pathParts n, s => s.setPathParts n
  | .levelText f, s => s.setLevelText f
  | .inCloud b, s => s.setInCloud b
  | .spanLabel label, s => s.setSpanLabel label
  | .clock c, s => s.setClock c
  | .reportErrors b, s => s.setReportErrors b

/-- The text that levels were last read from, after an adjustment. -/
def text (before : String) : Adjustment → String
  | .levels t => levelsText t
  | _ => before

end Adjustment

/-- Settings that can be made, with the text their levels were last read from. -/
inductive Made : Settings → String → Prop
  | initial (program : Option String) : Made (.initial program) Levels.default
  | environment (program : Option String) (env : Environment) :
      Made (ofEnvironment program env).1 (levelsText ((given? env "LAGER_LEVELS").getD ""))
  | adjust {s : Settings} {text : String} (a : Adjustment) (h : Made s text) :
      Made (a.make s) (a.text text)

variable {s : Settings}

theorem levels_make (a : Adjustment) {text : String} (h : s.levels = .ofText text) :
    (a.make s).levels = .ofText (a.text text) := by
  cases a with
  | levels => rfl
  | inCloud inCloud => cases inCloud <;> exact h
  | _ => exact h

/-- No other variable has to do with levels. -/
theorem levels_ofEnvironment (program : Option String) (env : Environment) :
    (ofEnvironment program env).1.levels =
      .ofText (levelsText ((given? env "LAGER_LEVELS").getD "")) := by
  rw [ofEnvironment_fst]
  cases hgiven : given? env "LAGER_LEVELS" with
  | none => simp [withoutLabels, hgiven, levelsText]
  | some text => simp [withoutLabels, hgiven, levelsText, (given?_eq_some_iff.1 hgiven).2]

theorem Made.levels_eq {text : String} (h : Made s text) : s.levels = .ofText text := by
  induction h with
  | initial program => rfl
  | environment program env => exact levels_ofEnvironment program env
  | adjust a _ ih => exact levels_make a ih

theorem Made.readOf {text : String} (h : Made s text) : s.levels.ReadOf text := by
  rw [h.levels_eq]
  exact Levels.readOf_ofText text

end Settings

/-! ### Handles -/

/-- The handle is on if the severity is, and bound to the severity and the settings. -/
structure Handle.IsFor (h : Handle Value) (l : Levels) (severity : Severity) (s : Settings) :
    Prop where
  enabled : h.isEnabled = l.enables severity
  severity : ∀ w, h = .enabled w → w.severity = severity
  settings : ∀ w, h = .enabled w → w.settings = s

theorem Snapshot.isFor_handle (s : Snapshot) (severity : Severity) :
    (s.handle severity).IsFor s.settings.levels severity s.settings := by
  unfold handle
  split
  · next hon =>
    refine ⟨hon.symm, ?_, ?_⟩
    · rintro w ⟨⟩
      rfl
    · rintro w ⟨⟩
      rfl
  · next hoff =>
    have hdisabled : s.settings.levels.enables severity = false := by simpa using hoff
    exact ⟨hdisabled.symm, fun _ hw => (nomatch hw), fun _ hw => nomatch hw⟩

/-! ### Labels that are refused at the first look -/

namespace Run

variable {σ : Type} {p : Program σ} {name text : String} {m : Module}

/-- The line about refused labels ends the program. -/
theorem run_refuse_stops (s : Snapshot) (e : LabelsError) (p : Program σ) :
    ∃ stop q, (refuse s e).run.run p = (.error stop, q) := by
  let w : Writer Value := ⟨s.stamp, .exit, .empty, none, s.settings⟩
  have hends : ∀ form : Form Value, (∀ x ∈ w.parts form, x.Bare) →
      ∃ stop q, (writeForm (.enabled w) form).run.run p = (.error stop, q) := fun form hbare =>
    let ⟨_, hrun, _⟩ := writeForm_bare p hbare
    ⟨_, _, hrun⟩
  cases e with
  | arity found text =>
    refine hends (.messageMap _ [.str "Not", .int (.ofNat found), .str "Value", .str text]) ?_
    intro x hx
    simp [w, Writer.parts, Form.args, Value.partsOf, Value.parts, Value.entryParts,
      Value.memberParts, Pairs.empty] at hx
    rcases hx with rfl | rfl | rfl | rfl <;> exact ⟨rfl, rfl, rfl⟩
  | blank text =>
    refine hends (.messageMap _ [.str "LAGER_KEYS", .str text]) ?_
    intro x hx
    simp [w, Writer.parts, Form.args, Value.partsOf, Value.parts, Value.entryParts,
      Value.memberParts, Pairs.empty] at hx
    rcases hx with rfl | rfl <;> exact ⟨rfl, rfl, rfl⟩

theorem run_snapshot_of_refuses (h : p.Refuses) :
    ∃ stop q, (snapshot : Run σ Snapshot).run.run p = (.error stop, q) := by
  obtain ⟨hp, herror⟩ := h
  obtain ⟨e, he⟩ := Option.ne_none_iff_exists'.1 herror
  obtain ⟨stop, q, hrefuse⟩ := run_refuse_stops ⟨p.stamps + 1, p.inForce⟩ e
    { p with published := some ⟨p.stamps + 1, p.inForce⟩, stamps := p.stamps + 1 }
  exact ⟨stop, q, (run_snapshot_of_refused hp he).trans (Updates.run_bind_error hrefuse _)⟩

theorem run_setModuleLevels_of_reads (hfind : p.modules.find? name = some m) (h : p.Reads text) :
    ∃ q, p.Looks q ∧ (setModuleLevels name text).run.run p =
      (.ok true, { q with modules := p.modules.setLevels name (.ofText (p.levelsText text)) }) := by
  by_cases htext : text = ""
  · obtain ⟨_, _, hrun, rfl, q, hlooks, rfl⟩ :=
      (comes_setModuleLevels text hfind).resolve_right fun ⟨_, _, _, _, hrefuses⟩ => h htext hrefuses
    exact ⟨q, hlooks, hrun⟩
  · refine ⟨p, .refl p, ?_⟩
    have hlevels : (moduleLevels text).run.run p = (.ok (.ofText (p.levelsText text)), p) := by
      rw [moduleLevels, Program.levelsText, if_neg htext, if_neg htext]
      rfl
    rw [setModuleLevels, Updates.run_bind (run_get p), hfind]
    exact Updates.run_bind hlevels _

theorem run_setModuleLevels_of_not_reads (hfind : p.modules.find? name = some m)
    (h : ¬ p.Reads text) :
    ∃ stop q, p.Looks q ∧ (setModuleLevels name text).run.run p = (.error stop, q) := by
  obtain ⟨rfl, hrefuses⟩ : text = "" ∧ p.Refuses := by simpa [Program.Reads] using h
  obtain ⟨stop, q, hlook⟩ := run_snapshot_of_refuses hrefuses
  have hlevels : (moduleLevels "").run.run p = (.error stop, q) := Updates.run_bind_error hlook _
  have hrun : (setModuleLevels name "").run.run p = (.error stop, q) := by
    rw [setModuleLevels, Updates.run_bind (run_get p), hfind]
    exact Updates.run_bind_error hlevels _
  rcases comes_setModuleLevels "" hfind with ⟨_, _, hok, -⟩ | ⟨stop, q, herror, hlooks, -⟩
  · cases hok.symm.trans hrun
  · exact ⟨stop, q, hlooks, herror⟩

end Run

/-! ### Programs -/

section Programs

variable {σ : Type}

/-- The texts of modules after levels are set. -/
def textsAfter (p : Program σ) (texts : String → String) (name text : String) : String → String :=
  if (p.modules.find? name).isSome ∧ p.Reads text then
    Function.update texts name (p.levelsText text)
  else texts

/-- What a program comes to by changing its settings and its modules, with the text that the levels of
each module were last read from. A change may be anything that makes settings of settings. Whatever
fails leaves what it has done. -/
inductive Switched : Program σ → (String → String) → Prop
  | start {p : Program σ} (texts : String → String)
      (hpublished : ∀ s, p.published = some s → ∃ text, s.settings.Made text)
      (hmodules : p.modules = .empty) : Switched p texts
  | look {p : Program σ} {texts : String → String} (h : Switched p texts) :
      Switched (Run.snapshot.run.run p).2 texts
  | update {p : Program σ} {texts : String → String} (h : Switched p texts)
      (change : Settings → Except String Settings)
      (hchange : ∀ s made text, s.Made text → change s = .ok made → ∃ text, made.Made text) :
      Switched ((Run.update change).run.run p).2 texts
  | register {p : Program σ} {texts : String → String} (h : Switched p texts) (name : String)
      (levels : Option String) (env : Environment) :
      Switched ((Run.register name levels env).run.run p).2
        (if (p.modules.find? name).isSome then texts
          else Function.update texts name (p.levelsText (Run.registerText name levels env)))
  | setLevels {p : Program σ} {texts : String → String} (h : Switched p texts) (name text : String) :
      Switched ((Run.setModuleLevels name text).run.run p).2 (textsAfter p texts name text)
  /-- Anything else, such as to write a line. -/
  | other {p q : Program σ} {texts : String → String} (h : Switched p texts)
      (hpublished : q.published = p.published) (hmodules : q.modules = p.modules) :
      Switched q texts

/-- The settings in force can be made; modules are in order, with levels of their texts. -/
structure Program.Sound (p : Program σ) (texts : String → String) : Prop where
  settings : ∀ s, p.published = some s → ∃ text, s.settings.Made text
  sorted : p.modules.Sorted
  modules : ∀ m ∈ p.modules.list, m.levels = .ofText (texts m.name)

variable {p q : Program σ} {texts : String → String}

theorem Program.made_inForce (h : ∀ s, p.published = some s → ∃ text, s.settings.Made text) :
    ∃ text, p.inForce.Made text := by
  unfold inForce
  split
  · next s hs => exact h s hs
  · exact ⟨_, .environment p.program p.environment⟩

theorem Program.Sound.of_looks (h : p.Sound texts) (hlooks : p.Looks q) : q.Sound texts where
  settings := by
    rcases hlooks.published with hsame | ⟨-, stamp, hfirst⟩
    · rw [hsame]
      exact h.settings
    · rw [hfirst]
      rintro _ ⟨⟩
      exact made_inForce h.settings
  sorted := hlooks.modules ▸ h.sorted
  modules := hlooks.modules ▸ h.modules

theorem Program.Sound.of_comes {α : Type} {call : Run σ α} {result : α → Program σ → Prop}
    {after : String → String} (h : p.Sound texts) (hcomes : Run.Comes p call result)
    (hresult : ∀ a q, call.run.run p = (.ok a, q) → result a q → q.Sound after)
    (herror : ∀ e q, call.run.run p = (.error e, q) → q.Sound texts → q.Sound after) :
    (call.run.run p).2.Sound after := by
  rcases hcomes with ⟨a, q, hrun, ha⟩ | ⟨e, q, hrun, hlooks, -⟩
  · rw [hrun]
    exact hresult a q hrun ha
  · rw [hrun]
    exact herror e q hrun (h.of_looks hlooks)

/-! One lemma for each thing that is done. -/

theorem Program.Sound.look (h : p.Sound texts) : (Run.snapshot.run.run p).2.Sound texts :=
  h.of_comes (Run.comes_snapshot p) (fun _ _ _ hs => h.of_looks hs.1) fun _ _ _ hq => hq

theorem Program.Sound.update (h : p.Sound texts) (change : Settings → Except String Settings)
    (hchange : ∀ s made text, s.Made text → change s = .ok made → ∃ text, made.Made text) :
    ((Run.update change).run.run p).2.Sound texts := by
  rw [Run.update]
  rcases Run.comes_snapshot p with ⟨s, q, hrun, hlooks, hpublished, -⟩ | ⟨e, q, hrun, hlooks, -⟩
  · have hq : q.Sound texts := h.of_looks hlooks
    rw [Updates.run_bind hrun]
    cases hmade : change s.settings with
    | error message => exact hq
    | ok made =>
      obtain ⟨text, hs⟩ := hq.settings s hpublished
      refine ⟨?_, hq.sorted, hq.modules⟩
      rintro _ ⟨⟩
      exact hchange s.settings made text hs hmade
  · rw [Updates.run_bind_error hrun]
    exact h.of_looks hlooks

theorem Program.Sound.register (h : p.Sound texts) (name : String) (levels : Option String)
    (env : Environment) :
    ((Run.register name levels env).run.run p).2.Sound
      (if (p.modules.find? name).isSome then texts
        else Function.update texts name (p.levelsText (Run.registerText name levels env))) := by
  cases hfind : p.modules.find? name with
  | some m =>
    rw [Run.run_register_of_find? levels env hfind, Option.isSome_some, if_pos rfl]
    exact h
  | none =>
    rw [Option.isSome_none, if_neg Bool.false_ne_true]
    -- no module has the name yet, so its text does not matter to those that are there
    have hothers : ∀ text, p.Sound (Function.update texts name text) := fun text =>
      ⟨h.settings, h.sorted, fun m hm => by
        rw [Function.update_of_ne (Modules.ne_of_find?_eq_none hfind hm)]
        exact h.modules m hm⟩
    refine (hothers _).of_comes (Run.comes_register levels env h.sorted hfind) ?_ fun _ _ _ hq => hq
    rintro m _ - ⟨q, hlooks, rfl, hlevels, rfl⟩
    refine ⟨(h.of_looks hlooks).settings, h.sorted.insertNew m, fun x hx => ?_⟩
    rcases (Modules.mem_insertNew hfind).1 hx with rfl | hx
    · rw [Function.update_self]
      exact hlevels
    · exact (hothers _).modules x hx

theorem Program.Sound.setLevels (h : p.Sound texts) (name text : String) :
    ((Run.setModuleLevels name text).run.run p).2.Sound (textsAfter p texts name text) := by
  cases hfind : p.modules.find? name with
  | none =>
    rw [Run.run_setModuleLevels_of_none text hfind, textsAfter, if_neg (by simp [hfind])]
    exact h
  | some m =>
    by_cases hreads : p.Reads text
    · obtain ⟨q, hlooks, hrun⟩ := Run.run_setModuleLevels_of_reads hfind hreads
      rw [hrun, textsAfter, if_pos ⟨by simp [hfind], hreads⟩]
      refine ⟨(h.of_looks hlooks).settings, h.sorted.setLevels name _, fun x hx => ?_⟩
      obtain ⟨y, hy, rfl⟩ := Modules.mem_setLevels.1 hx
      by_cases hname : y.name = name
      · rw [if_pos hname]
        show Levels.ofText (p.levelsText text) = .ofText (Function.update texts name _ y.name)
        rw [hname, Function.update_self]
      · rw [if_neg hname]
        show y.levels = .ofText (Function.update texts name _ y.name)
        rw [Function.update_of_ne hname]
        exact h.modules y hy
    · obtain ⟨stop, q, hlooks, hrun⟩ := Run.run_setModuleLevels_of_not_reads hfind hreads
      rw [hrun, textsAfter, if_neg fun hboth => hreads hboth.2]
      exact h.of_looks hlooks

theorem Switched.sound (h : Switched p texts) : p.Sound texts := by
  induction h with
  | start texts hpublished hmodules =>
    refine ⟨hpublished, by rw [hmodules]; exact Modules.sorted_empty, fun m hm => ?_⟩
    rw [hmodules] at hm
    exact absurd hm List.not_mem_nil
  | look _ ih => exact ih.look
  | update _ change hchange ih => exact ih.update change hchange
  | register _ name levels env ih => exact ih.register name levels env
  | setLevels _ name text ih => exact ih.setLevels name text
  | other _ hpublished hmodules ih =>
    exact ⟨by rw [hpublished]; exact ih.settings, by rw [hmodules]; exact ih.sorted,
      by rw [hmodules]; exact ih.modules⟩

/-- **What is recorded is what is switched on.** Of all settings that can be made, and of all modules
a program comes to: a severity is on if it is always on or its letter is recorded; the letters are
those of the text the levels were last read from, each once, in the order they occur in first; and
the handle for a severity is on if the severity is, and bound to it and to the settings it was
taken from. A module gives a handle unless the settings were never looked at and the labels of the
environment are refused. -/
theorem levels_agree (h : Switched p texts) :
    (∀ s, p.published = some s → ∃ text, s.settings.Made text) ∧
    (∀ (s : Settings) (text : String), s.Made text → s.levels.ReadOf text ∧
      ∀ stamp severity, (Snapshot.handle ⟨stamp, s⟩ severity).IsFor s.levels severity s) ∧
    ∀ m ∈ p.modules.list, m.levels.ReadOf (texts m.name) ∧ ∀ severity,
      Run.Comes p (Run.moduleHandle m severity) fun handle q =>
        handle.IsFor m.levels severity q.inForce ∧ q.inForce = p.inForce ∧
          q.modules = p.modules := by
  have hsound := h.sound
  refine ⟨hsound.settings, fun s text hs => ⟨hs.readOf, fun stamp severity => ?_⟩,
    fun m hm => ⟨?_, fun severity => ?_⟩⟩
  · exact Snapshot.isFor_handle ⟨stamp, s⟩ severity
  · rw [hsound.modules m hm]
    exact Levels.readOf_ofText _
  · have hfind := hsound.sorted.find?_of_mem hm
    cases hon : m.levels.enables severity with
    | false =>
      exact .inl ⟨_, p, Run.run_moduleHandle_of_off hfind hon,
        ⟨hon.symm, fun _ hw => (nomatch hw), fun _ hw => nomatch hw⟩, rfl, rfl⟩
    | true =>
      rcases Run.comes_moduleHandle hfind hon with hgiven | hrefused
      · obtain ⟨_, q, hrun, hlooks, w, rfl, hseverity, hsettings, -⟩ := hgiven
        refine .inl ⟨_, q, hrun, ⟨hon.symm, ?_, ?_⟩, hlooks.inForce, hlooks.modules⟩
        · rintro _ ⟨⟩
          exact hseverity
        · rintro _ ⟨⟩
          exact hsettings.trans hlooks.inForce.symm
      · exact .inr hrefused

end Programs

/-- A module without levels of its own takes those in force. These were read from a text that begins
with a letter that is no level, although the last byte of its number is that of F. Then the levels of
the module are set. -/
theorem module_takes_levels_in_force :
    let start : Program Unit :=
      ⟨none, fun _ => none, fun _ => ⟨2026, 1, 1, 12, 0, 0, 0⟩, none, .empty, 0, 0, [], ()⟩
    let p := ((Run.update fun s => .ok (s.setLevels "\u0146DDGx-D")).run.run start).2
    let q := ((Run.register "db" none start.environment).run.run p).2
    let r := ((Run.setModuleLevels "db" "WxFW").run.run q).2
    (∃ texts, Switched q texts ∧ ∃ m ∈ q.modules.list, m.name = "db" ∧
      m.levels = ⟨[.debug, .guts]⟩ ∧ m.levels.ReadOf "DG" ∧
        Run.Comes q (Run.moduleHandle m .fail) fun handle r =>
          handle.IsFor m.levels .fail r.inForce ∧ r.inForce = q.inForce ∧ r.modules = q.modules) ∧
      ∃ texts, Switched r texts ∧ ∃ m ∈ r.modules.list, m.name = "db" ∧
        m.levels = ⟨[.warn, .fail]⟩ ∧ m.levels.ReadOf "WxFW" := by
  intro start p q r
  have hstart : Switched start fun _ => "" :=
    .start _ (fun _ hs => nomatch hs) rfl
  have hp : Switched p fun _ => "" := by
    refine hstart.update _ ?_
    rintro s _ text hs ⟨⟩
    exact ⟨_, hs.adjust (.levels "\u0146DDGx-D")⟩
  obtain ⟨texts, hq, htext⟩ : ∃ texts, Switched q texts ∧ texts "db" = "DG" :=
    ⟨_, hp.register "db" none start.environment, by decide +kernel⟩
  have hr : Switched r (textsAfter q texts "db" "WxFW") := hq.setLevels "db" "WxFW"
  have hset : textsAfter q texts "db" "WxFW" "db" = "WxFW" := by
    have hfound : (q.modules.find? "db").isSome := by decide +kernel
    rw [textsAfter, if_pos ⟨hfound, fun h => absurd h (by decide)⟩, Function.update_self]
    rfl
  have hlist : q.modules.list.map (fun m => (m.name, m.levels)) = [("db", ⟨[.debug, .guts]⟩)] := by
    decide +kernel
  have hlater : r.modules.list.map (fun m => (m.name, m.levels)) = [("db", ⟨[.warn, .fail]⟩)] := by
    decide +kernel
  constructor
  · obtain ⟨m, hm, hpair⟩ := List.mem_map.1 (hlist ▸ List.mem_singleton_self _)
    obtain ⟨hname, hlevels⟩ := Prod.mk.inj hpair
    obtain ⟨-, -, hmodules⟩ := levels_agree hq
    obtain ⟨hread, hhandle⟩ := hmodules m hm
    exact ⟨_, hq, m, hm, hname, hlevels, htext ▸ hname ▸ hread, hhandle .fail⟩
  · obtain ⟨m, hm, hpair⟩ := List.mem_map.1 (hlater ▸ List.mem_singleton_self _)
    obtain ⟨hname, hlevels⟩ := Prod.mk.inj hpair
    obtain ⟨-, -, hmodules⟩ := levels_agree hr
    obtain ⟨hread, -⟩ := hmodules m hm
    exact ⟨_, hr, m, hm, hname, hlevels, hset ▸ hname ▸ hread⟩

end Logline
