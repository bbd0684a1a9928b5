import Logline.Proofs.Settings.Modules
import Logline.Proofs.Settings.Updates

/-!
What a program does with its settings and its modules. Only the first look at the settings can fail,
and only if the environment has labels that are refused; all that comes after finds what is in force
(`Program.inForce`).
-/

namespace Logline

open Updates (run_bind run_bind_error)

variable {σ : Type}

namespace Program

/-- The settings in force, as who looks finds them. -/
def inForce (p : Program σ) : Settings :=
  match p.published with
  | some s => s.settings
  | none => (Settings.ofEnvironment p.program p.environment).1

/-- Nobody has looked yet, and who does finds labels that are refused. -/
def Refuses (p : Program σ) : Prop :=
  p.published = none ∧ (Settings.ofEnvironment p.program p.environment).2 ≠ none

instance (p : Program σ) : Decidable p.Refuses :=
  inferInstanceAs (Decidable (p.published = none ∧ _))

/-- Whether it can be told what levels a text stands for in a module. The empty one stands for those in
force, which have to be looked at. -/
def Reads (p : Program σ) (text : String) : Prop := text = "" → ¬ p.Refuses

instance (p : Program σ) (text : String) : Decidable (p.Reads text) :=
  inferInstanceAs (Decidable (text = "" → _))

/-- The text that a text of levels stands for in a module. -/
def levelsText (p : Program σ) (text : String) : String :=
  if text = "" then p.inForce.levels.text else text

/-- At most it was looked at the settings, for the first time or not. -/
structure Looks (p q : Program σ) : Prop where
  program : q.program = p.program
  environment : q.environment = p.environment
  modules : q.modules = p.modules
  published : q.published = p.published ∨
    p.published = none ∧ ∃ stamp, q.published = some ⟨stamp, p.inForce⟩

variable {p q r : Program σ}

theorem Looks.refl (p : Program σ) : Looks p p := ⟨rfl, rfl, rfl, .inl rfl⟩

theorem Looks.inForce (h : Looks p q) : q.inForce = p.inForce := by
  rcases h.published with hpublished | ⟨-, stamp, hpublished⟩
  · unfold Program.inForce
    rw [hpublished, h.program, h.environment]
  · rw [Program.inForce, hpublished]

theorem Looks.refuses (h : Looks p q) (hq : q.Refuses) : p.Refuses := by
  obtain ⟨hpublished, herror⟩ := hq
  refine ⟨?_, by rwa [h.program, h.environment] at herror⟩
  rcases h.published with hsame | ⟨hp, -⟩
  · exact hsame.symm.trans hpublished
  · exact hp

theorem Looks.trans (h : Looks p q) (h' : Looks q r) : Looks p r where
  program := h'.program.trans h.program
  environment := h'.environment.trans h.environment
  modules := h'.modules.trans h.modules
  published := by
    rcases h'.published with hr | ⟨hq, stamp, hr⟩
    · rw [hr]
      exact h.published
    · rcases h.published with hp | ⟨-, _, hp⟩
      · exact .inr ⟨hp.symm.trans hq, stamp, by rw [hr, h.inForce]⟩
      · exact absurd (hq.symm.trans hp) (by simp)

theorem inForce_of_published {s : Snapshot} (h : p.published = some s) : p.inForce = s.settings := by
  rw [inForce, h]

end Program

namespace Run

variable {p : Program σ}

theorem run_get (p : Program σ) : (get : Run σ (Program σ)).run.run p = (.ok p, p) := rfl

theorem run_perform (acts : List Act) (p : Program σ) :
    (perform acts).run.run p =
      (match (runActs acts ⟨p.wrappers, false, false⟩ ⟨p.latest, none⟩).stop with
        | some s => .error s
        | none => .ok (),
        { p with latest := (runActs acts ⟨p.wrappers, false, false⟩ ⟨p.latest, none⟩).latest }) := by
  show (match (runActs acts ⟨p.wrappers, false, false⟩ ⟨p.latest, none⟩).stop with
      | some s => throw s
      | none => pure () : Run σ Unit).run.run _ = _
  cases (runActs acts ⟨p.wrappers, false, false⟩ ⟨p.latest, none⟩).stop with
  | some s => rfl
  | none => rfl

/-- Writing a line changes nothing but what has happened. -/
theorem run_writeForm (h : Handle Value) (form : Form Value) (p : Program σ) :
    ∃ r latest, (writeForm h form).run.run p = (r, { p with latest }) := by
  rw [writeForm, run_bind (run_get p)]
  exact ⟨_, _, run_perform (handleActs p.now h form fun _ => formWritings p.now form) p⟩

theorem run_refuse (s : Snapshot) (e : LabelsError) (p : Program σ) :
    ∃ r latest, (refuse s e).run.run p = (r, { p with latest }) :=
  run_writeForm ..

theorem run_fresh (p : Program σ) :
    (fresh : Run σ Nat).run.run p = (.ok (p.stamps + 1), { p with stamps := p.stamps + 1 }) :=
  rfl

theorem looks_fresh (p : Program σ) : p.Looks { p with stamps := p.stamps + 1 } :=
  ⟨rfl, rfl, rfl, .inl rfl⟩

/-- What a call comes to that may have to look at the settings: its result, or the end that an exit
line brings if labels are refused. -/
def Comes {α : Type} (p : Program σ) (call : Run σ α) (result : α → Program σ → Prop) : Prop :=
  (∃ a q, call.run.run p = (.ok a, q) ∧ result a q) ∨
    ∃ e q, call.run.run p = (.error e, q) ∧ p.Looks q ∧ p.Refuses

/-- Settings with refused labels are published before the labels are refused. -/
theorem run_snapshot_of_refused {e : LabelsError} (hp : p.published = none)
    (he : (Settings.ofEnvironment p.program p.environment).2 = some e) :
    let first : Snapshot := ⟨p.stamps + 1, p.inForce⟩
    snapshot.run.run p = (do refuse first e; return first : Run σ Snapshot).run.run
      { p with published := some first, stamps := p.stamps + 1 } := by
  have hlook : Settings.ofEnvironment p.program p.environment = (p.inForce, some e) :=
    Prod.ext (by rw [Program.inForce, hp]) he
  rw [snapshot, run_bind (run_get p), hp]
  dsimp only
  rw [hlook]
  rfl

theorem comes_snapshot (p : Program σ) :
    Comes p snapshot fun s q => p.Looks q ∧ q.published = some s ∧ s.settings = p.inForce := by
  cases hp : p.published with
  | some s => exact .inl ⟨s, p, Updates.run_snapshot hp, .refl p, hp, (p.inForce_of_published hp).symm⟩
  | none =>
    let first : Snapshot := ⟨p.stamps + 1, p.inForce⟩
    let q : Program σ := { p with published := some first, stamps := p.stamps + 1 }
    cases herror : (Settings.ofEnvironment p.program p.environment).2 with
    | none =>
      have hlook : Settings.ofEnvironment p.program p.environment = (p.inForce, none) :=
        Prod.ext (by rw [Program.inForce, hp]) herror
      have hrun : snapshot.run.run p = (.ok first, q) := by
        rw [snapshot, run_bind (run_get p), hp]
        dsimp only
        rw [hlook]
        rfl
      exact .inl ⟨first, q, hrun, ⟨rfl, rfl, rfl, .inr ⟨hp, _, rfl⟩⟩, rfl, rfl⟩
    | some e =>
      have hrun := run_snapshot_of_refused hp herror
      obtain ⟨r, latest, hrefuse⟩ := run_refuse first e q
      have hlooks : p.Looks { q with latest } := ⟨rfl, rfl, rfl, .inr ⟨hp, _, rfl⟩⟩
      cases r with
      | ok u => exact .inl ⟨first, _, hrun.trans (run_bind hrefuse _), hlooks, rfl, rfl⟩
      | error stop =>
        exact .inr ⟨stop, _, hrun.trans (run_bind_error hrefuse _), hlooks, hp, by simp [herror]⟩

section Comes

variable {α β : Type} {x : Run σ α} {f : α → Run σ β} {P : α → Program σ → Prop}
  {Q : β → Program σ → Prop}

/-- After the settings were found, what follows has its result. -/
theorem Comes.bind_ok (h : Comes p x P)
    (hf : ∀ a q, P a q → ∃ b r, (f a).run.run q = (.ok b, r) ∧ Q b r) : Comes p (x >>= f) Q := by
  rcases h with ⟨a, q, hx, ha⟩ | ⟨e, q, hx, hlooks⟩
  · obtain ⟨b, r, hrun, hb⟩ := hf a q ha
    exact .inl ⟨b, r, (run_bind hx f).trans hrun, hb⟩
  · exact .inr ⟨e, q, run_bind_error hx f, hlooks⟩

theorem Comes.of_ok {a : α} {q : Program σ} (hx : x.run.run p = (.ok a, q)) (hlooks : p.Looks q)
    (h : Comes q (f a) Q) : Comes p (x >>= f) Q := by
  rcases h with ⟨b, r, hrun, hb⟩ | ⟨e, r, hrun, hlooks', hrefuses⟩
  · exact .inl ⟨b, r, (run_bind hx f).trans hrun, hb⟩
  · exact .inr ⟨e, r, (run_bind hx f).trans hrun, hlooks.trans hlooks', hlooks.refuses hrefuses⟩

end Comes

theorem comes_moduleLevels (text : String) (p : Program σ) :
    Comes p (moduleLevels text) fun l q => p.Looks q ∧ l = .ofText (p.levelsText text) := by
  unfold moduleLevels Program.levelsText
  split
  · refine (comes_snapshot p).bind_ok ?_
    rintro s q ⟨hlooks, -, hforce⟩
    exact ⟨_, q, rfl, hlooks, by rw [← hforce]⟩
  · exact .inl ⟨_, p, rfl, .refl p, rfl⟩

/-! ### Modules -/

/-- The text a new module's levels come from: that of the environment, else the one given. -/
def registerText (name : String) (levels : Option String) (env : Environment) : String :=
  ((Settings.given? env (Modules.levelsVariable name)).or levels).getD ""

theorem run_register_of_find? {name : String} {m : Module} (levels : Option String)
    (env : Environment) (h : p.modules.find? name = some m) :
    (register name levels env).run.run p = (.ok m, p) := by
  rw [register, run_bind (run_get p), h]
  rfl

/-- Registering a new name adds one module, with levels of its own. -/
theorem comes_register {name : String} (levels : Option String) (env : Environment)
    (hsorted : p.modules.Sorted) (h : p.modules.find? name = none) :
    Comes p (register name levels env) fun m q => ∃ q', p.Looks q' ∧ m.name = name ∧
      m.levels = .ofText (p.levelsText (registerText name levels env)) ∧
        q = { q' with modules := p.modules.insertNew m } := by
  rw [register]
  refine Comes.of_ok (run_get p) (.refl p) ?_
  rw [h]
  refine Comes.of_ok (run_fresh p) (looks_fresh p) ?_
  refine (comes_moduleLevels _ _).bind_ok ?_
  rintro l q ⟨hlooks, rfl⟩
  let m : Module := ⟨p.stamps + 1, name, .ofText (p.levelsText (registerText name levels env))⟩
  have hmodules : q.modules = p.modules := hlooks.modules
  have hfound : (p.modules.insertNew m).find? name = some m :=
    Modules.find?_insertNew_of_none hsorted h
  refine ⟨m, { q with modules := p.modules.insertNew m }, ?_, q, (looks_fresh p).trans hlooks, rfl,
    rfl, rfl⟩
  show (Except.ok (((q.modules.insertNew m).find? name).getD m),
    { q with modules := q.modules.insertNew m }) = _
  rw [hmodules, hfound]
  rfl

theorem run_setModuleLevels_of_none {name : String} (text : String)
    (h : p.modules.find? name = none) :
    (setModuleLevels name text).run.run p = (.ok false, p) := by
  rw [setModuleLevels, run_bind (run_get p), h]
  rfl

theorem comes_setModuleLevels {name : String} {m : Module} (text : String)
    (h : p.modules.find? name = some m) :
    Comes p (setModuleLevels name text) fun found q => found = true ∧ ∃ q', p.Looks q' ∧
      q = { q' with modules := p.modules.setLevels name (.ofText (p.levelsText text)) } := by
  rw [setModuleLevels]
  refine Comes.of_ok (run_get p) (.refl p) ?_
  rw [h]
  refine (comes_moduleLevels text p).bind_ok ?_
  rintro l q ⟨hlooks, rfl⟩
  refine ⟨true, _, rfl, rfl, q, hlooks, ?_⟩
  rw [← hlooks.modules]

theorem run_levelsOfModule_of_find? {name : String} {m : Module}
    (h : p.modules.find? name = some m) :
    (levelsOfModule name).run.run p = (.ok m.levels.text, p) := by
  rw [levelsOfModule, run_bind (run_get p), h]
  rfl

theorem run_levelsOfModule_of_none {name : String} (h : p.modules.find? name = none) :
    (levelsOfModule name).run.run p = (.ok "n/a", p) := by
  rw [levelsOfModule, run_bind (run_get p), h]
  rfl

/-! Where the settings were looked at before, nothing stands in the way. -/

section Published

variable {s : Snapshot}

theorem run_moduleLevels (h : p.published = some s) (text : String) :
    (moduleLevels text).run.run p = (.ok (.ofText (p.levelsText text)), p) := by
  unfold moduleLevels Program.levelsText
  split
  · rw [run_bind (Updates.run_snapshot h), p.inForce_of_published h]
    rfl
  · rfl

theorem run_register_of_none {name : String} (levels : Option String) (lookup : Environment)
    (h : p.published = some s) (hsorted : p.modules.Sorted) (hfind : p.modules.find? name = none) :
    let m : Module :=
      ⟨p.stamps + 1, name, .ofText (p.levelsText (registerText name levels lookup))⟩
    (register name levels lookup).run.run p =
      (.ok m, { p with stamps := p.stamps + 1, modules := p.modules.insertNew m }) := by
  intro m
  have hfound : (p.modules.insertNew m).find? name = some m :=
    Modules.find?_insertNew_of_none hsorted hfind
  have hlevels := run_moduleLevels (p := { p with stamps := p.stamps + 1 }) h
    (registerText name levels lookup)
  rw [register, run_bind (run_get p), hfind]
  rw [run_bind (run_fresh p)]
  refine (run_bind hlevels _).trans ?_
  show (Except.ok (((p.modules.insertNew m).find? name).getD m),
    { p with stamps := p.stamps + 1, modules := p.modules.insertNew m }) = _
  rw [hfound]
  rfl

theorem run_setModuleLevels_of_find? {name : String} {m : Module} (text : String)
    (h : p.published = some s) (hfind : p.modules.find? name = some m) :
    (setModuleLevels name text).run.run p =
      (.ok true,
        { p with modules := p.modules.setLevels name (.ofText (p.levelsText text)) }) := by
  rw [setModuleLevels, run_bind (run_get p), hfind]
  exact run_bind (run_moduleLevels h text) _

end Published

/-- The handle a module gives for a severity that is switched off. -/
theorem run_moduleHandle_of_off {m : Module} {s : Severity}
    (h : p.modules.find? m.name = some m) (hoff : m.levels.enables s = false) :
    (moduleHandle m s).run.run p = (.ok .disabled, p) := by
  rw [moduleHandle, run_bind (run_get p), h, Option.getD_some, if_neg (by simp [hoff])]
  rfl

theorem comes_moduleHandle {m : Module} {s : Severity} (h : p.modules.find? m.name = some m)
    (hon : m.levels.enables s = true) :
    Comes p (moduleHandle m s) fun handle q => p.Looks q ∧ ∃ w, handle = .enabled w ∧
      w.severity = s ∧ w.settings = p.inForce ∧
        w.module = if m.name = "" then none else some m.name := by
  rw [moduleHandle]
  refine Comes.of_ok (run_get p) (.refl p) ?_
  rw [h, Option.getD_some, if_pos hon]
  refine (comes_snapshot p).bind_ok ?_
  rintro now q ⟨hlooks, -, hforce⟩
  exact ⟨_, _, rfl, (hlooks.trans (looks_fresh q)).trans (looks_fresh _), _, rfl, rfl, hforce, rfl⟩

end Run

end Logline
