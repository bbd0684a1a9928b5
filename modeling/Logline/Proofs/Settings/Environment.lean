import Logline.Proofs.Line.Calls

/-!
Settings read from an environment. Each variable decides its own part of them, and the error is told
by the labels alone (`Settings.environment_reads`). Only the labels have two sources: those that are
refused leave in force what stood before them, and going to the cloud has put its own there by then.
So an environment with refused labels writes arrays unless it asks for the cloud too.
-/

namespace Logline

open Text

/-! ### How lines begin -/

namespace Layout

theorem exists_line_eq_opening (now : Clock → Moment) (w : Writer Value) (form : Form Value)
    (args : List (Value × Writing)) (context : List (String × Writing)) :
    ∃ rest, line now w form args context =
      Script.opening (if w.settings.labels.isSome then "\x7b" else "[") ++ rest := by
  unfold line head
  cases w.settings.labels with
  | none => exact ⟨_, by simp only [List.append_assoc]; rfl⟩
  | some l => exact ⟨_, by simp only [List.append_assoc]; rfl⟩

end Layout

/-- Whether lines are arrays or objects shows in their first byte. -/
theorem Writer.head?_delivered {now : Clock → Moment} {w : Writer Value} {form : Form Value}
    {thread : Thread} {t : Trail} (h : (w.draft now form thread t).complete.trail.goesOn) :
    (w.draft now form thread t).complete.delivered.head? =
      some (if w.settings.labels.isSome then 0x7B else 0x5B) := by
  obtain ⟨after, hsays⟩ : ∃ after, Script.Says true _ false _ after := says_delivered (.inl rfl) h
  obtain ⟨rest, hline⟩ := Layout.exists_line_eq_opening now w form (formWritings now form)
    (entryWritings now w.context)
  rw [hline] at hsays
  obtain ⟨_, _, _, hout, hopening, -⟩ := Script.says_append.1 hsays
  obtain ⟨rfl, -⟩ := Script.says_opening.1 hopening
  rw [hout]
  cases hlabels : w.settings.labels.isSome with
  | false => rfl
  | true => rfl

namespace Settings

variable {env : Environment} {program : Option String}

theorem given?_eq_some_iff {name text : String} :
    given? env name = some text ↔ env name = some text ∧ text ≠ "" := by
  simp [given?, Option.filter_eq_some_iff]

/-- What the variables for levels, spans and the cloud bring, but for the labels of the cloud. -/
def withoutLabels (program : Option String) (env : Environment) : Settings :=
  { initial program with
    levels := .ofText ((given? env "LAGER_LEVELS").getD Levels.default)
    spanLabel := (given? env "LAGER_SPAN_PREFIX").getD (initial program).spanLabel
    inCloud := (given? env "LAGER_GCP").isSome
    levelText := if (given? env "LAGER_GCP").isSome then cloudLevel else id }

def labelsForCloud (env : Environment) : Option Labels :=
  if (given? env "LAGER_GCP").isSome then some .cloud else none

/-- The labels given, if they are accepted. -/
def acceptedLabels (env : Environment) : Option Labels :=
  (given? env "LAGER_KEYS").bind fun text => (Labels.parse text).toOption

/-- Labels are read last, into settings that may have those of the cloud. -/
theorem ofEnvironment_eq (program : Option String) (env : Environment) :
    ofEnvironment program env =
      let s := { withoutLabels program env with labels := labelsForCloud env }
      match given? env "LAGER_KEYS" with
      | none => (s, none)
      | some text => match Labels.parse text with
        | .ok labels => (s.setLabels (some labels), none)
        | .error e => (s, some e) := by
  have hlevels : (initial program).setLevels ((given? env "LAGER_LEVELS").getD "") =
      { initial program with
        levels := .ofText ((given? env "LAGER_LEVELS").getD Levels.default) } := by
    cases hgiven : given? env "LAGER_LEVELS" with
    | none => rfl
    | some text => simp [setLevels, (given?_eq_some_iff.1 hgiven).2]
  unfold ofEnvironment withoutLabels labelsForCloud
  rw [hlevels]
  cases given? env "LAGER_SPAN_PREFIX" <;> cases given? env "LAGER_GCP" <;> rfl

theorem ofEnvironment_snd_eq_some_iff {e : LabelsError} :
    (ofEnvironment program env).2 = some e ↔
      ∃ text, env "LAGER_KEYS" = some text ∧ text ≠ "" ∧ Labels.parse text = .error e := by
  simp only [← and_assoc, ← given?_eq_some_iff]
  rw [ofEnvironment_eq]
  cases given? env "LAGER_KEYS" with
  | none => simp
  | some text => cases hparse : Labels.parse text <;> simp [hparse]

theorem ofEnvironment_fst (program : Option String) (env : Environment) :
    (ofEnvironment program env).1 = { withoutLabels program env with
      labels := (acceptedLabels env).or (labelsForCloud env) } := by
  rw [ofEnvironment_eq, acceptedLabels]
  cases given? env "LAGER_KEYS" with
  | none => rfl
  | some text => cases hparse : Labels.parse text <;> simp [hparse, Except.toOption, setLabels]

theorem acceptedLabels_of_refused {e : LabelsError} (h : (ofEnvironment program env).2 = some e) :
    acceptedLabels env = none := by
  obtain ⟨text, hkeys, hne, hparse⟩ := ofEnvironment_snd_eq_some_iff.1 h
  simp [acceptedLabels, given?_eq_some_iff.2 ⟨hkeys, hne⟩, hparse, Except.toOption]

/-- **What an environment makes of settings.** The error is that of labels that are given and refused.
Levels, span label, and the cloud with its level numbers come from one variable each. Labels are those
given, if they are accepted; else those of the cloud, if it is asked for; else there are none. So with
refused labels lines are arrays unless the cloud is asked for, and objects if it is. -/
theorem environment_reads (program : Option String) (env : Environment) :
    let r := ofEnvironment program env
    (∀ e, r.2 = some e ↔
      ∃ text, env "LAGER_KEYS" = some text ∧ text ≠ "" ∧ Labels.parse text = .error e) ∧
    r.1 = { withoutLabels program env with
      labels := (acceptedLabels env).or (labelsForCloud env) } ∧
    (r.2.isSome → r.1.labels = labelsForCloud env ∧
      ∀ (now : Clock → Moment) (w : Writer Value) (form : Form Value) (thread : Thread) (t : Trail),
        w.settings = r.1 → (w.draft now form thread t).complete.trail.goesOn →
          (w.draft now form thread t).complete.delivered.head? =
            some (if (given? env "LAGER_GCP").isSome then 0x7B else 0x5B)) := by
  intro r
  refine ⟨fun e => ofEnvironment_snd_eq_some_iff, ofEnvironment_fst program env, fun hrefused => ?_⟩
  obtain ⟨e, he⟩ := Option.isSome_iff_exists.1 hrefused
  have hlabels : r.1.labels = labelsForCloud env := by
    simp [r, ofEnvironment_fst, acceptedLabels_of_refused he]
  refine ⟨hlabels, fun now w form thread t hw hgo => ?_⟩
  rw [Writer.head?_delivered hgo, hw, hlabels, labelsForCloud]
  simp

/-- With the cloud asked for, refused labels do not leave lines as arrays. -/
theorem refused_labels_leave_cloud_labels :
    let env : Environment := fun name =>
      if name = "LAGER_GCP" then some "1" else if name = "LAGER_KEYS" then some "a,b,c" else none
    let r := ofEnvironment none env
    let w : Writer Value := ⟨0, .warn, .empty, none, r.1⟩
    let d := (w.draft (fun _ => ⟨2026, 1, 1, 12, 0, 0, 0⟩) (.list [.str "hi"]) ⟨0, false, false⟩
      .empty).complete
    r.2 = some (.arity 3 "a,b,c") ∧ r.1.labels = some .cloud ∧ d.trail.goesOn ∧
      d.delivered.head? = some 0x7B := by
  intro env r w d
  have hcloud : given? env "LAGER_GCP" = some "1" := by decide +kernel
  obtain ⟨herror, -, hlines⟩ := environment_reads none env
  have hrefused : r.2 = some (.arity 3 "a,b,c") :=
    (herror _).2 ⟨"a,b,c", by decide +kernel, by decide, by decide +kernel⟩
  obtain ⟨hlabels, hfirst⟩ := hlines (Option.isSome_iff_exists.2 ⟨_, hrefused⟩)
  have hgo : d.trail.goesOn := by decide +kernel
  refine ⟨hrefused, hlabels.trans (by simp [labelsForCloud, hcloud]), hgo, ?_⟩
  rw [hfirst _ w _ _ _ rfl hgo, hcloud]
  rfl

end Settings

end Logline
