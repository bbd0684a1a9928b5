import Logline.Proofs.Line.Handed
import Logline.Proofs.Settings.Restoring
import Logline.Proofs.Text.Splitting

/-!
Labels that are accepted and labels that are refused. A text is cut at its separators in one way only
(`Text.splits_iff`), and what is read of six labels is read of the text that they come to
(`Labels.parse_ok_iff`, `Labels.parse_of_not_complete`). A program that is given six labels publishes them,
or none of them if all are blank, or ends by a line about them (`labels_taken_or_refused`).
-/

namespace Logline

open Json

/-! ### Labels of a text -/

namespace Labels

open Text

variable {l : Labels} {text : String} {parts : List String}

/-- None of the labels is blank that must not be. -/
def Complete (l : Labels) : Prop := ∀ label ∈ [l.time, l.level, l.arguments, l.module], label ≠ ""

def Blank (l : Labels) : Prop := ∀ label ∈ l.toList, label = ""

instance (l : Labels) : Decidable l.Complete :=
  inferInstanceAs (Decidable (∀ label ∈ [l.time, l.level, l.arguments, l.module], label ≠ ""))

instance (l : Labels) : Decidable l.Blank :=
  inferInstanceAs (Decidable (∀ label ∈ l.toList, label = ""))

theorem valid_iff : l.valid ↔ l.Complete := by simp [valid, Complete, and_assoc]

theorem not_complete_of_blank (h : l.Blank) : ¬ l.Complete :=
  fun hcomplete => hcomplete l.time (by simp) (h l.time (by simp [toList]))

theorem check_of_complete (h : l.Complete) : l.check = .ok l := if_pos (valid_iff.2 h)

theorem check_of_not_complete (h : ¬ l.Complete) : l.check = .error (.blank l.text) :=
  if_neg fun hvalid => h (valid_iff.1 hvalid)

theorem exists_toList (h : parts.length = 6) : ∃ l : Labels, l.toList = parts := by
  match parts, h with
  | [time, level, message, arguments, context, module], _ =>
    exact ⟨⟨time, level, message, arguments, context, module⟩, rfl⟩

/-- Labels that a text was cut into come to the text. -/
theorem text_of_splits (h : Splits ',' text l.toList) : l.text = text := h.joined

theorem parse_of_splits (h : Splits ',' text l.toList) : parse text = l.check := by
  rw [parse, splits_iff.1 h]
  rfl

/-- Another number of labels is told as it is. -/
theorem parse_of_length_ne (h : Splits ',' text parts) (hlength : parts.length ≠ 6) :
    parse text = .error (.arity parts.length text) := by
  rw [parse, splits_iff.1 h]
  split
  · next => exact absurd rfl hlength
  · rfl

theorem parse_of_not_complete (h : Splits ',' text l.toList) (hblank : ¬ l.Complete) :
    parse text = .error (.blank text) := by
  rw [parse_of_splits h, check_of_not_complete hblank, text_of_splits h]

theorem parse_ok_iff : parse text = .ok l ↔ Splits ',' text l.toList ∧ l.Complete := by
  constructor
  · intro hok
    have hsplits := splits_splitText ',' text
    by_cases hlength : (splitText ',' text).length = 6
    · obtain ⟨made, hmade⟩ := exists_toList hlength
      rw [← hmade] at hsplits
      by_cases hcomplete : made.Complete
      · rw [parse_of_splits hsplits, check_of_complete hcomplete] at hok
        obtain rfl : made = l := Except.ok.inj hok
        exact ⟨hsplits, hcomplete⟩
      · rw [parse_of_not_complete hsplits hcomplete] at hok
        cases hok
    · rw [parse_of_length_ne hsplits hlength] at hok
      cases hok
  · rintro ⟨hsplits, hcomplete⟩
    rw [parse_of_splits hsplits, check_of_complete hcomplete]

end Labels

/-! ### Labels for a program -/

namespace Run

variable {σ : Type} {p : Program σ} {s : Snapshot} {l : Labels}

theorem run_chooseLabels_of_blank (hp : p.published = some s) (hl : l.Blank) (site : Site) :
    (chooseLabels l site).run.run p =
      (.ok (), Updates.publishing p (s.settings.setLabels none)) := by
  rw [chooseLabels, if_pos (by simpa [Labels.Blank] using hl), run_change _ hp,
    p.inForce_of_published hp]

theorem run_chooseLabels_of_complete (hp : p.published = some s) (hl : l.Complete) (site : Site) :
    (chooseLabels l site).run.run p =
      (.ok (), Updates.publishing p (s.settings.setLabels (some l))) := by
  have hfilled : ¬ l.toList.all (· = "") := by
    intro hblank
    exact Labels.not_complete_of_blank (by simpa [Labels.Blank] using hblank) hl
  rw [chooseLabels, if_neg hfilled, Labels.check_of_complete hl]
  exact (run_change _ hp).trans (by rw [p.inForce_of_published hp])

/-- The writer of an exit line with the place of a call. -/
def exitWriter (s : Snapshot) (stamp : Nat) (site : Site) : Writer Value :=
  ⟨stamp, .exit, ⟨stamp, [("_file", .str (SourcePath.shorten s.settings.pathParts site.file)),
    ("_line", .int (.ofNat site.line))]⟩, none, s.settings⟩

def refusedForm (l : Labels) : Form Value :=
  .messageMap "Only keys for msg and ctx can be blank"
    [.str "error", .str (LabelsError.blank l.text).message]

theorem run_chooseLabels_of_refused (hp : p.published = some s) (hfilled : ¬ l.Blank)
    (hl : ¬ l.Complete) (site : Site) :
    (chooseLabels l site).run.run p =
      (writeForm (.enabled (exitWriter s (p.stamps + 1) site)) (refusedForm l)).run.run
        { p with stamps := p.stamps + 1 } := by
  have hsome : ¬ l.toList.all (· = "") := by simpa [Labels.Blank] using hfilled
  have hon : (s.handle .exit).isEnabled := rfl
  rw [chooseLabels, if_neg hsome, Labels.check_of_not_complete hl]
  dsimp only
  rw [Updates.run_bind (Updates.run_snapshot hp), writeFormAt, if_pos hon,
    Updates.run_bind (run_fresh p)]
  rfl

/-- Nothing in the line is code of a caller. -/
theorem bare_refused (s : Snapshot) (stamp : Nat) (site : Site) (l : Labels) :
    ∀ x ∈ (exitWriter s stamp site).parts (refusedForm l), x.Bare := by
  intro x hx
  simp [Writer.parts, exitWriter, refusedForm, Form.args, Value.partsOf, Value.parts,
    Value.entryParts, Value.memberParts] at hx
  rcases hx with rfl | rfl | rfl | rfl <;> exact ⟨rfl, rfl, rfl⟩

end Run

open Run

/-- **Labels are taken or refused.** A text is read as six labels exactly if it is cut into these at its
commas and only those are blank that may be; joined again they are the text. Else the error tells how
many labels there are, if these are not six, or carries the text. Six labels given to a program are
published with everything else as it was, or no labels if all of them are blank. Where some are blank
that must not be, what is published stays as it was: all that happens is one line of the severity that
ends the program, written to the error output as the settings so far have it, with the place of the
call. -/
theorem labels_taken_or_refused {σ : Type} {p : Program σ} {s : Snapshot}
    (hp : p.published = some s) (text : String) (l : Labels) (site : Site) :
    ((Labels.parse text = .ok l ↔ Text.Splits ',' text l.toList ∧ l.Complete) ∧
      (Labels.parse text = .ok l → l.text = text) ∧
      (∃ parts, Text.Splits ',' text parts ∧ parts.length = text.toList.count ',' + 1) ∧
      (∀ parts, Text.Splits ',' text parts → parts.length ≠ 6 →
        Labels.parse text = .error (.arity parts.length text)) ∧
      (Text.Splits ',' text l.toList → ¬ l.Complete → Labels.parse text = .error (.blank text))) ∧
    (l.Blank → (chooseLabels l site).run.run p =
      (.ok (), Updates.publishing p { s.settings with labels := none })) ∧
    (l.Complete → (chooseLabels l site).run.run p =
      (.ok (), Updates.publishing p { s.settings with labels := some l })) ∧
    (¬ l.Blank → ¬ l.Complete → ∃ new,
      let w := exitWriter s (p.stamps + 1) site
      (chooseLabels l site).run.run p = (Severity.exit.outcome p.wrappers,
        { p with stamps := p.stamps + 1, latest := new ++ p.latest }) ∧
      w.Handed new (Document.ofLine p.now w (refusedForm l)) ∧
      ∀ h ∈ handings new, h.1 = s.settings.errorOutput) := by
  refine ⟨⟨Labels.parse_ok_iff, fun hok => Labels.text_of_splits (Labels.parse_ok_iff.1 hok).1,
    ⟨_, Text.splits_splitText ',' text, ?_⟩, fun _ => Labels.parse_of_length_ne,
    Labels.parse_of_not_complete⟩, fun hl => run_chooseLabels_of_blank hp hl site,
    fun hl => run_chooseLabels_of_complete hp hl site, fun hfilled hl => ?_⟩
  · rw [Text.splitText, List.length_map, Text.length_splitAt]
  · obtain ⟨new, hrun, hhanded⟩ := writeForm_bare { p with stamps := p.stamps + 1 }
      (bare_refused s (p.stamps + 1) site l)
    refine ⟨new, ?_, hhanded, hhanded.destination⟩
    rw [run_chooseLabels_of_refused hp hfilled hl, hrun]
    rfl

/-- The label for arguments is blank. Someone wants to hear of exit lines, which are objects so far. -/
theorem labels_without_arguments :
    let l : Labels := ⟨"t", "l", "", "", "", "m"⟩
    let p : Program Unit := ⟨none, fun _ => none, fun _ => ⟨2026, 1, 1, 12, 0, 0, 0⟩,
      some ⟨0, (Settings.initial none).setLabels (some .cloud)⟩, .empty, 1, 0, [], ()⟩
    Labels.parse "t,l,,,,m" = .error (.blank "t,l,,,,m") ∧
      Labels.parse "t,l" = .error (.arity 2 "t,l") ∧
      (chooseLabels ⟨"", "", "", "", "", ""⟩ ⟨"a.rs", 7⟩).run.run p =
        (.ok (), Updates.publishing p (.initial none)) ∧
      ∃ new text doc, (chooseLabels l ⟨"a.rs", 7⟩).run.run p =
          (.error .exits, { p with stamps := 1, latest := new }) ∧
        (∀ h ∈ handings new, h.1 = .stderr) ∧
        ((handings new).reverse.map Prod.snd).flatten = Text.bytes (text ++ "\n") ∧
        read? text = some doc ∧
        doc.compact = "\x7b\"time\":\"2026-01-01T12:00:00.0000Z\",\"severity\":\"EXIT\"," ++
          "\"message\":\"Only keys for msg and ctx can be blank\"," ++
          "\"error\":\"only keys for msg and ctx can be blank, not in \\\"t,l,,,,m\\\"\"," ++
          "\"_file\":\"a.rs\",\"_line\":7\x7d" := by
  intro l p
  have hblank : Text.Splits ',' "t,l,,,,m" l.toList := Text.splits_iff.2 (by decide)
  have htwo : Text.Splits ',' "t,l" ["t", "l"] := Text.splits_iff.2 (by decide)
  obtain ⟨⟨-, -, -, -, hcarried⟩, -, -, hrefused⟩ :=
    labels_taken_or_refused (p := p) rfl "t,l,,,,m" l ⟨"a.rs", 7⟩
  obtain ⟨⟨-, -, -, hcounted, -⟩, hnone, -⟩ :=
    labels_taken_or_refused (p := p) rfl "t,l" ⟨"", "", "", "", "", ""⟩ ⟨"a.rs", 7⟩
  obtain ⟨new, hrun, hhanded, hto⟩ := hrefused (by decide) (by decide)
  obtain ⟨text, hbytes, -, hread⟩ := hhanded.reads
  have hnew : new ++ p.latest = new := List.append_nil new
  rw [hnew] at hrun
  refine ⟨hcarried hblank (by decide), hcounted _ htwo (by decide), hnone (by decide), new, text,
    _, hrun, hto, hbytes, hread, ?_⟩
  decide +kernel

end Logline
