import Logline.Proofs.Line.Fits
import Logline.Proofs.Line.Holding
import Logline.Proofs.Line.Interrupted
import Logline.Proofs.Settings.Runs

/-!
How lines end. A handle that was given for a severity keeps it, with the settings it was given by, and
one whose lines end the program, or try to, is given whatever levels are switched on
(`Handle.Given.cases_enabled`). A line through it first comes to its end: all of it is handed on where lines
of its severity go, and its thread has nothing of the output lock any more; only then follows what
its severity asks for (`writes_then_ends`). Only code of a caller that ends the thread itself can
come before (`exit_line_within_panic_line`).
-/

namespace Logline

open Text

/-! ### What happened stays -/

theorem Trail.suffix_add (t : Trail) (e : Event) : t.latest <:+ (t.add e).latest := by
  unfold Trail.add
  split
  · exact ⟨[e], rfl⟩
  · exact List.suffix_rfl

theorem runActs_of_not_goesOn {t : Trail} (h : ¬ t.goesOn) (acts : List Act) (thread : Thread) :
    runActs acts thread t = t := by
  cases acts with
  | nil => rfl
  | cons a rest => rw [runActs, if_neg h]

/-- Code of a caller only adds to what happened. -/
theorem suffix_runActs (acts : List Act) (thread : Thread) (t : Trail) :
    t.latest <:+ (runActs acts thread t).latest := by
  by_cases hgo : t.goesOn
  · have hpast := runActs_past acts thread .empty t.latest
    rw [← Trail.eq_past_of_goesOn hgo] at hpast
    rw [hpast]
    exact List.suffix_append ..
  · rw [runActs_of_not_goesOn hgo]

theorem Trail.suffix_foldl_add (events : List Event) (t : Trail) :
    t.latest <:+ (events.foldl Trail.add t).latest := by
  induction events generalizing t with
  | nil => exact List.suffix_rfl
  | cons e rest ih => exact (Trail.suffix_add t e).trans (ih _)

theorem Trail.suffix_foldl_join (helpers : List Trail) (t : Trail) :
    t.latest <:+ (helpers.foldl Trail.join t).latest := by
  induction helpers generalizing t with
  | nil => exact List.suffix_rfl
  | cons u rest ih => exact List.IsSuffix.trans (List.suffix_append ..) (ih (t.join u))

/-! ### What a line has handed on -/

/-- Bytes are handed on to where a line goes. -/
def Route.handing (r : Route) (bytes : Bytes) : Event := .wrote r.destination bytes r.reportErrors

namespace Draft

variable {d e : Draft}

/-- All that the line has handed on is among what happened, in that order. -/
def Hands (d : Draft) : Prop := (d.handed.map d.route.handing).Sublist d.trail.latest

theorem Hands.of_eq (h : d.Hands) (hroute : e.route = d.route) (hhanded : e.handed = d.handed)
    (hlatest : d.trail.latest <:+ e.trail.latest) : e.Hands := by
  rw [Hands, hroute, hhanded]
  exact List.Sublist.trans h hlatest.sublist

theorem Hands.handOn (h : d.Hands) (bytes : Bytes) : (d.handOn bytes).Hands := by
  by_cases hgo : d.trail.goesOn
  · rw [handOn_of_goesOn hgo]
    exact List.Sublist.cons_cons _ h
  · rwa [handOn_of_not_goesOn hgo]

theorem Hands.flush (h : d.Hands) : d.flush.Hands := by
  unfold Draft.flush
  split
  · exact h
  · exact (h.handOn d.scratch).of_eq rfl rfl List.suffix_rfl

theorem Hands.stop (h : d.Hands) (s : Stop) :
    ({ d with trail := d.trail.stopWith s } : Draft).Hands :=
  h.of_eq rfl rfl (by rw [Trail.latest_stopWith])

theorem Hands.event (h : d.Hands) (locked : Bool) (e : Event) :
    ({ d with locked, trail := d.trail.add e } : Draft).Hands :=
  h.of_eq rfl rfl (Trail.suffix_add d.trail e)

theorem Hands.lock (h : d.Hands) : d.lock.Hands := by
  unfold Draft.lock
  split
  · exact h.flush
  split
  · exact h.stop .waits
  · exact (h.event true .locked).flush

theorem Hands.write (h : d.Hands) (chunk : Bytes) : (d.write chunk).Hands := by
  have hroom : (if scratchSize < d.used + chunk.length then d.lock else d).Hands := by
    split
    · exact h.lock
    · exact h
  unfold Draft.write
  generalize (if scratchSize < d.used + chunk.length then d.lock else d) = e at hroom ⊢
  dsimp only
  split
  · exact hroom.handOn chunk
  · exact hroom.of_eq rfl rfl List.suffix_rfl

theorem Hands.reserve (h : d.Hands) (n : Nat) : (d.reserve n).Hands := by
  unfold Draft.reserve
  split
  · exact h.lock
  · exact h

theorem Hands.complete (h : d.Hands) : d.complete.Hands := by
  unfold Draft.complete
  split
  · exact h.flush
  split
  · exact h.stop .waits
  · exact (h.event d.locked .shared).flush

end Draft

/-- A step keeps what was handed on among what happened. -/
theorem Instr.advance_hands {d : Draft} (h : d.Hands) (i : Instr) (rest : Script) :
    (i.advance rest d).2.Hands := by
  cases i with
  | chunk bytes => exact h.write bytes
  | reserve n => exact h.reserve n
  | separate mark =>
    simp only [advance, run]
    split
    · exact h.write mark
    · exact h
  | owe owed => exact h.of_eq rfl rfl List.suffix_rfl
  | block body => exact h
  | later made => exact h
  | direct acts => exact h.of_eq rfl rfl (suffix_runActs acts d.caller d.trail)
  | guarded acts onTime tooLate =>
    simp only [advance]
    split
    · exact h.of_eq rfl rfl (Trail.suffix_foldl_add _ d.trail)
    · exact h.of_eq rfl rfl (suffix_runActs acts d.caller d.trail)

theorem Composes.hands {s rest : Script} {d e : Draft} (h : Composes s d rest e) (hd : d.Hands) :
    e.Hands := by
  induction h with
  | refl => exact hd
  | step _ _ ih => exact Instr.advance_hands ih _ _

/-- What a completed line has handed on happened before it gave the lock back. -/
theorem Draft.Hands.release {d : Draft} (h : d.Hands) :
    (d.complete.handed.map d.complete.route.handing).Sublist d.release.latest := by
  have hsuffix : d.complete.trail.latest <:+ d.release.latest := by
    unfold Draft.release
    dsimp only
    split
    · exact (List.suffix_cons _ _).trans (Trail.suffix_foldl_join _ (d.complete.trail.push .unlocked))
    · exact Trail.suffix_add _ _
  exact List.Sublist.trans h.complete hsuffix.sublist

/-! ### A line comes to its end -/

/-- Code that does not panic leaves a trail going on, or its thread waits for itself at a key. -/
theorem Trail.Calm.cases_of_not_panics {m : Manner} {t : Trail} (h : t.Calm m)
    (hm : m.panics = false) : t.stop = none ∨ m.keyLines = true ∧ t.stop = some .waits := by
  rcases h with h | h | ⟨hpanics, -⟩
  · exact .inl h
  · exact .inr h
  · exact absurd (hpanics.symm.trans hm) (by simp)

namespace Writer

variable {now : Clock → Moment} {w : Writer Value} {form : Form Value} {thread : Thread}
variable {m : Manner}

/-- A line was written as a whole, its events given with the latest first: from its first byte to its
line break it was handed on where its route says, its thread has nothing of the lock any more, and if
the code in it writes no lines, nothing else was handed on. -/
structure Wrote (now : Clock → Moment) (w : Writer Value) (form : Form Value) (events : List Event) :
    Prop where
  free : hold? events = some .nothing
  whole : ∃ said owed, ∃ pieces : List Bytes,
    Script.Says true (w.script now form) false (said ++ [0x0A]) owed ∧
      pieces.flatten = said ++ [0x0A] ∧
        (pieces.reverse.map (Layout.route w).handing).Sublist events ∧
          (Script.Tame .unlogged (w.script now form) →
            handings events =
              pieces.reverse.map fun bytes => ((Layout.route w).destination, bytes))

/-- If code does not panic, and ends no thread by a line, a line is released and its severity decides
what follows, unless its thread comes to wait for the lock that it has. -/
theorem draft_released (thread : Thread) (hcode : Value.Tame now m (w.parts form) (w.keys form))
    (hm : m.panics = false) (hfree : thread.holdsLock = false) :
    let d := w.draft now form thread .empty
    (m.keyLines = true ∧ d.finish.stop = some .waits) ∨
      d.trail.goesOn ∧ d.release.stop = none ∧
        d.finish = (Layout.route w).after thread d.release := by
  intro d
  have hcalm : d.Calm m (Layout.route w) [] :=
    calm_draft hcode rfl fun _ => hfree
  by_cases hgo : d.trail.goesOn
  · have hthread : d.thread = thread := (adds_before hgo).2
    have hfinish : d.finish = (Layout.route w).after thread d.release := by
      rw [Draft.finish, if_pos hgo, hcalm.route, hthread]
    rcases hcalm.release.cases_of_not_panics hm with hnone | ⟨hkeys, hwaits⟩
    · exact .inr ⟨hgo, hnone, hfinish⟩
    · refine .inl ⟨hkeys, ?_⟩
      rw [hfinish]
      unfold Route.after
      split <;> simp [Trail.stopWith, Trail.goesOn, hwaits]
  · -- Nothing panics, so what stopped the line can only be that its thread waits for itself.
    have hfinish : d.finish = d.abandon := by rw [Draft.finish, if_neg hgo]
    have habandon : d.abandon.Calm m ∧ ¬ d.abandon.goesOn := by
      unfold Draft.abandon
      split
      · exact ⟨hcalm.unlock, Trail.not_goesOn_foldl_join (t := d.trail.push .unlocked) hgo _⟩
      · exact ⟨hcalm.trail, hgo⟩
    rw [hfinish]
    rcases habandon.1.cases_of_not_panics hm with hnone | hwaits
    · exact absurd (by simp [Trail.goesOn, hnone]) habandon.2
    · exact .inl hwaits

/-- A line within one that has the lock never comes to its end. -/
theorem free_of_complete {t : Trail} (h : (w.draft now form thread t).complete.trail.goesOn) :
    thread.holdsLock = false := by
  have hthread : (w.draft now form thread t).thread = thread :=
    (adds_before ((Draft.adds_complete _).goesOn h)).2
  obtain ⟨left, hsteps⟩ := draft_composes now w form thread t
  have honce : (w.draft now form thread t).Once := hsteps.once nofun
  generalize w.draft now form thread t = d at h hthread honce
  cases hheld : thread.holdsLock with
  | false => rfl
  | true =>
    have hd : d.thread.holdsLock = true := hthread ▸ hheld
    have hl : d.locked = false := Bool.eq_false_iff.2 fun hl => by simp [honce hl] at hd
    simp [Draft.complete, hl, hd, Trail.not_goesOn_stopWith] at h

/-- All of a line was handed on where its route says, piece by piece and among what code in it wrote
meanwhile; if this writes no lines, nothing else was. -/
def HandsOn (now : Clock → Moment) (w : Writer Value) (form : Form Value) (events : List Event)
    (line : Bytes) : Prop :=
  ∃ pieces : List Bytes, pieces.flatten = line ∧
    (pieces.reverse.map (Layout.route w).handing).Sublist events ∧
      (Script.Tame .unlogged (w.script now form) →
        handings events = pieces.reverse.map fun bytes => ((Layout.route w).destination, bytes))

theorem handsOn_release (hcode : Value.Tame now m (w.parts form) (w.keys form))
    (hfree : thread.holdsLock = false) (hgo : (w.draft now form thread .empty).trail.goesOn) :
    w.HandsOn now form (w.draft now form thread .empty).release.latest
      (w.draft now form thread .empty).complete.delivered := by
  set d := w.draft now form thread .empty with hd
  obtain ⟨left, hsteps⟩ := draft_composes now w form thread .empty
  have hhands := (hsteps.hands (List.nil_sublist _)).release
  have hroute : d.complete.route = Layout.route w := (calm_draft hcode rfl fun _ => hfree).complete.route
  refine ⟨d.complete.handed.reverse, rfl, ?_, fun htame => ?_⟩
  · rw [List.reverse_reverse, ← hroute]
    exact hhands
  · obtain ⟨hturn, hdroute⟩ := draft_turn htame hfree
    rw [List.reverse_reverse, ← hdroute]
    exact (Draft.release_turn hgo hturn).2.2

theorem wrote_of_goesOn (hcode : Value.Tame now m (w.parts form) (w.keys form))
    (hfree : thread.holdsLock = false) (hgo : (w.draft now form thread .empty).trail.goesOn) :
    w.Wrote now form (w.draft now form thread .empty).release.latest := by
  obtain ⟨pieces, hdelivered, hpieces⟩ := handsOn_release hcode hfree hgo
  set d := w.draft now form thread .empty with hd
  have horderly : d.Orderly thread :=
    runScript_orderly _ _ (Draft.orderly_start (Trail.orderly_empty hfree) _)
  have hhold : hold? d.release.latest = some thread.hold := (horderly.release hgo).hold
  have hthread : d.thread = thread := (adds_before hgo).2
  have hcomplete := Draft.goesOn_complete hgo (by rwa [hthread])
  obtain ⟨said, owed, hsays, hline⟩ := draft_whole now w form thread .empty hcomplete
  exact ⟨by simpa [Thread.hold, hfree] using hhold, said, owed, pieces, hsays,
    hdelivered.trans hline, hpieces⟩

end Writer

/-! ### Handles that are given -/

namespace Run

variable {σ : Type} {p q : Program σ}

/-- The handle a module gives is that of a severity that is switched off, or one for the severity asked
for, with the settings in force. -/
theorem moduleHandle_cases {m : Module} {s : Severity} {h : Handle Value}
    (hrun : (moduleHandle m s).run.run p = (.ok h, q)) :
    (h = .disabled ∧ s.alwaysOn = false) ∨
      ∃ w, h = .enabled w ∧ w.severity = s ∧ w.settings = p.inForce := by
  rw [moduleHandle, Updates.run_bind (run_get p)] at hrun
  dsimp only at hrun
  split at hrun
  · rcases comes_snapshot p with ⟨now, r, hsnapshot, -, -, hforce⟩ | ⟨e, r, hsnapshot, -⟩
    · rw [Updates.run_bind hsnapshot] at hrun
      exact .inr ⟨_, (Except.ok.inj (Prod.mk.inj hrun).1).symm, rfl, hforce⟩
    · rw [Updates.run_bind_error hsnapshot] at hrun
      cases hrun
  · next hoff =>
    refine .inl ⟨(Except.ok.inj (Prod.mk.inj hrun).1).symm, ?_⟩
    simp only [Levels.enables, Bool.or_eq_true, not_or, Bool.not_eq_true] at hoff
    exact hoff.1

end Run

/-- The handles for a severity that are given where certain settings are in force: by a configuration,
by a module, and with context, a module or the place of a call added to one of these. -/
inductive Handle.Given (settings : Settings) (severity : Severity) : Handle Value → Prop
  | config (stamp : Nat) : Given settings severity (Snapshot.handle ⟨stamp, settings⟩ severity)
  | module {σ : Type} {p q : Program σ} {m : Module} {h : Handle Value} (hp : p.inForce = settings)
      (hrun : (Run.moduleHandle m severity).run.run p = (.ok h, q)) : Given settings severity h
  | withContext {h : Handle Value} (hh : Given settings severity h) (stamp : Nat)
      (maps : List (Pairs Value)) : Given settings severity (h.withContext stamp maps)
  | withModule {h : Handle Value} (hh : Given settings severity h) (stamp : Nat) (name : String) :
      Given settings severity (h.withModule stamp name)
  | withSite {h : Handle Value} (hh : Given settings severity h) (stamp : Nat) (site : Site) :
      Given settings severity (h.withSite stamp site)

namespace Handle.Given

variable {settings : Settings} {severity : Severity} {h : Handle Value}

/-- A handle keeps its severity and its settings, and only severities that may be switched off give
one that does nothing. -/
theorem cases_enabled (hgiven : h.Given settings severity) :
    (h = .disabled ∧ severity.alwaysOn = false) ∨
      ∃ w, h = .enabled w ∧ w.severity = severity ∧ w.settings = settings := by
  induction hgiven with
  | config stamp =>
    unfold Snapshot.handle
    split
    · exact .inr ⟨_, rfl, rfl, rfl⟩
    · next hoff =>
      simp only [Levels.enables, Bool.or_eq_true, not_or, Bool.not_eq_true] at hoff
      exact .inl ⟨rfl, hoff.1⟩
  | module hp hrun =>
    subst hp
    exact Run.moduleHandle_cases hrun
  | withContext _ stamp maps ih =>
    obtain ⟨rfl, hoff⟩ | ⟨w, rfl, hseverity, hsettings⟩ := ih
    · exact .inl ⟨rfl, hoff⟩
    · unfold Handle.withContext
      dsimp only
      split
      · exact .inr ⟨w, rfl, hseverity, hsettings⟩
      · exact .inr ⟨_, rfl, hseverity, hsettings⟩
  | withModule _ stamp name ih =>
    obtain ⟨rfl, hoff⟩ | ⟨w, rfl, hseverity, hsettings⟩ := ih
    · exact .inl ⟨rfl, hoff⟩
    · exact .inr ⟨_, rfl, hseverity, hsettings⟩
  | withSite _ stamp site ih =>
    obtain ⟨rfl, hoff⟩ | ⟨w, rfl, hseverity, hsettings⟩ := ih
    · exact .inl ⟨rfl, hoff⟩
    · exact .inr ⟨_, rfl, hseverity, hsettings⟩

theorem severity_eq {w : Writer Value} (hgiven : Given settings severity (.enabled w)) :
    w.severity = severity ∧ w.settings = settings := by
  rcases hgiven.cases_enabled with ⟨hh, -⟩ | ⟨v, hh, hv⟩
  · cases hh
  · cases hh
    exact hv

theorem isEnabled (hgiven : h.Given settings severity) (hs : severity.alwaysOn) : h.isEnabled := by
  rcases hgiven.cases_enabled with ⟨-, hoff⟩ | ⟨v, rfl, -⟩
  · simp [hoff] at hs
  · rfl

end Handle.Given

/-! ### What a program does with a line -/

/-- How a call ends that writes a line of a severity, on a thread where so many want to hear of exit
lines. -/
def Severity.outcome (severity : Severity) (wrappers : Nat) : Except Stop Unit :=
  match severity with
  | .exit => .error (if wrappers = 0 then .ends (some 1) else .exits)
  | .panic => .error (.panics "lager::panic() logged (see above)")
  | _ => .ok ()

theorem Severity.outcome_of_not_alwaysOn {severity : Severity} (h : severity.alwaysOn = false)
    (wrappers : Nat) : severity.outcome wrappers = .ok () := by
  cases severity <;> first | rfl | cases h

namespace Run

variable {σ : Type} (p : Program σ)

/-- A program writes a line by itself, after what happened before. -/
theorem run_line (w : Writer Value) (form : Form Value) :
    let t := (w.draft p.now form ⟨p.wrappers, false, false⟩ .empty).finish
    (writeForm (.enabled w) form).run.run p =
      (match t.stop with
        | some s => .error s
        | none => .ok (), { p with latest := t.latest ++ p.latest }) := by
  intro t
  have hpast : runActs (handleActs p.now (.enabled w) form fun _ => formWritings p.now form)
      ⟨p.wrappers, false, false⟩ ⟨p.latest, none⟩ = t.past p.latest :=
    Writer.runActs_call _ _ _ _ rfl
  rw [writeForm, Updates.run_bind (run_get p), run_perform, hpast]
  rfl

/-- A line that is stopped stops the program. -/
theorem run_line_of_stop {w : Writer Value} {form : Form Value} {s : Stop}
    (h : (w.draft p.now form ⟨p.wrappers, false, false⟩ .empty).finish.stop = some s) :
    (writeForm (.enabled w) form).run.run p = (.error s, { p with
      latest := (w.draft p.now form ⟨p.wrappers, false, false⟩ .empty).finish.latest ++
        p.latest }) := by
  have hline := run_line p w form
  simpa only [h] using hline

/-- A line through an enabled handle is written as a whole, and then its severity has its outcome. -/
theorem writeForm_whole {w : Writer Value} {form : Form Value} {m : Manner}
    (hcode : Value.Tame p.now m (w.parts form) (w.keys form)) (hm : m.panics = false) :
    ∃ outcome new, (writeForm (.enabled w) form).run.run p =
        (outcome, { p with latest := new ++ p.latest }) ∧
      (m.keyLines = true ∧ outcome = .error .waits ∨
        w.Wrote p.now form new ∧ outcome = w.severity.outcome p.wrappers) := by
  refine ⟨_, _, run_line p w form, ?_⟩
  rcases Writer.draft_released ⟨p.wrappers, false, false⟩ hcode hm rfl with
    ⟨hkeys, hwaits⟩ | ⟨hgo, hstop, hfinish⟩
  · exact .inl ⟨hkeys, by rw [hwaits]⟩
  · rw [hfinish, Draft.latest_after]
    refine .inr ⟨Writer.wrote_of_goesOn hcode rfl hgo, ?_⟩
    unfold Route.after Severity.outcome
    cases hs : w.severity <;> simp [Layout.route, hs, Trail.stopWith, Trail.goesOn, hstop]

end Run

/-- **A line comes first and its end after it.** A handle for a severity whose lines end the program,
or try to, is never one that does nothing. A line through it is handed on as a whole to the error
output, whatever takes the other lines, and its thread has nothing of the output lock any more; then it
panics, or asks for an exit. Lines of the other severities go where the output is set to and come back.
Code in the line may do anything but panic or end the thread by a line of its own; if it writes lines
where it gives the text of a key, the thread may come to wait for itself. -/
theorem writes_then_ends {σ : Type} {settings : Settings} {severity : Severity} {h : Handle Value}
    (hgiven : h.Given settings severity) (form : Form Value) (p : Program σ) (m : Manner)
    (hm : m.panics = false)
    (hcode : ∀ w, h = .enabled w → Value.Tame p.now m (w.parts form) (w.keys form)) :
    (severity.alwaysOn → h.isEnabled) ∧
      (h.isEnabled = false → (Run.writeForm h form).run.run p = (.ok (), p)) ∧
      ∀ w, h = .enabled w → ∃ outcome new,
        (Run.writeForm h form).run.run p = (outcome, { p with latest := new ++ p.latest }) ∧
        (m.keyLines = true ∧ outcome = .error .waits ∨
          w.Wrote p.now form new ∧
            (Layout.route w).destination =
              (if severity.alwaysOn then settings.errorOutput else settings.output.getD .stdout) ∧
            outcome = severity.outcome p.wrappers ∧
            (outcome = .ok () ↔ severity.alwaysOn = false)) := by
  refine ⟨hgiven.isEnabled, fun hoff => ?_, ?_⟩
  · cases h with
    | disabled => rfl
    | enabled w => cases hoff
  · rintro w rfl
    obtain ⟨hseverity, hsettings⟩ := hgiven.severity_eq
    obtain ⟨outcome, new, hrun, hwaits | ⟨hwrote, houtcome⟩⟩ :=
      Run.writeForm_whole p (hcode w rfl) hm
    · exact ⟨outcome, new, hrun, .inl hwaits⟩
    rw [hseverity] at houtcome
    refine ⟨outcome, new, hrun, .inr ⟨hwrote, ?_, houtcome, ?_⟩⟩
    · rw [Layout.route, hseverity, hsettings, Settings.outputFor]
    · rw [houtcome]
      cases severity <;> simp [Severity.outcome, Severity.alwaysOn]

/-- No level is switched on and the output is set to something else: a line that panics is written all
the same, with a value whose code takes its time. -/
theorem panic_line_reaches_error_output :
    let noon : Clock → Moment := fun _ => ⟨2026, 1, 1, 12, 0, 0, 0⟩
    let settings : Settings :=
      (((Settings.initial none).setLevels " ").setOutput (some (.sink "out"))).setErrorOutput
        (.sink "err")
    let h := (Snapshot.handle ⟨0, settings⟩ .panic).withModule 1 "db"
    let form : Form Value := .list [.str "a", .lazy ⟨1, [.slow], none⟩ (.str "b")]
    let p : Program Unit := ⟨none, fun _ => none, noon, some ⟨0, settings⟩, .empty, 0, 0, [], ()⟩
    ∃ w, h = .enabled w ∧ ∃ new, w.Wrote noon form new ∧
      (Layout.route w).destination = .sink "err" ∧
        (Run.writeForm h form).run.run p =
          (.error (.panics "lager::panic() logged (see above)"), { p with latest := new }) := by
  intro noon settings h form p
  let m : Manner := ⟨true, false, false, false⟩
  have hcode : ∀ w, h = .enabled w → Value.Tame noon m (w.parts form) (w.keys form) := by
    intro w hw
    obtain rfl : ⟨1, .panic, .empty, some "db", settings⟩ = w := by
      simpa [h, Snapshot.handle, Handle.withModule, Levels.enables, Severity.alwaysOn] using hw
    constructor
    · simp [Writer.parts, form, Form.args, Value.partsOf, Value.parts, Value.entryParts,
        Value.memberParts, Pairs.empty, Value.Behaves, Value.codes, Value.writtenCodes,
        Value.textCode?, codeActs, effectsActs, effectActs, Acts.Tame, Act.Tame, m]
    · simp [Writer.keys, form, Form.keys, Value.keysOf, Value.keys, Value.entryKeys,
        Value.memberKeys, Pairs.empty]
  obtain ⟨hon, -, hends⟩ :=
    writes_then_ends (.withModule (.config 0) 1 "db") form p m rfl hcode
  obtain ⟨w, hw⟩ : ∃ w, h = .enabled w := ⟨_, rfl⟩
  obtain ⟨outcome, new, hrun, ⟨hkeys, -⟩ | ⟨hwrote, hto, houtcome, -⟩⟩ := hends w hw
  · cases hkeys
  · rw [houtcome, List.append_nil] at hrun
    exact ⟨w, hw, new, hwrote, hto, hrun⟩

/-- Code in a line that is to panic writes an exit line: nothing panics, and only the inner line is
handed on. -/
theorem exit_line_within_panic_line :
    let noon : Clock → Moment := fun _ => ⟨2026, 1, 1, 12, 0, 0, 0⟩
    let outer : Writer Value := ⟨0, .panic, .empty, none, .initial none⟩
    let inner : Writer Value := ⟨0, .exit, .empty, none, .initial none⟩
    let code : Code Value := ⟨1, [.log (.enabled inner) (.list [.str "inner"])], none⟩
    let form : Form Value := .list [.str "outer", .lazy code .null]
    let p : Program Unit :=
      ⟨none, fun _ => none, noon, none, .empty, 0, 0, [], ()⟩
    (∀ x ∈ outer.parts form, ∀ c ∈ x.codes, c.panics = none) ∧
      ∃ new, (Run.writeForm (.enabled outer) form).run.run p =
          (.error (.ends (some 1)), { p with latest := new }) ∧
        handings new =
          [(.stderr, bytes "[\"2026-01-01 12:00:00.0000Z\", \"EXIT\", \"inner\"]\n")] := by
  intro noon outer inner code form p
  let t := (outer.draft noon form ⟨0, false, false⟩ .empty).finish
  have hstop : t.stop = some (.ends (some 1)) := by decide +kernel
  have hhandings : handings t.latest =
      [(.stderr, bytes "[\"2026-01-01 12:00:00.0000Z\", \"EXIT\", \"inner\"]\n")] := by
    decide +kernel
  refine ⟨?_, t.latest, ?_, hhandings⟩
  · simp [outer, code, form, Writer.parts, Form.args, Value.partsOf, Value.parts, Value.entryParts,
      Value.memberParts, Pairs.empty, Value.codes, Value.writtenCodes, Value.textCode?]
  · have hrun : (Run.writeForm (.enabled outer) form).run.run p =
        (.error (.ends (some 1)), { p with latest := t.latest ++ [] }) := Run.run_line_of_stop p hstop
    rwa [List.append_nil] at hrun

end Logline
