import Logline.Proofs.Exits
import Logline.Proofs.Line.Endings

/-!
Exit lines that the code of values in a line writes. As long as the line does not have the output lock,
that code runs on the thread of the line, and its exit line unwinds to the innermost wrapper, which
alone decides. Under the lock it runs on a helper, where nobody waits for exit lines: the process ends
as soon as the line gives the lock back, and the wrapper is not asked (`exit_within_line`). Without the
lock no line ends the process where somebody wants to hear of it.
-/

namespace Logline

open Text

/-! ### What a line does not lose -/

/-- From `d` to `e` a line stays on its thread, keeps the lock if it has it, and waits for all helpers
that it waited for. -/
structure Draft.Retains (d e : Draft) : Prop where
  thread : e.thread = d.thread
  locked : d.locked → e.locked
  behind : d.behind ⊆ e.behind

theorem Draft.Retains.refl (d : Draft) : d.Retains d := ⟨rfl, id, List.Subset.refl _⟩

theorem Draft.Retains.trans {d e f : Draft} (h : d.Retains e) (h' : e.Retains f) : d.Retains f :=
  ⟨h'.thread.trans h.thread, h'.locked ∘ h.locked, fun _ ht => h'.behind (h.behind ht)⟩

theorem Instr.advance_retains (i : Instr) (rest : Script) (d : Draft) :
    d.Retains (i.advance rest d).2 := by
  by_cases hcode : i.isDirect = false ∧ i.isGuarded = false
  · have hw := Instr.advance_writes hcode.1 hcode.2 rest d
    exact ⟨hw.thread, hw.locked, fun t ht => hw.behind ▸ ht⟩
  · cases i with
    | direct acts => exact ⟨rfl, id, List.Subset.refl _⟩
    | guarded acts onTime tooLate =>
      simp only [advance]
      split
      · refine ⟨rfl, id, fun t ht => ?_⟩
        simp only [Draft.helped]
        split
        · exact ht
        · exact List.mem_cons_of_mem _ ht
      · exact ⟨rfl, id, List.Subset.refl _⟩
    | _ => exact absurd ⟨rfl, rfl⟩ hcode

theorem Composes.retains {s rest : Script} {d e : Draft} (h : Composes s d rest e) : d.Retains e := by
  induction h with
  | refl => exact .refl d
  | step _ _ ih => exact ih.trans (Instr.advance_retains ..)

/-! ### Helpers that end the process -/

namespace Trail

/-- The end of the process is the end of all its threads. -/
theorem ends_join (t helper : Trail) {st : Option Int}
    (h : t.stop = some (.ends st) ∨ helper.stop = some (.ends st)) :
    ∃ st, (t.join helper).stop = some (.ends st) := by
  unfold join
  rcases h with h | h
  · exact ⟨st, by simp [h]⟩
  · rw [h]
    rcases t.stop with _ | (_ | _ | _ | _) <;> exact ⟨_, rfl⟩

theorem ends_foldl_join {helpers : List Trail} {t : Trail} {st : Option Int}
    (h : t.stop = some (.ends st) ∨ ∃ u ∈ helpers, u.stop = some (.ends st)) :
    ∃ st, (helpers.foldl join t).stop = some (.ends st) := by
  induction helpers generalizing t st with
  | nil => exact ⟨st, h.resolve_right fun ⟨_, hu, _⟩ => absurd hu List.not_mem_nil⟩
  | cons helper rest ih =>
    rcases h with h | ⟨u, hu, hends⟩
    · obtain ⟨st, hst⟩ := ends_join t helper (.inl h)
      exact ih (.inl hst)
    · rcases List.mem_cons.1 hu with rfl | hu
      · obtain ⟨st, hst⟩ := ends_join t u (.inr hends)
        exact ih (.inl hst)
      · exact ih (.inr ⟨u, hu, hends⟩)

end Trail

/-- A line with a helper that is to end the process: giving the lock back ends it, with the status 1,
whatever became of the line. -/
theorem Draft.Orderly.stop_finish {thread : Thread} {d : Draft} (h : d.Orderly thread)
    (hl : d.locked) {u : Trail} (hu : u ∈ d.behind) {st : Option Int}
    (hends : u.stop = some (.ends st)) : d.finish.stop = some (.ends (some 1)) := by
  have hunlock : ∀ e : Draft, e.behind = d.behind → ∃ st, e.unlock.stop = some (.ends st) := by
    intro e he
    refine Trail.ends_foldl_join (.inr ⟨u, ?_, hends⟩)
    rw [he]
    exact List.mem_reverse.2 hu
  obtain ⟨st', hst⟩ : ∃ st, d.finish.stop = some (.ends st) := by
    by_cases hgo : d.trail.goesOn
    · have hrelease : d.release = d.flush.unlock := by simp [Draft.release, complete, hl]
      obtain ⟨st, hst⟩ := hunlock d.flush (flush_writes (.inl hl)).behind
      rw [Draft.finish, if_pos hgo, hrelease]
      refine ⟨st, ?_⟩
      unfold Route.after
      split <;> simp [Trail.stopWith, Trail.goesOn, hst]
    · rw [Draft.finish, if_neg hgo, abandon, if_pos hl]
      exact hunlock d rfl
  rw [hst, (h.finish.ends st' hst).1]

/-! ### Code that comes to an exit line -/

/-- Code writes an exit line, whatever else it does before by itself, and whatever it were to do
after. -/
def Code.Exits (now : Clock → Moment) (code : Code Value) : Prop :=
  ∃ (l : ExitLine) (before after : List (Effect Value)),
    code.effects = before ++ .log (.enabled l.writer) l.form :: after ∧
      Acts.Tame .finishing (effectsActs now before)

namespace ExitLine

variable (l : ExitLine) (now : Clock → Moment)

def act : Act := .line (Layout.route l.writer) (l.writer.script now l.form)

theorem effectsActs_exit (before after : List (Effect Value)) :
    effectsActs now (before ++ .log (.enabled l.writer) l.form :: after) =
      effectsActs now before ++ l.act now :: effectsActs now after := by
  have hline : effectActs now (.log (.enabled l.writer) l.form) = [l.act now] := by
    obtain ⟨⟨stamp, severity, context, module, settings⟩, form, hexit, htame⟩ := l
    rfl
  induction before with
  | nil => exact congrArg (· ++ effectsActs now after) hline
  | cons e rest ih => rw [List.cons_append, effectsActs, effectsActs, ih, List.append_assoc]

end ExitLine

/-- What such code does, up to its exit line and after it. -/
theorem Code.Exits.acts {now : Clock → Moment} {code : Code Value} (h : code.Exits now) :
    ∃ (before : List Act) (l : ExitLine) (after : List Act),
      codeActs now code = before ++ l.act now :: after ∧ Acts.Tame .finishing before := by
  obtain ⟨label, effects, panics⟩ := code
  obtain ⟨l, before, after, rfl, hbefore⟩ := h
  refine ⟨.called label :: effectsActs now before, l,
    effectsActs now after ++ (panics.map Act.panic).toList, ?_, trivial, hbefore⟩
  rw [codeActs, l.effectsActs_exit now]
  simp

section Exit

variable (l : ExitLine) (now : Clock → Moment) {thread : Thread} {t : Trail} {before : List Act}

/-- How a thread stops that writes an exit line: it unwinds if somebody wants to hear of it there. -/
def Thread.exit (thread : Thread) : Stop := if thread.wrappers = 0 then .ends (some 1) else .exits

theorem ExitLine.stop_run (hfree : thread.holdsLock = false) (hgo : t.goesOn) :
    ((l.act now).run thread t).stop = some thread.exit := by
  have hrun : (l.act now).run thread t =
      (l.writer.draft now l.form thread .empty).finish.past t.latest :=
    Writer.finish_draft_past now l.writer l.form thread hgo
  rcases Writer.draft_released thread (l.tame now) rfl hfree with ⟨hkeys, -⟩ | ⟨-, hstop, hfinish⟩
  · cases hkeys
  · rw [hrun, hfinish, Route.after, show (Layout.route l.writer).severity = .exit from l.severity]
    simp [Trail.past, Trail.stopWith, Trail.goesOn, hstop, Thread.exit]

/-- Code with an exit line stops its thread there. -/
theorem stop_runActs_exit (after : List Act) (hbefore : Acts.Tame .finishing before)
    (hfree : thread.holdsLock = false) (hgo : t.goesOn) :
    (runActs (before ++ l.act now :: after) thread t).stop = some thread.exit := by
  induction before generalizing t with
  | nil =>
    have hstop := l.stop_run now hfree hgo
    have hstopped : ¬ ((l.act now).run thread t).goesOn := by simp [Trail.goesOn, hstop]
    rw [List.nil_append, runActs, if_pos hgo, runActs_of_not_goesOn hstopped, hstop]
  | cons a rest ih =>
    have hcalm : (a.run thread t).Calm .finishing :=
      Act.run_calm a thread t hbefore.1 (fun _ _ => hfree) (.inl (by simpa [Trail.goesOn] using hgo))
    have hgo' : (a.run thread t).goesOn := by
      rcases hcalm.cases_of_not_panics rfl with hstop | ⟨hkeys, -⟩
      · simp [Trail.goesOn, hstop]
      · cases hkeys
    rw [List.cons_append, runActs, if_pos hgo]
    exact ih hbefore.2 hgo'

/-- A helper with such code does not answer, and once it has the lock it ends the process. -/
theorem runHelper_exit (after : List Act) (hbefore : Acts.Tame .finishing before) :
    (runHelper (before ++ l.act now :: after)).answered = false ∧
      (runHelper (before ++ l.act now :: after)).behind.stop = some (.ends (some 1)) := by
  have hstop : (runActs (before ++ l.act now :: after) .helper .empty).stop = some (.ends (some 1)) :=
    stop_runActs_exit l now after hbefore rfl rfl
  induction before with
  | nil => exact ⟨rfl, hstop⟩
  | cons a rest ih =>
    cases a with
    | called label => exact ih hbefore.2 (stop_runActs_exit l now after hbefore.2 rfl rfl)
    | slow => exact ⟨rfl, hstop⟩
    | line route body => exact ⟨rfl, hstop⟩
    | panic message => exact absurd hbefore.1 Bool.false_ne_true

end Exit

/-! ### Lines with such code -/

namespace Writer

variable {now : Clock → Moment} {w : Writer Value} {form : Form Value} {thread : Thread}
  {code : Code Value} {onTime late rest : Script} {d : Draft}

/-- Code of a value comes to an exit line while a line is written: the line stops there with what the
thread does about it, if it does not have the lock, and else the process ends. -/
theorem stop_finish_of_exits (hcode : code.Exits now) (hfree : thread.holdsLock = false)
    (h : Composes (w.script now form) (.start thread (Layout.route w) .empty)
      (.guarded (codeActs now code) onTime late :: rest) d) (hgo : d.trail.goesOn) :
    (w.draft now form thread .empty).finish.stop =
      some (if d.locked then .ends (some 1) else thread.exit) := by
  obtain ⟨before, l, after, hacts, hbefore⟩ := hcode.acts
  have hthread : d.thread = thread := h.retains.thread
  have hdraft := draft_of_composes (h.step hgo)
  cases hl : d.locked with
  | false =>
    -- The code runs on the thread of the line, which stops with it before it hands on anything.
    let e : Draft := { d with trail := runActs (codeActs now code) d.caller d.trail }
    have hadvance : (Instr.guarded (codeActs now code) onTime late).advance rest d =
        (onTime ++ rest, e) := if_neg (by simp [hl])
    have hcaller : d.caller = thread := by simp [Draft.caller, hthread, hl]
    have hstop : e.trail.stop = some thread.exit := by
      show (runActs (codeActs now code) d.caller d.trail).stop = _
      rw [hcaller, hacts]
      exact stop_runActs_exit l now after hbefore hfree hgo
    have hstopped : ¬ e.trail.goesOn := by simp [Trail.goesOn, hstop]
    rw [hadvance, runScript_of_not_goesOn hstopped] at hdraft
    rw [hdraft, Draft.finish, if_neg hstopped, Draft.abandon, if_neg (by simp [e, hl])]
    simpa using hstop
  | true =>
    -- The line goes on without its helper, which ends the process once the lock is given back.
    obtain ⟨hanswered, hends⟩ := runHelper_exit l now after hbefore
    rw [← hacts] at hanswered hends
    have hadvance : (Instr.guarded (codeActs now code) onTime late).advance rest d =
        (late ++ rest, d.helped (runHelper (codeActs now code))) := by
      simp [Instr.advance, hl, hanswered]
    rw [hadvance] at hdraft
    obtain ⟨left, hsteps, -⟩ :=
      runScript_composes (late ++ rest) [] (d.helped (runHelper (codeActs now code)))
    have hretains := hsteps.retains
    rw [← hdraft] at hretains
    have horderly : (w.draft now form thread .empty).Orderly thread :=
      runScript_orderly _ _ (Draft.orderly_start (Trail.orderly_empty hfree) _)
    have hmem : (runHelper (codeActs now code)).behind ∈
        (d.helped (runHelper (codeActs now code))).behind := by
      simp [Draft.helped, hanswered]
    simpa using horderly.stop_finish (hretains.locked hl) (hretains.behind hmem) hends

end Writer

namespace Run

variable {σ α β : Type} {p q : Program σ}

/-- A line within the body of a wrapper stops it: the wrapper hears of that. -/
theorem run_recoverExit_line {before : Run σ β} {b : β}
    (hbefore : before.run.run { p with wrappers := p.wrappers + 1 } = (.ok b, q))
    (onExit : Int → Run σ Int) (after : β → Run σ α) (w : Writer Value) (form : Form Value) {s : Stop}
    (hstop : (w.draft q.now form ⟨q.wrappers, false, false⟩ .empty).finish.stop = some s) :
    ∃ latest, (recoverExit (do let b ← before; writeForm (.enabled w) form; after b)
        onExit).run.run p =
      (hear onExit (.error s)).run.run { q with wrappers := q.wrappers - 1, latest } := by
  have hline := run_line_of_stop q hstop
  have hbody := (Updates.run_bind hbefore fun b =>
    (do writeForm (.enabled w) form; after b : Run σ α)).trans (Updates.run_bind_error hline _)
  have hheard := run_recoverExit onExit hbody
  exact ⟨_, hheard⟩

/-- A line ends the process where somebody wants to hear of exit lines only if the lock was taken. -/
theorem locked_of_ends (hq : q.wrappers ≠ 0) {w : Writer Value} {form : Form Value}
    {st : Option Int} {r : Program σ}
    (h : (writeForm (.enabled w) form).run.run q = (.error (.ends st), r)) :
    st = some 1 ∧ ∃ new, r.latest = new ++ q.latest ∧ .locked ∈ new := by
  let t := (w.draft q.now form ⟨q.wrappers, false, false⟩ .empty).finish
  have horderly : t.Orderly ⟨q.wrappers, false, false⟩ :=
    (runScript_orderly _ _ (Draft.orderly_start (Trail.orderly_empty rfl) _)).finish
  have hrun := (run_line q w form).symm.trans h
  have hstop : t.stop = some (.ends st) := by
    have hfst := congrArg Prod.fst hrun
    dsimp only at hfst
    split at hfst
    · next s hs => rw [show t.stop = some s from hs, Except.error.inj hfst]
    · cases hfst
  obtain ⟨hst, hlocked⟩ := horderly.ends st hstop
  exact ⟨hst, t.latest, (congrArg (fun x => x.2.latest) hrun).symm, hlocked hq⟩

end Run

/-- **What becomes of an exit line that code in a line writes**, within the body of a wrapper: before the
line takes the lock, it unwinds, and the wrapper alone decides. After that the process ends, with the
status 1, and the wrapper is not asked. By no line does the process end within a body unless the lock
was taken. -/
theorem exit_within_line {σ α β : Type} {p q : Program σ} {before : Run σ β} {b : β}
    (hbefore : before.run.run { p with wrappers := p.wrappers + 1 } = (.ok b, q))
    (hq : q.wrappers ≠ 0) (onExit : Int → Run σ Int) (after : β → Run σ α) (w : Writer Value)
    (form : Form Value) :
    let body : Run σ α := do let b ← before; Run.writeForm (.enabled w) form; after b
    (∀ st r, (Run.writeForm (.enabled w) form).run.run q = (.error (.ends st), r) →
        st = some 1 ∧ ∃ new, r.latest = new ++ q.latest ∧ .locked ∈ new) ∧
      ∀ code onTime late rest d, code.Exits q.now →
        Composes (w.script q.now form) (.start ⟨q.wrappers, false, false⟩ (Layout.route w) .empty)
          (.guarded (codeActs q.now code) onTime late :: rest) d → d.trail.goesOn →
        ∃ latest,
          (d.locked = false → (Run.recoverExit body onExit).run.run p =
            (do
              let status ← onExit 1
              if 0 ≤ status then throw (.ends (some status)) else return none :
                Run σ (Option α)).run.run { q with wrappers := q.wrappers - 1, latest }) ∧
          (d.locked → (Run.recoverExit body onExit).run.run p =
            (.error (.ends (some 1)), { q with wrappers := q.wrappers - 1, latest })) := by
  intro body
  refine ⟨fun st r h => Run.locked_of_ends hq h, fun code onTime late rest d hcode hsteps hgo => ?_⟩
  have hstop := Writer.stop_finish_of_exits hcode rfl hsteps hgo
  obtain ⟨latest, hrun⟩ := Run.run_recoverExit_line hbefore onExit after w form hstop
  refine ⟨latest, fun hl => ?_, fun hl => ?_⟩
  · rw [hrun, hl]
    simp [Thread.exit, hq, Run.hear]
  · rw [hrun, hl]
    rfl

/-- Behind a long value the code of a deferred one is asked under the lock. -/
theorem deferred_behind_long (json : Bytes) (h : scratchSize < json.length) (code : Code Value) :
    let noon : Clock → Moment := fun _ => ⟨2026, 1, 1, 12, 0, 0, 0⟩
    let w : Writer Value := ⟨0, .fail, .empty, none, .initial none⟩
    let form : Form Value := .list [.marshal ⟨0, [], none⟩ (.ok json) "", .lazy code .null]
    ∃ onTime late rest d,
      Composes (w.script noon form) (.start ⟨1, false, false⟩ (Layout.route w) .empty)
        (.guarded (codeActs noon code) onTime late :: rest) d ∧ d.trail.goesOn ∧ d.locked := by
  intro noon w form
  have hlong := composes_past_long 42 (s := w.script noon form)
    (d := .start ⟨1, false, false⟩ (Layout.route w) .empty) h (by cbv) (by cbv)
  have hsteps := (hlong.trans (composes_after 1 _ _)).to_head
    (i := .guarded (codeActs noon code) [Script.later fun _ => (Value.null.writing noon).item]
      Script.lateItem) (by cbv)
  refine ⟨_, _, _, _, hsteps, ?_⟩
  cbv

/-- A wrapper lets the process end with the status 7, and code of a deferred value writes an exit line: by
itself in a line it unwinds, and behind a long value it ends the process with the status 1. -/
theorem exit_behind_long_value :
    let noon : Clock → Moment := fun _ => ⟨2026, 1, 1, 12, 0, 0, 0⟩
    let w : Writer Value := ⟨0, .fail, .empty, none, .initial none⟩
    let code : Code Value :=
      ⟨1, [.log (.enabled ⟨0, .exit, .empty, none, .initial none⟩) (.list [])], none⟩
    let long : Value := .marshal ⟨0, [], none⟩ (.ok (List.replicate (scratchSize + 1) 0x31)) ""
    let p : Program Unit := ⟨none, fun _ => none, noon, none, .empty, 0, 0, [], ()⟩
    let wrapped (form : Form Value) : Run Unit (Option Nat) :=
      Run.recoverExit (do let n ← Run.fresh; Run.writeForm (.enabled w) form; pure n) fun _ => pure 7
    (∃ latest, (wrapped (.list [.lazy code .null])).run.run p =
        (.error (.ends (some 7)), { p with stamps := 1, latest })) ∧
      ∃ latest, (wrapped (.list [long, .lazy code .null])).run.run p =
        (.error (.ends (some 1)), { p with stamps := 1, latest }) := by
  intro noon w code long p wrapped
  let l : ExitLine := ⟨⟨0, .exit, .empty, none, .initial none⟩, .list [], rfl,
    fun _ => ⟨fun _ h => absurd h List.not_mem_nil, fun _ h => absurd h List.not_mem_nil⟩⟩
  have hcode : code.Exits noon := ⟨l, [], [], rfl, trivial⟩
  have hbefore : (Run.fresh : Run Unit Nat).run.run { p with wrappers := p.wrappers + 1 } =
      (.ok 1, { p with wrappers := 1, stamps := 1 }) := rfl
  have hwithin (form : Form Value) :=
    (exit_within_line hbefore one_ne_zero (fun _ => pure 7) pure w form).2 code
  constructor
  · have hsteps := (composes_after 34 (w.script noon (.list [.lazy code .null]))
      (.start ⟨1, false, false⟩ (Layout.route w) .empty)).to_head
        (i := .guarded (codeActs noon code) [Script.later fun _ => (Value.null.writing noon).item]
          Script.lateItem) (by cbv)
    obtain ⟨latest, hfree, -⟩ := hwithin _ _ _ _ _ hcode hsteps (by cbv)
    exact ⟨latest, (hfree (by cbv)).trans rfl⟩
  · obtain ⟨onTime, late, rest, d, hsteps, hgo, hl⟩ :=
      deferred_behind_long (List.replicate (scratchSize + 1) 0x31) (by simp) code
    obtain ⟨latest, -, hlocked⟩ :=
      hwithin (.list [long, .lazy code .null]) onTime late rest d hcode hsteps hgo
    exact ⟨latest, hlocked hl⟩

end Logline
