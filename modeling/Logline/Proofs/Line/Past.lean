import Logline.Proofs.Line.Turns

/-!
What happened before a line plays no part in it. Events that came earlier stay where they are, below
those of the line, and nothing that the line does depends on them (`runScript_past`). So what a line
does can be told of a trail that is empty at first.

Composing a line only puts events on top of those there are. So it does the same whatever becomes of
these in the meantime (`Draft.write_seen`); that they have others below them is one case of it.
-/

namespace Logline

namespace Trail

/-- The same trail after events that came earlier. -/
def past (t : Trail) (before : List Event) : Trail := { t with latest := t.latest ++ before }

variable (t : Trail) (before : List Event)

@[simp] theorem goesOn_past : (t.past before).goesOn = t.goesOn := rfl

theorem add_past (e : Event) : (t.past before).add e = (t.add e).past before :=
  (apply_ite (past · before) (t.goesOn = true) (t.push e) t).symm

theorem stopWith_past (s : Stop) : (t.past before).stopWith s = (t.stopWith s).past before :=
  (apply_ite (past · before) (t.goesOn = true) { t with stop := some s } t).symm

theorem foldl_add_past (events : List Event) :
    events.foldl add (t.past before) = (events.foldl add t).past before := by
  induction events generalizing t with
  | nil => rfl
  | cons e rest ih => rw [List.foldl_cons, add_past, ih, List.foldl_cons]

theorem foldl_join_past (helpers : List Trail) :
    helpers.foldl join (t.past before) = (helpers.foldl join t).past before := by
  induction helpers generalizing t with
  | nil => rfl
  | cons h rest ih =>
    have hjoin : (t.past before).join h = (t.join h).past before := by simp [join, past]
    rw [List.foldl_cons, hjoin, ih, List.foldl_cons]

/-- A trail that goes on is an empty one after its events. -/
theorem eq_past_of_goesOn {t : Trail} (h : t.goesOn) : t = empty.past t.latest := by
  obtain ⟨latest, stop⟩ := t
  cases stop with
  | none => rfl
  | some s => exact Bool.noConfusion h

end Trail

namespace Trail

/-- The trail with `view` of what happened. -/
def seen (view : List Event → List Event) (t : Trail) : Trail := { t with latest := view t.latest }

end Trail

namespace Draft

/-- The line with `view` of what happened. -/
def seen (view : List Event → List Event) (d : Draft) : Draft :=
  { d with trail := d.trail.seen view }

/-- The view keeps what a line itself does, on top of what it makes of the rest. -/
def KeepsOwn (view : List Event → List Event) : Prop :=
  ∀ e earlier, e.isCalled = false → view (e :: earlier) = e :: view earlier

section Seen

variable {view : List Event → List Event} (hview : KeepsOwn view) (d : Draft)
include hview

theorem add_seen {e : Event} (he : e.isCalled = false) (t : Trail) :
    (t.seen view).add e = (t.add e).seen view := by
  have hpush : (t.seen view).push e = (t.push e).seen view := by
    simp [Trail.push, Trail.seen, hview e _ he]
  rw [Trail.add, hpush]
  exact (apply_ite (Trail.seen view) (t.goesOn = true) (t.push e) t).symm

theorem handOn_seen (bytes : Text.Bytes) : (d.seen view).handOn bytes = (d.handOn bytes).seen view := by
  by_cases hgo : d.trail.goesOn
  · rw [handOn_of_goesOn hgo, handOn_of_goesOn (d := d.seen view) hgo]
    simp [seen, Trail.seen, Trail.push, hview _ _ (rfl : Event.isCalled (.wrote ..) = false)]
  · rw [handOn_of_not_goesOn hgo, handOn_of_not_goesOn (d := d.seen view) hgo]

theorem flush_seen : (d.seen view).flush = d.flush.seen view := by
  have hhanded : { (d.seen view).handOn d.scratch with gathered := [], used := 0 } =
      ({ d.handOn d.scratch with gathered := [], used := 0 } : Draft).seen view := by
    rw [handOn_seen hview]
    rfl
  calc (d.seen view).flush
      = if d.used = 0 then d.seen view
        else { (d.seen view).handOn d.scratch with gathered := [], used := 0 } := rfl
    _ = d.flush.seen view := by
        rw [hhanded]
        exact (apply_ite (seen view) _ _ _).symm

theorem lock_seen : (d.seen view).lock = d.lock.seen view := by
  have htaken := flush_seen hview { d with locked := true, trail := d.trail.add .locked }
  simp only [seen, ← add_seen hview (rfl : Event.isCalled .locked = false)] at htaken
  by_cases hl : d.locked
  · simpa [lock, seen, hl] using flush_seen hview d
  · by_cases hw : d.thread.holdsLock
    · have hstop : (d.trail.seen view).stopWith .waits = (d.trail.stopWith .waits).seen view :=
        (apply_ite (Trail.seen view) (d.trail.goesOn = true) { d.trail with stop := some .waits }
          d.trail).symm
      simp [lock, seen, hl, hw, hstop]
    · simpa [lock, seen, hl, hw] using htaken

theorem write_seen (chunk : Text.Bytes) :
    (d.seen view).write chunk = (d.write chunk).seen view := by
  have hroom : (if scratchSize < (d.seen view).used + chunk.length then (d.seen view).lock
      else d.seen view) =
        (if scratchSize < d.used + chunk.length then d.lock else d).seen view := by
    rw [lock_seen hview]
    exact (apply_ite (Draft.seen view) _ _ _).symm
  unfold write
  rw [hroom]
  dsimp only
  split
  · exact handOn_seen hview _ chunk
  · rfl

theorem reserve_seen (n : Nat) : (d.seen view).reserve n = (d.reserve n).seen view := by
  unfold reserve
  rw [lock_seen hview]
  exact (apply_ite (Draft.seen view) _ _ _).symm

end Seen

/-- The same line after events that came earlier. -/
def past (d : Draft) (before : List Event) : Draft := { d with trail := d.trail.past before }

variable (d : Draft) (before : List Event)

theorem keepsOwn_append : KeepsOwn (· ++ before) := fun _ _ _ => rfl

theorem flush_past : (d.past before).flush = d.flush.past before :=
  flush_seen (keepsOwn_append before) d

theorem write_past (chunk : Text.Bytes) :
    (d.past before).write chunk = (d.write chunk).past before :=
  write_seen (keepsOwn_append before) d chunk

theorem reserve_past (n : Nat) : (d.past before).reserve n = (d.reserve n).past before :=
  reserve_seen (keepsOwn_append before) d n

theorem helped_past (h : Helped) : (d.past before).helped h = (d.helped h).past before := by
  simp only [helped, past, Trail.foldl_add_past]

theorem unlock_past : (d.past before).unlock = d.unlock.past before :=
  Trail.foldl_join_past (d.trail.push .unlocked) before d.behind.reverse

theorem complete_past : (d.past before).complete = d.complete.past before := by
  have hshared := flush_past { d with trail := d.trail.add .shared } before
  simp only [past, ← Trail.add_past] at hshared
  by_cases hl : d.locked
  · simpa [complete, past, hl] using flush_past d before
  · by_cases hw : d.thread.holdsLock
    · simp [complete, past, hl, hw, Trail.stopWith_past]
    · simpa [complete, past, hl, hw] using hshared

theorem release_past : (d.past before).release = d.release.past before := by
  have hlocked : (d.complete.past before).locked = d.complete.locked := rfl
  have htrail : (d.complete.past before).trail = d.complete.trail.past before := rfl
  simp only [release, complete_past, hlocked, htrail, unlock_past, Trail.add_past]
  split <;> rfl

theorem finish_past : (d.past before).finish = d.finish.past before := by
  have hafter : ∀ t : Trail,
      d.route.after d.thread (t.past before) = (d.route.after d.thread t).past before := by
    intro t
    unfold Route.after
    split
    · exact Trail.stopWith_past ..
    · exact Trail.stopWith_past ..
    · rfl
  by_cases hgo : d.trail.goesOn
  · have hreleased := release_past d before
    simp only [past] at hreleased
    simpa [finish, past, hgo, hreleased] using hafter d.release
  · have hunlocked := unlock_past d before
    by_cases hl : d.locked
    · simpa [finish, abandon, past, hgo, hl] using hunlocked
    · simp [finish, abandon, past, hgo, hl]

end Draft

mutual

theorem Instr.run_past (i : Instr) (d : Draft) (before : List Event) :
    i.run (d.past before) = (i.run d).past before := by
  cases i with
  | chunk bytes => exact Draft.write_past d before bytes
  | reserve n => exact Draft.reserve_past d before n
  | separate mark =>
    simp only [Instr.run, Draft.write_past]
    exact (apply_ite (Draft.past · before) _ _ _).symm
  | owe owed => rfl
  | block body => exact runScript_past body d before
  | later made => exact Instr.run_past (made ()) d before
  | direct acts =>
    exact congrArg (fun t => { d with trail := t }) (runActs_past acts d.caller d.trail before)
  | guarded acts onTime tooLate =>
    have hran := runActs_past acts d.caller d.trail before
    have honTime := runScript_past onTime { d with trail := runActs acts d.caller d.trail } before
    have hhelped := Draft.helped_past d before (runHelper acts)
    have hlate := runScript_past tooLate (d.helped (runHelper acts)) before
    have hnext := runScript_past onTime (d.helped (runHelper acts)) before
    rw [← hhelped] at hlate hnext
    have hlocked : (d.past before).locked = d.locked := rfl
    simp only [Instr.run, hlocked]
    by_cases hl : d.locked
    · by_cases ha : (runHelper acts).answered
      · simpa only [hl, ha, if_true] using hnext
      · simpa only [hl, ha, if_true, Bool.false_eq_true, if_false] using hlate
    · rw [if_neg hl, if_neg hl, ← honTime]
      exact congrArg (fun t => runScript onTime { d with trail := t }) hran
termination_by structural i

/-- A run does the same whatever happened before. -/
theorem runScript_past (s : List Instr) (d : Draft) (before : List Event) :
    runScript s (d.past before) = (runScript s d).past before := by
  cases s with
  | nil => rfl
  | cons i rest =>
    rw [runScript, runScript, Instr.run_past i d before, runScript_past rest (i.run d) before]
    exact (apply_ite (Draft.past · before) _ _ _).symm
termination_by structural s

theorem Act.run_past (a : Act) (thread : Thread) (t : Trail) (before : List Event) :
    a.run thread (t.past before) = (a.run thread t).past before := by
  cases a with
  | called label => exact Trail.add_past t before _
  | slow => rfl
  | line route body =>
    have hrun := runScript_past body (.start thread route t) before
    exact (congrArg Draft.finish hrun).trans (Draft.finish_past _ before)
  | panic message => exact Trail.stopWith_past t before _
termination_by structural a

theorem runActs_past (acts : List Act) (thread : Thread) (t : Trail) (before : List Event) :
    runActs acts thread (t.past before) = (runActs acts thread t).past before := by
  cases acts with
  | nil => rfl
  | cons a rest =>
    rw [runActs, runActs, Act.run_past a thread t before,
      runActs_past rest thread (a.run thread t) before]
    exact (apply_ite (Trail.past · before) _ _ _).symm
termination_by structural acts

end

end Logline
