import Logline.Proofs.Line.Steps
import Logline.Proofs.Line.Threads

/-!
What a thread has of the output lock, whatever the code of callers does. `hold?` reads it off the events
of a thread: bytes are handed on only by who has the lock, and what is taken is given back. A line
that ends leaves its thread with what it had before, also if code that the line runs writes lines of
its own, panics or ends (`runActs_orderly`).

The same induction tells how a process may end by a line: with the status 1, and where somebody wants
to hear of exit lines only once a line has taken the lock (`Trail.Orderly.ends`).
-/

namespace Logline

/-! ### Taking and giving back -/

namespace Hold

/-- What a thread has after an event; none if the event is out of order. -/
def next? : Hold → Event → Option Hold
  | h, .called _ _ => some h
  | .nothing, .locked => some .exclusive
  | .exclusive, .unlocked => some .nothing
  | .nothing, .shared => some .shared
  | .shared, .unshared => some .nothing
  | .nothing, .wrote _ _ _ => none
  | h, .wrote _ _ _ => some h
  | _, _ => none

end Hold

/-- What a thread has of the lock after events, given with the latest first. -/
def hold? : List Event → Option Hold
  | [] => some .nothing
  | e :: earlier => (hold? earlier).bind (·.next? e)

theorem hold?_cons {e : Event} {earlier : List Event} {h : Hold} (hearlier : hold? earlier = some h) :
    hold? (e :: earlier) = h.next? e := by
  rw [hold?, hearlier]
  rfl

/-- Events of a thread that has nothing of the lock count as if there were none before. -/
theorem hold?_append {earlier : List Event} (h : hold? earlier = some .nothing) (new : List Event) :
    hold? (new ++ earlier) = hold? new := by
  induction new with
  | nil => exact h
  | cons e rest ih => rw [List.cons_append, hold?, hold?, ih]

/-- Who has the lock alone has taken it. -/
theorem locked_of_hold? {events : List Event} (h : hold? events = some .exclusive) :
    .locked ∈ events := by
  induction events with
  | nil => cases h
  | cons e rest ih =>
    obtain ⟨before, hbefore, hnext⟩ := Option.bind_eq_some_iff.1 h
    by_cases hexclusive : before = .exclusive
    · exact List.mem_cons_of_mem _ (ih (hexclusive ▸ hbefore))
    · have he : e = .locked := by
        cases e <;> cases before <;> simp_all [Hold.next?]
      exact he ▸ List.mem_cons_self ..

/-! ### Trails in order -/

/-- What code finds that runs on a thread. -/
def Thread.hold (t : Thread) : Hold := if t.holdsLock then .exclusive else .nothing

/-- The thread has of the lock what lines further out hold. If the process ended, it did so with the
status 1, and where somebody wants to hear of exit lines, with the lock taken. -/
structure Trail.Orderly (thread : Thread) (t : Trail) : Prop where
  hold : hold? t.latest = some thread.hold
  ends : ∀ st, t.stop = some (.ends st) →
    st = some 1 ∧ (thread.wrappers ≠ 0 → .locked ∈ t.latest)

namespace Trail

variable {thread : Thread} {t : Trail}

theorem orderly_empty (h : thread.holdsLock = false) : empty.Orderly thread :=
  ⟨by simp [empty, hold?, Thread.hold, h], fun st hst => nomatch hst⟩

theorem stop_stopWith {s s' : Stop} (h : (t.stopWith s).stop = some s') :
    t.stop = some s' ∨ t.stop = none ∧ s' = s := by
  obtain ⟨latest, stop⟩ := t
  cases stop with
  | none => exact .inr ⟨rfl, (Option.some.inj h).symm⟩
  | some s => exact .inl h

theorem latest_stopWith (t : Trail) (s : Stop) : (t.stopWith s).latest = t.latest := by
  unfold stopWith
  split <;> rfl

/-- A stop that does not end the process. -/
theorem Orderly.stopWith (h : t.Orderly thread) {s : Stop} (hs : ∀ st, s ≠ .ends st) :
    (t.stopWith s).Orderly thread := by
  refine ⟨by rw [latest_stopWith, h.hold], fun st hst => ?_⟩
  rw [latest_stopWith]
  exact h.ends st ((stop_stopWith hst).resolve_right fun hsame => hs st hsame.2.symm)

/-- What a thread does that does not touch the lock. -/
theorem Orderly.push (h : t.Orderly thread) {e : Event} (he : thread.hold.next? e = some thread.hold) :
    (t.push e).Orderly thread :=
  ⟨(hold?_cons h.hold).trans he, fun st hst => ⟨(h.ends st hst).1, fun hw =>
    List.mem_cons_of_mem _ ((h.ends st hst).2 hw)⟩⟩

theorem Orderly.called (h : t.Orderly thread) (label : Nat) (place : Place) :
    (t.add (.called label place)).Orderly thread := by
  unfold add
  split
  · exact h.push rfl
  · exact h

theorem Orderly.calls (h : t.Orderly thread) {events : List Event}
    (he : ∀ e ∈ events, ∃ label place, e = .called label place) :
    (events.foldl Trail.add t).Orderly thread := by
  induction events generalizing t with
  | nil => exact h
  | cons e rest ih =>
    obtain ⟨label, place, rfl⟩ := he e (List.mem_cons_self ..)
    exact ih (h.called label place) fun e he' => he e (List.mem_cons_of_mem _ he')

theorem ends_of_join {helper : Trail} {st : Option Int}
    (h : (t.join helper).stop = some (.ends st)) :
    t.stop = some (.ends st) ∨ helper.stop = some (.ends st) := by
  unfold join at h
  split at h <;> grind

/-- A thread that has nothing of the lock, when a helper that has nothing either is done. Only a helper
may end the process where somebody wants to hear of exit lines, and it was asked under the lock. -/
theorem Orderly.join {helper : Trail} (h : t.Orderly thread) (h' : helper.Orderly .helper)
    (hfree : thread.holdsLock = false) (hlocked : .locked ∈ t.latest) :
    (t.join helper).Orderly thread := by
  have hnothing : thread.hold = .nothing := by simp [Thread.hold, hfree]
  refine ⟨?_, fun st hst => ⟨?_, fun _ => List.mem_append_right _ hlocked⟩⟩
  · have hhelper : hold? helper.latest = some .nothing := h'.hold
    exact (hold?_append (h.hold.trans (congrArg some hnothing)) _).trans
      (hhelper.trans (congrArg some hnothing.symm))
  · exact (ends_of_join hst).elim (fun hends => (h.ends st hends).1) fun hends =>
      (h'.ends st hends).1

theorem Orderly.foldl_join {helpers : List Trail} (h : t.Orderly thread)
    (hh : ∀ u ∈ helpers, u.Orderly .helper) (hfree : thread.holdsLock = false)
    (hlocked : .locked ∈ t.latest) : (helpers.foldl Trail.join t).Orderly thread := by
  induction helpers generalizing t with
  | nil => exact h
  | cons u rest ih =>
    have hu := h.join (hh u (List.mem_cons_self ..)) hfree hlocked
    exact ih hu (fun v hv => hh v (List.mem_cons_of_mem u hv)) (List.mem_append_right _ hlocked)

end Trail

/-- What follows from the severity of a line comes when it has given the lock back. An exit line ends
the process only where nobody wants to hear of it. -/
theorem Trail.Orderly.after {thread : Thread} {t : Trail} (h : t.Orderly thread) (route : Route) :
    (route.after thread t).Orderly thread := by
  unfold Route.after
  split
  · refine ⟨by rw [Trail.latest_stopWith, h.hold], fun st hst => ?_⟩
    rw [Trail.latest_stopWith]
    rcases Trail.stop_stopWith hst with hst | ⟨-, hsame⟩
    · exact h.ends st hst
    · split at hsame
      · next hw => exact ⟨by cases hsame; rfl, fun hw' => absurd hw hw'⟩
      · cases hsame
  · exact h.stopWith (by simp)
  · exact h

/-! ### Lines in order -/

/-- A line on a thread, with what it has taken itself. Helpers that wait for the lock have nothing of
it, and there are none unless the line has it. -/
structure Draft.Orderly (thread : Thread) (d : Draft) : Prop where
  thread : d.thread = thread
  trail : d.trail.Orderly d.caller
  once : d.thread.holdsLock → d.locked = false
  behind : ∀ t ∈ d.behind, d.locked ∧ t.Orderly .helper

namespace Draft

variable {thread : Thread} {d e : Draft}

theorem orderly_start {t : Trail} (h : t.Orderly thread) (route : Route) :
    (start thread route t).Orderly thread :=
  ⟨rfl, by simpa [start, caller] using h, fun _ => rfl, fun _ ht => absurd ht List.not_mem_nil⟩

/-- What gathers, and what is owed, has nothing to do with the lock. -/
theorem Orderly.of_eq (h : d.Orderly thread) (hthread : e.thread = d.thread)
    (hlocked : e.locked = d.locked) (hbehind : e.behind = d.behind) (htrail : e.trail = d.trail) :
    e.Orderly thread := by
  have hcaller : e.caller = d.caller := by simp [caller, hthread, hlocked]
  refine ⟨hthread.trans h.thread, ?_, fun hheld => ?_, fun t ht => ?_⟩
  · rw [htrail, hcaller]
    exact h.trail
  · rw [hlocked]
    exact h.once (hthread ▸ hheld)
  · rw [hlocked]
    exact h.behind t (hbehind ▸ ht)

theorem Orderly.withTrail (h : d.Orderly thread) {t : Trail} (ht : t.Orderly d.caller) :
    ({ d with trail := t } : Draft).Orderly thread :=
  ⟨h.thread, ht, h.once, h.behind⟩

theorem Orderly.handOn (h : d.Orderly thread) (hl : d.locked ∨ ¬ d.trail.goesOn)
    (bytes : Text.Bytes) : (d.handOn bytes).Orderly thread := by
  by_cases hgo : d.trail.goesOn
  · have hlocked : d.locked := hl.resolve_right (not_not_intro hgo)
    have hexclusive : d.caller.hold = .exclusive := by simp [Thread.hold, caller, hlocked]
    rw [handOn_of_goesOn hgo]
    exact ⟨h.thread, h.trail.push (by rw [hexclusive]; rfl), h.once, h.behind⟩
  · rwa [handOn_of_not_goesOn hgo]

theorem Orderly.flush (h : d.Orderly thread) (hl : d.locked ∨ ¬ d.trail.goesOn) :
    d.flush.Orderly thread := by
  unfold Draft.flush
  split
  · exact h
  · exact (h.handOn hl d.scratch).of_eq rfl rfl rfl rfl

/-- The lock is taken once. -/
theorem Orderly.lock (h : d.Orderly thread) (hgo : d.trail.goesOn) : d.lock.Orderly thread := by
  unfold Draft.lock
  split
  · next hl => exact h.flush (.inl hl)
  next hl =>
  split
  · exact h.withTrail (h.trail.stopWith (by simp))
  · next hheld =>
    have hnothing : d.caller.hold = .nothing := by simp [Thread.hold, caller, hl, hheld]
    refine Orderly.flush ⟨h.thread, ⟨?_, fun st hst => ?_⟩, fun hw => absurd hw hheld,
      fun t ht => ⟨rfl, (h.behind t ht).2⟩⟩ (.inl rfl)
    · have hexclusive : Thread.hold { d.thread with holdsLock := d.thread.holdsLock || true } =
          .exclusive := by simp [Thread.hold]
      rw [Trail.add, if_pos hgo]
      refine (hold?_cons h.trail.hold).trans ?_
      rw [hnothing]
      exact congrArg some hexclusive.symm
    · rw [Trail.stop_add] at hst
      simp [Trail.goesOn, hst] at hgo

theorem Orderly.write (h : d.Orderly thread) (hgo : d.trail.goesOn) (chunk : Text.Bytes) :
    (d.write chunk).Orderly thread := by
  have hgather : ∀ e : Draft, e.Orderly thread → Draft.Orderly thread
      { e with gathered := chunk :: e.gathered, used := e.used + chunk.length } :=
    fun e he => he.of_eq rfl rfl rfl rfl
  unfold Draft.write
  by_cases hbig : scratchSize < chunk.length
  · have hfull : scratchSize < d.used + chunk.length := by omega
    simp only [hbig, hfull, if_true]
    exact (h.lock hgo).handOn (locked_lock d) chunk
  · simp only [hbig, if_false]
    split
    · exact hgather _ (h.lock hgo)
    · exact hgather d h

theorem Orderly.reserve (h : d.Orderly thread) (hgo : d.trail.goesOn) (n : Nat) :
    (d.reserve n).Orderly thread := by
  unfold Draft.reserve
  split
  · exact h.lock hgo
  · exact h

/-- The lock is given back, and then helpers that waited for it go on. -/
theorem Orderly.unlock (h : d.Orderly thread) (hl : d.locked) : d.unlock.Orderly thread := by
  have hfree : thread.holdsLock = false := by
    cases hheld : thread.holdsLock with
    | false => rfl
    | true => simp [h.once (by rw [h.thread]; exact hheld)] at hl
  have hexclusive : hold? d.trail.latest = some .exclusive := by
    simpa [Thread.hold, caller, hl] using h.trail.hold
  have hgiven : (d.trail.push .unlocked).Orderly thread := by
    refine ⟨(hold?_cons hexclusive).trans ?_, fun st hst => ⟨(h.trail.ends st hst).1, fun _ =>
      List.mem_cons_of_mem _ (locked_of_hold? hexclusive)⟩⟩
    simp [Hold.next?, Thread.hold, hfree]
  exact hgiven.foldl_join (fun t ht => (h.behind t (List.mem_reverse.1 ht)).2) hfree
    (List.mem_cons_of_mem _ (locked_of_hold? hexclusive))

/-- A line that has not taken the lock is handed on in one piece, together with others. -/
theorem Orderly.release_of_not_locked (h : d.Orderly thread) (hgo : d.trail.goesOn)
    (hl : d.locked = false) : d.release.Orderly thread := by
  have hcaller : d.caller = thread := by simp [caller, hl, h.thread]
  have htrail : d.trail.Orderly thread := hcaller ▸ h.trail
  cases hheld : d.thread.holdsLock with
  | true =>
    have hrelease : d.release = d.trail.stopWith .waits := by
      simp [release, complete, hl, hheld, Trail.add, Trail.not_goesOn_stopWith]
    rw [hrelease]
    exact htrail.stopWith (by simp)
  | false =>
    have hnothing : thread.hold = .nothing := by simp [Thread.hold, ← h.thread, hheld]
    let e : Draft := { d with trail := d.trail.push .shared }
    have hcomplete : d.complete = e.flush := by
      simp [complete, hl, hheld, Trail.add, hgo, e]
    have hshared : hold? e.trail.latest = some .shared := by
      refine (hold?_cons htrail.hold).trans ?_
      rw [hnothing]
      rfl
    have hends : ∀ latest : List Event, hold? latest = some .nothing →
        (⟨latest, d.trail.stop⟩ : Trail).Orderly thread := fun latest hlatest =>
      ⟨hlatest.trans (congrArg some hnothing.symm), fun st (hst : d.trail.stop = _) => by
        simp [Trail.goesOn, hst] at hgo⟩
    have hgo' : e.trail.goesOn := hgo
    have hrelease : d.release = e.flush.trail.push .unshared := by
      rw [release, hcomplete, Trail.add, if_pos (goesOn_flush hgo')]
      exact if_neg (by simp [e, hl])
    rw [hrelease]
    rcases flush_cases hgo' with hstay | ⟨-, htrail'⟩
    · rw [hstay]
      exact hends _ (hold?_cons hshared)
    · have hwritten : hold? e.flush.trail.latest = some .shared := by
        rw [htrail']
        exact hold?_cons hshared
      rw [htrail'] at hwritten ⊢
      exact hends _ (hold?_cons hwritten)

theorem Orderly.release (h : d.Orderly thread) (hgo : d.trail.goesOn) :
    d.release.Orderly thread := by
  cases hl : d.locked with
  | false => exact h.release_of_not_locked hgo hl
  | true =>
    have hrelease : d.release = d.flush.unlock := by simp [Draft.release, complete, hl]
    rw [hrelease]
    exact (h.flush (.inl hl)).unlock (by simpa using hl)

theorem Orderly.finish (h : d.Orderly thread) : d.finish.Orderly thread := by
  unfold Draft.finish
  split
  · next hgo =>
    rw [h.thread]
    exact (h.release hgo).after d.route
  · unfold abandon
    split
    · next hl => exact h.unlock hl
    · next hl =>
      have hcaller : d.caller = thread := by simp [caller, hl, h.thread]
      exact hcaller ▸ h.trail

theorem Orderly.helped (h : d.Orderly thread) (hl : d.locked) {helped : Helped}
    (hearly : ∀ e ∈ helped.early, ∃ label, e = .called label .helper)
    (hbehind : helped.behind.Orderly .helper) : (d.helped helped).Orderly thread := by
  refine ⟨h.thread, ?_, h.once, fun t ht => ⟨hl, ?_⟩⟩
  · exact h.trail.calls fun e he => (hearly e he).imp fun label hlabel => ⟨_, hlabel⟩
  · simp only [Draft.helped] at ht
    split at ht
    · exact (h.behind t ht).2
    · rcases List.mem_cons.1 ht with rfl | ht
      · exact hbehind
      · exact (h.behind t ht).2

end Draft

/-! ### All code -/

mutual

theorem Instr.run_orderly {thread : Thread} (i : Instr) (d : Draft) (hgo : d.trail.goesOn)
    (h : d.Orderly thread) : (i.run d).Orderly thread := by
  cases i with
  | chunk bytes => exact h.write hgo bytes
  | reserve n => exact h.reserve hgo n
  | separate mark =>
    simp only [Instr.run]
    split
    · exact h.write hgo mark
    · exact h
  | owe owed => exact h.of_eq rfl rfl rfl rfl
  | block body => exact runScript_orderly body d h
  | later made => exact Instr.run_orderly (made ()) d hgo h
  | direct acts => exact h.withTrail (runActs_orderly acts d.caller d.trail h.trail)
  | guarded acts onTime tooLate =>
    simp only [Instr.run]
    split
    · next hl =>
      have hh := h.helped hl (runHelper_early acts) (runHelper_orderly acts)
      split
      · exact runScript_orderly onTime _ hh
      · exact runScript_orderly tooLate _ hh
    · exact runScript_orderly onTime _ (h.withTrail (runActs_orderly acts d.caller d.trail h.trail))
termination_by structural i

theorem runScript_orderly {thread : Thread} (s : List Instr) (d : Draft) (h : d.Orderly thread) :
    (runScript s d).Orderly thread := by
  cases s with
  | nil => exact h
  | cons i rest =>
    simp only [runScript]
    split
    · next hgo => exact runScript_orderly rest _ (Instr.run_orderly i d hgo h)
    · exact h
termination_by structural s

theorem Act.run_orderly (a : Act) (thread : Thread) (t : Trail) (h : t.Orderly thread) :
    (a.run thread t).Orderly thread := by
  cases a with
  | called label => exact h.called label thread.place
  | slow => exact h
  | line route body =>
    exact (runScript_orderly body _ (Draft.orderly_start h route)).finish
  | panic message => exact h.stopWith (by simp)
termination_by structural a

/-- Whatever code does on a thread, it leaves the lock as it found it. -/
theorem runActs_orderly (acts : List Act) (thread : Thread) (t : Trail) (h : t.Orderly thread) :
    (runActs acts thread t).Orderly thread := by
  cases acts with
  | nil => exact h
  | cons a rest =>
    simp only [runActs]
    split
    · exact runActs_orderly rest thread _ (Act.run_orderly a thread t h)
    · exact h
termination_by structural acts

theorem runHelper_orderly (acts : List Act) : (runHelper acts).behind.Orderly .helper := by
  have hempty : Trail.empty.Orderly .helper := Trail.orderly_empty rfl
  cases acts with
  | nil => exact hempty
  | cons a rest =>
    cases a with
    | called label => exact runHelper_orderly rest
    | slow => exact runActs_orderly rest .helper _ hempty
    | line route body =>
      exact runActs_orderly rest .helper _
        (runScript_orderly body _ (Draft.orderly_start hempty route)).finish
    | panic message => exact hempty
termination_by structural acts

end

end Logline
