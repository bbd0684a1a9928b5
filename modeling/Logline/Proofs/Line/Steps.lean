import Logline.Proofs.Line.Codes
import Logline.Proofs.Line.Turns

/-!
A line step by step (`Composes`). Where a line comes to when it is run, it comes to in steps
(`runScript_composes`), and what a script runs, it runs in one of its steps.

While a line has the output lock, no step but one that asks for the text of a key runs code of a
caller on the thread that writes the line (`Instr.advance_locked`): other code runs on a helper, and
the line goes on whatever that code does. A line that does not have the lock has handed on nothing
(`Draft.Unhanded`), so to be stopped then leaves nothing behind.
-/

namespace Logline

/-! ### Steps -/

/-- From the first script and draft a line comes to the second ones. -/
inductive Composes (s : Script) (d : Draft) : Script → Draft → Prop
  | refl : Composes s d s d
  | step {i : Instr} {rest : Script} {e : Draft} (h : Composes s d (i :: rest) e)
      (hgo : e.trail.goesOn) : Composes s d (i.advance rest e).1 (i.advance rest e).2

theorem Composes.trans {a b c : Script} {d e f : Draft} (h : Composes a d b e)
    (h' : Composes b e c f) : Composes a d c f := by
  induction h' with
  | refl => exact h
  | step _ hgo ih => exact ih.step hgo

mutual

theorem Instr.run_composes (i : Instr) (rest : Script) (d : Draft) (hgo : d.trail.goesOn) :
    ∃ left, Composes (i :: rest) d (left ++ rest) (i.run d) ∧
      ((i.run d).trail.goesOn → left = []) := by
  have hstep := (Composes.refl (s := i :: rest) (d := d)).step hgo
  cases i with
  | block body =>
    obtain ⟨left, hleft, hend⟩ := runScript_composes body rest d
    exact ⟨left, hstep.trans hleft, hend⟩
  | later made =>
    obtain ⟨left, hleft, hend⟩ := Instr.run_composes (made ()) rest d hgo
    exact ⟨left, hstep.trans hleft, hend⟩
  | guarded acts onTime tooLate =>
    simp only [Instr.advance] at hstep
    simp only [Instr.run]
    split at hstep
    · next hl =>
      rw [if_pos hl]
      split at hstep
      · next ha =>
        rw [if_pos ha]
        obtain ⟨left, hleft, hend⟩ := runScript_composes onTime rest (d.helped (runHelper acts))
        exact ⟨left, hstep.trans hleft, hend⟩
      · next ha =>
        rw [if_neg ha]
        obtain ⟨left, hleft, hend⟩ := runScript_composes tooLate rest (d.helped (runHelper acts))
        exact ⟨left, hstep.trans hleft, hend⟩
    · next hl =>
      rw [if_neg hl]
      obtain ⟨left, hleft, hend⟩ := runScript_composes onTime rest _
      exact ⟨left, hstep.trans hleft, hend⟩
  | _ => exact ⟨[], hstep, fun _ => rfl⟩
termination_by structural i

/-- A run is made of steps; what is left of the script is what a line that was stopped did not come
to. -/
theorem runScript_composes (s : List Instr) (rest : Script) (d : Draft) :
    ∃ left, Composes (s ++ rest) d (left ++ rest) (runScript s d) ∧
      ((runScript s d).trail.goesOn → left = []) := by
  cases s with
  | nil => exact ⟨[], .refl, fun _ => rfl⟩
  | cons i more =>
    by_cases hgo : d.trail.goesOn
    · rw [runScript, if_pos hgo]
      obtain ⟨left, hleft, hend⟩ := Instr.run_composes i (more ++ rest) d hgo
      by_cases hgo' : (i.run d).trail.goesOn
      · obtain rfl := hend hgo'
        obtain ⟨left, hmore, hend⟩ := runScript_composes more rest (i.run d)
        exact ⟨left, hleft.trans hmore, hend⟩
      · rw [runScript_of_not_goesOn hgo']
        exact ⟨left ++ more, by simpa using hleft, fun h => absurd h hgo'⟩
    · rw [runScript_of_not_goesOn hgo]
      exact ⟨i :: more, .refl, fun h => absurd h hgo⟩
termination_by structural s

end

/-- A number of steps, or fewer if the line comes to its end or is stopped. -/
def Script.after : Nat → Script → Draft → Script × Draft
  | 0, s, d => (s, d)
  | _ + 1, [], d => ([], d)
  | n + 1, i :: rest, d =>
    if d.trail.goesOn then Script.after n (i.advance rest d).1 (i.advance rest d).2
    else (i :: rest, d)

theorem composes_after (n : Nat) (s : Script) (d : Draft) :
    Composes s d (s.after n d).1 (s.after n d).2 := by
  induction n generalizing s d with
  | zero => exact .refl
  | succ n ih =>
    cases s with
    | nil => exact .refl
    | cons i rest =>
      rw [Script.after]
      split
      · next hgo => exact (Composes.refl.step hgo).trans (ih _ _)
      · exact .refl

theorem Composes.to_head {s left : Script} {d e : Draft} {i : Instr} (h : Composes s d left e)
    (hi : left.head? = some i) : Composes s d (i :: left.tail) e := by
  obtain ⟨rest, rfl⟩ := List.head?_eq_some_iff.1 hi
  exact h

/-- Steps lead to the same end. -/
theorem Composes.runScript_eq {s rest : Script} {d e : Draft} (h : Composes s d rest e) :
    runScript rest e = runScript s d := by
  induction h with
  | refl => rfl
  | step _ hgo ih => exact (runScript_advance _ _ hgo).trans ih

section Runs

variable {K : List Act → Prop} {V : List Act → Script → Prop}

theorem Instr.advance_runs {i : Instr} {rest : Script} {d : Draft} (hi : i.Runs K V)
    (hrest : Script.Runs K V rest) : Script.Runs K V (i.advance rest d).1 := by
  cases i with
  | block body => exact Script.runs_append.2 ⟨hi, hrest⟩
  | later made => exact ⟨hi, hrest⟩
  | guarded acts onTime tooLate =>
    obtain ⟨-, honTime, htooLate⟩ := hi
    simp only [Instr.advance]
    split
    · refine Script.runs_append.2 ⟨?_, hrest⟩
      split
      · exact honTime
      · exact htooLate
    · exact Script.runs_append.2 ⟨honTime, hrest⟩
  | _ => exact hrest

/-- What is left of a script runs no code that the script does not run. -/
theorem Composes.runs {s rest : Script} {d e : Draft} (h : Composes s d rest e)
    (hs : Script.Runs K V s) : Script.Runs K V rest := by
  induction h with
  | refl => exact hs
  | step _ _ ih => exact Instr.advance_runs ih.1 ih.2

end Runs

/-! ### Writing -/

namespace Draft

/-- From `d` to `e` the line has written something, or waits for the lock to do so: nothing but the
lock and the scratch space is touched, and code of callers is not run. -/
structure Writes (d e : Draft) : Prop where
  thread : e.thread = d.thread
  behind : e.behind = d.behind
  locked : d.locked → e.locked
  /-- What was handed on went to the destination, as the events tell. -/
  events : ∃ new, e.trail.latest = new ++ d.trail.latest ∧ (∀ a ∈ new, a.isCalled = false) ∧
    e.handed = (Logline.handings new).map Prod.snd ++ d.handed
  /-- Nothing is handed on without the lock. -/
  handed : e.locked = false → e.handed = d.handed
  /-- The lock is taken by a thread that does not have it. -/
  once : e.locked → d.locked ∨ d.thread.holdsLock = false

namespace Writes

variable {d e f : Draft}

/-- Neither an event nor anything handed on. -/
theorem of_eq (hthread : e.thread = d.thread) (hbehind : e.behind = d.behind)
    (hlocked : e.locked = d.locked) (htrail : e.trail.latest = d.trail.latest)
    (hhanded : e.handed = d.handed) : d.Writes e :=
  ⟨hthread, hbehind, fun h => hlocked.trans h,
    ⟨[], htrail, fun _ h => absurd h List.not_mem_nil, hhanded⟩, fun _ => hhanded,
    fun h => .inl (hlocked.symm.trans h)⟩

theorem refl (d : Draft) : d.Writes d := of_eq rfl rfl rfl rfl rfl

theorem trans (h : d.Writes e) (h' : e.Writes f) : d.Writes f := by
  obtain ⟨a, ha, hquiet, hhanded⟩ := h.events
  obtain ⟨b, hb, hquiet', hhanded'⟩ := h'.events
  refine ⟨h'.thread.trans h.thread, h'.behind.trans h.behind, h'.locked ∘ h.locked,
    ⟨b ++ a, by rw [hb, ha, List.append_assoc], fun x hx => ?_, ?_⟩, fun hf => ?_,
    fun hf => (h'.once hf).elim h.once fun hfree => .inr (h.thread ▸ hfree)⟩
  · exact (List.mem_append.1 hx).elim (hquiet' x) (hquiet x)
  · simp [hhanded', hhanded, Logline.handings]
  · have he : e.locked = false := Bool.eq_false_iff.2 fun he => by simp [h'.locked he] at hf
    exact (h'.handed hf).trans (h.handed he)

end Writes

theorem handOn_writes {d : Draft} (h : d.locked ∨ ¬ d.trail.goesOn) (bytes : Text.Bytes) :
    d.Writes (d.handOn bytes) := by
  by_cases hgo : d.trail.goesOn
  · have hl : d.locked := h.resolve_right (not_not_intro hgo)
    rw [handOn_of_goesOn hgo]
    exact ⟨rfl, rfl, id, ⟨[_], rfl, by simp [Event.isCalled], rfl⟩,
      fun hf => absurd hl (by simpa using hf), .inl⟩
  · rw [handOn_of_not_goesOn hgo]
    exact .refl d

theorem flush_writes {d : Draft} (h : d.locked ∨ ¬ d.trail.goesOn) : d.Writes d.flush := by
  unfold flush
  split
  · exact .refl d
  · exact (handOn_writes h d.scratch).trans (.of_eq rfl rfl rfl rfl rfl)

/-- A line has the lock after it asked for it, unless it waits. -/
theorem locked_lock (d : Draft) : d.lock.locked ∨ ¬ d.lock.trail.goesOn := by
  unfold lock
  split
  · next hl => exact .inl (by simpa using hl)
  split
  · exact .inr (by simp [Trail.not_goesOn_stopWith])
  · exact .inl (by simp)

theorem lock_writes (d : Draft) : d.Writes d.lock := by
  unfold lock
  split
  · next hl => exact flush_writes (.inl hl)
  · next hl =>
    split
    · refine .of_eq rfl rfl rfl ?_ rfl
      simp only [Trail.stopWith]
      split <;> rfl
    · next hfree =>
      have htaken : d.Writes { d with locked := true, trail := d.trail.add .locked } := by
        refine ⟨rfl, rfl, fun _ => rfl, ?_, fun h => Bool.noConfusion h,
          fun _ => .inr (by simpa using hfree)⟩
        simp only [Trail.add]
        split
        · exact ⟨[.locked], rfl, by simp [Event.isCalled], rfl⟩
        · exact ⟨[], rfl, fun _ h => absurd h List.not_mem_nil, rfl⟩
      exact htaken.trans (flush_writes (.inl rfl))

theorem write_writes (d : Draft) (chunk : Text.Bytes) : d.Writes (d.write chunk) := by
  have hgather : ∀ e : Draft, e.Writes
      { e with gathered := chunk :: e.gathered, used := e.used + chunk.length } := fun e =>
    .of_eq rfl rfl rfl rfl rfl
  unfold write
  by_cases hbig : scratchSize < chunk.length
  · have hfull : scratchSize < d.used + chunk.length := by omega
    simp only [hbig, hfull, if_true]
    exact (lock_writes d).trans (handOn_writes (locked_lock d) chunk)
  · simp only [hbig, if_false]
    split
    · exact (lock_writes d).trans (hgather _)
    · exact hgather d

theorem reserve_writes (d : Draft) (n : Nat) : d.Writes (d.reserve n) := by
  unfold reserve
  split
  · exact lock_writes d
  · exact .refl d

/-- A chunk larger than the scratch space passes it by. -/
theorem write_of_long {chunk : Text.Bytes} (h : scratchSize < chunk.length) (d : Draft) :
    d.write chunk = d.lock.handOn chunk := by
  have hfull : scratchSize < d.used + chunk.length := by omega
  simp only [write, h, hfull, if_true]

/-! Writing stops a line only where it waits for the lock, and then it does not get it. -/

theorem goesOn_handOn {d : Draft} (hgo : d.trail.goesOn) (bytes : Text.Bytes) :
    (d.handOn bytes).trail.goesOn := by
  rwa [handOn_of_goesOn hgo]

theorem goesOn_lock {d : Draft} (hgo : d.trail.goesOn) (h : d.lock.locked) :
    d.lock.trail.goesOn := by
  unfold lock at h ⊢
  split
  · exact goesOn_flush hgo
  · next hl =>
    split
    · next hw => simp [hl, hw] at h
    · exact goesOn_flush (by simpa using hgo)

theorem goesOn_reserve {d : Draft} (hgo : d.trail.goesOn) (n : Nat) (h : (d.reserve n).locked) :
    (d.reserve n).trail.goesOn := by
  unfold reserve at h ⊢
  split
  · next hfull => exact goesOn_lock hgo (by simpa [hfull] using h)
  · exact hgo

theorem goesOn_write {d : Draft} (hgo : d.trail.goesOn) (chunk : Text.Bytes)
    (h : (d.write chunk).locked) : (d.write chunk).trail.goesOn := by
  unfold write at h ⊢
  by_cases hbig : scratchSize < chunk.length
  · have hfull : scratchSize < d.used + chunk.length := by omega
    simp only [hbig, hfull, if_true, locked_handOn] at h ⊢
    exact goesOn_handOn (goesOn_lock hgo h) chunk
  · simp only [hbig, if_false] at h ⊢
    split
    · next hfull => exact goesOn_lock hgo (by simpa [hfull] using h)
    · exact hgo

end Draft

/-- Some steps, and one that writes a long chunk. -/
theorem composes_past_long (n : Nat) {s : Script} {d : Draft} {chunk : Text.Bytes}
    (h : scratchSize < chunk.length) (hs : (s.after n d).1.head? = some (.chunk chunk))
    (hgo : (s.after n d).2.trail.goesOn) :
    Composes s d (s.after n d).1.tail ((s.after n d).2.lock.handOn chunk) := by
  rw [← Draft.write_of_long h]
  exact ((composes_after n s d).to_head hs).step hgo

namespace Instr

/-- Asks for the text of a key. -/
def isDirect : Instr → Bool
  | .direct _ => true
  | _ => false

def isGuarded : Instr → Bool
  | .guarded _ _ _ => true
  | _ => false

/-- A step that does not run code writes, if it does anything. -/
theorem advance_writes {i : Instr} (hd : i.isDirect = false) (hg : i.isGuarded = false)
    (rest : Script) (d : Draft) : d.Writes (i.advance rest d).2 := by
  cases i with
  | chunk bytes => exact Draft.write_writes d bytes
  | reserve n => exact Draft.reserve_writes d n
  | separate mark =>
    simp only [advance, run]
    split
    · exact Draft.write_writes d mark
    · exact .refl d
  | owe owed =>
    exact .of_eq rfl rfl rfl rfl rfl
  | block body => exact .refl d
  | later made => exact .refl d
  | direct acts => exact Bool.noConfusion hd
  | guarded acts onTime tooLate => exact Bool.noConfusion hg

end Instr

/-! ### Helpers -/

/-- What a helper has done when a line goes on without it, or with its answer, is to start code, and
it did so itself. -/
theorem runHelper_early (acts : List Act) :
    ∀ e ∈ (runHelper acts).early, ∃ label, e = .called label .helper := by
  induction acts with
  | nil => exact fun e he => absurd he List.not_mem_nil
  | cons a rest ih =>
    cases a with
    | called label =>
      intro e he
      rcases List.mem_cons.1 he with rfl | he
      · exact ⟨label, rfl⟩
      · exact ih e he
    | _ => exact fun e he => absurd he List.not_mem_nil

/-- A helper answers in time if its code does nothing but start, and only then: a line of its own has
to wait for the lock, and a panic leaves no answer. -/
theorem answered_iff (acts : List Act) :
    (runHelper acts).answered = true ↔ ∀ a ∈ acts, ∃ label, a = .called label := by
  induction acts with
  | nil => simp [runHelper, Helped.done]
  | cons a rest ih => cases a <;> simp [runHelper, Helped.late, Helped.calling, ih]

theorem foldl_add_eq {events : List Event} {t : Trail} (h : t.goesOn) :
    events.foldl Trail.add t = { t with latest := events.reverse ++ t.latest } := by
  induction events generalizing t with
  | nil => rfl
  | cons e rest ih =>
    rw [List.foldl_cons, Trail.add, if_pos h, ih (by simpa using h)]
    simp [Trail.push]

/-! ### Under the lock -/

/-- A line that has the lock after a step goes on, unless the step asks for the text of a key. -/
theorem Instr.advance_goesOn {i : Instr} {d : Draft} (hgo : d.trail.goesOn)
    (hi : i.isDirect = false) (rest : Script) (h : (i.advance rest d).2.locked) :
    (i.advance rest d).2.trail.goesOn := by
  cases i with
  | chunk bytes => exact Draft.goesOn_write hgo bytes h
  | reserve n => exact Draft.goesOn_reserve hgo n h
  | separate mark =>
    simp only [advance, run] at h ⊢
    split
    · next ho => exact Draft.goesOn_write hgo mark (by simpa [ho] using h)
    · exact hgo
  | owe owed => exact hgo
  | block body => exact hgo
  | later made => exact hgo
  | direct acts => exact Bool.noConfusion hi
  | guarded acts onTime tooLate =>
    simp only [advance] at h ⊢
    split at h
    · next hl =>
      rw [if_pos hl]
      simpa [Draft.helped, Trail.goesOn] using hgo
    · next hl => exact absurd h hl

/-- While a line has the lock, a step keeps it and the line goes on, unless the step asks for the text
of a key. Code that is run meanwhile runs on a helper. -/
theorem Instr.advance_locked {i : Instr} {d : Draft} (hgo : d.trail.goesOn) (hl : d.locked)
    (hi : i.isDirect = false) (rest : Script) :
    (i.advance rest d).2.trail.goesOn ∧ (i.advance rest d).2.locked ∧
      ∃ new, (i.advance rest d).2.trail.latest = new ++ d.trail.latest ∧
        ∀ label place, .called label place ∈ new → place = .helper := by
  cases hg : i.isGuarded with
  | false =>
    have hw := Instr.advance_writes hi hg rest d
    obtain ⟨new, hnew, hquiet, -⟩ := hw.events
    refine ⟨Instr.advance_goesOn hgo hi rest (hw.locked hl), hw.locked hl, new, hnew,
      fun label place hmem => ?_⟩
    exact absurd (hquiet _ hmem) (by simp [Event.isCalled])
  | true =>
    cases i with
    | guarded acts onTime tooLate =>
      have hd : (Instr.guarded acts onTime tooLate).advance rest d =
          ((if (runHelper acts).answered then onTime else tooLate) ++ rest,
            d.helped (runHelper acts)) := if_pos hl
      have htrail : (d.helped (runHelper acts)).trail =
          { d.trail with latest := (runHelper acts).early.reverse ++ d.trail.latest } :=
        foldl_add_eq hgo
      rw [hd]
      refine ⟨by rw [htrail]; exact hgo, hl, _, by rw [htrail], fun label place hmem => ?_⟩
      obtain ⟨_, heq⟩ := runHelper_early acts _ (List.mem_reverse.1 hmem)
      exact (Event.called.inj heq).2
    | _ => exact Bool.noConfusion hg

/-! ### Without the lock -/

/-- A line that does not have the lock has handed on nothing. -/
def Draft.Unhanded (d : Draft) : Prop := d.locked = false → d.handed = []

theorem Instr.advance_unhanded {i : Instr} {d : Draft} (h : d.Unhanded) (rest : Script) :
    (i.advance rest d).2.Unhanded := by
  intro hf
  have hwrites : i.isDirect = false → i.isGuarded = false →
      (i.advance rest d).2.handed = [] := fun hd hg => by
    have hw := Instr.advance_writes hd hg rest d
    have hl : d.locked = false := Bool.eq_false_iff.2 fun hl => by simp [hw.locked hl] at hf
    exact (hw.handed hf).trans (h hl)
  cases i with
  | direct acts => exact h hf
  | guarded acts onTime tooLate =>
    by_cases hl : d.locked
    · have hd : ((Instr.guarded acts onTime tooLate).advance rest d).2 =
          d.helped (runHelper acts) := by simp [Instr.advance, hl]
      rw [hd] at hf
      exact absurd hl (by simpa [Draft.helped] using hf)
    · have hd : ((Instr.guarded acts onTime tooLate).advance rest d).2 =
          { d with trail := runActs acts d.caller d.trail } := by simp [Instr.advance, hl]
      rw [hd] at hf ⊢
      exact h hf
  | _ => exact hwrites rfl rfl

theorem Composes.unhanded {s rest : Script} {d e : Draft} (h : Composes s d rest e)
    (hd : d.Unhanded) : e.Unhanded := by
  induction h with
  | refl => exact hd
  | step _ _ ih => exact Instr.advance_unhanded ih _

/-- A line has taken the lock only if its thread did not have it. -/
def Draft.Once (d : Draft) : Prop := d.locked → d.thread.holdsLock = false

theorem Instr.advance_once {i : Instr} {d : Draft} (h : d.Once) (rest : Script) :
    (i.advance rest d).2.Once := by
  have hwrites : i.isDirect = false → i.isGuarded = false →
      (i.advance rest d).2.Once := fun hd hg hl => by
    have hw := Instr.advance_writes hd hg rest d
    rw [hw.thread]
    exact (hw.once hl).elim h id
  cases i with
  | direct acts => exact h
  | guarded acts onTime tooLate =>
    simp only [Instr.advance]
    split
    · exact h
    · exact h
  | _ => exact hwrites rfl rfl

theorem Composes.once {s rest : Script} {d e : Draft} (h : Composes s d rest e) (hd : d.Once) :
    e.Once := by
  induction h with
  | refl => exact hd
  | step _ _ ih => exact Instr.advance_once ih _

end Logline
