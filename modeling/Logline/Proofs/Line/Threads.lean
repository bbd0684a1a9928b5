import Mathlib.Logic.Function.Basic
import Mathlib.Logic.Relation
import Logline.Proofs.Line.Turns

/-!
Threads that write lines at the same time. Each composes its lines for itself; what others can see
of it happens event by event, in any order that the output lock permits. Whatever the order, the
calls of one line follow each other at once and hand on the line, and those of one thread come in the
order of its lines.

The order of a line's events (`stage?`) carries the proof. A line that has not been locked hands on
only once, and one that has been is the only one that hands on anything (`World.Sound`).
-/

namespace Logline

/-! ### The output lock -/

/-- What a thread has of the output lock. -/
inductive Hold where
  | nothing
  | shared
  | exclusive
deriving DecidableEq, Repr

namespace Hold

def after : Hold → Event → Hold
  | _, .locked => .exclusive
  | _, .shared => .shared
  | _, .unlocked => .nothing
  | _, .unshared => .nothing
  | h, _ => h

theorem after_eq_exclusive {h : Hold} {e : Event} (he : h.after e = .exclusive) :
    e = .locked ∨ h = .exclusive := by
  cases e <;> simp_all [after]

end Hold

/-- What a line has of the lock at a stage. -/
def Stage.hold : Stage → Hold
  | .alone => .exclusive
  | .together => .shared
  | .handed => .shared
  | _ => .nothing

theorem hold_after {e : Event} {s after : Stage} (h : e.next? s = some after) :
    s.hold.after e = after.hold := by
  cases e <;> cases s <;> simp_all [Event.next?, Stage.hold, Hold.after] <;> subst h <;> rfl

/-- Only a line that has the lock hands on anything. -/
theorem stage_of_handing {e : Event} {s after : Stage} (h : e.next? s = some after)
    (he : e.handing?.isSome) : s = .alone ∨ s = .together := by
  cases e <;> cases s <;> simp_all [Event.next?, Event.handing?]

section Threads

variable {ι : Type} [DecidableEq ι]

/-- Whether an event has to wait for the lock. -/
def permits (lock : ι → Hold) : Event → Prop
  | .locked => ∀ i, lock i = .nothing
  | .shared => ∀ i, lock i ≠ .exclusive
  | _ => True

/-- The elements that satisfy `p` follow each other at once. -/
def Consecutive {α : Type} (p : α → Bool) (l : List α) : Prop :=
  ∃ after mine before, l = after ++ mine ++ before ∧ (∀ c ∈ mine, p c) ∧
    ∀ c ∈ after ++ before, ¬ p c

theorem filter_eq_mine {α : Type} {p : α → Bool} {after mine before : List α}
    (hmine : ∀ c ∈ mine, p c) (hothers : ∀ c ∈ after ++ before, ¬ p c) :
    (after ++ mine ++ before).filter p = mine := by
  have hnone : ∀ l ⊆ after ++ before, l.filter p = [] := fun l hl =>
    List.filter_eq_nil_iff.2 fun c hc => hothers c (hl hc)
  rw [List.filter_append, List.filter_append, hnone after (by simp), hnone before (by simp),
    List.filter_eq_self.2 hmine, List.nil_append, List.append_nil]

theorem Consecutive.cons {α : Type} {p : α → Bool} {l : List α} {c : α} (h : Consecutive p l)
    (hc : p c → (∀ b ∈ l, ¬ p b) ∨ ∃ b ∈ l.head?, p b) : Consecutive p (c :: l) := by
  obtain ⟨after, mine, before, rfl, hmine, hothers⟩ := h
  by_cases hp : p c
  · rcases hc hp with hnone | ⟨b, hhead, hb⟩
    · exact ⟨[], [c], _, rfl, by simpa using hp, hnone⟩
    · -- The first element before `c` is among those that satisfy `p`, so nothing comes between.
      have hnil : after = [] := by
        cases after with
        | nil => rfl
        | cons a rest =>
          obtain rfl : a = b := by simpa using hhead
          exact absurd hb (hothers a (by simp))
      subst hnil
      exact ⟨[], c :: mine, before, rfl, by simpa [hp] using hmine, by simpa using hothers⟩
  · refine ⟨c :: after, mine, before, rfl, hmine, ?_⟩
    simpa [hp] using hothers

/-! ### Threads and what they write -/

/-- Threads, and the lines each of them is to write. -/
structure Plan (ι : Type) where
  thread : ι → Thread
  lines : ι → List (Route × Script)

namespace Plan

/-- A line that is written alone, when its script has run as far as nothing stops it. -/
def draft (plan : Plan ι) (i : ι) (line : Route × Script) : Draft :=
  runScript line.2 (.start (plan.thread i) line.1 .empty)

/-- What a line hands on when it is written alone, the latest first. -/
def handed (plan : Plan ι) (i : ι) (k : Nat) : List (Destination × Text.Bytes) :=
  match (plan.lines i)[k]? with
  | some line => (plan.draft i line).closed.handed.map fun bytes => (line.1.destination, bytes)
  | none => []

end Plan

/-- What a thread is at. -/
inductive Phase where
  | between
  | composing (rest : Script) (d : Draft)
  | closing (t : Trail)

/-- The events a thread has come to in its line, the latest first. -/
def Phase.latest : Phase → List Event
  | .between => []
  | .composing _ d => d.trail.latest
  | .closing t => t.latest

/-- `past` counts the lines a thread has finished or given up; of the events of its line it has `done`
some, the latest first. -/
structure Worker where
  past : Nat
  phase : Phase
  done : List Event

/-- A destination is handed bytes of a line. -/
structure Call (ι : Type) where
  thread : ι
  line : Nat
  destination : Destination
  bytes : Text.Bytes

def Call.isOf (i : ι) (k : Nat) (c : Call ι) : Bool := c.thread = i && c.line = k

theorem Call.isOf_iff {i : ι} {k : Nat} {c : Call ι} :
    c.isOf i k ↔ c.thread = i ∧ c.line = k := by
  simp [Call.isOf]

/-- The calls of all threads are kept with the latest first. -/
structure World (ι : Type) where
  worker : ι → Worker
  lock : ι → Hold
  latest : List (Call ι)

namespace World

def initial : World ι := ⟨fun _ => ⟨0, .between, []⟩, fun _ => .nothing, []⟩

def calls (w : World ι) : List (Call ι) := w.latest.reverse

/-- What a line has handed on, the latest first. -/
def handed (w : World ι) (i : ι) (k : Nat) : List (Destination × Text.Bytes) :=
  (w.latest.filter (Call.isOf i k)).map fun c => (c.destination, c.bytes)

def set (w : World ι) (i : ι) (x : Worker) : World ι :=
  { w with worker := Function.update w.worker i x }

/-- A thread does the next event of its line. -/
def perform (w : World ι) (i : ι) (e : Event) : World ι where
  worker := Function.update w.worker i { w.worker i with done := e :: (w.worker i).done }
  lock := Function.update w.lock i ((w.lock i).after e)
  latest := (e.handing?.map fun h => ⟨i, (w.worker i).past, h.1, h.2⟩).toList ++ w.latest

section Lemmas

variable (w : World ι) {i j : ι} (x : Worker) {e : Event}

@[simp] theorem worker_set_self : (w.set i x).worker i = x := Function.update_self ..

@[simp] theorem worker_set_of_ne (h : j ≠ i) : (w.set i x).worker j = w.worker j :=
  Function.update_of_ne h ..

@[simp] theorem handed_set : (w.set i x).handed = w.handed := rfl

@[simp] theorem worker_perform_self :
    (w.perform i e).worker i = { w.worker i with done := e :: (w.worker i).done } :=
  Function.update_self ..

@[simp] theorem worker_perform_of_ne (h : j ≠ i) : (w.perform i e).worker j = w.worker j :=
  Function.update_of_ne h ..

@[simp] theorem lock_perform_self : (w.perform i e).lock i = (w.lock i).after e :=
  Function.update_self ..

@[simp] theorem lock_perform_of_ne (h : j ≠ i) : (w.perform i e).lock j = w.lock j :=
  Function.update_of_ne h ..

theorem handed_perform_self : (w.perform i e).handed i (w.worker i).past =
    e.handing?.toList ++ w.handed i (w.worker i).past := by
  cases h : e.handing? <;> simp [handed, perform, h, Call.isOf]

/-- Only in the line of the thread that goes on something is handed on. -/
theorem handed_perform_of_ne {k : Nat} (h : ¬ (i = j ∧ (w.worker i).past = k)) :
    (w.perform i e).handed j k = w.handed j k := by
  cases he : e.handing? <;> simp [handed, perform, he, Call.isOf, h]

end Lemmas

end World

/-- One thread goes on: it starts its next line, does a step for itself, does what others can see, or
comes to the end of its line. A thread may go on after a line that was given up. -/
inductive Step (plan : Plan ι) : World ι → World ι → Prop
  | start {w : World ι} (i : ι) {line : Route × Script} (hphase : (w.worker i).phase = .between)
      (hline : (plan.lines i)[(w.worker i).past]? = some line) :
      Step plan w (w.set i { w.worker i with
        phase := .composing line.2 (.start (plan.thread i) line.1 .empty) })
  | advance {w : World ι} (i : ι) {instr : Instr} {rest : Script} {d : Draft}
      (hphase : (w.worker i).phase = .composing (instr :: rest) d) (hgo : d.trail.goesOn)
      (hdone : (w.worker i).done = d.trail.latest) :
      Step plan w (w.set i { w.worker i with
        phase := .composing (instr.advance rest d).1 (instr.advance rest d).2 })
  | close {w : World ι} (i : ι) {rest : Script} {d : Draft}
      (hphase : (w.worker i).phase = .composing rest d) (hend : rest = [] ∨ ¬ d.trail.goesOn)
      (hdone : (w.worker i).done = d.trail.latest) :
      Step plan w (w.set i { w.worker i with phase := .closing d.finish })
  | perform {w : World ι} (i : ι) (e : Event)
      (hnext : e :: (w.worker i).done <:+ (w.worker i).phase.latest)
      (hlock : permits w.lock e) : Step plan w (w.perform i e)
  | leave {w : World ι} (i : ι) {t : Trail} (hphase : (w.worker i).phase = .closing t)
      (hdone : (w.worker i).done = t.latest) :
      Step plan w (w.set i ⟨(w.worker i).past + 1, .between, []⟩)

/-- A world that threads may come to from the start. -/
def Reached (plan : Plan ι) (w : World ι) : Prop :=
  Relation.ReflTransGen (Step plan) World.initial w

/-! ### A thread by itself -/

/-- A thread is where it comes to if it writes its line alone, and has done nothing it has not come
to. -/
structure Worker.Sound (thread : Thread) (lines : List (Route × Script)) (x : Worker) : Prop where
  done : x.done <:+ x.phase.latest
  line : match x.phase with
    | .between => True
    | .composing rest d => ∃ line, lines[x.past]? = some line ∧ Script.Tame .unlogged rest ∧
        runScript rest d = runScript line.2 (.start thread line.1 .empty) ∧ d.InTurn ∧
          d.route = line.1
    | .closing t => ∃ line, lines[x.past]? = some line ∧
        let d := runScript line.2 (.start thread line.1 .empty)
        d.InTurn ∧ d.route = line.1 ∧ t = d.finish

namespace Worker.Sound

variable {thread : Thread} {lines : List (Route × Script)} {x : Worker}

/-- What a thread has come to is in order. -/
theorem order (h : x.Sound thread lines) : ∃ s, stage? x.phase.latest = some s := by
  obtain ⟨past, phase, done⟩ := x
  obtain ⟨-, hline⟩ := h
  cases phase with
  | between => exact ⟨.fresh, rfl⟩
  | composing rest d =>
    obtain ⟨line, -, -, -, hturn, -⟩ := hline
    exact ⟨_, hturn.stage⟩
  | closing t =>
    obtain ⟨line, -, hturn, -, rfl⟩ := hline
    obtain ⟨-, hstage, -⟩ := Draft.finish_turn hturn
    exact hstage.elim (fun hs => ⟨_, hs⟩) fun hs => ⟨_, hs⟩

theorem start {line : Route × Script} (h : x.Sound thread lines)
    (hfree : thread.holdsLock = false) (hbody : Script.Tame .unlogged line.2)
    (hphase : x.phase = .between) (hline : lines[x.past]? = some line) :
    Worker.Sound thread lines
      { x with phase := .composing line.2 (.start thread line.1 .empty) } := by
  refine ⟨?_, line, hline, hbody, rfl, Draft.inTurn_start hfree line.1, rfl⟩
  simpa [hphase, Phase.latest, Draft.start, Trail.empty] using h.done

theorem advance {i : Instr} {rest : Script} {d : Draft} (h : x.Sound thread lines)
    (hphase : x.phase = .composing (i :: rest) d) (hgo : d.trail.goesOn) :
    Worker.Sound thread lines
      { x with phase := .composing (i.advance rest d).1 (i.advance rest d).2 } := by
  obtain ⟨past, phase, done⟩ := x
  obtain rfl : phase = _ := hphase
  obtain ⟨hdone, line, hline, ⟨hi, hrest⟩, hrun, hturn, hroute⟩ := h
  obtain ⟨hon, hnext⟩ := Instr.advance_onward hgo hturn.free hi hrest
  exact ⟨hdone.trans hon.suffix, line, hline, hnext, (runScript_advance i rest hgo).trans hrun,
    hon.inTurn hturn, hon.route.trans hroute⟩

theorem close {rest : Script} {d : Draft} (h : x.Sound thread lines)
    (hphase : x.phase = .composing rest d) (hend : rest = [] ∨ ¬ d.trail.goesOn) :
    Worker.Sound thread lines { x with phase := .closing d.finish } := by
  obtain ⟨past, phase, done⟩ := x
  obtain rfl : phase = _ := hphase
  obtain ⟨hdone, line, hline, -, hrun, hturn, hroute⟩ := h
  have hd : d = runScript line.2 (.start thread line.1 .empty) := by
    rw [← hrun]
    rcases hend with rfl | hstop
    · rfl
    · exact (runScript_of_not_goesOn hstop rest).symm
  obtain ⟨hsuffix, -, -⟩ := Draft.finish_turn hturn
  refine ⟨hdone.trans hsuffix, line, hline, ?_⟩
  rw [← hd]
  exact ⟨hturn, hroute, rfl⟩

theorem perform {e : Event} (h : x.Sound thread lines) (hnext : e :: x.done <:+ x.phase.latest) :
    Worker.Sound thread lines { x with done := e :: x.done } := ⟨hnext, h.line⟩

theorem leave (n : Nat) : Worker.Sound thread lines ⟨n, .between, []⟩ :=
  ⟨List.suffix_rfl, trivial⟩

end Worker.Sound

/-! ### All threads -/

/-- What threads have of the lock goes with the stages of their lines, and nobody has anything of it
while one has it alone. Each line has handed on what it handed on alone, up to where it is, in calls
that follow each other at once. -/
structure World.Sound (plan : Plan ι) (w : World ι) : Prop where
  worker : ∀ i, (w.worker i).Sound (plan.thread i) (plan.lines i)
  lock : ∀ i s, stage? (w.worker i).done = some s → w.lock i = s.hold
  alone : ∀ i j, i ≠ j → w.lock i = .exclusive → w.lock j = .nothing
  past : ∀ i k, k < (w.worker i).past → w.handed i k = plan.handed i k
  present : ∀ i, w.handed i (w.worker i).past = handings (w.worker i).done
  future : ∀ i k, (w.worker i).past < k → w.handed i k = []
  /-- Who has the lock alone was the last to hand on anything, if it has at all. -/
  last : ∀ i, w.lock i = .exclusive → w.handed i (w.worker i).past = [] ∨
    ∃ c ∈ w.latest.head?, c.isOf i (w.worker i).past
  whole : ∀ i k, Consecutive (Call.isOf i k) w.latest
  order : w.latest.Pairwise fun c b => b.thread = c.thread → b.line ≤ c.line

namespace World

variable {plan : Plan ι} {w : World ι}

theorem sound_initial (plan : Plan ι) : (initial : World ι).Sound plan where
  worker _ := ⟨List.suffix_rfl, trivial⟩
  lock _ s hs := by
    obtain rfl : Stage.fresh = s := Option.some.inj hs
    rfl
  alone _ _ _ h := by simp [initial] at h
  past _ _ h := absurd h (Nat.not_lt_zero _)
  present _ := rfl
  future _ _ _ := rfl
  last _ h := by simp [initial] at h
  whole _ _ := ⟨[], [], [], rfl, by simp, by simp⟩
  order := .nil

/-- What a thread does for itself changes nothing for the others. -/
theorem Sound.set {i : ι} {x : Worker} (h : w.Sound plan)
    (hx : x.Sound (plan.thread i) (plan.lines i)) (hpast : x.past = (w.worker i).past)
    (hdone : x.done = (w.worker i).done) : (w.set i x).Sound plan := by
  have hworker : ∀ j, ((w.set i x).worker j).past = (w.worker j).past ∧
      ((w.set i x).worker j).done = (w.worker j).done := by
    intro j
    by_cases hj : j = i
    · subst hj
      simp [hpast, hdone]
    · simp [hj]
  refine ⟨fun j => ?_, fun j s hs => h.lock j s ((hworker j).2 ▸ hs), h.alone,
    fun j k hk => h.past j k ((hworker j).1 ▸ hk), fun j => ?_,
    fun j k hk => h.future j k ((hworker j).1 ▸ hk), fun j hj => ?_, h.whole, h.order⟩
  · by_cases hj : j = i
    · subst hj
      simpa using hx
    · simpa [hj] using h.worker j
  · rw [(hworker j).1, (hworker j).2]
    exact h.present j
  · rw [(hworker j).1]
    exact h.last j hj

/-- A thread that comes to the end of a line has handed on what it would have alone. -/
theorem Sound.leave {i : ι} {t : Trail} (h : w.Sound plan)
    (hphase : (w.worker i).phase = .closing t) (hdone : (w.worker i).done = t.latest) :
    (w.set i ⟨(w.worker i).past + 1, .between, []⟩).Sound plan := by
  have hline := (h.worker i).line
  rw [hphase] at hline
  obtain ⟨line, hline, hturn, hroute, rfl⟩ := hline
  obtain ⟨-, hover, hhandings⟩ := Draft.finish_turn hturn
  have hnothing : w.lock i = .nothing := by
    rw [← hdone] at hover
    rcases hover with hs | hs <;> exact h.lock i _ hs
  have hpresent : w.handed i (w.worker i).past = plan.handed i (w.worker i).past := by
    rw [h.present i, hdone, hhandings, hroute, Plan.handed, hline]
    rfl
  refine ⟨fun j => ?_, fun j s hs => ?_, h.alone, fun j k hk => ?_, fun j => ?_, fun j k hk => ?_,
    fun j hj => ?_, h.whole, h.order⟩ <;> by_cases hji : j = i
  · subst hji
    simpa using Worker.Sound.leave _
  · simpa [hji] using h.worker j
  · subst hji
    rw [worker_set_self] at hs
    obtain rfl : Stage.fresh = s := Option.some.inj hs
    exact hnothing
  · exact h.lock j s (by simpa [hji] using hs)
  · subst hji
    rw [worker_set_self] at hk
    rcases Nat.lt_succ_iff_lt_or_eq.1 hk with hlt | rfl
    · exact h.past j k hlt
    · exact hpresent
  · exact h.past j k (by simpa [hji] using hk)
  · subst hji
    simpa [Logline.handings] using h.future j _ (Nat.lt_succ_self _)
  · simpa [hji] using h.present j
  · subst hji
    rw [worker_set_self] at hk
    exact h.future j k (Nat.lt_of_succ_lt hk)
  · exact h.future j k (by simpa [hji] using hk)
  · subst hji
    exact absurd (hnothing.symm.trans hj) (by simp)
  · have hlast := h.last j hj
    rwa [worker_set_of_ne _ _ hji]

section Performing

variable {i : ι} {e : Event}

/-- The stages of a line before and after its next event. -/
theorem Sound.next (h : w.Sound plan)
    (hnext : e :: (w.worker i).done <:+ (w.worker i).phase.latest) :
    ∃ s after, stage? (w.worker i).done = some s ∧ e.next? s = some after ∧
      stage? (e :: (w.worker i).done) = some after ∧ w.lock i = s.hold := by
  obtain ⟨last, hlast⟩ := (h.worker i).order
  obtain ⟨after, hafter⟩ := stage?_of_suffix hlast hnext
  obtain ⟨s, hs, hstep⟩ := stage?_cons.1 hafter
  exact ⟨s, after, hs, hstep, hafter, h.lock i s hs⟩

/-- Nothing was handed on yet in a line that never had the lock alone. -/
theorem Sound.handed_eq_nil {s : Stage} (h : w.Sound plan)
    (hs : stage? (w.worker i).done = some s) (hearly : s = .fresh ∨ s = .together) :
    w.handed i (w.worker i).past = [] :=
  (h.present i).trans (handings_eq_nil hs hearly)

/-- Who hands on something has the lock, so nobody else has it alone. -/
theorem Sound.not_exclusive {j : ι} (h : w.Sound plan)
    (hnext : e :: (w.worker i).done <:+ (w.worker i).phase.latest)
    (he : e.handing?.isSome) (hji : j ≠ i) : w.lock j ≠ .exclusive := by
  intro hj
  obtain ⟨s, after, -, hstep, -, hlock⟩ := h.next hnext
  have hnothing := h.alone j i hji hj
  rcases stage_of_handing hstep he with rfl | rfl <;> simp [hlock, Stage.hold] at hnothing

theorem Sound.alone_perform (h : w.Sound plan) (hlock : permits w.lock e) {j k : ι} (hjk : j ≠ k)
    (hj : (w.perform i e).lock j = .exclusive) : (w.perform i e).lock k = .nothing := by
  by_cases hji : j = i
  · subst hji
    rw [lock_perform_self] at hj
    rw [lock_perform_of_ne _ hjk.symm]
    rcases Hold.after_eq_exclusive hj with rfl | hheld
    · exact hlock k
    · exact h.alone j k hjk hheld
  · rw [lock_perform_of_ne _ hji] at hj
    by_cases hki : k = i
    · subst hki
      have hnothing := h.alone j k hji hj
      rw [lock_perform_self, hnothing]
      cases e with
      | locked => exact absurd hj (by simp [hlock j])
      | shared => exact absurd hj (hlock j)
      | _ => rfl
    · rw [lock_perform_of_ne _ hki]
      exact h.alone j k hjk hj

theorem Sound.last_perform (h : w.Sound plan)
    (hnext : e :: (w.worker i).done <:+ (w.worker i).phase.latest) {j : ι}
    (hj : (w.perform i e).lock j = .exclusive) :
    (w.perform i e).handed j ((w.perform i e).worker j).past = [] ∨
      ∃ c ∈ (w.perform i e).latest.head?, c.isOf j ((w.perform i e).worker j).past := by
  cases he : e.handing? with
  | some p =>
    by_cases hji : j = i
    · subst hji
      exact .inr ⟨_, by simp only [perform, he]; rfl, Call.isOf_iff.2 ⟨rfl, by simp⟩⟩
    · rw [lock_perform_of_ne _ hji] at hj
      exact absurd hj (h.not_exclusive hnext (by simp [he]) hji)
  | none =>
    have hlatest : (w.perform i e).latest = w.latest := by simp [perform, he]
    rw [hlatest]
    by_cases hji : j = i
    · subst hji
      rw [lock_perform_self] at hj
      simp only [worker_perform_self, handed_perform_self, he, Option.toList_none, List.nil_append]
      rcases Hold.after_eq_exclusive hj with rfl | hheld
      · obtain ⟨s, after, hs, hstep, -⟩ := h.next hnext
        refine .inl (h.handed_eq_nil hs (.inl ?_))
        cases s <;> simp_all [Event.next?]
      · exact h.last j hheld
    · rw [lock_perform_of_ne _ hji] at hj
      rw [worker_perform_of_ne _ hji, handed_perform_of_ne _ fun hi => hji hi.1.symm]
      exact h.last j hj

/-- The calls of a line follow each other at once: it hands on something for the first time, or was
the last to hand on anything. -/
theorem Sound.whole_perform (h : w.Sound plan)
    (hnext : e :: (w.worker i).done <:+ (w.worker i).phase.latest) (j : ι) (k : Nat) :
    Consecutive (Call.isOf j k) (w.perform i e).latest := by
  cases he : e.handing? with
  | none => simpa [perform, he] using h.whole j k
  | some p =>
    simp only [perform, he, Option.map_some, Option.toList_some, List.singleton_append]
    refine (h.whole j k).cons fun hof => ?_
    obtain ⟨rfl, rfl⟩ := Call.isOf_iff.1 hof
    obtain ⟨s, after, hs, hstep, -, hlock⟩ := h.next hnext
    have hnone : w.handed i (w.worker i).past = [] →
        ∀ b ∈ w.latest, ¬ Call.isOf i (w.worker i).past b := by
      intro hnil b hb
      exact List.filter_eq_nil_iff.1 (List.map_eq_nil_iff.1 hnil) b hb
    rcases stage_of_handing hstep (by simp [he]) with rfl | rfl
    · exact (h.last i hlock).imp_left hnone
    · exact .inl (hnone (h.handed_eq_nil hs (.inr rfl)))

theorem Sound.order_perform (h : w.Sound plan) (i : ι) (e : Event) :
    (w.perform i e).latest.Pairwise fun c b => b.thread = c.thread → b.line ≤ c.line := by
  cases he : e.handing? with
  | none => simpa [perform, he] using h.order
  | some p =>
    simp only [perform, he, Option.map_some, Option.toList_some, List.singleton_append]
    refine List.pairwise_cons.2 ⟨fun b hb hthread => ?_, h.order⟩
    by_contra hline
    -- A line that was not started yet has handed on nothing.
    have hnil := h.future i b.line (Nat.lt_of_not_le hline)
    have hnone := List.filter_eq_nil_iff.1 (List.map_eq_nil_iff.1 hnil) b hb
    exact hnone (Call.isOf_iff.2 ⟨hthread, rfl⟩)

theorem Sound.perform (h : w.Sound plan)
    (hnext : e :: (w.worker i).done <:+ (w.worker i).phase.latest)
    (hlock : permits w.lock e) : (w.perform i e).Sound plan := by
  obtain ⟨s, after, hs, hstep, hafter, hheld⟩ := h.next hnext
  have hpast : ∀ j, ((w.perform i e).worker j).past = (w.worker j).past := by
    intro j
    by_cases hji : j = i
    · subst hji
      simp
    · simp [hji]
  refine ⟨fun j => ?_, fun j t ht => ?_, fun j k => h.alone_perform hlock, fun j k hk => ?_,
    fun j => ?_, fun j k hk => ?_, fun j => h.last_perform hnext, h.whole_perform hnext,
    h.order_perform i e⟩
  · by_cases hji : j = i
    · subst hji
      rw [worker_perform_self]
      exact (h.worker j).perform hnext
    · rw [worker_perform_of_ne _ hji]
      exact h.worker j
  · by_cases hji : j = i
    · subst hji
      rw [worker_perform_self] at ht
      obtain rfl : after = t := Option.some.inj (hafter.symm.trans ht)
      rw [lock_perform_self, hheld, hold_after hstep]
    · rw [worker_perform_of_ne _ hji] at ht
      rw [lock_perform_of_ne _ hji, h.lock j t ht]
  · rw [hpast] at hk
    have hline : ¬ (i = j ∧ (w.worker i).past = k) := by
      rintro ⟨rfl, rfl⟩
      exact Nat.lt_irrefl _ hk
    rw [handed_perform_of_ne _ hline]
    exact h.past j k hk
  · by_cases hji : j = i
    · subst hji
      rw [worker_perform_self, handed_perform_self, h.present j]
      cases he : e.handing? <;> simp [Logline.handings, he]
    · rw [worker_perform_of_ne _ hji, handed_perform_of_ne _ fun hi => hji hi.1.symm]
      exact h.present j
  · rw [hpast] at hk
    have hline : ¬ (i = j ∧ (w.worker i).past = k) := by
      rintro ⟨rfl, rfl⟩
      exact Nat.lt_irrefl _ hk
    rw [handed_perform_of_ne _ hline]
    exact h.future j k hk

end Performing

end World

/-! ### What comes out of it -/

/-- No thread has anything of the lock from elsewhere, and code of callers writes no lines. -/
structure Plan.Unlogged (plan : Plan ι) : Prop where
  free : ∀ i, (plan.thread i).holdsLock = false
  lines : ∀ i, ∀ line ∈ plan.lines i, Script.Tame .unlogged line.2

variable {plan : Plan ι} {v w : World ι}

theorem Step.sound (hplan : plan.Unlogged) (h : v.Sound plan) (hstep : Step plan v w) :
    w.Sound plan := by
  cases hstep with
  | start i hphase hline =>
    have hbody := hplan.lines i _ (List.mem_of_getElem? hline)
    exact h.set ((h.worker i).start (hplan.free i) hbody hphase hline) rfl rfl
  | advance i hphase hgo hdone => exact h.set ((h.worker i).advance hphase hgo) rfl rfl
  | close i hphase hend hdone => exact h.set ((h.worker i).close hphase hend) rfl rfl
  | perform i e hnext hlock => exact h.perform hnext hlock
  | leave i hphase hdone => exact h.leave hphase hdone

theorem Reached.sound (hplan : plan.Unlogged) (h : Reached plan w) : w.Sound plan := by
  induction h with
  | refl => exact World.sound_initial plan
  | tail _ hstep ih => exact hstep.sound hplan ih

omit [DecidableEq ι] in
/-- A line that was not given up has handed on something its script says. -/
theorem Plan.says (hplan : plan.Unlogged) {i : ι} {line : Route × Script}
    (h : (plan.draft i line).trail.goesOn) {late : Bool}
    (hl : late = true ∨ Script.Tame .silent line.2) :
    ∃ owed, Script.Says late line.2 false (plan.draft i line).closed.delivered owed := by
  have hstart := Draft.counted_start (plan.thread i) line.1 .empty
  obtain ⟨out, hsays, hadds⟩ : ∃ out, Script.Says late line.2 false out _ ∧
      (Draft.start (plan.thread i) line.1 .empty).Adds out _ (plan.draft i line) :=
    runScript_says line.2 _ hstart hl h
  have hfree : (plan.draft i line).thread.holdsLock = false := by
    rw [hadds.thread]
    exact hplan.free i
  have hcomplete : (plan.draft i line).complete.trail.goesOn := Draft.goesOn_complete h hfree
  have hout : (plan.draft i line).closed.delivered = out := by
    rw [Draft.closed, if_pos h, Draft.delivered_complete (hadds.counted hstart) hcomplete,
      hadds.spoken hstart h, Draft.spoken_start, List.nil_append]
  exact ⟨_, hout ▸ hsays⟩

/-- **Lines stay whole.** Whatever order threads go on in, the calls of a line follow each other at
once. If the line is finished they hand on, once and in order, what it hands on alone, which is
something its script says unless it was given up. The lines of a thread come in their order. -/
theorem lines_stay_whole (hplan : plan.Unlogged) (h : Reached plan w) :
    (∀ i k, ∃ before mine after, w.calls = before ++ mine ++ after ∧
      (∀ c ∈ mine, c.thread = i ∧ c.line = k) ∧
      (∀ c ∈ before ++ after, ¬ (c.thread = i ∧ c.line = k)) ∧
      ∀ line, (plan.lines i)[k]? = some line → k < (w.worker i).past →
        (∀ c ∈ mine, c.destination = line.1.destination) ∧
        mine.flatMap Call.bytes = (plan.draft i line).closed.delivered ∧
        ((plan.draft i line).trail.goesOn → ∀ late : Bool,
          late = true ∨ Script.Tame .silent line.2 →
            ∃ owed, Script.Says late line.2 false (mine.flatMap Call.bytes) owed)) ∧
      w.calls.Pairwise fun b c => b.thread = c.thread → b.line ≤ c.line := by
  have hsound := h.sound hplan
  refine ⟨fun i k => ?_, List.pairwise_reverse.2 hsound.order⟩
  obtain ⟨after, mine, before, hlatest, hmine, hothers⟩ := hsound.whole i k
  refine ⟨before.reverse, mine.reverse, after.reverse, by simp [World.calls, hlatest],
    fun c hc => Call.isOf_iff.1 (hmine c (List.mem_reverse.1 hc)), fun c hc => ?_,
    fun line hline hk => ?_⟩
  · refine fun hof => hothers c ?_ (Call.isOf_iff.2 hof)
    simpa [or_comm] using hc
  · have hhanded : mine.map (fun c => (c.destination, c.bytes)) =
        (plan.draft i line).closed.handed.map fun bytes => (line.1.destination, bytes) := by
      have hfilter : w.latest.filter (Call.isOf i k) = mine := by
        rw [hlatest]
        exact filter_eq_mine hmine hothers
      have hpast := hsound.past i k hk
      rw [World.handed, hfilter, Plan.handed, hline] at hpast
      exact hpast
    have hbytes : mine.map Call.bytes = (plan.draft i line).closed.handed := by
      simpa [Function.comp_def] using congrArg (List.map Prod.snd) hhanded
    have hdelivered : mine.reverse.flatMap Call.bytes =
        (plan.draft i line).closed.delivered := by
      rw [List.flatMap_def, List.map_reverse, hbytes, Draft.delivered]
    refine ⟨fun c hc => ?_, hdelivered, fun hgo late hl => hdelivered ▸ plan.says hplan hgo hl⟩
    have hmem : (c.destination, c.bytes) ∈ mine.map fun c => (c.destination, c.bytes) :=
      List.mem_map_of_mem (List.mem_reverse.1 hc)
    rw [hhanded] at hmem
    obtain ⟨bytes, -, heq⟩ := List.mem_map.1 hmem
    exact (congrArg Prod.fst heq).symm

end Threads

/-- A line that does not fit is handed on in two pieces while another one, that was composed in the
meantime, waits for the lock. -/
theorem cut_line_stays_whole :
    let big : Text.Bytes := List.replicate (scratchSize + 1) 0x61
    let plan : Plan Bool := ⟨fun _ => ⟨0, false, false⟩, fun i =>
      [(⟨.stdout, false, .note⟩, if i then [.chunk big, .chunk [0x62]] else [.chunk [0x63]])]⟩
    ∃ w, Reached plan w ∧ 0 < (w.worker true).past ∧
      (w.worker false).phase.latest = [.unshared, .wrote .stdout [0x63] false, .shared] ∧
      (∃ before mine after, w.calls = before ++ mine ++ after ∧
        mine.flatMap Call.bytes = big ++ [0x62]) ∧
      w.calls.Pairwise fun b c => b.thread = c.thread → b.line ≤ c.line := by
  intro big
  have hbig : scratchSize < big.length := by simp [big]
  clear_value big
  intro plan
  have hplan : plan.Unlogged := by
    refine ⟨fun _ => rfl, fun i line hline => ?_⟩
    obtain rfl := List.mem_singleton.1 hline
    cases i
    · exact ⟨trivial, trivial⟩
    · exact ⟨trivial, trivial, trivial⟩
  let route : Route := ⟨.stdout, false, .note⟩
  let start : Draft := .start ⟨0, false, false⟩ route .empty
  let a : Event := .wrote .stdout big false
  let b : Event := .wrote .stdout [0x62] false
  let cut : Draft := ⟨⟨0, false, false⟩, route, [], 0, [big], false, true, [], ⟨[a, .locked], none⟩⟩
  have hcut : start.write big = cut := by
    simp [Draft.write, start, Draft.start, hbig, Draft.lock, Draft.flush, Draft.handOn, Trail.add,
      Trail.goesOn, Trail.empty, Trail.push, cut, a, route]
  have hgo : (start.write big).trail.goesOn := by
    rw [hcut]
    rfl
  have hpiece : [a, .locked] = (start.write big).trail.latest := by rw [hcut]
  have hgathered : [a, .locked] = ((start.write big).write [0x62]).trail.latest := by
    rw [hcut]
    rfl
  have hfinish : [.unlocked, b, a, .locked] = ((start.write big).write [0x62]).finish.latest := by
    rw [hcut]
    rfl
  -- The other line is composed before the first piece is handed on.
  have hcomposed : Reached plan _ := (((Relation.ReflTransGen.refl.tail
    (.start true rfl rfl)).tail (.advance true rfl rfl rfl)).tail
      (.start false rfl rfl)).tail (.advance false rfl rfl rfl)
  have hlocked : Reached plan _ := hcomposed.tail
    (.perform true .locked ⟨[a], hpiece⟩ (by intro i; cases i <;> rfl))
  have hhanded : Reached plan _ := (hlocked.tail (.close false rfl (.inl rfl) rfl)).tail
    (.perform true a ⟨[], hpiece⟩ trivial)
  have hclosing : Reached plan _ := (hhanded.tail (.advance true rfl hgo hpiece)).tail
    (.close true rfl (.inl rfl) hgathered)
  have hleft : Reached plan _ := ((hclosing.tail
    (.perform true b ⟨[.unlocked], hfinish⟩ trivial)).tail
      (.perform true .unlocked ⟨[], hfinish⟩ trivial)).tail (.leave true rfl hfinish)
  obtain ⟨hwhole, horder⟩ := lines_stay_whole hplan hleft
  obtain ⟨before, mine, after, hcalls, -, -, hbytes⟩ := hwhole true 0
  obtain ⟨-, hdelivered, -⟩ := hbytes _ rfl Nat.zero_lt_one
  have hdraft : runScript [.chunk big, .chunk [0x62]] start = cut.write [0x62] := by
    simp only [runScript, Instr.run, hcut]
    rfl
  have hmine : mine.flatMap Call.bytes = (cut.write [0x62]).closed.delivered := by
    rw [hdelivered, ← hdraft]
    rfl
  exact ⟨_, hleft, Nat.zero_lt_one, rfl, ⟨before, mine, after, hcalls, hmine⟩, horder⟩

end Logline
