import Logline.Proofs.Line.Spoken

/-!
How a line takes its turn at the output lock. A line that fits takes the lock together with others
and hands on all it has in one piece. One that does not fit takes the lock alone before it hands on
the first of its pieces, and keeps it to its end. `stage?` reads this off the events of a thread.

A line whose code writes no lines keeps to this order whatever else its code does: each of its steps
does (`Instr.advance_onward`), and so does its end (`finish_turn`).
-/

namespace Logline

/-! ### Stages of a line -/

/-- How far a line has come with the output lock: it never had it, has it alone, has it together with
others before or after handing something on, or has given it back. -/
inductive Stage where
  | fresh
  | alone
  | together
  | handed
  | over
deriving DecidableEq, Repr

namespace Event

/-- The stage after an event; none if the event is out of order. -/
def next? : Event → Stage → Option Stage
  | .called _ _, s => some s
  | .locked, .fresh => some .alone
  | .wrote _ _ _, .alone => some .alone
  | .unlocked, .alone => some .over
  | .shared, .fresh => some .together
  | .wrote _ _ _, .together => some .handed
  | .unshared, .together => some .over
  | .unshared, .handed => some .over
  | _, _ => none

/-- Code of a caller starts. -/
def isCalled : Event → Bool
  | .called _ _ => true
  | _ => false

/-- What is handed on, and where to. -/
def handing? : Event → Option (Destination × Text.Bytes)
  | .wrote destination bytes _ => some (destination, bytes)
  | _ => none

end Event

/-- The stage after events, given with the latest first. -/
def stage? : List Event → Option Stage
  | [] => some .fresh
  | e :: earlier => (stage? earlier).bind e.next?

/-- What was handed on, the latest first. -/
def handings (events : List Event) : List (Destination × Text.Bytes) :=
  events.filterMap Event.handing?

section Stages

variable {events earlier new : List Event} {s : Stage}

theorem stage?_cons {e : Event} : stage? (e :: earlier) = some s ↔
    ∃ before, stage? earlier = some before ∧ e.next? before = some s := by
  simp [stage?, Option.bind_eq_some_iff]

/-- What comes in order was in order at each moment. -/
theorem stage?_of_suffix (h : stage? events = some s) (he : earlier <:+ events) :
    ∃ before, stage? earlier = some before := by
  induction events generalizing s with
  | nil =>
    rw [List.suffix_nil.1 he]
    exact ⟨s, h⟩
  | cons e rest ih =>
    rcases List.suffix_cons_iff.1 he with rfl | hrest
    · exact ⟨s, h⟩
    · obtain ⟨before, hbefore, -⟩ := stage?_cons.1 h
      exact ih hbefore hrest

/-- Nothing is handed on before the lock is had. -/
theorem handings_eq_nil (h : stage? events = some s) (hs : s = .fresh ∨ s = .together) :
    handings events = [] := by
  induction events generalizing s with
  | nil => rfl
  | cons e rest ih =>
    obtain ⟨before, hbefore, hnext⟩ := stage?_cons.1 h
    have hquiet : e.handing? = none ∧ (before = .fresh ∨ before = .together) := by
      rcases hs with rfl | rfl <;> cases e <;> cases before <;>
        simp_all [Event.next?, Event.handing?]
    simpa [handings, hquiet.1] using ih hbefore hquiet.2

theorem stage?_append_called (h : ∀ e ∈ new, e.isCalled) :
    stage? (new ++ earlier) = stage? earlier := by
  induction new with
  | nil => rfl
  | cons e rest ih =>
    have hrest := ih fun e' he' => h e' (List.mem_cons_of_mem e he')
    have he := h e (List.mem_cons_self ..)
    cases e with
    | called label place =>
      rw [List.cons_append, stage?, hrest]
      cases stage? earlier <;> rfl
    | _ => simp [Event.isCalled] at he

theorem handings_append_called (h : ∀ e ∈ new, e.isCalled) :
    handings (new ++ earlier) = handings earlier := by
  have hnone : handings new = [] := by
    refine List.filterMap_eq_nil_iff.2 fun e he => ?_
    have hcalled := h e he
    cases e with
    | called label place => rfl
    | _ => simp [Event.isCalled] at hcalled
  rw [handings, List.filterMap_append]
  exact congrArg (· ++ _) hnone

end Stages

/-! ### Code that writes no lines -/

namespace Act

def isLine : Act → Bool
  | .line _ _ => true
  | _ => false

end Act

/-- From `t` to `u` nothing happened but that code of callers started. -/
def Trail.OnlyCalls (t u : Trail) : Prop :=
  ∃ new, u.latest = new ++ t.latest ∧ ∀ e ∈ new, e.isCalled

namespace Trail.OnlyCalls

variable {t u v : Trail}

theorem refl (t : Trail) : t.OnlyCalls t := ⟨[], rfl, fun _ he => by simp at he⟩

theorem of_latest_eq (h : u.latest = t.latest) : t.OnlyCalls u :=
  ⟨[], h, fun _ he => by simp at he⟩

theorem trans (h : t.OnlyCalls u) (h' : u.OnlyCalls v) : t.OnlyCalls v := by
  obtain ⟨a, ha, hcalled⟩ := h
  obtain ⟨b, hb, hcalled'⟩ := h'
  refine ⟨b ++ a, by rw [hb, ha, List.append_assoc], fun e he => ?_⟩
  exact (List.mem_append.1 he).elim (hcalled' e) (hcalled e)

theorem suffix (h : t.OnlyCalls u) : t.latest <:+ u.latest := by
  obtain ⟨new, hnew, -⟩ := h
  exact ⟨new, hnew.symm⟩

theorem stage (h : t.OnlyCalls u) : stage? u.latest = stage? t.latest := by
  obtain ⟨new, hnew, hcalled⟩ := h
  rw [hnew, stage?_append_called hcalled]

theorem handings (h : t.OnlyCalls u) : handings u.latest = handings t.latest := by
  obtain ⟨new, hnew, hcalled⟩ := h
  rw [hnew, handings_append_called hcalled]

/-- Nothing but calls happened on a trail that was empty at first. -/
theorem all_called (h : Trail.empty.OnlyCalls u) : ∀ e ∈ u.latest, e.isCalled := by
  obtain ⟨new, hnew, hcalled⟩ := h
  rw [hnew]
  simpa [Trail.empty] using hcalled

end Trail.OnlyCalls

theorem Act.run_onlyCalls {a : Act} (h : a.isLine = false) (thread : Thread) (t : Trail) :
    t.OnlyCalls (a.run thread t) := by
  cases a with
  | called label =>
    simp only [Act.run, Trail.add]
    split
    · exact ⟨[.called label thread.place], rfl, by simp [Event.isCalled]⟩
    · exact .refl t
  | slow => exact .refl t
  | line route body => simp [Act.isLine] at h
  | panic message =>
    refine .of_latest_eq ?_
    simp only [Act.run, Trail.stopWith]
    split <;> rfl

theorem runActs_onlyCalls {acts : List Act} (h : ∀ a ∈ acts, a.isLine = false) (thread : Thread)
    (t : Trail) : t.OnlyCalls (runActs acts thread t) := by
  induction acts generalizing t with
  | nil => exact .refl t
  | cons a rest ih =>
    rw [runActs]
    split
    · exact (Act.run_onlyCalls (h a (List.mem_cons_self ..)) thread t).trans
        (ih (fun b hb => h b (List.mem_cons_of_mem a hb)) _)
    · exact .refl t

/-- A helper only calls code as well, in time and later on. -/
theorem runHelper_onlyCalls {acts : List Act} (h : ∀ a ∈ acts, a.isLine = false) :
    (∀ e ∈ (runHelper acts).early, e.isCalled) ∧
      ∀ e ∈ (runHelper acts).behind.latest, e.isCalled := by
  induction acts with
  | nil => simp [runHelper, Helped.done, Trail.empty]
  | cons a rest ih =>
    have hrest : ∀ b ∈ rest, b.isLine = false := fun b hb => h b (List.mem_cons_of_mem a hb)
    cases a with
    | called label => simpa [runHelper, Helped.calling, Event.isCalled] using ih hrest
    | slow =>
      have hlate := (runActs_onlyCalls hrest .helper .empty).all_called
      simpa [runHelper, Helped.late] using hlate
    | line route body => exact absurd (h _ (List.mem_cons_self ..)) (by simp [Act.isLine])
    | panic message => simp [runHelper, Helped.late, Trail.empty]

theorem onlyCalls_foldl_add {events : List Event} (h : ∀ e ∈ events, e.isCalled) (t : Trail) :
    t.OnlyCalls (events.foldl Trail.add t) := by
  induction events generalizing t with
  | nil => exact .refl t
  | cons e rest ih =>
    have he : t.OnlyCalls (t.add e) := by
      unfold Trail.add
      split
      · exact ⟨[e], rfl, by simpa using h e (List.mem_cons_self ..)⟩
      · exact .refl t
    exact he.trans (ih (fun e' he' => h e' (List.mem_cons_of_mem e he')) _)

theorem onlyCalls_foldl_join {helpers : List Trail}
    (h : ∀ u ∈ helpers, ∀ e ∈ u.latest, e.isCalled) (t : Trail) :
    t.OnlyCalls (helpers.foldl Trail.join t) := by
  induction helpers generalizing t with
  | nil => exact .refl t
  | cons u rest ih =>
    have hu : t.OnlyCalls (t.join u) := ⟨u.latest, rfl, h u (List.mem_cons_self ..)⟩
    exact hu.trans (ih (fun v hv => h v (List.mem_cons_of_mem u hv)) _)

theorem isLine_of_tame {acts : List Act} (h : Acts.Tame .unlogged acts) :
    ∀ a ∈ acts, a.isLine = false := by
  intro a ha
  have htame := Acts.tame_iff.1 h a ha
  cases a with
  | line route body => simp [Act.Tame, Manner.unlogged] at htame
  | _ => rfl

/-! ### A line in turn -/

namespace Draft

/-- The events of a line are in order, and tell what it has of the lock and what it has handed on. Its
thread has nothing of the lock from elsewhere, and helpers it left behind write no lines. -/
structure InTurn (d : Draft) : Prop where
  free : d.thread.holdsLock = false
  stage : stage? d.trail.latest = some (if d.locked then .alone else .fresh)
  handings : handings d.trail.latest = d.handed.map fun bytes => (d.route.destination, bytes)
  behind : ∀ t ∈ d.behind, ∀ e ∈ t.latest, e.isCalled

/-- From `d` to `e` the line went on in turn. -/
structure Onward (d e : Draft) : Prop where
  route : e.route = d.route
  suffix : d.trail.latest <:+ e.trail.latest
  inTurn : d.InTurn → e.InTurn

theorem inTurn_start {thread : Thread} (h : thread.holdsLock = false) (route : Route) :
    (start thread route .empty).InTurn :=
  ⟨h, rfl, rfl, fun _ ht => by simp [start] at ht⟩

namespace Onward

variable {d e f : Draft}

theorem refl (d : Draft) : d.Onward d := ⟨rfl, List.suffix_rfl, id⟩

theorem trans (h : d.Onward e) (h' : e.Onward f) : d.Onward f :=
  ⟨h'.route.trans h.route, h.suffix.trans h'.suffix, h'.inTurn ∘ h.inTurn⟩

/-- Neither the scratch space nor the separator has to do with turns. -/
theorem of_eq (hthread : e.thread = d.thread) (hroute : e.route = d.route)
    (hlocked : e.locked = d.locked) (htrail : e.trail = d.trail) (hhanded : e.handed = d.handed)
    (hbehind : e.behind = d.behind) : d.Onward e := by
  refine ⟨hroute, htrail ▸ List.suffix_rfl, fun h => ⟨hthread ▸ h.free, ?_, ?_, hbehind ▸ h.behind⟩⟩
  · rw [htrail, hlocked, h.stage]
  · rw [htrail, hhanded, hroute, h.handings]

end Onward

theorem handOn_onward {d : Draft} (hl : d.locked) (bytes : Text.Bytes) :
    d.Onward (d.handOn bytes) := by
  by_cases hd : d.trail.goesOn
  · rw [handOn_of_goesOn hd]
    refine ⟨rfl, ⟨[_], rfl⟩, fun h => ⟨h.free, ?_, ?_, h.behind⟩⟩
    · have hstage := h.stage
      simp only [hl, if_true] at hstage ⊢
      exact stage?_cons.2 ⟨_, hstage, rfl⟩
    · simpa [Logline.handings, Trail.push, Event.handing?] using h.handings
  · rw [handOn_of_not_goesOn hd]
    exact .refl d

theorem flush_onward {d : Draft} (hl : d.locked) : d.Onward d.flush := by
  unfold flush
  split
  · exact .refl d
  · exact (handOn_onward hl d.scratch).trans (.of_eq rfl rfl rfl rfl rfl rfl)

@[simp] theorem locked_handOn (d : Draft) (bytes : Text.Bytes) :
    (d.handOn bytes).locked = d.locked := by
  unfold handOn
  split <;> rfl

@[simp] theorem locked_flush (d : Draft) : d.flush.locked = d.locked := by
  unfold flush
  split
  · rfl
  · exact locked_handOn d d.scratch

/-- A line that goes on takes the lock alone before it hands on anything. -/
theorem lock_onward {d : Draft} (hgo : d.trail.goesOn) (hfree : d.thread.holdsLock = false) :
    d.Onward d.lock ∧ d.lock.locked := by
  unfold lock
  split
  · next hl => exact ⟨flush_onward hl, by simpa using hl⟩
  · next hl =>
    simp only [hfree, Bool.false_eq_true, if_false, locked_flush]
    have htaken : d.Onward { d with locked := true, trail := d.trail.add .locked } := by
      rw [Trail.add, if_pos hgo]
      refine ⟨rfl, ⟨[_], rfl⟩, fun h => ⟨h.free, ?_, h.handings, h.behind⟩⟩
      have hstage := h.stage
      simp only [hl, Bool.false_eq_true, if_false] at hstage
      exact stage?_cons.2 ⟨_, hstage, rfl⟩
    exact ⟨htaken.trans (flush_onward rfl), trivial⟩

theorem write_onward {d : Draft} (hgo : d.trail.goesOn) (hfree : d.thread.holdsLock = false)
    (chunk : Text.Bytes) : d.Onward (d.write chunk) := by
  obtain ⟨hlock, hlocked⟩ := lock_onward hgo hfree
  unfold write
  by_cases hbig : scratchSize < chunk.length
  · have hfull : scratchSize < d.used + chunk.length := by omega
    simp only [hbig, hfull, if_true]
    exact hlock.trans (handOn_onward hlocked chunk)
  · simp only [hbig, if_false]
    split
    · exact hlock.trans (.of_eq rfl rfl rfl rfl rfl rfl)
    · exact .of_eq rfl rfl rfl rfl rfl rfl

theorem reserve_onward {d : Draft} (hgo : d.trail.goesOn) (hfree : d.thread.holdsLock = false)
    (n : Nat) : d.Onward (d.reserve n) := by
  unfold reserve
  split
  · exact (lock_onward hgo hfree).1
  · exact .refl d

/-- Code that writes no lines takes no turn. -/
theorem onward_of_onlyCalls {d : Draft} {t : Trail} (h : d.trail.OnlyCalls t) :
    d.Onward { d with trail := t } :=
  ⟨rfl, h.suffix, fun hd => ⟨hd.free, h.stage.trans hd.stage, h.handings.trans hd.handings,
    hd.behind⟩⟩

theorem helped_onward {acts : List Act} (h : ∀ a ∈ acts, a.isLine = false) (d : Draft) :
    d.Onward (d.helped (runHelper acts)) := by
  obtain ⟨hearly, hbehind⟩ := runHelper_onlyCalls h
  have hcalls := onward_of_onlyCalls (onlyCalls_foldl_add hearly d.trail)
  refine ⟨rfl, hcalls.suffix, fun hd => ?_⟩
  obtain ⟨hfree, hstage, hhandings, hleft⟩ := hcalls.inTurn hd
  refine ⟨hfree, hstage, hhandings, fun t ht => ?_⟩
  simp only [helped] at ht
  split at ht
  · exact hleft t ht
  · rcases List.mem_cons.1 ht with rfl | ht
    · exact hbehind
    · exact hleft t ht

end Draft

/-! ### Steps of a line -/

/-- One step of a line: what is left of its script, and the draft. Where a script leads into another
one, that one is set before the rest. -/
def Instr.advance : Instr → Script → Draft → Script × Draft
  | .block body, rest, d => (body ++ rest, d)
  | .later made, rest, d => (made () :: rest, d)
  | .guarded acts onTime tooLate, rest, d =>
    if d.locked then
      let h := runHelper acts
      ((if h.answered then onTime else tooLate) ++ rest, d.helped h)
    else (onTime ++ rest, { d with trail := runActs acts d.caller d.trail })
  | i, rest, d => (rest, i.run d)

theorem runScript_of_not_goesOn {d : Draft} (h : ¬ d.trail.goesOn) (s : Script) :
    runScript s d = d := by
  cases s with
  | nil => rfl
  | cons i rest => rw [runScript, if_neg h]

theorem runScript_append (s t : Script) (d : Draft) :
    runScript (s ++ t) d = runScript t (runScript s d) := by
  induction s generalizing d with
  | nil => rfl
  | cons i rest ih =>
    rw [List.cons_append, runScript, runScript]
    split
    · exact ih _
    · next h => rw [runScript_of_not_goesOn h]

/-- Taken step by step, a line comes to the same end. -/
theorem runScript_advance (i : Instr) (rest : Script) {d : Draft} (h : d.trail.goesOn) :
    runScript (i.advance rest d).1 (i.advance rest d).2 = runScript (i :: rest) d := by
  rw [runScript, if_pos h]
  cases i with
  | block body => exact runScript_append body rest d
  | later made =>
    simp only [Instr.advance, Instr.run]
    rw [runScript, if_pos h]
  | guarded acts onTime tooLate =>
    simp only [Instr.advance, Instr.run]
    split
    · split <;> exact runScript_append _ rest _
    · exact runScript_append onTime rest _
  | _ => rfl

/-- A step keeps a line in turn, and its code goes on to write no lines. -/
theorem Instr.advance_onward {i : Instr} {rest : Script} {d : Draft} (hgo : d.trail.goesOn)
    (hfree : d.thread.holdsLock = false) (hi : i.Tame .unlogged)
    (hrest : Script.Tame .unlogged rest) :
    d.Onward (i.advance rest d).2 ∧ Script.Tame .unlogged (i.advance rest d).1 := by
  cases i with
  | chunk bytes => exact ⟨Draft.write_onward hgo hfree bytes, hrest⟩
  | reserve n => exact ⟨Draft.reserve_onward hgo hfree n, hrest⟩
  | separate mark =>
    refine ⟨?_, hrest⟩
    simp only [Instr.advance, Instr.run]
    split
    · exact Draft.write_onward hgo hfree mark
    · exact .refl d
  | owe owed => exact ⟨.of_eq rfl rfl rfl rfl rfl rfl, hrest⟩
  | block body => exact ⟨.refl d, Script.tame_append.2 ⟨hi, hrest⟩⟩
  | later made => exact ⟨.refl d, hi, hrest⟩
  | direct acts =>
    exact ⟨Draft.onward_of_onlyCalls (runActs_onlyCalls (isLine_of_tame hi) _ _), hrest⟩
  | guarded acts onTime tooLate =>
    obtain ⟨hacts, honTime, htooLate⟩ := hi
    simp only [Instr.advance]
    split
    · refine ⟨Draft.helped_onward (isLine_of_tame hacts) d, Script.tame_append.2 ⟨?_, hrest⟩⟩
      split
      · exact honTime
      · exact htooLate
    · exact ⟨Draft.onward_of_onlyCalls (runActs_onlyCalls (isLine_of_tame hacts) _ _),
        Script.tame_append.2 ⟨honTime, hrest⟩⟩

/-! ### The end of a line -/

namespace Draft

/-- A line at its end, completed unless it was given up. -/
def closed (d : Draft) : Draft := if d.trail.goesOn then d.complete else d

theorem unlock_turn {d : Draft} (hs : stage? d.trail.latest = some .alone)
    (hb : ∀ t ∈ d.behind, ∀ e ∈ t.latest, e.isCalled) :
    d.trail.latest <:+ d.unlock.latest ∧ stage? d.unlock.latest = some .over ∧
      Logline.handings d.unlock.latest = Logline.handings d.trail.latest := by
  have hcalls : (d.trail.push .unlocked).OnlyCalls d.unlock :=
    onlyCalls_foldl_join (fun t ht => hb t (List.mem_reverse.1 ht)) _
  refine ⟨List.IsSuffix.trans ⟨[_], rfl⟩ hcalls.suffix, ?_, hcalls.handings⟩
  rw [hcalls.stage]
  exact stage?_cons.2 ⟨_, hs, rfl⟩

/-- What gathered is handed on in one piece. -/
theorem flush_cases {d : Draft} (hgo : d.trail.goesOn) :
    d.flush = d ∨ d.flush.handed = d.scratch :: d.handed ∧ d.flush.trail =
      d.trail.push (.wrote d.route.destination d.scratch d.route.reportErrors) := by
  unfold flush
  split
  · exact .inl rfl
  · rw [handOn_of_goesOn hgo]
    exact .inr ⟨rfl, rfl⟩

theorem goesOn_flush {d : Draft} (hgo : d.trail.goesOn) : d.flush.trail.goesOn := by
  rcases flush_cases hgo with hstay | ⟨-, htrail⟩
  · rwa [hstay]
  · rwa [htrail, Trail.goesOn_push]

theorem goesOn_complete {d : Draft} (hgo : d.trail.goesOn) (hfree : d.thread.holdsLock = false) :
    d.complete.trail.goesOn := by
  unfold complete
  split
  · exact goesOn_flush hgo
  · simp only [hfree, Bool.false_eq_true, if_false]
    exact goesOn_flush (by simpa using hgo)

/-- A line that never took the lock hands on what it has while it has the lock together with
others. -/
theorem release_turn_of_not_locked {d : Draft} (hgo : d.trail.goesOn) (hl : ¬ d.locked)
    (h : d.InTurn) :
    d.trail.latest <:+ d.release.latest ∧ stage? d.release.latest = some .over ∧
      Logline.handings d.release.latest =
        d.complete.handed.map fun bytes => (d.route.destination, bytes) := by
  let e : Draft := { d with trail := d.trail.push .shared }
  have hcomplete : d.complete = e.flush := by
    rw [complete, if_neg hl, h.free, Trail.add, if_pos hgo]
    rfl
  have hrelease : d.release = e.flush.trail.add .unshared := by
    rw [release, hcomplete]
    exact if_neg (by simpa using hl)
  have hfresh : stage? d.trail.latest = some .fresh := by simpa [hl] using h.stage
  have htogether : stage? e.trail.latest = some .together := stage?_cons.2 ⟨_, hfresh, rfl⟩
  have hgo' : e.trail.goesOn := hgo
  rw [hrelease, hcomplete]
  rcases flush_cases hgo' with hstay | ⟨hhanded, htrail⟩
  · rw [hstay, Trail.add, if_pos hgo']
    exact ⟨⟨[_, _], rfl⟩, stage?_cons.2 ⟨_, htogether, rfl⟩, h.handings⟩
  · rw [htrail, hhanded, Trail.add, Trail.goesOn_push, if_pos hgo']
    refine ⟨⟨[_, _, _], rfl⟩, ?_, congrArg (List.cons _) h.handings⟩
    exact stage?_cons.2 ⟨_, stage?_cons.2 ⟨_, htogether, rfl⟩, rfl⟩

theorem release_turn {d : Draft} (hgo : d.trail.goesOn) (h : d.InTurn) :
    d.trail.latest <:+ d.release.latest ∧ stage? d.release.latest = some .over ∧
      Logline.handings d.release.latest =
        d.complete.handed.map fun bytes => (d.route.destination, bytes) := by
  by_cases hl : d.locked
  · have hcomplete : d.complete = d.flush := if_pos hl
    have hrelease : d.release = d.flush.unlock := by
      rw [release, hcomplete]
      exact if_pos (by simpa using hl)
    have hon := flush_onward hl
    have hflush := hon.inTurn h
    have hstage : stage? d.flush.trail.latest = some .alone := by simpa [hl] using hflush.stage
    obtain ⟨hsuffix, hover, hsame⟩ := unlock_turn hstage hflush.behind
    rw [hrelease, hcomplete]
    exact ⟨hon.suffix.trans hsuffix, hover, by rw [hsame, hflush.handings, hon.route]⟩
  · exact release_turn_of_not_locked hgo hl h

theorem latest_after (r : Route) (thread : Thread) (t : Trail) :
    (r.after thread t).latest = t.latest := by
  unfold Route.after Trail.stopWith
  split <;> try split
  all_goals rfl

/-- **At its end a line has nothing of the lock, and has handed on what it was to.** -/
theorem finish_turn {d : Draft} (h : d.InTurn) :
    d.trail.latest <:+ d.finish.latest ∧
      (stage? d.finish.latest = some .fresh ∨ stage? d.finish.latest = some .over) ∧
        Logline.handings d.finish.latest =
          d.closed.handed.map fun bytes => (d.route.destination, bytes) := by
  unfold finish closed
  split
  · next hgo =>
    obtain ⟨hsuffix, hover, hhandings⟩ := release_turn hgo h
    rw [latest_after]
    exact ⟨hsuffix, .inr hover, hhandings⟩
  · unfold abandon
    split
    · next hl =>
      have hstage : stage? d.trail.latest = some .alone := by simpa [hl] using h.stage
      obtain ⟨hsuffix, hover, hsame⟩ := unlock_turn hstage h.behind
      exact ⟨hsuffix, .inr hover, hsame.trans h.handings⟩
    · next hl =>
      have hstage : stage? d.trail.latest = some .fresh := by simpa [hl] using h.stage
      exact ⟨List.suffix_rfl, .inl hstage, h.handings⟩

end Draft

end Logline
