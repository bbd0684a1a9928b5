import Logline.Proofs.Line.Saying

/-!
What a draft has said, whether handed on already or still in the scratch space, and what of it has
been delivered. A run that nothing stopped has appended something its script says
(`runScript_says`), however full the space was and whoever held the output lock, and completing the
line then delivers all of it (`delivered_complete`).

`runScript_calm` tells when nothing stops a run: tame code never does, unless it may panic, or may
write lines where it gives the text of a key; then its thread may come to wait for the lock it holds
itself.
-/

namespace Logline

namespace Trail

@[simp] theorem goesOn_push (t : Trail) (e : Event) : (t.push e).goesOn = t.goesOn := rfl

@[simp] theorem stop_add (t : Trail) (e : Event) : (t.add e).stop = t.stop := by
  unfold add
  split <;> rfl

@[simp] theorem goesOn_add (t : Trail) (e : Event) : (t.add e).goesOn = t.goesOn := by
  simp [goesOn]

@[simp] theorem stop_foldl_add (events : List Event) (t : Trail) :
    (events.foldl add t).stop = t.stop := by
  induction events generalizing t with
  | nil => rfl
  | cons e rest ih => simp [ih]

theorem not_goesOn_stopWith (t : Trail) (s : Stop) : (t.stopWith s).goesOn = false := by
  unfold stopWith
  split
  · rfl
  · next h => simpa using h

end Trail

namespace Draft

/-- The bytes the line itself has handed on. -/
def delivered (d : Draft) : Text.Bytes := d.handed.reverse.flatten

/-- All bytes of the line so far. -/
def spoken (d : Draft) : Text.Bytes := d.delivered ++ d.scratch

/-- The count of the gathered bytes is right. -/
def Counted (d : Draft) : Prop := d.used = d.scratch.length

@[simp] theorem spoken_start (thread : Thread) (route : Route) (t : Trail) :
    (start thread route t).spoken = [] := rfl

theorem counted_start (thread : Thread) (route : Route) (t : Trail) :
    (start thread route t).Counted := rfl

/-! ### Handing on and taking the lock -/

/-- From `d` to `e` the line has said `out`, unless something stopped it, and owes a separator
`after` it or not. -/
structure Adds (d : Draft) (out : Text.Bytes) (after : Bool) (e : Draft) : Prop where
  thread : e.thread = d.thread
  owed : e.owed = after
  goesOn : e.trail.goesOn → d.trail.goesOn
  counted : d.Counted → e.Counted
  spoken : d.Counted → e.trail.goesOn → e.spoken = d.spoken ++ out

theorem Adds.refl (d : Draft) : Adds d [] d.owed d := ⟨rfl, rfl, id, id, fun _ _ => by simp⟩

theorem Adds.trans {d e f : Draft} {a b : Text.Bytes} {mid after : Bool} (h : Adds d a mid e)
    (h' : Adds e b after f) : Adds d (a ++ b) after f :=
  ⟨h'.thread.trans h.thread, h'.owed, fun hf => h.goesOn (h'.goesOn hf),
    fun hd => h'.counted (h.counted hd), fun hd hf => by
      rw [h'.spoken (h.counted hd) hf, h.spoken hd (h'.goesOn hf), List.append_assoc]⟩

/-- Nothing was said before. -/
theorem Adds.after_nothing {d e f : Draft} {b : Text.Bytes} {mid after : Bool}
    (h : Adds d [] mid e) (h' : Adds e b after f) : Adds d b after f := by
  simpa using h.trans h'

theorem handOn_of_goesOn {d : Draft} (h : d.trail.goesOn) (bytes : Text.Bytes) :
    d.handOn bytes =
      { d with
        handed := bytes :: d.handed
        trail := d.trail.push (.wrote d.route.destination bytes d.route.reportErrors) } := by
  simp [handOn, h]

theorem handOn_of_not_goesOn {d : Draft} (h : ¬ d.trail.goesOn) (bytes : Text.Bytes) :
    d.handOn bytes = d := by
  simp [handOn, h]

/-- Bytes that come after everything else may pass the scratch space by. -/
theorem adds_handOn {d : Draft} (h : d.scratch = []) (bytes : Text.Bytes) :
    Adds d bytes d.owed (d.handOn bytes) := by
  by_cases hd : d.trail.goesOn
  · rw [handOn_of_goesOn hd]
    refine ⟨rfl, rfl, fun _ => hd, id, fun _ _ => ?_⟩
    simp only [scratch] at h
    simp [spoken, delivered, scratch, h]
  · rw [handOn_of_not_goesOn hd]
    exact ⟨rfl, rfl, id, id, fun _ h' => absurd h' hd⟩

theorem adds_flush (d : Draft) : Adds d [] d.owed d.flush := by
  unfold flush
  split
  · exact .refl d
  by_cases h : d.trail.goesOn
  · rw [handOn_of_goesOn h]
    exact ⟨rfl, rfl, fun _ => h, fun _ => rfl, fun _ _ => by simp [spoken, delivered, scratch]⟩
  · rw [handOn_of_not_goesOn h]
    exact ⟨rfl, rfl, id, fun _ => rfl, fun _ h' => absurd h' h⟩

theorem adds_stop (d : Draft) (s : Stop) :
    Adds d [] d.owed { d with trail := d.trail.stopWith s } := by
  have h : (d.trail.stopWith s).goesOn ≠ true := by simp [Trail.not_goesOn_stopWith]
  exact ⟨rfl, rfl, fun h' => absurd h' h, id, fun _ h' => absurd h' h⟩

/-- An event other than handing something on, and the state of the lock, say nothing. -/
theorem adds_event (d : Draft) (locked : Bool) (e : Event) :
    Adds d [] d.owed { d with locked, trail := d.trail.add e } :=
  ⟨rfl, rfl, fun h => by simpa using h, id, fun _ _ => by simp [spoken, delivered, scratch]⟩

theorem adds_lock (d : Draft) : Adds d [] d.owed d.lock := by
  unfold lock
  split
  · exact adds_flush d
  split
  · exact adds_stop d .waits
  · exact (adds_event d true .locked).after_nothing (adds_flush _)

theorem adds_reserve (d : Draft) (n : Nat) : Adds d [] d.owed (d.reserve n) := by
  unfold reserve
  split
  · exact adds_lock d
  · exact .refl d

theorem adds_complete (d : Draft) : Adds d [] d.owed d.complete := by
  unfold complete
  split
  · exact adds_flush d
  split
  · exact adds_stop d .waits
  · exact (adds_event d d.locked .shared).after_nothing (adds_flush _)

theorem scratch_flush {d : Draft} (h : d.Counted) : d.flush.scratch = [] := by
  unfold flush
  split
  · next hu => exact List.eq_nil_of_length_eq_zero (h.symm.trans hu)
  · simp [scratch]

theorem scratch_lock {d : Draft} (hc : d.Counted) (h : d.lock.trail.goesOn) :
    d.lock.scratch = [] := by
  unfold lock at h ⊢
  split
  · exact scratch_flush hc
  split
  · next hl hw => simp [hl, hw, Trail.not_goesOn_stopWith] at h
  · exact scratch_flush hc

theorem scratch_complete {d : Draft} (hc : d.Counted) (h : d.complete.trail.goesOn) :
    d.complete.scratch = [] := by
  unfold complete at h ⊢
  split
  · exact scratch_flush hc
  split
  · next hl hw => simp [hl, hw, Trail.not_goesOn_stopWith] at h
  · exact scratch_flush hc

/-- A line that is complete has been delivered to its last byte. -/
theorem delivered_complete {d : Draft} (hc : d.Counted) (h : d.complete.trail.goesOn) :
    d.complete.delivered = d.spoken := by
  calc d.complete.delivered = d.complete.spoken := by
        rw [spoken, scratch_complete hc h, List.append_nil]
    _ = d.spoken := by rw [(adds_complete d).spoken hc h, List.append_nil]

theorem adds_gather (d : Draft) (chunk : Text.Bytes) :
    Adds d chunk d.owed
      { d with gathered := chunk :: d.gathered, used := d.used + chunk.length } := by
  refine ⟨rfl, rfl, id, fun h => ?_, fun _ _ => by simp [spoken, delivered, scratch]⟩
  simp only [Counted, scratch] at h ⊢
  simp [h]

theorem adds_write {d : Draft} (hc : d.Counted) (chunk : Text.Bytes)
    (h : (d.write chunk).trail.goesOn) : Adds d chunk d.owed (d.write chunk) := by
  unfold write at h ⊢
  by_cases hbig : scratchSize < chunk.length
  · have hfull : scratchSize < d.used + chunk.length := by omega
    simp only [hbig, hfull, if_true] at h ⊢
    have hl := adds_lock d
    have hgo : d.lock.trail.goesOn := by
      by_cases hn : d.lock.trail.goesOn
      · exact hn
      · rwa [handOn_of_not_goesOn hn] at h
    have hw := adds_handOn (scratch_lock hc hgo) chunk
    rw [hl.owed] at hw
    exact hl.after_nothing hw
  · simp only [hbig, if_false] at h ⊢
    split
    · have hw := adds_gather d.lock chunk
      exact (adds_lock d).after_nothing
        ⟨hw.thread, (adds_lock d).owed, hw.goesOn, hw.counted, hw.spoken⟩
    · exact adds_gather d chunk

end Draft

open Draft

/-! ### Runs -/

theorem goesOn_of_runScript {s : Script} {d : Draft} (h : (runScript s d).trail.goesOn) :
    d.trail.goesOn := by
  cases s with
  | nil => exact h
  | cons i rest =>
    by_cases hd : d.trail.goesOn
    · exact hd
    · simp [runScript, hd] at h

theorem goesOn_of_runActs {acts : List Act} {thread : Thread} {t : Trail}
    (h : (runActs acts thread t).goesOn) : t.goesOn := by
  cases acts with
  | nil => exact h
  | cons a rest =>
    by_cases ht : t.goesOn
    · exact ht
    · simp [runActs, ht] at h

theorem adds_helped (d : Draft) (h : Helped) : Adds d [] d.owed (d.helped h) :=
  ⟨rfl, rfl, fun hg => by simpa [helped, Trail.goesOn] using hg, id,
    fun _ _ => by simp [spoken, delivered, scratch, helped]⟩

/-- Code of a caller says nothing in the line itself. -/
theorem adds_ran (d : Draft) (acts : List Act) :
    Adds d [] d.owed { d with trail := runActs acts d.caller d.trail } :=
  ⟨rfl, rfl, goesOn_of_runActs, id, fun _ _ => (List.append_nil _).symm⟩

mutual

theorem Instr.run_says {late : Bool} (i : Instr) (d : Draft) (hc : d.Counted)
    (hl : late = true ∨ i.Tame .silent) (hd : d.trail.goesOn) (h : (i.run d).trail.goesOn) :
    ∃ out, i.Says late d.owed out (i.run d).owed ∧ Adds d out (i.run d).owed (i.run d) := by
  cases i with
  | chunk bytes =>
    have hw := adds_write hc bytes h
    exact ⟨bytes, ⟨rfl, hw.owed⟩, by simpa only [Instr.run, hw.owed] using hw⟩
  | reserve n =>
    have hr := adds_reserve d n
    exact ⟨[], ⟨rfl, hr.owed⟩, by simpa only [Instr.run, hr.owed] using hr⟩
  | separate mark =>
    simp only [Instr.run] at h ⊢
    by_cases ho : d.owed = true
    · simp only [ho, if_true] at h ⊢
      have hw := adds_write hc mark h
      rw [hw.owed, ho]
      exact ⟨mark, ⟨rfl, rfl⟩, ho ▸ hw⟩
    · rw [if_neg ho] at h ⊢
      exact ⟨[], ⟨by simp [ho], rfl⟩, .refl d⟩
  | owe owed =>
    exact ⟨[], ⟨rfl, rfl⟩, rfl, rfl, id, id, fun _ _ => (List.append_nil _).symm⟩
  | block body =>
    have hb : late = true ∨ Script.Tame .silent body := hl
    exact runScript_says body d hc hb h
  | later made =>
    have hb : late = true ∨ (made ()).Tame .silent := hl
    exact Instr.run_says (made ()) d hc hb hd h
  | direct acts => exact ⟨[], ⟨rfl, rfl⟩, adds_ran d acts⟩
  | guarded acts onTime tooLate =>
    simp only [Instr.run] at h ⊢
    split at h
    · next hk =>
      rw [if_pos hk]
      have hh := adds_helped d (runHelper acts)
      by_cases ha : (runHelper acts).answered = true
      · rw [if_pos ha] at h ⊢
        obtain ⟨out, hs, hr⟩ := runScript_says onTime (d.helped (runHelper acts))
          (hh.counted hc) (hl.imp_right fun ht => ht.2.1) h
        exact ⟨out, .inl hs, hh.after_nothing hr⟩
      · rw [if_neg ha] at h ⊢
        have hlate : late = true := hl.resolve_right fun ht => ha (answered_of_tame ht.1)
        obtain ⟨out, hs, hr⟩ := runScript_says tooLate (d.helped (runHelper acts))
          (hh.counted hc) (.inl hlate) h
        exact ⟨out, .inr ⟨hlate, hs⟩, hh.after_nothing hr⟩
    · next hk =>
      rw [if_neg hk]
      have hh := adds_ran d acts
      obtain ⟨out, hs, hr⟩ := runScript_says onTime _ (hh.counted hc)
        (hl.imp_right fun ht => ht.2.1) h
      exact ⟨out, .inl hs, hh.after_nothing hr⟩
termination_by structural i

theorem runScript_says {late : Bool} (s : List Instr) (d : Draft) (hc : d.Counted)
    (hl : late = true ∨ Script.Tame .silent s) (h : (runScript s d).trail.goesOn) :
    ∃ out, Script.Says late s d.owed out (runScript s d).owed ∧
      Adds d out (runScript s d).owed (runScript s d) := by
  cases s with
  | nil => exact ⟨[], ⟨rfl, rfl⟩, .refl d⟩
  | cons i rest =>
    have hd := goesOn_of_runScript h
    simp only [runScript, hd, if_true] at h ⊢
    obtain ⟨a, ha, hra⟩ := Instr.run_says i d hc (hl.imp_right And.left) hd (goesOn_of_runScript h)
    obtain ⟨b, hb, hrb⟩ := runScript_says rest (i.run d) (hra.counted hc)
      (hl.imp_right And.right) h
    exact ⟨a ++ b, ⟨a, b, _, rfl, ha, hb⟩, hra.trans hrb⟩
termination_by structural s

end

/-! ### What stops a run -/

/-- Nothing has stopped, except that code may have panicked, and that a thread may wait for itself if
code may write lines where it gives the text of a key. -/
def Trail.Calm (m : Manner) (t : Trail) : Prop :=
  t.stop = none ∨ m.keyLines = true ∧ t.stop = some .waits ∨
    m.panics = true ∧ ∃ message, t.stop = some (.panics message)

/-- Nothing has stopped the line, nothing will in what helpers still do, but for those that were
`left` before, and the line does not lie within one that holds the lock unless it may. -/
structure Draft.Calm (m : Manner) (route : Route) (left : List Trail) (d : Draft) : Prop where
  route : d.route = route
  trail : d.trail.Calm m
  behind : ∀ t ∈ d.behind, t ∈ left ∨ t.Calm m
  free : m.keyLines = false → d.thread.holdsLock = false

namespace Trail

variable {m : Manner} {t : Trail}

theorem calm_silent_iff : t.Calm .silent ↔ t.goesOn := by
  simp [Calm, goesOn, Manner.silent]

theorem Calm.of_stop_eq {u : Trail} (h : t.Calm m) (hu : u.stop = t.stop) : u.Calm m := by
  rwa [Calm, hu]

theorem Calm.waits (hm : m.keyLines = true) (h : t.Calm m) : (t.stopWith .waits).Calm m := by
  unfold stopWith
  split
  · exact .inr (.inl ⟨hm, rfl⟩)
  · exact h

theorem Calm.panics (hm : m.panics = true) (h : t.Calm m) (message : String) :
    (t.stopWith (.panics message)).Calm m := by
  unfold stopWith
  split
  · exact .inr (.inr ⟨hm, message, rfl⟩)
  · exact h

theorem Calm.join {helper : Trail} (h : t.Calm m) (h' : helper.Calm m) :
    (t.join helper).Calm m := by
  unfold Calm Trail.join at *
  rcases h with h | ⟨hs, h⟩ | ⟨hs, text, h⟩ <;>
    rcases h' with h' | ⟨hs', h'⟩ | ⟨hs', text', h'⟩ <;> simp [*]

theorem Calm.foldl_join {helpers : List Trail} (hh : ∀ h ∈ helpers, h.Calm m)
    (ht : t.Calm m) : (helpers.foldl Trail.join t).Calm m := by
  induction helpers generalizing t with
  | nil => exact ht
  | cons h rest ih =>
    exact ih (fun u hu => hh u (List.mem_cons_of_mem h hu)) (ht.join (hh h (List.mem_cons_self ..)))

/-- A thread that stands still goes on standing still, whatever helpers do. -/
theorem not_goesOn_foldl_join (h : ¬ t.goesOn) (helpers : List Trail) :
    ¬ (helpers.foldl Trail.join t).goesOn := by
  induction helpers generalizing t with
  | nil => exact h
  | cons helper rest ih =>
    apply ih
    obtain ⟨latest, stop⟩ := t
    obtain ⟨later, stop'⟩ := helper
    cases stop with
    | none => exact absurd rfl h
    | some s =>
      have hstays : (Trail.join ⟨latest, some s⟩ ⟨later, stop'⟩).stop ≠ none := by
        cases s <;> rcases stop' with _ | (_ | _ | _ | _) <;> simp [Trail.join]
      simpa [Trail.goesOn] using hstays

end Trail

namespace Draft

variable {m : Manner} {route : Route} {left : List Trail} {d : Draft}

theorem Calm.waits (h : d.Calm m route left) (hl : d.thread.holdsLock) :
    ({ d with trail := d.trail.stopWith .waits } : Draft).Calm m route left := by
  cases hm : m.keyLines with
  | false => simp [h.free hm] at hl
  | true => exact ⟨h.route, h.trail.waits hm, h.behind, h.free⟩

theorem Calm.handOn (h : d.Calm m route left) (bytes : Text.Bytes) :
    (d.handOn bytes).Calm m route left := by
  by_cases hd : d.trail.goesOn
  · rw [handOn_of_goesOn hd]
    exact ⟨h.route, h.trail, h.behind, h.free⟩
  · rwa [handOn_of_not_goesOn hd]

theorem Calm.flush (h : d.Calm m route left) : d.flush.Calm m route left := by
  unfold Draft.flush
  split
  · exact h
  · have hh := h.handOn d.scratch
    exact ⟨hh.route, hh.trail, hh.behind, hh.free⟩

theorem Calm.event (h : d.Calm m route left) (locked : Bool) (e : Event) :
    ({ d with locked, trail := d.trail.add e } : Draft).Calm m route left :=
  ⟨h.route, h.trail.of_stop_eq (by simp), h.behind, h.free⟩

theorem Calm.lock (h : d.Calm m route left) : d.lock.Calm m route left := by
  unfold Draft.lock
  split
  · exact h.flush
  split
  · next hl => exact h.waits hl
  · exact (h.event true .locked).flush

theorem Calm.write (h : d.Calm m route left) (chunk : Text.Bytes) :
    (d.write chunk).Calm m route left := by
  have he : (if scratchSize < d.used + chunk.length then d.lock else d).Calm m route left := by
    split
    · exact h.lock
    · exact h
  unfold Draft.write
  generalize (if scratchSize < d.used + chunk.length then d.lock else d) = e at he ⊢
  dsimp only
  split
  · exact he.handOn chunk
  · exact ⟨he.route, he.trail, he.behind, he.free⟩

theorem Calm.reserve (h : d.Calm m route left) (n : Nat) : (d.reserve n).Calm m route left := by
  unfold Draft.reserve
  split
  · exact h.lock
  · exact h

theorem Calm.complete (h : d.Calm m route left) : d.complete.Calm m route left := by
  unfold Draft.complete
  split
  · exact h.flush
  split
  · next hl => exact h.waits hl
  · exact (h.event d.locked .shared).flush

theorem Calm.unlock (h : d.Calm m route []) : d.unlock.Calm m := by
  have hbehind : ∀ t ∈ d.behind.reverse, t.Calm m := fun t ht =>
    (h.behind t (List.mem_reverse.1 ht)).resolve_left (by simp)
  exact Trail.Calm.foldl_join (t := d.trail.push .unlocked) hbehind h.trail

theorem Calm.release (h : d.Calm m route []) : d.release.Calm m := by
  unfold Draft.release
  dsimp only
  split
  · exact h.complete.unlock
  · exact h.complete.trail.of_stop_eq (by simp)

theorem Calm.finish (h : d.Calm m route []) (hr : route.severity.alwaysOn = false) :
    d.finish.Calm m := by
  unfold Draft.finish
  split
  · have hd : d.route.after d.thread d.release = d.release := by
      rw [h.route]
      unfold Route.after
      split <;> simp_all [Severity.alwaysOn]
    rw [hd]
    exact h.release
  · unfold abandon
    split
    · exact h.unlock
    · exact h.trail

theorem Calm.start {thread : Thread} {route : Route} {t : Trail} (ht : t.Calm m)
    (hl : m.keyLines = false → thread.holdsLock = false) : (start thread route t).Calm m route [] :=
  ⟨rfl, ht, fun _ h => by simp [Draft.start] at h, hl⟩

theorem Calm.helped {h : Helped} (hd : d.Calm m route left) (hb : h.behind.Calm m) :
    (d.helped h).Calm m route left := by
  refine ⟨hd.route, hd.trail.of_stop_eq (by simp [Draft.helped]), fun t ht => ?_, hd.free⟩
  simp only [Draft.helped] at ht
  split at ht
  · exact hd.behind t ht
  · rcases List.mem_cons.1 ht with rfl | ht
    · exact .inr hb
    · exact hd.behind t ht

end Draft

mutual

theorem Instr.run_calm {m : Manner} {route : Route} {left : List Trail} (i : Instr) (d : Draft)
    (hi : i.Tame m) (hd : d.Calm m route left) : (i.run d).Calm m route left := by
  cases i with
  | chunk bytes => exact hd.write bytes
  | reserve n => exact hd.reserve n
  | separate mark =>
    simp only [Instr.run]
    split
    · exact hd.write mark
    · exact hd
  | owe owed => exact ⟨hd.route, hd.trail, hd.behind, hd.free⟩
  | block body => exact runScript_calm body d hi hd
  | later made => exact Instr.run_calm (made ()) d hi hd
  | direct acts =>
    have hf : m.atKeys.lines = true → m.atKeys.keyLines = false → d.caller.holdsLock = false :=
      fun h h' => absurd (h.symm.trans h') (by simp)
    exact ⟨hd.route, runActs_calm (m := m.atKeys) acts d.caller d.trail hi hf hd.trail, hd.behind,
      hd.free⟩
  | guarded acts onTime tooLate =>
    obtain ⟨ha, ho, hl⟩ := hi
    simp only [Instr.run]
    split
    · have hh := hd.helped (runHelper_calm acts ha)
      split
      · exact runScript_calm onTime _ ho hh
      · exact runScript_calm tooLate _ hl hh
    · next hk =>
      have hf : m.lines = true → m.keyLines = false → d.caller.holdsLock = false :=
        fun _ h => by simpa [caller, hk] using hd.free h
      exact runScript_calm onTime _ ho
        ⟨hd.route, runActs_calm acts d.caller d.trail ha hf hd.trail, hd.behind, hd.free⟩
termination_by structural i

theorem runScript_calm {m : Manner} {route : Route} {left : List Trail} (s : List Instr) (d : Draft)
    (hs : Script.Tame m s) (hd : d.Calm m route left) : (runScript s d).Calm m route left := by
  cases s with
  | nil => exact hd
  | cons i rest =>
    simp only [runScript]
    split
    · exact runScript_calm rest _ hs.2 (Instr.run_calm i d hs.1 hd)
    · exact hd
termination_by structural s

theorem Act.run_calm {m : Manner} (a : Act) (thread : Thread) (t : Trail) (ha : a.Tame m)
    (hf : m.lines = true → m.keyLines = false → thread.holdsLock = false) (ht : t.Calm m) :
    (a.run thread t).Calm m := by
  cases a with
  | called label => exact ht.of_stop_eq (by simp [Act.run])
  | slow => exact ht
  | line route body =>
    obtain ⟨hs, hr, hb⟩ := ha
    have hd : (Draft.start thread route t).Calm m route [] := .start ht (hf hs)
    exact (runScript_calm body _ hb hd).finish hr
  | panic message => exact ht.panics ha message
termination_by structural a

theorem runActs_calm {m : Manner} (acts : List Act) (thread : Thread) (t : Trail)
    (ha : Acts.Tame m acts)
    (hf : m.lines = true → m.keyLines = false → thread.holdsLock = false) (ht : t.Calm m) :
    (runActs acts thread t).Calm m := by
  cases acts with
  | nil => exact ht
  | cons a rest =>
    simp only [runActs]
    split
    · exact runActs_calm rest thread _ ha.2 hf (Act.run_calm a thread t ha.1 hf ht)
    · exact ht
termination_by structural acts

theorem runHelper_calm {m : Manner} (acts : List Act) (ha : Acts.Tame m acts) :
    (runHelper acts).behind.Calm m := by
  cases acts with
  | nil => exact .inl rfl
  | cons a rest =>
    have hf : m.lines = true → m.keyLines = false → Thread.helper.holdsLock = false :=
      fun _ _ => rfl
    cases a with
    | called label => exact runHelper_calm rest ha.2
    | slow => exact runActs_calm rest .helper .empty ha.2 hf (.inl rfl)
    | line route body =>
      obtain ⟨⟨hs, hr, hb⟩, hrest⟩ := ha
      have hd : (Draft.start .helper route .empty).Calm m route [] :=
        .start (.inl rfl) fun _ => rfl
      exact runActs_calm rest .helper _ hrest hf ((runScript_calm body _ hb hd).finish hr)
    | panic message => exact .inl rfl
termination_by structural acts

end

end Logline
