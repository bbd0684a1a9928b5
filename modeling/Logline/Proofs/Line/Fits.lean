import Logline.Proofs.Line.Calls
import Logline.Proofs.Line.Past
import Logline.Proofs.Line.Steps

/-!
Which lines take the output lock for themselves. Whether a line fits is asked piece by piece, for
each chunk and for the room of a number ahead of each value that stands as an item or behind a key; for
the texts of messages, modules and keys, and for those in a list of texts, no room is asked for
(`Script.starts_of_values`). What these questions come to is told by the length of the line and by where
these values begin (`Exceeds`): a line takes the lock if it is longer than the scratch space, and also
if it would fit, but a value in it begins so late that there is no room left for a number.
-/

namespace Logline

open Json Text Script

/-! ### Where values begin -/

mutual

/-- Where room is asked for, counted in bytes from the beginning, if all code answers in time: where
values begin that stand as items or behind keys (`Script.starts_of_values`). -/
def Instr.starts : Instr → Bool → List Nat
  | .reserve _, _ => [0]
  | .block body, owed => Script.starts body owed
  | .later made, owed => (made ()).starts owed
  | .guarded _ onTime _, owed => Script.starts onTime owed
  | _, _ => []
termination_by structural i => i

def Script.starts : List Instr → Bool → List Nat
  | [], _ => []
  | i :: rest, owed =>
    i.starts owed ++
      (Script.starts rest (i.wording owed).2).map ((i.wording owed).1.length + ·)
termination_by structural s => s

end

theorem Script.starts_append (a b : Script) (owed : Bool) :
    starts (a ++ b) owed =
      starts a owed ++
        (starts b (wording a owed).2).map ((wording a owed).1.length + ·) := by
  induction a generalizing owed with
  | nil => simp [starts, wording]
  | cons i rest ih =>
    have hshift : ∀ m n : Nat, (m + ·) ∘ (n + ·) = (m + n + ·) :=
      fun m n => funext fun x => (Nat.add_assoc m n x).symm
    simp [starts, wording, ih, hshift]

theorem Script.starts_later (made : Unit → Script) (owed : Bool) :
    starts [later made] owed = starts (made ()) owed := by
  simp [later, starts, Instr.starts]

theorem Script.starts_eq_nil {s : Script} (h : ∀ i ∈ s, ∀ owed, i.starts owed = []) (owed : Bool) :
    starts s owed = [] := by
  induction s generalizing owed with
  | nil => rfl
  | cons i rest ih =>
    obtain ⟨hi, hrest⟩ := List.forall_mem_cons.1 h
    rw [starts, hi, ih hrest, List.map_nil, List.nil_append]

/-- **Whose beginnings count.** Room is asked for once behind the separator of each value that stands as
an item or behind a key, and then by what stands in it. A text that is no such value asks for none: a
message or the name of a module, a key, and each of a list of texts. -/
theorem Script.starts_of_values (owed : Bool) :
    (∀ body, starts (framed body) owed =
      (itemMark.wording owed).1.length ::
        (starts body false).map ((itemMark.wording owed).1.length + ·)) ∧
    (∀ s, starts (quote s) owed = []) ∧ (∀ label, starts (key label) owed = []) ∧
    ∀ texts : List String,
      starts (opening "[" ++ texts.flatMap quote ++ closing "]") owed = [] := by
  have hquote : ∀ s : String, ∀ i ∈ quote s, ∀ owed, i.starts owed = [] := by
    intro s i hi owed
    simp only [quote, quoteChunks, List.cons_append, List.mem_cons, List.mem_append, List.mem_map,
      List.not_mem_nil, or_false] at hi
    rcases hi with rfl | rfl | ⟨chunk, -, rfl⟩ | rfl | rfl <;> rfl
  refine ⟨fun body => ?_, fun s => starts_eq_nil (hquote s) owed, fun label => ?_, fun texts => ?_⟩
  · simp [framed, itemMark, starts, Instr.starts, Instr.wording]
  · refine starts_eq_nil (fun i hi => ?_) owed
    simp only [key, List.cons_append, List.mem_cons, List.mem_append, List.not_mem_nil,
      or_false] at hi
    rcases hi with rfl | rfl | hi | rfl | rfl
    case inr.inr.inl => exact hquote label i hi
    all_goals exact fun _ => rfl
  · refine starts_eq_nil (fun i hi => ?_) owed
    simp only [opening, closing, List.cons_append, List.nil_append, List.mem_cons, List.mem_append,
      List.mem_flatMap, List.not_mem_nil, or_false] at hi
    rcases hi with rfl | rfl | rfl | ⟨s, -, hi⟩ | rfl | rfl
    case inr.inr.inr.inl => exact hquote s i hi
    all_goals exact fun _ => rfl

mutual

theorem Instr.starts_le (i : Instr) (owed : Bool) :
    ∀ n ∈ i.starts owed, n ≤ (i.wording owed).1.length := by
  cases i with
  | reserve room => simp [Instr.starts]
  | block body => exact Script.starts_le body owed
  | later made => exact Instr.starts_le (made ()) owed
  | guarded acts onTime tooLate => exact Script.starts_le onTime owed
  | _ => simp [Instr.starts]
termination_by structural i

theorem Script.starts_le (s : List Instr) (owed : Bool) :
    ∀ n ∈ Script.starts s owed, n ≤ (Script.wording s owed).1.length := by
  cases s with
  | nil => simp [Script.starts]
  | cons i rest =>
    have hi := Instr.starts_le i owed
    have hrest := Script.starts_le rest (i.wording owed).2
    intro n hn
    simp only [Script.wording, List.length_append]
    rcases List.mem_append.1 hn with hn | hn
    · exact Nat.le_add_right_of_le (hi n hn)
    · obtain ⟨m, hm, rfl⟩ := List.mem_map.1 hn
      exact Nat.add_le_add_left (hrest m hm) _
termination_by structural s

end

/-! ### When the scratch space is exceeded -/

/-- All rooms that are asked for are of this size. -/
def Instr.RoomIs (n : Nat) : Instr → Prop
  | .reserve room => room = n
  | _ => True

instance : Instr.Common (Instr.RoomIs 64) :=
  ⟨fun _ _ => trivial, fun _ _ => trivial, fun _ => trivial, rfl⟩

/-- After `before` bytes, what is said and the rooms in it do not fit into the scratch space. -/
def Exceeds (said : Bytes) (starts : List Nat) (before : Nat) : Prop :=
  scratchSize < before + said.length ∨ ∃ start ∈ starts, scratchSize < before + start + 64

theorem exceeds_nil (before : Nat) : Exceeds [] [] before ↔ scratchSize < before := by
  simp [Exceeds]

theorem exceeds_append {a b : Bytes} {starts starts' : List Nat} {before : Nat} :
    Exceeds (a ++ b) (starts ++ starts'.map (a.length + ·)) before ↔
      Exceeds a starts before ∨ Exceeds b starts' (before + a.length) := by
  have hlength : scratchSize < before + a.length →
      scratchSize < before + (a.length + b.length) := fun h => by omega
  simp only [Exceeds, List.length_append, List.mem_append, List.mem_map, or_and_right, exists_or,
    exists_exists_and_eq_and, Nat.add_assoc] at hlength ⊢
  constructor
  · rintro (h | h | h)
    · exact .inr (.inl h)
    · exact .inl (.inr h)
    · exact .inr (.inr h)
  · rintro ((h | h) | h | h)
    · exact .inl (hlength h)
    · exact .inr (.inl h)
    · exact .inl h
    · exact .inr (.inr h)

namespace Draft

/-- A line as it is while nothing stops it: what is in the scratch space is counted, and is all of
the line until the line has the lock. -/
structure Going (d : Draft) : Prop where
  goesOn : d.trail.goesOn
  free : d.thread.holdsLock = false
  counted : d.Counted
  unhanded : d.Unhanded

variable {d : Draft}

theorem going_start {thread : Thread} (h : thread.holdsLock = false) (route : Route) {t : Trail}
    (ht : t.goesOn) : (start thread route t).Going :=
  ⟨ht, h, counted_start thread route t, fun _ => rfl⟩

theorem Going.used (h : d.Going) (hl : d.locked = false) : d.used = d.spoken.length := by
  rw [h.counted, spoken, delivered, h.unhanded hl]
  rfl

theorem Going.locked_lock (h : d.Going) : d.lock.locked = true :=
  (lock_onward h.goesOn h.free).2

/-- Room that is there already takes no lock. -/
theorem Going.locked_write (h : d.Going) (chunk : Bytes) :
    (d.write chunk).locked ↔ d.locked ∨ scratchSize < d.spoken.length + chunk.length := by
  cases hl : d.locked with
  | true => simp [(write_writes d chunk).locked hl]
  | false =>
    have hlocked := h.locked_lock
    simp only [Bool.false_eq_true, false_or, ← h.used hl, write]
    by_cases hfull : scratchSize < d.used + chunk.length
    · simp only [hfull, if_true]
      split <;> simpa using hlocked
    · have hsmall : ¬ scratchSize < chunk.length := by omega
      simp [hfull, hsmall, hl]

theorem Going.locked_reserve (h : d.Going) (n : Nat) :
    (d.reserve n).locked ↔ d.locked ∨ scratchSize < d.spoken.length + n := by
  cases hl : d.locked with
  | true => simp [(reserve_writes d n).locked hl]
  | false =>
    simp only [Bool.false_eq_true, false_or, ← h.used hl, reserve]
    split
    · next hfull => simp [h.locked_lock, hfull]
    · next hfull => simp [hl, hfull]

end Draft

open Draft

/-- With silent code a line that is not stopped says its wording. -/
theorem spoken_runScript {s : Script} {d : Draft} (hs : Script.Tame .silent s) (hc : d.Counted)
    (h : (runScript s d).trail.goesOn) :
    (runScript s d).spoken = d.spoken ++ (wording s d.owed).1 ∧
      (runScript s d).owed = (wording s d.owed).2 := by
  obtain ⟨out, hsaid, hadds⟩ : ∃ out, Script.Says false s d.owed out (runScript s d).owed ∧
      d.Adds out (runScript s d).owed (runScript s d) :=
    runScript_says s d hc (.inr hs) h
  rw [Script.says_false_iff] at hsaid
  rw [hsaid, hadds.spoken hc h]
  exact ⟨rfl, rfl⟩

/-- Silent code keeps a line going, which says its wording. -/
theorem going_runScript {s : Script} {d : Draft} (hs : Script.Tame .silent s) (hd : d.Going) :
    (runScript s d).Going ∧
      (runScript s d).spoken = d.spoken ++ (wording s d.owed).1 ∧
        (runScript s d).owed = (wording s d.owed).2 := by
  have hcalm : d.Calm .silent d.route d.behind :=
    ⟨rfl, Trail.calm_silent_iff.2 hd.goesOn, fun _ hb => .inl hb, fun _ => hd.free⟩
  have hgoes := Trail.calm_silent_iff.1 (runScript_calm s d hs hcalm).trail
  obtain ⟨out, -, hadds⟩ := runScript_says s d hd.counted (.inl rfl) hgoes
  obtain ⟨left, hsteps, -⟩ := runScript_composes s [] d
  exact ⟨⟨hgoes, (congrArg Thread.holdsLock hadds.thread).trans hd.free, hadds.counted hd.counted,
    hsteps.unhanded hd.unhanded⟩, spoken_runScript hs hd.counted hgoes⟩

/-- Silent code that the line comes to changes neither the lock nor the line. -/
theorem going_ran {acts : List Act} {d : Draft} (ha : Acts.Tame .silent acts) (hd : d.Going) :
    Going { d with trail := runActs acts d.caller d.trail } := by
  have hcalm : (runActs acts d.caller d.trail).Calm .silent :=
    runActs_calm acts d.caller d.trail ha (fun h => Bool.noConfusion h)
      (Trail.calm_silent_iff.2 hd.goesOn)
  exact ⟨Trail.calm_silent_iff.1 hcalm, hd.free, hd.counted, hd.unhanded⟩

mutual

theorem Instr.locked_run (i : Instr) (d : Draft) (hi : i.Tame .silent)
    (hroom : i.Every (Instr.RoomIs 64)) (hd : d.Going)
    (hfits : d.locked = false → d.spoken.length ≤ scratchSize) :
    (i.run d).locked ↔
      d.locked ∨ Exceeds (i.wording d.owed).1 (i.starts d.owed) d.spoken.length := by
  have hnothing : d.locked ↔ d.locked ∨ Exceeds [] [] d.spoken.length := by
    rw [exceeds_nil]
    cases hl : d.locked with
    | true => simp
    | false => simpa using hfits hl
  cases i with
  | chunk bytes => simpa [Exceeds, Instr.run, Instr.wording, Instr.starts] using hd.locked_write bytes
  | reserve n =>
    obtain rfl : n = 64 := hroom
    have hroom : Exceeds [] [0] d.spoken.length ↔ scratchSize < d.spoken.length + 64 := by
      simp only [Exceeds, List.length_nil, List.mem_singleton, exists_eq_left, Nat.add_zero]
      omega
    exact (hd.locked_reserve 64).trans (or_congr_right hroom.symm)
  | separate mark =>
    simp only [Instr.run, Instr.wording, Instr.starts]
    by_cases ho : d.owed
    · simpa [Exceeds, ho] using hd.locked_write mark
    · simpa [ho] using hnothing
  | owe owed => exact hnothing
  | block body => exact locked_runScript body d hi hroom hd hfits
  | later made => exact Instr.locked_run (made ()) d hi hroom hd hfits
  | direct acts => exact hnothing
  | guarded acts onTime tooLate =>
    obtain ⟨ha, honTime, -⟩ := hi
    obtain ⟨-, hrooms, -⟩ := hroom
    by_cases hl : d.locked
    · have hrun : (Instr.guarded acts onTime tooLate).run d =
          runScript onTime (d.helped (runHelper acts)) := by
        simp [Instr.run, hl, answered_of_tame ha]
      have hgoing : (d.helped (runHelper acts)).Going := by
        refine ⟨?_, hd.free, hd.counted, hd.unhanded⟩
        simpa [Draft.helped, Trail.goesOn] using hd.goesOn
      rw [hrun]
      exact locked_runScript onTime _ honTime hrooms hgoing hfits
    · have hrun : (Instr.guarded acts onTime tooLate).run d =
          runScript onTime { d with trail := runActs acts d.caller d.trail } := by
        simp [Instr.run, hl]
      rw [hrun]
      exact locked_runScript onTime _ honTime hrooms (going_ran ha hd) hfits
termination_by structural i

/-- A line has the lock after a run if it had it before, or what is said, or a room that is asked for,
exceeds the scratch space. -/
theorem locked_runScript (s : List Instr) (d : Draft) (hs : Script.Tame .silent s)
    (hroom : Script.Every (Instr.RoomIs 64) s) (hd : d.Going)
    (hfits : d.locked = false → d.spoken.length ≤ scratchSize) :
    (runScript s d).locked ↔
      d.locked ∨ Exceeds (Script.wording s d.owed).1 (Script.starts s d.owed) d.spoken.length := by
  cases s with
  | nil =>
    cases hl : d.locked with
    | true => simp [runScript, hl]
    | false => simpa [runScript, hl, Script.wording, Script.starts, exceeds_nil] using hfits hl
  | cons i rest =>
    have hone : runScript [i] d = i.run d := if_pos hd.goesOn
    obtain ⟨hgoing, hspoken, howed⟩ := going_runScript (s := [i]) ⟨hs.1, trivial⟩ hd
    rw [hone] at hgoing hspoken howed
    have hwording : Script.wording [i] d.owed = i.wording d.owed := by simp [Script.wording]
    rw [hwording] at hspoken howed
    have hi := Instr.locked_run i d hs.1 hroom.1 hd hfits
    have hstill : (i.run d).locked = false → (i.run d).spoken.length ≤ scratchSize := by
      intro hl
      rw [hspoken, List.length_append]
      by_contra hlong
      have hlocked := hi.2 (.inr (.inl (by omega)))
      exact absurd (hl.symm.trans hlocked) (by simp)
    have hrest := locked_runScript rest (i.run d) hs.2 hroom.2 hgoing hstill
    rw [hspoken, List.length_append, howed, hi, or_assoc] at hrest
    rw [runScript, if_pos hd.goesOn, hrest]
    exact or_congr_right exceeds_append.symm
termination_by structural s

end

/-! ### The events of a line -/

/-- A line that has not ended has the lock if it took it. -/
theorem locked_mem_iff {events : List Event} {s : Stage} (h : stage? events = some s)
    (hs : s ≠ .over) : .locked ∈ events ↔ s = .alone := by
  induction events generalizing s with
  | nil =>
    obtain rfl : Stage.fresh = s := Option.some.inj h
    simp
  | cons e earlier ih =>
    obtain ⟨before, hbefore, hnext⟩ := stage?_cons.1 h
    have hb : before ≠ .over := by
      rintro rfl
      cases e <;> simp_all [Event.next?]
    rw [List.mem_cons, ih hbefore hb]
    cases e <;> cases before <;> simp_all [Event.next?] <;> subst hnext <;> simp

theorem Draft.InTurn.locked_mem_iff {d : Draft} (h : d.InTurn) :
    .locked ∈ d.trail.latest ↔ d.locked := by
  have hmem := Logline.locked_mem_iff h.stage (by split <;> simp)
  cases hl : d.locked <;> simpa [hl] using hmem

/-- Code that writes no lines keeps a line in turn. -/
theorem Composes.inTurn {s rest : Script} {d e : Draft} (h : Composes s d rest e)
    (hs : Script.Tame .unlogged s) (hd : d.InTurn) :
    Script.Tame .unlogged rest ∧ e.InTurn ∧ e.route = d.route := by
  induction h with
  | refl => exact ⟨hs, hd, rfl⟩
  | step _ hgo ih =>
    obtain ⟨⟨hi, hrest⟩, hturn, hroute⟩ := ih
    obtain ⟨hon, hnext⟩ := Instr.advance_onward hgo hturn.free hi hrest
    exact ⟨hnext, hon.inTurn hturn, hon.route.trans hroute⟩

namespace Draft

variable {d : Draft}

/-- A line without the lock is handed on in one piece, while the lock is had together with others. -/
theorem Going.finish_of_not_locked (h : d.Going) (hl : d.locked = false) (hne : d.spoken ≠ []) :
    d.finish.latest =
      [.unshared, .wrote d.route.destination d.spoken d.route.reportErrors, .shared] ++
        d.trail.latest := by
  have hspoken : d.scratch = d.spoken := by
    rw [spoken, delivered, h.unhanded hl]
    rfl
  have hused : d.used ≠ 0 := by
    rw [h.used hl]
    exact fun hzero => hne (List.eq_nil_of_length_eq_zero hzero)
  have hgo : (d.trail.push .shared).goesOn := h.goesOn
  have hcomplete : d.complete = { d with
      gathered := []
      used := 0
      handed := d.spoken :: d.handed
      trail := (d.trail.push .shared).push
        (.wrote d.route.destination d.spoken d.route.reportErrors) } := by
    simp only [complete, hl, h.free, Bool.false_eq_true, if_false, Trail.add, h.goesOn, if_true,
      flush, hused, handOn, hgo]
    rw [← hspoken]
    rfl
  rw [finish, if_pos h.goesOn, latest_after, release, hcomplete]
  simp only [hl, Bool.false_eq_true, if_false, Trail.add, Trail.goesOn_push, h.goesOn, if_true]
  rfl

end Draft

/-! ### Calls -/

namespace Writer

variable {now : Clock → Moment} {w : Writer Value} {form : Form Value} {thread : Thread}
  {t : Trail}

variable (now w form) in
/-- A line asks for no other room than that of a number. -/
theorem rooms_script : Script.Every (Instr.RoomIs 64) (w.script now form) :=
  ⟨Layout.every_line w form ⟨fun _ _ _ _ => trivial, fun _ _ _ _ _ _ => trivial, fun _ _ => trivial⟩,
    trivial⟩

variable (now w form) in
/-- The last chunk of a line ends with the line break. -/
theorem exists_break : ∃ s bracket,
    w.script now form = [later fun _ => s ++ [.chunk (bracket ++ [0x0A]), .owe false]] := by
  obtain ⟨bracket, hend⟩ : ∃ bracket,
      [text (if w.settings.labels.isSome then "\x7d\n" else "]\n"), .owe false] =
        [.chunk (bracket ++ [0x0A]), .owe false] := by
    cases w.settings.labels.isSome
    · exact ⟨bytes "]", rfl⟩
    · exact ⟨bytes "\x7d", rfl⟩
  let context := entryWritings now w.context
  let args := formWritings now form
  refine ⟨Layout.head w.settings now w.severity ++
    Layout.body w.settings context.isEmpty form args ++
      (Layout.contextPart w.settings context ++ Layout.modulePart w.settings w.module), bracket, ?_⟩
  rw [script, Layout.line, Layout.tail, hend, ← List.append_assoc]

variable (now w form) in
theorem wording_ne_nil : (Script.wording (w.script now form) false).1 ≠ [] := by
  obtain ⟨s, bracket, hscript⟩ := exists_break now w form
  rw [hscript, wording_later, Script.wording_append]
  simp [Script.wording, Instr.wording]

variable (now w form) in
/-- The line break comes after all values. -/
theorem lt_of_mem_starts : ∀ start ∈ Script.starts (w.script now form) false,
    start < (Script.wording (w.script now form) false).1.length := by
  obtain ⟨s, bracket, hscript⟩ := exists_break now w form
  rw [hscript, Script.starts_later, wording_later, Script.starts_append,
    Script.wording_append]
  intro start hstart
  have hbefore : start ∈ Script.starts s false := by
    simpa [Script.starts, Instr.starts] using hstart
  have hle := Script.starts_le s false start hbefore
  simp only [Script.wording, Instr.wording, List.length_append, List.length_cons]
  omega

/-- Code that writes no lines leaves a line in turn. -/
theorem draft_turn (hs : Script.Tame .unlogged (w.script now form))
    (hfree : thread.holdsLock = false) :
    (w.draft now form thread .empty).InTurn ∧
      (w.draft now form thread .empty).route = Layout.route w := by
  obtain ⟨left, hsteps, -⟩ :=
    runScript_composes (w.script now form) [] (.start thread (Layout.route w) .empty)
  rw [List.append_nil] at hsteps
  exact (hsteps.inTurn hs (Draft.inTurn_start hfree _)).2

section Events

variable (hcode : ∀ x ∈ w.parts form, ∀ code ∈ x.codes, code.IsPrompt)
include hcode

variable (now) in
theorem tame_script_of_prompt (m : Manner) : Script.Tame m (w.script now form) :=
  tame_script (Value.tame_of_prompt hcode (fun _ hk _ hx => w.mem_parts_of_key form hk hx) m)

variable (now thread) in
/-- Whether a line takes the lock is told by its wording and by where its values begin. -/
theorem draft_locked_iff (ht : t.goesOn) (hfree : thread.holdsLock = false) :
    (w.draft now form thread t).locked ↔
      scratchSize < (Script.wording (w.script now form) false).1.length ∨
        ∃ start ∈ Script.starts (w.script now form) false, scratchSize < start + 64 := by
  have hlocked := locked_runScript (w.script now form) (.start thread (Layout.route w) t)
    (tame_script_of_prompt now hcode .silent) (rooms_script now w form) (Draft.going_start hfree _ ht)
    fun _ => Nat.zero_le _
  simpa [Draft.start, Exceeds, draft, Draft.spoken, Draft.delivered, Draft.scratch] using hlocked

/-- A line whose code is prompt goes on to its end, and says its wording. -/
theorem draft_going (ht : t.goesOn) (hfree : thread.holdsLock = false) :
    (w.draft now form thread t).Going ∧
      (w.draft now form thread t).spoken = (Script.wording (w.script now form) false).1 := by
  have hstart := Draft.going_start hfree (Layout.route w) ht
  obtain ⟨hgoing, hspoken, -⟩ :=
    going_runScript (tame_script_of_prompt now hcode .silent) hstart
  exact ⟨hgoing, hspoken⟩

theorem draft_inTurn (hfree : thread.holdsLock = false) :
    (w.draft now form thread .empty).InTurn ∧
      (w.draft now form thread .empty).route = Layout.route w :=
  draft_turn (tame_script_of_prompt now hcode .unlogged) hfree

variable (now thread) in
/-- What a line by itself leaves behind. -/
theorem draft_events (hfree : thread.holdsLock = false) :
    let d := w.draft now form thread .empty
    let line := (Script.wording (w.script now form) false).1
    let destination := w.settings.outputFor w.severity
    (.locked ∈ d.finish.latest ↔ d.locked) ∧
      (∀ h ∈ handings d.finish.latest, h.1 = destination) ∧
        ((handings d.finish.latest).reverse.map Prod.snd).flatten = line ∧
          (d.locked = false → handings d.finish.latest = [(destination, line)]) := by
  intro d line destination
  obtain ⟨hgoing, hspoken⟩ : d.Going ∧ d.spoken = line := draft_going hcode rfl hfree
  obtain ⟨hturn, hroute⟩ : d.InTurn ∧ d.route = Layout.route w := draft_inTurn hcode hfree
  have hdestination : d.route.destination = destination := congrArg Route.destination hroute
  obtain ⟨hsuffix, -, hhandings⟩ := Draft.finish_turn hturn
  have hcomplete := Draft.goesOn_complete hgoing.goesOn hgoing.free
  have hwhole : ((handings d.finish.latest).reverse.map Prod.snd).flatten = line := by
    rw [hhandings, Draft.closed, if_pos hgoing.goesOn, ← hspoken,
      ← Draft.delivered_complete hgoing.counted hcomplete]
    simp [Draft.delivered, Function.comp_def]
  have hto : ∀ h ∈ handings d.finish.latest, h.1 = destination := by
    intro h hh
    rw [hhandings] at hh
    obtain ⟨bytes, -, rfl⟩ := List.mem_map.1 hh
    exact hdestination
  have hmem := hturn.locked_mem_iff
  cases hl : d.locked with
  | true =>
    have htaken : .locked ∈ d.finish.latest := hsuffix.subset (hmem.2 hl)
    exact ⟨by simpa using htaken, hto, hwhole, fun h => Bool.noConfusion h⟩
  | false =>
    have hne : d.spoken ≠ [] := by
      rw [hspoken]
      exact wording_ne_nil now w form
    have hfinish := hgoing.finish_of_not_locked hl hne
    have hnone : handings d.trail.latest = [] := by
      rw [hturn.handings, hgoing.unhanded hl]
      rfl
    have hfree : .locked ∉ d.trail.latest := fun h => by simp [hl] at hmem; exact hmem h
    refine ⟨?_, hto, hwhole, fun _ => ?_⟩
    · rw [hfinish]
      simpa using hfree
    · rw [hfinish, hdestination, hspoken]
      show (destination, line) :: handings d.trail.latest = [(destination, line)]
      rw [hnone]

end Events

variable (now w form thread) in
/-- A line after others is the line by itself, after their events. -/
theorem draft_past (ht : t.goesOn) :
    w.draft now form thread t = (w.draft now form thread .empty).past t.latest := by
  have hstart : Draft.start thread (Layout.route w) t =
      (Draft.start thread (Layout.route w) .empty).past t.latest :=
    congrArg (Draft.start thread (Layout.route w)) (Trail.eq_past_of_goesOn ht)
  rw [draft, hstart]
  exact runScript_past _ _ _

variable (now w form thread) in
theorem finish_draft_past (ht : t.goesOn) :
    (w.draft now form thread t).finish =
      (w.draft now form thread .empty).finish.past t.latest := by
  rw [draft_past now w form thread ht, Draft.finish_past]

variable (now w form thread) in
/-- A call after others is the call by itself, after their events. -/
theorem runActs_call (ht : t.goesOn) :
    runActs (handleActs now (.enabled w) form fun _ => formWritings now form) thread t =
      (w.draft now form thread .empty).finish.past t.latest :=
  (runActs_handleActs now w form thread t ht).trans (finish_draft_past now w form thread ht)

variable (now w form thread) in
theorem latest_call (ht : t.goesOn) :
    (runActs (handleActs now (.enabled w) form fun _ => formWritings now form) thread t).latest =
      (w.draft now form thread .empty).finish.latest ++ t.latest := by
  rw [runActs_call now w form thread ht]
  rfl

/-- **When a line takes the lock.** A line takes the output lock for itself if it is longer than the
scratch space, or if a value that stands in it as an item or behind a key begins so late that there is
no room left for a number; and only then. Otherwise it reaches its destination in one piece. In any
case what is handed on comes to the line. -/
theorem call_locks_iff (now : Clock → Moment) (w : Writer Value) (form : Form Value)
    (thread : Thread) (t : Trail) (ht : t.goesOn) (hfree : thread.holdsLock = false)
    (hcode : ∀ x ∈ w.parts form, ∀ code ∈ x.codes, code.IsPrompt) :
    let line := (Script.wording (w.script now form) false).1
    let starts := Script.starts (w.script now form) false
    let destination := w.settings.outputFor w.severity
    ∃ events,
      (runActs (handleActs now (.enabled w) form fun _ => formWritings now form) thread t).latest =
        events ++ t.latest ∧
      (.locked ∈ events ↔
        scratchSize < line.length ∨ ∃ start ∈ starts, scratchSize < start + 64) ∧
      (.locked ∉ events → handings events = [(destination, line)]) ∧
      (∀ h ∈ handings events, h.1 = destination) ∧
      ((handings events).reverse.map Prod.snd).flatten = line ∧
      ∀ start ∈ starts, start < line.length := by
  intro line starts destination
  obtain ⟨hlocked, hto, hwhole, hone⟩ := draft_events now thread hcode hfree
  have hneeds := draft_locked_iff now thread hcode (t := .empty) rfl hfree
  refine ⟨_, latest_call now w form thread ht, hlocked.trans hneeds, fun h => ?_, hto, hwhole,
    lt_of_mem_starts now w form⟩
  exact hone (Bool.eq_false_iff.2 (mt hlocked.2 h))

/-- A short line is handed on in one piece. -/
theorem short_call_fits :
    let noon : Clock → Moment := fun _ => ⟨2026, 1, 1, 12, 0, 0, 0⟩
    let w : Writer Value := ⟨0, .warn, .empty, none, .initial none⟩
    let form : Form Value := .list [.str "a", .display ⟨1, [], none⟩ "b"]
    let line := "[\"2026-01-01 12:00:00.0000Z\", \"WARN\", [\"a\", \"b\"]]\n"
    ∃ events,
      (runActs (handleActs noon (.enabled w) form fun _ => formWritings noon form)
        ⟨0, false, false⟩ .empty).latest = events ∧ .locked ∉ events ∧
          handings events = [(.stdout, bytes line)] := by
  intro noon w form line
  obtain ⟨events, hlatest, hlocked, hone, -⟩ :=
    call_locks_iff noon w form ⟨0, false, false⟩ .empty rfl rfl (by
      simp [w, form, parts, Form.args, Value.parts, Value.partsOf, Value.entryParts,
        Value.memberParts, Pairs.empty, Value.codes, Value.writtenCodes, Value.textCode?, Code.IsPrompt])
  have hstarts : Script.starts (w.script noon form) false = [39, 44] := by decide +kernel
  have hlength : (Script.wording (w.script noon form) false).1.length = 50 := by decide +kernel
  have hfits : .locked ∉ events := by
    simp [hlocked, hstarts, hlength, scratchSize]
  refine ⟨events, hlatest.trans (List.append_nil events), hfits, (hone hfits).trans ?_⟩
  decide +kernel

theorem wording_framed_quote (s : String) :
    Script.wording (framed (quote s)) false = (encode (quotedText s.toList), true) := by
  refine (Script.says_false_iff _ _ _ _).1 (says_framed.2 ⟨_, _, rfl, says_quote.2 ⟨rfl, rfl⟩, ?_⟩)
  rfl

/-- Plain characters stand in quotes as they are. -/
theorem length_quoted_plain (n : Nat) :
    (encode (quotedText (List.replicate n 'x'))).length = n + 2 := by
  have hplain : escaped (List.replicate n 'x') = List.replicate n 'x' :=
    escaped_of_plain fun c hc => by rw [List.eq_of_mem_replicate hc]; rfl
  have hlength : (encode (List.replicate n 'x')).length = n := by
    induction n with
    | zero => rfl
    | succ n ih =>
      have hn := ih (escaped_of_plain fun c hc => by rw [List.eq_of_mem_replicate hc]; rfl)
      rw [List.replicate_succ, encode_cons, List.length_append, hn]
      exact Nat.add_comm 1 n
  rw [quotedText, hplain, List.cons_append, encode_cons, encode_append, List.length_append,
    List.length_append, hlength]
  show 1 + (n + 1) = n + 2
  omega

/-- A text of 16300 characters and a null: the line fits, and not one byte of it runs over, but the null
begins so late that the line takes the lock. -/
theorem near_full_call_locks :
    let noon : Clock → Moment := fun _ => ⟨2026, 1, 1, 12, 0, 0, 0⟩
    let w : Writer Value := ⟨0, .warn, .empty, none, .initial none⟩
    let form : Form Value := .list [.str (String.ofList (List.replicate 16300 'x')), .null]
    let line := (Script.wording (w.script noon form) false).1
    ∃ events,
      (runActs (handleActs noon (.enabled w) form fun _ => formWritings noon form)
        ⟨0, false, false⟩ .empty).latest = events ∧
          line.length ≤ scratchSize ∧ .locked ∈ events := by
  intro noon w form line
  let front : Script := Layout.head w.settings noon w.severity ++ opening "["
  let long : Script := framed (quote (String.ofList (List.replicate 16300 'x')))
  let back : Script := framed [text "null"] ++ closing "]" ++ Layout.tail w.settings [] none
  have hscript : w.script noon form = [later fun _ => front ++ (long ++ back)] := by
    have hlist : Layout.line noon w form (formWritings noon form) (entryWritings noon w.context) =
        Layout.head w.settings noon w.severity ++ (opening "[" ++ (long ++ (framed [text "null"] ++
          [])) ++ closing "]") ++ Layout.tail w.settings [] none := rfl
    rw [script, hlist]
    simp [front, back]
  obtain ⟨a, hfront, ha⟩ : ∃ a, Script.wording front false = (a, false) ∧ a.length = 39 :=
    ⟨_, Prod.ext rfl (by decide +kernel), by decide +kernel⟩
  obtain ⟨b, hlong, hb⟩ : ∃ b, Script.wording long false = (b, true) ∧ b.length = 16302 := by
    refine ⟨_, wording_framed_quote _, ?_⟩
    rw [String.toList_ofList, length_quoted_plain]
  have hback : (Script.wording back true).1.length = 9 := by decide +kernel
  have hbackStarts : Script.starts back true = [2] := by decide +kernel
  have hprompt : ∀ s, ∀ x ∈ w.parts (.list [.str s, .null]), ∀ code ∈ x.codes,
      code.IsPrompt := by
    simp [w, parts, Form.args, Value.parts, Value.partsOf, Value.entryParts, Value.memberParts,
      Pairs.empty, Value.codes, Value.writtenCodes, Value.textCode?]
  clear_value front long back
  have hlength : line.length = 16350 := by
    show (Script.wording (w.script noon form) false).1.length = 16350
    rw [hscript, wording_later, Script.wording_append, hfront, Script.wording_append, hlong]
    simp only [List.length_append, ha, hb, hback]
  have hstart : 16343 ∈ Script.starts (w.script noon form) false := by
    rw [hscript, Script.starts_later, Script.starts_append, hfront, Script.starts_append, hlong,
      hbackStarts]
    simp [ha, hb]
  obtain ⟨hlocked, -⟩ := draft_events noon ⟨0, false, false⟩ (hprompt _) rfl
  refine ⟨_, rfl, by rw [hlength]; decide, ?_⟩
  rw [runActs_handleActs noon w form _ _ rfl, hlocked, draft_locked_iff noon _ (hprompt _) rfl rfl]
  exact .inr ⟨16343, hstart, by decide⟩

end Writer

end Logline
