import Mathlib
import Logline.Proofs.Line.Calls
import Logline.Proofs.Line.Steps

/-!
What becomes of a line whose code does not come to its result. Before a line has the output lock,
nothing of it is handed on, so it may be given up. When it has the lock, code runs on a helper, and a
placeholder is written if there is no answer in time: the line goes on whatever the code does.

The text of a key is the exception. It is asked for beforehand on the thread that writes the line,
also under the lock (`call_under_lock`), whether a deferred value stands there, something that is
displayed, something marshalled that is shown, or a list or a map of these. Code that panics there
leaves the part of the line that was handed on before (`call_whole_unless_key`), and code that writes
a line there waits for its own thread.
-/

namespace Logline

open Text Script

/-! ### Code that stops nothing -/

/-- Does nothing that could stop a thread. -/
def Act.isQuiet : Act → Bool
  | .called _ => true
  | .slow => true
  | _ => false

theorem goesOn_runActs {acts : List Act} (h : ∀ a ∈ acts, a.isQuiet) (thread : Thread) {t : Trail}
    (ht : t.goesOn) : (runActs acts thread t).goesOn := by
  induction acts generalizing t with
  | nil => exact ht
  | cons a rest ih =>
    rw [runActs, if_pos ht]
    refine ih (fun b hb => h b (List.mem_cons_of_mem a hb)) ?_
    have ha := h a (List.mem_cons_self ..)
    cases a with
    | called label => simpa [Act.run] using ht
    | slow => exact ht
    | _ => exact Bool.noConfusion ha

/-- If the code of keys is quiet, a line that has the lock goes on. -/
theorem Composes.goesOn_of_locked {s rest : Script} {d e : Draft} (h : Composes s d rest e)
    (hs : Script.Runs (fun acts => ∀ a ∈ acts, a.isQuiet) (fun _ _ => True) s)
    (hd : d.locked → d.trail.goesOn) : e.locked → e.trail.goesOn := by
  induction h with
  | refl => exact hd
  | @step i rest e h hgo ih =>
    intro hl
    cases hi : i.isDirect with
    | false => exact Instr.advance_goesOn hgo hi rest hl
    | true =>
      have hruns := (h.runs hs).1
      cases i with
      | direct acts => exact goesOn_runActs hruns _ hgo
      | _ => exact Bool.noConfusion hi

/-! ### Lines that do not come to their end -/

/-- A line that its thread cannot complete, since it waits for the lock, has nothing of it. -/
theorem Draft.complete_of_not_goesOn {d : Draft} (hgo : d.trail.goesOn)
    (h : d.complete.trail.goesOn = false) :
    d.locked = false ∧ d.complete.handed = d.handed ∧ d.finish = d.complete.trail := by
  cases hl : d.locked with
  | true =>
    have hflush : d.complete = d.flush := by simp [Draft.complete, hl]
    rw [hflush, Draft.goesOn_flush hgo] at h
    exact Bool.noConfusion h
  | false =>
    cases hw : d.thread.holdsLock with
    | false =>
      rw [Draft.goesOn_complete hgo hw] at h
      exact Bool.noConfusion h
    | true =>
      have hcomplete : d.complete = { d with trail := d.trail.stopWith .waits } := by
        simp [Draft.complete, hl, hw]
      have hrelease : d.release = d.complete.trail := by
        simp [Draft.release, hcomplete, hl, Trail.add, Trail.not_goesOn_stopWith]
      refine ⟨rfl, by rw [hcomplete], ?_⟩
      rw [Draft.finish, if_pos hgo, hrelease]
      unfold Route.after
      split <;> simp [Trail.stopWith, h]

namespace Writer

variable {now : Clock → Moment} {w : Writer Value} {form : Form Value} {thread : Thread} {t : Trail}
variable {K : List Act → Prop} {V : List Act → Script → Prop}

theorem runs_script (h : Value.Runs now K V (w.parts form) (w.keys form)) :
    Script.Runs K V (w.script now form) :=
  ⟨Layout.runs_line w form h, trivial⟩

variable (now w form thread t) in
theorem draft_composes : ∃ left, Composes (w.script now form)
    (.start thread (Layout.route w) t) left (w.draft now form thread t) := by
  obtain ⟨left, h, -⟩ :=
    runScript_composes (w.script now form) [] (.start thread (Layout.route w) t)
  simp only [List.append_nil] at h
  exact ⟨left, h⟩

theorem draft_of_composes {left : Script} {d : Draft}
    (h : Composes (w.script now form) (.start thread (Layout.route w) t) left d) :
    w.draft now form thread t = runScript left d := by
  rw [draft, h.runScript_eq]

/-! ### Under the lock -/

/-- With a long value before it, the code of a key is asked under the lock: of a thing that is
displayed, or of one that is marshalled, by which it is shown. -/
theorem locked_behind_long (json : Bytes) (h : scratchSize < json.length) (code : Code Value)
    (key : Value) (hkey : key = .display code "b" ∨ key = .marshal .prompt (.ok json) ⟨code, "b"⟩) :
    let noon : Clock → Moment := fun _ => ⟨2026, 1, 1, 12, 0, 0, 0⟩
    let w : Writer Value := ⟨0, .warn, .empty, none, .initial none⟩
    let form : Form Value := .map [.str "a", .marshal ⟨0, [], none⟩ (.ok json) "", key, .null]
    ∃ rest d, Composes (w.script noon form) (.start ⟨0, false, false⟩ (Layout.route w) .empty)
        (.direct (codeActs noon code) :: rest) d ∧
      d.locked = true ∧ d.thread = ⟨0, false, false⟩ ∧ d.trail.stop = none ∧
        d.handed.head? = some json := by
  intro noon w form
  have hlong := composes_past_long 52 (s := w.script noon form)
    (d := .start ⟨0, false, false⟩ (Layout.route w) .empty) h
    (by rcases hkey with rfl | rfl <;> cbv) (by rcases hkey with rfl | rfl <;> cbv)
  have hsteps := (hlong.trans (composes_after 1 _ _)).to_head
    (i := .direct (codeActs noon code)) (by rcases hkey with rfl | rfl <;> cbv)
  refine ⟨_, _, hsteps, ?_⟩
  rcases hkey with rfl | rfl <;> cbv

/-- **Under the lock only keys are waited for.** Whenever a line has the lock, its next step runs code
for the text of a key, or it keeps the lock, the line goes on, and what code is run by it runs on a
helper. That is the code of a value then, and the line goes on with its result only if it does
nothing but come to it, and else with a placeholder. -/
theorem call_under_lock (now : Clock → Moment) (w : Writer Value) (form : Form Value)
    (thread : Thread) (t : Trail) (i : Instr) (rest : Script) (d : Draft)
    (h : Composes (w.script now form) (.start thread (Layout.route w) t) (i :: rest) d)
    (hgo : d.trail.goesOn) (hl : d.locked) :
    (∃ k ∈ w.keys form, (k.writing now).keyActs () ≠ [] ∧
        i = .direct ((k.writing now).keyActs ())) ∨
      (i.advance rest d).2.trail.goesOn ∧ (i.advance rest d).2.locked ∧
        (∃ new, (i.advance rest d).2.trail.latest = new ++ d.trail.latest ∧
          ∀ label place, .called label place ∈ new → place = .helper) ∧
        ∀ acts onTime tooLate, i = .guarded acts onTime tooLate →
          Script.IsPlaceholder tooLate ∧
          (∃ x ∈ w.parts form, x.writtenCodes ≠ [] ∧ acts = x.writtenActs now) ∧
          ((∀ a ∈ acts, ∃ label, a = .called label) →
            (i.advance rest d).1 = onTime ++ rest) ∧
          (¬ (∀ a ∈ acts, ∃ label, a = .called label) →
            (i.advance rest d).1 = tooLate ++ rest) := by
  have hruns : Script.Runs (fun acts => ∃ k ∈ w.keys form, acts = (k.writing now).keyActs ())
      (fun acts late => Script.IsPlaceholder late ∧
        ∃ x ∈ w.parts form, x.writtenCodes ≠ [] ∧ acts = x.writtenActs now)
      (w.script now form) :=
    runs_script ⟨fun x hx hcodes late hlate => ⟨hlate, x, hx, hcodes, rfl⟩,
      fun k hk => ⟨k, hk, rfl⟩⟩
  have hi := (h.runs hruns).1
  cases hdirect : i.isDirect with
  | true =>
    cases i with
    | direct acts =>
      obtain ⟨k, hk, rfl⟩ := hi
      by_cases hnone : (k.writing now).keyActs () = []
      · rw [hnone]
        exact .inr ⟨hgo, hl, ⟨[], rfl, by simp⟩, by simp⟩
      · exact .inl ⟨k, hk, hnone, rfl⟩
    | _ => exact Bool.noConfusion hdirect
  | false =>
    obtain ⟨hgoes, hlocked, hevents⟩ := Instr.advance_locked hgo hl hdirect rest
    refine .inr ⟨hgoes, hlocked, hevents, ?_⟩
    rintro acts onTime tooLate rfl
    obtain ⟨⟨hlate, hcode⟩, -⟩ := hi
    refine ⟨hlate, hcode, fun hcalls => ?_, fun hcalls => ?_⟩
    · simp [Instr.advance, hl, (answered_iff acts).2 hcalls]
    · simp [Instr.advance, hl, mt (answered_iff acts).1 hcalls]

/-- Code that writes a line where it gives the text of a key, in a line that has the lock: its thread
waits for itself. -/
theorem key_waits_for_itself :
    let noon : Clock → Moment := fun _ => ⟨2026, 1, 1, 12, 0, 0, 0⟩
    let json : Bytes := List.replicate (scratchSize + 1) 0x31
    let w : Writer Value := ⟨0, .warn, .empty, none, .initial none⟩
    let code : Code Value := ⟨1, [.log (.enabled w) (.list [])], none⟩
    let form : Form Value :=
      .map [.str "a", .marshal ⟨0, [], none⟩ (.ok json) "", .display code "b", .null]
    ∃ i rest d,
      Composes (w.script noon form) (.start ⟨0, false, false⟩ (Layout.route w) .empty)
        (i :: rest) d ∧ d.trail.goesOn ∧ d.locked ∧
      (∃ k ∈ w.keys form, (k.writing noon).keyActs () ≠ [] ∧
        i = .direct ((k.writing noon).keyActs ())) ∧
      (i.advance rest d).2.trail.stop = some .waits := by
  intro noon json w code form
  obtain ⟨rest, d, hsteps, hl, hthread, hstop, -⟩ :=
    locked_behind_long json (by simp [json]) code _ (.inl rfl)
  have hgo : d.trail.goesOn := by simp [Trail.goesOn, hstop]
  have hwaits : ((Instr.direct (codeActs noon code)).advance rest d).2.trail.stop =
      some .waits := by
    obtain ⟨thread, _, _, _, _, _, locked, _, ⟨latest, stop⟩⟩ := d
    obtain rfl : thread = ⟨0, false, false⟩ := hthread
    obtain rfl : locked = true := hl
    obtain rfl : stop = none := hstop
    cbv
  rcases call_under_lock noon w form _ _ _ rest d hsteps hgo hl with hkey | ⟨hgoes, -⟩
  · exact ⟨_, rest, d, hsteps, hgo, hl, hkey, hwaits⟩
  · have hstopped : ((Instr.direct (codeActs noon code)).advance rest d).2.trail.goesOn = false := by
      simp [Trail.goesOn, hwaits]
    exact absurd (hgoes.symm.trans hstopped) (by simp)

/-! ### Lines that are given up -/

/-- A line ends with a line break. -/
theorem says_script_break {late : Bool} {out : Bytes} {owed after : Bool}
    (h : Script.Says late (w.script now form) owed out after) : ∃ said, out = said ++ [0x0A] := by
  obtain ⟨a, b, mid, rfl, -, hb⟩ := Script.says_append.1 ((says_later _).1 h)
  obtain ⟨b, c, mid, rfl, -, hc⟩ := Script.says_append.1 hb
  obtain ⟨c, e, mid, rfl, ⟨rfl, -⟩, f, _, _, rfl, ⟨rfl, -⟩, rfl, -⟩ := hc
  cases w.settings.labels.isSome
  · exact ⟨a ++ (b ++ bytes "]"), by simp; rfl⟩
  · exact ⟨a ++ (b ++ bytes "\x7d"), by simp; rfl⟩

variable (now w form thread t) in
/-- A line that comes to its end is delivered with its line break. -/
theorem draft_whole (h : (w.draft now form thread t).complete.trail.goesOn) :
    ∃ said owed, Says true (w.script now form) false (said ++ [0x0A]) owed ∧
      (w.draft now form thread t).complete.delivered = said ++ [0x0A] := by
  have hgo : (w.draft now form thread t).trail.goesOn := (Draft.adds_complete _).goesOn h
  have hstart := Draft.counted_start thread (Layout.route w) t
  obtain ⟨out, hsays, hadds⟩ : ∃ out, Says true (w.script now form) false out _ ∧
      (Draft.start thread (Layout.route w) t).Adds out _ (w.draft now form thread t) :=
    runScript_says _ _ hstart (.inl rfl) hgo
  obtain ⟨said, rfl⟩ := says_script_break hsays
  refine ⟨said, _, hsays, ?_⟩
  rw [Draft.delivered_complete (hadds.counted hstart) h, hadds.spoken hstart hgo,
    Draft.spoken_start, List.nil_append]

variable (now w form thread) in
/-- If a line is stopped under the lock, the code of a key is not quiet. -/
theorem exists_key_of_stopped (ht : t.goesOn) (hl : (w.draft now form thread t).locked)
    (h : ¬ (w.draft now form thread t).trail.goesOn) : ∃ k ∈ w.keys form, ∃ x ∈ k.parts, ∃ code,
      x.textCode? = some code ∧ ∃ a ∈ codeActs now code, a.isQuiet = false := by
  by_contra hquiet
  simp only [not_exists, not_and, Bool.not_eq_false] at hquiet
  have hkeys : Value.Runs now (fun acts => ∀ a ∈ acts, a.isQuiet) (fun _ _ => True)
      (w.parts form) (w.keys form) := by
    refine ⟨fun _ _ _ _ _ => trivial, fun k hk a ha => ?_⟩
    obtain ⟨x, hx, code, hcode, hmem⟩ := (Value.textActs_of_parts k).1 a ha
    exact hquiet k hk x hx code hcode a hmem
  obtain ⟨left, hsteps⟩ := draft_composes now w form thread t
  exact h (hsteps.goesOn_of_locked (runs_script hkeys) (fun _ => ht) hl)

/-- **A line is whole, or nothing of it is written, unless it is cut at a key.** A line that comes to
its end is delivered with its line break. One that is stopped before it has the lock has handed on
nothing, and leaves only what its thread stopped with. If it is stopped under the lock, the code of
something that stands in the place of a key panics or writes lines. -/
theorem call_whole_unless_key (now : Clock → Moment) (w : Writer Value) (form : Form Value)
    (thread : Thread) (t : Trail) (ht : t.goesOn) :
    let d := (w.draft now form thread t).closed
    (d.trail.goesOn ∧ ∃ said owed,
        Says true (w.script now form) false (said ++ [0x0A]) owed ∧
          d.delivered = said ++ [0x0A]) ∨
      (d.trail.goesOn = false ∧ d.handed = [] ∧
        (w.draft now form thread t).finish = d.trail) ∨
      d.trail.goesOn = false ∧ d.locked ∧ ∃ k ∈ w.keys form, ∃ x ∈ k.parts, ∃ code,
        x.textCode? = some code ∧ ∃ a ∈ codeActs now code, a.isQuiet = false := by
  have hunhanded : (w.draft now form thread t).Unhanded := by
    obtain ⟨left, hsteps⟩ := draft_composes now w form thread t
    exact hsteps.unhanded fun _ => rfl
  have hwhole := draft_whole now w form thread t
  have hkey := exists_key_of_stopped now w form thread ht
  generalize w.draft now form thread t = d at hunhanded hwhole hkey
  by_cases hgo : d.trail.goesOn
  · have hclosed : d.closed = d.complete := if_pos hgo
    simp only [hclosed]
    cases hcomplete : d.complete.trail.goesOn with
    | true => exact .inl ⟨rfl, hwhole hcomplete⟩
    | false =>
      obtain ⟨hl, hhanded, hfinish⟩ := Draft.complete_of_not_goesOn hgo hcomplete
      exact .inr (.inl ⟨rfl, hhanded.trans (hunhanded hl), hfinish⟩)
  · have hclosed : d.closed = d := if_neg hgo
    have hstopped : d.trail.goesOn = false := by simpa using hgo
    simp only [hclosed, hstopped]
    cases hl : d.locked with
    | false =>
      have hfinish : d.finish = d.trail := by simp [Draft.finish, Draft.abandon, hstopped, hl]
      exact .inr (.inl ⟨trivial, hunhanded hl, hfinish⟩)
    | true => exact .inr (.inr ⟨trivial, rfl, hkey hl hgo⟩)

/-- Something marshalled as a key, with code that panics when it is shown, behind a long value: the
line is cut behind the value. -/
theorem panicking_key_cuts :
    let noon : Clock → Moment := fun _ => ⟨2026, 1, 1, 12, 0, 0, 0⟩
    let json : Bytes := List.replicate (scratchSize + 1) 0x31
    let w : Writer Value := ⟨0, .warn, .empty, none, .initial none⟩
    let code : Code Value := ⟨1, [], some "boom"⟩
    let key : Value := .marshal .prompt (.ok json) ⟨code, "b"⟩
    let form : Form Value := .map [.str "a", .marshal ⟨0, [], none⟩ (.ok json) "", key, .null]
    let d := (w.draft noon form ⟨0, false, false⟩ .empty).closed
    d.trail.stop = some (.panics "boom") ∧ d.handed.head? = some json ∧
      d.locked ∧ ∃ k ∈ w.keys form, ∃ x ∈ k.parts, ∃ code,
        x.textCode? = some code ∧ ∃ a ∈ codeActs noon code, a.isQuiet = false := by
  intro noon json w code key form d
  obtain ⟨rest, e, hsteps, -, -, hstop, hhanded⟩ :=
    locked_behind_long json (by simp [json]) code _ (.inr rfl)
  have hend : d.trail.stop = some (.panics "boom") ∧ d.handed.head? = some json := by
    have hd : d = (runScript (.direct (codeActs noon code) :: rest) e).closed :=
      congrArg Draft.closed (draft_of_composes hsteps)
    have hgo : e.trail.goesOn := by simp [Trail.goesOn, hstop]
    have hrun : (Instr.run (.direct (codeActs noon code)) e).trail.stop = some (.panics "boom") := by
      simp [code, Instr.run, codeActs, effectsActs, runActs, Act.run, Trail.stopWith, hgo]
    have hnot : ¬ (Instr.run (.direct (codeActs noon code)) e).trail.goesOn := by
      simp [Trail.goesOn, hrun]
    rw [hd, runScript, if_pos hgo, runScript_of_not_goesOn hnot, Draft.closed, if_neg hnot]
    exact ⟨hrun, hhanded⟩
  have hstopped : d.trail.goesOn = false := by
    rw [Trail.goesOn, hend.1]
    rfl
  rcases call_whole_unless_key noon w form ⟨0, false, false⟩ .empty rfl with
    ⟨hgo, -⟩ | ⟨-, hnothing, -⟩ | ⟨-, hlocked, hkey⟩
  · exact absurd (hgo.symm.trans hstopped) (by simp)
  · exact absurd hend.2 (by simp [d, hnothing])
  · exact ⟨hend.1, hend.2, hlocked, hkey⟩

end Writer

end Logline
