import Logline.Unwind
import Logline.Proofs.Line.Calls
import Logline.Proofs.Settings.Runs
import Mathlib.Logic.Relation

/-!
Who hears of an exit line. A program counts the wrappers that want to hear of one, and by that number
decides whether the process ends at the line or unwinds. A machine that keeps no number, but a stack of
all that is still to be done, finds there the innermost wrapper whose body is running. Both do the same
with every routine, however wrappers are nested in bodies and in what is done on an exit
(`exit_reaches_innermost`), and the number is the same before and after.
-/

namespace Logline

/-! ### Exit lines -/

/-- Code may take its time and write lines that are no exit lines, but not where it gives the text of a
key. -/
def Manner.finishing : Manner := ⟨true, false, true, false⟩

/-- An exit line, with values whose code comes to its results. -/
structure ExitLine where
  writer : Writer Value
  form : Form Value
  severity : writer.severity = .exit
  tame : ∀ now, Value.Tame now .finishing (writer.parts form) (writer.keys form)

namespace ExitLine

variable (l : ExitLine) (now : Clock → Moment) (wrappers : Nat) (latest : List Event)

/-- The line when it is composed. Its code finds the thread as it is. -/
def draft : Draft := l.writer.draft now l.form ⟨wrappers, false, false⟩ ⟨latest, none⟩

/-- What has happened when the line is written. -/
def written : List Event := (l.draft now wrappers latest).release.latest

theorem calm_draft : (l.draft now wrappers latest).Calm .finishing (Layout.route l.writer) [] :=
  Writer.calm_draft (l.tame now) rfl fun _ => rfl

theorem finish_draft : (l.draft now wrappers latest).finish =
    ⟨l.written now wrappers latest, some (if wrappers = 0 then .ends (some 1) else .exits)⟩ := by
  have hcalm := l.calm_draft now wrappers latest
  have hgoes : ∀ t : Trail, t.Calm .finishing → t.stop = none := fun t ht =>
    ht.resolve_right fun h => h.elim (fun h => absurd h.1 Bool.false_ne_true)
      fun h => absurd h.1 Bool.false_ne_true
  have hgo : (l.draft now wrappers latest).trail.goesOn = true := by
    rw [Trail.goesOn, hgoes _ hcalm.trail]
    rfl
  have hrelease := hgoes _ hcalm.release
  have hthread : (l.draft now wrappers latest).thread = ⟨wrappers, false, false⟩ :=
    (adds_before hgo).2
  rw [Draft.finish, if_pos hgo, hcalm.route, hthread]
  unfold Route.after
  rw [show (Layout.route l.writer).severity = .exit from l.severity]
  simp [Trail.stopWith, Trail.goesOn, hrelease, written]

/-- Where nobody wants to hear of it, the line ends the process. -/
theorem run_exitLine {σ : Type} (p : Program σ) :
    (Run.writeForm (.enabled l.writer) l.form).run.run p =
      (.error (if p.wrappers = 0 then .ends (some 1) else .exits),
        { p with latest := l.written p.now p.wrappers p.latest }) := by
  have hfinish : runActs (handleActs p.now (.enabled l.writer) l.form fun _ =>
      formWritings p.now l.form) ⟨p.wrappers, false, false⟩ ⟨p.latest, none⟩ =
        ⟨l.written p.now p.wrappers p.latest,
          some (if p.wrappers = 0 then .ends (some 1) else .exits)⟩ :=
    (Writer.runActs_handleActs p.now l.writer l.form _ _ rfl).trans (l.finish_draft ..)
  rw [Run.writeForm, Updates.run_bind (Run.run_get p), Run.run_perform, hfinish]

end ExitLine

/-! ### Routines -/

/-- What a thread does that may write exit lines and hear of them. `work` uses its own memory. -/
inductive Routine (σ : Type) : Type → Type 1
  | value {α : Type} (a : α) : Routine σ α
  | work {α : Type} (f : σ → α × σ) : Routine σ α
  | exitLine (l : ExitLine) : Routine σ Unit
  | panic {α : Type} (message : String) : Routine σ α
  | bind {α β : Type} (x : Routine σ α) (f : α → Routine σ β) : Routine σ β
  | recover {α : Type} (body : Routine σ α) (onExit : Int → Routine σ Int) : Routine σ (Option α)

/-- As a program does it. -/
def Routine.run {σ : Type} : {α : Type} → Routine σ α → Run σ α
  | _, .value a => return a
  | _, .work f => modifyGet fun p => ((f p.memory).1, { p with memory := (f p.memory).2 })
  | _, .exitLine l => Run.writeForm (.enabled l.writer) l.form
  | _, .panic message => throw (.panics message)
  | _, .bind x f => do (f (← x.run)).run
  | _, .recover body onExit => Run.recoverExit body.run fun status => (onExit status).run

/-! ### The machine -/

/-- What is still to be done with a value, the innermost first. -/
inductive Stack (σ : Type) : Type → Type → Type 1
  | bottom {α : Type} : Stack σ α α
  | next {α β γ : Type} (f : α → Routine σ β) (rest : Stack σ β γ) : Stack σ α γ
  /-- A wrapper whose body is running. -/
  | body {α γ : Type} (onExit : Int → Routine σ Int) (rest : Stack σ (Option α) γ) : Stack σ α γ
  /-- A wrapper that has heard of an exit line and asks for the status. -/
  | asking {α γ : Type} (rest : Stack σ (Option α) γ) : Stack σ Int γ

/-- A wrapper, with what is to be done when it is done. -/
structure Wrapper (σ γ : Type) : Type 1 where
  {α : Type}
  onExit : Int → Routine σ Int
  rest : Stack σ (Option α) γ

namespace Stack

variable {σ : Type}

/-- The innermost wrapper whose body is running. -/
def innermost : {α γ : Type} → Stack σ α γ → Option (Wrapper σ γ)
  | _, _, .bottom => none
  | _, _, .next _ rest => rest.innermost
  | _, _, .body onExit rest => some ⟨onExit, rest⟩
  | _, _, .asking rest => rest.innermost

/-- How many bodies are running. -/
def bodies : {α γ : Type} → Stack σ α γ → Nat
  | _, _, .bottom => 0
  | _, _, .next _ rest => rest.bodies
  | _, _, .body _ rest => rest.bodies + 1
  | _, _, .asking rest => rest.bodies

theorem innermost_eq_none_iff {α γ : Type} (k : Stack σ α γ) : k.innermost = none ↔ k.bodies = 0 := by
  induction k with
  | bottom => exact ⟨fun _ => rfl, fun _ => rfl⟩
  | next f rest ih => exact ih
  | body onExit rest ih => exact ⟨fun h => (nomatch h), fun h => nomatch h⟩
  | asking rest ih => exact ih

end Stack

/-- The machine runs a routine, with a stack to come back to, or the thread has come to its end. -/
inductive Machine (σ γ : Type) : Type 1
  | runs {α : Type} (r : Routine σ α) (k : Stack σ α γ) (memory : σ) (latest : List Event)
  | ended (outcome : Except Stop γ) (memory : σ) (latest : List Event)

namespace Machine

variable {σ γ : Type}

/-- An exit line goes to the innermost wrapper whose body is running, and to no other: that one asks for
the status, once, and is no longer among those whose bodies run. If there is none, the process ends. -/
def unwind {α : Type} (k : Stack σ α γ) (memory : σ) (latest : List Event) : Machine σ γ :=
  match k.innermost with
  | some w => .runs (w.onExit 1) (.asking w.rest) memory latest
  | none => .ended (.error (.ends (some 1))) memory latest

/-- Gives a value to what waits for it. -/
def give : {α : Type} → α → Stack σ α γ → σ → List Event → Machine σ γ
  | _, a, .bottom, m, l => .ended (.ok a) m l
  | _, a, .next f rest, m, l => .runs (f a) rest m l
  | _, a, .body _ rest, m, l => .runs (.value (some a)) rest m l
  | _, status, .asking rest, m, l =>
    if 0 ≤ status then .ended (.error (.ends (some status))) m l
    else .runs (.value none) rest m l

def step (now : Clock → Moment) : Machine σ γ → Option (Machine σ γ)
  | .runs (.value a) k m l => some (give a k m l)
  | .runs (.work f) k m l => some (.runs (.value (f m).1) k (f m).2 l)
  | .runs (.exitLine line) k m l => some (unwind k m (line.written now k.bodies l))
  | .runs (.panic message) _ m l => some (.ended (.error (.panics message)) m l)
  | .runs (.bind x f) k m l => some (.runs x (.next f k) m l)
  | .runs (.recover body onExit) k m l => some (.runs body (.body onExit k) m l)
  | .ended .. => none

/-- One state comes after the other, any number of steps later. -/
def Reaches (now : Clock → Moment) : Machine σ γ → Machine σ γ → Prop :=
  Relation.ReflTransGen fun m m' => m.step now = some m'

/-- How the machine goes on when a routine has its outcome. -/
def after {α : Type} (k : Stack σ α γ) (outcome : Except Stop α) (memory : σ)
    (latest : List Event) : Machine σ γ :=
  match outcome with
  | .ok a => .runs (.value a) k memory latest
  | .error .exits => unwind k memory latest
  | .error stop => .ended (.error stop) memory latest

variable {now : Clock → Moment} {m m' m'' : Machine σ γ}

theorem Reaches.head (h : m.step now = some m') (h' : Reaches now m' m'') : Reaches now m m'' :=
  Relation.ReflTransGen.head h h'

/-- An end that is reached is the only one. -/
theorem Reaches.ended_unique {o o' : Except Stop γ} {x x' : σ} {l l' : List Event}
    (h : Reaches now m (.ended o x l)) (h' : Reaches now m (.ended o' x' l')) :
    o' = o ∧ x' = x ∧ l' = l := by
  induction h using Relation.ReflTransGen.head_induction_on with
  | refl =>
    rcases Relation.ReflTransGen.cases_head h' with hsame | ⟨_, hstep, -⟩
    · cases hsame
      exact ⟨rfl, rfl, rfl⟩
    · exact absurd hstep (by simp [step])
  | head hstep _ ih =>
    rcases Relation.ReflTransGen.cases_head h' with rfl | ⟨next, hstep', hrest⟩
    · exact absurd hstep (by simp [step])
    · obtain rfl := Option.some.inj (hstep.symm.trans hstep')
      exact ih hrest

end Machine

/-! ### The program does what the machine does -/

namespace Run

variable {σ α : Type} {body : Run σ α} {p q : Program σ}

theorem run_attempt {o : Except Stop α} (h : body.run.run p = (o, q)) :
    (attempt body).run.run p = (.ok o, q) := by
  have hbody : body p = (o, q) := h
  show attempt body p = (.ok o, q)
  unfold attempt
  cases o with
  | ok a =>
    simp only [tryCatch, tryCatchThe, MonadExceptOf.tryCatch, ExceptT.tryCatch, ExceptT.mk, bind,
      ExceptT.bind, StateT.bind, hbody]
    rfl
  | error s =>
    simp only [tryCatch, tryCatchThe, MonadExceptOf.tryCatch, ExceptT.tryCatch, ExceptT.mk, bind,
      ExceptT.bind, StateT.bind, hbody]
    rfl

/-- What a wrapper makes of the end of its body. -/
def hear (onExit : Int → Run σ Int) : Except Stop α → Run σ (Option α)
  | .ok a => return some a
  | .error .exits => do
    let status ← onExit 1
    if 0 ≤ status then throw (.ends (some status)) else return none
  | .error s => throw s

/-- The number of wrappers is one more while the body runs, however the body ends. -/
theorem run_recoverExit {o : Except Stop α} (onExit : Int → Run σ Int)
    (h : body.run.run { p with wrappers := p.wrappers + 1 } = (o, q)) :
    (recoverExit body onExit).run.run p =
      (hear onExit o).run.run { q with wrappers := q.wrappers - 1 } := by
  have hbody := Updates.run_bind (run_attempt h) fun ended => (do
    modify fun p => { p with wrappers := p.wrappers - 1 }
    hear onExit ended : Run σ (Option α))
  exact hbody

end Run

namespace Machine

variable {σ γ : Type}

theorem unwind_next {α β : Type} (f : α → Routine σ β) (k : Stack σ β γ) (memory : σ)
    (latest : List Event) : unwind (.next f k) memory latest = unwind k memory latest := rfl

theorem unwind_asking {α : Type} (k : Stack σ (Option α) γ) (memory : σ) (latest : List Event) :
    unwind (.asking k) memory latest = unwind k memory latest := rfl

/-- A stop passes by what does not stop it. -/
theorem after_error {α β : Type} {k : Stack σ α γ} {k' : Stack σ β γ} {memory : σ}
    {latest : List Event} (h : unwind k memory latest = unwind k' memory latest) (s : Stop) :
    after k (.error s) memory latest = after k' (.error s) memory latest := by
  cases s with
  | exits => exact h
  | panics message => rfl
  | ends status => rfl
  | waits => rfl

/-- With as many wrappers as there are bodies on the stack, a routine comes to the outcome that the
machine goes on with, and the number of wrappers stays. Nothing unwinds unless a body is running. -/
theorem reaches_after {α : Type} (r : Routine σ α) (k : Stack σ α γ) (p : Program σ)
    (hp : p.wrappers = k.bodies) : ∃ outcome memory latest,
      r.run.run.run p = (outcome, { p with memory, latest }) ∧
        Reaches p.now (.runs r k p.memory p.latest) (after k outcome memory latest) ∧
          (outcome = .error .exits → k.bodies ≠ 0) := by
  induction r generalizing p with
  | value a => exact ⟨.ok a, p.memory, p.latest, rfl, .refl, fun h => nomatch h⟩
  | work f =>
    exact ⟨.ok (f p.memory).1, (f p.memory).2, p.latest, rfl, .head rfl .refl, fun h => nomatch h⟩
  | exitLine l =>
    refine ⟨_, p.memory, _, l.run_exitLine p, .head rfl ?_, ?_⟩
    · rw [hp]
      split
      · next hnone =>
        rw [unwind, k.innermost_eq_none_iff.2 hnone]
        exact .refl
      · exact .refl
    · rw [hp]
      split
      · exact fun h => nomatch h
      · next hsome => exact fun _ => hsome
  | panic message =>
    exact ⟨.error (.panics message), p.memory, p.latest, rfl, .head rfl .refl, fun h => nomatch h⟩
  | bind x f ihx ihf =>
    obtain ⟨o, m, l, hx, hreach, hsome⟩ := ihx (.next f k) p hp
    cases o with
    | ok a =>
      obtain ⟨o, m', l', hf, hreach', hsome⟩ := ihf a k { p with memory := m, latest := l } hp
      refine ⟨o, m', l', (Updates.run_bind hx _).trans hf, ?_, hsome⟩
      exact .head rfl (hreach.trans (.head rfl hreach'))
    | error s =>
      refine ⟨.error s, m, l, Updates.run_bind_error hx _, .head rfl ?_, fun h => ?_⟩
      · rwa [after_error (unwind_next f k m l)] at hreach
      · obtain rfl : s = .exits := Except.error.inj h
        exact hsome rfl
  | recover body onExit ihbody ihexit =>
    obtain ⟨o, m, l, hbody, hreach, -⟩ := ihbody (.body onExit k)
      { p with wrappers := p.wrappers + 1 } (congrArg (· + 1) hp)
    have hrecover := Run.run_recoverExit (fun status => (onExit status).run) hbody
    cases o with
    | ok a =>
      exact ⟨.ok (some a), m, l, hrecover, .head rfl (hreach.trans (.head rfl .refl)),
        fun h => nomatch h⟩
    | error s =>
      cases s with
      | panics message => exact ⟨_, m, l, hrecover, .head rfl hreach, fun h => nomatch h⟩
      | ends status => exact ⟨_, m, l, hrecover, .head rfl hreach, fun h => nomatch h⟩
      | waits => exact ⟨_, m, l, hrecover, .head rfl hreach, fun h => nomatch h⟩
      | exits =>
        obtain ⟨o, m', l', hask, hreach', hsome⟩ :=
          ihexit 1 (.asking k) { p with memory := m, latest := l } hp
        have hreach : Reaches p.now (.runs (.recover body onExit) k p.memory p.latest)
            (after (.asking k) o m' l') := .head rfl (hreach.trans hreach')
        cases o with
        | ok status =>
          have hrun := hrecover.trans (Updates.run_bind hask _)
          by_cases hstatus : 0 ≤ status
          · rw [if_pos hstatus] at hrun
            refine ⟨_, m', l', hrun, hreach.trans (.head ?_ .refl), fun h => nomatch h⟩
            exact congrArg some (if_pos hstatus)
          · rw [if_neg hstatus] at hrun
            refine ⟨_, m', l', hrun, hreach.trans (.head ?_ .refl), fun h => nomatch h⟩
            exact congrArg some (if_neg hstatus)
        | error s =>
          refine ⟨.error s, m', l', hrecover.trans (Updates.run_bind_error hask _), ?_, fun h => ?_⟩
          · rwa [after_error (unwind_asking k m' l')] at hreach
          · obtain rfl : s = .exits := Except.error.inj h
            exact hsome rfl

end Machine

/-- There are stacks of any number of bodies. -/
theorem Stack.exists_bodies {σ : Type} (n : Nat) (α : Type) :
    ∃ (γ : Type) (k : Stack σ α γ), k.bodies = n := by
  induction n generalizing α with
  | zero => exact ⟨α, .bottom, rfl⟩
  | succ n ih =>
    obtain ⟨γ, k, hk⟩ := ih (Option α)
    exact ⟨γ, .body (fun status => .value status) k, congrArg (· + 1) hk⟩

open Machine

/-- **An exit line goes to the innermost wrapper whose body is running.** Whatever wrappers there are
around a routine, their number is the same when it is done, however it ends. On a thread without any
the routine does what the machine does: it comes to an end, which is the only one the machine comes
to, having done the same to its memory and before others. -/
theorem exit_reaches_innermost {σ α : Type} (r : Routine σ α) (p : Program σ) :
    (∃ outcome memory latest, r.run.run.run p = (outcome, { p with memory, latest })) ∧
    ∃ outcome memory latest,
      r.run.run.run { p with wrappers := 0 } = (outcome, { p with wrappers := 0, memory, latest }) ∧
        ∀ (o : Except Stop α) (m : σ) (l : List Event),
          Reaches p.now (.runs r .bottom p.memory p.latest) (.ended o m l) ↔
            o = outcome ∧ m = memory ∧ l = latest := by
  constructor
  · obtain ⟨γ, k, hk⟩ := Stack.exists_bodies (σ := σ) p.wrappers α
    obtain ⟨outcome, memory, latest, hrun, -⟩ := reaches_after r k p hk.symm
    exact ⟨outcome, memory, latest, hrun⟩
  · obtain ⟨outcome, memory, latest, hrun, hreach, hsome⟩ :=
      reaches_after r .bottom { p with wrappers := 0 } rfl
    have hend : Reaches p.now (.runs r .bottom p.memory p.latest) (.ended outcome memory latest) := by
      cases outcome with
      | ok a => exact hreach.trans (.head rfl .refl)
      | error s =>
        cases s with
        | exits => exact absurd rfl (hsome rfl)
        | panics message => exact hreach
        | ends status => exact hreach
        | waits => exact hreach
    refine ⟨outcome, memory, latest, hrun, fun o m l => ⟨hend.ended_unique, ?_⟩⟩
    rintro ⟨rfl, rfl, rfl⟩
    exact hend

/-- The inner wrapper does not hear of the exit line that its own asking brings about. The outer one does,
with the status 1, and lets the process go on. -/
example (now : Clock → Moment) :
    let l : ExitLine := ⟨⟨0, .exit, .empty, none, .initial none⟩, .messageList "bye" [], rfl,
      fun _ => ⟨fun _ h => absurd h List.not_mem_nil, fun _ h => absurd h List.not_mem_nil⟩⟩
    let inner : Routine (List Int) (Option Unit) :=
      .recover (.exitLine l) fun _ => .bind (.exitLine l) fun _ => .value 0
    let outer : Routine (List Int) (Option (Option Unit)) :=
      .recover inner fun status => .work fun heard => (-1, status :: heard)
    ∃ latest, Reaches now (.runs outer .bottom [] []) (.ended (.ok none) [1] latest) :=
  ⟨_, .head rfl <| .head rfl <| .head rfl <| .head rfl <| .head rfl <| .head rfl <| .head rfl <|
    .head rfl .refl⟩

end Logline
