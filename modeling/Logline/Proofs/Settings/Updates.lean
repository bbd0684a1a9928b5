import Mathlib.Logic.Function.Basic
import Mathlib.Logic.Relation
import Logline.Program

/-!
Threads that change the settings at the same time. An update makes a changed copy and puts it in the
place of what is in force; from before it takes the copy until after that it holds a lock. Who only
looks takes no lock. Whatever order threads go on in, what they publish is what a program publishes
that does the updates one after the other, in the order in which they got the lock.

The copy carries the proof: only who holds the lock publishes, so a copy stays what is in force until
its thread is done with it (`World.Sound`).
-/

namespace Logline.Updates

/-! ### Requests -/

/-- What code of a caller makes of a copy of the settings. On its way it may look at what is in
force. -/
inductive Change where
  | made (s : Settings)
  | panics (message : String)
  | look (next : Settings → Change)

/-- What it comes to if `s` is in force all the while. -/
def Change.result (s : Settings) : Change → Except String Settings
  | .made new => .ok new
  | .panics message => .error message
  | .look next => (next s).result s

/-- A change, or an output to take in the place of the one before, which is answered. -/
inductive Request where
  | change (code : Settings → Change)
  | output (new : Option Destination)

namespace Request

def code : Request → Settings → Change
  | .change code, s => code s
  | .output new, s => .made (s.setOutput new)

/-- What is made of the settings in force. -/
def result (r : Request) (s : Settings) : Except String Settings := (r.code s).result s

/-- What is in force then. A request that panics publishes nothing. -/
def after (r : Request) (s : Settings) : Settings :=
  match r.result s with
  | .ok made => made
  | .error _ => s

theorem after_of_ok {r : Request} {s made : Settings} (h : r.result s = .ok made) :
    r.after s = made := by
  rw [after, h]

theorem after_of_error {r : Request} {s : Settings} {message : String}
    (h : r.result s = .error message) : r.after s = s := by
  rw [after, h]

def answer : Request → Settings → Option (Option Destination)
  | .change _, _ => none
  | .output _, s => some s.output

/-- As a program does it. -/
def perform {σ : Type} : Request → Run σ (Option (Option Destination))
  | .change code => do
    Run.update fun s => (code s).result s
    return none
  | .output new => return some (← Run.setOutput new)

end Request

/-! ### One after the other -/

/-- A request a thread is done with: the copy it was made from, and what was made of it. -/
structure Turn (ι : Type) where
  thread : ι
  request : Request
  copy : Settings
  result : Except String Settings

namespace Turn

variable {ι : Type}

def asked (t : Turn ι) : ι × Request := (t.thread, t.request)

def made? (t : Turn ι) : Option Settings := t.result.toOption

/-- What the call comes to for its thread. -/
def answer (t : Turn ι) : Except Stop (Option (Option Destination)) :=
  match t.result with
  | .ok _ => .ok (t.request.answer t.copy)
  | .error message => .error (.panics message)

/-- The output before, as it is answered. -/
def returned? (t : Turn ι) : Option (Option Destination) := t.answer.toOption.join

/-- The output that was asked for. -/
def passed? (t : Turn ι) : Option (Option Destination) :=
  match t.request, t.result with
  | .output new, .ok _ => some new
  | _, _ => none

/-- The outputs before and after a change that is not answered. -/
def unanswered? (t : Turn ι) : Option (Option Destination × Option Destination) :=
  match t.request, t.result with
  | .change _, .ok made => some (t.copy.output, made.output)
  | _, _ => none

end Turn

section Sequences

variable {ι : Type}

/-- What is in force after requests that are done one after the other. -/
def inForce (s : Settings) (asked : List (ι × Request)) : Settings :=
  asked.foldl (fun s a => a.2.after s) s

/-- How each of them goes. -/
def outcomes (s : Settings) : List (ι × Request) → List (Turn ι)
  | [] => []
  | (i, r) :: rest => ⟨i, r, s, r.result s⟩ :: outcomes (r.after s) rest

theorem inForce_cons (s : Settings) (i : ι) (r : Request) (rest : List (ι × Request)) :
    inForce s ((i, r) :: rest) = inForce (r.after s) rest := rfl

theorem outcomes_append (s : Settings) (before after : List (ι × Request)) :
    outcomes s (before ++ after) = outcomes s before ++ outcomes (inForce s before) after := by
  induction before generalizing s with
  | nil => rfl
  | cons a rest ih => exact congrArg _ (ih (a.2.after s))

/-- Requests of a program, with the answers. -/
def performAll {σ : Type} (p : Program σ) :
    List Request → List (Except Stop (Option (Option Destination))) × Program σ
  | [] => ([], p)
  | r :: rest =>
    let (answer, p) := r.perform.run.run p
    let (answers, p) := performAll p rest
    (answer :: answers, p)

end Sequences

/-! ### Threads -/

/-- What a thread is at. -/
inductive Phase where
  | idle
  | waiting (r : Request)
  | entered (r : Request)
  | changing (r : Request) (copy : Settings) (code : Change)
  | leaving

namespace Phase

/-- Whether the thread has the lock. -/
def holds : Phase → Bool
  | .idle => false
  | .waiting _ => false
  | _ => true

/-- The request of a thread that has the lock, until it is done with. -/
def pending? : Phase → Option Request
  | .entered r => some r
  | .changing r _ _ => some r
  | _ => none

end Phase

/-- All lists have the latest first: who got the lock, and for what; the requests that are done with;
what was published; what was seen by those who looked. -/
structure World (ι : Type) where
  published : Option Snapshot
  stamps : Nat
  lock : Option ι
  phase : ι → Phase
  holders : List (ι × Request)
  turns : List (Turn ι)
  history : List Snapshot
  seen : List Snapshot

namespace World

variable {ι : Type}

def initial : World ι := ⟨none, 0, none, fun _ => .idle, [], [], [], []⟩

def publish (w : World ι) (settings : Settings) : World ι :=
  { w with
    published := some ⟨w.stamps + 1, settings⟩
    stamps := w.stamps + 1
    history := ⟨w.stamps + 1, settings⟩ :: w.history }

/-- The world as who looks first leaves it. -/
def opened (w : World ι) (program : Option String) (env : Environment) : World ι :=
  match w.published with
  | some _ => w
  | none => w.publish (Settings.ofEnvironment program env).1

def see (w : World ι) (s : Snapshot) : World ι := { w with seen := s :: w.seen }

variable [DecidableEq ι]

def set (w : World ι) (i : ι) (phase : Phase) : World ι :=
  { w with phase := Function.update w.phase i phase }

/-- A thread is done with its request, and has the lock to give back. -/
def settle (w : World ι) (t : Turn ι) : World ι :=
  { w.set t.thread .leaving with turns := t :: w.turns }

omit [DecidableEq ι] in
/-- The request that is being done. -/
def current (w : World ι) : Option (ι × Request) :=
  w.lock.bind fun i => (w.phase i).pending?.map fun r => (i, r)

@[simp] theorem phase_set_self (w : World ι) (i : ι) (phase : Phase) :
    (w.set i phase).phase i = phase :=
  Function.update_self ..

@[simp] theorem phase_set_of_ne (w : World ι) {i j : ι} (phase : Phase) (h : j ≠ i) :
    (w.set i phase).phase j = w.phase j :=
  Function.update_of_ne h ..

end World

section Steps

variable {ι : Type} [DecidableEq ι]

/-- One thread goes on. Who looks first and finds labels that are refused does not get on, see
`Run.snapshot`. Code of a caller that panics gives the lock back like any other. -/
inductive Step (program : Option String) (env : Environment) : World ι → World ι → Prop
  | look {w : World ι} {s : Snapshot}
      (hfirst : w.published = none → (Settings.ofEnvironment program env).2 = none)
      (hs : (w.opened program env).published = some s) :
      Step program env w ((w.opened program env).see s)
  | refused {w : World ι} (hfirst : w.published = none)
      (herror : (Settings.ofEnvironment program env).2 ≠ none) :
      Step program env w (w.opened program env)
  | call {w : World ι} (i : ι) (r : Request) (hphase : w.phase i = .idle)
      (hfirst : w.published = none → (Settings.ofEnvironment program env).2 = none) :
      Step program env w ((w.opened program env).set i (.waiting r))
  | enter {w : World ι} (i : ι) {r : Request} (hphase : w.phase i = .waiting r)
      (hlock : w.lock = none) :
      Step program env w
        { w.set i (.entered r) with lock := some i, holders := (i, r) :: w.holders }
  | load {w : World ι} (i : ι) {r : Request} {s : Snapshot} (hphase : w.phase i = .entered r)
      (hs : w.published = some s) :
      Step program env w (w.set i (.changing r s.settings (r.code s.settings)))
  | glance {w : World ι} (i : ι) {r : Request} {copy : Settings} {next : Settings → Change}
      {s : Snapshot} (hphase : w.phase i = .changing r copy (.look next))
      (hs : w.published = some s) :
      Step program env w ((w.set i (.changing r copy (next s.settings))).see s)
  | store {w : World ι} (i : ι) {r : Request} {copy made : Settings}
      (hphase : w.phase i = .changing r copy (.made made)) :
      Step program env w ((w.publish made).settle ⟨i, r, copy, .ok made⟩)
  | panic {w : World ι} (i : ι) {r : Request} {copy : Settings} {message : String}
      (hphase : w.phase i = .changing r copy (.panics message)) :
      Step program env w (w.settle ⟨i, r, copy, .error message⟩)
  | leave {w : World ι} (i : ι) (hphase : w.phase i = .leaving) :
      Step program env w { w.set i .idle with lock := none }

/-- A world that threads may come to from the start. -/
def Reached (program : Option String) (env : Environment) (w : World ι) : Prop :=
  Relation.ReflTransGen (Step program env) World.initial w

end Steps

/-! ### A program by itself -/

section Programs

variable {σ ι : Type} {p : Program σ} {s : Snapshot}

/-- A program with other settings in force. -/
def publishing (p : Program σ) (settings : Settings) : Program σ :=
  { p with published := some ⟨p.stamps + 1, settings⟩, stamps := p.stamps + 1 }

theorem run_bind {α β : Type} {x : Run σ α} {a : α} {q : Program σ} (h : x.run.run p = (.ok a, q))
    (f : α → Run σ β) : (x >>= f).run.run p = (f a).run.run q := by
  rw [ExceptT.run_bind, StateT.run_bind, h]
  rfl

theorem run_bind_error {α β : Type} {x : Run σ α} {e : Stop} {q : Program σ}
    (h : x.run.run p = (.error e, q)) (f : α → Run σ β) : (x >>= f).run.run p = (.error e, q) := by
  rw [ExceptT.run_bind, StateT.run_bind, h]
  rfl

theorem run_snapshot (h : p.published = some s) : Run.snapshot.run.run p = (.ok s, p) := by
  obtain ⟨program, environment, now, published, modules, wrappers, stamps, latest, memory⟩ := p
  obtain rfl : published = some s := h
  rfl

theorem run_update (change : Settings → Except String Settings) (h : p.published = some s) :
    (Run.update change).run.run p = match change s.settings with
      | .ok made => (.ok (), publishing p made)
      | .error message => (.error (.panics message), p) := by
  rw [Run.update, run_bind (run_snapshot h)]
  cases change s.settings with
  | ok made => rfl
  | error message => rfl

theorem run_setOutput (new : Option Destination) (h : p.published = some s) :
    (Run.setOutput new).run.run p =
      (.ok s.settings.output, publishing p (s.settings.setOutput new)) := by
  rw [Run.setOutput, run_bind (run_snapshot h), Run.change,
    run_bind (run_update (fun s => .ok (s.setOutput new)) h)]
  rfl

/-- What a request comes to in a program, and what is in force then. -/
theorem run_perform (r : Request) (h : p.published = some s) :
    r.perform.run.run p = match r.result s.settings with
      | .ok made => (.ok (r.answer s.settings), publishing p made)
      | .error message => (.error (.panics message), p) := by
  cases r with
  | change code =>
    have hupdate := run_update (fun s => (code s).result s) h
    show (Run.update (fun s => (code s).result s) >>= fun _ => pure none).run.run p =
      match (code s.settings).result s.settings with
        | .ok made => (.ok none, publishing p made)
        | .error message => (.error (.panics message), p)
    cases hresult : (code s.settings).result s.settings with
    | ok made =>
      rw [hresult] at hupdate
      rw [run_bind hupdate]
      rfl
    | error message =>
      rw [hresult] at hupdate
      rw [run_bind_error hupdate]
  | output new =>
    show (Run.setOutput new >>= fun prior => pure (some prior)).run.run p = _
    rw [run_bind (run_setOutput new h)]
    rfl

/-- A program that does requests one after the other answers what their outcomes tell. -/
theorem performAll_eq (asked : List (ι × Request)) (h : p.published = some s) :
    (performAll p (asked.map Prod.snd)).1 = (outcomes s.settings asked).map Turn.answer ∧
      ∃ last, (performAll p (asked.map Prod.snd)).2.published = some last ∧
        last.settings = inForce s.settings asked := by
  induction asked generalizing p s with
  | nil => exact ⟨rfl, s, h, rfl⟩
  | cons a rest ih =>
    obtain ⟨i, r⟩ := a
    have hrun := run_perform r h
    simp only [List.map_cons, performAll, outcomes, Turn.answer]
    cases hresult : r.result s.settings with
    | ok made =>
      have hafter := Request.after_of_ok hresult
      obtain ⟨hanswers, last, hlast, hsettings⟩ :=
        @ih (publishing p made) ⟨p.stamps + 1, made⟩ rfl
      rw [hresult] at hrun
      rw [hrun]
      refine ⟨?_, last, hlast, ?_⟩
      · rw [hafter]
        exact congrArg _ hanswers
      · simpa [inForce, hafter] using hsettings
    | error message =>
      have hafter := Request.after_of_error hresult
      obtain ⟨hanswers, last, hlast, hsettings⟩ := ih h
      rw [hresult] at hrun
      rw [hrun]
      refine ⟨?_, last, hlast, ?_⟩
      · rw [hafter]
        exact congrArg _ hanswers
      · simpa [inForce, hafter] using hsettings

end Programs

/-! ### What outcomes say of the settings -/

section Outcomes

variable {ι : Type} (s : Settings) (asked : List (ι × Request))

theorem asked_outcomes : (outcomes s asked).map Turn.asked = asked := by
  induction asked generalizing s with
  | nil => rfl
  | cons a rest ih => exact congrArg _ (ih _)

/-- The settings in force at last are those made last. -/
theorem getLast_made : (s :: (outcomes s asked).filterMap Turn.made?).getLast? =
    some (inForce s asked) := by
  induction asked generalizing s with
  | nil => rfl
  | cons a rest ih =>
    obtain ⟨i, r⟩ := a
    show (s :: (⟨i, r, s, r.result s⟩ :: outcomes (r.after s) rest).filterMap Turn.made?).getLast? =
      some (inForce (r.after s) rest)
    rw [← ih]
    cases hresult : r.result s with
    | ok made =>
      rw [Request.after_of_ok hresult]
      exact List.getLast?_cons_cons
    | error message =>
      rw [Request.after_of_error hresult]
      rfl

def returned (turns : List (Turn ι)) : List (Option Destination) := turns.filterMap Turn.returned?

def passed (turns : List (Turn ι)) : List (Option Destination) := turns.filterMap Turn.passed?

/-- The outputs before and after changes that are not answered. -/
def unanswered (turns : List (Turn ι)) : List (Option Destination × Option Destination) :=
  turns.filterMap Turn.unanswered?

/-- **No output is lost**: those that were replaced and the one in force at last are the one in force
at first and those that were put in the place of another. -/
theorem outputs_perm :
    (returned (outcomes s asked) ++ [(inForce s asked).output] ++
      (unanswered (outcomes s asked)).map Prod.fst).Perm
    (s.output :: passed (outcomes s asked) ++ (unanswered (outcomes s asked)).map Prod.snd) := by
  induction asked generalizing s with
  | nil => exact .refl _
  | cons a rest ih =>
    obtain ⟨i, r⟩ := a
    have hrest := ih (r.after s)
    cases r with
    | output new => exact hrest.cons s.output
    | change code =>
      rw [outcomes, inForce_cons]
      cases hresult : (Request.change code).result s with
      | ok made =>
        rw [Request.after_of_ok hresult] at hrest ⊢
        exact List.perm_middle.trans ((hrest.trans List.perm_middle.symm).cons s.output)
      | error message =>
        rw [Request.after_of_error hresult] at hrest ⊢
        exact hrest

/-- If nobody else changes the output, each output that is answered is the one asked for before. -/
theorem outputs_eq (h : ∀ u ∈ unanswered (outcomes s asked), u.1 = u.2) :
    returned (outcomes s asked) ++ [(inForce s asked).output] =
      s.output :: passed (outcomes s asked) := by
  induction asked generalizing s with
  | nil => rfl
  | cons a rest ih =>
    obtain ⟨i, r⟩ := a
    cases r with
    | output new => exact congrArg (s.output :: ·) (ih (s.setOutput new) h)
    | change code =>
      rw [outcomes] at h ⊢
      rw [inForce_cons]
      cases hresult : (Request.change code).result s with
      | ok made =>
        rw [Request.after_of_ok hresult, hresult] at h
        rw [Request.after_of_ok hresult]
        obtain ⟨hsame, hrest⟩ := List.forall_mem_cons.1 h
        exact (ih made hrest).trans (congrArg (· :: _) hsame.symm)
      | error message =>
        rw [Request.after_of_error hresult, hresult] at h
        rw [Request.after_of_error hresult]
        exact ih s h

end Outcomes

/-! ### What holds in every world -/

/-- What was published is the first settings and what was made since. Requests go as they do one after
the other, since a copy is what is in force as long as its thread has the lock. -/
structure World.Sound {ι : Type} (first : Settings) (w : World ι) : Prop where
  published : w.published = w.history.head?
  history : w.history.reverse.map Snapshot.settings =
    first :: w.turns.reverse.filterMap Turn.made?
  turns : w.turns.reverse = outcomes first (w.turns.reverse.map Turn.asked)
  holders : w.holders = w.current.toList ++ w.turns.map Turn.asked
  holder : ∀ i, w.lock = some i ↔ (w.phase i).holds = true
  copy : ∀ i r copy code, w.phase i = .changing r copy code →
    w.published.map Snapshot.settings = some copy ∧ code.result copy = r.result copy
  stamps : w.history.Pairwise fun a b => b.stamp < a.stamp
  bound : ∀ s ∈ w.history, s.stamp ≤ w.stamps
  seen : ∀ s ∈ w.seen, s ∈ w.history
  order : w.seen.Pairwise fun a b => b.stamp ≤ a.stamp

namespace World

section Soundness

variable {ι : Type} {first : Settings} {w : World ι} {s : Snapshot}

theorem sound_first (first : Settings) : ((initial : World ι).publish first).Sound first where
  published := rfl
  history := rfl
  turns := rfl
  holders := rfl
  holder _ := by simp [publish, initial, Phase.holds]
  copy _ _ _ _ h := by simp [publish, initial] at h
  stamps := List.pairwise_singleton ..
  bound _ h := by simp_all [publish, initial]
  seen _ h := by simp [publish, initial] at h
  order := .nil

/-- What is in force is the latest that was published. -/
theorem Sound.stamp_le (h : w.Sound first) (hs : w.published = some s) :
    s ∈ w.history ∧ ∀ t ∈ w.history, t.stamp ≤ s.stamp := by
  have hhead : w.history.head? = some s := h.published ▸ hs
  obtain ⟨rest, hrest⟩ := List.head?_eq_some_iff.1 hhead
  have hstamps := h.stamps
  rw [hrest] at hstamps ⊢
  refine ⟨List.mem_cons_self .., List.forall_mem_cons.2 ⟨Nat.le_refl _, fun t ht => ?_⟩⟩
  exact Nat.le_of_lt ((List.pairwise_cons.1 hstamps).1 t ht)

/-- Who looks sees nothing older than what was seen before. -/
theorem Sound.see (h : w.Sound first) (hs : w.published = some s) : (w.see s).Sound first :=
  { h with
    seen := List.forall_mem_cons.2 ⟨(h.stamp_le hs).1, h.seen⟩
    order := List.pairwise_cons.2 ⟨fun t ht => (h.stamp_le hs).2 t (h.seen t ht), h.order⟩ }

theorem current_of_lock {i : ι} (h : w.lock = some i) :
    w.current = (w.phase i).pending?.map fun r => (i, r) := by
  rw [current, h]
  rfl

variable [DecidableEq ι] {i : ι} {r : Request} {copy : Settings}

theorem holder_set {phase : Phase} (h : ∀ j, w.lock = some j ↔ (w.phase j).holds = true)
    (hsame : phase.holds = (w.phase i).holds) (j : ι) :
    w.lock = some j ↔ ((w.set i phase).phase j).holds = true := by
  by_cases hj : j = i
  · subst hj
    rw [phase_set_self, hsame]
    exact h j
  · rw [phase_set_of_ne _ _ hj]
    exact h j

/-- A copy of another thread is of no concern. -/
theorem copy_set {phase : Phase} {P : Request → Settings → Change → Prop}
    (h : ∀ j r copy code, w.phase j = .changing r copy code → P r copy code)
    (hi : ∀ r copy code, phase = .changing r copy code → P r copy code) (j : ι) (r : Request)
    (copy : Settings) (code : Change) (hj : (w.set i phase).phase j = .changing r copy code) :
    P r copy code := by
  by_cases hji : j = i
  · subst hji
    exact hi r copy code (by simpa using hj)
  · exact h j r copy code (by simpa [hji] using hj)

/-- A thread that waits has no lock. -/
theorem Sound.wait (h : w.Sound first) (hphase : w.phase i = .idle) :
    (w.set i (.waiting r)).Sound first :=
  { h with
    holders := by
      have hcurrent : (w.set i (.waiting r)).current = w.current := by
        show w.lock.bind _ = w.lock.bind _
        cases hlock : w.lock with
        | none => rfl
        | some j =>
          have hji : j ≠ i := by
            intro hji
            have hholds := (h.holder j).1 hlock
            simp [hji, hphase, Phase.holds] at hholds
          simp [hji]
      rw [hcurrent]
      exact h.holders
    holder := holder_set h.holder (by rw [hphase]; rfl)
    copy := copy_set h.copy fun _ _ _ hi => Phase.noConfusion hi }

theorem Sound.enter (h : w.Sound first) (hphase : w.phase i = .waiting r) (hlock : w.lock = none) :
    World.Sound first
      { w.set i (.entered r) with lock := some i, holders := (i, r) :: w.holders } :=
  { h with
    holders := by
      have hholders := h.holders
      rw [current, hlock] at hholders
      have hcurrent : ((w.set i (.entered r)).phase i).pending? = some r := by
        rw [phase_set_self]
        rfl
      simp only [current, Option.bind_some, hcurrent, hholders]
      rfl
    holder := fun j => by
      by_cases hji : j = i
      · subst hji
        simp [Phase.holds]
      · have hj : (w.phase j).holds ≠ true := fun hj => by
          simpa [hlock] using (h.holder j).2 hj
        simpa [hji, Ne.symm hji] using hj
    copy := copy_set h.copy fun _ _ _ hi => Phase.noConfusion hi }

omit [DecidableEq ι] in
theorem Sound.lock_of_pending (h : w.Sound first) (hpending : (w.phase i).pending? = some r) :
    (w.phase i).holds = true ∧ w.lock = some i ∧ w.current = some (i, r) := by
  have hholds : (w.phase i).holds = true := by
    cases hphase : w.phase i with
    | idle => simp [hphase, Phase.pending?] at hpending
    | waiting => simp [hphase, Phase.pending?] at hpending
    | _ => rfl
  have hlock := (h.holder i).2 hholds
  exact ⟨hholds, hlock, by rw [current_of_lock hlock, hpending]; rfl⟩

/-- Code that goes on with what is in force comes to what the request comes to there. -/
theorem Sound.change (h : w.Sound first) {code : Change}
    (hpending : (w.phase i).pending? = some r) (hcopy : w.published.map Snapshot.settings = some copy)
    (hcode : code.result copy = r.result copy) :
    (w.set i (.changing r copy code)).Sound first := by
  obtain ⟨hholds, hlock, hcurrent⟩ := h.lock_of_pending hpending
  exact
    { h with
      holders := by
        have hnext := current_of_lock (w := w.set i (.changing r copy code)) hlock
        have hholders := h.holders
        rw [hcurrent] at hholders
        rw [hnext, phase_set_self]
        exact hholders
      holder := holder_set h.holder hholds.symm
      copy := copy_set h.copy fun q copy' code' hi => by
        obtain ⟨rfl, rfl, rfl⟩ : r = q ∧ copy = copy' ∧ code = code' := by simpa using hi
        exact ⟨hcopy, hcode⟩ }

omit [DecidableEq ι] in
/-- What is in force is what the requests come to that are done with. -/
theorem Sound.inForce (h : w.Sound first) : w.published.map Snapshot.settings =
    some (inForce first (w.turns.reverse.map Turn.asked)) := by
  rw [← getLast_made, ← h.turns, ← h.history, h.published, List.map_reverse, List.getLast?_reverse,
    List.head?_map]

omit [DecidableEq ι] in
/-- The next turn goes as it does after those before. -/
theorem Sound.turns_cons (h : w.Sound first) {result : Except String Settings}
    (hcopy : w.published.map Snapshot.settings = some copy) (hresult : r.result copy = result) :
    (⟨i, r, copy, result⟩ :: w.turns).reverse =
      outcomes first ((⟨i, r, copy, result⟩ :: w.turns).reverse.map Turn.asked) := by
  obtain rfl : copy = Updates.inForce first (w.turns.reverse.map Turn.asked) :=
    Option.some.inj (hcopy.symm.trans h.inForce)
  rw [List.reverse_cons, List.map_append, outcomes_append, ← h.turns, ← hresult]
  rfl

/-- A turn that comes to its end is no longer the current one. -/
theorem Sound.holders_settle (h : w.Sound first) {t : Turn ι}
    (hpending : (w.phase t.thread).pending? = some t.request) :
    (w.settle t).holders = (w.settle t).current.toList ++ (w.settle t).turns.map Turn.asked := by
  obtain ⟨-, hlock, hcurrent⟩ := h.lock_of_pending hpending
  have hholders := h.holders
  rw [hcurrent] at hholders
  have hnext := current_of_lock (w := w.settle t) hlock
  have hphase : (w.settle t).phase t.thread = .leaving := phase_set_self ..
  rw [hnext, hphase]
  exact hholders

/-- A request that panics publishes nothing. -/
theorem Sound.panic (h : w.Sound first) {message : String}
    (hphase : w.phase i = .changing r copy (.panics message)) :
    (w.settle ⟨i, r, copy, .error message⟩).Sound first := by
  have hpending : (w.phase i).pending? = some r := by rw [hphase]; rfl
  obtain ⟨hcopy, hresult⟩ := h.copy i r copy _ hphase
  obtain ⟨hholds, -, -⟩ := h.lock_of_pending hpending
  exact
    { h with
      history := by
        show w.history.reverse.map _ = first :: (_ :: w.turns).reverse.filterMap _
        rw [List.reverse_cons, List.filterMap_append, h.history]
        simp [Turn.made?, Except.toOption]
      turns := h.turns_cons hcopy hresult.symm
      holders := h.holders_settle hpending
      holder := holder_set h.holder hholds.symm
      copy := copy_set h.copy fun _ _ _ hi => Phase.noConfusion hi }

/-- Who made new settings publishes them. -/
theorem Sound.store (h : w.Sound first) {made : Settings}
    (hphase : w.phase i = .changing r copy (.made made)) :
    ((w.publish made).settle ⟨i, r, copy, .ok made⟩).Sound first := by
  have hpending : (w.phase i).pending? = some r := by rw [hphase]; rfl
  obtain ⟨hcopy, hresult⟩ := h.copy i r copy _ hphase
  obtain ⟨hholds, hlock, -⟩ := h.lock_of_pending hpending
  have hnew : ∀ s ∈ w.history, s.stamp < w.stamps + 1 := fun s hs => Nat.lt_succ_of_le (h.bound s hs)
  exact
    { published := rfl
      history := by
        show (_ :: w.history).reverse.map _ = first :: (_ :: w.turns).reverse.filterMap _
        rw [List.reverse_cons, List.map_append, h.history, List.reverse_cons, List.filterMap_append]
        rfl
      turns := h.turns_cons hcopy hresult.symm
      holders := h.holders_settle (t := ⟨i, r, copy, .ok made⟩) hpending
      holder := holder_set (w := w.publish made) h.holder hholds.symm
      copy := fun j q copy' code hj => by
        by_cases hji : j = i
        · subst hji
          exact Phase.noConfusion ((phase_set_self ..).symm.trans hj)
        · -- nobody else has the lock
          have hother : w.phase j = .changing q copy' code := (phase_set_of_ne _ _ hji).symm.trans hj
          have hlock' : w.lock = some j := (h.holder j).2 (by rw [hother]; rfl)
          exact absurd (Option.some.inj (hlock'.symm.trans hlock)) hji
      stamps := List.pairwise_cons.2 ⟨hnew, h.stamps⟩
      bound := List.forall_mem_cons.2 ⟨Nat.le_refl _, fun s hs => Nat.le_of_lt (hnew s hs)⟩
      seen := fun s hs => List.mem_cons_of_mem _ (h.seen s hs)
      order := h.order }

theorem Sound.leave (h : w.Sound first) (hphase : w.phase i = .leaving) :
    World.Sound first { w.set i .idle with lock := none } := by
  have hlock : w.lock = some i := (h.holder i).2 (by rw [hphase]; rfl)
  exact
    { h with
      holders := by
        have hholders := h.holders
        rw [current_of_lock hlock, hphase] at hholders
        exact hholders
      holder := fun j => by
        by_cases hji : j = i
        · subst hji
          simp [Phase.holds]
        · have hj : (w.phase j).holds ≠ true := fun hj =>
            hji (Option.some.inj (((h.holder j).2 hj).symm.trans hlock))
          simpa [hji] using hj
      copy := copy_set h.copy fun _ _ _ hi => Phase.noConfusion hi }

end Soundness

end World

/-! ### All steps -/

section Reaching

variable {ι : Type} {program : Option String} {env : Environment} {v w : World ι}

theorem opened_of_published {s : Snapshot} (h : w.published = some s) : w.opened program env = w := by
  rw [World.opened, h]

theorem phase_opened : (w.opened program env).phase = w.phase := by
  unfold World.opened
  split <;> rfl

/-- The settings that are made at the first look. -/
def first (program : Option String) (env : Environment) : Settings :=
  (Settings.ofEnvironment program env).1

theorem sound_opened (h : w = .initial ∨ w.Sound (first program env)) :
    (w.opened program env).Sound (first program env) := by
  rcases h with rfl | h
  · exact World.sound_first _
  · obtain ⟨s, hs, -⟩ := Option.map_eq_some_iff.1 h.inForce
    rwa [opened_of_published hs]

variable [DecidableEq ι]

theorem Step.sound (h : v = .initial ∨ v.Sound (first program env))
    (hstep : Step program env v w) : w.Sound (first program env) := by
  -- as long as nobody has looked, no thread is past its call
  have hbusy : ∀ i, v.phase i ≠ .idle → v.Sound (first program env) := by
    intro i hi
    refine h.resolve_left ?_
    rintro rfl
    exact hi rfl
  cases hstep with
  | look _ hs => exact (sound_opened h).see hs
  | refused => exact sound_opened h
  | call i r hphase => exact (sound_opened h).wait ((congrFun phase_opened i).trans hphase)
  | enter i hphase hlock => exact (hbusy i (by simp [hphase])).enter hphase hlock
  | @load i r s hphase hs =>
    have hcopy : v.published.map Snapshot.settings = some s.settings := by rw [hs]; rfl
    exact (hbusy i (by simp [hphase])).change (by rw [hphase]; rfl) hcopy rfl
  | @glance i r copy next s hphase hs =>
    have hsound := hbusy i (by simp [hphase])
    obtain ⟨hcopy, hresult⟩ := hsound.copy i r copy _ hphase
    obtain rfl : s.settings = copy := by simpa [hs] using hcopy
    have hnext : (next s.settings).result s.settings = r.result s.settings := hresult
    exact (hsound.change (by rw [hphase]; rfl) hcopy hnext).see hs
  | store i hphase => exact (hbusy i (by simp [hphase])).store hphase
  | panic i hphase => exact (hbusy i (by simp [hphase])).panic hphase
  | leave i hphase => exact (hbusy i (by simp [hphase])).leave hphase

theorem Reached.sound (h : Reached program env w) : w = .initial ∨ w.Sound (first program env) := by
  induction h with
  | refl => exact .inl rfl
  | tail _ hstep ih => exact .inr (hstep.sound ih)

/-! ### Nobody waits for ever -/

/-- The world after some steps of one thread that give back the lock. -/
def GivesBack (program : Option String) (env : Environment) (w : World ι) (i : ι) : Prop :=
  ∃ u, Relation.ReflTransGen (Step program env) w u ∧ u.lock = none ∧ ∀ j ≠ i, u.phase j = w.phase j

theorem GivesBack.of_step {i : ι} (h : GivesBack program env v i) (hstep : Step program env w v)
    (hothers : ∀ j ≠ i, v.phase j = w.phase j) : GivesBack program env w i := by
  obtain ⟨u, hsteps, hlock, hphases⟩ := h
  exact ⟨u, .head hstep hsteps, hlock, fun j hj => (hphases j hj).trans (hothers j hj)⟩

variable {i : ι}

theorem givesBack_of_leaving (h : w.phase i = .leaving) : GivesBack program env w i :=
  ⟨_, .single (.leave i h), rfl, fun _ hj => World.phase_set_of_ne _ _ hj⟩

/-- However often code looks, and whether it panics or not. -/
theorem givesBack_of_changing {r : Request} {copy : Settings} {s : Snapshot} (code : Change)
    (hs : w.published = some s) (h : w.phase i = .changing r copy code) :
    GivesBack program env w i := by
  induction code generalizing w with
  | made new =>
    have hleaving : ((w.publish new).settle ⟨i, r, copy, .ok new⟩).phase i = .leaving :=
      World.phase_set_self ..
    exact (givesBack_of_leaving hleaving).of_step (.store i h)
      fun _ hj => World.phase_set_of_ne _ _ hj
  | panics message =>
    have hleaving : (w.settle ⟨i, r, copy, .error message⟩).phase i = .leaving :=
      World.phase_set_self ..
    exact (givesBack_of_leaving hleaving).of_step (.panic i h)
      fun _ hj => World.phase_set_of_ne _ _ hj
  | look next ih =>
    let v := (w.set i (.changing r copy (next s.settings))).see s
    have hnext : GivesBack program env v i := ih s.settings hs (World.phase_set_self ..)
    exact hnext.of_step (.glance i h hs) fun _ hj => World.phase_set_of_ne _ _ hj

theorem givesBack_of_lock (h : w.Sound (first program env)) (hlock : w.lock = some i) :
    GivesBack program env w i := by
  obtain ⟨s, hs, -⟩ := Option.map_eq_some_iff.1 h.inForce
  have hholds := (h.holder i).1 hlock
  cases hphase : w.phase i with
  | idle => simp [hphase, Phase.holds] at hholds
  | waiting r => simp [hphase, Phase.holds] at hholds
  | entered r =>
    let v := w.set i (.changing r s.settings (r.code s.settings))
    have hnext : GivesBack program env v i :=
      givesBack_of_changing (r.code s.settings) hs (World.phase_set_self ..)
    exact hnext.of_step (.load i hphase hs) fun _ hj => World.phase_set_of_ne _ _ hj
  | changing r copy code => exact givesBack_of_changing code hs hphase
  | leaving => exact givesBack_of_leaving hphase

/-- Who waits for the lock can get it, whoever has it. -/
theorem exists_entered (h : w.Sound (first program env)) {r : Request}
    (hphase : w.phase i = .waiting r) :
    ∃ u, Relation.ReflTransGen (Step program env) w u ∧ u.phase i = .entered r := by
  cases hlock : w.lock with
  | none => exact ⟨_, .single (.enter i hphase hlock), World.phase_set_self ..⟩
  | some j =>
    have hij : i ≠ j := by
      rintro rfl
      have hholds := (h.holder i).1 hlock
      simp [hphase, Phase.holds] at hholds
    obtain ⟨u, hsteps, hfree, hphases⟩ : GivesBack program env w j := givesBack_of_lock h hlock
    have hwaits : u.phase i = .waiting r := (hphases i hij).trans hphase
    exact ⟨_, hsteps.tail (.enter i hwaits hfree), World.phase_set_self ..⟩

/-! ### What comes out of it -/

/-- **Updates take turns.** Whatever order threads go on in:
requests are done in the order in which their threads got the lock, each where those before it left
the settings, so that a program that does them one after the other answers the same and comes to the
same settings;
what is published is the first settings and what requests made, of which one that panics makes nothing;
who looks sees one of these, and never one older than what was seen before;
outputs that are answered or replaced, with the one in force at last, are those that were asked for or
put in the place of another, with the one in force at first;
and whoever waits for the lock can get it. -/
theorem updates_take_turns {final : Snapshot} (h : Reached program env w)
    (hfinal : w.published = some final) :
    let turns := w.turns.reverse
    let initial := first program env
    w.holders = w.current.toList ++ w.turns.map Turn.asked ∧
    turns = outcomes initial (turns.map Turn.asked) ∧
    (∀ (σ : Type) (p : Program σ) (s : Snapshot), p.published = some s → s.settings = initial →
      (performAll p (turns.map Turn.request)).1 = turns.map Turn.answer ∧
        ∃ last, (performAll p (turns.map Turn.request)).2.published = some last ∧
          last.settings = final.settings) ∧
    w.history.reverse.map Snapshot.settings = initial :: turns.filterMap Turn.made? ∧
    w.history.reverse.getLast? = some final ∧
    w.history.reverse.Pairwise (fun s t => s.stamp < t.stamp) ∧
    (∀ s ∈ w.seen, s ∈ w.history) ∧
    w.seen.reverse.Pairwise (fun s t => s.stamp ≤ t.stamp) ∧
    (returned turns ++ [final.settings.output] ++ (unanswered turns).map Prod.fst).Perm
      (initial.output :: passed turns ++ (unanswered turns).map Prod.snd) ∧
    ((∀ u ∈ unanswered turns, u.1 = u.2) →
      returned turns ++ [final.settings.output] = initial.output :: passed turns) ∧
    ∀ i r, w.phase i = .waiting r →
      ∃ u, Relation.ReflTransGen (Step program env) w u ∧ u.phase i = .entered r := by
  intro turns initial
  have hsound : w.Sound initial := h.sound.resolve_left (by rintro rfl; nomatch hfinal)
  have hturns : turns = outcomes initial (turns.map Turn.asked) := hsound.turns
  have hforce : final.settings = inForce initial (turns.map Turn.asked) := by
    have hinForce := hsound.inForce
    rw [hfinal] at hinForce
    exact Option.some.inj hinForce
  refine ⟨hsound.holders, hturns, fun σ p s hp hs => ?_, hsound.history, ?_,
    List.pairwise_reverse.2 hsound.stamps, hsound.seen, List.pairwise_reverse.2 hsound.order, ?_,
    fun hsame => ?_, fun i r => exists_entered hsound⟩
  · obtain ⟨hanswers, last, hlast, hsettings⟩ := performAll_eq (turns.map Turn.asked) hp
    have hrequests : turns.map Turn.request = (turns.map Turn.asked).map Prod.snd := by
      rw [List.map_map]
      rfl
    rw [hs, ← hturns] at hanswers
    rw [hs, ← hforce] at hsettings
    rw [hrequests]
    exact ⟨hanswers, last, hlast, hsettings⟩
  · rw [List.getLast?_reverse, ← hsound.published, hfinal]
  · rw [hforce, hturns, asked_outcomes]
    exact outputs_perm initial _
  · rw [hturns] at hsame
    rw [hforce, hturns, asked_outcomes]
    exact outputs_eq initial _ hsame

end Reaching

/-- An output is set while another request waits, which looks, then panics. -/
theorem panicking_update_skipped :
    let env : Environment := fun _ => none
    let output : Request := .output (some .stderr)
    let panicking : Request := .change fun _ => .look fun _ => .panics "no"
    ∃ (w : World Bool) (final : Snapshot), Reached none env w ∧ w.published = some final ∧
      w.turns.reverse.map Turn.request = [output, panicking] ∧
      w.history.reverse.map Snapshot.settings =
        first none env :: w.turns.reverse.filterMap Turn.made? ∧
      w.seen.reverse.map Snapshot.stamp = [1, 2, 2] ∧
      returned w.turns.reverse ++ [final.settings.output] =
        (first none env).output :: passed w.turns.reverse ∧
      passed w.turns.reverse = [some .stderr] := by
  intro env output panicking
  have herror : (Settings.ofEnvironment none env).2 = none := rfl
  have hcalled : Reached none env _ := ((Relation.ReflTransGen.refl.tail
    (.call true output rfl fun _ => herror)).tail (.look (fun _ => herror) rfl)).tail
      (.enter true rfl rfl)
  have hstored : Reached none env _ := ((hcalled.tail (.call false panicking rfl fun _ => herror)).tail
    (.load true rfl rfl)).tail (.store true rfl)
  have hentered : Reached none env _ := ((hstored.tail (.look (fun _ => herror) rfl)).tail
    (.leave true rfl)).tail (.enter false rfl rfl)
  have hleft : Reached none env _ := (((hentered.tail (.load false rfl rfl)).tail
    (.glance false rfl rfl)).tail (.panic false rfl)).tail (.leave false rfl)
  obtain ⟨-, -, -, hhistory, -, -, -, -, -, houtputs, -⟩ := updates_take_turns hleft rfl
  refine ⟨_, _, hleft, rfl, rfl, hhistory, rfl, houtputs ?_, rfl⟩
  intro u hu
  exact absurd hu List.not_mem_nil

end Logline.Updates
