import Mathlib.Logic.Function.Basic
import Mathlib.Logic.Relation
import Logline.Proofs.Settings.Runs

/-!
Threads that register modules and set levels at the same time. Who registers a name looks it up under a
lock, makes a module if there is none, and adds it under the lock again; in between other threads go
on. Whatever order they go on in, a name keeps the first module that was added for it, and a module
keeps its levels until somebody sets them (`names_keep_their_modules`).

A module that is made has a stamp of its own. If the name is taken by the time it is added, nobody ever
gets to see it, so nothing of it can replace what is there (`World.Sound`).
-/

namespace Logline.Registering

/-! ### Requests -/

/-- What a thread may ask for. `lookup` is what code of the caller answers for a variable's name. Levels
are set for a name, or for an instance that somebody got, which knows its name. -/
inductive Request where
  | register (name : String) (levels : Option String) (lookup : Environment)
  | setLevels (name text : String)
  | init (name : String) (stamp : Nat) (text : String)
  | levelsOf (name : String)
  | list

inductive Answer where
  | module (stamp : Nat)
  | done (found : Bool)
  | text (levels : String)
  | listing (entries : List (String × String))

namespace Request

/-- As a program does it. -/
def perform {σ : Type} : Request → Run σ Answer
  | .register name levels lookup => return .module (← Run.register name levels lookup).stamp
  | .setLevels name text => return .done (← Run.setModuleLevels name text)
  | .init name _ text => return .done (← Run.setModuleLevels name text)
  | .levelsOf name => return .text (← Run.levelsOfModule name)
  | .list => return .listing ((← get).modules.list.map fun m => (m.name, m.levels.text))

/-- The request is to set the levels of that instance. -/
def Sets (ms : Modules) (stamp : Nat) : Request → Prop
  | .setLevels name _ => ms.Holds name stamp
  | .init name s _ => s = stamp ∧ ms.Holds name stamp
  | _ => False

/-- Who registers gets what is registered. A listing has no name twice, and no name that nobody
registered. -/
def Answered (ms : Modules) (a : Answer) : Request → Prop
  | .register name _ _ => ∃ stamp, a = .module stamp ∧ ms.Holds name stamp
  | .list => ∃ told, a = .listing told ∧ (told.map Prod.fst).Pairwise (· < ·) ∧
      ∀ e ∈ told, ∃ stamp, ms.Holds e.1 stamp
  | _ => True

end Request

/-! ### Threads -/

/-- What a thread is at. -/
inductive Phase where
  | idle
  | called (r : Request)
  /-- The name was free; code of the caller is asked for levels. -/
  | looking (name : String) (levels : Option String) (lookup : Environment)
  /-- Levels are made of a text, for a new module or for an instance. -/
  | choosing (r : Request) (stamp : Option Nat) (text : String)
  | adding (r : Request) (m : Module)
  | replacing (r : Request) (stamp : Nat) (levels : Levels)
  /-- Holds the lock, and is about to read levels. -/
  | reading (name : String) (stamp : Nat)
  | listing (left : List Module) (told : List (String × String))

/-- Whether the thread keeps others from adding modules. -/
def Phase.reads : Phase → Bool
  | .reading .. => true
  | .listing .. => true
  | _ => false

/-- What has come of requests. -/
inductive Deed (ι : Type) where
  | answered (thread : ι) (r : Request) (a : Answer)
  | added (m : Module)
  | replaced (thread : ι) (r : Request) (stamp : Nat) (levels : Levels)

/-- The levels an instance has after a deed that gives it levels. -/
def Deed.levels? {ι : Type} (stamp : Nat) : Deed ι → Option Levels
  | .added m => if m.stamp = stamp then some m.levels else none
  | .replaced _ _ s levels => if s = stamp then some levels else none
  | .answered .. => none

/-- Deeds are kept with the latest first. -/
structure World (ι : Type) where
  modules : Modules
  stamps : Nat
  /-- The settings, which others may change at any time. -/
  inForce : Settings
  phase : ι → Phase
  deeds : List (Deed ι)

namespace World

variable {ι : Type}

def initial (settings : Settings) : World ι := ⟨.empty, 0, settings, fun _ => .idle, []⟩

def levelsText (w : World ι) (text : String) : String :=
  if text = "" then w.inForce.levels.text else text

/-- Adds a module unless its name is taken. -/
def insert (w : World ι) (m : Module) : World ι :=
  { w with
    modules := w.modules.insertNew m
    deeds := if (w.modules.find? m.name).isSome then w.deeds else .added m :: w.deeds }

def replace (w : World ι) (i : ι) (r : Request) (stamp : Nat) (levels : Levels) : World ι :=
  { w with
    modules := w.modules.relevel stamp levels
    deeds := .replaced i r stamp levels :: w.deeds }

variable [DecidableEq ι]

def set (w : World ι) (i : ι) (phase : Phase) : World ι :=
  { w with phase := Function.update w.phase i phase }

def answer (w : World ι) (i : ι) (r : Request) (a : Answer) : World ι :=
  { w.set i .idle with deeds := .answered i r a :: w.deeds }

@[simp] theorem phase_set_self (w : World ι) (i : ι) (phase : Phase) :
    (w.set i phase).phase i = phase :=
  Function.update_self ..

@[simp] theorem phase_set_of_ne (w : World ι) {i j : ι} (phase : Phase) (h : j ≠ i) :
    (w.set i phase).phase j = w.phase j :=
  Function.update_of_ne h ..

theorem forall_phase_set {P : ι → Phase → Prop} {w : World ι} {i : ι} {phase : Phase}
    (hi : P i phase) (hothers : ∀ j ≠ i, P j (w.phase j)) (j : ι) : P j ((w.set i phase).phase j) := by
  by_cases hji : j = i
  · subst hji
    rwa [phase_set_self]
  · rw [phase_set_of_ne w phase hji]
    exact hothers j hji

end World

/-- An instance is in the hands of who got it as an answer. -/
def Request.Got {ι : Type} (w : World ι) : Request → Prop
  | .init name stamp _ =>
    ∃ j levels lookup, .answered j (.register name levels lookup) (.module stamp) ∈ w.deeds
  | _ => True

section Steps

variable {ι : Type} [DecidableEq ι]

/-- One thread goes on. Code that is asked for levels runs under no lock and may panic, as may who looks
at settings for the first time; what it does on its way counts as done by another thread. Nobody adds
while somebody reads. -/
inductive Step : World ι → World ι → Prop
  | publish {w : World ι} (s : Settings) : Step w { w with inForce := s }
  | call {w : World ι} (i : ι) (r : Request) (hphase : w.phase i = .idle) (hgot : r.Got w) :
      Step w (w.set i (.called r))
  | found {w : World ι} (i : ι) {name : String} {levels : Option String} {lookup : Environment}
      {m : Module} (hphase : w.phase i = .called (.register name levels lookup))
      (hfind : w.modules.find? name = some m) :
      Step w (w.answer i (.register name levels lookup) (.module m.stamp))
  | missed {w : World ι} (i : ι) {name : String} {levels : Option String} {lookup : Environment}
      (hphase : w.phase i = .called (.register name levels lookup))
      (hfind : w.modules.find? name = none) :
      Step w (w.set i (.looking name levels lookup))
  | look {w : World ι} (i : ι) {name : String} {levels : Option String} {lookup : Environment}
      (hphase : w.phase i = .looking name levels lookup) :
      Step w (w.set i (.choosing (.register name levels lookup) none
        (Run.registerText name levels lookup)))
  | panic {w : World ι} (i : ι) {name : String} {levels : Option String} {lookup : Environment}
      (hphase : w.phase i = .looking name levels lookup) :
      Step w (w.set i .idle)
  | stop {w : World ι} (i : ι) {r : Request} {stamp : Option Nat}
      (hphase : w.phase i = .choosing r stamp "") :
      Step w (w.set i .idle)
  | make {w : World ι} (i : ι) {name : String} {levels : Option String} {lookup : Environment}
      {text : String} (hphase : w.phase i = .choosing (.register name levels lookup) none text) :
      Step w { w.set i (.adding (.register name levels lookup)
          ⟨w.stamps + 1, name, .ofText (w.levelsText text)⟩) with stamps := w.stamps + 1 }
  | add {w : World ι} (i : ι) {r : Request} {m other : Module} (hphase : w.phase i = .adding r m)
      (hfree : ∀ j, (w.phase j).reads = false)
      (hfind : (w.insert m).modules.find? m.name = some other) :
      Step w ((w.insert m).answer i r (.module other.stamp))
  | unknown {w : World ι} (i : ι) {name text : String}
      (hphase : w.phase i = .called (.setLevels name text))
      (hfind : w.modules.find? name = none) :
      Step w (w.answer i (.setLevels name text) (.done false))
  | known {w : World ι} (i : ι) {name text : String} {m : Module}
      (hphase : w.phase i = .called (.setLevels name text))
      (hfind : w.modules.find? name = some m) :
      Step w (w.set i (.choosing (.setLevels name text) (some m.stamp) text))
  | init {w : World ι} (i : ι) {name text : String} {stamp : Nat}
      (hphase : w.phase i = .called (.init name stamp text)) :
      Step w (w.set i (.choosing (.init name stamp text) (some stamp) text))
  | choose {w : World ι} (i : ι) {r : Request} {stamp : Nat} {text : String}
      (hphase : w.phase i = .choosing r (some stamp) text) :
      Step w (w.set i (.replacing r stamp (.ofText (w.levelsText text))))
  | replace {w : World ι} (i : ι) {r : Request} {stamp : Nat} {levels : Levels}
      (hphase : w.phase i = .replacing r stamp levels) :
      Step w ((w.replace i r stamp levels).answer i r (.done true))
  | absent {w : World ι} (i : ι) {name : String} (hphase : w.phase i = .called (.levelsOf name))
      (hfind : w.modules.find? name = none) :
      Step w (w.answer i (.levelsOf name) (.text "n/a"))
  | enter {w : World ι} (i : ι) {name : String} {m : Module}
      (hphase : w.phase i = .called (.levelsOf name))
      (hfind : w.modules.find? name = some m) :
      Step w (w.set i (.reading name m.stamp))
  | read {w : World ι} (i : ι) {name : String} {m : Module}
      (hphase : w.phase i = .reading name m.stamp) (hm : m ∈ w.modules.list) :
      Step w (w.answer i (.levelsOf name) (.text m.levels.text))
  | list {w : World ι} (i : ι) (hphase : w.phase i = .called .list) :
      Step w (w.set i (.listing w.modules.list []))
  | tell {w : World ι} (i : ι) {first m : Module} {left : List Module}
      {told : List (String × String)} (hphase : w.phase i = .listing (first :: left) told)
      (hm : m ∈ w.modules.list) (hstamp : m.stamp = first.stamp) :
      Step w (w.set i (.listing left (told ++ [(first.name, m.levels.text)])))
  | listed {w : World ι} (i : ι) {told : List (String × String)}
      (hphase : w.phase i = .listing [] told) :
      Step w (w.answer i .list (.listing told))

def Steps : World ι → World ι → Prop := Relation.ReflTransGen Step

/-- A world that threads may come to when no module is registered yet. -/
def Reached (w : World ι) : Prop := ∃ settings, Steps (.initial settings) w

end Steps

/-! ### What holds in every world -/

namespace Request

variable {ms ms' : Modules} {stamp : Nat} {a : Answer} {r : Request}

theorem Sets.mono (h : r.Sets ms stamp)
    (hgrows : ∀ name stamp, ms.Holds name stamp → ms'.Holds name stamp) : r.Sets ms' stamp := by
  cases r with
  | setLevels name text => exact hgrows _ _ h
  | init name s text => exact ⟨h.1, hgrows _ _ h.2⟩
  | register => exact h
  | levelsOf => exact h
  | list => exact h

theorem Answered.mono (h : r.Answered ms a)
    (hgrows : ∀ name stamp, ms.Holds name stamp → ms'.Holds name stamp) : r.Answered ms' a := by
  cases r with
  | register name levels lookup =>
    obtain ⟨stamp, ha, hholds⟩ := h
    exact ⟨stamp, ha, hgrows _ _ hholds⟩
  | list =>
    obtain ⟨told, ha, horder, hknown⟩ := h
    refine ⟨told, ha, horder, fun e he => ?_⟩
    obtain ⟨stamp, hholds⟩ := hknown e he
    exact ⟨stamp, hgrows _ _ hholds⟩
  | setLevels => exact h
  | init => exact h
  | levelsOf => exact h

/-- Whatever is answered to who sets levels. -/
theorem Sets.answered (h : r.Sets ms stamp) (a : Answer) : r.Answered ms a := by
  cases r with
  | setLevels => trivial
  | init => trivial
  | register => exact h.elim
  | levelsOf => exact h.elim
  | list => exact h.elim

end Request

/-- What a thread owes at each point. Who adds a module has an instance that nobody else has seen; who
lists modules has told the names before those that are left. -/
def Phase.Fits (ms : Modules) (stamps : Nat) : Phase → Prop
  | .called (.init name stamp _) => ms.Holds name stamp
  | .choosing r (some stamp) _ => r.Sets ms stamp
  | .adding r m => (∃ levels lookup, r = .register m.name levels lookup) ∧ m.stamp ≤ stamps ∧
      ∀ x ∈ ms.list, x.stamp ≠ m.stamp
  | .replacing r stamp _ => r.Sets ms stamp
  | .reading _ stamp => ∃ x ∈ ms.list, x.stamp = stamp
  | .listing left told =>
      told.map Prod.fst ++ left.map Module.name = ms.list.map Module.name ∧
        ∀ m ∈ left, ∃ x ∈ ms.list, x.stamp = m.stamp
  | _ => True

namespace Phase

variable {ms : Modules} {stamps : Nat} {phase : Phase}

theorem Fits.insertNew (h : phase.Fits ms stamps) (hsorted : ms.Sorted) {m : Module}
    (hfree : phase.reads = false)
    (hother : ∀ r n, phase = .adding r n → n.stamp ≠ m.stamp) :
    phase.Fits (ms.insertNew m) stamps := by
  have hgrows : ∀ name stamp, ms.Holds name stamp → (ms.insertNew m).Holds name stamp :=
    fun _ _ hholds => hholds.insertNew hsorted m
  cases phase with
  | called r =>
    cases r with
    | init name stamp text => exact hgrows _ _ h
    | _ => trivial
  | choosing r stamp text =>
    cases stamp with
    | none => trivial
    | some stamp => exact Request.Sets.mono h hgrows
  | replacing r stamp levels => exact Request.Sets.mono h hgrows
  | adding r n =>
    obtain ⟨hr, hbound, hnew⟩ := h
    refine ⟨hr, hbound, fun x hx => ?_⟩
    rcases Modules.eq_or_mem_of_insertNew hsorted hx with ⟨rfl, -⟩ | hx
    · exact (hother r n rfl).symm
    · exact hnew x hx
  | reading => exact absurd hfree (by simp [reads])
  | listing => exact absurd hfree (by simp [reads])
  | idle => trivial
  | looking => trivial

theorem Fits.relevel (h : phase.Fits ms stamps) (stamp : Nat) (levels : Levels) :
    phase.Fits (ms.relevel stamp levels) stamps := by
  have hgrows : ∀ name s, ms.Holds name s → (ms.relevel stamp levels).Holds name s :=
    fun _ _ hholds => hholds.relevel stamp levels
  -- an instance is there before if and only if it is there after
  have hstamps : ∀ s, (∃ x ∈ (ms.relevel stamp levels).list, x.stamp = s) ↔
      ∃ x ∈ ms.list, x.stamp = s := by
    intro s
    rw [← List.mem_map, ← List.mem_map, Modules.map_relevel fun _ _ => rfl]
  cases phase with
  | called r =>
    cases r with
    | init name s text => exact hgrows _ _ h
    | _ => trivial
  | choosing r s text =>
    cases s with
    | none => trivial
    | some s => exact Request.Sets.mono h hgrows
  | replacing r s levels => exact Request.Sets.mono h hgrows
  | adding r n =>
    obtain ⟨hr, hbound, hnew⟩ := h
    refine ⟨hr, hbound, fun x hx hsame => ?_⟩
    obtain ⟨y, hy, hys⟩ := (hstamps n.stamp).1 ⟨x, hx, hsame⟩
    exact hnew y hy hys
  | reading name s => exact (hstamps s).2 h
  | listing left told =>
    refine ⟨?_, fun m hm => (hstamps m.stamp).2 (h.2 m hm)⟩
    rw [Modules.map_relevel fun _ _ => rfl]
    exact h.1
  | idle => trivial
  | looking => trivial

theorem Fits.mono (h : phase.Fits ms stamps) {more : Nat} (hmore : stamps ≤ more) :
    phase.Fits ms more := by
  cases phase with
  | adding r m => exact ⟨h.1, h.2.1.trans hmore, h.2.2⟩
  | called r =>
    cases r with
    | init name stamp text => exact h
    | _ => trivial
  | choosing r stamp text =>
    cases stamp with
    | none => trivial
    | some stamp => exact h
  | _ => exact h

end Phase

/-- The register never has a name or an instance twice; threads keep what they owe, and no two add the
same instance; what was answered still holds; and a module has the levels that it was given last. -/
structure World.Sound {ι : Type} (w : World ι) : Prop where
  proper : w.modules.Proper
  bound : ∀ m ∈ w.modules.list, m.stamp ≤ w.stamps
  phase : ∀ i, (w.phase i).Fits w.modules w.stamps
  fresh : ∀ i j q r m n, w.phase i = .adding q m → w.phase j = .adding r n → m.stamp = n.stamp → i = j
  answered : ∀ i r a, .answered i r a ∈ w.deeds → r.Answered w.modules a
  replaced : ∀ i r stamp levels, .replaced i r stamp levels ∈ w.deeds → r.Sets w.modules stamp
  levels : ∀ m ∈ w.modules.list, w.deeds.findSome? (Deed.levels? m.stamp) = some m.levels

namespace World

variable {ι : Type} {w : World ι} {i : ι} {r : Request} {a : Answer}

theorem sound_initial (settings : Settings) : (initial settings : World ι).Sound where
  proper := Modules.proper_empty
  bound _ h := absurd h List.not_mem_nil
  phase _ := trivial
  fresh _ _ _ _ _ _ h := nomatch h
  answered _ _ _ h := absurd h List.not_mem_nil
  replaced _ _ _ _ h := absurd h List.not_mem_nil
  levels _ h := absurd h List.not_mem_nil

/-- What somebody got is the module of its name. -/
theorem Sound.holds_of_got (h : w.Sound) {name text : String} {stamp : Nat}
    (hgot : (Request.init name stamp text).Got w) : w.modules.Holds name stamp := by
  obtain ⟨j, levels, lookup, hdeed⟩ := hgot
  obtain ⟨s, hs, hholds⟩ := h.answered j _ _ hdeed
  cases hs
  exact hholds

theorem Sound.told (h : w.Sound) (i : ι) (ha : r.Answered w.modules a) :
    World.Sound { w with deeds := .answered i r a :: w.deeds } :=
  { h with
    answered := fun j q b hdeed => by
      rcases List.mem_cons.1 hdeed with hsame | hdeed
      · cases hsame
        exact ha
      · exact h.answered j q b hdeed
    replaced := fun j q stamp levels hdeed =>
      h.replaced j q stamp levels ((List.mem_cons.1 hdeed).resolve_left nofun)
    levels := h.levels }

variable [DecidableEq ι]

/-- A thread that does not add anything. -/
theorem Sound.set (h : w.Sound) {phase : Phase} (hfits : phase.Fits w.modules w.stamps)
    (hadds : ∀ r m, phase ≠ .adding r m) : (w.set i phase).Sound :=
  { h with
    phase := forall_phase_set (P := fun _ phase => phase.Fits w.modules w.stamps) hfits
      fun j _ => h.phase j
    fresh := fun j k q r m n hj hk => by
      have hbefore : ∀ j r m, (w.set i phase).phase j = .adding r m → w.phase j = .adding r m :=
        forall_phase_set (P := fun j phase => ∀ r m, phase = .adding r m → w.phase j = .adding r m)
          (fun r m hadding => absurd hadding (hadds r m)) fun _ _ _ _ hj => hj
      exact h.fresh j k q r m n (hbefore j q m hj) (hbefore k r n hk) }

theorem Sound.answer (h : w.Sound) (ha : r.Answered w.modules a) : (w.answer i r a).Sound := by
  have hidle : (w.set i .idle).Sound := h.set trivial nofun
  exact hidle.told i ha

/-- A module that is made has a stamp that was never given. -/
theorem Sound.make (h : w.Sound) (name : String) (levels : Option String) (lookup : Environment)
    (l : Levels) :
    World.Sound { w.set i (.adding (.register name levels lookup) ⟨w.stamps + 1, name, l⟩) with
      stamps := w.stamps + 1 } :=
  have hphase : ∀ j r m, (w.set i (.adding (.register name levels lookup)
      ⟨w.stamps + 1, name, l⟩)).phase j = .adding r m →
        j = i ∧ m.stamp = w.stamps + 1 ∨ w.phase j = .adding r m := by
    refine forall_phase_set (P := fun j phase => ∀ r m, phase = .adding r m →
      j = i ∧ m.stamp = w.stamps + 1 ∨ w.phase j = .adding r m) ?_ fun _ _ _ _ hj => .inr hj
    rintro r m ⟨⟩
    exact .inl ⟨rfl, rfl⟩
  have hbelow : ∀ j r m, w.phase j = .adding r m → m.stamp ≠ w.stamps + 1 := by
    intro j r m hj hstamp
    have hfits := h.phase j
    rw [hj] at hfits
    exact absurd (hstamp ▸ hfits.2.1) (Nat.not_succ_le_self _)
  { h with
    bound := fun m hm => (h.bound m hm).trans (Nat.le_succ _)
    phase := forall_phase_set (P := fun _ phase => phase.Fits w.modules (w.stamps + 1))
      ⟨⟨levels, lookup, rfl⟩, Nat.le_refl _,
        fun x hx => Nat.ne_of_lt (Nat.lt_succ_of_le (h.bound x hx))⟩
      fun j _ => (h.phase j).mono (Nat.le_succ _)
    fresh := fun j k q r m n hj hk hsame => by
      rcases hphase j q m hj with ⟨rfl, hm⟩ | hbefore <;>
        rcases hphase k r n hk with ⟨rfl, hn⟩ | hbefore'
      · rfl
      · exact absurd (hsame.symm.trans hm) (hbelow k r n hbefore')
      · exact absurd (hsame.trans hn) (hbelow j q m hbefore)
      · exact h.fresh j k q r m n hbefore hbefore' hsame }

omit [DecidableEq ι] in
/-- A module that nobody has seen is added, or left out if its name is taken. -/
theorem Sound.insert (h : w.Sound) {m : Module} (hbound : m.stamp ≤ w.stamps)
    (hnew : ∀ x ∈ w.modules.list, x.stamp ≠ m.stamp) (hfree : ∀ j, (w.phase j).reads = false)
    (hothers : ∀ j r n, w.phase j = .adding r n → n.stamp ≠ m.stamp) : (w.insert m).Sound := by
  have hgrows : ∀ name stamp, w.modules.Holds name stamp →
      (w.modules.insertNew m).Holds name stamp :=
    fun _ _ hholds => hholds.insertNew h.proper.sorted m
  have hdeeds : ∀ d ∈ (w.insert m).deeds, d = .added m ∨ d ∈ w.deeds := by
    intro d hd
    unfold World.insert at hd
    dsimp only at hd
    split at hd
    · exact .inr hd
    · exact List.mem_cons.1 hd
  exact
    { proper := h.proper.insertNew hnew
      bound := fun x hx => by
        rcases Modules.eq_or_mem_of_insertNew h.proper.sorted hx with ⟨rfl, -⟩ | hx
        · exact hbound
        · exact h.bound x hx
      phase := fun j => (h.phase j).insertNew h.proper.sorted (hfree j) (hothers j)
      fresh := h.fresh
      answered := fun j q b hd =>
        (h.answered j q b ((hdeeds _ hd).resolve_left nofun)).mono hgrows
      replaced := fun j q stamp levels hd =>
        (h.replaced j q stamp levels ((hdeeds _ hd).resolve_left nofun)).mono hgrows
      levels := fun x hx => by
        unfold World.insert
        dsimp only
        rcases Modules.eq_or_mem_of_insertNew h.proper.sorted hx with ⟨rfl, hfind⟩ | hx
        · rw [hfind, Option.isSome_none, if_neg Bool.false_ne_true]
          simp [Deed.levels?]
        · split
          · exact h.levels x hx
          · rw [List.findSome?_cons, Deed.levels?, if_neg (hnew x hx).symm]
            exact h.levels x hx }

omit [DecidableEq ι] in
theorem Sound.replace (h : w.Sound) {stamp : Nat} (hsets : r.Sets w.modules stamp)
    (levels : Levels) : (w.replace i r stamp levels).Sound := by
  have hgrows : ∀ name s, w.modules.Holds name s → (w.modules.relevel stamp levels).Holds name s :=
    fun _ _ hholds => hholds.relevel stamp levels
  exact
    { proper := h.proper.relevel stamp levels
      bound := fun x hx => by
        obtain ⟨y, hy, rfl⟩ := Modules.mem_relevel.1 hx
        split
        · exact h.bound y hy
        · exact h.bound y hy
      phase := fun j => (h.phase j).relevel stamp levels
      fresh := h.fresh
      answered := fun j q b hd =>
        (h.answered j q b ((List.mem_cons.1 hd).resolve_left nofun)).mono hgrows
      replaced := fun j q s l hd => by
        rcases List.mem_cons.1 hd with hsame | hd
        · cases hsame
          exact hsets.mono hgrows
        · exact (h.replaced j q s l hd).mono hgrows
      levels := fun x hx => by
        obtain ⟨y, hy, rfl⟩ := Modules.mem_relevel.1 hx
        show (Deed.replaced i r stamp levels :: w.deeds).findSome? _ = _
        by_cases hstamp : y.stamp = stamp
        · rw [if_pos hstamp, List.findSome?_cons, Deed.levels?, if_pos hstamp.symm]
        · rw [if_neg hstamp, List.findSome?_cons, Deed.levels?, if_neg (Ne.symm hstamp)]
          exact h.levels y hy }

end World

/-! ### All steps -/

section Reaching

variable {ι : Type} [DecidableEq ι] {v w : World ι}

theorem Step.sound (h : v.Sound) (hstep : Step v w) : w.Sound := by
  -- what the thread that goes on owes
  have hfits : ∀ {i phase}, v.phase i = phase → phase.Fits v.modules v.stamps :=
    fun hphase => hphase ▸ h.phase _
  cases hstep with
  | publish s => exact { h with }
  | call i r _ hgot =>
    refine h.set ?_ nofun
    cases r with
    | init name stamp text => exact h.holds_of_got hgot
    | _ => trivial
  | found i _ hfind => exact h.answer ⟨_, rfl, Modules.holds_of_find? hfind⟩
  | missed i => exact h.set trivial nofun
  | look i => exact h.set trivial nofun
  | panic i => exact h.set trivial nofun
  | stop i => exact h.set trivial nofun
  | make i => exact h.make ..
  | @add i r m other hphase hfree hfind =>
    obtain ⟨⟨levels, lookup, rfl⟩, hbound, hnew⟩ := hfits hphase
    -- the thread is done with the module, so that nobody adds it again
    have hidle : (v.set i .idle).Sound := h.set trivial nofun
    have hothers : ∀ j r n, (v.set i .idle).phase j = .adding r n → n.stamp ≠ m.stamp :=
      World.forall_phase_set (P := fun _ phase => ∀ r n, phase = .adding r n → n.stamp ≠ m.stamp)
        nofun fun j hji r n hj hsame => hji (h.fresh j i r _ n m hj hphase hsame)
    have hreads : ∀ j, ((v.set i .idle).phase j).reads = false :=
      World.forall_phase_set (P := fun _ phase => phase.reads = false) rfl fun j _ => hfree j
    exact (hidle.insert hbound hnew hreads hothers).told i ⟨_, rfl, Modules.holds_of_find? hfind⟩
  | unknown i => exact h.answer trivial
  | known i _ hfind => exact h.set (Modules.holds_of_find? hfind) nofun
  | init i hphase => exact h.set ⟨rfl, hfits hphase⟩ nofun
  | choose i hphase =>
    have hsets := hfits hphase
    exact h.set hsets nofun
  | @replace i r stamp levels hphase =>
    have hreplaced := h.replace (i := i) (hfits hphase) levels
    have hsets := hreplaced.replaced i r stamp levels List.mem_cons_self
    exact hreplaced.answer (hsets.answered _)
  | absent i => exact h.answer trivial
  | enter i _ hfind => exact h.set ⟨_, (Modules.mem_of_find? hfind).1, rfl⟩ nofun
  | read i => exact h.answer trivial
  | list i => exact h.set ⟨rfl, fun m hm => ⟨m, hm, rfl⟩⟩ nofun
  | tell i hphase =>
    obtain ⟨hnames, hleft⟩ := hfits hphase
    refine h.set ⟨?_, fun m hm => hleft m (List.mem_cons_of_mem _ hm)⟩ nofun
    simpa using hnames
  | @listed i told hphase =>
    obtain ⟨hnames, -⟩ := hfits hphase
    have hnames : told.map Prod.fst = v.modules.list.map Module.name := by simpa using hnames
    refine h.answer ⟨told, rfl, ?_, fun e he => ?_⟩
    · rw [hnames]
      exact List.pairwise_map.2 h.proper.sorted
    · obtain ⟨m, hm, hname⟩ := List.mem_map.1 (hnames ▸ List.mem_map_of_mem he)
      exact ⟨m.stamp, m, hm, hname, rfl⟩

theorem Reached.sound (h : Reached w) : w.Sound := by
  obtain ⟨settings, hsteps⟩ := h
  induction hsteps with
  | refl => exact World.sound_initial settings
  | tail _ hstep ih => exact hstep.sound ih

/-! ### What others leave alone -/

omit [DecidableEq ι] in
/-- Modules stay what they are from one world to another, but for levels that are set in between. -/
def Keeps (v w : World ι) : Prop :=
  ∃ new, w.deeds = new ++ v.deeds ∧ ∀ m ∈ v.modules.list, ∃ m' ∈ w.modules.list,
    m'.name = m.name ∧ m'.stamp = m.stamp ∧
      ((∀ i r levels, .replaced i r m.stamp levels ∉ new) → m'.levels = m.levels)

section Keeping

variable {u : World ι}

omit [DecidableEq ι]

theorem Keeps.of_same (new : List (Deed ι)) (hmodules : w.modules = v.modules)
    (hdeeds : w.deeds = new ++ v.deeds) : Keeps v w :=
  ⟨new, hdeeds, fun m hm => ⟨m, hmodules ▸ hm, rfl, rfl, fun _ => rfl⟩⟩

theorem Keeps.trans (h : Keeps u v) (h' : Keeps v w) : Keeps u w := by
  obtain ⟨new, hnew, hkeeps⟩ := h
  obtain ⟨more, hmore, hkeeps'⟩ := h'
  refine ⟨more ++ new, by rw [hmore, hnew, List.append_assoc], fun m hm => ?_⟩
  obtain ⟨m', hm', hname, hstamp, hlevels⟩ := hkeeps m hm
  obtain ⟨m'', hm'', hname', hstamp', hlevels'⟩ := hkeeps' m' hm'
  refine ⟨m'', hm'', hname'.trans hname, hstamp'.trans hstamp, fun hquiet => ?_⟩
  have hlast : m''.levels = m'.levels := hlevels' fun i r levels hdeed =>
    hquiet i r levels (List.mem_append_left _ (hstamp ▸ hdeed))
  exact hlast.trans (hlevels fun i r levels hdeed =>
    hquiet i r levels (List.mem_append_right _ hdeed))

theorem keeps_insert (h : v.modules.Sorted) (m : Module) : Keeps v (v.insert m) := by
  have hdeeds : ∃ new, (v.insert m).deeds = new ++ v.deeds := by
    unfold World.insert
    dsimp only
    split
    · exact ⟨[], rfl⟩
    · exact ⟨[.added m], rfl⟩
  obtain ⟨new, hnew⟩ := hdeeds
  exact ⟨new, hnew, fun x hx => ⟨x, Modules.mem_insertNew_of_mem h m hx, rfl, rfl, fun _ => rfl⟩⟩

theorem keeps_replace (v : World ι) (i : ι) (r : Request) (stamp : Nat) (levels : Levels) :
    Keeps v (v.replace i r stamp levels) := by
  refine ⟨[.replaced i r stamp levels], rfl, fun m hm => ⟨_, Modules.mem_relevel.2 ⟨m, hm, rfl⟩, ?_⟩⟩
  by_cases hstamp : m.stamp = stamp
  · rw [if_pos hstamp]
    refine ⟨rfl, rfl, fun hquiet => absurd ?_ (hquiet i r levels)⟩
    rw [hstamp]
    exact List.mem_singleton_self _
  · rw [if_neg hstamp]
    exact ⟨rfl, rfl, fun _ => rfl⟩

end Keeping

theorem keeps_set (v : World ι) (i : ι) (phase : Phase) : Keeps v (v.set i phase) :=
  .of_same [] rfl rfl

theorem keeps_answer (v : World ι) (i : ι) (r : Request) (a : Answer) : Keeps v (v.answer i r a) :=
  .of_same [.answered i r a] rfl rfl

theorem Step.keeps (h : v.Sound) (hstep : Step v w) : Keeps v w := by
  cases hstep with
  | publish s => exact .of_same [] rfl rfl
  | make i => exact .of_same [] rfl rfl
  | add i => exact (keeps_insert h.proper.sorted _).trans (keeps_answer ..)
  | replace i => exact (keeps_replace ..).trans (keeps_answer ..)
  | call i => exact keeps_set ..
  | missed i => exact keeps_set ..
  | look i => exact keeps_set ..
  | panic i => exact keeps_set ..
  | stop i => exact keeps_set ..
  | known i => exact keeps_set ..
  | init i => exact keeps_set ..
  | choose i => exact keeps_set ..
  | enter i => exact keeps_set ..
  | list i => exact keeps_set ..
  | tell i => exact keeps_set ..
  | found i => exact keeps_answer ..
  | unknown i => exact keeps_answer ..
  | absent i => exact keeps_answer ..
  | read i => exact keeps_answer ..
  | listed i => exact keeps_answer ..

theorem Steps.keeps (h : v.Sound) (hsteps : Steps v w) : w.Sound ∧ Keeps v w := by
  induction hsteps with
  | refl => exact ⟨h, .of_same [] rfl rfl⟩
  | tail _ hstep ih => exact ⟨hstep.sound ih.1, ih.2.trans (hstep.keeps ih.1)⟩

end Reaching

/-! ### One thread by itself -/

section Programs

variable {σ : Type} {p : Program σ} {s : Snapshot}

/-- The world has what the program has. -/
structure World.IsOf {ι : Type} (w : World ι) (p : Program σ) : Prop where
  settings : ∃ s, p.published = some s ∧ s.settings = w.inForce
  modules : w.modules = p.modules
  stamps : w.stamps = p.stamps

variable {ι : Type} {w : World ι}

theorem World.IsOf.levelsText (h : w.IsOf p) (text : String) :
    w.levelsText text = p.levelsText text := by
  obtain ⟨s, hs, hforce⟩ := h.settings
  rw [World.levelsText, Program.levelsText, p.inForce_of_published hs, hforce]

variable [DecidableEq ι]

/-- A thread does a request, and all the while no other goes on. -/
def Does (w : World ι) (p : Program σ) (i : ι) (r : Request) : Prop :=
  ∃ a q u, r.perform.run.run p = (.ok a, q) ∧ Steps w u ∧ u.IsOf q ∧ u.phase = w.phase ∧
    .answered i r a ∈ u.deeds

variable {i : ι} {r : Request}

/-- It does if it comes to an answer from where others are as before. -/
theorem does_of_steps {a : Answer} {q : Program σ} {v : World ι} (hi : w.phase i = .idle)
    (hrun : r.perform.run.run p = (.ok a, q)) (hsteps : Steps w (v.answer i r a)) (hv : v.IsOf q)
    (hothers : ∀ j ≠ i, v.phase j = w.phase j) : Does w p i r := by
  refine ⟨a, q, _, hrun, hsteps, ⟨hv.settings, hv.modules, hv.stamps⟩, ?_, List.mem_cons_self⟩
  funext j
  exact World.forall_phase_set (P := fun j phase => phase = w.phase j) hi.symm hothers j

/-- To list modules is to tell one after the other. -/
theorem steps_listing (v : World ι) (left : List Module) (told : List (String × String))
    (hleft : ∀ m ∈ left, m ∈ v.modules.list) (hphase : v.phase i = .listing left told) :
    ∃ u : World ι, Steps v (u.answer i .list
      (.listing (told ++ left.map fun m => (m.name, m.levels.text)))) ∧
        u = { v with phase := u.phase } ∧ ∀ j ≠ i, u.phase j = v.phase j := by
  induction left generalizing v told with
  | nil =>
    refine ⟨v, .single ?_, rfl, fun _ _ => rfl⟩
    rw [List.map_nil, List.append_nil]
    exact .listed i hphase
  | cons m left ih =>
    obtain ⟨hm, hrest⟩ := List.forall_mem_cons.1 hleft
    obtain ⟨u, hsteps, hu, hothers⟩ := ih (v.set i (.listing left (told ++ [(m.name, m.levels.text)])))
      _ hrest (World.phase_set_self ..)
    rw [List.append_assoc] at hsteps
    exact ⟨u, .head (.tell i hphase hm rfl) hsteps, hu,
      fun j hj => (hothers j hj).trans (World.phase_set_of_ne _ _ hj)⟩

theorem does_register (h : w.Sound) (hp : w.IsOf p) (hi : w.phase i = .idle)
    (hfree : ∀ j, (w.phase j).reads = false) (name : String) (levels : Option String)
    (lookup : Environment) : Does w p i (.register name levels lookup) := by
  obtain ⟨s, hs, -⟩ := hp.settings
  let r : Request := .register name levels lookup
  have hcalled : Steps w (w.set i (.called r)) := .single (.call i r hi trivial)
  cases hfind : w.modules.find? name with
  | some m =>
    have hregister := Run.run_register_of_find? levels lookup (hp.modules ▸ hfind)
    exact does_of_steps hi (Updates.run_bind hregister _)
      (hcalled.tail (.found i (World.phase_set_self ..) hfind)) ⟨hp.settings, hp.modules, hp.stamps⟩
      fun j hj => World.phase_set_of_ne _ _ hj
  | none =>
    let text := Run.registerText name levels lookup
    let m : Module := ⟨w.stamps + 1, name, .ofText (w.levelsText text)⟩
    let looking := (w.set i (.called r)).set i (.looking name levels lookup)
    let choosing := looking.set i (.choosing r none text)
    let adding : World ι := { choosing.set i (.adding r m) with stamps := w.stamps + 1 }
    have hothers : ∀ j ≠ i, adding.phase j = w.phase j := fun j hj => by
      simp [adding, choosing, looking, hj]
    have hnobody : ∀ j, (adding.phase j).reads = false :=
      World.forall_phase_set (P := fun _ phase => phase.reads = false) rfl fun j hj => by
        simp [choosing, looking, hj, hfree j]
    have hadded : (adding.insert m).modules.find? m.name = some m :=
      Modules.find?_insertNew_of_none h.proper.sorted hfind
    have hregister := Run.run_register_of_none levels lookup hs (hp.modules ▸ h.proper.sorted)
      (hp.modules ▸ hfind)
    rw [← hp.modules, ← hp.stamps, ← hp.levelsText] at hregister
    have hsteps : Steps w adding := ((hcalled.tail (.missed i (World.phase_set_self ..) hfind)).tail
      (.look i (World.phase_set_self ..))).tail (.make i (World.phase_set_self ..))
    exact does_of_steps hi (Updates.run_bind hregister _)
      (hsteps.tail (.add i (World.phase_set_self ..) hnobody hadded)) ⟨hp.settings, rfl, rfl⟩ hothers

/-- From where the instance is found whose levels are to be set. -/
theorem does_of_choosing (h : w.Sound) (hp : w.IsOf p) (hi : w.phase i = .idle) {name text : String}
    {stamp : Nat} (hholds : w.modules.Holds name stamp)
    (hperform : r.perform (σ := σ) = do return .done (← Run.setModuleLevels name text))
    (hsteps : Steps w ((w.set i (.called r)).set i (.choosing r (some stamp) text))) :
    Does w p i r := by
  obtain ⟨s, hs, -⟩ := hp.settings
  obtain ⟨m, hfind, rfl⟩ := h.proper.find?_of_holds hholds
  let chosen := (w.set i (.called r)).set i (.choosing r (some m.stamp) text)
  let levels : Levels := .ofText (w.levelsText text)
  have hset := Run.run_setModuleLevels_of_find? text hs (hp.modules ▸ hfind)
  rw [← hp.modules, ← h.proper.relevel_eq hholds, ← hp.levelsText] at hset
  have hreplacing : Steps w (chosen.set i (.replacing r m.stamp levels)) :=
    hsteps.tail (.choose i (World.phase_set_self ..))
  have hrun : r.perform.run.run p =
      (.ok (.done true), { p with modules := w.modules.relevel m.stamp levels }) := by
    rw [hperform]
    exact Updates.run_bind hset _
  exact does_of_steps hi hrun (hreplacing.tail (.replace i (World.phase_set_self ..)))
    ⟨hp.settings, rfl, hp.stamps⟩ fun j hj => by simp [World.replace, chosen, hj]

theorem does_setLevels (h : w.Sound) (hp : w.IsOf p) (hi : w.phase i = .idle) (name text : String) :
    Does w p i (.setLevels name text) := by
  let r : Request := .setLevels name text
  have hcalled : Steps w (w.set i (.called r)) := .single (.call i r hi trivial)
  cases hfind : w.modules.find? name with
  | some m =>
    exact does_of_choosing h hp hi (Modules.holds_of_find? hfind) rfl
      (hcalled.tail (.known i (World.phase_set_self ..) hfind))
  | none =>
    have hset := Run.run_setModuleLevels_of_none text (hp.modules ▸ hfind)
    exact does_of_steps hi (Updates.run_bind hset _)
      (hcalled.tail (.unknown i (World.phase_set_self ..) hfind))
      ⟨hp.settings, hp.modules, hp.stamps⟩ fun j hj => World.phase_set_of_ne _ _ hj

theorem does_levelsOf (hp : w.IsOf p) (hi : w.phase i = .idle) (name : String) :
    Does w p i (.levelsOf name) := by
  let r : Request := .levelsOf name
  have hcalled : Steps w (w.set i (.called r)) := .single (.call i r hi trivial)
  cases hfind : w.modules.find? name with
  | some m =>
    have hlevels := Run.run_levelsOfModule_of_find? (hp.modules ▸ hfind)
    let reading := (w.set i (.called r)).set i (.reading name m.stamp)
    have hreading : Steps w reading := hcalled.tail (.enter i (World.phase_set_self ..) hfind)
    have hm : m ∈ reading.modules.list := (Modules.mem_of_find? hfind).1
    exact does_of_steps hi (Updates.run_bind hlevels _)
      (hreading.tail (.read i (World.phase_set_self ..) hm)) ⟨hp.settings, hp.modules, hp.stamps⟩
      fun j hj => by simp [reading, hj]
  | none =>
    have hlevels := Run.run_levelsOfModule_of_none (hp.modules ▸ hfind)
    exact does_of_steps hi (Updates.run_bind hlevels _)
      (hcalled.tail (.absent i (World.phase_set_self ..) hfind)) ⟨hp.settings, hp.modules, hp.stamps⟩
      fun j hj => World.phase_set_of_ne _ _ hj

theorem does_list (hp : w.IsOf p) (hi : w.phase i = .idle) : Does w p i .list := by
  let listing := (w.set i (.called .list)).set i (.listing w.modules.list [])
  have hlisting : Steps w listing := (Relation.ReflTransGen.single (.call i .list hi trivial)).tail
    (.list i (World.phase_set_self ..))
  obtain ⟨u, hsteps, hu, hothers⟩ := steps_listing (i := i) listing w.modules.list []
    (fun _ hm => hm) (World.phase_set_self ..)
  rw [List.nil_append, hp.modules] at hsteps
  refine does_of_steps hi rfl (hlisting.trans hsteps) ?_ fun j hj => ?_
  · rw [hu]
    exact ⟨hp.settings, hp.modules, hp.stamps⟩
  · rw [hothers j hj]
    simp [listing, hj]

theorem does (h : w.Sound) (hp : w.IsOf p) (hi : w.phase i = .idle)
    (hfree : ∀ j, (w.phase j).reads = false) (hgot : r.Got w) : Does w p i r := by
  cases r with
  | register name levels lookup => exact does_register h hp hi hfree name levels lookup
  | setLevels name text => exact does_setLevels h hp hi name text
  | levelsOf name => exact does_levelsOf hp hi name
  | list => exact does_list hp hi
  | init name stamp text =>
    exact does_of_choosing h hp hi (h.holds_of_got hgot) rfl ((Relation.ReflTransGen.single
      (.call i (.init name stamp text) hi hgot)).tail (.init i (World.phase_set_self ..)))

end Programs

/-! ### What comes out of it -/

/-- **A name keeps its module, and a module its levels.** Whatever order threads go on in:
whoever registers a name gets the module that has it, so all who do get the same;
the register has no name and no instance twice;
the levels of a module are those it was added with, or those that were set last;
only who sets levels, of the module's name or of the instance, replaces any;
from then on nothing goes from the register, and levels change only if somebody sets them;
and a request during which no other thread goes on is done as a program does it. -/
theorem names_keep_their_modules {ι : Type} [DecidableEq ι] {w : World ι} (h : Reached w) :
    (∀ i name levels lookup a, .answered i (.register name levels lookup) a ∈ w.deeds →
      ∃ m, w.modules.find? name = some m ∧ a = .module m.stamp) ∧
    (w.modules.list.map Module.name).Nodup ∧ (w.modules.list.map Module.stamp).Nodup ∧
    (∀ m ∈ w.modules.list, w.deeds.findSome? (Deed.levels? m.stamp) = some m.levels) ∧
    (∀ i r stamp levels, .replaced i r stamp levels ∈ w.deeds → r.Sets w.modules stamp) ∧
    (∀ u, Steps w u → ∃ new, u.deeds = new ++ w.deeds ∧ ∀ m ∈ w.modules.list,
      ∃ m', u.modules.find? m.name = some m' ∧ m'.stamp = m.stamp ∧
        ((∀ i r levels, .replaced i r m.stamp levels ∉ new) → m'.levels = m.levels)) ∧
    ∀ (σ : Type) (p : Program σ) (i : ι) (r : Request), w.IsOf p → w.phase i = .idle →
      (∀ j, (w.phase j).reads = false) → r.Got w → Does w p i r := by
  have hsound := h.sound
  refine ⟨?_, hsound.proper.sorted.nodup, hsound.proper.stamps, hsound.levels, hsound.replaced,
    fun u hsteps => ?_, fun σ p i r hp hi hfree hgot => does hsound hp hi hfree hgot⟩
  · intro i name levels lookup a hdeed
    obtain ⟨stamp, rfl, hholds⟩ := hsound.answered i _ a hdeed
    obtain ⟨m, hfind, rfl⟩ := hsound.proper.find?_of_holds hholds
    exact ⟨m, hfind, rfl⟩
  · obtain ⟨hu, new, hnew, hkeeps⟩ := Steps.keeps hsound hsteps
    refine ⟨new, hnew, fun m hm => ?_⟩
    obtain ⟨m', hm', hname, hstamp, hlevels⟩ := hkeeps m hm
    exact ⟨m', hname ▸ hu.proper.sorted.find?_of_mem hm', hstamp, hlevels⟩

/-- A thread that found the name free is overtaken by another, which registers it and then sets its
levels. -/
theorem late_registering_changes_nothing :
    let lookup : Environment := fun _ => none
    let late : Request := .register "db" (some "F") lookup
    let early : Request := .register "db" (some "W") lookup
    ∃ (v w : World Bool) (m : Module), Reached v ∧ Steps v w ∧
      .answered false early (.module 1) ∈ v.deeds ∧ v.phase true = .looking "db" (some "F") lookup ∧
      .answered true late (.module m.stamp) ∈ w.deeds ∧ w.modules.find? "db" = some m ∧
      m.stamp = 1 ∧ m.levels = ⟨[.debug]⟩ := by
  intro lookup late early
  let free : World Bool := ((((World.initial (.initial none)).set true (.called late)).set true
    (.looking "db" (some "F") lookup)).set false (.called early)).set false
      (.looking "db" (some "W") lookup)
  let text := Run.registerText "db" (some "W") lookup
  let choosing := free.set false (.choosing early none text)
  let first : Module := ⟨1, "db", .ofText (choosing.levelsText text)⟩
  let adding : World Bool := { choosing.set false (.adding early first) with stamps := 1 }
  let added : World Bool := (adding.insert first).answer false early (.module 1)
  have hfound : ∀ levels : Levels,
      (⟨[{ first with levels }]⟩ : Modules).find? "db" = some { first with levels } := by
    intro levels
    simp [Modules.find?, first]
  have hfree : Steps (.initial (.initial none)) free := (((Relation.ReflTransGen.refl.tail
    (.call true late rfl trivial)).tail (.missed true rfl rfl)).tail
      (.call false early rfl trivial)).tail (.missed false rfl rfl)
  have hmade : Steps (.initial (.initial none)) adding :=
    (hfree.tail (.look false rfl)).tail (.make false rfl)
  have hadd : Step adding added :=
    .add (w := adding) (r := early) (m := first) false rfl (by decide) (hfound _)
  have hadded : Reached added := ⟨.initial none, hmade.tail hadd⟩
  have hset : Steps added _ := (((Relation.ReflTransGen.refl.tail
    (.call false (.setLevels "db" "D") rfl trivial)).tail (.known false rfl (hfound _))).tail
      (.choose false rfl)).tail (.replace false rfl)
  have hlate : Steps added _ := ((hset.tail (.look true rfl)).tail (.make true rfl)).tail
    (.add true rfl (by decide) (hfound _))
  obtain ⟨hanswered, -, -, hlevels, -⟩ :=
    names_keep_their_modules (hadded.imp fun _ hsteps => hsteps.trans hlate)
  obtain ⟨m, hfind, hstamp⟩ := hanswered true "db" (some "F") lookup (.module 1) List.mem_cons_self
  have hone : m.stamp = 1 := (Answer.module.inj hstamp).symm
  refine ⟨_, _, m, hadded, hlate, List.mem_cons_self, rfl, ?_, hfind, hone, ?_⟩
  · rw [hone]
    exact List.mem_cons_self
  · have hlast := hlevels m (Modules.mem_of_find? hfind).1
    rw [hone] at hlast
    have hdebug : Levels.ofText "D" = ⟨[.debug]⟩ := by decide +kernel
    exact (Option.some.inj hlast).symm.trans hdebug

end Logline.Registering
