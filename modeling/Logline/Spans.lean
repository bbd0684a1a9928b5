import Logline.Layers

/-!
A registry to run layers over. A span lives until it is closed, whether it is entered or not; but one
in which another span was ever placed lives on, and so the spans around a live span all live.
-/

namespace Logline

/-- A span with the spans around it, from the innermost out, and the fields it declares. -/
structure LiveSpan where
  around : List Nat
  declared : List String

/-- Spans and what was left with each of them. `entered` has the span entered last in front, with
whether it had been entered already. -/
structure Spans where
  live : Nat → Option LiveSpan
  pairs : Nat → Option (Pairs Value)
  /-- Whether a span was ever placed within it. -/
  enclosing : Nat → Bool
  entered : List (Nat × Bool)
  next : Nat
  bound : ∀ id, (live id).isSome → id < next
  placed : ∀ id span, live id = some span → ∀ o out, span.around = o :: out →
    enclosing o = true ∧ ∃ outer, live o = some outer ∧ outer.around = out

namespace Spans

def empty : Spans where
  live _ := none
  pairs _ := none
  enclosing _ := false
  entered := []
  next := 0
  bound := nofun
  placed := nofun

/-- The span entered last, entering again not counted, if it lives still. -/
def current (s : Spans) : Option Nat := do
  let (id, _) ← s.entered.find? fun e => !e.2
  if (s.live id).isSome then some id else none

def resolve (s : Spans) : Parent → Option Nat
  | .current => s.current
  | .root => none
  | .span id => if (s.live id).isSome then some id else none

/-- The way from a span out. -/
def out (s : Spans) : Option Nat → List Nat
  | none => []
  | some id => match s.live id with
    | none => []
    | some span => id :: span.around

theorem out_eq_cons {s : Spans} {id : Option Nat} {o : Nat} {rest : List Nat}
    (h : s.out id = o :: rest) : id = some o ∧ ∃ outer, s.live o = some outer ∧ outer.around = rest := by
  unfold out at h
  split at h
  · cases h
  · next i =>
    split at h
    · cases h
    · next span hspan =>
      cases h
      exact ⟨rfl, span, hspan, rfl⟩

def add (s : Spans) (parent : Parent) (declared : List String) : Nat × Spans :=
  let outer := s.resolve parent
  (s.next, {
    live i := if i = s.next then some ⟨s.out outer, declared⟩ else s.live i
    pairs i := if i = s.next then none else s.pairs i
    enclosing i := s.enclosing i || some i = outer
    entered := s.entered
    next := s.next + 1
    bound := fun i hi => by
      split at hi
      · next hnew => exact hnew ▸ Nat.lt_succ_self _
      · exact Nat.lt_succ_of_lt (s.bound i hi)
    placed := fun i span hspan o rest hrest => by
      have hlives : ∀ outer, s.live o = some outer → o ≠ s.next := fun outer ho hnew =>
        Nat.lt_irrefl _ (hnew ▸ s.bound o (by rw [ho]; rfl))
      split at hspan
      · -- the new span stands right within the outer one
        cases hspan
        obtain ⟨ho, outer, hlive, hout⟩ := out_eq_cons hrest
        exact ⟨by simp [ho], outer, by rw [if_neg (hlives outer hlive), hlive], hout⟩
      · obtain ⟨henclosing, outer, hlive, hout⟩ := s.placed i span hspan o rest hrest
        exact ⟨by simp [henclosing], outer, by rw [if_neg (hlives outer hlive), hlive], hout⟩ })

def keep (s : Spans) (id : Nat) (pairs : Pairs Value) : Spans :=
  { s with pairs := fun i => if i = id then some pairs else s.pairs i }

def enter (s : Spans) (id : Nat) : Spans :=
  { s with entered := (id, s.entered.any (·.1 = id)) :: s.entered }

/-- Takes back the last time the span was entered. -/
def leave (s : Spans) (id : Nat) : Spans :=
  { s with entered := s.entered.eraseP (·.1 = id) }

/-- Takes the span away, unless another was ever placed within it. -/
def close (s : Spans) (id : Nat) : Spans where
  live i := if i = id ∧ s.enclosing id = false then none else s.live i
  pairs := s.pairs
  enclosing := s.enclosing
  entered := s.entered
  next := s.next
  bound i hi := by
    split at hi
    · cases hi
    · exact s.bound i hi
  placed i span hspan o rest hrest := by
    split at hspan
    · cases hspan
    · obtain ⟨henclosing, outer, hlive, hout⟩ := s.placed i span hspan o rest hrest
      refine ⟨henclosing, outer, ?_, hout⟩
      rw [if_neg, hlive]
      rintro ⟨rfl, hclosed⟩
      rw [henclosing] at hclosed
      cases hclosed

instance : Registry Spans where
  empty := .empty
  span? s id := (s.live id).map fun span => ⟨span.around.head?, s.pairs id⟩
  resolve := resolve
  scope s id := (s.out id).reverse
  add := add
  keep := keep
  enter := enter
  leave := leave
  close := close

end Spans

/-- Layers over spans of this registry. -/
abbrev Subscriber := Layered Spans

namespace Subscriber

variable {σ : Type}

/-- Fields that have a value. -/
def valued (fields : List (String × Option FieldValue)) : List (String × FieldValue) :=
  fields.filterMap fun f => f.2.map fun v => (f.1, v)

/-- A span declares all its fields, also those without a value yet. -/
def newSpan (s : Subscriber) (parent : Parent) (fields : List (String × Option FieldValue)) :
    Run σ (Nat × Subscriber) :=
  Layered.newSpan s parent (fields.map Prod.fst) (valued fields)

/-- Records values by name: those for fields the span declares, in the order of declaration. Of several
fields of one name the first one counts, even if it has no value. -/
def record (s : Subscriber) (id : Nat) (fields : List (String × Option FieldValue)) :
    Run σ Subscriber :=
  match s.spans.live id with
  | none => return s
  | some span =>
    Layered.record s id (valued (span.declared.map fun name => (name, (fields.lookup name).join)))

end Subscriber

end Logline
