import Logline.Program
import Logline.Recording

/-!
Events within spans. A registry keeps the spans: it tells what is placed within what, and carries for
each span the pairs that were left with it. A layer leaves with a new span the pairs of its fields and
adds those of what is recorded on it later; an event's line has as its context the pairs of all spans
around it, merged from the outermost in. Registries are made elsewhere. Any type with their operations
does here, and what layers need to know of one are its laws (`Registry.Lawful`).
-/

namespace Logline

/-- What an event or a new span is placed under. -/
inductive Parent where
  | current
  | root
  | span (id : Nat)

/-- A span as its registry shows it: the span it is placed within, and the pairs left with it. -/
structure Span where
  outer : Option Nat
  pairs : Option (Pairs Value)

class Registry (R : Type) where
  empty : R
  /-- The span that goes by the id, if there is one. -/
  span? : R → Nat → Option Span
  resolve : R → Parent → Option Nat
  /-- The spans from the outermost in to the one given. -/
  scope : R → Option Nat → List Nat
  /-- Makes a span with fields of the names declared; an id is given to it. -/
  add : R → Parent → List String → Nat × R
  /-- Leaves pairs with a span, in the place of those left with it before. -/
  keep : R → Nat → Pairs Value → R
  enter : R → Nat → R
  leave : R → Nat → R
  close : R → Nat → R

open Registry (span?)

/-- Nothing can be placed under a span that is gone. -/
def Parent.Lives {R : Type} [Registry R] (r : R) (parent : Parent) : Prop :=
  ∀ id, parent = .span id → (span? r id).isSome

/-- What a registry promises. Ids may be given again once the spans that had them are gone, and a span
may go whenever one is entered, left or closed, but never before those within it. -/
structure Registry.Lawful (R : Type) [Registry R] : Prop where
  span?_empty : ∀ id, span? (empty : R) id = none
  /-- A new span has an id of its own. -/
  span?_fresh : ∀ (r : R) parent names, span? r (add r parent names).1 = none
  /-- It is placed where it was to be, nothing is left with it yet, and other spans stay as they are. -/
  span?_add : ∀ (r : R) (parent : Parent) names id, parent.Lives r →
    span? (add r parent names).2 id =
      if id = (add r parent names).1 then some ⟨resolve r parent, none⟩ else span? r id
  span?_keep : ∀ (r : R) id pairs i,
    span? (keep r id pairs) i =
      if i = id then (span? r i).map fun span => { span with pairs := some pairs } else span? r i
  span?_enter : ∀ (r : R) id i span, span? (enter r id) i = some span → span? r i = some span
  span?_leave : ∀ (r : R) id i span, span? (leave r id) i = some span → span? r i = some span
  span?_close : ∀ (r : R) id i span, span? (close r id) i = some span → span? r i = some span
  /-- What a span is placed within is there as long as the span. -/
  outer_lives : ∀ (r : R) id span outer,
    span? r id = some span → span.outer = some outer → (span? r outer).isSome
  resolve_root : ∀ r : R, resolve r .root = none
  resolve_span : ∀ (r : R) id, (span? r id).isSome → resolve r (.span id) = some id
  resolve_lives : ∀ (r : R) parent id, resolve r parent = some id → (span? r id).isSome
  scope_none : ∀ r : R, scope r none = []
  scope_some : ∀ (r : R) id span,
    span? r id = some span → scope r (some id) = scope r span.outer ++ [id]

/-- The pairs left with the spans around what is placed there, from the outermost in. Spans that
nothing was left with are passed over. -/
def Registry.pairsAround {R : Type} [Registry R] (r : R) (parent : Parent) : List (Pairs Value) :=
  (scope r (resolve r parent)).filterMap fun id => (span? r id).bind Span.pairs

/-- The levels of events, and the severities they are written at. -/
inductive EventLevel where
  | error
  | warn
  | info
  | debug
  | trace
deriving DecidableEq, Repr

def EventLevel.severity : EventLevel → Severity
  | .error => .fail
  | .warn => .warn
  | .info => .info
  | .debug => .debug
  | .trace => .trace

/-- Writes events by a snapshot of its own, or by what is in force at each event. -/
structure EventLayer where
  snapshot : Option Snapshot
  withTarget : Bool

namespace EventLayer

variable {σ R : Type} [Registry R]

def handle (l : EventLayer) (level : EventLevel) : Run σ (Handle Value) := do
  let s ← match l.snapshot with
    | some s => pure s
    | none => Run.snapshot
  return s.handle level.severity

/-- Leaves with a new span the pairs of its fields, unless another layer has done so. -/
def onNewSpan (r : R) (id : Nat) (fields : List (String × FieldValue)) : Run σ R := do
  match span? r id with
  | none => return r
  | some span =>
    let pairs ← Run.ofTokens (Recording.ofFields fields).allTokens
    return if span.pairs.isSome then r else Registry.keep r id pairs

/-- Adds the pairs of what is recorded to those left with the span. -/
def onRecord (r : R) (id : Nat) (fields : List (String × FieldValue)) : Run σ R := do
  match (span? r id).bind Span.pairs with
  | none => return r
  | some pairs =>
    return Registry.keep r id (← Run.addTokens pairs (Recording.ofFields fields).allTokens)

/-- Merges the pairs of spans into one map. -/
def mergedPairs (around : List (Pairs Value)) : Run σ (Pairs Value) := do
  let stamp ← Run.fresh
  return around.foldl (fun ps pairs => ps.merge stamp pairs) .empty

/-- Writes an event, if its level is switched on. -/
def event (l : EventLayer) (level : EventLevel) (target : String) (around : List (Pairs Value))
    (fields : List (String × FieldValue)) : Run σ Unit := do
  let h ← l.handle level
  if h.isEnabled then
    let h := h.withContext (← Run.fresh) [← mergedPairs around]
    let stamp ← Run.fresh
    let h := if l.withTarget then h.withModule stamp target else h
    let r := Recording.ofFields fields
    Run.writeForm h <| match r.message with
      | some m => .messageMap m r.tokens
      | none => .map r.tokens

end EventLayer

/-- Layers over a registry they share. -/
structure Layered (R : Type) where
  layers : List EventLayer
  spans : R

namespace Layered

variable {σ R : Type} [Registry R]

/-- An event is enabled if every layer wants it. -/
def enables (s : Layered R) (level : EventLevel) : Run σ Bool :=
  s.layers.allM fun l => return (← l.handle level).isEnabled

/-- The registry makes the span, then each layer is told of it. -/
def newSpan (s : Layered R) (parent : Parent) (names : List String)
    (fields : List (String × FieldValue)) : Run σ (Nat × Layered R) := do
  let (id, made) := Registry.add s.spans parent names
  let spans ← s.layers.foldlM (fun r _ => EventLayer.onNewSpan r id fields) made
  return (id, { s with spans })

def record (s : Layered R) (id : Nat) (fields : List (String × FieldValue)) :
    Run σ (Layered R) := do
  let spans ← s.layers.foldlM (fun r _ => EventLayer.onRecord r id fields) s.spans
  return { s with spans }

/-- Answers whether the event is enabled. One that is forced goes to the layers all the same. -/
def event (s : Layered R) (level : EventLevel) (target : String) (parent : Parent) (forced : Bool)
    (fields : List (String × FieldValue)) : Run σ Bool := do
  let enabled ← s.enables level
  if enabled || forced then
    for l in s.layers do
      l.event level target (Registry.pairsAround s.spans parent) fields
  return enabled

end Layered

end Logline
