/-!
Ordered maps from keys to values. A map is never changed: adding a pair gives a new one, in which
a key already there keeps its place and takes the new value. `stamp` tells instances apart; who
makes a map gives it a stamp of its own, and the empty map, of which there is only one, has 0.
-/

namespace Logline

structure Pairs (α : Type) where
  stamp : Nat
  entries : List (String × α)

namespace Pairs

variable {α : Type}

def empty : Pairs α := ⟨0, []⟩

def isEmpty (p : Pairs α) : Bool := p.entries.isEmpty

def size (p : Pairs α) : Nat := p.entries.length

def keys (p : Pairs α) : List String := p.entries.map Prod.fst

def get? (p : Pairs α) (key : String) : Option α := p.entries.lookup key

/-- Replaces the value in place, or adds the pair at the end. -/
def insert (key : String) (v : α) : List (String × α) → List (String × α)
  | [] => [(key, v)]
  | (k, w) :: rest => if k = key then (k, v) :: rest else (k, w) :: insert key v rest

/-- Inserts pairs one after the other. -/
def insertAll (entries new : List (String × α)) : List (String × α) :=
  new.foldl (fun es e => insert e.1 e.2 es) entries

/-- The map with pairs added; the very same map if there are none. -/
def add (stamp : Nat) (p : Pairs α) (new : List (String × α)) : Pairs α :=
  if new.isEmpty then p else ⟨stamp, insertAll p.entries new⟩

/-- The first map with the pairs of the second added. If either is empty it is the other one,
the instance itself. -/
def merge (stamp : Nat) (p q : Pairs α) : Pairs α :=
  if p.isEmpty then q
  else if q.isEmpty then p
  else ⟨stamp, insertAll p.entries q.entries⟩

def same (p q : Pairs α) : Bool := p.stamp = q.stamp

/-! ### What the operations do to keys and look-ups -/

theorem lookup_insert (key k : String) (v : α) (es : List (String × α)) :
    (insert key v es).lookup k = if k = key then some v else es.lookup k := by
  induction es with
  | nil => grind [insert]
  | cons e rest ih => grind [insert]

theorem mem_keys_insert (key k : String) (v : α) (es : List (String × α)) :
    k ∈ (insert key v es).map Prod.fst ↔ k = key ∨ k ∈ es.map Prod.fst := by
  induction es with
  | nil => simp [insert]
  | cons e rest ih => grind [insert]

end Pairs

end Logline
