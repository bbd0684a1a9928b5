import Logline.Value.Pairs

/-!
Where maps stand. A map is two rows, its keys and its values, on the shelf of all maps that were ever
made; the empty map needs none and stands nowhere. To add pairs the rows are copied to the end of the
shelf and the copy is filled, with an index of its keys that is kept only meanwhile.
-/

namespace Logline

/-- The keys of a map, and the value of each at the same place. -/
structure Rows (α : Type) where
  keys : List String
  values : List α

namespace Rows

variable {α : Type}

def empty : Rows α := ⟨[], []⟩

/-- The pairs one comes by on the way through the map. -/
def entries (r : Rows α) : List (String × α) := r.keys.zip r.values

/-- The value at the first place where the key stands. -/
def get? (r : Rows α) (key : String) : Option α := (r.keys.idxOf? key).bind fun i => r.values[i]?

end Rows

/-- All maps that were made, one after the other. -/
abbrev Shelf (α : Type) := List (Rows α)

/-- Where a map stands. -/
abbrev Spot := Option Nat

/-- Rows that are being filled: where they are, and the place of each key on them, the latest noted
first. -/
structure Builder where
  target : Nat
  index : List (String × Nat)

namespace Shelf

variable {α : Type}

def rows (s : Shelf α) : Spot → Rows α
  | some i => s.getD i .empty
  | none => .empty

/-- Copies the rows of a map, and notes where its keys are. -/
def copy (s : Shelf α) (m : Spot) : Shelf α × Builder :=
  (s ++ [s.rows m], ⟨s.length, (s.rows m).keys.zipIdx.reverse⟩)

/-- Writes over the value of a key that is there, or puts the pair at the end. -/
def put (t : Shelf α × Builder) (e : String × α) : Shelf α × Builder :=
  let (s, f) := t
  match f.index.lookup e.1 with
  | some i => (s.modify f.target fun r => { r with values := r.values.set i e.2 }, f)
  | none =>
    (s.modify f.target fun r => ⟨r.keys ++ [e.1], r.values ++ [e.2]⟩,
      { f with index := (e.1, (s.rows (some f.target)).keys.length) :: f.index })

/-- What was filled is a map; without keys it is the empty one. -/
def finish (t : Shelf α × Builder) : Shelf α × Spot :=
  let (s, f) := t
  if (s.rows (some f.target)).keys.isEmpty then (s, none) else (s, some f.target)

/-- A map with pairs put into a copy of its rows one after the other. -/
def build (s : Shelf α) (m : Spot) (new : List (String × α)) : Shelf α × Spot :=
  finish (new.foldl put (s.copy m))

/-- The map with pairs added; the very same map if there are none. -/
def add (s : Shelf α) (m : Spot) (new : List (String × α)) : Shelf α × Spot :=
  if new.isEmpty then (s, m) else s.build m new

/-- The first map with the pairs of the second added. If either is empty it is the other one. -/
def merge (s : Shelf α) (m n : Spot) : Shelf α × Spot :=
  match m, n with
  | some i, some j =>
    if (s.rows (some j)).keys.isEmpty then (s, some i)
    else if (s.rows (some i)).keys.isEmpty then (s, some j)
    else s.build (some i) (s.rows (some j)).entries
  | m, n => if (s.rows m).keys.isEmpty then (s, n) else (s, m)

end Shelf

end Logline
