import Logline.Line.Draft

/-!
Where the scratch space of a line comes from. A line takes the space that was given back last, or a
new one, and gives it back when it ends, finished or not. What has gathered in a space that is given
back is forgotten, and a space that became too small is not kept.
-/

namespace Logline

/-- What has gathered in a space, the latest first, how many bytes these are, and for how many there
is room. -/
structure Space where
  gathered : List Text.Bytes
  used : Nat
  room : Nat

/-- Spaces that no line uses. -/
abbrev Pool := List Space

namespace Pool

/-- A space for a line, and the spaces that are left. -/
def take : Pool → Space × Pool
  | [] => (⟨[], 0, scratchSize⟩, [])
  | s :: rest => (s, rest)

def giveBack (p : Pool) (s : Space) : Pool :=
  if scratchSize ≤ s.room then { s with gathered := [], used := 0 } :: p else p

end Pool

/-- Starts a line in a space as it is. -/
def Draft.startIn (s : Space) (thread : Thread) (route : Route) (trail : Trail) : Draft :=
  { Draft.start thread route trail with gathered := s.gathered, used := s.used }

end Logline
