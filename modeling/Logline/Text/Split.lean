/-!
Cutting a text at every separator. The parts joined again give the text (`joinAt_splitAt`), and
there is always one part more than there are separators (`length_splitAt`). Cutting off a start
gives what follows it (`after?_eq_some_iff`).
-/

namespace Logline.Text

def splitAt (sep : Char) : List Char → List (List Char)
  | [] => [[]]
  | c :: rest =>
    if c = sep then [] :: splitAt sep rest
    else match splitAt sep rest with
      | [] => [[c]]
      | part :: parts => (c :: part) :: parts

def joinAt (sep : Char) : List (List Char) → List Char
  | [] => []
  | [part] => part
  | part :: parts => part ++ sep :: joinAt sep parts

theorem splitAt_ne_nil (sep : Char) (s : List Char) : splitAt sep s ≠ [] := by
  cases s with
  | nil => simp [splitAt]
  | cons c rest =>
    unfold splitAt
    split
    · simp
    · split <;> simp

theorem joinAt_splitAt (sep : Char) (s : List Char) : joinAt sep (splitAt sep s) = s := by
  induction s with
  | nil => rfl
  | cons c rest ih =>
    unfold splitAt
    have hne := splitAt_ne_nil sep rest
    split
    · next h =>
      cases hp : splitAt sep rest with
      | nil => exact absurd hp hne
      | cons part parts => simp [joinAt, ← hp, ih, h]
    · split
      · next hp => exact absurd hp hne
      · next part parts hp =>
        rw [hp] at ih
        cases parts <;> simp_all [joinAt]

theorem length_splitAt (sep : Char) (s : List Char) :
    (splitAt sep s).length = s.count sep + 1 := by
  induction s with
  | nil => rfl
  | cons c rest ih =>
    unfold splitAt
    have hne := splitAt_ne_nil sep rest
    split
    · next h => simp [h, ih]
    · next h =>
      rw [List.count_cons_of_ne h]
      split
      · next hp => exact absurd hp hne
      · next hp => rw [← ih, hp]; rfl

/-- What follows a start, if the text has it. -/
def after? (start s : List Char) : Option (List Char) :=
  if start.isPrefixOf s then some (s.drop start.length) else none

theorem after?_eq_some_iff {start s rest : List Char} :
    after? start s = some rest ↔ s = start ++ rest := by
  unfold after?
  constructor
  · intro h
    split at h
    · next hs =>
      obtain ⟨t, rfl⟩ := List.isPrefixOf_iff_prefix.1 hs
      simp_all
    · simp at h
  · rintro rfl
    simp

def splitText (sep : Char) (s : String) : List String :=
  (splitAt sep s.toList).map String.ofList

end Logline.Text
