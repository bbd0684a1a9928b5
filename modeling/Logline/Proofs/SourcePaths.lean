import Logline.Proofs.Text.Splitting
import Logline.Handle

/-!
Paths of source files, cut to their last components. A slash that follows another one or ends a path
and a dot after a slash are no components (`components_between`, `components_trailing`), and a slash
that begins a path is one (`components_root`).

Behind the first component of a path come names only, and names joined by slashes are read as the same
names again (`components_intercalate`). So to shorten a path is to cut the list of its components
(`components_shorten`), and a path that is shortened in two steps comes to the same as in one
(`shorten_keeps_last`).
-/

namespace Logline.SourcePath

open Text

/-! ### What counts as a component -/

/-- What is no component where it follows a slash. -/
def Idle (part : String) : Prop := part = "" ∨ part = "."

theorem names_of_idle {part : String} (h : Idle part) : names [part] = [] := by
  rcases h with rfl | rfl <;> rfl

theorem names_append (a b : List String) : names (a ++ b) = names a ++ names b := List.filter_append a b

theorem splitText_slash (a b : String) :
    splitText '/' (a ++ "/" ++ b) = splitText '/' a ++ splitText '/' b :=
  splitText_append '/' a b

theorem splitText_idle {part : String} (h : Idle part) : splitText '/' part = [part] := by
  rcases h with rfl | rfl <;> rfl

/-- A slash at the beginning is a component, whatever follows. -/
theorem components_root (b : String) : components ("/" ++ b) = "/" :: names (splitText '/' b) := by
  have hsplit : splitText '/' ("/" ++ b) = "" :: splitText '/' b := by
    simpa [splitText_idle (.inl rfl)] using splitText_slash "" b
  have hsome : splitText '/' b ≠ [] := (splits_splitText '/' b).some_part
  simp [components, hsplit, hsome]

/-- What follows a slash further on adds its names. -/
theorem components_slash {a : String} (h : a ≠ "") (b : String) :
    components (a ++ "/" ++ b) = components a ++ names (splitText '/' b) := by
  unfold components
  rw [splitText_slash]
  cases hsplit : splitText '/' a with
  | nil => exact absurd hsplit (splits_splitText '/' a).some_part
  | cons first rest =>
    by_cases hfirst : first = ""
    · -- Only the empty text is cut into nothing but an empty part.
      have hrest : rest ≠ [] := by
        rintro rfl
        have hjoined := (splits_splitText '/' a).joined
        rw [hsplit, hfirst] at hjoined
        exact h hjoined.symm
      simp [hfirst, hrest, names_append]
    · simp [hfirst, names_append]

/-- Between two slashes neither nothing nor a dot is a component. -/
theorem components_between {part : String} (h : Idle part) (a b : String) :
    components (a ++ "/" ++ (part ++ "/" ++ b)) = components (a ++ "/" ++ b) := by
  have hnames : names (splitText '/' (part ++ "/" ++ b)) = names (splitText '/' b) := by
    rw [splitText_slash, names_append, splitText_idle h, names_of_idle h, List.nil_append]
  by_cases ha : a = ""
  · rw [ha, String.empty_append, components_root, components_root, hnames]
  · rw [components_slash ha, components_slash ha, hnames]

/-- Neither a slash at the end nor a dot behind it is a component. -/
theorem components_trailing {part : String} (h : Idle part) {a : String} (ha : a ≠ "") :
    components (a ++ "/" ++ part) = components a := by
  rw [components_slash ha, splitText_idle h, names_of_idle h, List.append_nil]

/-! ### Names -/

/-- A component that is not at the beginning of its path. -/
structure IsName (part : String) : Prop where
  kept : ¬ Idle part
  whole : '/' ∉ part.toList

theorem isName_of_mem_names {part : String} {parts : List String} (h : part ∈ names parts)
    (hparts : ∀ p ∈ parts, '/' ∉ p.toList) : IsName part := by
  obtain ⟨hmem, hkept⟩ := List.mem_filter.1 h
  exact ⟨by simpa [Idle] using hkept, hparts part hmem⟩

theorem isName_of_mem_tail {path part : String} (h : part ∈ (components path).tail) : IsName part := by
  have hclean := (splits_splitText '/' path).clean
  unfold components at h
  cases hsplit : splitText '/' path with
  | nil => simp [hsplit] at h
  | cons first rest =>
    rw [hsplit] at h hclean
    have hrest : ∀ p ∈ rest, '/' ∉ p.toList := fun p hp => hclean p (List.mem_cons_of_mem first hp)
    by_cases hfirst : first = ""
    · by_cases hnone : rest = []
      · simp [hfirst, hnone] at h
      · exact isName_of_mem_names (by simpa [hfirst, hnone] using h) hrest
    · exact isName_of_mem_names (by simpa [hfirst] using h) hrest

/-- Names joined by slashes are read as they were. -/
theorem components_intercalate {cs : List String} (hne : cs ≠ []) (h : ∀ c ∈ cs, IsName c) :
    components ("/".intercalate cs) = cs := by
  have hsplit : splitText '/' ("/".intercalate cs) = cs :=
    splits_iff.1 ⟨hne, fun c hc => (h c hc).whole, rfl⟩
  obtain ⟨first, rest, rfl⟩ := List.exists_cons_of_ne_nil hne
  obtain ⟨hfirst, hrest⟩ := List.forall_mem_cons.1 h
  have hnames : names rest = rest := by
    refine List.filter_eq_self.2 fun c hc => ?_
    simpa [Idle] using (hrest c hc).kept
  have hsome : first ≠ "" := fun hnone => hfirst.kept (.inl hnone)
  unfold components
  rw [hsplit]
  simp [hsome, hnames]

/-! ### Shortened paths -/

variable {path : String} {m n : Nat}

theorem shorten_of_le (h : (components path).length ≤ n) : shorten n path = path :=
  if_pos (by simp [h])

theorem shorten_of_lt (hn : 1 ≤ n) (h : n < (components path).length) :
    shorten n path = "/".intercalate ((components path).drop ((components path).length - n)) :=
  if_neg (by simp; omega)

/-- The last components, if these are not all, are names. -/
theorem isName_of_mem_drop (h : n < (components path).length) :
    ∀ c ∈ (components path).drop ((components path).length - n), IsName c := by
  intro c hc
  have hdrop : (components path).drop ((components path).length - n) =
      (components path).tail.drop ((components path).length - n - 1) := by
    rw [List.drop_tail]
    congr 1
    omega
  rw [hdrop] at hc
  exact isName_of_mem_tail (List.mem_of_mem_drop hc)

theorem components_shorten (hn : 1 ≤ n) :
    components (shorten n path) = (components path).drop ((components path).length - n) := by
  by_cases h : (components path).length ≤ n
  · rw [shorten_of_le h, Nat.sub_eq_zero_of_le h, List.drop_zero]
  · rw [shorten_of_lt hn (Nat.lt_of_not_le h)]
    refine components_intercalate (fun hnil => ?_) (isName_of_mem_drop (Nat.lt_of_not_le h))
    have hlength := congrArg List.length hnil
    simp at hlength
    omega

/-- Whoever keeps fewer components may as well take them from a path that was shortened before. -/
theorem shorten_shorten (hn : 1 ≤ n) (h : n ≤ m) : shorten n (shorten m path) = shorten n path := by
  by_cases hm : (components path).length ≤ m
  · rw [shorten_of_le hm]
  · have hlength : (components (shorten m path)).length = m := by
      rw [components_shorten (Nat.le_trans hn h), List.length_drop]
      omega
    rcases Nat.eq_or_lt_of_le h with rfl | hlt
    · exact shorten_of_le (Nat.le_of_eq hlength)
    · have hdrop : (components (shorten m path)).drop (m - n) =
          (components path).drop ((components path).length - n) := by
        rw [components_shorten (Nat.le_trans hn h), List.drop_drop]
        congr 1
        omega
      rw [shorten_of_lt hn (hlength.symm ▸ hlt), hlength, hdrop, shorten_of_lt hn (by omega)]

/-- Names that are joined begin with the first of them, and so not with a slash. -/
theorem head_shorten_ne_slash (hn : 1 ≤ n) (h : n < (components path).length) :
    (shorten n path).toList.head? ≠ some '/' := by
  have hnames := isName_of_mem_drop h
  rw [shorten_of_lt hn h]
  generalize hcs : (components path).drop ((components path).length - n) = cs at hnames
  cases cs with
  | nil =>
    have hlength := congrArg List.length hcs
    simp at hlength
    omega
  | cons first rest =>
    obtain ⟨hfirst, -⟩ := List.forall_mem_cons.1 hnames
    have hsome : first.toList ≠ [] := fun hnil => hfirst.kept (.inl (String.toList_eq_nil_iff.1 hnil))
    have hhead : ("/".intercalate (first :: rest)).toList.head? = first.toList.head? := by
      cases rest with
      | nil => simp
      | cons second rest => simp [String.toList_intercalate, List.head?_append_of_ne_nil _ hsome]
    rw [hhead]
    exact fun hslash => hfirst.whole (List.mem_of_mem_head? hslash)

/-- **A shortened path has the last components of the path.** If the path has more components than are
kept, they are as many as are kept, and no slash is in front of them; otherwise the path stays as it
is. Shortening a path in two steps comes to the same as in one, and once is enough. -/
theorem shorten_keeps_last (path : String) {m n : Nat} (hn : 1 ≤ n) (h : n ≤ m) :
    let all := components path
    let kept := components (shorten n path)
    (kept <:+ all ∧ kept.length = min n all.length) ∧
      (all.length ≤ n → shorten n path = path) ∧
      (n < all.length → (shorten n path).toList.head? ≠ some '/') ∧
      shorten n (shorten m path) = shorten n path ∧
      shorten n (shorten n path) = shorten n path := by
  refine ⟨⟨?_, ?_⟩, shorten_of_le, head_shorten_ne_slash hn, shorten_shorten hn h,
    shorten_shorten hn (Nat.le_refl n)⟩
  · rw [components_shorten hn]
    exact List.drop_suffix ..
  · rw [components_shorten hn, List.length_drop]
    omega

/-- Slashes and dots at every place, a root, and a step up that counts as a component. -/
theorem path_with_dots_shortened :
    let path := "//usr/.//src/./../lib.rs/."
    components path = ["/", "usr", "src", "..", "lib.rs"] ∧ shorten 5 path = path ∧
      shorten 3 path = "src/../lib.rs" ∧ shorten 2 (shorten 3 path) = shorten 2 path ∧
      shorten 2 path = "../lib.rs" := by
  intro path
  obtain ⟨-, -, -, htwice, -⟩ := shorten_keeps_last path (m := 3) (n := 2) (by decide) (by decide)
  obtain ⟨-, hall, -⟩ := shorten_keeps_last path (m := 5) (n := 5) (by decide) (by decide)
  exact ⟨by decide, hall (by decide), by decide, htwice, by decide⟩

end Logline.SourcePath
