import Mathlib.Data.List.Nodup
import Mathlib.Data.String.Basic
import Logline.Modules

/-!
The register of modules. It is kept in the order of the names, so it never holds two modules of one
name (`Sorted.nodup`), and looking a name up finds the module that has it (`Sorted.find?_of_mem`).
Adding a module leaves what is there (`insertNew_of_find?`), and setting levels changes those of one
module only. Who has a module in hands sets its levels whatever its name is, which comes to the same
(`Proper.relevel_eq`).
-/

namespace Logline.Modules

variable {ms : Modules} {m : Module} {name : String}

/-- In the order of the names, no two of which are the same. -/
def Sorted (ms : Modules) : Prop := ms.list.Pairwise fun a b => a.name < b.name

theorem sorted_empty : empty.Sorted := .nil

theorem Sorted.nodup (h : ms.Sorted) : (ms.list.map Module.name).Nodup :=
  List.pairwise_map.2 (h.imp fun hab => ne_of_lt hab)

/-! ### Looking up -/

theorem mem_of_find? (h : ms.find? name = some m) : m ∈ ms.list ∧ m.name = name :=
  ⟨List.mem_of_find?_eq_some h, by simpa using List.find?_some h⟩

theorem ne_of_find?_eq_none (h : ms.find? name = none) (hm : m ∈ ms.list) : m.name ≠ name := by
  simpa using List.find?_eq_none.1 h m hm

theorem Sorted.find?_of_mem (h : ms.Sorted) (hm : m ∈ ms.list) : ms.find? m.name = some m := by
  cases hfound : ms.find? m.name with
  | none => exact absurd rfl (ne_of_find?_eq_none hfound hm)
  | some other =>
    obtain ⟨hmem, hname⟩ := mem_of_find? hfound
    rw [List.inj_on_of_nodup_map h.nodup hmem hm hname]

/-! ### Adding -/

theorem place_of_mem {l : List Module} (hsorted : l.Pairwise fun a b => a.name < b.name)
    (h : ∃ x ∈ l, x.name = m.name) : place m l = l := by
  induction l with
  | nil => exact absurd h (by simp)
  | cons other rest ih =>
    obtain ⟨hfirst, hrest⟩ := List.pairwise_cons.1 hsorted
    by_cases hname : m.name = other.name
    · rw [place, if_pos hname]
    · obtain ⟨x, hx, hxm⟩ := h
      have hx : x ∈ rest := (List.mem_cons.1 hx).resolve_left fun hx => hname (hxm ▸ congrArg _ hx)
      have hafter : ¬ m.name < other.name := not_lt_of_gt (hxm ▸ hfirst x hx)
      rw [place, if_neg hname, if_neg hafter, ih hrest ⟨x, hx, hxm⟩]

theorem perm_place {l : List Module} (h : ∀ x ∈ l, x.name ≠ m.name) :
    (place m l).Perm (m :: l) := by
  induction l with
  | nil => exact .refl _
  | cons other rest ih =>
    have hname : m.name ≠ other.name := fun hm => h other List.mem_cons_self hm.symm
    rw [place, if_neg hname]
    split
    · exact .refl _
    · have hrest := ih fun x hx => h x (List.mem_cons_of_mem _ hx)
      exact (hrest.cons other).trans (.swap ..)

theorem sorted_place {l : List Module} (hsorted : l.Pairwise fun a b => a.name < b.name)
    (h : ∀ x ∈ l, x.name ≠ m.name) : (place m l).Pairwise fun a b => a.name < b.name := by
  induction l with
  | nil => exact List.pairwise_singleton ..
  | cons other rest ih =>
    obtain ⟨hfirst, hrest⟩ := List.pairwise_cons.1 hsorted
    have hname : m.name ≠ other.name := fun hm => h other List.mem_cons_self hm.symm
    have hothers : ∀ x ∈ rest, x.name ≠ m.name := fun x hx => h x (List.mem_cons_of_mem _ hx)
    rw [place, if_neg hname]
    split
    · next hbefore =>
      refine List.pairwise_cons.2 ⟨fun x hx => ?_, hsorted⟩
      rcases List.mem_cons.1 hx with rfl | hx
      · exact hbefore
      · exact lt_trans hbefore (hfirst x hx)
    · next hbefore =>
      refine List.pairwise_cons.2 ⟨fun x hx => ?_, ih hrest hothers⟩
      rcases List.mem_cons.1 ((perm_place hothers).mem_iff.1 hx) with rfl | hx
      · exact lt_of_le_of_ne (not_lt.1 hbefore) hname.symm
      · exact hfirst x hx

/-- A name that is taken stays with the module that has it. -/
theorem insertNew_of_find? {other : Module} (hsorted : ms.Sorted)
    (h : ms.find? m.name = some other) : ms.insertNew m = ms :=
  congrArg Modules.mk (place_of_mem hsorted ⟨other, mem_of_find? h⟩)

theorem mem_insertNew {x : Module} (h : ms.find? m.name = none) :
    x ∈ (ms.insertNew m).list ↔ x = m ∨ x ∈ ms.list := by
  rw [← List.mem_cons]
  exact (perm_place fun _ hx => ne_of_find?_eq_none h hx).mem_iff

theorem Sorted.insertNew (hsorted : ms.Sorted) (m : Module) : (ms.insertNew m).Sorted := by
  cases h : ms.find? m.name with
  | some other => rwa [insertNew_of_find? hsorted h]
  | none => exact sorted_place hsorted fun _ hx => ne_of_find?_eq_none h hx

theorem find?_insertNew (hsorted : ms.Sorted) (m : Module) :
    (ms.insertNew m).find? m.name = some ((ms.find? m.name).getD m) := by
  cases h : ms.find? m.name with
  | some other => rw [insertNew_of_find? hsorted h, h, Option.getD_some]
  | none => exact (hsorted.insertNew m).find?_of_mem ((mem_insertNew h).2 (.inl rfl))

theorem find?_insertNew_of_none (hsorted : ms.Sorted) (h : ms.find? m.name = none) :
    (ms.insertNew m).find? m.name = some m := by
  rw [find?_insertNew hsorted, h, Option.getD_none]

/-! ### Setting levels -/

theorem mem_setLevels {x : Module} {levels : Levels} :
    x ∈ (ms.setLevels name levels).list ↔
      ∃ y ∈ ms.list, (if y.name = name then { y with levels } else y) = x :=
  List.mem_map

theorem names_setLevels (ms : Modules) (name : String) (levels : Levels) :
    (ms.setLevels name levels).list.map Module.name = ms.list.map Module.name := by
  rw [setLevels, List.map_map]
  refine List.map_congr_left fun y _ => ?_
  show (if y.name = name then { y with levels } else y).name = y.name
  split <;> rfl

theorem Sorted.setLevels (h : ms.Sorted) (name : String) (levels : Levels) :
    (ms.setLevels name levels).Sorted := by
  have hnames : (ms.list.map Module.name).Pairwise (· < ·) := List.pairwise_map.2 h
  rw [← names_setLevels ms name levels] at hnames
  exact List.pairwise_map.1 hnames

/-! ### Instances -/

variable {stamp : Nat} {levels : Levels}

/-- The module of that name is that instance. -/
def Holds (ms : Modules) (name : String) (stamp : Nat) : Prop :=
  ∃ m ∈ ms.list, m.name = name ∧ m.stamp = stamp

/-- Replaces the levels of an instance, whatever its name. -/
def relevel (ms : Modules) (stamp : Nat) (levels : Levels) : Modules :=
  ⟨ms.list.map fun m => if m.stamp = stamp then { m with levels } else m⟩

/-- In the order of the names, with instances all different. -/
structure Proper (ms : Modules) : Prop where
  sorted : ms.Sorted
  stamps : (ms.list.map Module.stamp).Nodup

theorem proper_empty : empty.Proper := ⟨sorted_empty, List.nodup_nil⟩

theorem Proper.eq_of_stamp (h : ms.Proper) {x y : Module} (hx : x ∈ ms.list) (hy : y ∈ ms.list)
    (hstamp : x.stamp = y.stamp) : x = y :=
  List.inj_on_of_nodup_map h.stamps hx hy hstamp

theorem Proper.find?_of_holds (h : ms.Proper) (hholds : ms.Holds name stamp) :
    ∃ m, ms.find? name = some m ∧ m.stamp = stamp := by
  obtain ⟨m, hm, rfl, rfl⟩ := hholds
  exact ⟨m, h.sorted.find?_of_mem hm, rfl⟩

theorem holds_of_find? (h : ms.find? name = some m) : ms.Holds name m.stamp :=
  ⟨m, (mem_of_find? h).1, (mem_of_find? h).2, rfl⟩

/-! What adding and setting levels do to instances. -/

theorem Proper.insertNew (h : ms.Proper) (hnew : ∀ x ∈ ms.list, x.stamp ≠ m.stamp) :
    (ms.insertNew m).Proper := by
  refine ⟨h.sorted.insertNew m, ?_⟩
  cases hfind : ms.find? m.name with
  | some other =>
    rw [insertNew_of_find? h.sorted hfind]
    exact h.stamps
  | none =>
    have hperm : (ms.insertNew m).list.Perm (m :: ms.list) :=
      perm_place fun _ hx => ne_of_find?_eq_none hfind hx
    refine (hperm.map Module.stamp).nodup_iff.2 (List.nodup_cons.2 ⟨fun hm => ?_, h.stamps⟩)
    obtain ⟨x, hx, hstamp⟩ := List.mem_map.1 hm
    exact hnew x hx hstamp

/-- Nothing that is there goes when a module is added. -/
theorem mem_insertNew_of_mem (h : ms.Sorted) (m : Module) {x : Module} (hx : x ∈ ms.list) :
    x ∈ (ms.insertNew m).list := by
  cases hfind : ms.find? m.name with
  | some other => rwa [insertNew_of_find? h hfind]
  | none => exact (mem_insertNew hfind).2 (.inr hx)

theorem eq_or_mem_of_insertNew (h : ms.Sorted) {x : Module} (hx : x ∈ (ms.insertNew m).list) :
    (x = m ∧ ms.find? m.name = none) ∨ x ∈ ms.list := by
  cases hfind : ms.find? m.name with
  | some other =>
    rw [insertNew_of_find? h hfind] at hx
    exact .inr hx
  | none => exact ((mem_insertNew hfind).1 hx).imp_left fun hx => ⟨hx, rfl⟩

theorem mem_relevel {x : Module} : x ∈ (ms.relevel stamp levels).list ↔
    ∃ y ∈ ms.list, (if y.stamp = stamp then { y with levels } else y) = x :=
  List.mem_map

/-- What does not depend on levels stays. -/
theorem map_relevel {α : Type} {f : Module → α} (hf : ∀ m levels, f { m with levels } = f m)
    (ms : Modules) (stamp : Nat) (levels : Levels) :
    (ms.relevel stamp levels).list.map f = ms.list.map f := by
  rw [relevel, List.map_map]
  refine List.map_congr_left fun y _ => ?_
  show f (if y.stamp = stamp then { y with levels } else y) = f y
  split
  · exact hf y levels
  · rfl

theorem Proper.relevel (h : ms.Proper) (stamp : Nat) (levels : Levels) :
    (ms.relevel stamp levels).Proper where
  sorted := by
    have hnames : (ms.list.map Module.name).Pairwise (· < ·) := List.pairwise_map.2 h.sorted
    rw [← map_relevel (fun _ _ => rfl) ms stamp levels] at hnames
    exact List.pairwise_map.1 hnames
  stamps := by
    rw [map_relevel fun _ _ => rfl]
    exact h.stamps

/-- To set the levels of an instance is to set those of the module that has its name. -/
theorem Proper.relevel_eq (h : ms.Proper) (hholds : ms.Holds name stamp) (levels : Levels) :
    ms.relevel stamp levels = ms.setLevels name levels := by
  obtain ⟨m, hm, rfl, rfl⟩ := hholds
  refine congrArg Modules.mk (List.map_congr_left fun x hx => ?_)
  have hsame : x.stamp = m.stamp ↔ x.name = m.name :=
    ⟨fun hstamp => congrArg _ (h.eq_of_stamp hx hm hstamp),
      fun hname => congrArg _ (List.inj_on_of_nodup_map h.sorted.nodup hx hm hname)⟩
  by_cases hstamp : x.stamp = m.stamp
  · rw [if_pos hstamp, if_pos (hsame.1 hstamp)]
  · rw [if_neg hstamp, if_neg (mt hsame.2 hstamp)]

theorem Holds.insertNew (hholds : ms.Holds name stamp) (h : ms.Sorted) (m : Module) :
    (ms.insertNew m).Holds name stamp := by
  obtain ⟨x, hx, hsame⟩ := hholds
  exact ⟨x, mem_insertNew_of_mem h m hx, hsame⟩

theorem Holds.relevel (hholds : ms.Holds name stamp) (other : Nat) (levels : Levels) :
    (ms.relevel other levels).Holds name stamp := by
  obtain ⟨x, hx, hname, hstamp⟩ := hholds
  refine ⟨_, mem_relevel.2 ⟨x, hx, rfl⟩, ?_⟩
  split
  · exact ⟨hname, hstamp⟩
  · exact ⟨hname, hstamp⟩

end Logline.Modules
