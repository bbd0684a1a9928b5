import Mathlib.Data.List.Basic
import Mathlib.Data.List.Induction

/-!
First occurrences. `FirstsOf l firsts` says that `firsts` holds what occurs in `l`, each once, in the
order in which it occurs first. There is only one such list (`FirstsOf.unique`), and leaving out what
came before makes it (`firstsOf_eraseDups`).
-/

namespace Logline

variable {α : Type} [DecidableEq α]

structure FirstsOf (l firsts : List α) : Prop where
  mem : ∀ a, a ∈ firsts ↔ a ∈ l
  order : firsts.Pairwise fun a b => l.idxOf a < l.idxOf b

namespace FirstsOf

variable {l firsts others : List α}

theorem nil : FirstsOf ([] : List α) [] := ⟨fun _ => Iff.rfl, .nil⟩

theorem nodup (h : FirstsOf l firsts) : firsts.Nodup :=
  h.order.imp fun hab hne => absurd hab (by rw [hne]; exact Nat.lt_irrefl _)

theorem unique (h : FirstsOf l firsts) (h' : FirstsOf l others) : firsts = others := by
  have hsame : ∀ a, a ∈ firsts ↔ a ∈ others := fun a => (h.mem a).trans (h'.mem a).symm
  have hperm : firsts.Perm others := (List.perm_ext_iff_of_nodup h.nodup h'.nodup).2 hsame
  refine hperm.eq_of_pairwise (fun a b _ _ hab hba => ?_) h.order h'.order
  exact absurd (Nat.lt_trans hab hba) (Nat.lt_irrefl _)

/-- What comes last counts if it did not occur before. -/
theorem snoc (h : FirstsOf l firsts) (a : α) :
    FirstsOf (l ++ [a]) (if a ∈ firsts then firsts else firsts ++ [a]) := by
  -- places of what occurred before stay
  have hplace : ∀ b ∈ firsts, (l ++ [a]).idxOf b = l.idxOf b := fun b hb =>
    List.idxOf_append_of_mem ((h.mem b).1 hb)
  have horder : firsts.Pairwise fun b c => (l ++ [a]).idxOf b < (l ++ [a]).idxOf c := by
    refine h.order.imp_of_mem fun hb hc hbc => ?_
    rwa [hplace _ hb, hplace _ hc]
  by_cases ha : a ∈ firsts
  · rw [if_pos ha]
    refine ⟨fun b => ?_, horder⟩
    rw [h.mem b, List.mem_append, List.mem_singleton]
    refine ⟨.inl, fun hb => hb.elim id ?_⟩
    rintro rfl
    exact (h.mem b).1 ha
  · rw [if_neg ha]
    refine ⟨fun b => ?_, List.pairwise_append.2 ⟨horder, List.pairwise_singleton .., ?_⟩⟩
    · rw [List.mem_append, List.mem_append, h.mem b]
    · intro b hb c hc
      obtain rfl := List.mem_singleton.1 hc
      have hlast : (l ++ [c]).idxOf c = l.length := by
        rw [List.idxOf_append_of_notMem (mt (h.mem c).2 ha), List.idxOf_cons_self, Nat.add_zero]
      rw [hplace b hb, hlast]
      exact List.idxOf_lt_length_of_mem ((h.mem b).1 hb)

end FirstsOf

theorem firstsOf_eraseDups (l : List α) : FirstsOf l l.eraseDups := by
  induction l using List.reverseRecOn with
  | nil => exact .nil
  | append_singleton l a ih =>
    have hlast : (l ++ [a]).eraseDups = if a ∈ l.eraseDups then l.eraseDups else l.eraseDups ++ [a] := by
      rw [List.eraseDups_append]
      by_cases ha : a ∈ l <;> simp [List.removeAll, List.eraseDups_cons, ha]
    rw [hlast]
    exact ih.snoc a

end Logline
