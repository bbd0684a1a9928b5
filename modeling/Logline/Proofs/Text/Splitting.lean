import Mathlib.Data.List.Basic
import Logline.Text.Split

/-!
A text is cut at its separators in one way only (`splits_iff`): no part holds a separator, and with
separators between them the parts are the text.
-/

namespace Logline.Text

variable {sep : Char} {text : String} {parts : List String}

theorem splitAt_eq_splitOn (sep : Char) (s : List Char) : splitAt sep s = s.splitOn sep := by
  induction s with
  | nil => rfl
  | cons c rest ih =>
    rw [splitAt, ih, List.splitOn_cons_eq_if_modifyHead]
    by_cases hc : c = sep
    · rw [if_pos hc, if_pos (beq_iff_eq.2 hc)]
    · rw [if_neg hc, if_neg (by simpa using hc)]
      cases h : rest.splitOn sep with
      | nil => exact absurd h (List.splitOn_ne_nil _ _)
      | cons part parts => rfl

theorem not_mem_splitAt (s : List Char) : ∀ part ∈ splitAt sep s, sep ∉ part := by
  induction s with
  | nil => simp [splitAt]
  | cons c rest ih =>
    rw [splitAt]
    split
    · exact List.forall_mem_cons.2 ⟨List.not_mem_nil, ih⟩
    · next hc =>
      cases h : splitAt sep rest with
      | nil => exact absurd h (splitAt_ne_nil sep rest)
      | cons part parts =>
        rw [h] at ih
        obtain ⟨hpart, hparts⟩ := List.forall_mem_cons.1 ih
        refine List.forall_mem_cons.2 ⟨fun hmem => ?_, hparts⟩
        exact (List.mem_cons.1 hmem).elim (fun heq => hc heq.symm) hpart

/-- No part holds a separator, and with separators between them the parts are the text. -/
structure Splits (sep : Char) (text : String) (parts : List String) : Prop where
  some_part : parts ≠ []
  clean : ∀ part ∈ parts, sep ∉ part.toList
  joined : (String.singleton sep).intercalate parts = text

theorem splits_splitText (sep : Char) (text : String) : Splits sep text (splitText sep text) where
  some_part := by simp [splitText, splitAt_ne_nil]
  clean := by
    intro part hpart
    obtain ⟨s, hs, rfl⟩ := List.mem_map.1 hpart
    rw [String.toList_ofList]
    exact not_mem_splitAt _ s hs
  joined := by
    have hparts : (splitText sep text).map String.toList = text.toList.splitOn sep := by
      rw [splitText, List.map_map, splitAt_eq_splitOn]
      exact (List.map_congr_left fun s _ => String.toList_ofList).trans (List.map_id _)
    rw [← String.toList_inj, String.toList_intercalate, hparts, String.toList_singleton,
      List.intercalate_splitOn]

/-- There is one way to cut a text. -/
theorem splits_iff : Splits sep text parts ↔ splitText sep text = parts := by
  refine ⟨fun h => ?_, fun h => h ▸ splits_splitText sep text⟩
  have hclean : ∀ part ∈ parts.map String.toList, sep ∉ part := by
    simpa using h.clean
  have htext : text.toList = [sep].intercalate (parts.map String.toList) := by
    rw [← h.joined, String.toList_intercalate, String.toList_singleton]
  rw [splitText, htext, splitAt_eq_splitOn,
    List.splitOn_intercalate sep hclean (by simpa using h.some_part), List.map_map]
  exact (List.map_congr_left fun s _ => String.ofList_toList).trans (List.map_id _)

/-- At a separator a text falls into two that are cut by themselves. -/
theorem splitText_append (sep : Char) (a b : String) :
    splitText sep (a ++ String.singleton sep ++ b) = splitText sep a ++ splitText sep b := by
  have hcut : (a.toList ++ sep :: b.toList).splitOn sep =
      a.toList.splitOn sep ++ b.toList.splitOn sep :=
    List.splitOnP_append_cons _ _ (beq_self_eq_true sep)
  have htext : (a ++ String.singleton sep ++ b).toList = a.toList ++ sep :: b.toList := by simp
  simp only [splitText, splitAt_eq_splitOn, htext, hcut, List.map_append]

end Logline.Text
