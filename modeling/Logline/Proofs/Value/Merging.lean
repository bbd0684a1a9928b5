import Logline.Proofs.Firsts
import Logline.Proofs.Value.Asked

/-!
Maps put together. A map that pairs were added to, all at once or time after time, and that was merged
with other such maps, holds what all these pairs say one after the other (`Pairs.IsOf`): each key at
the place where it occurs first (`IsOf.firsts`), with the value it has last (`IsOf.get?`).
-/

namespace Logline.Pairs

variable {α : Type} {p q : Pairs α} {es new more : List (String × α)} {k : String} {v : α}

/-! ### Keys and values of what is inserted -/

theorem keys_insert (k : String) (v : α) (es : List (String × α)) :
    (insert k v es).map Prod.fst =
      if k ∈ es.map Prod.fst then es.map Prod.fst else es.map Prod.fst ++ [k] := by
  induction es with
  | nil => rfl
  | cons e rest ih =>
    obtain ⟨label, w⟩ := e
    by_cases hlabel : label = k
    · simp [insert, hlabel]
    · rw [insert, if_neg hlabel, List.map_cons, ih]
      by_cases hk : k ∈ rest.map Prod.fst <;> simp [hk, Ne.symm hlabel]

theorem insertAll_snoc (es new : List (String × α)) (e : String × α) :
    insertAll es (new ++ [e]) = insert e.1 e.2 (insertAll es new) :=
  insertAll_append es new [e]

theorem firsts_insertAll (new : List (String × α)) :
    FirstsOf (new.map Prod.fst) ((insertAll [] new).map Prod.fst) := by
  induction new using List.reverseRecOn with
  | nil => exact .nil
  | append_singleton new e ih =>
    rw [insertAll_snoc, keys_insert, List.map_append]
    exact ih.snoc e.1

theorem lookup_insertAll (es new : List (String × α)) (key : String) :
    (insertAll es new).lookup key = (new.reverse.lookup key).or (es.lookup key) := by
  induction new using List.reverseRecOn with
  | nil => rfl
  | append_singleton new e ih =>
    obtain ⟨k, v⟩ := e
    rw [insertAll_snoc, lookup_insert, ih, List.reverse_append, List.reverse_singleton,
      List.singleton_append, List.lookup_cons]
    by_cases hkey : key = k
    · rw [if_pos hkey, beq_iff_eq.2 hkey]
      rfl
    · rw [if_neg hkey, beq_eq_false_iff_ne.2 hkey]

theorem mem_insert {e : String × α} (h : e ∈ insert k v es) : e = (k, v) ∨ e ∈ es := by
  induction es with
  | nil => exact .inl (List.mem_singleton.1 h)
  | cons e' rest ih =>
    obtain ⟨label, w⟩ := e'
    by_cases hlabel : label = k
    · rw [insert, if_pos hlabel, hlabel] at h
      exact (List.mem_cons.1 h).imp_right (List.mem_cons_of_mem _)
    · rw [insert, if_neg hlabel] at h
      rcases List.mem_cons.1 h with he | he
      · exact .inr (he ▸ List.mem_cons_self)
      · exact (ih he).imp_right (List.mem_cons_of_mem _)

/-- Nothing is in a map that was not put into it. -/
theorem mem_insertAll {e : String × α} (h : e ∈ insertAll [] new) : e ∈ new := by
  induction new using List.reverseRecOn with
  | nil => exact h
  | append_singleton new last ih =>
    rw [insertAll_snoc] at h
    rcases mem_insert h with rfl | he
    · exact List.mem_append_right _ List.mem_cons_self
    · exact List.mem_append_left _ (ih he)

/-- To put a value where it is changes nothing. -/
theorem insert_of_lookup (h : es.lookup k = some v) : insert k v es = es := by
  induction es with
  | nil => exact absurd h (by simp)
  | cons e rest ih =>
    obtain ⟨label, w⟩ := e
    by_cases hlabel : label = k
    · subst hlabel
      have hw : w = v := by simpa using h
      simp [insert, hw]
    · rw [List.lookup_cons, beq_eq_false_iff_ne.2 (Ne.symm hlabel)] at h
      rw [insert, if_neg hlabel, ih h]

/-- Where keys are all different, a pair may be put among them or after them. -/
theorem insertAll_insert (hnodup : (new.map Prod.fst).Nodup) :
    insertAll es (insert k v new) = insert k v (insertAll es new) := by
  induction new generalizing es with
  | nil => rfl
  | cons e rest ih =>
    obtain ⟨label, w⟩ := e
    obtain ⟨hlabel, hrest⟩ := List.nodup_cons.1 hnodup
    by_cases hk : label = k
    · subst hk
      have hthere : label ∈ (insert label w es).map Prod.fst :=
        (mem_keys_insert label label w es).2 (.inl rfl)
      -- nothing in the rest has the key, so its value is the one put in first
      have hlast : (insertAll (insert label v es) rest).lookup label = some v := by
        have hnone : rest.reverse.lookup label = none := by
          rw [List.lookup_eq_none_iff]
          intro e he
          have hne : e.1 ≠ label := fun h =>
            hlabel (List.mem_map.2 ⟨e, List.mem_reverse.1 he, h⟩)
          simpa using hne.symm
        rw [lookup_insertAll, hnone, lookup_insert, if_pos rfl]
        rfl
      calc insertAll es (insert label v ((label, w) :: rest))
          = insertAll (insert label v es) rest := by rw [insert, if_pos rfl]; rfl
        _ = insert label v (insertAll (insert label v es) rest) := (insert_of_lookup hlast).symm
        _ = insert label v (insertAll (insert label w es) rest) := by
          rw [insert_insertAll hthere, insert_insert_self]
    · rw [insert, if_neg hk]
      exact ih hrest

theorem nodup_insertAll (new : List (String × α)) : ((insertAll [] new).map Prod.fst).Nodup :=
  (firsts_insertAll new).nodup

/-- Pairs may be put together before they are inserted. -/
theorem insertAll_insertAll (es new : List (String × α)) :
    insertAll es (insertAll [] new) = insertAll es new := by
  induction new using List.reverseRecOn with
  | nil => rfl
  | append_singleton new e ih =>
    rw [insertAll_snoc, insertAll_insert (nodup_insertAll new), ih, insertAll_snoc]

theorem insertAll_of_lookup (h : ∀ e ∈ new, es.lookup e.1 = some e.2) : insertAll es new = es := by
  induction new with
  | nil => rfl
  | cons e rest ih =>
    show insertAll (insert e.1 e.2 es) rest = es
    rw [insert_of_lookup (h e List.mem_cons_self)]
    exact ih fun e' he' => h e' (List.mem_cons_of_mem _ he')

theorem lookup_of_mem (hnodup : (es.map Prod.fst).Nodup) {e : String × α} (he : e ∈ es) :
    es.lookup e.1 = some e.2 := by
  induction es with
  | nil => exact absurd he List.not_mem_nil
  | cons first rest ih =>
    obtain ⟨hfirst, hrest⟩ := List.nodup_cons.1 hnodup
    rcases List.mem_cons.1 he with rfl | he
    · exact List.lookup_cons_self
    · have hne : (e.1 == first.1) = false :=
        beq_eq_false_iff_ne.2 fun h => hfirst (h ▸ List.mem_map_of_mem he)
      rw [List.lookup_cons, hne]
      exact ih hrest he

/-- Pairs that were put in are there already. -/
theorem insertAll_again (es new : List (String × α)) :
    insertAll (insertAll es new) new = insertAll es new := by
  rw [← insertAll_insertAll (insertAll es new) new]
  refine insertAll_of_lookup fun e he => ?_
  have hlast := lookup_of_mem (nodup_insertAll new) he
  rw [lookup_insertAll, List.lookup_nil, Option.or_none] at hlast
  rw [lookup_insertAll, hlast]
  rfl

theorem insertAll_eq_nil (h : insertAll [] new = []) : new = [] := by
  have hnone := (firsts_insertAll new).mem
  rw [h] at hnone
  cases new with
  | nil => rfl
  | cons e rest => simpa using hnone e.1

/-! ### Maps -/

/-- The map holds what the pairs say one after the other; only the empty map has the stamp 0. -/
structure IsOf (p : Pairs α) (given : List (String × α)) : Prop where
  entries : p.entries = insertAll [] given
  stamp : p.stamp = 0 → given = []

namespace IsOf

theorem empty : (empty : Pairs α).IsOf [] := ⟨rfl, fun _ => rfl⟩

theorem firsts (h : p.IsOf new) : FirstsOf (new.map Prod.fst) p.keys := by
  rw [keys, h.entries]
  exact firsts_insertAll new

theorem get? (h : p.IsOf new) (key : String) : p.get? key = new.reverse.lookup key := by
  rw [Pairs.get?, h.entries, lookup_insertAll]
  exact Option.or_none

theorem nil_of_isEmpty (h : p.IsOf new) (hempty : p.isEmpty = true) : new = [] :=
  insertAll_eq_nil (h.entries.symm.trans (List.isEmpty_iff.1 hempty))

theorem add (h : p.IsOf new) (stamp : Nat) (more : List (String × α)) :
    (p.add (stamp + 1) more).IsOf (new ++ more) := by
  unfold Pairs.add
  split
  · next hempty => rwa [List.isEmpty_iff.1 hempty, List.append_nil]
  · exact ⟨by rw [insertAll_append, ← h.entries], fun hstamp => absurd hstamp (Nat.succ_ne_zero _)⟩

theorem merge (h : p.IsOf new) (hq : q.IsOf more) (stamp : Nat) :
    (p.merge (stamp + 1) q).IsOf (new ++ more) := by
  unfold Pairs.merge
  split
  · next hempty => rwa [h.nil_of_isEmpty hempty, List.nil_append]
  · split
    · next hempty => rwa [hq.nil_of_isEmpty hempty, List.append_nil]
    · refine ⟨?_, fun hstamp => absurd hstamp (Nat.succ_ne_zero _)⟩
      show insertAll p.entries q.entries = insertAll [] (new ++ more)
      rw [hq.entries, insertAll_insertAll, insertAll_append, ← h.entries]

end IsOf

end Logline.Pairs
