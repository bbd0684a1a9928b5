import Logline.Spans

/-!
Registries by their laws. A span stands within spans that are all there, so what passes on from a span
to those placed right within it holds of all (`Registry.Lawful.inward`). The registry of `Logline.Spans`
is one of those meant (`Spans.lawful`).
-/

namespace Logline

open Registry

/-- What holds of a span if it holds of the one around it holds of every span. -/
theorem Registry.Lawful.inward {R : Type} [Registry R] (laws : Lawful R) {r : R}
    {motive : Nat → Prop}
    (hstep : ∀ id span, span? r id = some span → (∀ o, span.outer = some o → motive o) → motive id)
    {id : Nat} (hid : (span? r id).isSome) : motive id := by
  -- each span has fewer spans around it than those within it
  induction hn : (scope r (some id)).length using Nat.strongRecOn generalizing id with
  | ind n ih =>
    obtain ⟨span, hspan⟩ := Option.isSome_iff_exists.1 hid
    refine hstep id span hspan fun o ho => ih _ ?_ (laws.outer_lives r id span o hspan ho) rfl
    rw [← hn, laws.scope_some r id span hspan, ho, List.length_append]
    exact Nat.lt_succ_self _

namespace Spans

variable (s : Spans)

theorem span?_eq (id : Nat) :
    span? s id = (s.live id).map fun span => ⟨span.around.head?, s.pairs id⟩ := rfl

theorem isSome_span? (id : Nat) : (span? s id).isSome = (s.live id).isSome := Option.isSome_map

theorem live_add (parent : Parent) (names : List String) (id : Nat) :
    (s.add parent names).2.live id =
      if id = s.next then some ⟨s.out (s.resolve parent), names⟩ else s.live id := rfl

theorem pairs_add (parent : Parent) (names : List String) (id : Nat) :
    (s.add parent names).2.pairs id = if id = s.next then none else s.pairs id := rfl

theorem pairs_keep (id : Nat) (pairs : Pairs Value) (i : Nat) :
    (s.keep id pairs).pairs i = if i = id then some pairs else s.pairs i := rfl

variable {s}

theorem resolve_lives {parent : Parent} {id : Nat} (h : s.resolve parent = some id) :
    (s.live id).isSome := by
  unfold resolve at h
  split at h
  · obtain ⟨⟨entered, again⟩, -, hspan⟩ := Option.bind_eq_some_iff.1 h
    obtain ⟨hlive, hid⟩ := Option.ite_none_right_eq_some.1 hspan
    exact Option.some.inj hid ▸ hlive
  · cases h
  · obtain ⟨hlive, hid⟩ := Option.ite_none_right_eq_some.1 h
    exact Option.some.inj hid ▸ hlive

theorem head?_out {id : Option Nat} (h : ∀ i, id = some i → (s.live i).isSome) :
    (s.out id).head? = id := by
  cases id with
  | none => rfl
  | some i =>
    obtain ⟨span, hspan⟩ := Option.isSome_iff_exists.1 (h i rfl)
    rw [out, hspan]
    rfl

theorem out_head?_around {id : Nat} {span : LiveSpan} (h : s.live id = some span) :
    s.out span.around.head? = span.around := by
  cases haround : span.around with
  | nil => rfl
  | cons o rest =>
    obtain ⟨-, outer, houter, rfl⟩ := s.placed id span h o rest haround
    show s.out (some o) = o :: outer.around
    rw [out, houter]

theorem lawful : Registry.Lawful Spans where
  span?_empty _ := rfl
  span?_fresh s parent names := by
    refine Option.map_eq_none_iff.2 (Option.not_isSome_iff_eq_none.1 fun h => ?_)
    exact Nat.lt_irrefl _ (s.bound s.next h)
  span?_add s parent names id hparent := by
    show span? (s.add parent names).2 id =
      if id = s.next then some ⟨s.resolve parent, none⟩ else span? s id
    rw [span?_eq, live_add, pairs_add]
    by_cases hid : id = s.next
    · rw [if_pos hid, if_pos hid, if_pos hid, Option.map_some, head?_out fun _ => resolve_lives]
    · rw [if_neg hid, if_neg hid, if_neg hid]
      rfl
  span?_keep s id pairs i := by
    show span? (s.keep id pairs) i = _
    rw [span?_eq, pairs_keep]
    by_cases hid : i = id
    · rw [if_pos hid, if_pos hid, span?_eq, Option.map_map]
      rfl
    · rw [if_neg hid, if_neg hid]
      rfl
  span?_enter _ _ _ _ h := h
  span?_leave _ _ _ _ h := h
  span?_close s id i span h := by
    obtain ⟨found, hfound, hspan⟩ := Option.map_eq_some_iff.1 h
    have hlive : s.live i = some found := by
      replace hfound : (if i = id ∧ s.enclosing id = false then none else s.live i) = some found :=
        hfound
      split at hfound
      · cases hfound
      · exact hfound
    rw [span?_eq, hlive]
    exact congrArg some hspan
  outer_lives s id span o h ho := by
    obtain ⟨found, hfound, rfl⟩ := Option.map_eq_some_iff.1 h
    obtain ⟨rest, hrest⟩ : ∃ rest, found.around = o :: rest := List.head?_eq_some_iff.1 ho
    obtain ⟨-, outer, houter, -⟩ := s.placed id found hfound o rest hrest
    rw [isSome_span?, houter]
    rfl
  resolve_root _ := rfl
  resolve_span s id h := by
    rw [isSome_span?] at h
    exact if_pos h
  resolve_lives s parent id h := by
    rw [isSome_span?]
    exact resolve_lives h
  scope_none _ := rfl
  scope_some s id span h := by
    obtain ⟨found, hfound, rfl⟩ := Option.map_eq_some_iff.1 h
    show (s.out (some id)).reverse = (s.out found.around.head?).reverse ++ [id]
    rw [out_head?_around hfound, ← List.reverse_cons, out, hfound]

end Spans

end Logline
