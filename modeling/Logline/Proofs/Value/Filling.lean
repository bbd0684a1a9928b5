import Logline.Proofs.Value.Parts

/-!
Where a line would hold a key without a value. The key of a member is written before its value is
asked for what it is; a deferred value is resolved once before, so that one which comes to the empty
map takes its key with it. If it comes to a deferred value that only then comes to the empty map, the
key is there already and stays alone. `Filling` tells of a value whether this happens nowhere in it.

Without deferred values it never happens (`filling_of_not_deferred`).
-/

namespace Logline

/-- Whether all keys have their values, as an item of a list, as the value of a member, and where
pairs are spliced in. -/
structure Filling where
  item : Bool
  member : Bool
  splice : Bool

namespace Filling

def all (filled : Bool) : Filling := ⟨filled, filled, filled⟩

/-- Alternating keys and values. -/
def tokens : List (Value × Filling) → Bool
  | [] => true
  | [_] => true
  | (k, _) :: (_, f) :: rest =>
    (match k.marker? with
      | some .skip => true
      | some .inline => f.splice
      | none => f.member) && tokens rest

end Filling

namespace Value

/-- The empty map, deferred or not. -/
def vanishes : Value → Bool
  | .map p => p.isEmpty
  | .lazy _ v => v.vanishes
  | _ => false
termination_by structural v => v

mutual

def filling : Value → Filling
  | .list vs =>
    let fs := fillings vs
    let items := fs.all fun f => f.2.item
    ⟨items, items, Filling.tokens fs⟩
  | .map p => .all (entryFilling p)
  | .raw vs => .all (Filling.tokens (fillings vs))
  | .object ms => .all (memberFilling ms)
  | .lazy _ v =>
    let f := v.filling
    ⟨f.item, v.isEmptyMap || (f.item && !v.vanishes), f.splice⟩
  | _ => .all true
termination_by structural v => v

def fillings : List Value → List (Value × Filling)
  | [] => []
  | v :: rest => (v, v.filling) :: fillings rest
termination_by structural vs => vs

def memberFilling : List (String × Value) → Bool
  | [] => true
  | (_, v) :: rest => v.filling.member && memberFilling rest
termination_by structural ms => ms

def entryFilling : Pairs Value → Bool
  | ⟨_, entries⟩ => memberFilling entries
termination_by structural p => p

end

theorem fillings_eq (vs : List Value) : fillings vs = vs.map fun v => (v, v.filling) := by
  induction vs with
  | nil => rfl
  | cons v rest ih => simp [fillings, ih]

theorem memberFilling_eq (ms : List (String × Value)) :
    memberFilling ms = ms.all fun m => m.2.filling.member := by
  induction ms with
  | nil => rfl
  | cons m rest ih => simp [memberFilling, ih]

theorem entryFilling_eq (p : Pairs Value) :
    entryFilling p = p.entries.all fun e => e.2.filling.member := by
  cases p
  exact memberFilling_eq _

/-- Only what vanishes means nothing. -/
theorem isNone_meaning_item (v : Value) : v.meaning.item.isNone = v.vanishes := by
  cases v with
  | map p =>
    obtain ⟨stamp, entries⟩ := p
    cases entries <;> rfl
  | marshal code result thing => cases result <;> rfl
  | lazy code v => exact isNone_meaning_item v
  | _ => rfl
termination_by structural v

/-! ### Without deferred values -/

theorem tokens_of_all {fs : List (Value × Filling)} (h : ∀ f ∈ fs, f.2 = .all true) :
    Filling.tokens fs = true := by
  fun_induction Filling.tokens fs with
  | case1 => rfl
  | case2 => rfl
  | case3 k _ v f rest ih =>
    have hf : f = .all true := h (v, f) (by simp)
    have hrest := ih fun g hg => h g (by simp [hg])
    rw [hf, hrest]
    split <;> rfl

mutual

/-- A value with no deferred value in it leaves no key alone. -/
theorem filling_of_not_deferred (v : Value) (h : ∀ x ∈ v.parts, x.isDeferred = false) :
    v.filling = .all true := by
  cases v with
  | list vs =>
    rw [parts] at h
    have hall := filling_of_none_deferred vs fun x hx => h x (List.mem_cons_of_mem _ hx)
    have htokens : Filling.tokens (fillings vs) = true := by
      rw [fillings_eq]
      refine tokens_of_all fun f hf => ?_
      obtain ⟨v, hv, rfl⟩ := List.mem_map.1 hf
      exact hall v hv
    have hitems : ((fillings vs).all fun f => f.2.item) = true := by
      rw [fillings_eq, List.all_map, List.all_eq_true]
      exact fun v hv => by simp [hall v hv, Filling.all]
    simp [filling, hitems, htokens, Filling.all]
  | map p =>
    obtain ⟨stamp, entries⟩ := p
    exact congrArg Filling.all
      (memberFilling_of_none_deferred entries fun x hx => h x (List.mem_cons_of_mem _ hx))
  | raw vs =>
    rw [parts] at h
    have hall := filling_of_none_deferred vs fun x hx => h x (List.mem_cons_of_mem _ hx)
    rw [filling, fillings_eq, tokens_of_all]
    intro f hf
    obtain ⟨v, hv, rfl⟩ := List.mem_map.1 hf
    exact hall v hv
  | object ms =>
    exact congrArg Filling.all
      (memberFilling_of_none_deferred ms fun x hx => h x (List.mem_cons_of_mem _ hx))
  | lazy code v => exact absurd (h _ (self_mem_parts _)) (by simp [isDeferred])
  | _ => rfl
termination_by structural v

theorem filling_of_none_deferred (vs : List Value) (h : ∀ x ∈ partsOf vs, x.isDeferred = false) :
    ∀ v ∈ vs, v.filling = .all true := by
  cases vs with
  | nil => simp
  | cons v rest =>
    rw [partsOf] at h
    have hv := filling_of_not_deferred v fun x hx => h x (List.mem_append_left _ hx)
    have hrest := filling_of_none_deferred rest fun x hx => h x (List.mem_append_right _ hx)
    intro u hu
    rcases List.mem_cons.1 hu with rfl | hu
    · exact hv
    · exact hrest u hu
termination_by structural vs

theorem memberFilling_of_none_deferred (ms : List (String × Value))
    (h : ∀ x ∈ memberParts ms, x.isDeferred = false) : memberFilling ms = true := by
  cases ms with
  | nil => rfl
  | cons m rest =>
    obtain ⟨key, v⟩ := m
    rw [memberParts] at h
    have hv := filling_of_not_deferred v fun x hx => h x (List.mem_append_left _ hx)
    have hrest := memberFilling_of_none_deferred rest fun x hx => h x (List.mem_append_right _ hx)
    simp [memberFilling, hv, hrest, Filling.all]
termination_by structural ms

end

end Value

end Logline
