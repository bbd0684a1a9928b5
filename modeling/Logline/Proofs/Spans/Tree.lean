import Logline.Proofs.Spans.Fields
import Logline.Proofs.Spans.Registry

/-!
The tree that spans make, with all that was ever recorded on each of them. A registry shows only the
spans that are there, each with one map that its layers left with it; of every one of these the tree
tells what its map holds (`Grown.tells`), and the maps around what is placed in a span are those of the
spans on its path in the tree (`Tells.pairsAround_path`), although these were made and recorded on at
any time. This holds over every registry that keeps its laws.
-/

namespace Logline

open Registry (span? scope resolve)

/-- A span that was made: what was recorded when it was made, then later. -/
structure Node where
  id : Nat
  outer : Option Nat
  recordings : List (List (String × FieldValue))

namespace Node

/-- The pairs of all recordings, one after the other. -/
def given (n : Node) : List (String × Value) := n.recordings.flatMap Recording.counted

/-- With one more recording on the span of that id. -/
def noted (id : Nat) (fields : List (String × FieldValue)) (n : Node) : Node :=
  if n.id = id then { n with recordings := n.recordings ++ [fields] } else n

/-- The tree with a new span, which comes first. One that had the id before is gone. -/
def sprout (n : Node) (tree : List Node) : List Node := n :: tree.filter (·.id ≠ n.id)

/-- The spans from the outermost in to the one of the id. -/
def path : List Node → Option Nat → List Node
  | [], _ => []
  | n :: older, id => if id = some n.id then path older n.outer ++ [n] else path older id

variable (id : Nat) (fields : List (String × FieldValue)) (n : Node) {tree : List Node}

@[simp] theorem noted_id : (n.noted id fields).id = n.id := by
  unfold noted
  split <;> rfl

@[simp] theorem noted_outer : (n.noted id fields).outer = n.outer := by
  unfold noted
  split <;> rfl

theorem given_noted (h : n.id = id) :
    (n.noted id fields).given = n.given ++ Recording.counted fields := by
  simp [noted, h, given]

theorem noted_of_ne {id : Nat} {fields : List (String × FieldValue)} {n : Node} (h : n.id ≠ id) :
    n.noted id fields = n := if_neg h

theorem path_none (tree : List Node) : path tree none = [] := by
  induction tree with
  | nil => rfl
  | cons n older ih => exact (if_neg (by simp)).trans ih

theorem path_map_noted (o : Option Nat) :
    path (tree.map (noted id fields)) o = (path tree o).map (noted id fields) := by
  induction tree generalizing o with
  | nil => rfl
  | cons n older ih =>
    rw [List.map_cons, path, path, noted_id, noted_outer, ih, ih]
    split
    · rw [List.map_append]
      rfl
    · rfl

variable {id n} {o : Option Nat}

/-- A span that is not on a path may be forgotten. -/
theorem path_filter (h : ∀ m ∈ path tree o, m.id ≠ id) :
    path (tree.filter (·.id ≠ id)) o = path tree o := by
  induction tree generalizing o with
  | nil => rfl
  | cons m older ih =>
    rw [List.filter_cons]
    rw [path] at h ⊢
    split at h
    · next hm =>
      have hid : m.id ≠ id := h m (List.mem_append_right _ List.mem_cons_self)
      rw [if_pos (decide_eq_true hid), path, if_pos hm, if_pos hm,
        ih fun x hx => h x (List.mem_append_left _ hx)]
    · next hm =>
      rw [if_neg hm, ← ih h]
      split
      · exact if_neg hm
      · rfl

/-- A new span is on no other path. -/
theorem path_sprout_of_ne (ho : o ≠ some n.id) (h : ∀ m ∈ path tree o, m.id ≠ n.id) :
    path (n.sprout tree) o = path tree o :=
  (if_neg ho).trans (path_filter h)

theorem path_sprout (h : ∀ m ∈ path tree n.outer, m.id ≠ n.id) :
    path (n.sprout tree) (some n.id) = path tree n.outer ++ [n] := by
  rw [sprout, path, if_pos rfl, path_filter h]

end Node

open Node

/-! ### What layers come to -/

variable {R : Type} [Registry R] {σ : Type}

/-- A registry in which spans were made, recorded on, entered, left and closed, in any order, under these
layers and by a program in any state, with the tree of its spans. -/
inductive Grown (σ : Type) (layers : List EventLayer) : R → List Node → Prop
  | start : Grown σ layers Registry.empty []
  | newSpan {r : R} {tree : List Node} (h : Grown σ layers r tree) (parent : Parent)
      (hparent : parent.Lives r) (names : List String) (fields : List (String × FieldValue))
      {id : Nat} {s : Layered R} {p q : Program σ}
      (hrun : (Layered.newSpan ⟨layers, r⟩ parent names fields).run.run p = (.ok (id, s), q)) :
      Grown σ layers s.spans (sprout ⟨id, resolve r parent, [fields]⟩ tree)
  | record {r : R} {tree : List Node} (h : Grown σ layers r tree) (id : Nat)
      (fields : List (String × FieldValue)) {s : Layered R} {p q : Program σ}
      (hrun : (Layered.record ⟨layers, r⟩ id fields).run.run p = (.ok s, q)) :
      Grown σ layers s.spans (tree.map (noted id fields))
  | enter {r : R} {tree : List Node} (h : Grown σ layers r tree) (id : Nat) :
      Grown σ layers (Registry.enter r id) tree
  | leave {r : R} {tree : List Node} (h : Grown σ layers r tree) (id : Nat) :
      Grown σ layers (Registry.leave r id) tree
  | close {r : R} {tree : List Node} (h : Grown σ layers r tree) (id : Nat) :
      Grown σ layers (Registry.close r id) tree

/-- What was left with a span is what the tree has of it. -/
def Node.Tells (n : Node) (span : Span) : Prop :=
  ∃ pairs, span.pairs = some pairs ∧ pairs.IsOf n.given

/-- The tree tells of every span that is there, and has it right within the one around it. -/
def Tells (r : R) (tree : List Node) : Prop :=
  ∀ id span, span? r id = some span →
    ∃ n : Node, n.id = id ∧ n.Tells span ∧ path tree (some id) = path tree span.outer ++ [n]

namespace Tells

variable {r r' : R} {tree : List Node}

theorem empty (laws : Registry.Lawful R) : Tells (Registry.empty : R) [] := fun id _ h =>
  absurd ((laws.span?_empty id).symm.trans h) nofun

/-- Spans may go at any time. -/
theorem fewer (h : Tells r tree) (hfewer : ∀ i span, span? r' i = some span → span? r i = some span) :
    Tells r' tree := fun id span hspan => h id span (hfewer id span hspan)

/-- All on the path of a span are there. -/
theorem lives_of_mem_path (laws : Registry.Lawful R) (h : Tells r tree) {o : Option Nat}
    (ho : ∀ i, o = some i → (span? r i).isSome) : ∀ n ∈ path tree o, (span? r n.id).isSome := by
  cases o with
  | none => rw [path_none]; nofun
  | some id =>
    refine laws.inward (motive := fun id => ∀ n ∈ path tree (some id), (span? r n.id).isSome)
      (fun id span hspan ih n hn => ?_) (ho id rfl)
    obtain ⟨m, rfl, -, hpath⟩ := h id span hspan
    rw [hpath] at hn
    rcases List.mem_append.1 hn with hn | hn
    · cases houter : span.outer with
      | none => rw [houter, path_none] at hn; cases hn
      | some o => exact ih o houter n (houter ▸ hn)
    · obtain rfl := List.mem_singleton.1 hn
      rw [hspan]
      rfl

theorem newSpan (laws : Registry.Lawful R) (h : Tells r tree) {parent : Parent} {id : Nat}
    (hfresh : span? r id = none) {pairs : Pairs Value} {fields : List (String × FieldValue)}
    (hpairs : pairs.IsOf (Recording.counted fields))
    (hspans : ∀ i, span? r' i = if i = id then some ⟨resolve r parent, some pairs⟩ else span? r i) :
    Tells r' (sprout ⟨id, resolve r parent, [fields]⟩ tree) := by
  have hne : ∀ {i}, (span? r i).isSome → i ≠ id := fun hi he => by
    rw [he, hfresh] at hi
    cases hi
  -- paths there were are as they were
  have hold : ∀ {o : Option Nat}, (∀ i, o = some i → (span? r i).isSome) →
      path (sprout ⟨id, resolve r parent, [fields]⟩ tree) o = path tree o := fun {o} ho =>
    path_sprout_of_ne (fun he => hne (ho id he) rfl)
      fun m hm => hne (h.lives_of_mem_path laws ho m hm)
  have hparent := laws.resolve_lives r parent
  intro i span hspan
  rw [hspans] at hspan
  split at hspan
  · next hi =>
    cases hspan
    subst hi
    refine ⟨⟨i, resolve r parent, [fields]⟩, rfl, ⟨pairs, rfl, ?_⟩, ?_⟩
    · rwa [given, List.flatMap_singleton]
    · rw [hold hparent]
      exact path_sprout fun m hm => hne (h.lives_of_mem_path laws hparent m hm)
  · obtain ⟨n, hid, htells, hpath⟩ := h i span hspan
    refine ⟨n, hid, htells, ?_⟩
    have hi : (span? r i).isSome := by rw [hspan]; rfl
    rw [hold fun _ he => Option.some.inj he ▸ hi, hpath,
      hold fun o ho => laws.outer_lives r i span o hspan ho]

/-- What is recorded on a span, the tree notes. -/
theorem noted (h : Tells r tree) (id : Nat) (fields : List (String × FieldValue))
    (hspans : ∀ i span', span? r' i = some span' → ∃ span, span? r i = some span ∧
      span'.outer = span.outer ∧
      ∀ n : Node, n.id = i → n.Tells span → (n.noted id fields).Tells span') :
    Tells r' (tree.map (Node.noted id fields)) := by
  intro i span' hspan'
  obtain ⟨span, hspan, houter, htells⟩ := hspans i span' hspan'
  obtain ⟨n, hid, hn, hpath⟩ := h i span hspan
  refine ⟨n.noted id fields, (noted_id id fields n).trans hid, htells n hid hn, ?_⟩
  rw [path_map_noted, hpath, houter, List.map_append, path_map_noted]
  rfl

end Tells

/-! ### What runs make of spans -/

section Runs

open EventLayer

variable {r : R} {p : Program σ} {id : Nat} {span : Span} {pairs : Pairs Value}

theorem EventLayer.run_onNewSpan (h : span? r id = some span) (fields : List (String × FieldValue))
    (p : Program σ) :
    (onNewSpan r id fields).run.run p =
      (.ok (if span.pairs.isSome then r
        else Registry.keep r id (Pairs.empty.add (p.stamps + 1) (Recording.pairs fields))),
        { p with stamps := p.stamps + 1 }) := by
  rw [onNewSpan, h]
  dsimp only
  rw [Run.ofTokens, Recording.allTokens_ofFields, Updates.run_bind (Run.run_addTokens ..)]
  rfl

theorem EventLayer.run_onRecord (h : (span? r id).bind Span.pairs = some pairs)
    (fields : List (String × FieldValue)) (p : Program σ) :
    (onRecord r id fields).run.run p =
      (.ok (Registry.keep r id (pairs.add (p.stamps + 1) (Recording.pairs fields))),
        { p with stamps := p.stamps + 1 }) := by
  rw [onRecord, h]
  dsimp only
  rw [Recording.allTokens_ofFields, Updates.run_bind (Run.run_addTokens ..)]
  rfl

theorem EventLayer.run_onRecord_of_none (h : (span? r id).bind Span.pairs = none)
    (fields : List (String × FieldValue)) (p : Program σ) :
    (onRecord r id fields).run.run p = (.ok r, p) := by
  rw [onRecord, h]
  rfl

/-- Layers leave what is left already. -/
theorem EventLayer.run_onNewSpans_of_isSome (h : span? r id = some span)
    (hpairs : span.pairs.isSome) (fields : List (String × FieldValue)) (layers : List EventLayer)
    (p : Program σ) :
    (layers.foldlM (fun r _ => onNewSpan r id fields) r).run.run p =
      (.ok r, { p with stamps := p.stamps + layers.length }) := by
  induction layers generalizing p with
  | nil => rfl
  | cons l layers ih =>
    rw [List.foldlM_cons, Updates.run_bind (run_onNewSpan h fields p), if_pos hpairs, ih]
    simp only [List.length_cons, Nat.add_assoc, Nat.add_comm 1]

theorem EventLayer.run_onRecords_of_none (h : (span? r id).bind Span.pairs = none)
    (fields : List (String × FieldValue)) (layers : List EventLayer) (p : Program σ) :
    (layers.foldlM (fun r _ => onRecord r id fields) r).run.run p = (.ok r, p) := by
  induction layers with
  | nil => rfl
  | cons l layers ih => rw [List.foldlM_cons, Updates.run_bind (run_onRecord_of_none h fields p), ih]

/-- Whoever records the same once more changes nothing. -/
theorem EventLayer.run_onRecords_again (laws : Registry.Lawful R) (h : span? r id = some span)
    (hpairs : span.pairs = some pairs) (fields : List (String × FieldValue))
    (layers : List EventLayer) (p : Program σ) :
    ∃ r' made q, (layers.foldlM (fun r _ => onRecord r id fields) r).run.run p = (.ok r', q) ∧
      (∀ i, span? r' i = if i = id then some ⟨span.outer, some made⟩ else span? r i) ∧
      ∀ given, pairs.IsOf (given ++ Recording.counted fields) →
        made.IsOf (given ++ Recording.counted fields) := by
  induction layers generalizing r span pairs p with
  | nil =>
    refine ⟨r, pairs, p, rfl, fun i => ?_, fun _ hgiven => hgiven⟩
    split
    · next hi => rw [hi, h, ← hpairs]
    · rfl
  | cons l layers ih =>
    have hfound : (span? r id).bind Span.pairs = some pairs := by rw [h]; exact hpairs
    have hkept := laws.span?_keep r id (pairs.add (p.stamps + 1) (Recording.pairs fields))
    have hnow := hkept id
    rw [if_pos rfl, h] at hnow
    obtain ⟨r', made, q, hrun, hspans, hmade⟩ := ih hnow rfl { p with stamps := p.stamps + 1 }
    refine ⟨r', made, q, ?_, fun i => ?_, fun given hgiven => ?_⟩
    · rw [List.foldlM_cons, Updates.run_bind (run_onRecord hfound fields p), hrun]
    · rw [hspans i]
      by_cases hi : i = id
      · rw [if_pos hi, if_pos hi]
      · rw [if_neg hi, if_neg hi, hkept i, if_neg hi]
    · exact hmade given (hgiven.record_again p.stamps)

theorem Layered.run_newSpan (laws : Registry.Lawful R) {layers : List EventLayer}
    (hlayers : layers ≠ []) {parent : Parent} (hparent : parent.Lives r) (names : List String)
    (fields : List (String × FieldValue)) (p : Program σ) :
    ∃ id r' pairs q,
      (newSpan ⟨layers, r⟩ parent names fields).run.run p = (.ok (id, ⟨layers, r'⟩), q) ∧
      span? r id = none ∧ pairs.IsOf (Recording.counted fields) ∧
      ∀ i, span? r' i = if i = id then some ⟨resolve r parent, some pairs⟩ else span? r i := by
  obtain ⟨l, layers, rfl⟩ := List.exists_cons_of_ne_nil hlayers
  have hfresh := laws.span?_fresh r parent names
  have hadd := fun i => laws.span?_add r parent names i hparent
  obtain ⟨id, made, hid⟩ : ∃ id made, Registry.add r parent names = (id, made) := ⟨_, _, rfl⟩
  rw [hid] at hfresh hadd
  have hmade : span? made id = some ⟨resolve r parent, none⟩ := by rw [hadd, if_pos rfl]
  -- the first layer leaves the pairs, all others find them
  let left := Pairs.empty.add (p.stamps + 1) (Recording.pairs fields)
  have hfirst : (onNewSpan made id fields).run.run p =
    (.ok (Registry.keep made id left), { p with stamps := p.stamps + 1 }) :=
      run_onNewSpan hmade fields p
  have hkept := laws.span?_keep made id left
  have hnow := hkept id
  rw [if_pos rfl, hmade] at hnow
  refine ⟨id, Registry.keep made id left, left,
    { p with stamps := p.stamps + 1 + layers.length }, ?_, hfresh,
    Pairs.IsOf.empty.record p.stamps fields, fun i => ?_⟩
  · rw [newSpan, hid]
    dsimp only
    rw [List.foldlM_cons, bind_assoc, Updates.run_bind hfirst,
      Updates.run_bind (run_onNewSpans_of_isSome hnow rfl fields layers _)]
    rfl
  · rw [hkept i, hadd i]
    by_cases hi : i = id
    · rw [if_pos hi, if_pos hi, if_pos hi]
      rfl
    · rw [if_neg hi, if_neg hi, if_neg hi]

theorem Layered.run_record (laws : Registry.Lawful R) {layers : List EventLayer}
    (hlayers : layers ≠ []) (r : R) (id : Nat) (fields : List (String × FieldValue))
    (p : Program σ) :
    ∃ r' q, (record ⟨layers, r⟩ id fields).run.run p = (.ok ⟨layers, r'⟩, q) ∧
      ∀ i span', span? r' i = some span' → ∃ span, span? r i = some span ∧
        span'.outer = span.outer ∧
        ∀ n : Node, n.id = i → n.Tells span → (n.noted id fields).Tells span' := by
  obtain ⟨l, layers, rfl⟩ := List.exists_cons_of_ne_nil hlayers
  cases hfound : (span? r id).bind Span.pairs with
  | none =>
    refine ⟨r, p, ?_, fun i span hspan => ⟨span, hspan, rfl, ?_⟩⟩
    · rw [record, Updates.run_bind (run_onRecords_of_none hfound fields _ p)]
      rfl
    · rintro n rfl ⟨pairs, hpairs, hgiven⟩
      rw [noted_of_ne]
      · exact ⟨pairs, hpairs, hgiven⟩
      · rintro rfl
        rw [hspan] at hfound
        cases hpairs.symm.trans hfound
  | some pairs =>
    obtain ⟨span, hspan, hpairs⟩ := Option.bind_eq_some_iff.1 hfound
    let left := pairs.add (p.stamps + 1) (Recording.pairs fields)
    have hkept := laws.span?_keep r id left
    have hnow := hkept id
    rw [if_pos rfl, hspan] at hnow
    obtain ⟨r', made, q, hrun, hspans, hmade⟩ :=
      run_onRecords_again laws hnow rfl fields layers { p with stamps := p.stamps + 1 }
    refine ⟨r', q, ?_, fun i span' hspan' => ?_⟩
    · rw [record, List.foldlM_cons, bind_assoc,
        Updates.run_bind (run_onRecord hfound fields p), Updates.run_bind hrun]
      rfl
    · rw [hspans i] at hspan'
      split at hspan'
      · next hi =>
        cases hspan'
        subst hi
        refine ⟨span, hspan, rfl, ?_⟩
        rintro n hid ⟨prior, hprior, hgiven⟩
        obtain rfl : pairs = prior := Option.some.inj (hpairs.symm.trans hprior)
        refine ⟨made, rfl, ?_⟩
        rw [given_noted _ _ _ hid]
        exact hmade n.given (hgiven.record p.stamps fields)
      · next hi =>
        rw [hkept i, if_neg hi] at hspan'
        refine ⟨span', hspan', rfl, fun n hid hn => ?_⟩
        rwa [noted_of_ne fun h => hi (hid.symm.trans h)]

/-- **The tree tells of the spans.** -/
theorem Grown.tells (laws : Registry.Lawful R) {layers : List EventLayer} (hlayers : layers ≠ [])
    {tree : List Node} (h : Grown σ layers r tree) : Tells r tree := by
  induction h with
  | start => exact .empty laws
  | newSpan h parent hparent names fields hrun ih =>
    obtain ⟨id, r', pairs, q, hmade, hfresh, hpairs, hspans⟩ :=
      Layered.run_newSpan laws hlayers hparent names fields _
    cases hmade.symm.trans hrun
    exact ih.newSpan laws hfresh hpairs hspans
  | record h id fields hrun ih =>
    obtain ⟨r', q, hmade, hspans⟩ := Layered.run_record laws hlayers _ id fields _
    cases hmade.symm.trans hrun
    exact ih.noted id fields hspans
  | enter h id ih => exact ih.fewer (laws.span?_enter _ id)
  | leave h id ih => exact ih.fewer (laws.span?_leave _ id)
  | close h id ih => exact ih.fewer (laws.span?_close _ id)

end Runs

/-! ### Ways in -/

namespace Tells

variable {r : R} {tree : List Node}

theorem scope_path (laws : Registry.Lawful R) (h : Tells r tree) {o : Option Nat}
    (ho : ∀ i, o = some i → (span? r i).isSome) :
    List.Forall₂ (fun n id => ∃ span, span? r id = some span ∧ Node.Tells n span)
      (path tree o) (scope r o) := by
  cases o with
  | none =>
    rw [path_none, laws.scope_none]
    exact .nil
  | some id =>
    refine laws.inward (motive := fun id => List.Forall₂ _ (path tree (some id)) (scope r (some id)))
      (fun id span hspan ih => ?_) (ho id rfl)
    obtain ⟨n, -, htells, hpath⟩ := h id span hspan
    rw [hpath, laws.scope_some r id span hspan]
    refine List.rel_append ?_ (.cons ⟨span, hspan, htells⟩ .nil)
    cases houter : span.outer with
    | none =>
      rw [path_none, laws.scope_none]
      exact .nil
    | some o => exact ih o houter

/-- **The pairs around what is placed somewhere are those of the spans on its path**, each a map of all
that was recorded on its span. -/
theorem pairsAround_path (laws : Registry.Lawful R) (h : Tells r tree) (parent : Parent) :
    List.Forall₂ (fun n pairs => Pairs.IsOf pairs (Node.given n)) (path tree (resolve r parent))
      (Registry.pairsAround r parent) := by
  have hscope := h.scope_path laws (laws.resolve_lives r parent)
  rw [Registry.pairsAround]
  generalize path tree (resolve r parent) = nodes, scope r (resolve r parent) = ids at hscope
  induction hscope with
  | nil => exact .nil
  | cons htold _ ih =>
    obtain ⟨span, hspan, pairs, hpairs, hgiven⟩ := htold
    rw [List.filterMap_cons, hspan]
    dsimp only [Option.bind_some]
    rw [hpairs]
    exact .cons hgiven ih

end Tells

end Logline
