import Logline.Proofs.Value.Overlays
import Logline.Proofs.Value.Shelf

/-!
Handles with more context. What a program has at hand are maps and handles, which it makes of one
another by calls (`Stock`). Whatever it asked for before, adding maps to the context of a handle lays
them over it from left to right, all at once or in turns. The test by which a handle to which nothing
is added is returned itself finds just the empty maps, whatever instances merging went through
(`contexts_add_up`). On the shelf these are the places where the rows stand (`Shelf.mergeAll_stands`).
-/

namespace Logline

namespace Pairs

variable {α : Type} {p q c : Pairs α} {maps : List (Pairs α)} {given : List (String × α)} {n : Nat}

/-! ### Maps merged from left to right -/

namespace Made

/-- A map holds its own pairs. -/
theorem isOf_entries (h : p.Made) : p.IsOf p.entries := by
  obtain ⟨given, hgiven⟩ := h.isOf
  have hentries : p.entries = insertAll [] p.entries := by
    rw [hgiven.entries, insertAll_insertAll]
  refine ⟨hentries, fun hstamp => ?_⟩
  rw [hgiven.entries, hgiven.stamp hstamp]
  rfl

theorem isEmpty_iff (h : p.Made) : p.isEmpty ↔ p.stamp = 0 := by
  refine ⟨fun hempty => ?_, fun hstamp => ?_⟩
  · rw [h.eq_empty hempty]
    rfl
  · exact List.isEmpty_iff.2 (h.isOf_entries.stamp hstamp)

theorem isEmpty_merge (hp : p.Made) (hq : q.Made) (stamp : Nat) :
    (p.merge (stamp + 1) q).isEmpty ↔ p.isEmpty ∧ q.isEmpty := by
  refine ⟨fun hempty => ?_, fun ⟨hpe, hqe⟩ => ?_⟩
  · have hnone := (hp.isOf_entries.merge hq.isOf_entries stamp).nil_of_isEmpty hempty
    simpa [isEmpty] using hnone
  · rwa [Pairs.merge, if_pos hpe]

theorem merge_empty (hp : p.Made) (hq : q.Made) (hempty : q.isEmpty) (stamp : Nat) :
    p.merge stamp q = p := by
  unfold Pairs.merge
  split
  · next hpe => rw [hp.eq_empty hpe, hq.eq_empty hempty]
  · rfl

theorem mergeAll (hp : p.Made) (hmaps : ∀ m ∈ maps, m.Made) (stamp : Nat) :
    (maps.foldl (Pairs.merge (stamp + 1)) p).Made := by
  induction maps generalizing p with
  | nil => exact hp
  | cons m rest ih =>
    obtain ⟨hm, hrest⟩ := List.forall_mem_cons.1 hmaps
    exact ih (hp.merge hm stamp) hrest

/-- Empty maps leave the very map that they are merged into. -/
theorem mergeAll_empty (hp : p.Made) (hmaps : ∀ m ∈ maps, m.Made) (hempty : ∀ m ∈ maps, m.isEmpty)
    (stamp : Nat) : maps.foldl (Pairs.merge stamp) p = p := by
  induction maps with
  | nil => rfl
  | cons m rest ih =>
    obtain ⟨hm, hrest⟩ := List.forall_mem_cons.1 hmaps
    obtain ⟨hme, hothers⟩ := List.forall_mem_cons.1 hempty
    rw [List.foldl_cons, hp.merge_empty hm hme]
    exact ih hrest hothers

end Made

theorem IsOf.mergeAll (h : p.IsOf given) (hmaps : ∀ m ∈ maps, m.Made) (stamp : Nat) :
    (maps.foldl (Pairs.merge (stamp + 1)) p).IsOf (given ++ maps.flatMap Pairs.entries) := by
  induction maps generalizing p given with
  | nil => simpa using h
  | cons m rest ih =>
    obtain ⟨hm, hrest⟩ := List.forall_mem_cons.1 hmaps
    rw [List.flatMap_cons, ← List.append_assoc]
    exact ih (h.merge hm.isOf_entries stamp) hrest

/-! ### Which instance it is -/

/-- A map that was made with the stamps up to `n`. -/
structure Dated (n : Nat) (p : Pairs α) : Prop where
  made : p.Made
  bound : p.stamp ≤ n

namespace Dated

theorem empty (n : Nat) : (empty : Pairs α).Dated n := ⟨.empty, Nat.zero_le n⟩

theorem mono (h : p.Dated n) : p.Dated (n + 1) := ⟨h.made, Nat.le_succ_of_le h.bound⟩

theorem add (h : p.Dated (n + 1)) (new : List (String × α)) : (p.add (n + 1) new).Dated (n + 1) := by
  refine ⟨h.made.add n new, ?_⟩
  unfold Pairs.add
  split
  · exact h.bound
  · exact Nat.le_refl _

theorem merge (hp : p.Dated (n + 1)) (hq : q.Dated (n + 1)) :
    (p.merge (n + 1) q).Dated (n + 1) := by
  refine ⟨hp.made.merge hq.made n, ?_⟩
  unfold Pairs.merge
  split
  · exact hq.bound
  · split
    · exact hp.bound
    · exact Nat.le_refl _

theorem mergeAll (hp : p.Dated (n + 1)) (hmaps : ∀ m ∈ maps, m.Dated (n + 1)) :
    (maps.foldl (Pairs.merge (n + 1)) p).Dated (n + 1) := by
  induction maps generalizing p with
  | nil => exact hp
  | cons m rest ih =>
    obtain ⟨hm, hrest⟩ := List.forall_mem_cons.1 hmaps
    exact ih (hp.merge hm) hrest

end Dated

/-- What came of merging into a map something that is not empty: it is another instance. -/
structure Added (p c : Pairs α) : Prop where
  filled : ¬ c.isEmpty
  other : c.stamp ≠ p.stamp

/-- It stays another one, since a copy has a stamp of its own. -/
theorem Added.merge (h : p.Added c) (hp : p.Dated n) (hc : c.Made) (hq : q.Made) :
    p.Added (c.merge (n + 1) q) := by
  refine ⟨fun hempty => h.filled ((hc.isEmpty_merge hq n).1 hempty).1, ?_⟩
  have hbound := hp.bound
  rw [Pairs.merge, if_neg h.filled]
  split
  · exact h.other
  · show n + 1 ≠ p.stamp
    omega

theorem Added.mergeAll (h : p.Added c) (hp : p.Dated n) (hc : c.Made) (hmaps : ∀ m ∈ maps, m.Made) :
    p.Added (maps.foldl (Pairs.merge (n + 1)) c) := by
  induction maps generalizing c with
  | nil => exact h
  | cons m rest ih =>
    obtain ⟨hm, hrest⟩ := List.forall_mem_cons.1 hmaps
    exact ih (h.merge hp hc hm) (hc.merge hm n) hrest

namespace Dated

theorem added_merge (hp : p.Dated n) (hq : q.Made) (hfilled : ¬ q.isEmpty) :
    p.Added (p.merge (n + 1) q) := by
  refine ⟨fun hempty => hfilled ((hp.made.isEmpty_merge hq n).1 hempty).2, ?_⟩
  have hbound := hp.bound
  rw [Pairs.merge, if_neg hfilled]
  split
  · next hpe =>
    rw [hp.made.isEmpty_iff.1 hpe]
    exact fun hstamp => hfilled (hq.isEmpty_iff.2 hstamp)
  · show n + 1 ≠ p.stamp
    omega

theorem added_mergeAll (hp : p.Dated n) (hmaps : ∀ m ∈ maps, m.Made)
    (hsome : ∃ m ∈ maps, ¬ m.isEmpty) : p.Added (maps.foldl (Pairs.merge (n + 1)) p) := by
  induction maps with
  | nil => simp at hsome
  | cons m rest ih =>
    obtain ⟨hm, hrest⟩ := List.forall_mem_cons.1 hmaps
    rw [List.foldl_cons]
    by_cases hempty : m.isEmpty
    · rw [hp.made.merge_empty hm hempty]
      refine ih hrest ?_
      obtain ⟨q, hq, hfilled⟩ := hsome
      rcases List.mem_cons.1 hq with rfl | hq
      · exact absurd hempty hfilled
      · exact ⟨q, hq, hfilled⟩
    · exact (hp.added_merge hm hempty).mergeAll hp (hp.made.merge hm n) hrest

/-- Merging gives the same instance exactly if there is nothing to merge. -/
theorem same_mergeAll (hp : p.Dated n) (hmaps : ∀ m ∈ maps, m.Made) :
    (maps.foldl (Pairs.merge (n + 1)) p).same p ↔ ∀ m ∈ maps, m.isEmpty := by
  refine ⟨fun hsame => ?_, fun hempty => ?_⟩
  · by_contra hsome
    push Not at hsome
    exact (hp.added_mergeAll hmaps (by simpa using hsome)).other (by simpa [same] using hsame)
  · rw [hp.made.mergeAll_empty hmaps hempty]
    simp [same]

end Dated

/-- Into the empty map, a single map that has pairs is merged as it is. -/
theorem Made.mergeAll_single {before after : List (Pairs α)} (hp : p.Made) (hq : q.Made)
    (hmaps : ∀ m ∈ before ++ after, m.Made) (hempty : ∀ m ∈ before ++ after, m.isEmpty)
    (hpe : p.isEmpty) (stamp : Nat) :
    (before ++ q :: after).foldl (Pairs.merge stamp) p = q := by
  rw [List.forall_mem_append] at hmaps hempty
  rw [List.foldl_append, hp.mergeAll_empty hmaps.1 hempty.1, List.foldl_cons, Pairs.merge,
    if_pos hpe, hq.mergeAll_empty hmaps.2 hempty.2]

end Pairs

/-! ### Where merged maps stand -/

namespace Shelf

variable {α : Type} {s : Shelf α} {m n : Spot} {ns : List Spot} {given new : List (String × α)}

/-- Merges maps into a map, from left to right. -/
def mergeAll (s : Shelf α) (m : Spot) (ns : List Spot) : Shelf α × Spot :=
  ns.foldl (fun t n => t.1.merge t.2 n) (s, m)

/-- A map on the shelf, where only the empty one stands nowhere. -/
structure Placed (s : Shelf α) (m : Spot) (given : List (String × α)) : Prop
    extends s.Holds m given where
  nowhere : m = none ↔ given = []

theorem Placed.mono {s' : Shelf α} (h : s.Placed m given) (hs : s <+: s') : s'.Placed m given :=
  ⟨h.toHolds.mono hs, h.nowhere⟩

theorem Placed.filled {i : Nat} (h : s.Placed (some i) given) :
    ¬ (s.rows (some i)).keys.isEmpty := by
  intro hempty
  exact Option.some_ne_none i (h.nowhere.2 (h.rows.nil_of_isEmpty hempty))

theorem merge_none_left (s : Shelf α) (n : Spot) : s.merge none n = (s, n) := by cases n <;> rfl

theorem Placed.merge_none (h : s.Placed m given) : s.merge m none = (s, m) := by
  cases m with
  | none => rfl
  | some i => exact if_neg h.filled

/-- Of two maps that are not empty a copy is made, behind everything else. -/
theorem Placed.merge_some {i j : Nat} (h : s.Placed (some i) given) (hn : s.Placed (some j) new) :
    (s.merge (some i) (some j)).2 = some s.length := by
  obtain ⟨htarget, r, hr, hgiven, -⟩ :=
    (fills_copy h.rows).putAll (s.rows (some j)).entries
  have hfilled : ¬ (((s.rows (some j)).entries.foldl put (s.copy (some i))).1.rows
      (some s.length)).keys.isEmpty := by
    rw [hr]
    simp only [rows, List.getD_append_right _ _ _ _ (Nat.le_refl _), Nat.sub_self]
    intro hempty
    have hnil := (List.append_eq_nil_iff.1 (hgiven.nil_of_isEmpty hempty)).1
    exact Option.some_ne_none i (h.nowhere.2 hnil)
  rw [merge, if_neg hn.filled, if_neg h.filled, build, finish]
  simp only [htarget, if_neg hfilled]

theorem Placed.merge (h : s.Placed m given) (hn : s.Placed n new) :
    (s.merge m n).1.Placed (s.merge m n).2 (given ++ new) := by
  refine ⟨(makes_merge h.toHolds hn.toHolds).holds, ?_⟩
  cases m with
  | none =>
    rw [merge_none_left, h.nowhere.1 rfl]
    exact hn.nowhere
  | some i =>
    cases n with
    | none =>
      rw [h.merge_none, hn.nowhere.1 rfl, List.append_nil]
      exact h.nowhere
    | some j =>
      rw [h.merge_some hn]
      have hgiven : given ≠ [] := fun hnil => Option.some_ne_none i (h.nowhere.2 hnil)
      simp [hgiven]

/-- Somewhere else than a map that stood on a shorter shelf, and not nowhere. -/
def Elsewhere (m n : Spot) : Prop := n ≠ none ∧ n ≠ m

theorem Placed.elsewhere_merge {s' : Shelf α} {c : Spot} {added : List (String × α)}
    (h : s.Placed m given) (hs : s <+: s') (hc : s'.Placed c added) (hn : s'.Placed n new)
    (helse : Elsewhere m c ∨ c = m ∧ n ≠ none) : Elsewhere m (s'.merge c n).2 := by
  cases n with
  | none =>
    rw [hc.merge_none]
    exact helse.resolve_right fun hnone => hnone.2 rfl
  | some j =>
    cases c with
    | none =>
      rw [merge_none_left]
      obtain ⟨hnone, -⟩ | ⟨rfl, hn⟩ := helse
      · exact absurd rfl hnone
      · exact ⟨hn, hn⟩
    | some i =>
      rw [hc.merge_some hn]
      refine ⟨Option.some_ne_none _, fun hm => ?_⟩
      have hinside := h.stands s'.length hm.symm
      exact Nat.lt_irrefl _ (Nat.lt_of_lt_of_le hinside hs.length_le)

theorem Placed.mergeAll_none (h : s.Placed m given) (hnone : ∀ n ∈ ns, n = none) :
    s.mergeAll m ns = (s, m) := by
  induction ns with
  | nil => rfl
  | cons n rest ih =>
    obtain ⟨rfl, hrest⟩ := List.forall_mem_cons.1 hnone
    rw [Shelf.mergeAll, List.foldl_cons, h.merge_none]
    exact ih hrest

/-- Merging on its way: what it came to so far stands elsewhere, or nothing was added yet. -/
theorem Placed.mergeAll {s' : Shelf α} {c : Spot} {added : List (String × α)}
    {news : List (List (String × α))} (h : s.Placed m given) (hs : s <+: s')
    (hc : s'.Placed c added) (hns : List.Forall₂ s.Placed ns news) :
    (s'.mergeAll c ns).1.Placed (s'.mergeAll c ns).2 (added ++ news.flatten) ∧
      s' <+: (s'.mergeAll c ns).1 ∧
      (Elsewhere m c ∨ c = m ∧ (∃ n ∈ ns, n ≠ none) → Elsewhere m (s'.mergeAll c ns).2) := by
  induction hns generalizing s' c added with
  | nil =>
    rw [List.flatten_nil, List.append_nil]
    exact ⟨hc, List.prefix_rfl, fun helse => helse.resolve_right (by simp)⟩
  | @cons n new rest news hn hrest ih =>
    have hn' := hn.mono hs
    have hkept := (makes_merge hc.toHolds hn'.toHolds).kept
    obtain ⟨hplaced, hprefix, helse⟩ := ih (hs.trans hkept) (hc.merge hn')
    refine ⟨?_, hkept.trans hprefix, fun hbefore => helse ?_⟩
    · rw [List.flatten_cons, ← List.append_assoc]
      exact hplaced
    · rcases hbefore with hbefore | ⟨rfl, k, hk, hfilled⟩
      · exact .inl (h.elsewhere_merge hs hc hn' (.inl hbefore))
      · by_cases hnone : n = none
        · subst hnone
          have hlater := (List.mem_cons.1 hk).resolve_left hfilled
          rw [hc.merge_none]
          exact .inr ⟨rfl, k, hlater, hfilled⟩
        · exact .inl (h.elsewhere_merge hs hc hn' (.inr ⟨rfl, hnone⟩))

/-- **Where merged maps stand.** Maps that are merged into a map from left to right leave every row
on the shelf as it is and hold the pairs of all of them. They stand where that map stands exactly if
all of them are empty, and if it is empty itself, a map among none but empty ones is not copied. -/
theorem mergeAll_stands {news : List (List (String × α))} (h : s.Placed m given)
    (hns : List.Forall₂ s.Placed ns news) :
    (s.mergeAll m ns).1.Placed (s.mergeAll m ns).2 (given ++ news.flatten) ∧
      s <+: (s.mergeAll m ns).1 ∧
      ((s.mergeAll m ns).2 = m ↔ ∀ n ∈ ns, n = none) ∧
      ∀ before n after, m = none → ns = before ++ n :: after → (∀ x ∈ before ++ after, x = none) →
        s.mergeAll m ns = (s, n) := by
  obtain ⟨hplaced, hkept, helse⟩ := h.mergeAll List.prefix_rfl h hns
  refine ⟨hplaced, hkept, ⟨fun hsame => ?_, fun hnone => ?_⟩, ?_⟩
  · by_contra hsome
    push Not at hsome
    exact (helse (.inr ⟨rfl, hsome⟩)).2 hsame
  · rw [h.mergeAll_none hnone]
  · rintro before n after rfl rfl hothers
    obtain ⟨hbefore, hafter⟩ := List.forall_mem_append.1 hothers
    obtain ⟨new, hn⟩ : ∃ new, s.Placed n new := by
      have hdrop := List.forall₂_drop before.length hns
      rw [List.drop_left] at hdrop
      obtain ⟨new, -, hn, -⟩ := List.forall₂_cons_left_iff.1 hdrop
      exact ⟨new, hn⟩
    calc s.mergeAll none (before ++ n :: after)
        = mergeAll (s.mergeAll none before).1 (s.mergeAll none before).2 (n :: after) :=
          List.foldl_append ..
      _ = s.mergeAll none (n :: after) := by rw [h.mergeAll_none hbefore]
      _ = mergeAll (s.merge none n).1 (s.merge none n).2 after := rfl
      _ = s.mergeAll n after := by rw [merge_none_left]
      _ = (s, n) := hn.mergeAll_none hafter

end Shelf

/-! ### Handles with a date -/

namespace Handle

variable {h : Handle Value} {n : Nat}

/-- A handle that was made with the stamps up to `n`, and so was its context. -/
def Dated (n : Nat) (h : Handle Value) : Prop :=
  ∀ w, h = .enabled w → w.stamp ≤ n ∧ w.context.Dated n

theorem dated_disabled (n : Nat) : (disabled : Handle Value).Dated n := by
  intro w hw
  cases hw

theorem dated_enabled {w : Writer Value} (hstamp : w.stamp ≤ n) (hcontext : w.context.Dated n) :
    (enabled w).Dated n := by
  rintro _ ⟨⟩
  exact ⟨hstamp, hcontext⟩

namespace Dated

theorem mono (hh : h.Dated n) : h.Dated (n + 1) := fun w hw =>
  ⟨Nat.le_succ_of_le (hh w hw).1, (hh w hw).2.mono⟩

theorem context (hh : h.Dated n) : h.context.Dated n := by
  cases h with
  | disabled => exact .empty n
  | enabled w => exact (hh w rfl).2

theorem withContext (hh : h.Dated (n + 1)) {maps : List (Pairs Value)}
    (hmaps : ∀ m ∈ maps, m.Dated (n + 1)) : (h.withContext (n + 1) maps).Dated (n + 1) := by
  cases h with
  | disabled => exact hh
  | enabled w =>
    simp only [Handle.withContext]
    split
    · exact hh
    · exact dated_enabled (Nat.le_refl _) ((hh w rfl).2.mergeAll hmaps)

theorem withModule (hh : h.Dated (n + 1)) (name : String) :
    (h.withModule (n + 1) name).Dated (n + 1) := by
  cases h with
  | disabled => exact hh
  | enabled w => exact dated_enabled (Nat.le_refl _) (hh w rfl).2

theorem withSite (hh : h.Dated (n + 1)) (site : Site) :
    (h.withSite (n + 1) site).Dated (n + 1) := by
  cases h with
  | disabled => exact hh
  | enabled w =>
    have hcontext := (hh w rfl).2.add
      [("_file", .str (SourcePath.shorten w.settings.pathParts site.file)),
        ("_line", .int (.ofNat site.line))]
    exact dated_enabled (Nat.le_refl _) hcontext

end Dated

end Handle

/-- Maps are laid over the context of a writer, and nothing else is changed. -/
structure Writer.Laid (w : Writer Value) (maps : List (Pairs Value)) (v : Writer Value) : Prop where
  severity : v.severity = w.severity
  module : v.module = w.module
  settings : v.settings = w.settings
  entries : v.context.entries =
    maps.foldl (fun es m => Pairs.insertAll es m.entries) w.context.entries

theorem Writer.Laid.trans {w v u : Writer Value} {maps more : List (Pairs Value)}
    (h : w.Laid maps v) (h' : v.Laid more u) : w.Laid (maps ++ more) u where
  severity := h'.severity.trans h.severity
  module := h'.module.trans h.module
  settings := h'.settings.trans h.settings
  entries := by rw [h'.entries, h.entries, List.foldl_append]

theorem Handle.withContext_laid {w : Writer Value} {n : Nat} {maps : List (Pairs Value)}
    (hw : w.context.Dated n) (hmaps : ∀ m ∈ maps, m.Made) :
    ∃ v, (enabled w).withContext (n + 1) maps = .enabled v ∧ w.Laid maps v ∧
      v.context = maps.foldl (Pairs.merge (n + 1)) w.context := by
  have hentries : (maps.foldl (Pairs.merge (n + 1)) w.context).entries =
      maps.foldl (fun es m => Pairs.insertAll es m.entries) w.context.entries := by
    rw [(hw.made.isOf_entries.mergeAll hmaps n).entries, Pairs.insertAll_append,
      ← hw.made.isOf_entries.entries, Pairs.insertAll, List.foldl_flatMap]
    rfl
  simp only [withContext]
  split
  · next hsame =>
    have hempty := (hw.same_mergeAll hmaps).1 hsame
    rw [hw.made.mergeAll_empty hmaps hempty] at hentries ⊢
    exact ⟨w, rfl, ⟨rfl, rfl, rfl, hentries⟩, rfl⟩
  · exact ⟨_, rfl, ⟨rfl, rfl, rfl, hentries⟩, rfl⟩

/-- A handle is returned itself exactly if there is nothing to add to it. -/
theorem Handle.same_withContext {w : Writer Value} {n : Nat} {maps : List (Pairs Value)}
    (hstamp : w.stamp ≤ n) (hw : w.context.Dated n) (hmaps : ∀ m ∈ maps, m.Made) :
    (((enabled w).withContext (n + 1) maps).same (.enabled w) ↔ ∀ m ∈ maps, m.isEmpty) ∧
      ((∀ m ∈ maps, m.isEmpty) → (enabled w).withContext (n + 1) maps = .enabled w) := by
  have hcontext := hw.same_mergeAll hmaps
  simp only [withContext]
  split
  · next hsame => simpa [same] using hcontext.1 hsame
  · next hother =>
    have hsome := fun hempty => hother (hcontext.2 hempty)
    have hstamps : n + 1 ≠ w.stamp := by omega
    exact ⟨iff_of_false (by simp [same, hstamps]) hsome, fun hempty => absurd hempty hsome⟩

theorem Snapshot.dated_handle {s : Snapshot} {n : Nat} (h : s.stamp ≤ n) (severity : Severity) :
    (s.handle severity).Dated n := by
  unfold handle
  split
  · exact Handle.dated_enabled h (.empty n)
  · exact Handle.dated_disabled n

/-! ### What a program has at hand -/

/-- What a program asks for. What it got before is named by when it was got; the first map is the
empty one, and the first handle that of a level that is switched off. -/
inductive StockCall where
  | add (map : Nat) (new : List (String × Value))
  | merge (one other : Nat)
  /-- The context of a handle, as a map. -/
  | context (handle : Nat)
  | publish (settings : Settings)
  /-- The handle for a severity, of settings that were published. -/
  | select (snapshot : Nat) (severity : Severity)
  /-- A handle with maps added to its context. -/
  | extend (handle : Nat) (maps : List Nat)
  | name (handle : Nat) (module : String)
  | place (handle : Nat) (site : Site)

structure Stock where
  stamps : Nat
  maps : List (Pairs Value)
  snapshots : List Snapshot
  handles : List (Handle Value)

namespace Stock

def start : Stock := ⟨0, [.empty], [], [.disabled]⟩

def map (s : Stock) (i : Nat) : Pairs Value := s.maps.getD i .empty

def handle (s : Stock) (i : Nat) : Handle Value := s.handles.getD i .disabled

def takeMap (s : Stock) (m : Pairs Value) : Stock := { s with maps := s.maps ++ [m] }

def takeHandle (s : Stock) (h : Handle Value) : Stock := { s with handles := s.handles ++ [h] }

/-- A stamp is given away. -/
def stamped (s : Stock) : Stock := { s with stamps := s.stamps + 1 }

def step (s : Stock) : StockCall → Stock
  | .add i new => s.stamped.takeMap ((s.map i).add (s.stamps + 1) new)
  | .merge i j => s.stamped.takeMap ((s.map i).merge (s.stamps + 1) (s.map j))
  | .context i => s.takeMap (s.handle i).context
  | .publish settings =>
    { s.stamped with snapshots := s.snapshots ++ [⟨s.stamps + 1, settings⟩] }
  | .select i severity =>
    s.takeHandle (match s.snapshots[i]? with
      | some snapshot => snapshot.handle severity
      | none => .disabled)
  | .extend i maps =>
    s.stamped.takeHandle ((s.handle i).withContext (s.stamps + 1) (maps.map s.map))
  | .name i module => s.stamped.takeHandle ((s.handle i).withModule (s.stamps + 1) module)
  | .place i site => s.stamped.takeHandle ((s.handle i).withSite (s.stamps + 1) site)

def after (s : Stock) (calls : List StockCall) : Stock := calls.foldl step s

variable {s : Stock}

/-- All there is was made with stamps that were given away. -/
structure Sound (s : Stock) : Prop where
  maps : ∀ m ∈ s.maps, m.Dated s.stamps
  snapshots : ∀ x ∈ s.snapshots, x.stamp ≤ s.stamps
  handles : ∀ h ∈ s.handles, h.Dated s.stamps

theorem sound_start : start.Sound where
  maps := by simpa [start] using Pairs.Dated.empty 0
  snapshots := by simp [start]
  handles := by simpa [start] using Handle.dated_disabled 0

namespace Sound

theorem map (hs : s.Sound) (i : Nat) : (s.map i).Dated s.stamps := by
  unfold Stock.map
  rw [List.getD_eq_getElem?_getD]
  cases hi : s.maps[i]? with
  | none => exact .empty _
  | some m => exact hs.maps m (List.mem_of_getElem? hi)

theorem handle (hs : s.Sound) (i : Nat) : (s.handle i).Dated s.stamps := by
  unfold Stock.handle
  rw [List.getD_eq_getElem?_getD]
  cases hi : s.handles[i]? with
  | none => exact Handle.dated_disabled _
  | some h => exact hs.handles h (List.mem_of_getElem? hi)

theorem stamped (hs : s.Sound) : s.stamped.Sound where
  maps m hm := (hs.maps m hm).mono
  snapshots x hx := Nat.le_succ_of_le (hs.snapshots x hx)
  handles h hh := (hs.handles h hh).mono

theorem takeMap (hs : s.Sound) {m : Pairs Value} (hm : m.Dated s.stamps) : (s.takeMap m).Sound where
  maps := List.forall_mem_append.2 ⟨hs.maps, List.forall_mem_singleton.2 hm⟩
  snapshots := hs.snapshots
  handles := hs.handles

theorem takeHandle (hs : s.Sound) {h : Handle Value} (hh : h.Dated s.stamps) :
    (s.takeHandle h).Sound where
  maps := hs.maps
  snapshots := hs.snapshots
  handles := List.forall_mem_append.2 ⟨hs.handles, List.forall_mem_singleton.2 hh⟩

theorem step (hs : s.Sound) (call : StockCall) : (s.step call).Sound := by
  have hstamped := hs.stamped
  cases call with
  | add i new => exact hstamped.takeMap ((hstamped.map i).add new)
  | merge i j => exact hstamped.takeMap ((hstamped.map i).merge (hstamped.map j))
  | context i => exact hs.takeMap (hs.handle i).context
  | publish settings =>
    refine ⟨hstamped.maps, List.forall_mem_append.2 ⟨hstamped.snapshots, ?_⟩, hstamped.handles⟩
    exact List.forall_mem_singleton.2 (Nat.le_refl (s.stamps + 1))
  | select i severity =>
    refine hs.takeHandle ?_
    cases hi : s.snapshots[i]? with
    | none => exact Handle.dated_disabled _
    | some x => exact Snapshot.dated_handle (hs.snapshots x (List.mem_of_getElem? hi)) severity
  | extend i maps =>
    refine hstamped.takeHandle ((hstamped.handle i).withContext ?_)
    rintro m hm
    obtain ⟨j, -, rfl⟩ := List.mem_map.1 hm
    exact hstamped.map j
  | name i module => exact hstamped.takeHandle ((hstamped.handle i).withModule module)
  | place i site => exact hstamped.takeHandle ((hstamped.handle i).withSite site)

theorem after (hs : s.Sound) (calls : List StockCall) : (s.after calls).Sound := by
  induction calls generalizing s with
  | nil => exact hs
  | cons call calls ih => exact ih (hs.step call)

end Sound

/-! ### What is at hand stays as it is -/

/-- More is at hand, and all there was is as before. -/
structure Grown (s t : Stock) : Prop where
  maps : s.maps <+: t.maps
  handles : s.handles <+: t.handles

theorem grown_step (s : Stock) (call : StockCall) : s.Grown (s.step call) := by
  cases call with
  | publish settings => exact ⟨List.prefix_rfl, List.prefix_rfl⟩
  | add | merge | context => exact ⟨List.prefix_append .., List.prefix_rfl⟩
  | select | extend | name | place => exact ⟨List.prefix_rfl, List.prefix_append ..⟩

theorem grown_after (s : Stock) (calls : List StockCall) : s.Grown (s.after calls) := by
  induction calls generalizing s with
  | nil => exact ⟨List.prefix_rfl, List.prefix_rfl⟩
  | cons call calls ih =>
    have hstep := s.grown_step call
    have hrest := ih (s.step call)
    exact ⟨hstep.maps.trans hrest.maps, hstep.handles.trans hrest.handles⟩

theorem Grown.map {t : Stock} (h : s.Grown t) {i : Nat} (hi : i < s.maps.length) :
    t.map i = s.map i := by
  obtain ⟨more, hmore⟩ := h.maps
  rw [Stock.map, ← hmore]
  exact List.getD_append _ _ _ _ hi

theorem Grown.handle {t : Stock} (h : s.Grown t) {i : Nat} (hi : i < s.handles.length) :
    t.handle i = s.handle i := by
  obtain ⟨more, hmore⟩ := h.handles
  rw [Stock.handle, ← hmore]
  exact List.getD_append _ _ _ _ hi

/-- What a handle is extended to. -/
theorem handle_extend (s : Stock) (i : Nat) (maps : List Nat) :
    (s.step (.extend i maps)).handle s.handles.length =
      (s.handle i).withContext (s.stamps + 1) (maps.map s.map) := by
  simp [handle, step, takeHandle, stamped]

end Stock

open Stock

/-- **Contexts add up.** Whatever a program has made of its handles and maps, to add maps to the context
of a handle in two turns comes to the same pairs in the same order as to add all of them at once. They
are laid over the context from left to right, so each key stands where it came first and has the value
it was given last, and the rest of the handle and everything that is at hand stays as it is. The handle
is returned itself exactly if all the maps are empty or its level is switched off; into an empty
context, a map that comes with none but empty ones goes as the very instance it is. -/
theorem contexts_add_up (calls : List StockCall) (i : Nat) (xs ys : List Nat) :
    let s := start.after calls
    let h := s.handle i
    let k := s.handles.length
    let maps := (xs ++ ys).map s.map
    let once := s.after [.extend i (xs ++ ys)]
    let turns := s.after [.extend i xs, .extend k ys]
    (∀ w, h = .enabled w → ∃ v u, once.handle k = .enabled v ∧ turns.handle (k + 1) = .enabled u ∧
      w.Laid maps v ∧ w.Laid maps u ∧ u.context.entries = v.context.entries ∧
      FirstsOf ((w.context.entries ++ maps.flatMap Pairs.entries).map Prod.fst) v.context.keys ∧
      (∀ key, v.context.get? key =
        (w.context.entries ++ maps.flatMap Pairs.entries).reverse.lookup key) ∧
      (w.context.isEmpty → ∀ before m after, maps = before ++ m :: after →
        (∀ x ∈ before ++ after, x.isEmpty) → v.context = m)) ∧
    ((once.handle k).same h ↔ h = .disabled ∨ ∀ m ∈ maps, m.isEmpty) ∧
    (h = .disabled ∨ (∀ m ∈ maps, m.isEmpty) → once.handle k = h) ∧
    (∀ j < k, once.handle j = s.handle j ∧ turns.handle j = s.handle j) ∧
    ∀ j < s.maps.length, once.map j = s.map j ∧ turns.map j = s.map j := by
  intro s h k maps once turns
  have hs : s.Sound := sound_start.after calls
  have hmade : ∀ is : List Nat, ∀ m ∈ is.map s.map, m.Made := by
    intro is m hm
    obtain ⟨j, -, rfl⟩ := List.mem_map.1 hm
    exact (hs.map j).made
  have hmaps : ∀ m ∈ maps, m.Made := hmade (xs ++ ys)
  have hgrown : s.Grown once := s.grown_after _
  have hgrown' : s.Grown turns := s.grown_after _
  have honce : once.handle k = h.withContext (s.stamps + 1) maps := s.handle_extend i (xs ++ ys)
  have hitself : ((once.handle k).same h ↔ h = .disabled ∨ ∀ m ∈ maps, m.isEmpty) ∧
      (h = .disabled ∨ (∀ m ∈ maps, m.isEmpty) → once.handle k = h) := by
    rw [honce]
    cases hh : h with
    | disabled => exact ⟨iff_of_true rfl (.inl rfl), fun _ => rfl⟩
    | enabled w =>
      obtain ⟨hstamp, hcontext⟩ := hs.handle i w hh
      simpa only [reduceCtorEq, false_or] using Handle.same_withContext hstamp hcontext hmaps
  refine ⟨fun w hw => ?_, hitself.1, hitself.2,
    fun j hj => ⟨hgrown.handle hj, hgrown'.handle hj⟩,
    fun j hj => ⟨hgrown.map hj, hgrown'.map hj⟩⟩
  · obtain ⟨-, hcontext⟩ := hs.handle i w hw
    obtain ⟨v, hv, hlaid, hmerged⟩ := Handle.withContext_laid hcontext hmaps
    have hisOf : v.context.IsOf (w.context.entries ++ maps.flatMap Pairs.entries) := by
      rw [hmerged]
      exact hcontext.made.isOf_entries.mergeAll hmaps s.stamps
    -- the second of two turns starts from the handle that the first one made
    let first := s.step (.extend i xs)
    obtain ⟨v₁, hv₁, hlaid₁, -⟩ := Handle.withContext_laid hcontext (hmade xs)
    have hfirst : first.handle k = .enabled v₁ := by
      rw [← hv₁, ← hw]
      exact s.handle_extend i xs
    obtain ⟨-, hcontext₁⟩ := (hs.step (.extend i xs)).handle k v₁ hfirst
    obtain ⟨u, hu, hlaid₂, -⟩ := Handle.withContext_laid hcontext₁ (hmade ys)
    have hturns : turns.handle (k + 1) = .enabled u := by
      have hlength : first.handles.length = k + 1 := List.length_append
      rw [← hu, ← hfirst, ← hlength]
      exact first.handle_extend k ys
    have hboth : w.Laid maps u := by
      simpa only [maps, List.map_append] using hlaid₁.trans hlaid₂
    refine ⟨v, u, ?_, hturns, hlaid, hboth, hboth.entries.trans hlaid.entries.symm, hisOf.firsts,
      hisOf.get?, ?_⟩
    · rw [honce, ← hv, ← hw]
    · intro hempty before m after hsplit hothers
      rw [hsplit] at hmaps hmerged
      simp only [List.forall_mem_append, List.forall_mem_cons] at hmaps
      obtain ⟨hbefore, hm, hafter⟩ := hmaps
      rw [hmerged]
      exact hcontext.made.mergeAll_single hm (List.forall_mem_append.2 ⟨hbefore, hafter⟩) hothers
        hempty _

/-- A handle without context, and two maps of which the second has a key of the first. -/
theorem contexts_of_a_warning :
    let s := start.after [.publish (.initial none), .select 0 .warn, .add 0 [("a", .null)],
      .add 0 [("b", .bool true), ("a", .str "x")]]
    (∃ v u, (s.after [.extend 1 [0, 1, 2]]).handle 2 = .enabled v ∧
      (s.after [.extend 1 [0, 1], .extend 2 [2]]).handle 3 = .enabled u ∧
      v.severity = .warn ∧ v.context.entries = [("a", .str "x"), ("b", .bool true)] ∧
      u.context.entries = v.context.entries) ∧
    (s.after [.extend 1 [0, 0]]).handle 2 = s.handle 1 ∧
    ∃ v, (s.after [.extend 1 [0, 2, 0]]).handle 2 = .enabled v ∧ v.context = s.map 2 := by
  intro s
  have hadd := contexts_add_up [.publish (.initial none), .select 0 .warn, .add 0 [("a", .null)],
    .add 0 [("b", .bool true), ("a", .str "x")]] 1
  have hwarn : s.handle 1 = .enabled ⟨1, .warn, .empty, none, .initial none⟩ := rfl
  obtain ⟨hboth, -⟩ := hadd [0, 1] [2]
  obtain ⟨v, u, hv, hu, hlaid, -, hentries, -⟩ := hboth _ hwarn
  obtain ⟨-, -, hitself, -⟩ := hadd [0] [0]
  obtain ⟨hsingle, -⟩ := hadd [0, 2] [0]
  obtain ⟨v', -, hv', -, -, -, -, -, -, hcontext⟩ := hsingle _ hwarn
  refine ⟨⟨v, u, hv, hu, hlaid.severity, hlaid.entries, hentries⟩, ?_, v', hv', ?_⟩
  · exact hitself (.inr (List.forall_mem_cons.2 ⟨rfl, List.forall_mem_singleton.2 rfl⟩))
  · exact hcontext rfl [.empty] _ [.empty] rfl
      (List.forall_mem_cons.2 ⟨rfl, List.forall_mem_singleton.2 rfl⟩)

end Logline
