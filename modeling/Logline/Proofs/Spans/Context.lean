import Logline.Proofs.Spans.Tree

/-!
The context of events. Whenever spans around an event were made and recorded on, its line has as its
context what was recorded on all of them, one span after the other from the outermost in, as a map
made of these pairs at once would have it (`context_of_event`). So it is over every registry that keeps
its laws.
-/

namespace Logline

open Recording Node
open Registry (resolve)

/-- Pairs that hold what is given and nothing else: all that is given at once makes the same map, in
which each key stands where it was given first, with the value it was given last. -/
structure Pairs.HoldsJust (c : Pairs Value) (given : List (String × Value)) : Prop where
  made : ∀ {σ : Type} (p : Program σ), ∃ map q,
    (Run.ofTokens (Value.tokensOf given)).run.run p = (.ok map, q) ∧ c.entries = map.entries
  firsts : FirstsOf (given.map Prod.fst) c.keys
  get? : ∀ key, c.get? key = given.reverse.lookup key

namespace Pairs.IsOf

variable {c : Pairs Value} {given : List (String × Value)}

theorem holdsJust (h : c.IsOf given) : c.HoldsJust given where
  made p := ⟨_, _, Run.run_addTokens .empty given p,
    h.entries.trans (IsOf.empty.add p.stamps given).entries.symm⟩
  firsts := h.firsts
  get? := h.get?

theorem merge_all {nodes : List Node} {around : List (Pairs Value)} (h : c.IsOf given) (stamp : Nat)
    (haround : List.Forall₂ (fun n pairs => Pairs.IsOf pairs (Node.given n)) nodes around) :
    (around.foldl (fun ps pairs => ps.merge (stamp + 1) pairs) c).IsOf
      (given ++ nodes.flatMap Node.given) := by
  induction haround generalizing c given with
  | nil => simpa using h
  | cons hpairs _ ih =>
    rw [List.flatMap_cons, ← List.append_assoc]
    exact ih (h.merge hpairs stamp)

end Pairs.IsOf

/-- What an event says itself. -/
def Recording.form (r : Recording) : Form Value :=
  match r.message with
  | some m => .messageMap m r.tokens
  | none => .map r.tokens

namespace EventLayer

variable {σ : Type} {l : EventLayer} {level : EventLevel} {p q : Program σ}

/-- A layer's handles bring no context and no module along. -/
theorem writer_of_handle {w : Writer Value}
    (h : (l.handle level).run.run p = (.ok (.enabled w), q)) :
    w.severity = level.severity ∧ w.context = .empty ∧ w.module = none := by
  have hsnapshot : ∀ s : Snapshot, s.handle level.severity = .enabled w →
      w.severity = level.severity ∧ w.context = .empty ∧ w.module = none := by
    intro s hs
    unfold Snapshot.handle at hs
    split at hs
    · cases hs
      exact ⟨rfl, rfl, rfl⟩
    · cases hs
  unfold handle at h
  cases hl : l.snapshot with
  | some s =>
    rw [hl] at h
    exact hsnapshot s (Except.ok.inj (Prod.mk.inj h).1)
  | none =>
    rw [hl] at h
    rcases hrun : (Run.snapshot : Run σ Snapshot).run.run p with ⟨s | s, r⟩
    · rw [Updates.run_bind_error hrun] at h
      cases h
    · rw [Updates.run_bind hrun] at h
      exact hsnapshot s (Except.ok.inj (Prod.mk.inj h).1)

/-- The writer of an event's line: that of the layer, with a context and the target. -/
structure Writes (l : EventLayer) (level : EventLevel) (target : String) (w line : Writer Value) :
    Prop where
  severity : line.severity = level.severity
  settings : line.settings = w.settings
  module : line.module = if l.withTarget ∧ target ≠ "" then some target else none

/-- A context for a handle without one, which stays the same if there is nothing to add. -/
theorem withContext_of_isOf {w : Writer Value} (hw : w.context = .empty) {c : Pairs Value}
    {given : List (String × Value)} (hc : c.IsOf given) (stamp : Nat) :
    ∃ line, Handle.withContext stamp (.enabled w) [c] = .enabled line ∧ line.context.IsOf given ∧
      line.severity = w.severity ∧ line.settings = w.settings ∧ line.module = w.module := by
  have hmerge : [c].foldl (Pairs.merge stamp) w.context = c := by
    rw [hw]
    rfl
  rw [Handle.withContext, hmerge]
  split
  · next hsame =>
    have hstamp : c.stamp = 0 := by simpa [Pairs.same, hw, Pairs.empty] using hsame
    refine ⟨w, rfl, ?_, rfl, rfl, rfl⟩
    rw [hw, hc.stamp hstamp]
    exact .empty
  · exact ⟨_, rfl, hc, rfl, rfl, rfl⟩

theorem run_event {w : Writer Value} {nodes : List Node} {around : List (Pairs Value)}
    (h : (l.handle level).run.run p = (.ok (.enabled w), q))
    (haround : List.Forall₂ (fun n pairs => Pairs.IsOf pairs (Node.given n)) nodes around)
    (target : String) (fields : List (String × FieldValue)) :
    ∃ line, l.Writes level target w line ∧ line.context.IsOf (nodes.flatMap Node.given) ∧
      (l.event level target around fields).run.run p =
        (Run.writeForm (.enabled line) (ofFields fields).form).run.run
          { q with stamps := q.stamps + 3 } := by
  obtain ⟨hseverity, hcontext, hmodule⟩ := writer_of_handle h
  have hmerged := Pairs.IsOf.empty.merge_all (q.stamps + 1) haround
  obtain ⟨line, hline, hgiven, hsame⟩ := withContext_of_isOf hcontext hmerged (q.stamps + 1)
  have hrun : (l.event level target around fields).run.run p =
      (Run.writeForm (if l.withTarget then (Handle.enabled line).withModule (q.stamps + 3) target
        else .enabled line) (ofFields fields).form).run.run { q with stamps := q.stamps + 3 } := by
    rw [← hline]
    exact Updates.run_bind h _
  rw [hrun]
  cases htarget : l.withTarget with
  | true =>
    refine ⟨{ line with stamp := q.stamps + 3, module := if target = "" then none else some target },
      ⟨hsame.1.trans hseverity, hsame.2.1, ?_⟩, hgiven, rfl⟩
    by_cases hempty : target = "" <;> simp [htarget, hempty]
  | false =>
    refine ⟨line, ⟨hsame.1.trans hseverity, hsame.2.1, ?_⟩, hgiven, rfl⟩
    simp [htarget, hsame.2.2, hmodule]

end EventLayer

/-- **The context of an event's line is what was recorded around it.** Whatever was done to spans, all
recordings on those around the event count, span by span from the outermost in and on each of them in
the order in which they were made. What an inner span was given hides what an outer one was given,
even later. The line is written by the layer's handle, with nothing else added than the target, and
says what the event's own fields say. -/
theorem context_of_event {σ R : Type} [Registry R] (laws : Registry.Lawful R)
    {layers : List EventLayer} (hlayers : layers ≠ []) {r : R} {tree : List Node}
    (h : Grown σ layers r tree) (parent : Parent) (l : EventLayer) (level : EventLevel)
    (target : String) (fields : List (String × FieldValue)) (p : Program σ) :
    let around := path tree (resolve r parent)
    let event : Run σ Unit := l.event level target (Registry.pairsAround r parent) fields
    match (l.handle level).run.run p with
    | (.error e, q) => event.run.run p = (.error e, q)
    | (.ok .disabled, q) => event.run.run p = (.ok (), q)
    | (.ok (.enabled w), q) => ∃ line : Writer Value,
        event.run.run p = (Run.writeForm (.enabled line) (ofFields fields).form).run.run
          { q with stamps := q.stamps + 3 } ∧
        l.Writes level target w line ∧ line.context.HoldsJust (around.flatMap Node.given) ∧
        ∀ outer inner, around = outer ++ inner → ∀ key v,
          (inner.flatMap Node.given).reverse.lookup key = some v → line.context.get? key = some v := by
  intro around event
  split
  · next e q hrun => exact Updates.run_bind_error hrun _
  · next q hrun => exact Updates.run_bind hrun _
  · next w q hrun =>
    have htold := (h.tells laws hlayers).pairsAround_path laws parent
    obtain ⟨line, hwrites, hcontext, hevent⟩ := EventLayer.run_event hrun htold target fields
    refine ⟨line, hevent, hwrites, hcontext.holdsJust, fun outer inner haround key v hv => ?_⟩
    rw [hcontext.get? key]
    show (around.flatMap Node.given).reverse.lookup key = some v
    rw [haround, List.flatMap_append, List.reverse_append, List.lookup_append, hv]
    rfl

/-- A field of the outer span that is recorded late comes behind the one it was made with, which the
inner span hides even when the outer span is given another value for it. -/
theorem inner_span_hides_outer :
    let p : Program Unit :=
      ⟨none, fun _ => none, fun _ => ⟨2026, 1, 1, 12, 0, 0, 0⟩, none, .empty, 0, 0, [], ()⟩
    let number (n : Nat) : FieldValue := .value (.int (.ofNat n))
    let l : EventLayer := ⟨some ⟨0, .initial none⟩, false⟩
    ∃ (r : Spans) (tree : List Node) (line : Writer Value) (q : Program Unit),
      Grown Unit [l] r tree ∧
      (path tree (r.resolve .current)).map Node.recordings =
        [[[("a", number 1)], [("b", .text "late"), ("a", number 3)]], [[("a", number 2)]]] ∧
      (l.event .error "main" (Registry.pairsAround r .current) [("message", .text "done")]).run.run p =
        (Run.writeForm (.enabled line) (.messageMap "done" [])).run.run q ∧
      line.context.keys = ["a", "b"] ∧ line.context.get? "a" = some (.int (.ofNat 2)) ∧
      line.context.get? "b" = some (.str "late") := by
  intro p number l
  have hstart : Grown Unit [l] Spans.empty [] := .start
  have houter := hstart.newSpan .root nofun ["a", "b"] [("a", number 1)] (p := p) rfl
  have hinner := (houter.enter 0).newSpan .current nofun ["a"] [("a", number 2)]
    (p := { p with stamps := 1 }) rfl
  have hlate := (hinner.enter 1).record 0 [("b", .text "late"), ("a", number 3)]
    (p := { p with stamps := 2 }) rfl
  let pairs : List (String × Value) :=
    [("a", .int (.ofNat 1)), ("b", .str "late"), ("a", .int (.ofNat 3)), ("a", .int (.ofNat 2))]
  obtain ⟨line, hrun, -, hjust, -⟩ := context_of_event Spans.lawful (by simp) hlate .current
    l .error "main" [("message", .text "done")] p
  have hline : line.context.HoldsJust pairs := hjust
  refine ⟨_, _, line, _, hlate, rfl, hrun, ?_, ?_, ?_⟩
  · rw [hline.firsts.unique (firstsOf_eraseDups _)]
    decide
  · rw [hline.get?]
    rfl
  · rw [hline.get?]
    rfl

end Logline
