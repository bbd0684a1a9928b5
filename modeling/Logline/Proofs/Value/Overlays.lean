import Logline.Proofs.Line.Endings
import Logline.Proofs.Value.Merging

/-!
Maps laid over each other. However a map was made, it holds what some pairs say one after the other
(`Pairs.Made.isOf`), and to lay another over it is to say the pairs of that one behind them
(`Pairs.entries_merge`). So it makes no difference in which order maps are put together, nor whether
pairs come in a map of their own, all at once or in turns (`maps_add_up`).
-/

namespace Logline

namespace Pairs

variable {α : Type} {p q : Pairs α} {es new more : List (String × α)} {key : String}

/-! ### What two maps come to -/

/-- Pairs with keys that are all different put behind the keys that are there those that are new. -/
theorem keys_insertAll (es : List (String × α)) (h : (new.map Prod.fst).Nodup) :
    (insertAll es new).map Prod.fst =
      es.map Prod.fst ++ (new.map Prod.fst).filter (· ∉ es.map Prod.fst) := by
  induction new using List.reverseRecOn with
  | nil => exact (List.append_nil _).symm
  | append_singleton new e ih =>
    rw [List.map_append] at h
    obtain ⟨hnew, -, hlast⟩ := List.nodup_append.1 h
    have hfresh : e.1 ∉ new.map Prod.fst := fun he => hlast _ he _ (List.mem_singleton_self _) rfl
    rw [insertAll_snoc, keys_insert, ih hnew, List.map_append, List.filter_append]
    by_cases he : e.1 ∈ es.map Prod.fst
    · rw [if_pos (List.mem_append_left _ he)]
      simp [he]
    · have hnot : e.1 ∉ es.map Prod.fst ++ (new.map Prod.fst).filter (· ∉ es.map Prod.fst) := by
        rw [List.mem_append, List.mem_filter]
        exact fun hmem => hmem.elim he fun hmem => hfresh hmem.1
      rw [if_neg hnot, List.append_assoc]
      simp [he]

/-- The short cuts for empty maps make no difference in the pairs. -/
theorem entries_merge (hp : p.entries = insertAll [] new) (hq : q.entries = insertAll [] more)
    (stamp : Nat) : (p.merge stamp q).entries = insertAll [] (new ++ more) := by
  have hboth : insertAll p.entries q.entries = insertAll [] (new ++ more) := by
    rw [hp, hq, insertAll_insertAll, insertAll_append]
  rw [← hboth]
  unfold merge
  split
  · next hempty =>
    rw [List.isEmpty_iff.1 hempty, hq, insertAll_insertAll]
  · split
    · next hempty =>
      rw [List.isEmpty_iff.1 hempty]
      rfl
    · rfl

namespace IsOf

theorem get?_merge (h : p.IsOf new) (hq : q.IsOf more) (stamp : Nat) (key : String) :
    (p.merge stamp q).get? key = (q.get? key).or (p.get? key) := by
  rw [h.get?, hq.get?, Pairs.get?, entries_merge h.entries hq.entries, lookup_insertAll,
    List.reverse_append, List.lookup_append]
  exact Option.or_none

theorem isEmpty (h : p.IsOf []) : p.isEmpty = true := List.isEmpty_iff.2 h.entries

theorem keys_merge (h : p.IsOf new) (hq : q.IsOf more) (stamp : Nat) :
    (p.merge stamp q).keys = p.keys ++ q.keys.filter (· ∉ p.keys) := by
  have hnodup : (q.entries.map Prod.fst).Nodup := hq.firsts.nodup
  rw [keys, keys, keys, entries_merge h.entries hq.entries, insertAll_append, ← h.entries,
    ← insertAll_insertAll, ← hq.entries, keys_insertAll _ hnodup]

end IsOf

/-! ### Maps that are made -/

/-- The empty map, and all that comes of adding pairs to a map and of merging two. A map that is made
anew gets a stamp of its own, which is never that of the empty one. -/
inductive Made : Pairs α → Prop
  | empty : Made .empty
  | add {p : Pairs α} (hp : Made p) (stamp : Nat) (new : List (String × α)) :
      Made (p.add (stamp + 1) new)
  | merge {p q : Pairs α} (hp : Made p) (hq : Made q) (stamp : Nat) : Made (p.merge (stamp + 1) q)

namespace Made

theorem isOf (h : p.Made) : ∃ given, p.IsOf given := by
  induction h with
  | empty => exact ⟨[], .empty⟩
  | add _ stamp new ih =>
    obtain ⟨given, hgiven⟩ := ih
    exact ⟨given ++ new, hgiven.add stamp new⟩
  | merge _ _ stamp ihp ihq =>
    obtain ⟨given, hgiven⟩ := ihp
    obtain ⟨more, hmore⟩ := ihq
    exact ⟨given ++ more, hgiven.merge hmore stamp⟩

/-- There is only one empty map. -/
theorem eq_empty (h : p.Made) (hempty : p.isEmpty = true) : p = .empty := by
  induction h with
  | empty => rfl
  | add hp stamp new ih =>
    obtain ⟨given, hgiven⟩ := hp.isOf
    have hnone := (hgiven.add stamp new).nil_of_isEmpty hempty
    obtain rfl : new = [] := (List.append_eq_nil_iff.1 hnone).2
    exact ih hempty
  | @merge p q hp hq stamp _ ihq =>
    obtain ⟨given, hgiven⟩ := hp.isOf
    obtain ⟨more, hmore⟩ := hq.isOf
    have hnone := (hgiven.merge hmore stamp).nil_of_isEmpty hempty
    obtain ⟨rfl, rfl⟩ := List.append_eq_nil_iff.1 hnone
    rw [Pairs.merge, if_pos hgiven.isEmpty, ihq hmore.isEmpty]

end Made

end Pairs

/-! ### Pairs given one after the other -/

theorem runActs_append (acts more : List Act) (thread : Thread) (t : Trail) :
    runActs (acts ++ more) thread t = runActs more thread (runActs acts thread t) := by
  induction acts generalizing t with
  | nil => rfl
  | cons a rest ih =>
    by_cases hgo : t.goesOn
    · rw [List.cons_append, runActs, if_pos hgo, ih, runActs, if_pos hgo]
    · rw [runActs_of_not_goesOn hgo, runActs_of_not_goesOn hgo, runActs_of_not_goesOn hgo]

namespace Run

variable {σ : Type} {p : Program σ} {a : Pairs Value} {tokens : List Value}

theorem tokenPairs_append (heven : tokens.length % 2 = 0) (more : List Value) :
    tokenPairs (tokens ++ more) = tokenPairs tokens ++ tokenPairs more := by
  fun_induction tokenPairs tokens with
  | case1 => rfl
  | case2 k => simp at heven
  | case3 k v rest ih =>
    have hrest : rest.length % 2 = 0 := by simp only [List.length_cons] at heven; omega
    exact congrArg ((k.keyText, v) :: ·) (ih hrest)

theorem tokenKeys_append (heven : tokens.length % 2 = 0) (more : List Value) :
    tokenKeys (tokens ++ more) = tokenKeys tokens ++ tokenKeys more := by
  fun_induction tokenKeys tokens with
  | case1 => rfl
  | case2 k => simp at heven
  | case3 k v rest ih =>
    have hrest : rest.length % 2 = 0 := by simp only [List.length_cons] at heven; omega
    exact congrArg (k :: ·) (ih hrest)

/-- What the keys have done to give their texts. -/
def asked (p : Program σ) (tokens : List Value) : Trail :=
  runActs ((tokenKeys tokens).flatMap fun k => (k.writing p.now).keyActs ())
    ⟨p.wrappers, false, false⟩ ⟨p.latest, none⟩

theorem asked_append (heven : tokens.length % 2 = 0) (more : List Value) :
    asked p (tokens ++ more) =
      runActs ((tokenKeys more).flatMap fun k => (k.writing p.now).keyActs ())
        ⟨p.wrappers, false, false⟩ (asked p tokens) := by
  rw [asked, tokenKeys_append heven, List.flatMap_append, runActs_append]
  rfl

/-- A key whose text is not come to stops the program before there is a map. -/
theorem addTokens_of_stop {s : Stop} (h : (asked p tokens).stop = some s) :
    (addTokens a tokens).run.run p = (.error s, { p with latest := (asked p tokens).latest }) := by
  have hrun := run_perform ((tokenKeys tokens).flatMap fun k => (k.writing p.now).keyActs ()) p
  rw [← asked, h] at hrun
  rw [addTokens, Updates.run_bind (run_get p)]
  exact Updates.run_bind_error hrun _

theorem addTokens_of_none (h : (asked p tokens).stop = none) :
    (addTokens a tokens).run.run p =
      (.ok (a.add (p.stamps + 1) (tokenPairs tokens)),
        { p with latest := (asked p tokens).latest, stamps := p.stamps + 1 }) := by
  have hrun := run_perform ((tokenKeys tokens).flatMap fun k => (k.writing p.now).keyActs ()) p
  rw [← asked, h] at hrun
  rw [addTokens, Updates.run_bind (run_get p), Updates.run_bind hrun, Updates.run_bind (run_fresh _)]
  rfl

/-- Keys whose code neither panics nor writes lines where it is asked for the text of another key all
give their texts. -/
theorem asked_calm {m : Manner} (hm : m.panics = false) (hlines : m.keyLines = false)
    (hcode : ∀ k ∈ tokenKeys tokens, ∀ x ∈ k.parts, x.Behaves p.now m) :
    (asked p tokens).stop = none := by
  have htame : Acts.Tame m
      ((tokenKeys tokens).flatMap fun k => (k.writing p.now).keyActs ()) := by
    refine Acts.tame_iff.2 fun act hact => ?_
    obtain ⟨k, hk, hact⟩ := List.mem_flatMap.1 hact
    obtain ⟨x, hx, code, hx?, hmem⟩ := (Value.textActs_of_parts k).1 act hact
    exact Acts.tame_iff.1 (hcode k hk x hx code (Value.mem_codes_of_text hx?)) act hmem
  have hcalm : (asked p tokens).Calm m :=
    runActs_calm _ _ _ htame (fun _ _ => rfl) (.inl rfl)
  rcases hcalm.cases_of_not_panics hm with hnone | ⟨hkeys, -⟩
  · exact hnone
  · exact absurd (hkeys.symm.trans hlines) (by simp)

/-- Two ways to make a map do the same, and where they come to their end the maps hold the same pairs
in the same order; each may have taken stamps of its own. -/
def SamePairs (x y : Run σ (Pairs Value)) : Prop :=
  ∀ p, (x.run.run p).1.map Pairs.entries = (y.run.run p).1.map Pairs.entries ∧
    ∃ stamps, (y.run.run p).2 = { (x.run.run p).2 with stamps }

/-- Pairs may come in a map of their own. -/
theorem addTokens_samePairs_merge {given : List (String × Value)} (ha : a.IsOf given)
    (tokens : List Value) :
    SamePairs (σ := σ) (addTokens a tokens)
      (do let m ← ofTokens tokens; return a.merge (← fresh) m) := by
  intro p
  cases hstop : (asked p tokens).stop with
  | some s =>
    have hown : (ofTokens tokens).run.run p = _ := addTokens_of_stop hstop
    rw [addTokens_of_stop hstop, Updates.run_bind_error hown]
    exact ⟨rfl, p.stamps, rfl⟩
  | none =>
    have hown : (ofTokens tokens).run.run p = _ := addTokens_of_none hstop
    rw [addTokens_of_none hstop, Updates.run_bind hown, Updates.run_bind (run_fresh _)]
    refine ⟨congrArg Except.ok ?_, p.stamps + 1 + 1, rfl⟩
    have hnew := Pairs.IsOf.empty.add p.stamps (tokenPairs tokens)
    calc (a.add (p.stamps + 1) (tokenPairs tokens)).entries
        = Pairs.insertAll [] (given ++ tokenPairs tokens) := (ha.add p.stamps _).entries
      _ = (a.merge (p.stamps + 1 + 1) (.add (p.stamps + 1) .empty (tokenPairs tokens))).entries :=
        (ha.merge hnew (p.stamps + 1)).entries.symm

/-- Pairs may come in turns, if no key is parted from its value. -/
theorem addTokens_samePairs_addTokens {given : List (String × Value)} (ha : a.IsOf given)
    (heven : tokens.length % 2 = 0) (more : List Value) :
    SamePairs (σ := σ) (addTokens a (tokens ++ more))
      (do addTokens (← addTokens a tokens) more) := by
  intro p
  have hasked := asked_append (p := p) heven more
  cases hstop : (asked p tokens).stop with
  | some s =>
    -- the first keys stop the program, whatever keys come behind them
    have hstays : asked p (tokens ++ more) = asked p tokens := by
      rw [hasked, runActs_of_not_goesOn (by simp [Trail.goesOn, hstop])]
    rw [addTokens_of_stop (by rw [hstays, hstop]), hstays,
      Updates.run_bind_error (addTokens_of_stop hstop)]
    exact ⟨rfl, p.stamps, rfl⟩
  | none =>
    have hfirst := addTokens_of_none (a := a) hstop
    set q : Program σ := { p with latest := (asked p tokens).latest, stamps := p.stamps + 1 } with hq
    have hsecond : asked q more = asked p (tokens ++ more) := by
      rw [hasked, asked, hq, ← hstop]
    rw [Updates.run_bind hfirst]
    cases hlast : (asked q more).stop with
    | some s =>
      rw [addTokens_of_stop hlast, addTokens_of_stop (hsecond ▸ hlast), hsecond]
      exact ⟨rfl, p.stamps + 1, rfl⟩
    | none =>
      rw [addTokens_of_none hlast, addTokens_of_none (hsecond ▸ hlast), hsecond]
      refine ⟨congrArg Except.ok ?_, p.stamps + 1 + 1, rfl⟩
      rw [tokenPairs_append heven]
      calc (a.add (p.stamps + 1) (tokenPairs tokens ++ tokenPairs more)).entries
          = Pairs.insertAll [] (given ++ (tokenPairs tokens ++ tokenPairs more)) :=
            (ha.add p.stamps _).entries
        _ = Pairs.insertAll [] (given ++ tokenPairs tokens ++ tokenPairs more) := by
          rw [List.append_assoc]
        _ = ((a.add (p.stamps + 1) (tokenPairs tokens)).add (q.stamps + 1) (tokenPairs more)).entries :=
            ((ha.add p.stamps _).add q.stamps _).entries.symm

end Run

open Run

/-- **Maps add up.** It makes no difference which two of three maps are merged first, or whether pairs
are added to a map at once, as a map of their own, or in turns. A merged map has the values of the second
where it has a key and else those of the first, its keys are those of the first and then the new ones of
the second, and where one of the two is empty it is the other one, the very instance. Code that gives
the texts of keys runs in the same order in all these ways. -/
theorem maps_add_up {σ : Type} {a b c : Pairs Value} (ha : a.Made) (hb : b.Made) (hc : c.Made)
    (tokens more : List Value) :
    (∀ i j k l, (a.merge i (b.merge j c)).entries = ((a.merge k b).merge l c).entries) ∧
      SamePairs (σ := σ) (addTokens a tokens)
        (do let m ← ofTokens tokens; return a.merge (← fresh) m) ∧
      (tokens.length % 2 = 0 →
        SamePairs (σ := σ) (addTokens a (tokens ++ more)) (do addTokens (← addTokens a tokens) more)) ∧
      (∀ stamp key, (a.merge stamp b).get? key = (b.get? key).or (a.get? key)) ∧
      (∀ stamp, (a.merge stamp b).keys = a.keys ++ b.keys.filter (· ∉ a.keys)) ∧
      (b.isEmpty → ∀ stamp, a.merge stamp b = a ∧ b.merge stamp a = a) ∧
      ∀ (p : Program σ) (m : Manner), m.panics = false → m.keyLines = false →
        (∀ k ∈ tokenKeys tokens, ∀ x ∈ k.parts, x.Behaves p.now m) →
        ∃ made q, (addTokens a tokens).run.run p = (.ok made, q) ∧ made.Made := by
  obtain ⟨as, has⟩ := ha.isOf
  obtain ⟨bs, hbs⟩ := hb.isOf
  obtain ⟨cs, hcs⟩ := hc.isOf
  refine ⟨fun i j k l => ?_, addTokens_samePairs_merge has tokens,
    fun heven => addTokens_samePairs_addTokens has heven more, has.get?_merge hbs,
    has.keys_merge hbs, fun hempty stamp => ⟨?_, if_pos hempty⟩, fun p m hm hlines hcode => ?_⟩
  · calc (a.merge i (b.merge j c)).entries
        = Pairs.insertAll [] (as ++ (bs ++ cs)) :=
          Pairs.entries_merge has.entries (Pairs.entries_merge hbs.entries hcs.entries j) i
      _ = Pairs.insertAll [] (as ++ bs ++ cs) := by rw [List.append_assoc]
      _ = ((a.merge k b).merge l c).entries :=
          (Pairs.entries_merge (Pairs.entries_merge has.entries hbs.entries k) hcs.entries l).symm
  · unfold Pairs.merge
    by_cases hae : a.isEmpty = true
    · rw [if_pos hae, hb.eq_empty hempty, ha.eq_empty hae]
    · rw [if_neg hae, if_pos hempty]
  · exact ⟨_, _, addTokens_of_none (asked_calm hm hlines hcode), ha.add p.stamps _⟩

/-- Two maps have a key in common and a third one changes a pair; then a pair is added whose key has
code that takes its time, and a key alone. -/
theorem overlapping_maps_add_up :
    let a : Pairs Value := Pairs.empty.add 1 [("k", .str "1"), ("l", .str "2")]
    let b : Pairs Value := Pairs.empty.add 2 [("m", .str "3"), ("k", .str "4")]
    let c : Pairs Value := Pairs.empty.add 3 [("l", .null)]
    let tokens : List Value := [.lazy ⟨1, [.slow], none⟩ (.str "m"), .str "5"]
    let p : Program Unit :=
      ⟨none, fun _ => none, fun _ => ⟨2026, 1, 1, 12, 0, 0, 0⟩, none, .empty, 0, 3, [], ()⟩
    (a.merge 4 (b.merge 5 c)).entries = ((a.merge 6 b).merge 7 c).entries ∧
      (a.merge 4 b).keys = ["k", "l", "m"] ∧ (a.merge 4 b).get? "k" = some (.str "4") ∧
      SamePairs (σ := Unit) (addTokens a (tokens ++ [.str "m"]))
        (do addTokens (← addTokens a tokens) [.str "m"]) ∧
      a.merge 8 .empty = a ∧ ∃ made q, (addTokens a tokens).run.run p = (.ok made, q) ∧ made.Made := by
  intro a b c tokens p
  have ha : a.Made := .add .empty 0 _
  have hb : b.Made := .add .empty 1 _
  have hc : c.Made := .add .empty 2 _
  obtain ⟨hassoc, -, hturns, hget, hkeys, -, hmade⟩ :=
    maps_add_up (σ := Unit) ha hb hc tokens [.str "m"]
  obtain ⟨-, -, -, -, -, hempty, -⟩ := maps_add_up (σ := Unit) ha .empty hc [] []
  refine ⟨hassoc 4 5 6 7, ?_, ?_, hturns (by simp [tokens]), (hempty rfl 8).1,
    hmade p ⟨true, false, false, false⟩ rfl rfl ?_⟩
  · rw [hkeys]
    decide
  · rw [hget]
    rfl
  · simp [tokens, tokenKeys, Value.parts, Value.Behaves, Value.codes, Value.writtenCodes,
      Value.textCode?, codeActs, effectsActs, effectActs, Acts.Tame, Act.Tame]

end Logline
