import Logline.Layers
import Logline.Proofs.Settings.Runs
import Logline.Proofs.Value.Merging

/-!
What fields come to as pairs. Of one recording the messages count first, then all other fields in
their order (`Recording.counted`). A map made of them, or one they are added to, runs no code of callers
and always comes to its end (`run_addTokens`).
-/

namespace Logline

/-- Pairs as alternating keys and values. -/
def Value.tokensOf (pairs : List (String × Value)) : List Value :=
  pairs.flatMap fun e => [.str e.1, e.2]

namespace FieldValue

/-- What a field is in a pair. -/
def asValue : FieldValue → Value
  | .text s => .str s
  | .shown s => .str s
  | .error s => .str s
  | .value v => v

/-- What may be a message. -/
def message? : FieldValue → Option String
  | .text s => some s
  | .shown s => some s
  | .error _ => none
  | .value _ => none

end FieldValue

namespace Recording

open Value (tokensOf)

def isMessage (f : String × FieldValue) : Bool := f.1 = messageName && f.2.message?.isSome

def asPair (f : String × FieldValue) : String × Value := (f.1, f.2.asValue)

/-- The pairs of one recording, in the order in which they count. -/
def counted (fields : List (String × FieldValue)) : List (String × Value) :=
  (fields.filter isMessage ++ fields.filter (!isMessage ·)).map asPair

variable {f : String × FieldValue}

theorem eq_of_isMessage (h : isMessage f = true) :
    ∃ text, f.1 = messageName ∧ f.2.message? = some text ∧ f.2.asValue = .str text := by
  obtain ⟨name, v⟩ := f
  obtain ⟨hname, hv⟩ : name = messageName ∧ v.message?.isSome = true := by simpa [isMessage] using h
  cases v with
  | text s => exact ⟨s, hname, rfl, rfl⟩
  | shown s => exact ⟨s, hname, rfl, rfl⟩
  | error s => exact absurd hv Bool.false_ne_true
  | value v => exact absurd hv Bool.false_ne_true

theorem visit_eq (f : String × FieldValue) (r : Recording) :
    r.visit f.1 f.2 = if isMessage f then { r with message := f.2.message? }
      else { r with tokens := r.tokens ++ tokensOf [asPair f] } := by
  obtain ⟨name, v⟩ := f
  by_cases hname : name = messageName <;> cases v <;>
    simp [Recording.visit, isMessage, FieldValue.message?, hname] <;> rfl

/-- The last message is kept, with the pairs of all other fields. -/
theorem ofFields_eq (fields : List (String × FieldValue)) :
    ofFields fields =
      ⟨(fields.filter isMessage).getLast?.bind fun f => f.2.message?,
        tokensOf ((fields.filter (!isMessage ·)).map asPair)⟩ := by
  induction fields using List.reverseRecOn with
  | nil => rfl
  | append_singleton fields f ih =>
    have hsnoc : ofFields (fields ++ [f]) = (ofFields fields).visit f.1 f.2 := by
      simp [ofFields]
    rw [hsnoc, ih, List.filter_append, List.filter_append]
    cases hf : isMessage f with
    | true => simp [visit_eq, hf]
    | false => simp [visit_eq, hf, tokensOf]

end Recording

open Recording

/-! ### Tokens -/

namespace Run

open Value (tokensOf)

theorem tokenPairs_tokensOf (pairs : List (String × Value)) : tokenPairs (tokensOf pairs) = pairs := by
  induction pairs with
  | nil => rfl
  | cons e rest ih =>
    show (e.1, e.2) :: tokenPairs (tokensOf rest) = e :: rest
    rw [ih]

theorem tokenKeys_tokensOf (pairs : List (String × Value)) :
    tokenKeys (tokensOf pairs) = pairs.map fun e => .str e.1 := by
  induction pairs with
  | nil => rfl
  | cons e rest ih =>
    show Value.str e.1 :: tokenKeys (tokensOf rest) = _
    rw [ih]
    rfl

variable {σ : Type}

/-- Keys that are texts need no code to be run. -/
theorem run_addTokens (ps : Pairs Value) (pairs : List (String × Value)) (p : Program σ) :
    (addTokens ps (tokensOf pairs)).run.run p =
      (.ok (ps.add (p.stamps + 1) pairs), { p with stamps := p.stamps + 1 }) := by
  have hquiet : (tokenKeys (tokensOf pairs)).flatMap (fun k => (k.writing p.now).keyActs ()) = [] := by
    rw [tokenKeys_tokensOf, List.flatMap_map]
    exact List.flatMap_eq_nil_iff.2 fun _ _ => rfl
  rw [addTokens, Updates.run_bind (run_get p)]
  dsimp only
  rw [hquiet, Updates.run_bind (run_perform [] p), tokenPairs_tokensOf]
  rfl

end Run

/-! ### Recordings -/

namespace Recording

/-- Of messages in a row only the last one shows. -/
theorem insertAll_messages (es : List (String × Value)) (messages : List (String × FieldValue))
    (h : ∀ f ∈ messages, f.1 = messageName) :
    Pairs.insertAll es (messages.map asPair) =
      Pairs.insertAll es (messages.getLast?.toList.map asPair) := by
  induction messages using List.reverseRecOn with
  | nil => rfl
  | append_singleton messages f ih =>
    have hf : f.1 = messageName := h f (by simp)
    have hbefore := ih fun g hg => h g (List.mem_append_left _ hg)
    rw [List.map_append, List.getLast?_concat, Pairs.insertAll_append, hbefore]
    cases hlast : messages.getLast? with
    | none => rfl
    | some g =>
      have hg : g.1 = messageName := h g (List.mem_append_left _ (List.mem_of_getLast? hlast))
      show Pairs.insert f.1 f.2.asValue (Pairs.insert g.1 g.2.asValue es) = Pairs.insert f.1 f.2.asValue es
      rw [hf, hg, Pairs.insert_insert_self]

/-- The pairs of a recording as its tokens have them. -/
def pairs (fields : List (String × FieldValue)) : List (String × Value) :=
  ((fields.filter isMessage).getLast?.toList ++ fields.filter (!isMessage ·)).map asPair

theorem allTokens_ofFields (fields : List (String × FieldValue)) :
    (ofFields fields).allTokens = Value.tokensOf (pairs fields) := by
  rw [ofFields_eq, pairs]
  cases hlast : (fields.filter isMessage).getLast? with
  | none => rfl
  | some f =>
    have hf : isMessage f = true := (List.mem_filter.1 (List.mem_of_getLast? hlast)).2
    obtain ⟨text, hname, hmessage, hvalue⟩ := eq_of_isMessage hf
    show (⟨f.2.message?, _⟩ : Recording).allTokens =
      Value.str f.1 :: f.2.asValue :: Value.tokensOf ((fields.filter (!isMessage ·)).map asPair)
    rw [hmessage, hname, hvalue]
    rfl

theorem insertAll_pairs (es : List (String × Value)) (fields : List (String × FieldValue)) :
    Pairs.insertAll es (pairs fields) = Pairs.insertAll es (counted fields) := by
  have hnames : ∀ f ∈ fields.filter isMessage, f.1 = messageName := fun f hf => by
    obtain ⟨_, hname, -⟩ := eq_of_isMessage (List.mem_filter.1 hf).2
    exact hname
  rw [pairs, counted, List.map_append, List.map_append, Pairs.insertAll_append,
    Pairs.insertAll_append, insertAll_messages es _ hnames]

end Recording

namespace Pairs.IsOf

variable {p : Pairs Value} {given : List (String × Value)}

theorem congr {other : List (String × Value)} (h : p.IsOf given)
    (hsame : insertAll [] given = insertAll [] other) : p.IsOf other :=
  ⟨h.entries.trans hsame, fun hstamp => insertAll_eq_nil (by rw [← hsame, h.stamp hstamp]; rfl)⟩

/-- A recording adds the pairs that count. -/
theorem record (h : p.IsOf given) (stamp : Nat) (fields : List (String × FieldValue)) :
    (p.add (stamp + 1) (Recording.pairs fields)).IsOf (given ++ counted fields) := by
  refine (h.add stamp _).congr ?_
  rw [insertAll_append, insertAll_append, insertAll_pairs]

/-- To record the same again changes nothing. -/
theorem record_again {fields : List (String × FieldValue)} (h : p.IsOf (given ++ counted fields))
    (stamp : Nat) : (p.add (stamp + 1) (Recording.pairs fields)).IsOf (given ++ counted fields) := by
  refine (h.record stamp fields).congr ?_
  rw [insertAll_append _ (given ++ _), insertAll_append, insertAll_again]

end Pairs.IsOf

end Logline
