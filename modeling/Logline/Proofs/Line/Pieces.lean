import Logline.Line.Writing
import Logline.Proofs.Json.Tree
import Logline.Proofs.Line.Saying

/-!
Pieces of a line as parts of a document. A piece says an item, or items, or members, if all it may
ever say is the text of such trees, with the separators that are owed before and after. In a list
items follow each other whatever they are, so pieces are put together by appending them
(`SaysItems.append`, `SaysMembers.append`), enclosing them (`saysItem_array`,
`saysItem_bracedScript`) and setting an item behind a key (`SaysItem.keyed`).
-/

namespace Logline

open Json Text

/-- How what is said agrees with what is meant. If all is `filled` no key stands bare. If all code
answers in time, a key stands bare unless all is filled, and what is said otherwise is what is
meant. -/
structure Agrees {α : Type} (late filled : Bool) (whole : Prop) (said meant : α) : Prop where
  whole_of_filled : filled = true → whole
  filled_of_whole : late = false → whole → filled = true
  said_eq : late = false → whole → said = meant

namespace Agrees

variable {α β γ : Type} {late f g : Bool} {p q r : Prop} {a a' : α} {b b' : β}

theorem refl (a : α) : Agrees late true True a a :=
  ⟨fun _ => trivial, fun _ _ => rfl, fun _ _ => rfl⟩

theorem map (h : Agrees late f p a a') (hr : r ↔ p) (image : α → γ) :
    Agrees late f r (image a) (image a') :=
  ⟨fun hf => hr.2 (h.whole_of_filled hf), fun hl hw => h.filled_of_whole hl (hr.1 hw),
    fun hl hw => congrArg image (h.said_eq hl (hr.1 hw))⟩

/-- Two pieces one after the other. -/
theorem both (h : Agrees late f p a a') (h' : Agrees late g q b b') (hr : r ↔ p ∧ q)
    (combine : α → β → γ) : Agrees late (f && g) r (combine a b) (combine a' b') := by
  refine ⟨fun hfg => ?_, fun hl hw => ?_, fun hl hw => ?_⟩
  · rw [Bool.and_eq_true] at hfg
    exact hr.2 ⟨h.whole_of_filled hfg.1, h'.whole_of_filled hfg.2⟩
  · rw [h.filled_of_whole hl (hr.1 hw).1, h'.filled_of_whole hl (hr.1 hw).2]
    rfl
  · rw [h.said_eq hl (hr.1 hw).1, h'.said_eq hl (hr.1 hw).2]

/-- What is said if code misses its time has all its keys filled. -/
theorem of_late {c : α} (hl : late = true) (h : Agrees late true p a c) : Agrees late f p a a' :=
  ⟨fun _ => h.whole_of_filled rfl, fun h' => absurd (hl.symm.trans h') (by simp),
    fun h' => absurd (hl.symm.trans h') (by simp)⟩

end Agrees

namespace Script

section Pieces

variable (late : Bool) (raw : Char → Prop) (s : Script) (filled : Bool)

/-- The script says one item or, where nothing is meant, perhaps none. -/
def SaysItem (meant : Option Json) : Prop :=
  ∀ owed out after, Says late s owed out after →
    ∃ t : Option Tree, out = encode (Tree.itemsText owed t.toList) ∧ after = (owed || t.isSome) ∧
      Tree.ItemsSound raw t.toList ∧ (meant.isSome → t.isSome) ∧
        Agrees late filled (Tree.ItemsWhole t.toList) (t.map Tree.json) meant

/-- The script says items of a list. -/
def SaysItems (meant : List Json) : Prop :=
  ∀ owed out after, Says late s owed out after →
    ∃ ts, out = encode (Tree.itemsText owed ts) ∧ after = (owed || !ts.isEmpty) ∧
      Tree.ItemsSound raw ts ∧
        Agrees late filled (Tree.ItemsWhole ts) (Tree.itemsJson ts) meant

/-- The script says members of an object. -/
def SaysMembers (meant : List (String × Json)) : Prop :=
  ∀ owed out after, Says late s owed out after →
    ∃ ms, out = encode (Tree.membersText owed ms) ∧ after = Tree.membersOwed owed ms ∧
      Tree.MembersSound raw ms ∧
        Agrees late filled (Tree.MembersWhole ms) (Tree.membersJson ms) meant

/-- The script says a document where no separator is owed. -/
def SaysBody (meant : Json) : Prop :=
  ∀ out after, Says late s false out after →
    ∃ t : Tree, out = encode t.text ∧ t.Sound raw ∧ Agrees late filled t.Whole t.json meant

end Pieces

variable {late : Bool} {raw : Char → Prop}

/-! ### What a script says, instruction by instruction -/

section Says

variable {rest : Script} {owed after : Bool} {out : Bytes}

theorem says_nil : Says late [] owed out after ↔ out = [] ∧ after = owed := Iff.rfl

theorem says_chunk (bytes : Bytes) :
    Says late (.chunk bytes :: rest) owed out after ↔
      ∃ b, out = bytes ++ b ∧ Says late rest owed b after := by
  simp only [Says, Instr.Says]
  constructor
  · rintro ⟨_, b, _, rfl, ⟨rfl, rfl⟩, h⟩
    exact ⟨b, rfl, h⟩
  · rintro ⟨b, rfl, h⟩
    exact ⟨bytes, b, owed, rfl, ⟨rfl, rfl⟩, h⟩

theorem says_separate (mark : Bytes) :
    Says late (.separate mark :: rest) owed out after ↔
      ∃ b, out = (if owed then mark else []) ++ b ∧ Says late rest owed b after := by
  simp only [Says, Instr.Says]
  constructor
  · rintro ⟨_, b, _, rfl, ⟨rfl, rfl⟩, h⟩
    exact ⟨b, rfl, h⟩
  · rintro ⟨b, rfl, h⟩
    exact ⟨_, b, owed, rfl, ⟨rfl, rfl⟩, h⟩

/-- What says nothing itself, and what it owes. -/
theorem says_silent {i : Instr} {next : Bool}
    (hi : ∀ a mid, i.Says late owed a mid ↔ a = [] ∧ mid = next) :
    Says late (i :: rest) owed out after ↔ Says late rest next out after := by
  simp only [Says, hi]
  constructor
  · rintro ⟨_, b, _, rfl, ⟨rfl, rfl⟩, h⟩
    exact h
  · exact fun h => ⟨[], out, next, rfl, ⟨rfl, rfl⟩, h⟩

theorem says_owe (next : Bool) :
    Says late (.owe next :: rest) owed out after ↔ Says late rest next out after :=
  says_silent fun _ _ => Iff.rfl

theorem says_reserve (n : Nat) :
    Says late (.reserve n :: rest) owed out after ↔ Says late rest owed out after :=
  says_silent fun _ _ => Iff.rfl

theorem says_direct (acts : List Act) :
    Says late (.direct acts :: rest) owed out after ↔ Says late rest owed out after :=
  says_silent fun _ _ => Iff.rfl

theorem says_block (body : Script) :
    Says late (.block body :: rest) owed out after ↔
      ∃ a b mid, out = a ++ b ∧ Says late body owed a mid ∧ Says late rest mid b after := Iff.rfl

theorem says_singleton {i : Instr} : Says late [i] owed out after ↔ i.Says late owed out after := by
  simp only [Says]
  constructor
  · rintro ⟨a, _, _, rfl, h, rfl, rfl⟩
    simpa using h
  · exact fun h => ⟨out, [], after, by simp, h, rfl, rfl⟩

theorem says_later (made : Unit → Script) :
    Says late [later made] owed out after ↔ Says late (made ()) owed out after :=
  says_singleton

theorem wording_later (made : Unit → Script) (owed : Bool) :
    wording [later made] owed = wording (made ()) owed := by
  simp [later, wording, Instr.wording]

theorem says_guarded {acts : List Act} {onTime tooLate : Script} :
    Says late [.guarded acts onTime tooLate] owed out after ↔
      Says late onTime owed out after ∨ late = true ∧ Says late tooLate owed out after :=
  says_singleton

theorem says_chunks (chunks : List Bytes) :
    Says late (chunks.map .chunk ++ rest) owed out after ↔
      ∃ b, out = chunks.flatten ++ b ∧ Says late rest owed b after := by
  induction chunks generalizing out with
  | nil => simp
  | cons c more ih =>
    rw [List.map_cons, List.cons_append, says_chunk]
    constructor
    · rintro ⟨_, rfl, h⟩
      obtain ⟨b, rfl, hb⟩ := ih.1 h
      exact ⟨b, by simp, hb⟩
    · rintro ⟨b, rfl, h⟩
      exact ⟨more.flatten ++ b, by simp, ih.2 ⟨b, rfl, h⟩⟩

end Says

/-! ### The texts of fixed pieces -/

section Texts

variable {owed after : Bool} {out : Bytes}

theorem itemMark_bytes (owed : Bool) :
    (if owed then bytes ", " else []) = encode (itemGap owed) := by
  cases owed <;> rfl

theorem memberMark_bytes (owed : Bool) :
    (if owed then bytes "," else []) = encode (memberGap owed) := by
  cases owed <;> rfl

theorem says_opening {bracket : String} :
    Says late (opening bracket) owed out after ↔
      out = encode (itemGap owed ++ bracket.toList) ∧ after = false := by
  simp only [opening, itemMark, text, says_separate, says_chunk, says_owe, says_nil,
    itemMark_bytes, encode_append]
  simp [bytes]

theorem says_closing {bracket : String} :
    Says late (closing bracket) owed out after ↔ out = encode bracket.toList ∧ after = true := by
  simp only [closing, text, says_chunk, says_owe, says_nil]
  simp [bytes]

theorem says_quoteChunks {chunks : List Bytes} {cs : List Char}
    (h : chunks.flatten = encode (escaped cs)) :
    Says late (quoteChunks chunks) owed out after ↔
      out = encode (itemGap owed ++ quotedText cs) ∧ after = true := by
  have hquote : encode (quotedText cs) = bytes "\"" ++ (chunks.flatten ++ bytes "\"") := by
    rw [quotedText, List.cons_append, encode_cons, encode_append, h]
    rfl
  simp only [quoteChunks, itemMark, text, List.cons_append, says_separate, says_chunk, says_chunks,
    says_owe, says_nil, itemMark_bytes, encode_append, hquote]
  simp

theorem says_quote {s : String} :
    Says late (quote s) owed out after ↔
      out = encode (itemGap owed ++ quotedText s.toList) ∧ after = true :=
  says_quoteChunks (flatten_escapeText s)

theorem says_key {label : String} :
    Says late (key label) owed out after ↔
      out = encode (memberGap owed ++ keyChars label) ∧ after = false := by
  simp only [key, memberMark, text, List.cons_append, says_separate, says_owe, says_append,
    says_quote, says_chunk, says_nil, memberMark_bytes, keyChars, encode_append]
  simp [bytes, itemGap, encode]

theorem says_framed {body : Script} :
    Says late (framed body) owed out after ↔
      ∃ b mid, out = encode (itemGap owed) ++ b ∧ Says late body false b mid ∧ after = true := by
  simp only [framed, itemMark, says_separate, says_owe, says_reserve, says_block, says_nil,
    itemMark_bytes]
  constructor
  · rintro ⟨_, rfl, b, _, mid, rfl, h, rfl, rfl⟩
    exact ⟨b, mid, by simp, h, rfl⟩
  · rintro ⟨b, mid, rfl, h, rfl⟩
    exact ⟨b, rfl, b, [], mid, by simp, h, rfl, rfl⟩

end Texts

/-! ### Putting pieces together -/

section Together

variable {s t : Script} {f g : Bool}

/-- A script that only ever says a text in quotes. -/
theorem saysItem_quoted {cs : List Char}
    (h : ∀ owed out after, Says late s owed out after →
      out = encode (itemGap owed ++ quotedText cs) ∧ after = true) :
    SaysItem late raw s true (some (.string (String.ofList cs))) := by
  intro owed out after hs
  obtain ⟨rfl, rfl⟩ := h owed out after hs
  have hreads : Reads (quotedText cs) (.string (String.ofList cs)) := by
    simpa using reads_quotedText (String.ofList cs)
  exact ⟨some (.leaf (quotedText cs) (.string (String.ofList cs))),
    by simp [Tree.itemsText, Tree.text], by simp,
    ⟨⟨hreads, clean_of_printable (Tree.printable_quotedText cs)⟩, trivial⟩, fun _ => rfl,
    (Agrees.refl _).map (by simp [Tree.ItemsWhole, Tree.Whole]) id⟩

theorem saysItem_quote (text : String) :
    SaysItem late raw (quote text) true (some (.string text)) := by
  have h : SaysItem late raw (quote text) true (some (.string (String.ofList text.toList))) :=
    saysItem_quoted fun _ _ _ => says_quote.1
  rwa [String.ofList_toList] at h

theorem saysItem_quoteBytes (bs : Bytes) :
    SaysItem late raw (quoteBytes bs) true (some (.string (visible bs))) := by
  have h : SaysItem late raw (quoteBytes bs) true
      (some (.string (String.ofList (visible bs).toList))) :=
    saysItem_quoted fun _ _ _ => (says_quoteChunks (flatten_escapeBytes bs)).1
  rwa [String.ofList_toList] at h

/-- A document that is one chunk. -/
theorem saysBody_chunk {cs : List Char} {j : Json} (hr : Reads cs j) (hc : Clean raw cs) :
    SaysBody late raw [.chunk (encode cs)] true j := by
  intro out after hs
  obtain ⟨_, rfl, rfl, rfl⟩ := (says_chunk _).1 hs
  exact ⟨.leaf cs j, by simp [Tree.text], ⟨hr, hc⟩, .refl j⟩

/-- An item that is there, where no separator is owed. -/
theorem SaysItem.body {j : Json} (h : SaysItem late raw s f (some j)) : SaysBody late raw s f j := by
  intro out after hs
  obtain ⟨t, rfl, -, hsound, hsome, hagrees⟩ := h false out after hs
  obtain ⟨t, rfl⟩ := Option.isSome_iff_exists.1 (hsome rfl)
  exact ⟨t, by simp [Tree.itemsText, itemGap], hsound.1,
    hagrees.map (by simp [Tree.ItemsWhole]) (·.getD .null)⟩

theorem saysItem_framed {j : Json} (h : SaysBody late raw s f j) :
    SaysItem late raw (framed s) f (some j) := by
  intro owed out after hs
  obtain ⟨_, mid, rfl, hb, rfl⟩ := says_framed.1 hs
  obtain ⟨t, rfl, hsound, hagrees⟩ := h _ mid hb
  exact ⟨some t, by simp [Tree.itemsText, encode_append], by simp, ⟨hsound, trivial⟩, fun _ => rfl,
    hagrees.map (by simp [Tree.ItemsWhole]) some⟩

theorem SaysItem.items {o : Option Json} (h : SaysItem late raw s f o) :
    SaysItems late raw s f o.toList := by
  intro owed out after hs
  obtain ⟨t, rfl, rfl, hsound, -, hagrees⟩ := h owed out after hs
  refine ⟨t.toList, rfl, by cases t <;> simp, hsound, ?_⟩
  cases t <;> exact hagrees.map Iff.rfl Option.toList

theorem saysItems_nil : SaysItems late raw [] true [] := by
  intro owed out after hs
  obtain ⟨rfl, rfl⟩ := says_nil.1 hs
  exact ⟨[], by simp [Tree.itemsText, encode], by simp, trivial, .refl _⟩

theorem SaysItems.append {js ks : List Json} (hs : SaysItems late raw s f js)
    (ht : SaysItems late raw t g ks) : SaysItems late raw (s ++ t) (f && g) (js ++ ks) := by
  intro owed out after h
  obtain ⟨_, _, mid, rfl, ha, hb⟩ := says_append.1 h
  obtain ⟨a, rfl, rfl, hsa, haa⟩ := hs owed _ mid ha
  obtain ⟨b, rfl, rfl, hsb, hab⟩ := ht _ _ after hb
  refine ⟨a ++ b, ?_, ?_, (Tree.itemsSound_append a b).2 ⟨hsa, hsb⟩, ?_⟩
  · rw [Tree.itemsText_append, encode_append]
  · cases a <;> simp
  · rw [Tree.itemsJson_append]
    exact haa.both hab (Tree.itemsWhole_append a b) (· ++ ·)

theorem saysMembers_nil : SaysMembers late raw [] true [] := by
  intro owed out after hs
  obtain ⟨rfl, rfl⟩ := says_nil.1 hs
  exact ⟨[], by simp [Tree.membersText, encode], rfl, trivial, .refl _⟩

theorem SaysMembers.append {ms ns : List (String × Json)} (hs : SaysMembers late raw s f ms)
    (ht : SaysMembers late raw t g ns) : SaysMembers late raw (s ++ t) (f && g) (ms ++ ns) := by
  intro owed out after h
  obtain ⟨_, _, mid, rfl, ha, hb⟩ := says_append.1 h
  obtain ⟨a, rfl, rfl, hsa, haa⟩ := hs owed _ mid ha
  obtain ⟨b, rfl, rfl, hsb, hab⟩ := ht _ _ after hb
  refine ⟨a ++ b, ?_, ?_, (Tree.membersSound_append a b).2 ⟨hsa, hsb⟩, ?_⟩
  · rw [Tree.membersText_append, encode_append]
  · rw [Tree.membersOwed_append]
  · rw [Tree.membersJson_append]
    exact haa.both hab (Tree.membersWhole_append a b) (· ++ ·)

/-- Pieces one after the other, told by the elements of a list. -/
theorem saysItems_flatMap {α : Type} (piece : α → Script) (filled : α → Bool)
    (meant : α → Option Json) (as : List α)
    (h : ∀ a ∈ as, SaysItem late raw (piece a) (filled a) (meant a)) :
    SaysItems late raw (as.flatMap piece) (as.all filled) (as.filterMap meant) := by
  induction as with
  | nil => exact saysItems_nil
  | cons a rest ih =>
    have ha := (h a (List.mem_cons_self ..)).items
    have hrest := ih fun b hb => h b (List.mem_cons_of_mem a hb)
    have hmeant : (a :: rest).filterMap meant = (meant a).toList ++ rest.filterMap meant := by
      cases hm : meant a <;> simp [hm]
    rw [List.flatMap_cons, List.all_cons, hmeant]
    exact ha.append hrest

theorem saysMembers_flatMap {α : Type} (piece : α → Script) (filled : α → Bool)
    (meant : α → List (String × Json)) (as : List α)
    (h : ∀ a ∈ as, SaysMembers late raw (piece a) (filled a) (meant a)) :
    SaysMembers late raw (as.flatMap piece) (as.all filled) (as.flatMap meant) := by
  induction as with
  | nil => exact saysMembers_nil
  | cons a rest ih =>
    have ha := h a (List.mem_cons_self ..)
    have hrest := ih fun b hb => h b (List.mem_cons_of_mem a hb)
    rw [List.flatMap_cons, List.all_cons, List.flatMap_cons]
    exact ha.append hrest

/-- An item behind its key; the key stands bare if there is none. -/
theorem SaysItem.keyed {o : Option Json} (h : SaysItem late raw s f o) (label : String) :
    SaysMembers late raw (key label ++ s) (f && o.isSome) (o.toList.map fun j => (label, j)) := by
  intro owed out after hs
  obtain ⟨_, _, mid, rfl, ha, hb⟩ := says_append.1 hs
  obtain ⟨rfl, rfl⟩ := says_key.1 ha
  obtain ⟨t, rfl, rfl, hsound, hsome, hagrees⟩ := h false _ after hb
  cases t with
  | none =>
    refine ⟨[.bare label], ?_, by simp [Tree.membersOwed], trivial, ?_, ?_, ?_⟩
    · simp [Tree.itemsText, Tree.membersText, encode]
    · cases o <;> simp_all
    · exact fun _ hw => absurd hw (by simp [Tree.MembersWhole])
    · exact fun _ hw => absurd hw (by simp [Tree.MembersWhole])
  | some t =>
    refine ⟨[.pair label t], ?_, by simp [Tree.membersOwed], ⟨hsound.1, trivial⟩, ?_⟩
    · simp [Tree.itemsText, Tree.membersText, itemGap, encode_append]
    have hw : Tree.ItemsWhole [t] ↔ Tree.MembersWhole [.pair label t] := by
      simp [Tree.ItemsWhole, Tree.MembersWhole]
    refine ⟨fun hf => ?_, fun hl h => ?_, fun hl h => ?_⟩
    · rw [Bool.and_eq_true] at hf
      exact hw.1 (hagrees.whole_of_filled hf.1)
    · rw [hagrees.filled_of_whole hl (hw.2 h), ← hagrees.said_eq hl (hw.2 h)]
      rfl
    · rw [← hagrees.said_eq hl (hw.2 h)]
      rfl

theorem SaysItem.keyed_some {j : Json} (h : SaysItem late raw s f (some j)) (label : String) :
    SaysMembers late raw (key label ++ s) f [(label, j)] := by
  simpa using h.keyed label

/-- Items between brackets. -/
theorem saysItem_array {js : List Json} (h : SaysItems late raw s f js) :
    SaysItem late raw (opening "[" ++ s ++ closing "]") f (some (.array js)) := by
  intro owed out after hs
  obtain ⟨_, _, _, rfl, hs, hc⟩ := says_append.1 hs
  obtain ⟨_, _, _, rfl, ho, hb⟩ := says_append.1 hs
  obtain ⟨rfl, rfl⟩ := says_opening.1 ho
  obtain ⟨ts, rfl, -, hsound, hagrees⟩ := h _ _ _ hb
  obtain ⟨rfl, rfl⟩ := says_closing.1 hc
  refine ⟨some (.array ts), ?_, by simp, ⟨hsound, trivial⟩, fun _ => rfl, ?_⟩
  · simp [Tree.itemsText, Tree.text, encode]
  · have hw : Tree.ItemsWhole [.array ts] ↔ Tree.ItemsWhole ts := by
      simp [Tree.ItemsWhole, Tree.Whole]
    exact hagrees.map hw fun js => some (Json.array js)

/-- Members between braces. -/
theorem saysItem_bracedScript {ms : List (String × Json)} (h : SaysMembers late raw s f ms) :
    SaysItem late raw (bracedScript s) f (some (.object ms)) := by
  intro owed out after hs
  obtain ⟨_, _, _, rfl, hs, hc⟩ := says_append.1 hs
  obtain ⟨_, _, _, rfl, ho, hb⟩ := says_append.1 hs
  obtain ⟨rfl, rfl⟩ := says_opening.1 ho
  obtain ⟨ts, rfl, -, hsound, hagrees⟩ := h _ _ _ hb
  obtain ⟨rfl, rfl⟩ := says_closing.1 hc
  refine ⟨some (.object ts), ?_, by simp, ⟨hsound, trivial⟩, fun _ => rfl, ?_⟩
  · simp [Tree.itemsText, Tree.text, encode]
  · have hw : Tree.ItemsWhole [.object ts] ↔ Tree.MembersWhole ts := by
      simp [Tree.ItemsWhole, Tree.Whole]
    exact hagrees.map hw fun ms => some (Json.object ms)

/-! ### Code of callers -/

theorem SaysItem.later {made : Unit → Script} {o : Option Json}
    (h : SaysItem late raw (made ()) f o) : SaysItem late raw [later made] f o :=
  fun owed out after hs => h owed out after ((says_later made).1 hs)

theorem SaysMembers.later {made : Unit → Script} {ms : List (String × Json)}
    (h : SaysMembers late raw (made ()) f ms) : SaysMembers late raw [later made] f ms :=
  fun owed out after hs => h owed out after ((says_later made).1 hs)

theorem SaysMembers.direct {ms : List (String × Json)} (h : SaysMembers late raw s f ms)
    (acts : List Act) : SaysMembers late raw (.direct acts :: s) f ms :=
  fun owed out after hs => h owed out after ((says_direct acts).1 hs)

section Guarded

variable {tooLate : Script} (acts : List Act)

theorem SaysBody.guarded {j k : Json} (h : SaysBody late raw s f j)
    (hlate : SaysBody late raw tooLate true k) :
    SaysBody late raw [.guarded acts s tooLate] f j := by
  intro out after hs
  rcases says_guarded.1 hs with hs | ⟨hl, hs⟩
  · exact h out after hs
  · obtain ⟨t, ht, hsound, hagrees⟩ := hlate out after hs
    exact ⟨t, ht, hsound, hagrees.of_late hl⟩

theorem SaysItem.guarded {o : Option Json} {k : Json} (h : SaysItem late raw s f o)
    (hlate : SaysItem late raw tooLate true (some k)) :
    SaysItem late raw [.guarded acts s tooLate] f o := by
  intro owed out after hs
  rcases says_guarded.1 hs with hs | ⟨hl, hs⟩
  · exact h owed out after hs
  · obtain ⟨t, ht, ha, hsound, hsome, hagrees⟩ := hlate owed out after hs
    exact ⟨t, ht, ha, hsound, fun _ => hsome rfl, hagrees.of_late hl⟩

theorem SaysMembers.guarded {ms ns : List (String × Json)} (h : SaysMembers late raw s f ms)
    (hlate : SaysMembers late raw tooLate true ns) :
    SaysMembers late raw [.guarded acts s tooLate] f ms := by
  intro owed out after hs
  rcases says_guarded.1 hs with hs | ⟨hl, hs⟩
  · exact h owed out after hs
  · obtain ⟨ts, ht, ha, hsound, hagrees⟩ := hlate owed out after hs
    exact ⟨ts, ht, ha, hsound, hagrees.of_late hl⟩

end Guarded

theorem saysItem_lateItem : SaysItem late raw lateItem true (some (.string lateText)) :=
  saysItem_framed (saysItem_quote lateText).body

end Together

end Script

end Logline
