import Logline.Proofs.Json.Reading

/-!
Texts of documents as they are put together in a line: items parted by `", "`, members by `","`, and
at the leaves whatever reads as a document of its own. A member may have lost its value, so that its
key stands bare and nothing parts it from what follows; a tree without such members is `Whole`.

A whole tree is read as its document (`Tree.reads`), any other is not read at all
(`Tree.readValue_eq_none`).
-/

namespace Logline.Json

mutual

inductive Tree where
  | leaf (cs : List Char) (j : Json)
  | array (items : List Tree)
  | object (members : List Member)

inductive Member where
  | pair (key : String) (value : Tree)
  /-- A key whose value has vanished after it was written. -/
  | bare (key : String)

end

/-- What stands between two items, if something stands before. -/
def itemGap (owed : Bool) : List Char := if owed then [',', ' '] else []

/-- What stands between two members. -/
def memberGap (owed : Bool) : List Char := if owed then [','] else []

def keyChars (key : String) : List Char := quotedText key.toList ++ [':']

/-- Controls stand in a text only if they are among the characters `raw`. -/
def Clean (raw : Char → Prop) (cs : List Char) : Prop :=
  ∀ c ∈ cs, (0x20 ≤ c.toNat ∧ c.toNat ≠ 0x7F) ∨ raw c

theorem Clean.append {raw : Char → Prop} {a b : List Char} (ha : Clean raw a) (hb : Clean raw b) :
    Clean raw (a ++ b) := by
  intro c hc
  rcases List.mem_append.1 hc with h | h
  · exact ha c h
  · exact hb c h

theorem clean_of_printable {raw : Char → Prop} {cs : List Char} (h : Text.Printable cs) :
    Clean raw cs := fun c hc => .inl (h c hc)

namespace Tree

mutual

def text : Tree → List Char
  | .leaf cs _ => cs
  | .array items => '[' :: itemsText false items ++ [']']
  | .object members => '\x7b' :: membersText false members ++ ['\x7d']
termination_by structural t => t

def itemsText : Bool → List Tree → List Char
  | _, [] => []
  | owed, t :: rest => itemGap owed ++ t.text ++ itemsText true rest
termination_by structural _ ts => ts

def membersText : Bool → List Member → List Char
  | _, [] => []
  | owed, .pair key t :: rest => memberGap owed ++ keyChars key ++ t.text ++ membersText true rest
  | owed, .bare key :: rest => memberGap owed ++ keyChars key ++ membersText false rest
termination_by structural _ ms => ms

end

mutual

/-- The document a tree stands for; members without a value are left out. -/
def json : Tree → Json
  | .leaf _ j => j
  | .array items => .array (itemsJson items)
  | .object members => .object (membersJson members)
termination_by structural t => t

def itemsJson : List Tree → List Json
  | [] => []
  | t :: rest => t.json :: itemsJson rest
termination_by structural ts => ts

def membersJson : List Member → List (String × Json)
  | [] => []
  | .pair key t :: rest => (key, t.json) :: membersJson rest
  | .bare _ :: rest => membersJson rest
termination_by structural ms => ms

end

mutual

/-- Every leaf reads as its document and is clean. -/
def Sound (raw : Char → Prop) : Tree → Prop
  | .leaf cs j => Reads cs j ∧ Clean raw cs
  | .array items => ItemsSound raw items
  | .object members => MembersSound raw members
termination_by structural t => t

def ItemsSound (raw : Char → Prop) : List Tree → Prop
  | [] => True
  | t :: rest => t.Sound raw ∧ ItemsSound raw rest
termination_by structural ts => ts

def MembersSound (raw : Char → Prop) : List Member → Prop
  | [] => True
  | .pair _ t :: rest => t.Sound raw ∧ MembersSound raw rest
  | .bare _ :: rest => MembersSound raw rest
termination_by structural ms => ms

end

mutual

/-- No key stands without a value. -/
def Whole : Tree → Prop
  | .leaf _ _ => True
  | .array items => ItemsWhole items
  | .object members => MembersWhole members
termination_by structural t => t

def ItemsWhole : List Tree → Prop
  | [] => True
  | t :: rest => t.Whole ∧ ItemsWhole rest
termination_by structural ts => ts

def MembersWhole : List Member → Prop
  | [] => True
  | .pair _ t :: rest => t.Whole ∧ MembersWhole rest
  | .bare _ :: _ => False
termination_by structural ms => ms

end

/-- Whether members leave a separator owed. -/
def membersOwed : Bool → List Member → Bool
  | owed, [] => owed
  | _, .pair _ _ :: rest => membersOwed true rest
  | _, .bare _ :: rest => membersOwed false rest

/-! ### Items and members one after the other -/

section Append

variable {raw : Char → Prop} (owed : Bool) (a b : List Tree) (ms ns : List Member)

theorem itemsText_append :
    itemsText owed (a ++ b) = itemsText owed a ++ itemsText (owed || !a.isEmpty) b := by
  induction a generalizing owed with
  | nil => simp [itemsText]
  | cons t rest ih => simp [itemsText, ih]

theorem itemsJson_append : itemsJson (a ++ b) = itemsJson a ++ itemsJson b := by
  induction a with
  | nil => rfl
  | cons t rest ih => simp [itemsJson, ih]

theorem itemsSound_append : ItemsSound raw (a ++ b) ↔ ItemsSound raw a ∧ ItemsSound raw b := by
  induction a with
  | nil => simp [ItemsSound]
  | cons t rest ih => simp [ItemsSound, ih, and_assoc]

theorem itemsWhole_append : ItemsWhole (a ++ b) ↔ ItemsWhole a ∧ ItemsWhole b := by
  induction a with
  | nil => simp [ItemsWhole]
  | cons t rest ih => simp [ItemsWhole, ih, and_assoc]

theorem membersText_append :
    membersText owed (ms ++ ns) = membersText owed ms ++ membersText (membersOwed owed ms) ns := by
  induction ms generalizing owed with
  | nil => rfl
  | cons m rest ih => cases m <;> simp [membersText, membersOwed, ih]

theorem membersOwed_append : membersOwed owed (ms ++ ns) = membersOwed (membersOwed owed ms) ns := by
  induction ms generalizing owed with
  | nil => rfl
  | cons m rest ih => cases m <;> simp [membersOwed, ih]

theorem membersJson_append : membersJson (ms ++ ns) = membersJson ms ++ membersJson ns := by
  induction ms with
  | nil => rfl
  | cons m rest ih => cases m <;> simp [membersJson, ih]

theorem membersSound_append :
    MembersSound raw (ms ++ ns) ↔ MembersSound raw ms ∧ MembersSound raw ns := by
  induction ms with
  | nil => simp [MembersSound]
  | cons m rest ih => cases m <;> simp [MembersSound, ih, and_assoc]

theorem membersWhole_append : MembersWhole (ms ++ ns) ↔ MembersWhole ms ∧ MembersWhole ns := by
  induction ms with
  | nil => simp [MembersWhole]
  | cons m rest ih => cases m <;> simp [MembersWhole, ih, and_assoc]

end Append

/-! ### Clean texts -/

theorem printable_gaps (owed : Bool) :
    Text.Printable (itemGap owed) ∧ Text.Printable (memberGap owed) := by
  cases owed <;> simp [Text.Printable, itemGap, memberGap]

theorem printable_quotedText (cs : List Char) : Text.Printable (quotedText cs) := by
  have hq : Text.Printable ['"'] := by
    intro c hc
    obtain rfl := List.mem_singleton.1 hc
    decide
  exact (hq.append (Text.printable_escaped cs)).append hq

theorem printable_keyChars (key : String) : Text.Printable (keyChars key) := by
  refine (printable_quotedText key.toList).append fun c hc => ?_
  obtain rfl := List.mem_singleton.1 hc
  decide

/-- The brackets of a container are clean if what they hold is. -/
theorem clean_enclosed {raw : Char → Prop} {cs : List Char} (h : Clean raw cs) {opening closing : Char}
    (ho : Text.Printable [opening]) (hc : Text.Printable [closing]) :
    Clean raw (opening :: cs ++ [closing]) :=
  ((clean_of_printable ho).append h).append (clean_of_printable hc)

mutual

theorem clean_text {raw : Char → Prop} (t : Tree) (h : t.Sound raw) : Clean raw t.text := by
  cases t with
  | leaf cs j => exact h.2
  | array items =>
    exact clean_enclosed (clean_itemsText items false h) (by simp [Text.Printable])
      (by simp [Text.Printable])
  | object members =>
    exact clean_enclosed (clean_membersText members false h) (by simp [Text.Printable])
      (by simp [Text.Printable])
termination_by structural t

theorem clean_itemsText {raw : Char → Prop} (ts : List Tree) (owed : Bool)
    (h : ItemsSound raw ts) : Clean raw (itemsText owed ts) := by
  cases ts with
  | nil => exact fun c hc => by simp [itemsText] at hc
  | cons t rest =>
    have hgap : Clean raw (itemGap owed) := clean_of_printable (printable_gaps owed).1
    exact (hgap.append (clean_text t h.1)).append (clean_itemsText rest true h.2)
termination_by structural ts

theorem clean_membersText {raw : Char → Prop} (ms : List Member) (owed : Bool)
    (h : MembersSound raw ms) : Clean raw (membersText owed ms) := by
  cases ms with
  | nil => exact fun c hc => by simp [membersText] at hc
  | cons m rest =>
    have hgap : Clean raw (memberGap owed) := clean_of_printable (printable_gaps owed).2
    cases m with
    | pair key t =>
      have hkey := hgap.append (clean_of_printable (printable_keyChars key))
      exact (hkey.append (clean_text t h.1)).append (clean_membersText rest true h.2)
    | bare key =>
      have hkey := hgap.append (clean_of_printable (printable_keyChars key))
      exact hkey.append (clean_membersText rest false h)
termination_by structural ms

end

/-! ### What follows an item or a member -/

theorem ends_of_mem {c : Char} {rest : List Char} (h : c ∈ [',', ']', '\x7d', '\n']) :
    Ends (c :: rest) := by
  refine ends_cons ?_
  simp only [List.mem_cons, List.not_mem_nil, or_false] at h
  rcases h with rfl | rfl | rfl | rfl <;> decide

/-- The rest of a list after one of its items. -/
def afterItem (fuel : Nat) (r : Json × List Char) : Option (List Json × List Char) :=
  match skipBlanks r.2 with
  | ']' :: rest => some ([r.1], rest)
  | ',' :: rest => (readItems fuel rest).map fun more => (r.1 :: more.1, more.2)
  | _ => none

/-- The rest of an object after the value of one of its members. -/
def afterMember (fuel : Nat) (key : String) (r : Json × List Char) :
    Option (List (String × Json) × List Char) :=
  match skipBlanks r.2 with
  | '\x7d' :: rest => some ([(key, r.1)], rest)
  | ',' :: rest => (readMembers fuel rest).map fun more => ((key, r.1) :: more.1, more.2)
  | _ => none

theorem readItems_succ (fuel : Nat) (s : List Char) :
    readItems (fuel + 1) s = (readValue fuel s).bind (afterItem fuel) := by
  simp only [readItems, bind_pure_comp, Option.map_eq_map]
  rfl

theorem readItems_skipBlanks (fuel : Nat) (s : List Char) :
    readItems fuel (skipBlanks s) = readItems fuel s := by
  cases fuel with
  | zero => rfl
  | succ fuel => rw [readItems_succ, readItems_succ, readValue_skipBlanks]

theorem readMembers_keyChars (fuel : Nat) (key : String) (s : List Char) :
    readMembers (fuel + 1) (keyChars key ++ s) =
      (readValue fuel s).bind (afterMember fuel key) := by
  have hkey : keyChars key ++ s = '"' :: (Text.escaped key.toList ++ '"' :: ':' :: s) := by
    simp [keyChars, quotedText]
  have hquote : skipBlanks ('"' :: (Text.escaped key.toList ++ '"' :: ':' :: s)) =
      '"' :: (Text.escaped key.toList ++ '"' :: ':' :: s) := skipBlanks_of_not_blank (by decide)
  have hcolon : skipBlanks (':' :: s) = ':' :: s := skipBlanks_of_not_blank (by decide)
  rw [hkey]
  simp only [readMembers, hquote, readString_escaped, hcolon, bind_pure_comp, Option.map_eq_map,
    Option.bind_eq_bind, Option.bind_some, String.ofList_toList]
  rfl

section After

variable {fuel : Nat} {key : String} {j : Json} {blanks rest : List Char}
  (h : blanks.all isBlank = true)
include h

theorem afterItem_close : afterItem fuel (j, blanks ++ ']' :: rest) = some ([j], rest) := by
  have hskip : skipBlanks (']' :: rest) = ']' :: rest := skipBlanks_of_not_blank (by decide)
  simp [afterItem, skipBlanks_append_blanks h, hskip]

/-- The blank after the comma does not matter. -/
theorem afterItem_gap : afterItem fuel (j, blanks ++ ',' :: ' ' :: rest) =
    (readItems fuel rest).map fun more => (j :: more.1, more.2) := by
  have hskip : skipBlanks (',' :: ' ' :: rest) = ',' :: ' ' :: rest :=
    skipBlanks_of_not_blank (by decide)
  have hblank : readItems fuel (' ' :: rest) = readItems fuel rest := by
    rw [← readItems_skipBlanks fuel (' ' :: rest), ← readItems_skipBlanks fuel rest]
    rfl
  simp [afterItem, skipBlanks_append_blanks h, hskip, hblank]

theorem afterMember_close :
    afterMember fuel key (j, blanks ++ '\x7d' :: rest) = some ([(key, j)], rest) := by
  have hskip : skipBlanks ('\x7d' :: rest) = '\x7d' :: rest := skipBlanks_of_not_blank (by decide)
  simp [afterMember, skipBlanks_append_blanks h, hskip]

theorem afterMember_gap : afterMember fuel key (j, blanks ++ ',' :: rest) =
    (readMembers fuel rest).map fun more => ((key, j) :: more.1, more.2) := by
  have hskip : skipBlanks (',' :: rest) = ',' :: rest := skipBlanks_of_not_blank (by decide)
  simp [afterMember, skipBlanks_append_blanks h, hskip]

end After

/-- No document begins with a bracket that closes. -/
theorem readValue_closing {c : Char} (hc : c ∈ [']', '\x7d']) (fuel : Nat) (s : List Char) :
    readValue fuel (c :: s) = none := by
  cases fuel with
  | zero => rfl
  | succ fuel =>
    have hall : isBlank c = false ∧ startsNumber c = false := by
      simp only [List.mem_cons, List.not_mem_nil, or_false] at hc
      rcases hc with rfl | rfl <;> decide
    have hs := skipBlanks_of_not_blank (s := s) hall.1
    have hnumber := readNumber_eq_none (s := s) hall.2
    simp only [List.mem_cons, List.not_mem_nil, or_false] at hc
    rcases hc with rfl | rfl <;> simp [readValue, hs, hnumber]

/-! ### What a tree begins with -/

/-- The text of a tree begins with no closing bracket. -/
theorem exists_opening {raw : Char → Prop} {t : Tree} (hs : t.Sound raw) :
    ∃ c u, c ∉ [']', '\x7d'] ∧ skipBlanks t.text = c :: u := by
  cases t with
  | leaf cs j =>
    obtain ⟨blanks, -, hread⟩ := hs.1 (2 * cs.length + 2) [] (Nat.le_refl _) ends_nil
    rw [List.append_nil] at hread
    obtain ⟨c, u, hu⟩ := exists_cons_of_readValue hread
    refine ⟨c, u, fun hc => ?_, hu⟩
    rw [← readValue_skipBlanks, hu, readValue_closing hc] at hread
    simp at hread
  | array items => exact ⟨'[', _, by decide, skipBlanks_of_not_blank (by decide)⟩
  | object members => exact ⟨'\x7b', _, by decide, skipBlanks_of_not_blank (by decide)⟩

theorem readArray_itemsText {raw : Char → Prop} {t : Tree} (hs : t.Sound raw) (ts : List Tree)
    (fuel : Nat) (rest : List Char) :
    readArray fuel (itemsText false (t :: ts) ++ rest) =
      (readItems fuel (itemsText false (t :: ts) ++ rest)).map fun r => (.array r.1, r.2) := by
  obtain ⟨c, u, hc, hu⟩ := exists_opening hs
  have hskip : skipBlanks (itemsText false (t :: ts) ++ rest) =
      c :: (u ++ (itemsText true ts ++ rest)) := by
    rw [itemsText, itemGap, if_neg (by simp), List.nil_append, List.append_assoc]
    exact skipBlanks_append_of_cons hu
  rw [← readItems_skipBlanks fuel]
  unfold readArray
  rw [hskip]
  split
  · next h => exact absurd (List.cons.inj h).1 (by simp_all)
  · rfl

theorem exists_quote_membersText (m : Member) (ms : List Member) :
    ∃ u, membersText false (m :: ms) = '"' :: u := by
  cases m <;> exact ⟨_, rfl⟩

theorem readObject_membersText (m : Member) (ms : List Member) (fuel : Nat) (rest : List Char) :
    readObject fuel (membersText false (m :: ms) ++ rest) =
      (readMembers fuel (membersText false (m :: ms) ++ rest)).map fun r => (.object r.1, r.2) := by
  obtain ⟨u, hu⟩ := exists_quote_membersText m ms
  have hskip : skipBlanks ('"' :: (u ++ rest)) = '"' :: (u ++ rest) :=
    skipBlanks_of_not_blank (by decide)
  rw [hu, List.cons_append]
  unfold readObject
  rw [hskip]
  rfl

/-! ### Whole trees are read -/

mutual

/-- A whole tree is read as its document. -/
theorem reads {raw : Char → Prop} (t : Tree) (hs : t.Sound raw) (hw : t.Whole) :
    Reads t.text t.json := by
  cases t with
  | leaf cs j => exact hs.1
  | array items =>
    refine fun fuel rest hfuel _ => ⟨[], rfl, ?_⟩
    obtain ⟨fuel, rfl⟩ : ∃ k, fuel = k + 1 := ⟨fuel - 1, by omega⟩
    simp only [text, List.length_cons, List.length_append, List.length_nil] at hfuel
    simp only [text, List.cons_append, List.append_assoc, List.nil_append]
    rw [readValue_bracket]
    cases items with
    | nil => exact readArray_eq_some.2 (.inl ⟨skipBlanks_of_not_blank (by decide), rfl⟩)
    | cons t ts =>
      have hitems := readItems_itemsText (t :: ts) (by simp) hs hw fuel rest (by omega)
      rw [readArray_itemsText hs.1, hitems]
      rfl
  | object members =>
    refine fun fuel rest hfuel _ => ⟨[], rfl, ?_⟩
    obtain ⟨fuel, rfl⟩ : ∃ k, fuel = k + 1 := ⟨fuel - 1, by omega⟩
    simp only [text, List.length_cons, List.length_append, List.length_nil] at hfuel
    simp only [text, List.cons_append, List.append_assoc, List.nil_append]
    rw [readValue_brace]
    cases members with
    | nil => exact readObject_eq_some.2 (.inl ⟨skipBlanks_of_not_blank (by decide), rfl⟩)
    | cons m ms =>
      have hmembers := readMembers_membersText (m :: ms) (by simp) hs hw fuel rest (by omega)
      rw [readObject_membersText, hmembers]
      rfl
termination_by structural t

theorem readItems_itemsText {raw : Char → Prop} (ts : List Tree) (hne : ts ≠ [])
    (hs : ItemsSound raw ts) (hw : ItemsWhole ts) (fuel : Nat) (rest : List Char)
    (hfuel : 2 * (itemsText false ts).length + 3 ≤ fuel) :
    readItems fuel (itemsText false ts ++ ']' :: rest) = some (itemsJson ts, rest) := by
  obtain ⟨fuel, rfl⟩ : ∃ k, fuel = k + 1 := ⟨fuel - 1, by omega⟩
  cases ts with
  | nil => exact absurd rfl hne
  | cons t more =>
    have ht := reads t hs.1 hw.1
    simp only [itemsText, itemGap, Bool.false_eq_true, if_false, List.nil_append,
      List.length_append] at hfuel
    rw [readItems_succ]
    cases more with
    | nil =>
      obtain ⟨blanks, hb, hread⟩ := ht fuel (']' :: rest) (by omega) (ends_of_mem (by simp))
      simp [itemsText, itemGap, itemsJson, hread, afterItem_close hb]
    | cons next more =>
      have hgap : itemsText true (next :: more) = ',' :: ' ' :: itemsText false (next :: more) :=
        rfl
      rw [hgap] at hfuel
      simp only [List.length_cons] at hfuel
      have hmore := readItems_itemsText (next :: more) (by simp) hs.2 hw.2 fuel rest (by omega)
      obtain ⟨blanks, hb, hread⟩ := ht fuel (',' :: ' ' :: (itemsText false (next :: more) ++
        ']' :: rest)) (by omega) (ends_of_mem (by simp))
      rw [itemsText, hgap]
      simp [itemGap, itemsJson, hread, afterItem_gap hb, hmore]
termination_by structural ts

theorem readMembers_membersText {raw : Char → Prop} (ms : List Member) (hne : ms ≠ [])
    (hs : MembersSound raw ms) (hw : MembersWhole ms) (fuel : Nat) (rest : List Char)
    (hfuel : 2 * (membersText false ms).length + 3 ≤ fuel) :
    readMembers fuel (membersText false ms ++ '\x7d' :: rest) = some (membersJson ms, rest) := by
  obtain ⟨fuel, rfl⟩ : ∃ k, fuel = k + 1 := ⟨fuel - 1, by omega⟩
  cases ms with
  | nil => exact absurd rfl hne
  | cons m more =>
    cases m with
    | bare key => exact absurd hw id
    | pair key t =>
      have ht := reads t hs.1 hw.1
      simp only [membersText, memberGap, Bool.false_eq_true, if_false, List.nil_append,
        List.length_append] at hfuel
      simp only [membersText, memberGap, Bool.false_eq_true, if_false, List.nil_append,
        List.append_assoc, readMembers_keyChars]
      cases more with
      | nil =>
        obtain ⟨blanks, hb, hread⟩ := ht fuel ('\x7d' :: rest) (by omega) (ends_of_mem (by simp))
        simp [membersText, membersJson, hread, afterMember_close hb]
      | cons next more =>
        have hgap : membersText true (next :: more) = ',' :: membersText false (next :: more) := by
          cases next <;> rfl
        rw [hgap] at hfuel ⊢
        simp only [List.length_cons] at hfuel
        have hmore := readMembers_membersText (next :: more) (by simp) hs.2 hw.2 fuel rest
          (by omega)
        obtain ⟨blanks, hb, hread⟩ := ht fuel (',' :: (membersText false (next :: more) ++
          '\x7d' :: rest)) (by omega) (ends_of_mem (by simp))
        simp [membersJson, hread, afterMember_gap hb, hmore]
termination_by structural ms

end

/-! ### Other trees are not read -/

/-- What follows a bare key is taken for its value, which fails at the next character. -/
theorem readMembers_bare (fuel : Nat) (key : String) (ms : List Member) (rest : List Char) :
    readMembers (fuel + 1) (keyChars key ++ (membersText false ms ++ '\x7d' :: rest)) = none := by
  rw [readMembers_keyChars]
  have hnext : ∀ (next : String) (u : List Char),
      (readValue fuel (keyChars next ++ u)).bind (afterMember fuel key) = none := by
    intro next u
    cases fuel with
    | zero => rfl
    | succ fuel =>
      have hchars : keyChars next ++ u = '"' :: (Text.escaped next.toList ++ '"' :: ':' :: u) := by
        simp [keyChars, quotedText]
      have hcolon : skipBlanks (':' :: u) = ':' :: u := skipBlanks_of_not_blank (by decide)
      rw [hchars, readValue_quote, readString_escaped]
      simp [afterMember, hcolon]
  cases ms with
  | nil => rw [membersText, List.nil_append, readValue_closing (by simp)]; rfl
  | cons m more =>
    cases m with
    | pair next t =>
      simp only [membersText, memberGap, Bool.false_eq_true, if_false, List.nil_append,
        List.append_assoc]
      exact hnext next _
    | bare next =>
      simp only [membersText, memberGap, Bool.false_eq_true, if_false, List.nil_append,
        List.append_assoc]
      exact hnext next _

mutual

theorem readValue_of_not_whole {raw : Char → Prop} (t : Tree) (hs : t.Sound raw) (hw : ¬ t.Whole)
    (fuel : Nat) (rest : List Char) (hfuel : 2 * t.text.length + 2 ≤ fuel) :
    readValue fuel (t.text ++ rest) = none := by
  obtain ⟨fuel, rfl⟩ : ∃ k, fuel = k + 1 := ⟨fuel - 1, by omega⟩
  cases t with
  | leaf cs j => exact absurd trivial hw
  | array items =>
    simp only [text, List.length_cons, List.length_append, List.length_nil] at hfuel
    simp only [text, List.cons_append, List.append_assoc, List.nil_append]
    rw [readValue_bracket]
    cases items with
    | nil => exact absurd trivial hw
    | cons t ts =>
      have hitems := readItems_of_not_whole (t :: ts) hs hw fuel rest (by omega)
      rw [readArray_itemsText hs.1, hitems]
      rfl
  | object members =>
    simp only [text, List.length_cons, List.length_append, List.length_nil] at hfuel
    simp only [text, List.cons_append, List.append_assoc, List.nil_append]
    rw [readValue_brace]
    cases members with
    | nil => exact absurd trivial hw
    | cons m ms =>
      have hmembers := readMembers_of_not_whole (m :: ms) hs hw fuel rest (by omega)
      rw [readObject_membersText, hmembers]
      rfl
termination_by structural t

theorem readItems_of_not_whole {raw : Char → Prop} (ts : List Tree) (hs : ItemsSound raw ts)
    (hw : ¬ ItemsWhole ts) (fuel : Nat) (rest : List Char)
    (hfuel : 2 * (itemsText false ts).length + 3 ≤ fuel) :
    readItems fuel (itemsText false ts ++ ']' :: rest) = none := by
  obtain ⟨fuel, rfl⟩ : ∃ k, fuel = k + 1 := ⟨fuel - 1, by omega⟩
  cases ts with
  | nil => exact absurd trivial hw
  | cons t more =>
    simp only [itemsText, itemGap, Bool.false_eq_true, if_false, List.nil_append,
      List.length_append] at hfuel
    rw [readItems_succ]
    by_cases ht : t.Whole
    · cases more with
      | nil => exact absurd ⟨ht, trivial⟩ hw
      | cons next more =>
        have hgap : itemsText true (next :: more) = ',' :: ' ' :: itemsText false (next :: more) :=
          rfl
        rw [hgap] at hfuel
        simp only [List.length_cons] at hfuel
        have hmore := readItems_of_not_whole (next :: more) hs.2 (fun h => hw ⟨ht, h⟩) fuel rest
          (by omega)
        obtain ⟨blanks, hb, hread⟩ := reads t hs.1 ht fuel (',' :: ' ' ::
          (itemsText false (next :: more) ++ ']' :: rest)) (by omega) (ends_of_mem (by simp))
        rw [itemsText, hgap]
        simp [itemGap, hread, afterItem_gap hb, hmore]
    · have hread := readValue_of_not_whole t hs.1 ht fuel (itemsText true more ++ ']' :: rest)
        (by omega)
      simp [itemsText, itemGap, hread]
termination_by structural ts

theorem readMembers_of_not_whole {raw : Char → Prop} (ms : List Member) (hs : MembersSound raw ms)
    (hw : ¬ MembersWhole ms) (fuel : Nat) (rest : List Char)
    (hfuel : 2 * (membersText false ms).length + 3 ≤ fuel) :
    readMembers fuel (membersText false ms ++ '\x7d' :: rest) = none := by
  obtain ⟨fuel, rfl⟩ : ∃ k, fuel = k + 1 := ⟨fuel - 1, by omega⟩
  cases ms with
  | nil => exact absurd trivial hw
  | cons m more =>
    cases m with
    | bare key =>
      have hbare := readMembers_bare fuel key more rest
      simpa [membersText, memberGap] using hbare
    | pair key t =>
      simp only [membersText, memberGap, Bool.false_eq_true, if_false, List.nil_append,
        List.length_append] at hfuel
      simp only [membersText, memberGap, Bool.false_eq_true, if_false, List.nil_append,
        List.append_assoc, readMembers_keyChars]
      by_cases ht : t.Whole
      · cases more with
        | nil => exact absurd ⟨ht, trivial⟩ hw
        | cons next more =>
          have hgap : membersText true (next :: more) = ',' :: membersText false (next :: more) := by
            cases next <;> rfl
          rw [hgap] at hfuel ⊢
          simp only [List.length_cons] at hfuel
          have hmore := readMembers_of_not_whole (next :: more) hs.2 (fun h => hw ⟨ht, h⟩) fuel
            rest (by omega)
          obtain ⟨blanks, hb, hread⟩ := reads t hs.1 ht fuel (',' ::
            (membersText false (next :: more) ++ '\x7d' :: rest)) (by omega)
            (ends_of_mem (by simp))
          simp [hread, afterMember_gap hb, hmore]
      · have hread := readValue_of_not_whole t hs.1 ht fuel (membersText true more ++ '\x7d' :: rest)
          (by omega)
        simp [hread]
termination_by structural ms

end

/-- A tree with a bare key is not read to any depth. -/
theorem readValue_eq_none {raw : Char → Prop} {t : Tree} (hs : t.Sound raw) (hw : ¬ t.Whole)
    (fuel : Nat) (rest : List Char) : readValue fuel (t.text ++ rest) = none := by
  cases h : readValue fuel (t.text ++ rest) with
  | none => rfl
  | some p =>
    have hdeep := readValue_mono (Nat.le_add_right fuel (2 * t.text.length + 2)) h
    rw [readValue_of_not_whole t hs hw _ rest (by omega)] at hdeep
    simp at hdeep

theorem read?_eq_none {raw : Char → Prop} {t : Tree} (hs : t.Sound raw) (hw : ¬ t.Whole)
    (rest : List Char) : read? (String.ofList (t.text ++ rest)) = none := by
  simp [read?, readValue_eq_none hs hw]

end Tree

end Logline.Json
