import Logline.Line.Values
import Logline.Proofs.Decimal.Numbers
import Logline.Proofs.Line.Pieces
import Logline.Proofs.Text.Decoding
import Logline.Proofs.Value.Filling

/-!
What is written of a value is what it means (`Value.writing_says`): as an item of a list, as the value
of a member and with its pairs spliced in. All that is asked of the callers is that what they marshal
is JSON. Where a key would stand without a value the text is no document.
-/

namespace Logline

open Json Text Script

theorem Meaning.members_eq (es : List (String × Meaning)) :
    members es = es.flatMap fun e => e.2.item.toList.map fun j => (e.1, j) := by
  induction es with
  | nil => rfl
  | cons e rest ih =>
    obtain ⟨key, item, pairs⟩ := e
    cases item <;> simpa [members] using ih

/-- The three ways of a writing agree with the three of a meaning. -/
structure Writing.Says (late : Bool) (raw : Char → Prop) (w : Writing) (f : Filling) (m : Meaning) :
    Prop where
  item : SaysItem late raw w.item f.item m.item
  member : ∀ label, SaysMembers late raw (w.member (key label)) f.member
    (m.item.toList.map fun j => (label, j))
  splice : SaysMembers late raw w.splice f.splice m.pairs

namespace Writing

variable {late : Bool} {raw : Char → Prop} {body : Script} {f g : Bool} {j : Json}

theorem says_plain (h : SaysBody late raw body f j) (acts : List Act) :
    (plain body acts).Says late raw (.all f) (.plain j) :=
  ⟨saysItem_framed h, (saysItem_framed h).keyed_some,
    (saysItem_framed h).keyed_some "cannot-inline"⟩

theorem says_paired {pairs : Unit → Script} {ps : List (String × Json)}
    (h : SaysBody late raw body f j) (hp : SaysMembers late raw (pairs ()) g ps) (acts : List Act) :
    (paired body pairs acts).Says late raw ⟨f, f, g⟩ ⟨some j, ps⟩ where
  item := (says_plain h acts).item
  member := (says_plain h acts).member
  splice := hp.later

theorem says_nothing : nothing.Says late raw (.all true) .nothing where
  item owed out after hs := by
    obtain ⟨rfl, rfl⟩ := says_nil.1 hs
    exact ⟨none, rfl, by simp, trivial, by simp [Meaning.nothing], .refl _⟩
  member _ := saysMembers_nil
  splice := saysMembers_nil

theorem saysMembers_late (label : String) :
    SaysMembers late raw (key label ++ lateItem) true [(label, .string lateText)] :=
  saysItem_lateItem.keyed_some label

/-- A deferred value is what its result is; only its key has to know beforehand whether that is the
empty map. -/
theorem says_deferred (result : Unit → Writing) {fill : Filling} {m : Meaning} {isEmptyMap : Bool}
    (h : (result ()).Says late raw fill m) (he : isEmptyMap = true → m.item = none)
    (acts : List Act) :
    (deferred acts isEmptyMap result).Says late raw
      ⟨fill.item, isEmptyMap || (fill.item && m.item.isSome), fill.splice⟩ m where
  item := h.item.later.guarded acts saysItem_lateItem
  member label := by
    refine SaysMembers.guarded acts ?_ (saysMembers_late label)
    cases isEmptyMap with
    | true =>
      simp only [he rfl]
      exact saysMembers_nil
    | false => simpa using h.item.later.keyed label
  splice := h.splice.later.guarded acts (saysMembers_late "cannot-inline")

theorem says_null : null.Says late raw (.all true) (.plain .null) :=
  says_plain (saysBody_chunk reads_null (clean_of_printable (by simp [Printable]))) []

end Writing

namespace Value

variable {now : Clock → Moment} {late : Bool} {raw : Char → Prop}

/-- What is marshalled is JSON, with no controls in it but those among `raw`. -/
def IsJson (raw : Char → Prop) (json : Bytes) : Prop :=
  ∃ text j, decode? json = some text ∧ read? text = some j ∧ Clean raw text.toList

/-- The value is written as what it means. -/
def Written (now : Clock → Moment) (late : Bool) (raw : Char → Prop) (v : Value) : Prop :=
  (v.writing now).Says late raw v.filling v.meaning

section Containers

variable {vs : List Value} (h : ∀ v ∈ vs, v.Written now late raw)
include h

theorem saysItems_items :
    SaysItems late raw (items ((writings now vs).map Prod.snd))
      ((fillings vs).all fun f => f.2.item) (Meaning.items ((meanings vs).map Prod.snd)) := by
  have hall := saysItems_flatMap (fun v => (v.writing now).item) (fun v => v.filling.item)
    (fun v => v.meaning.item) vs fun v hv => (h v hv).item
  simpa [items, writings_eq, fillings_eq, meanings_eq, Meaning.items, List.flatMap_map,
    List.filterMap_map, Function.comp_def] using hall

end Containers

/-- Members in the order they are given. -/
theorem saysMembers_members (es : List (String × Value))
    (h : ∀ e ∈ es, e.2.Written now late raw) :
    SaysMembers late raw (members (memberWritings now es)) (memberFilling es)
      (Meaning.members (memberMeanings es)) := by
  have hall := saysMembers_flatMap (fun e => (e.2.writing now).member (key e.1))
    (fun e => e.2.filling.member) (fun e => e.2.meaning.item.toList.map fun j => (e.1, j)) es
    fun e he => (h e he).member e.1
  rw [Meaning.members_eq, memberWritings_eq, memberFilling_eq, memberMeanings_eq]
  simpa [members, List.flatMap_map] using hall

/-- Members in the order of their keys. -/
theorem saysMembers_byKey {ms : List (String × Value)} (h : ∀ m ∈ ms, m.2.Written now late raw) :
    SaysMembers late raw (members (byKey (memberWritings now ms))) (memberFilling ms)
      (Meaning.members ((memberMeanings ms).mergeSort fun a b => a.1 ≤ b.1)) := by
  have hsorted := saysMembers_members (ms.mergeSort fun a b => a.1 ≤ b.1)
    fun m hm => h m (List.mem_mergeSort.1 hm)
  have hfilled : memberFilling (ms.mergeSort fun a b => a.1 ≤ b.1) = memberFilling ms := by
    rw [memberFilling_eq, memberFilling_eq]
    exact List.Perm.all_eq (List.mergeSort_perm ms _)
  rw [hfilled, memberWritings_eq, memberMeanings_eq, List.map_mergeSort, List.map_mergeSort,
    ← memberWritings_eq, ← memberMeanings_eq] at hsorted
  · exact hsorted
  all_goals exact fun a _ b _ => rfl

/-- Keys and values in turn. -/
theorem saysMembers_tokens (vs : List Value) (h : ∀ v ∈ vs, v.Written now late raw) :
    SaysMembers late raw (tokens (writings now vs)) (Filling.tokens (fillings vs))
      (Meaning.tokens (meanings vs)) := by
  match vs with
  | [] => exact saysMembers_nil
  | [k] =>
    simp only [writings, fillings, meanings, tokens, Filling.tokens, Meaning.tokens]
    cases k.marker? with
    | some _ => exact saysMembers_nil
    | none => exact (Writing.says_null.member k.keyText).direct _
  | k :: v :: rest =>
    have hv := h v (by simp)
    have hrest := saysMembers_tokens rest fun u hu => h u (by simp [hu])
    simp only [writings, fillings, meanings, tokens, Filling.tokens, Meaning.tokens]
    refine SaysMembers.append ?_ hrest
    cases k.marker? with
    | none =>
      rw [Meaning.members_eq]
      simpa using (hv.member k.keyText).direct ((k.writing now).keyActs ())
    | some m =>
      cases m with
      | skip => exact saysMembers_nil
      | inline => exact hv.splice

/-! ### Values that hold no others -/

theorem saysBody_binary {f : Decimal.Format} (hf : f = .single ∨ f = .double) (bits : Nat) :
    SaysBody late raw [text (Decimal.Spelling.line.text (f.read bits))] true
      (ofBinary (f.read bits)) := by
  have hquoted : ∀ word : String, SaysBody late raw [.chunk (encode (quotedText word.toList))] true
      (.string word) := fun word =>
    saysBody_chunk (reads_quotedText word) (clean_of_printable (Tree.printable_quotedText _))
  cases hread : f.read bits with
  | nan => exact hquoted "NaN"
  | infinite negative =>
    cases negative with
    | true => exact hquoted "-Inf"
    | false => exact hquoted "+Inf"
  | finite negative m =>
    have hnumber := Decimal.isNumber_line (Decimal.inRange_of_read hf hread) negative
    exact saysBody_chunk (reads_number hnumber)
      (clean_of_printable (Decimal.printable_of_isNumber hnumber))

theorem saysBody_int (n : Int) :
    SaysBody late raw [text (Decimal.intText n)] true (.number (Decimal.intText n)) :=
  saysBody_chunk (reads_number (Decimal.isNumber_intText n))
    (clean_of_printable (Decimal.printable_of_isNumber (Decimal.isNumber_intText n)))

theorem saysBody_bool (b : Bool) : SaysBody late raw [text (boolText b)] true (.bool b) := by
  refine saysBody_chunk (reads_bool b) (clean_of_printable ?_)
  cases b <;> simp [Printable, boolText]

theorem saysBody_strs (texts : List String) :
    SaysBody late raw (opening "[" ++ texts.flatMap quote ++ closing "]") true
      (.array (texts.map .string)) := by
  have hquote : ∀ t ∈ texts, SaysItem late raw (quote t) true (some (.string t)) :=
    fun t _ => saysItem_quote t
  have hall := saysItems_flatMap quote (fun _ => true) (some ∘ Json.string) texts hquote
  rw [List.filterMap_eq_map, List.all_eq_true.2 fun _ _ => rfl] at hall
  exact (saysItem_array hall).body

/-- Code of a caller that comes to a text. -/
theorem saysBody_told (acts : List Act) (s : String) :
    SaysBody late raw [.guarded acts (quote s) (quote lateText)] true (.string s) :=
  (saysItem_quote s).body.guarded acts (saysItem_quote lateText).body

/-- Code of a caller that comes to JSON. -/
theorem saysBody_json {json : Bytes} (h : IsJson raw json) (acts : List Act) :
    SaysBody late raw [.guarded acts [.chunk json] (quote lateText)] true
      (((decode? json).bind read?).getD .null) := by
  obtain ⟨text, j, hd, hr, hc⟩ := h
  obtain rfl := eq_bytes_of_decode? hd
  simp only [hd, Option.bind_some, hr, Option.getD_some]
  exact (saysBody_chunk (reads_of_read? hr) hc).guarded acts (saysItem_quote lateText).body

theorem item_of_isEmptyMap {v : Value} (h : v.isEmptyMap = true) : v.meaning.item = none := by
  cases v with
  | map p =>
    obtain ⟨stamp, entries⟩ := p
    cases entries with
    | nil => rfl
    | cons e rest => simp [isEmptyMap, Pairs.isEmpty] at h
  | _ => simp [isEmptyMap] at h

/-! ### All values -/

mutual

/-- What is written of a value is what it means, if what callers marshal is JSON. -/
theorem writing_says (v : Value)
    (h : ∀ x ∈ v.parts, ∀ json, x.marshalled? = some json → IsJson raw json) :
    v.Written now late raw := by
  cases v with
  | null => exact Writing.says_null
  | str s => exact Writing.says_plain (saysItem_quote s).body []
  | bytes bs => exact Writing.says_plain (saysItem_quoteBytes bs).body []
  | int n => exact Writing.says_plain (saysBody_int n.val) []
  | single bits => exact Writing.says_plain (saysBody_binary (.inl rfl) bits.toNat) []
  | double bits => exact Writing.says_plain (saysBody_binary (.inr rfl) bits.toNat) []
  | bool b => exact Writing.says_plain (saysBody_bool b) []
  | strs texts => exact Writing.says_plain (saysBody_strs texts) []
  | list vs =>
    rw [parts] at h
    have hall := writings_say vs fun x hx => h x (List.mem_cons_of_mem _ hx)
    have hitems := (saysItem_array (saysItems_items hall)).body
    exact Writing.says_paired hitems (saysMembers_tokens vs hall) _
  | map p =>
    obtain ⟨stamp, entries⟩ := p
    have hall := members_say entries fun x hx => h x (List.mem_cons_of_mem _ hx)
    cases entries with
    | nil => exact Writing.says_nothing
    | cons e rest =>
      have hpairs := saysMembers_members (e :: rest) hall
      exact Writing.says_paired (saysItem_bracedScript hpairs).body hpairs _
  | raw vs =>
    rw [parts] at h
    have hall := writings_say vs fun x hx => h x (List.mem_cons_of_mem _ hx)
    have hpairs := saysMembers_tokens vs hall
    exact Writing.says_paired (saysItem_bracedScript hpairs).body hpairs _
  | object ms =>
    have hall := members_say ms fun x hx => h x (List.mem_cons_of_mem _ hx)
    exact Writing.says_plain (saysItem_bracedScript (saysMembers_byKey hall)).body _
  | error code s => exact Writing.says_plain (saysBody_told (codeActs now code) s) _
  | display code s => exact Writing.says_plain (saysBody_told (codeActs now code) s) _
  | marshal code result thing =>
    cases result with
    | ok json =>
      have hjson := h _ (self_mem_parts _) json rfl
      exact Writing.says_plain (saysBody_json hjson (codeActs now code)) _
    | error e => exact Writing.says_plain (saysBody_told (codeActs now code ++ _) _) _
  | lazy code v =>
    have hv := writing_says v fun x hx => h x (mem_parts_lazy hx)
    have hfilling : (lazy code v).filling =
        ⟨v.filling.item, v.isEmptyMap || (v.filling.item && v.meaning.item.isSome),
          v.filling.splice⟩ := by
      rw [← Option.not_isNone, isNone_meaning_item]
      rfl
    rw [Written, hfilling]
    exact Writing.says_deferred (fun _ => v.writing now) hv item_of_isEmptyMap (codeActs now code)
  | marker m => exact Writing.says_null
termination_by structural v

theorem writings_say (vs : List Value)
    (h : ∀ x ∈ partsOf vs, ∀ json, x.marshalled? = some json → IsJson raw json) :
    ∀ v ∈ vs, v.Written now late raw := by
  cases vs with
  | nil => simp
  | cons v rest =>
    rw [partsOf] at h
    have hv := writing_says v fun x hx => h x (List.mem_append_left _ hx)
    have hrest := writings_say rest fun x hx => h x (List.mem_append_right _ hx)
    intro u hu
    rcases List.mem_cons.1 hu with rfl | hu
    · exact hv
    · exact hrest u hu
termination_by structural vs

theorem members_say (ms : List (String × Value))
    (h : ∀ x ∈ memberParts ms, ∀ json, x.marshalled? = some json → IsJson raw json) :
    ∀ m ∈ ms, m.2.Written now late raw := by
  cases ms with
  | nil => simp
  | cons m rest =>
    obtain ⟨label, v⟩ := m
    rw [memberParts] at h
    have hv := writing_says v fun x hx => h x (List.mem_append_left _ hx)
    have hrest := members_say rest fun x hx => h x (List.mem_append_right _ hx)
    intro u hu
    rcases List.mem_cons.1 hu with rfl | hu
    · exact hv
    · exact hrest u hu
termination_by structural ms

end

end Value

end Logline
