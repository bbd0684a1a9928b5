import Logline.Line.Document
import Logline.Proofs.Line.Manners
import Logline.Proofs.Line.Values

/-!
A line says its document and a line break (`saysLine_line`): each part of the layout says the items or
members that the document has in its place, nothing where it has none, and the brackets around them
come last. The script of a line runs no other code than its values bring along (`runs_line`), and so is
tame if that is (`tame_line`).
-/

namespace Logline

open Json Text Script

/-! ### Timestamps -/

/-- Nothing in the text needs an escape. -/
def PlainText (s : String) : Prop := ∀ c ∈ s.toList, isPlain c = true

def PlainPieces (ps : List String) : Prop := ∀ p ∈ ps, PlainText p

theorem plainPieces_cons {p : String} {ps : List String} :
    PlainPieces (p :: ps) ↔ PlainText p ∧ PlainPieces ps := by
  simp [PlainPieces]

theorem plainPieces_append {ps qs : List String} :
    PlainPieces (ps ++ qs) ↔ PlainPieces ps ∧ PlainPieces qs := by
  simp only [PlainPieces, List.mem_append]
  exact ⟨fun h => ⟨fun p hp => h p (.inl hp), fun p hp => h p (.inr hp)⟩,
    fun h p hp => hp.elim (h.1 p) (h.2 p)⟩

theorem isPlain_of_mem_digits {n : Nat} {c : Char} (h : c ∈ Decimal.digits n) :
    isPlain c = true := by
  have hd := (Decimal.allDigits_digits n).2 c h
  have hrange : 0x30 ≤ c.toNat ∧ c.toNat ≤ 0x39 := by
    simpa [Char.isDigit, UInt32.le_iff_toNat_le] using hd
  have hword : c ≠ '"' ∧ c ≠ '\\' := by
    constructor <;> rintro rfl <;> simp at hd
  simp [isPlain, hword]
  omega

namespace Moment

theorem plainPieces_padded (width n : Nat) : PlainPieces (padded width n) := by
  refine plainPieces_append.2
    ⟨fun p hp => ?_, plainPieces_cons.2 ⟨fun c hc => ?_, by simp [PlainPieces]⟩⟩
  · rw [List.eq_of_mem_replicate hp]
    simp [PlainText, isPlain]
  · exact isPlain_of_mem_digits (n := n) (by simpa using hc)

theorem plainPieces_signed (n : Int) : PlainPieces (signed n) := by
  refine plainPieces_append.2 ⟨?_, plainPieces_cons.2 ⟨fun c hc => ?_, by simp [PlainPieces]⟩⟩
  · split <;> simp [PlainPieces, PlainText, isPlain]
  · exact isPlain_of_mem_digits (n := n.natAbs) (by simpa using hc)

theorem plainPieces_pieces (m : Moment) {sep : String} (hs : PlainText sep) :
    PlainPieces (m.pieces sep) := by
  have hdash : PlainText "-" := by simp [PlainText, isPlain]
  have hcolon : PlainText ":" := by simp [PlainText, isPlain]
  have hpoint : PlainText "." := by simp [PlainText, isPlain]
  simp only [pieces, plainPieces_append, plainPieces_cons, plainPieces_signed,
    plainPieces_padded, hdash, hcolon, hpoint, hs, and_self]

/-- A timestamp stands in quotes as it is. -/
theorem quotedText_text (m : Moment) {sep : String} (hs : PlainText sep) :
    quotedText (m.text sep).toList =
      '"' :: ((m.pieces sep).flatMap String.toList ++ ['Z', '"']) := by
  have htext : (m.text sep).toList = (m.pieces sep).flatMap String.toList ++ ['Z'] := by
    simp [text, String.toList_join]
  have hplain : ∀ c ∈ (m.text sep).toList, isPlain c = true := by
    intro c hc
    rw [htext] at hc
    rcases List.mem_append.1 hc with h | h
    · obtain ⟨p, hp, hc⟩ := List.mem_flatMap.1 h
      exact m.plainPieces_pieces hs p hp c hc
    · obtain rfl := List.mem_singleton.1 h
      decide
  rw [quotedText, escaped_of_plain hplain, htext]
  simp

end Moment

namespace Layout

variable {now : Clock → Moment} {late : Bool} {raw : Char → Prop}

theorem saysItem_timestamp (s : Settings) :
    SaysItem late raw (timestamp s now) true
      (some (.string ((now s.clock).text (if s.labels.isNone then " " else "T")))) := by
  have hsep : PlainText (if s.labels.isNone then " " else "T") := by
    split <;> simp [PlainText, isPlain]
  simp only [timestamp]
  generalize (if s.labels.isNone then " " else "T") = sep at hsep ⊢
  generalize now s.clock = m
  have hchunks : (m.pieces sep).map text = ((m.pieces sep).map bytes).map .chunk := by
    simp [text, Function.comp_def]
  have hflat : ((m.pieces sep).map bytes).flatten =
      encode ((m.pieces sep).flatMap String.toList) := by
    rw [encode, List.flatMap_assoc, List.flatMap_def]
    rfl
  have hquoted : encode (quotedText (m.text sep).toList) =
      bytes "\"" ++ (encode ((m.pieces sep).flatMap String.toList) ++ bytes "Z\"") := by
    rw [m.quotedText_text hsep, encode_cons, encode_append]
    rfl
  rw [← String.ofList_toList (s := m.text sep)]
  refine saysItem_quoted fun owed out after hsays => ?_
  rw [itemMark, List.cons_append, List.cons_append, hchunks] at hsays
  simp only [text, says_separate, says_chunk, says_chunks, says_owe, says_nil, itemMark_bytes,
    hflat] at hsays
  obtain ⟨_, rfl, _, rfl, _, rfl, _, rfl, rfl, rfl⟩ := hsays
  rw [encode_append, hquoted, List.append_nil]
  exact ⟨rfl, rfl⟩

end Layout

/-! ### Whether all keys are filled -/

/-- Whether no key stands without a value in what a line says. -/
def Form.filled (s : Settings) : Form Value → Bool
  | .list [v] => match s.labels with
    | none => v.filling.item
    | some l => if l.message = "" then v.filling.item else v.filling.member
  | .list args => (Value.fillings args).all fun f => f.2.item
  | .messageList _ args => (Value.fillings args).all fun f => f.2.item
  | .map tokens => Filling.tokens (Value.fillings tokens)
  | .messageMap _ tokens => Filling.tokens (Value.fillings tokens)

/-- Whether no key stands without a value in the whole line. -/
def Writer.filled (w : Writer Value) (form : Form Value) : Bool :=
  form.filled w.settings && Value.entryFilling w.context

namespace Layout

variable {now : Clock → Moment} {late : Bool} {raw : Char → Prop}

/-! ### What is said -/

theorem formWritings_eq (form : Form Value) :
    formWritings now form = writings now form.args := by
  cases form <;> rfl

theorem saysItem_listed {vs : List Value} (h : ∀ v ∈ vs, v.Written now late raw) :
    SaysItem late raw (listed ((writings now vs).map Prod.snd))
      ((Value.fillings vs).all fun f => f.2.item)
      (some (.array (Meaning.items ((Value.meanings vs).map Prod.snd)))) :=
  saysItem_array (Value.saysItems_items h)

theorem saysItem_messageListed (message : String) {vs : List Value}
    (h : ∀ v ∈ vs, v.Written now late raw) :
    SaysItem late raw (messageListed message ((writings now vs).map Prod.snd))
      ((Value.fillings vs).all fun f => f.2.item)
      (some (.array (.string message :: Meaning.items ((Value.meanings vs).map Prod.snd)))) := by
  have hall := (saysItem_quote message).items.append (Value.saysItems_items h)
  rw [Bool.true_and] at hall
  simpa [messageListed] using saysItem_array hall

/-- What a line says in an array. -/
theorem saysItems_body {s : Settings} (hs : s.labels = none) (bare : Bool) (form : Form Value)
    (h : ∀ v ∈ form.args, v.Written now late raw) :
    SaysItems late raw (body s bare form (formWritings now form)) (form.filled s)
      (Document.items form (Value.meanings form.args)) := by
  rw [formWritings_eq]
  simp only [body, hs]
  cases form with
  | list args =>
    match args with
    | [] => exact (saysItem_listed h).items
    | [v] =>
      have hfilled : (Form.list [v]).filled s = v.filling.item := by simp [Form.filled, hs]
      rw [hfilled]
      exact (h v (List.mem_singleton.2 rfl)).item.items
    | u :: v :: rest => exact (saysItem_listed h).items
  | messageList message args =>
    cases args with
    | nil => exact (saysItem_quote message).items
    | cons v rest => exact (saysItem_messageListed message h).items
  | map args => exact (saysItem_bracedScript (Value.saysMembers_tokens args h)).items
  | messageMap message args =>
    have hmessage : SaysItems late raw (quote message) true [.string message] :=
      (saysItem_quote message).items
    cases args with
    | nil => exact hmessage.append saysItems_nil
    | cons v rest =>
      exact hmessage.append (saysItem_bracedScript (Value.saysMembers_tokens (v :: rest) h)).items

theorem saysMembers_cloudMember (s : Settings) (alone : Bool) :
    SaysMembers late raw (cloudMember s alone) true (Document.cloudMember s alone) := by
  have hone : IsNumber "1".toList := by
    unfold IsNumber
    decide
  unfold cloudMember Document.cloudMember
  split
  · exact (saysItem_framed (saysBody_chunk (reads_number hone)
      (clean_of_printable (Decimal.printable_of_isNumber hone)))).keyed_some "json"
  · exact saysMembers_nil

/-- A single argument stands under the label of the message, unless that is blank. -/
theorem saysMembers_single {s : Settings} {l : Labels} (hs : s.labels = some l) (bare : Bool)
    {v : Value} (h : v.Written now late raw) :
    SaysMembers late raw (body s bare (.list [v]) (writings now [v])) ((Form.list [v]).filled s)
      (Document.members s l bare (.list [v]) (Value.meanings [v])) := by
  by_cases hm : l.message = ""
  · have hfilled : (Form.list [v]).filled s = (Value.fillings [v]).all fun f => f.2.item := by
      simp [Form.filled, hs, hm, Value.fillings]
    have hdoc : Document.members s l bare (.list [v]) (Value.meanings [v]) =
        [(l.arguments, .array (Meaning.items ((Value.meanings [v]).map Prod.snd)))] := by
      cases hi : v.meaning.item <;> simp [Document.members, hm, Value.meanings, Meaning.items, hi]
    have hvs : ∀ x ∈ [v], x.Written now late raw := fun x hx => List.mem_singleton.1 hx ▸ h
    simp only [body, hs, writings, List.map_cons, List.map_nil, hm, if_true]
    rw [hfilled, hdoc]
    exact (saysItem_listed hvs).keyed_some l.arguments
  · have hfilled : (Form.list [v]).filled s = (v.filling.member && true) := by
      simp [Form.filled, hs, hm]
    have hdoc : Document.members s l bare (.list [v]) (Value.meanings [v]) =
        (v.meaning.item.toList.map fun j => (l.message, j)) ++ Document.cloudMember s bare := by
      simp [Document.members, hm, Value.meanings, Meaning.members_eq]
    simp only [body, hs, writings, List.map_cons, List.map_nil, hm, if_false]
    rw [hfilled, hdoc]
    exact (h.member l.message).append (saysMembers_cloudMember s bare)

/-- What a line says among the members of an object. -/
theorem saysMembers_body {s : Settings} {l : Labels} (hs : s.labels = some l) (bare : Bool)
    (form : Form Value) (h : ∀ v ∈ form.args, v.Written now late raw) :
    SaysMembers late raw (body s bare form (formWritings now form)) (form.filled s)
      (Document.members s l bare form (Value.meanings form.args)) := by
  rw [formWritings_eq]
  cases form with
  | list args =>
    match args with
    | [] =>
      simp only [body, hs]
      exact (saysItem_listed h).keyed_some l.arguments
    | [v] => exact saysMembers_single hs bare (h v (List.mem_singleton.2 rfl))
    | u :: v :: rest =>
      simp only [body, hs]
      exact (saysItem_listed h).keyed_some l.arguments
  | messageList message args =>
    have hmessage : SaysMembers late raw (key l.message ++ quote message) true
        [(l.message, .string message)] := (saysItem_quote message).keyed_some l.message
    simp only [body, hs]
    by_cases hm : l.message = ""
    · simp only [hm, if_true, Document.members]
      exact (saysItem_messageListed message h).keyed_some l.arguments
    · simp only [hm, if_false, Document.members]
      cases args with
      | nil =>
        exact hmessage.append (saysMembers_cloudMember s bare)
      | cons v rest =>
        have hlist := hmessage.append ((saysItem_listed h).keyed_some l.arguments)
        rw [Bool.true_and] at hlist
        exact hlist
  | map args =>
    simp only [body, hs]
    exact Value.saysMembers_tokens args h
  | messageMap message args =>
    have hlabel : ∀ label, SaysMembers late raw (key label ++ quote message) true
        [(label, .string message)] := (saysItem_quote message).keyed_some
    have hall := ((hlabel (if l.message = "" then "msg" else l.message)).append
      (Value.saysMembers_tokens args h)).append (saysMembers_cloudMember s (bare && args.isEmpty))
    rw [Bool.true_and, Bool.and_true] at hall
    have hw : (writings now args).isEmpty = args.isEmpty := by
      rw [Value.writings_eq, List.isEmpty_map]
    have hm : (Value.meanings args).isEmpty = args.isEmpty := by
      rw [Value.meanings_eq, List.isEmpty_map]
    simpa [body, hs, Form.args, Form.filled, Document.members, hw, hm] using hall

/-! ### Context and module -/

section Context

variable {context : Pairs Value} (h : ∀ e ∈ context.entries, e.2.Written now late raw)
include h

theorem saysMembers_context :
    SaysMembers late raw (members (entryWritings now context)) (Value.entryFilling context)
      (Meaning.members (Value.entryMeanings context)) := by
  cases context
  exact Value.saysMembers_members _ h

theorem saysItems_contextPart {s : Settings} (hs : s.labels = none) :
    SaysItems late raw (contextPart s (entryWritings now context)) (Value.entryFilling context)
      (if context.isEmpty then []
        else [.object (Meaning.members (Value.entryMeanings context))]) := by
  obtain ⟨stamp, entries⟩ := context
  cases entries with
  | nil => exact saysItems_nil
  | cons e rest =>
    have hitem := (saysItem_bracedScript (saysMembers_context h)).items
    simp only [contextPart, hs]
    exact hitem

theorem saysMembers_contextPart {s : Settings} {l : Labels} (hs : s.labels = some l) :
    SaysMembers late raw (contextPart s (entryWritings now context)) (Value.entryFilling context)
      (if context.isEmpty then []
        else if l.context = "" then Meaning.members (Value.entryMeanings context)
        else [(l.context, .object (Meaning.members (Value.entryMeanings context)))]) := by
  obtain ⟨stamp, entries⟩ := context
  cases entries with
  | nil => exact saysMembers_nil
  | cons e rest =>
    have hmembers := saysMembers_context h
    have hitem := (saysItem_bracedScript hmembers).keyed_some l.context
    simp only [contextPart, hs]
    by_cases hl : l.context = ""
    · simp only [hl, if_true]
      exact hmembers
    · simp only [hl, if_false]
      exact hitem

end Context

theorem saysItems_modulePart {s : Settings} (hs : s.labels = none) (module : Option String) :
    SaysItems late raw (modulePart s module) true
      (module.map fun name => Json.string ("mod=" ++ name)).toList := by
  cases module with
  | none => exact saysItems_nil
  | some name =>
    simp only [modulePart, hs]
    exact (saysItem_quote _).items

theorem saysMembers_modulePart {s : Settings} {l : Labels} (hs : s.labels = some l)
    (module : Option String) :
    SaysMembers late raw (modulePart s module) true
      (module.map fun name => (l.module, Json.string name)).toList := by
  cases module with
  | none => exact saysMembers_nil
  | some name =>
    simp only [modulePart, hs]
    exact (saysItem_quote name).keyed_some l.module

/-! ### Whole lines -/

/-- Lines are arrays, or objects if their parts have labels. -/
def isLine (labelled : Bool) : Json → Bool
  | .array _ => !labelled
  | .object _ => labelled
  | _ => false

/-- The script says a document and a line break. -/
def SaysLine (late : Bool) (raw : Char → Prop) (s : Script) (labelled filled : Bool)
    (meant : Json) : Prop :=
  ∀ out after, Says late s false out after →
    ∃ t : Tree, out = encode (t.text ++ ['\n']) ∧ t.Sound raw ∧ isLine labelled t.json ∧
      Agrees late filled t.Whole t.json meant

theorem saysLine_array {s : Script} {f : Bool} {js : List Json} (h : SaysItems late raw s f js) :
    SaysLine late raw (opening "[" ++ s ++ [text "]\n", .owe false]) false f (.array js) := by
  intro out after hs
  obtain ⟨_, _, _, rfl, hs, hc⟩ := says_append.1 hs
  obtain ⟨_, _, _, rfl, ho, hb⟩ := says_append.1 hs
  obtain ⟨rfl, rfl⟩ := says_opening.1 ho
  obtain ⟨ts, rfl, -, hsound, hagrees⟩ := h _ _ _ hb
  simp only [text, says_chunk, says_owe, says_nil] at hc
  obtain ⟨_, rfl, rfl, -⟩ := hc
  refine ⟨.array ts, ?_, hsound, rfl, hagrees.map Iff.rfl Json.array⟩
  simp [itemGap, Tree.text, encode, bytes]

theorem saysLine_object {s : Script} {f : Bool} {ms : List (String × Json)}
    (h : SaysMembers late raw s f ms) :
    SaysLine late raw (opening "\x7b" ++ s ++ [text "\x7d\n", .owe false]) true f
      (.object ms) := by
  intro out after hs
  obtain ⟨_, _, _, rfl, hs, hc⟩ := says_append.1 hs
  obtain ⟨_, _, _, rfl, ho, hb⟩ := says_append.1 hs
  obtain ⟨rfl, rfl⟩ := says_opening.1 ho
  obtain ⟨ts, rfl, -, hsound, hagrees⟩ := h _ _ _ hb
  simp only [text, says_chunk, says_owe, says_nil] at hc
  obtain ⟨_, rfl, rfl, -⟩ := hc
  refine ⟨.object ts, ?_, hsound, rfl, hagrees.map Iff.rfl Json.object⟩
  simp [itemGap, Tree.text, encode, bytes]

/-- A line says its document, at any time it may be written. -/
theorem saysLine_line (w : Writer Value) (form : Form Value)
    (hargs : ∀ v ∈ form.args, v.Written now late raw)
    (hcontext : ∀ e ∈ w.context.entries, e.2.Written now late raw) :
    SaysLine late raw
      (line now w form (formWritings now form) (entryWritings now w.context))
      w.settings.labels.isSome (w.filled form) (Document.ofLine now w form) := by
  have hempty : (entryWritings now w.context).isEmpty = w.context.isEmpty := by
    rw [Value.entryWritings_eq, List.isEmpty_map]
    rfl
  have hlevel : SaysItem late raw (quote (w.settings.levelText w.severity.name)) true
      (some (.string (w.settings.levelText w.severity.name))) := saysItem_quote _
  have htime : SaysItem late raw (timestamp w.settings now) true _ := saysItem_timestamp w.settings
  have hfilled : (((true && true) && form.filled w.settings) && Value.entryFilling w.context &&
      true) = w.filled form := by simp [Writer.filled]
  cases hs : w.settings.labels with
  | none =>
    have hbody := saysItems_body hs w.context.isEmpty form hargs
    have hall := (((htime.items.append hlevel.items).append hbody).append
      (saysItems_contextPart hcontext hs)).append (saysItems_modulePart hs w.module)
    rw [hfilled] at hall
    simpa [line, head, tail, hs, hempty, Document.ofLine] using saysLine_array hall
  | some l =>
    have hbody := saysMembers_body hs w.context.isEmpty form hargs
    have hall := ((((htime.keyed_some l.time).append (hlevel.keyed_some l.level)).append
      hbody).append (saysMembers_contextPart hcontext hs)).append
        (saysMembers_modulePart hs w.module)
    rw [hfilled] at hall
    simpa [line, head, tail, hs, hempty, Document.ofLine] using saysLine_object hall

end Layout

/-! ### What code a line runs -/

def Form.keys : Form Value → List Value
  | .list args => Value.keysOf args
  | .messageList _ args => Value.keysOf args
  | .map tokens => Run.tokenKeys tokens ++ Value.keysOf tokens
  | .messageMap _ tokens => Run.tokenKeys tokens ++ Value.keysOf tokens

namespace Writer

variable (w : Writer Value) (form : Form Value)

/-- All values that are written in a line. -/
def parts : List Value := Value.partsOf form.args ++ Value.entryParts w.context

/-- What stands, or may be spliced in to stand, in the place of a key. -/
def keys : List Value := form.keys ++ Value.entryKeys w.context

theorem mem_parts_of_key {k x : Value} (hk : k ∈ w.keys form) (hx : x ∈ k.parts) :
    x ∈ w.parts form := by
  rcases List.mem_append.1 hk with hk | hk
  · refine List.mem_append_left _ ?_
    have htoken : k ∈ Run.tokenKeys form.args → x ∈ Value.partsOf form.args := fun hk => by
      rw [Value.partsOf_eq]
      exact List.mem_flatMap.2 ⟨k, Value.mem_of_mem_tokenKeys hk, hx⟩
    cases form with
    | list args => exact Value.mem_partsOf_of_key args hk hx
    | messageList message args => exact Value.mem_partsOf_of_key args hk hx
    | map args =>
      exact (List.mem_append.1 hk).elim htoken fun hk => Value.mem_partsOf_of_key args hk hx
    | messageMap message args =>
      exact (List.mem_append.1 hk).elim htoken fun hk => Value.mem_partsOf_of_key args hk hx
  · exact List.mem_append_right _ (Value.mem_entryParts_of_key w.context hk hx)

end Writer

namespace Layout

variable {now : Clock → Moment} {P : Instr → Prop} [hP : Instr.Common P]

theorem every_cloudMember (s : Settings) (alone : Bool) : Script.Every P (cloudMember s alone) := by
  unfold cloudMember
  split
  · have hone : Whole (bytes "1") := whole_bytes (by decide)
    exact (Writing.every_plain (every_chunk hone) []).member _ (every_key _)
  · exact trivial

theorem every_listed {ws : List Writing} (h : ∀ w ∈ ws, w.Every P) : Script.Every P (listed ws) :=
  every_bracketed (Value.every_items h)

theorem every_messageListed (message : String) {ws : List Writing} (h : ∀ w ∈ ws, w.Every P) :
    Script.Every P (messageListed message ws) := by
  have hall : Script.Every P (opening "[" ++ (quote message ++ items ws) ++ closing "]") :=
    every_bracketed (every_append.2 ⟨every_quote message, Value.every_items h⟩)
  simpa [messageListed] using hall

section Body

variable {s : Settings} (bare : Bool) (form : Form Value)
  (h : ∀ v ∈ form.args, (v.writing now).Every P)
  (hk : ∀ k ∈ form.keys, P (.direct ((k.writing now).keyActs ())))
include h hk

theorem every_body_array (hs : s.labels = none) :
    Script.Every P (body s bare form (formWritings now form)) := by
  rw [formWritings_eq]
  have hws := Value.every_of_mem_writings h
  cases form with
  | list args =>
    simp only [body, hs]
    split
    · next w hw => exact (hws w (by simp [hw])).item
    · exact every_listed hws
  | messageList message args =>
    simp only [body, hs]
    split
    · exact every_quote message
    · exact every_messageListed message hws
  | map args =>
    have htokens := Value.every_tokens args h fun k hk' => hk k (List.mem_append_left _ hk')
    simp only [body, hs]
    exact every_braced htokens
  | messageMap message args =>
    have htokens := Value.every_tokens args h fun k hk' => hk k (List.mem_append_left _ hk')
    simp only [body, hs]
    refine every_append.2 ⟨every_quote message, ?_⟩
    split
    · exact trivial
    · exact every_braced htokens

theorem every_body_object {l : Labels} (hs : s.labels = some l) :
    Script.Every P (body s bare form (formWritings now form)) := by
  rw [formWritings_eq]
  have hws := Value.every_of_mem_writings h
  have hlist : ∀ label,
      Script.Every P (key label ++ listed ((writings now form.args).map Prod.snd)) :=
    fun label => every_append.2 ⟨every_key label, every_listed hws⟩
  have hmessage : ∀ label message, Script.Every P (key label ++ quote message) :=
    fun label message => every_append.2 ⟨every_key label, every_quote message⟩
  cases form with
  | list args =>
    simp only [body, hs]
    split
    · next w hw =>
      have hmember := (hws w (by simp [hw])).member _ (every_key l.message)
      split
      · exact hlist l.arguments
      · exact every_append.2 ⟨hmember, every_cloudMember s bare⟩
    · exact hlist l.arguments
  | messageList message args =>
    simp only [body, hs]
    split
    · exact every_append.2 ⟨every_key _, every_messageListed message hws⟩
    · refine every_append.2 ⟨hmessage l.message message, ?_⟩
      split
      · exact every_cloudMember s bare
      · exact hlist l.arguments
  | map args =>
    simp only [body, hs]
    exact Value.every_tokens args h fun k hk' => hk k (List.mem_append_left _ hk')
  | messageMap message args =>
    have htokens := Value.every_tokens args h fun k hk' => hk k (List.mem_append_left _ hk')
    simp only [body, hs]
    exact every_append.2 ⟨every_append.2 ⟨hmessage _ message, htokens⟩, every_cloudMember s _⟩

/-- What holds of the code of its values, holds of all that a line asks for to say them. -/
theorem every_body : Script.Every P (body s bare form (formWritings now form)) := by
  cases hs : s.labels with
  | none => exact every_body_array bare form h hk hs
  | some l => exact every_body_object bare form h hk hs

end Body

theorem every_timestamp (s : Settings) : Script.Every P (timestamp s now) := by
  have hsep : PlainText (if s.labels.isNone then " " else "T") := by
    split <;> simp [PlainText, isPlain]
  have hpieces : Script.Every P
      (((now s.clock).pieces (if s.labels.isNone then " " else "T")).map text) := by
    rw [every_iff, List.forall_mem_map]
    exact fun p hp => hP.chunk _ (whole_plain ((now s.clock).plainPieces_pieces hsep p hp))
  exact ⟨every_itemMark, every_text (by decide),
    every_append.2 ⟨hpieces, every_text (by decide), hP.owe _, trivial⟩⟩

theorem every_head (s : Settings) (severity : Severity) :
    Script.Every P (head s now severity) := by
  unfold head
  split
  · exact every_append.2 ⟨every_append.2 ⟨every_opening (by decide), every_timestamp s⟩, every_quote _⟩
  · simp only [every_append]
    exact ⟨⟨⟨⟨every_opening (by decide), every_key _⟩, every_timestamp s⟩, every_key _⟩,
      every_quote _⟩

theorem every_tail (s : Settings) {context : List (String × Writing)}
    (h : ∀ e ∈ context, e.2.Every P) (module : Option String) :
    Script.Every P (tail s context module) := by
  have hmembers := Value.every_members h
  have hcontext : Script.Every P (contextPart s context) := by
    unfold contextPart
    split
    · exact trivial
    split
    · exact every_braced hmembers
    split
    · exact hmembers
    · exact every_append.2 ⟨every_key _, every_braced hmembers⟩
  have hmodule : Script.Every P (modulePart s module) := by
    unfold modulePart
    split
    · exact trivial
    · exact every_quote _
    · exact every_append.2 ⟨every_key _, every_quote _⟩
  have hend : (text (if s.labels.isSome then "\x7d\n" else "]\n")).Every P :=
    every_text (by split <;> decide)
  exact every_append.2 ⟨every_append.2 ⟨hcontext, hmodule⟩, hend, hP.owe _, trivial⟩

/-- What holds of the code of its values, holds of all that a line asks for. -/
theorem every_line (w : Writer Value) (form : Form Value)
    (h : Value.Every now P (w.parts form) (w.keys form)) :
    Script.Every P (line now w form (formWritings now form) (entryWritings now w.context)) := by
  have hargs : ∀ v ∈ form.args, (v.writing now).Every P := by
    refine Value.writings_every form.args
      ⟨h.left.json, h.left.parts, fun k hk => h.keys k ?_⟩
    refine List.mem_append_left _ ?_
    cases form with
    | list args => exact hk
    | messageList message args => exact hk
    | map args => exact List.mem_append_right _ hk
    | messageMap message args => exact List.mem_append_right _ hk
  have hcontext : ∀ e ∈ entryWritings now w.context, e.2.Every P := by
    obtain ⟨_, _, ⟨_, entries⟩, _, _⟩ := w
    exact Value.memberWritings_every entries h.right
  exact every_append.2 ⟨every_append.2 ⟨every_head _ _, every_body _ form hargs h.left.keys⟩,
    every_tail _ hcontext _⟩

/-- A line runs no other code than that of its values. -/
theorem runs_line {K : List Act → Prop} {V : List Act → Script → Prop} (w : Writer Value)
    (form : Form Value) (h : Value.Runs now K V (w.parts form) (w.keys form)) :
    Script.Runs K V (line now w form (formWritings now form) (entryWritings now w.context)) :=
  (Script.runs_iff_every _).2 (every_line w form h.every)

/-- A line is tame if the code of its values is. -/
theorem tame_line {m : Manner} (w : Writer Value) (form : Form Value)
    (h : Value.Tame now m (w.parts form) (w.keys form)) :
    Script.Tame m (line now w form (formWritings now form) (entryWritings now w.context)) :=
  (Script.tame_iff_runs _).2 (runs_line w form h.runs)

end Layout

end Logline
