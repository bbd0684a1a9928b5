import Logline.Proofs.Line.Handed
import Logline.Proofs.Spans.Context

/-!
What an event's line says. The last of the event's fields that is called `message` and is a text, or
something shown, is the message; all other fields are members, once each and in their order, and so is
a number that is called `message` (`event_says_its_fields`). Fields are of kinds that need no code of
callers, so the line comes to its end and reads back.
-/

namespace Logline

open Recording Json

namespace FieldValue

/-- The kinds of values that are recorded. -/
inductive Recorded : FieldValue → Prop
  | text (s : String) : Recorded (.text s)
  | shown (s : String) : Recorded (.shown s)
  | error (text : String) : Recorded (.error text)
  | int (n : Integer) : Recorded (.value (.int n))
  | double (bits : UInt64) : Recorded (.value (.double bits))
  | bool (b : Bool) : Recorded (.value (.bool b))

/-- What stands for a field's value in a line. -/
def json (v : FieldValue) : Json := v.asValue.meaning.item.getD .null

namespace Recorded

variable {v : FieldValue}

theorem bare (h : v.Recorded) : ∀ x ∈ v.asValue.parts, x.Bare := by
  cases h <;> intro x hx <;> obtain rfl := List.mem_singleton.1 hx <;> exact ⟨rfl, rfl, rfl⟩

/-- No recorded value means nothing. -/
theorem item_eq (h : v.Recorded) : v.asValue.meaning.item = some v.json := by
  cases h <;> rfl

end Recorded

end FieldValue

namespace Recording

variable {fields : List (String × FieldValue)}

/-- The text of the last field that is a message. -/
def messageOf (fields : List (String × FieldValue)) : Option String :=
  (fields.filter isMessage).getLast?.bind fun f => f.2.message?

/-- All other fields. -/
def membersOf (fields : List (String × FieldValue)) : List (String × Json) :=
  (fields.filter (!isMessage ·)).map fun f => (f.1, f.2.json)

theorem meant_tokensOf (h : ∀ f ∈ fields, f.2.Recorded) :
    Meaning.tokens (Value.meanings (Value.tokensOf (fields.map asPair))) =
      fields.map fun f => (f.1, f.2.json) := by
  induction fields with
  | nil => rfl
  | cons f rest ih =>
    have hrest := ih fun g hg => h g (List.mem_cons_of_mem _ hg)
    have hitem : (asPair f).2.meaning.item = some f.2.json := (h f List.mem_cons_self).item_eq
    show Meaning.members [(f.1, (asPair f).2.meaning)] ++
      Meaning.tokens (Value.meanings (Value.tokensOf (rest.map asPair))) = _
    rw [hrest, Meaning.members_eq, List.flatMap_singleton, hitem]
    rfl

theorem bare_counted (h : ∀ f ∈ fields, f.2.Recorded) {e : String × Value}
    (he : e ∈ counted fields) : ∀ x ∈ e.2.parts, x.Bare := by
  obtain ⟨f, hf, rfl⟩ := List.mem_map.1 he
  refine (h f ?_).bare
  exact (List.mem_append.1 hf).elim List.mem_of_mem_filter List.mem_of_mem_filter

theorem message_ofFields (fields : List (String × FieldValue)) :
    (ofFields fields).message = messageOf fields := by
  rw [ofFields_eq]
  rfl

theorem form_of_none (h : messageOf fields = none) :
    (ofFields fields).form = .map (ofFields fields).tokens := by
  rw [form, message_ofFields, h]

theorem form_of_some {text : String} (h : messageOf fields = some text) :
    (ofFields fields).form = .messageMap text (ofFields fields).tokens := by
  rw [form, message_ofFields, h]

theorem args_form (fields : List (String × FieldValue)) :
    (ofFields fields).form.args = Value.tokensOf ((fields.filter (!isMessage ·)).map asPair) := by
  rw [ofFields_eq, form]
  split <;> rfl

theorem isEmpty_tokensOf (fields : List (String × FieldValue)) :
    (Value.tokensOf (fields.map asPair)).isEmpty = fields.isEmpty := by
  cases fields <;> rfl

end Recording

/-! ### The document of an event -/

/-- The document of an event's line, with the text of its message, if there is one, and members. -/
def Document.ofEvent (now : Clock → Moment) (w : Writer Value) (message : Option String)
    (members : List (String × Json)) : Json :=
  let s := w.settings
  let level : Json := .string (s.levelText w.severity.name)
  let context := Meaning.members (Value.entryMeanings w.context)
  match s.labels with
  | none =>
    .array <| .string ((now s.clock).text " ") :: level ::
      (match message with
        | none => [.object members]
        | some text => .string text :: if members.isEmpty then [] else [.object members]) ++
        (if w.context.isEmpty then [] else [.object context]) ++
          (w.module.map fun name => .string ("mod=" ++ name)).toList
  | some l =>
    .object <| (l.time, .string ((now s.clock).text "T")) :: (l.level, level) ::
      (match message with
        | none => members
        | some text =>
          (if l.message = "" then "msg" else l.message, .string text) :: members ++
            cloudMember s (w.context.isEmpty && members.isEmpty)) ++
        (if w.context.isEmpty then []
          else if l.context = "" then context else [(l.context, .object context)]) ++
          (w.module.map fun name => (l.module, .string name)).toList

theorem Document.ofLine_form (now : Clock → Moment) (w : Writer Value)
    {fields : List (String × FieldValue)} (h : ∀ f ∈ fields, f.2.Recorded) :
    ofLine now w (ofFields fields).form = ofEvent now w (messageOf fields) (membersOf fields) := by
  have hrest : ∀ f ∈ fields.filter (!isMessage ·), f.2.Recorded := fun f hf =>
    h f (List.mem_of_mem_filter hf)
  have hmeant : Meaning.tokens (Value.meanings (ofFields fields).form.args) = membersOf fields := by
    rw [args_form, meant_tokensOf hrest]
    rfl
  have hnone : (Value.meanings (ofFields fields).form.args).isEmpty = (membersOf fields).isEmpty := by
    rw [Value.meanings_eq, List.isEmpty_map, args_form, isEmpty_tokensOf, membersOf, List.isEmpty_map]
  cases hmessage : messageOf fields with
  | none =>
    rw [form_of_none hmessage] at hmeant hnone ⊢
    cases hs : w.settings.labels with
    | none => simp only [ofLine, ofEvent, hs, items, hmeant]
    | some l => simp only [ofLine, ofEvent, hs, members, hmeant]
  | some text =>
    rw [form_of_some hmessage] at hmeant hnone ⊢
    cases hs : w.settings.labels with
    | none => simp only [ofLine, ofEvent, hs, items, hmeant, hnone]
    | some l => simp only [ofLine, ofEvent, hs, members, hmeant, hnone]

/-! ### Events -/

/-- The fields of a node are of recorded kinds. -/
def Node.Recorded (node : Node) : Prop :=
  ∀ recording ∈ node.recordings, ∀ f ∈ recording, f.2.Recorded

theorem Node.bare_given {node : Node} (h : node.Recorded) {e : String × Value}
    (he : e ∈ node.given) : ∀ x ∈ e.2.parts, x.Bare := by
  obtain ⟨recording, hrecording, he⟩ := List.mem_flatMap.1 he
  exact bare_counted (h recording hrecording) he

/-- A line with fields of an event, and a context of fields of spans, needs no code of callers. -/
theorem Writer.bare_event {line : Writer Value} {nodes : List Node}
    {fields : List (String × FieldValue)} (hcontext : line.context.IsOf (nodes.flatMap Node.given))
    (hnodes : ∀ node ∈ nodes, node.Recorded) (hfields : ∀ f ∈ fields, f.2.Recorded) :
    ∀ x ∈ line.parts (ofFields fields).form, x.Bare := by
  intro x hx
  rcases List.mem_append.1 hx with hx | hx
  · rw [args_form, Value.partsOf_eq] at hx
    obtain ⟨v, hv, hx⟩ := List.mem_flatMap.1 hx
    obtain ⟨_, he, hv⟩ := List.mem_flatMap.1 hv
    obtain ⟨f, hf, rfl⟩ := List.mem_map.1 he
    rcases List.mem_cons.1 hv with rfl | hv
    · obtain rfl := List.mem_singleton.1 hx
      exact ⟨rfl, rfl, rfl⟩
    · obtain rfl := List.mem_singleton.1 hv
      exact (hfields f (List.mem_of_mem_filter hf)).bare x hx
  · rw [Value.entryParts_eq] at hx
    obtain ⟨e, he, hx⟩ := List.mem_flatMap.1 hx
    rw [hcontext.entries] at he
    obtain ⟨node, hnode, he⟩ := List.mem_flatMap.1 (Pairs.mem_insertAll he)
    exact Node.bare_given (hnodes node hnode) he x hx

/-- **What an event's line says.** An event whose level is switched on comes to its end, and one line is
handed on, where lines of its severity go. It reads back as a document with the text of the last field
that is called `message` and is a text or something shown, if there is one; with all other fields as
members, once each, in their order and with their values; and with the fields of the spans around it as
its context. -/
theorem event_says_its_fields {σ R : Type} [Registry R] (laws : Registry.Lawful R)
    {layers : List EventLayer} (hlayers : layers ≠ []) {r : R} {tree : List Node}
    (h : Grown σ layers r tree) (parent : Parent) (l : EventLayer) (level : EventLevel)
    (target : String) {fields : List (String × FieldValue)} (hfields : ∀ f ∈ fields, f.2.Recorded)
    (hspans : ∀ node ∈ Node.path tree (Registry.resolve r parent), node.Recorded) (p : Program σ) :
    let around := Node.path tree (Registry.resolve r parent)
    let event : Run σ Unit := l.event level target (Registry.pairsAround r parent) fields
    match (l.handle level).run.run p with
    | (.error e, q) => event.run.run p = (.error e, q)
    | (.ok .disabled, q) => event.run.run p = (.ok (), q)
    | (.ok (.enabled w), q) => ∃ line events,
        event.run.run p =
          (.ok (), { q with stamps := q.stamps + 3, latest := events ++ q.latest }) ∧
        l.Writes level target w line ∧ line.context.HoldsJust (around.flatMap Node.given) ∧
        line.Handed events (Document.ofEvent q.now line (messageOf fields) (membersOf fields)) := by
  intro around event
  split
  · next e q hrun => exact Updates.run_bind_error hrun _
  · next q hrun => exact Updates.run_bind hrun _
  · next w q hrun =>
    have htold := (h.tells laws hlayers).pairsAround_path laws parent
    obtain ⟨line, hwrites, hcontext, hevent⟩ := EventLayer.run_event hrun htold target fields
    have hs : line.severity.alwaysOn = false := by
      rw [hwrites.severity]
      cases level <;> rfl
    obtain ⟨events, hline, hhanded⟩ := Run.writeForm_handed { q with stamps := q.stamps + 3 } hs
      (Writer.bare_event hcontext hspans hfields)
    rw [Document.ofLine_form _ _ hfields] at hhanded
    exact ⟨line, events, hevent.trans hline, hwrites, hcontext.holdsJust, hhanded⟩

/-- A number that is called `message` stays among the members, and the line has no message. -/
theorem number_is_no_message :
    let noon : Moment := ⟨2026, 1, 1, 12, 0, 0, 0⟩
    let p : Program Unit := ⟨none, fun _ => none, fun _ => noon, none, .empty, 0, 0, [], ()⟩
    let l : EventLayer := ⟨some ⟨0, .initial none⟩, true⟩
    let fields : List (String × FieldValue) :=
      [("message", .value (.int (.ofNat 5))), ("k", .value (.bool true))]
    ∃ (line : Writer Value) (q : Program Unit),
      (l.event .warn "app" [] fields).run.run p = (.ok (), q) ∧
        line.Handed q.latest (.array [.string (noon.text " "), .string "WARN",
          .object [("message", .number "5"), ("k", .bool true)], .string "mod=app"]) := by
  intro noon p l fields
  have hfields : ∀ f ∈ fields, f.2.Recorded := by
    intro f hf
    rcases List.mem_cons.1 hf with rfl | hf
    · exact .int _
    · obtain rfl := List.mem_singleton.1 hf
      exact .bool _
  have hstart : Grown Unit [l] Spans.empty [] := .start
  obtain ⟨line, events, hevent, hwrites, hcontext, hhanded⟩ :=
    event_says_its_fields Spans.lawful (by simp) hstart .root l .warn "app" hfields
      (fun _ hnode => absurd hnode List.not_mem_nil) p
  have hempty : line.context.isEmpty = true :=
    List.isEmpty_iff.2 (List.map_eq_nil_iff.1 (hcontext.firsts.unique .nil))
  have hdocument : Document.ofEvent p.now line (messageOf fields) (membersOf fields) =
      .array [.string (noon.text " "), .string "WARN",
        .object [("message", .number "5"), ("k", .bool true)], .string "mod=app"] := by
    simp only [Document.ofEvent, hwrites.settings, hwrites.severity, hwrites.module, hempty]
    rfl
  rw [hdocument] at hhanded
  exact ⟨line, _, hevent, by rwa [List.append_nil]⟩

end Logline
