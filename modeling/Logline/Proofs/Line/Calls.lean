import Logline.Proofs.Line.Documents
import Logline.Proofs.Line.Spoken

/-!
What calls write. A value that holds nothing deferred is appended as its meaning, however full the
scratch space is (`item_reads_back`). What a call has written when it comes to its end is one of the
texts that its line may say (`Writer.draft_says`).
-/

namespace Logline

open Json Text Script

/-! ### Code that comes to its result at once -/

/-- The code does nothing but come to its result. -/
def Code.IsPrompt (code : Code Value) : Prop := code.effects = [] ∧ code.panics = none

namespace Value

variable {now : Clock → Moment}

theorem tame_of_prompt {parts keys : List Value}
    (h : ∀ x ∈ parts, ∀ code ∈ x.codes, code.IsPrompt)
    (hkeys : ∀ k ∈ keys, ∀ x ∈ k.parts, x ∈ parts) (m : Manner) : Tame now m parts keys := by
  have hall : ∀ n : Manner, ∀ x ∈ parts, x.Behaves now n := by
    intro n x hx code hcode
    obtain ⟨label, effects, panics⟩ := code
    obtain ⟨rfl, rfl⟩ := h x hx _ hcode
    exact ⟨trivial, trivial⟩
  exact ⟨hall m, fun k hk x hx => hall m.atKeys x (hkeys k hk x hx)⟩

/-- A text that reads as a document, with all its characters allowed. -/
theorem isJson_of_isSome {json : Bytes} (h : ((decode? json).bind read?).isSome) :
    IsJson (fun _ => True) json := by
  obtain ⟨j, hj⟩ := Option.isSome_iff_exists.1 h
  obtain ⟨text, hd, hr⟩ := Option.bind_eq_some_iff.1 hj
  exact ⟨text, j, hd, hr, fun _ _ => .inr trivial⟩

end Value

/-! ### Values -/

section Values

variable {now : Clock → Moment} {thread : Thread} {route : Route} {t : Trail} {before : Script}

/-- Whatever was written before, a draft counts its bytes and knows its thread. -/
theorem adds_before (h : (runScript before (.start thread route t)).trail.goesOn) :
    (runScript before (.start thread route t)).Counted ∧
      (runScript before (.start thread route t)).thread = thread := by
  obtain ⟨out, -, hadds⟩ := runScript_says before (.start thread route t)
    (Draft.counted_start thread route t) (.inl rfl) h
  exact ⟨hadds.counted (Draft.counted_start thread route t), hadds.thread⟩

/-- **A value with nothing deferred in it is appended as its meaning**: after any script, in any state
of the scratch space and the output lock, as one document behind the separator that is owed, or not
at all if it is the empty map. -/
theorem item_reads_back (h : (runScript before (.start thread route t)).trail.goesOn)
    (hfree : thread.holdsLock = false) (v : Value)
    (hplain : ∀ x ∈ v.parts, x.isDeferred = false)
    (hcode : ∀ x ∈ v.parts, ∀ code ∈ x.codes, code.IsPrompt)
    (hjson : ∀ x ∈ v.parts, ∀ json, x.marshalled? = some json →
      ((decode? json).bind read?).isSome) :
    let d := runScript before (.start thread route t)
    let e := runScript (v.writing now).item d
    e.trail.goesOn ∧ match v.meaning.item with
      | none => e.spoken = d.spoken ∧ e.owed = d.owed
      | some j => ∃ text, e.spoken = d.spoken ++ bytes ((if d.owed then ", " else "") ++ text) ∧
          e.owed = true ∧ read? text = some j := by
  obtain ⟨hcounted, hthread⟩ := adds_before h
  intro d e
  have htame : Value.Tame now .silent v.parts v.keys :=
    Value.tame_of_prompt hcode (fun k hk x hx => Value.mem_parts_of_key v hk hx) .silent
  have hitem := (Value.writing_tame v htame).item
  have hcalm : d.Calm .silent d.route d.behind :=
    ⟨rfl, Trail.calm_silent_iff.2 h, fun _ hb => .inl hb, fun _ => hthread ▸ hfree⟩
  have hgoes : e.trail.goesOn :=
    Trail.calm_silent_iff.1 (runScript_calm _ d hitem hcalm).trail
  refine ⟨hgoes, ?_⟩
  obtain ⟨out, hsays, hadds⟩ : ∃ out, Says false (v.writing now).item d.owed out e.owed ∧
      d.Adds out e.owed e := runScript_says _ d hcounted (.inr hitem) hgoes
  have hwritten : v.Written now false fun _ => True :=
    Value.writing_says v fun x hx json hx' => Value.isJson_of_isSome (hjson x hx json hx')
  obtain ⟨tree, rfl, howed, hsound, -, hagrees⟩ := hwritten.item _ _ _ hsays
  have hspoken := hadds.spoken hcounted hgoes
  have hfilled : v.filling.item = true := by rw [Value.filling_of_not_deferred v hplain]; rfl
  have hwhole := hagrees.whole_of_filled hfilled
  rw [← hagrees.said_eq rfl hwhole]
  cases tree with
  | none => exact ⟨by simpa [Tree.itemsText, encode] using hspoken, by simpa using howed⟩
  | some tree =>
    have hgap : (if d.owed then ", " else "").toList = itemGap d.owed := by
      cases d.owed <;> rfl
    refine ⟨String.ofList tree.text, ?_, by simpa using howed,
      read?_of_reads (tree.reads hsound.1 hwhole.1)⟩
    rw [hspoken, bytes, String.toList_append, hgap, String.toList_ofList]
    simp [Tree.itemsText]

/-- A number, an empty map that is left out and a thing that is shown, in a list behind a string. -/
theorem list_reads_back :
    let d := runScript (opening "[" ++ quote "x")
      (.start ⟨0, false, false⟩ ⟨.stdout, false, .note⟩ .empty)
    let v : Value := .list [.int ⟨-5, by decide⟩, .map .empty, .display ⟨3, [], none⟩ "a\"b"]
    let e := runScript (v.writing fun _ => ⟨2026, 1, 1, 0, 0, 0, 0⟩).item d
    e.trail.goesOn ∧ ∃ text, e.spoken = d.spoken ++ bytes (", " ++ text) ∧ e.owed = true ∧
      read? text = some (.array [.number (Decimal.intText (-5)), .string "a\"b"]) := by
  refine item_reads_back rfl rfl (.list [_, _, _]) ?_ ?_ ?_ <;>
    simp [Value.parts, Value.partsOf, Value.entryParts, Value.memberParts, Pairs.empty,
      Value.isDeferred, Value.codes, Value.writtenCodes, Value.textCode?, Code.IsPrompt, Value.marshalled?]

end Values

/-! ### Calls -/

namespace Writer

variable (now : Clock → Moment) (w : Writer Value) (form : Form Value) (thread : Thread) (t : Trail)

def script : Script :=
  [later fun _ =>
    Layout.line now w form (formWritings now form) (entryWritings now w.context)]

/-- The line of a call, when its script has run as far as nothing stops it. -/
def draft : Draft := runScript (w.script now form) (.start thread (Layout.route w) t)

/-- What a program does when it writes a form through an enabled handle. -/
theorem runActs_handleActs (ht : t.goesOn) :
    runActs (handleActs now (.enabled w) form fun _ => formWritings now form) thread t =
      (w.draft now form thread t).finish := by
  obtain ⟨stamp, severity, context, module, settings⟩ := w
  simp only [handleActs, writerAct, runActs, ht, if_true, Act.run]
  rfl

variable {now w form thread t}

/-- A call runs the code of its values and no other. -/
theorem tame_script {m : Manner} (h : Value.Tame now m (w.parts form) (w.keys form)) :
    Script.Tame m (w.script now form) :=
  ⟨Layout.tame_line w form h, trivial⟩

theorem calm_draft {m : Manner} (h : Value.Tame now m (w.parts form) (w.keys form))
    (ht : t.goesOn) (hfree : m.keyLines = false → thread.holdsLock = false) :
    (w.draft now form thread t).Calm m (Layout.route w) [] := by
  have hstart : t.Calm m := .inl (by simpa [Trail.goesOn] using ht)
  exact runScript_calm _ _ (tame_script h) (Draft.Calm.start hstart hfree)

/-- What a call has delivered when it comes to its end is something its line may say. -/
theorem says_delivered {late : Bool} (hl : late = true ∨ Script.Tame .silent (w.script now form))
    (h : (w.draft now form thread t).complete.trail.goesOn) :
    ∃ after, Says late
      (Layout.line now w form (formWritings now form) (entryWritings now w.context)) false
      (w.draft now form thread t).complete.delivered after := by
  have hgoes : (w.draft now form thread t).trail.goesOn := (Draft.adds_complete _).goesOn h
  have hstart := Draft.counted_start thread (Layout.route w) t
  obtain ⟨out, hsays, hadds⟩ : ∃ out, Says late (w.script now form) false out _ ∧
      (Draft.start thread (Layout.route w) t).Adds out _ (w.draft now form thread t) :=
    runScript_says _ _ hstart hl hgoes
  have hdelivered : (w.draft now form thread t).complete.delivered = out := by
    rw [Draft.delivered_complete (hadds.counted hstart) h, hadds.spoken hstart hgoes,
      Draft.spoken_start, List.nil_append]
  rw [hdelivered]
  exact ⟨_, (says_later _).1 hsays⟩

/-- All values of a line are written as what they mean. -/
theorem written (now : Clock → Moment) (late : Bool) {raw : Char → Prop}
    (hjson : ∀ x ∈ w.parts form, ∀ json, x.marshalled? = some json → Value.IsJson raw json) :
    (∀ v ∈ form.args, v.Written now late raw) ∧
      ∀ e ∈ w.context.entries, e.2.Written now late raw := by
  refine ⟨Value.writings_say form.args fun x hx => hjson x (List.mem_append_left _ hx),
    Value.members_say w.context.entries fun x hx => hjson x (List.mem_append_right _ ?_)⟩
  rwa [Value.entryParts_eq, ← Value.memberParts_eq]

/-- What a call has written when it comes to its end. -/
theorem draft_says {late : Bool} {raw : Char → Prop}
    (hl : late = true ∨ Script.Tame .silent (w.script now form))
    (hjson : ∀ x ∈ w.parts form, ∀ json, x.marshalled? = some json → Value.IsJson raw json)
    (h : (w.draft now form thread t).complete.trail.goesOn) :
    ∃ tree : Tree, (w.draft now form thread t).complete.delivered = encode (tree.text ++ ['\n']) ∧
      tree.Sound raw ∧ Layout.isLine w.settings.labels.isSome tree.json ∧
        Agrees late (w.filled form) tree.Whole tree.json (Document.ofLine now w form) := by
  obtain ⟨hargs, hcontext⟩ := written now late hjson
  obtain ⟨after, hsays⟩ := says_delivered hl h
  exact Layout.saysLine_line w form hargs hcontext _ after hsays

/-- Without deferred values no key is left without a value. -/
theorem filled_of_not_deferred (h : ∀ x ∈ w.parts form, x.isDeferred = false) :
    w.filled form = true := by
  have hall := Value.filling_of_none_deferred form.args fun x hx => h x (List.mem_append_left _ hx)
  have hcontext : Value.entryFilling w.context = true := by
    rw [Value.entryFilling_eq, ← Value.memberFilling_eq]
    refine Value.memberFilling_of_none_deferred _ fun x hx => h x (List.mem_append_right _ ?_)
    rwa [Value.entryParts_eq, ← Value.memberParts_eq]
  have hitems : ((Value.fillings form.args).all fun f => f.2.item) = true := by
    rw [Value.fillings_eq, List.all_map, List.all_eq_true]
    exact fun v hv => by simp [hall v hv, Filling.all]
  have htokens : Filling.tokens (Value.fillings form.args) = true := by
    rw [Value.fillings_eq]
    refine Value.tokens_of_all fun f hf => ?_
    obtain ⟨v, hv, rfl⟩ := List.mem_map.1 hf
    exact hall v hv
  have hform : form.filled w.settings = true := by
    unfold Form.filled
    split
    · next v =>
      have hv := hall v (List.mem_singleton.2 rfl)
      split
      · simp [hv, Filling.all]
      · split <;> simp [hv, Filling.all]
    · exact hitems
    · exact hitems
    · exact htokens
    · exact htokens
  rw [filled, hform, hcontext]
  rfl

end Writer

end Logline
