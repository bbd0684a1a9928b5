import Logline.Proofs.Line.Endings

/-!
What calls hand on. A line of values that hold nothing deferred is its document and a line break
(`Writer.call_reads_back`). A deferred value may come to the empty map only after its key was written,
if it comes to another deferred value first; of all calls is told whether what they hand on is a
document: it is if no key is left without a value in this way, and, if code of callers is silent, only
then (`Writer.call_reads`).

Where code of callers has no part in a line, and no text of theirs is taken for a document, a program
hands all of it on and then goes on or ends, as the severity of the line has it (`Run.writeForm_bare`).
-/

namespace Logline

open Json Text Script

/-! ### Calls -/

namespace Writer

variable {now : Clock → Moment} {w : Writer Value} {form : Form Value} {thread : Thread}
variable {m : Manner} {t : Trail}

theorem handsOn_call (hcode : Value.Tame now m (w.parts form) (w.keys form)) (ht : t.goesOn)
    (hgoes : (w.draft now form thread t).complete.trail.goesOn) :
    w.HandsOn now form (w.draft now form thread .empty).finish.latest
      (w.draft now form thread t).complete.delivered := by
  have hfree := free_of_complete hgoes
  rw [draft_past now w form thread ht, Draft.complete_past] at hgoes ⊢
  have hgo : (w.draft now form thread .empty).trail.goesOn := (Draft.adds_complete _).goesOn hgoes
  rw [Draft.finish, if_pos hgo, Draft.latest_after]
  exact handsOn_release hcode hfree hgo

/-- **A line without deferred values is its document and a line break.** All that a call with such a
line hands on goes where lines of its severity go, and is the line. -/
theorem call_reads_back (now : Clock → Moment) (w : Writer Value) (form : Form Value)
    (thread : Thread) (t : Trail) (ht : t.goesOn) (hfree : thread.holdsLock = false)
    (hplain : ∀ x ∈ w.parts form, x.isDeferred = false)
    (hcode : ∀ x ∈ w.parts form, ∀ code ∈ x.codes, code.IsPrompt)
    (hjson : ∀ x ∈ w.parts form, ∀ json, x.marshalled? = some json →
      ((decode? json).bind read?).isSome) :
    let d := (w.draft now form thread t).complete
    ∃ events text,
      (runActs (handleActs now (.enabled w) form fun _ => formWritings now form) thread t).latest =
        events ++ t.latest ∧
      (∀ h ∈ handings events, h.1 = w.settings.outputFor w.severity) ∧
      ((handings events).reverse.map Prod.snd).flatten = bytes (text ++ "\n") ∧
      d.trail.goesOn ∧ d.delivered = bytes (text ++ "\n") ∧
      read? text = some (Document.ofLine now w form) := by
  intro d
  have htame : Value.Tame now .silent (w.parts form) (w.keys form) :=
    Value.tame_of_prompt hcode (fun _ hk _ hx => w.mem_parts_of_key form hk hx) .silent
  have hgoes : d.trail.goesOn :=
    Trail.calm_silent_iff.1 (calm_draft htame ht fun _ => hfree).complete.trail
  obtain ⟨tree, hdelivered, hsound, -, hagrees⟩ : ∃ tree : Tree,
      d.delivered = encode (tree.text ++ ['\n']) ∧ tree.Sound (fun _ => True) ∧
        Layout.isLine w.settings.labels.isSome tree.json ∧
          Agrees false (w.filled form) tree.Whole tree.json (Document.ofLine now w form) :=
    draft_says (.inr (tame_script htame))
      (fun x hx json hx' => Value.isJson_of_isSome (hjson x hx json hx')) hgoes
  have hwhole := hagrees.whole_of_filled (filled_of_not_deferred hplain)
  have hline : d.delivered = bytes (String.ofList tree.text ++ "\n") := by
    simpa [bytes] using hdelivered
  obtain ⟨hgoing, hspoken⟩ : (w.draft now form thread t).Going ∧
      (w.draft now form thread t).spoken = (Script.wording (w.script now form) false).1 :=
    draft_going hcode ht hfree
  obtain ⟨-, hto, hhanded, -⟩ := draft_events now thread hcode hfree
  refine ⟨_, String.ofList tree.text, latest_call now w form thread ht, hto, ?_, hgoes, hline, ?_⟩
  · rw [hhanded, ← hline]
    exact ((Draft.delivered_complete hgoing.counted hgoes).trans hspoken).symm
  · rw [← hagrees.said_eq rfl hwhole]
    exact read?_of_reads (tree.reads hsound hwhole)

/-- A line that is asked to say an empty map says its context and its module only. -/
theorem context_reads_back :
    let noon : Moment := ⟨2026, 1, 1, 12, 0, 0, 0⟩
    let w : Writer Value :=
      ⟨0, .warn, ⟨1, [("a", .map .empty), ("b", .str "c")]⟩, some "db", .initial none⟩
    let call := handleActs (fun _ => noon) (.enabled w) (.list [.map .empty]) fun _ =>
      formWritings (fun _ => noon) (.list [.map .empty])
    ∃ events text, (runActs call ⟨0, false, false⟩ .empty).latest = events ∧
      (∀ h ∈ handings events, h.1 = .stdout) ∧
      ((handings events).reverse.map Prod.snd).flatten = bytes (text ++ "\n") ∧
      read? text = some (.array [.string (noon.text " "), .string "WARN",
        .object [("b", .string "c")], .string "mod=db"]) := by
  intro noon w call
  obtain ⟨events, text, hlatest, hto, hhanded, -, -, hread⟩ := call_reads_back (fun _ => noon) w
    (.list [.map .empty]) ⟨0, false, false⟩ .empty rfl rfl
    (by simp [w, parts, Form.args, Value.parts, Value.partsOf, Value.entryParts, Value.memberParts,
      Pairs.empty, Value.isDeferred])
    (by simp [w, parts, Form.args, Value.parts, Value.partsOf, Value.entryParts, Value.memberParts,
      Pairs.empty, Value.codes, Value.writtenCodes, Value.textCode?])
    (by simp [w, parts, Form.args, Value.parts, Value.partsOf, Value.entryParts, Value.memberParts,
      Pairs.empty, Value.marshalled?])
  exact ⟨events, text, hlatest.trans (List.append_nil events), hto, hhanded, hread⟩

/-- Control bytes of a line come from texts of callers that are documents already. -/
theorem control_of_clean {parts : List Value} {cs : List Char} {b : UInt8}
    (h : Clean (fun c => ∃ x ∈ parts, ∃ json, x.marshalled? = some json ∧
      ∃ text, decode? json = some text ∧ c ∈ text.toList) cs)
    (hb : b ∈ encode cs) (hcontrol : b.toNat < 0x20 ∨ b.toNat = 0x7F) :
    ∃ x ∈ parts, ∃ json, x.marshalled? = some json ∧ b ∈ json := by
  obtain ⟨c, hc, hbc⟩ := List.mem_flatMap.1 hb
  rcases h c hc with hplain | ⟨x, hx, json, hjson, text, hdecode, hmem⟩
  · rcases toNat_of_mem_encodeChar hbc with ⟨heq, -⟩ | ⟨hhigh, -⟩ <;> omega
  · refine ⟨x, hx, json, hjson, ?_⟩
    rw [eq_bytes_of_decode? hdecode]
    exact List.mem_flatMap.2 ⟨c, hmem, hbc⟩

/-- **When a line is a document.** A call comes to its end, unless its code panics or its thread waits
for the lock it holds itself. It has then handed on one text and a line break. The text has no control
byte that is not in a text a caller wrote as a document, and is a document of the kind the settings
ask for if no key is left without a value; and, if all code is silent, only then. -/
theorem call_reads (now : Clock → Moment) (w : Writer Value) (form : Form Value) (thread : Thread)
    (t : Trail) (m : Manner) (ht : t.goesOn) (hfree : m.keyLines = false → thread.holdsLock = false)
    (hcode : Value.Tame now m (w.parts form) (w.keys form))
    (hjson : ∀ x ∈ w.parts form, ∀ json, x.marshalled? = some json →
      ((decode? json).bind read?).isSome) :
    let d := (w.draft now form thread t).complete
    ∃ events,
      (runActs (handleActs now (.enabled w) form fun _ => formWritings now form) thread t).latest =
        events ++ t.latest ∧
      (d.trail.goesOn ∨ m.keyLines = true ∧ d.trail.stop = some .waits ∨
        m.panics = true ∧ ∃ message, d.trail.stop = some (.panics message)) ∧
      (d.trail.goesOn → ∃ text, w.HandsOn now form events (bytes (text ++ "\n")) ∧
        d.delivered = bytes (text ++ "\n") ∧
        (∀ b ∈ bytes text, b.toNat < 0x20 ∨ b.toNat = 0x7F →
          ∃ x ∈ w.parts form, ∃ json, x.marshalled? = some json ∧ b ∈ json) ∧
        (w.filled form = true →
          ∃ j, read? text = some j ∧ Layout.isLine w.settings.labels.isSome j) ∧
        (m = .silent → (read? text).isSome → w.filled form = true)) := by
  intro d
  have hcalm : d.trail.Calm m := (calm_draft hcode ht hfree).complete.trail
  refine ⟨_, latest_call now w form thread ht,
    hcalm.imp_left fun hstop => by simp [Trail.goesOn, hstop], fun hgoes => ?_⟩
  let raw : Char → Prop := fun c => ∃ x ∈ w.parts form, ∃ json, x.marshalled? = some json ∧
    ∃ text, decode? json = some text ∧ c ∈ text.toList
  have hparts : ∀ x ∈ w.parts form, ∀ json, x.marshalled? = some json →
      Value.IsJson raw json := by
    intro x hx json hx'
    obtain ⟨text, j, hdecode, hread, -⟩ := Value.isJson_of_isSome (hjson x hx json hx')
    exact ⟨text, j, hdecode, hread, fun c hc => .inr ⟨x, hx, json, hx', text, hdecode, hc⟩⟩
  obtain ⟨late, hlate, hsilent⟩ : ∃ late : Bool,
      (late = true ∨ Script.Tame .silent (w.script now form)) ∧ (m = .silent → late = false) := by
    by_cases hm : m = .silent
    · subst hm
      exact ⟨false, .inr (tame_script hcode), fun _ => rfl⟩
    · exact ⟨true, .inl rfl, fun h => absurd h hm⟩
  obtain ⟨tree, hdelivered, hsound, hline, hagrees⟩ : ∃ tree : Tree,
      d.delivered = encode (tree.text ++ ['\n']) ∧ tree.Sound raw ∧
        Layout.isLine w.settings.labels.isSome tree.json ∧
          Agrees late (w.filled form) tree.Whole tree.json (Document.ofLine now w form) :=
    draft_says hlate hparts hgoes
  have hends : d.delivered = bytes (String.ofList tree.text ++ "\n") := by
    simpa [bytes] using hdelivered
  refine ⟨String.ofList tree.text, hends ▸ handsOn_call hcode ht hgoes, hends,
    fun b hb hcontrol => ?_, fun hfilled => ?_, fun hm hread => ?_⟩
  · rw [bytes, String.toList_ofList] at hb
    exact control_of_clean (tree.clean_text hsound) hb hcontrol
  · exact ⟨tree.json, read?_of_reads (tree.reads hsound (hagrees.whole_of_filled hfilled)), hline⟩
  · by_contra hfilled
    have hwhole : ¬ tree.Whole := fun h => hfilled (hagrees.filled_of_whole (hsilent hm) h)
    have hnone := Tree.read?_eq_none hsound hwhole []
    rw [List.append_nil] at hnone
    simp [hnone] at hread

/-- A member deferred twice that comes to the empty map leaves its key behind, and the line is no
document. -/
theorem deferred_twice_does_not_read :
    let w : Writer Value := ⟨0, .warn, .empty, none, .initial none⟩
    let member : Value := .lazy ⟨0, [], none⟩ (.lazy ⟨1, [], none⟩ (.map .empty))
    let form : Form Value := .list [.map ⟨1, [("a", member)]⟩]
    let noon : Clock → Moment := fun _ => ⟨2026, 1, 1, 12, 0, 0, 0⟩
    let d := (w.draft noon form ⟨0, false, false⟩ .empty).complete
    let call := handleActs noon (.enabled w) form fun _ => formWritings noon form
    d.trail.goesOn ∧ ∃ events text, (runActs call ⟨0, false, false⟩ .empty).latest = events ∧
      w.HandsOn noon form events (bytes (text ++ "\n")) ∧ d.delivered = bytes (text ++ "\n") ∧
        read? text = none := by
  intro w member form noon d call
  have hcode : Value.Tame noon .silent (w.parts form) (w.keys form) := by
    refine Value.tame_of_prompt ?_ (fun k hk x hx => w.mem_parts_of_key form hk hx) .silent
    simp [w, form, member, parts, Form.args, Value.parts, Value.partsOf, Value.entryParts,
      Value.memberParts, Pairs.empty, Value.codes, Value.writtenCodes, Value.textCode?, Code.IsPrompt]
  have hjson : ∀ x ∈ w.parts form, ∀ json, x.marshalled? = some json →
      ((decode? json).bind read?).isSome := by
    simp [w, form, member, parts, Form.args, Value.parts, Value.partsOf, Value.entryParts,
      Value.memberParts, Pairs.empty, Value.marshalled?]
  have hbare : w.filled form = false := rfl
  obtain ⟨events, hlatest, hcalm, hreads⟩ := call_reads noon w form ⟨0, false, false⟩ .empty .silent rfl
    (fun _ => rfl) hcode hjson
  have hgoes : d.trail.goesOn := hcalm.resolve_right (by simp [Manner.silent])
  obtain ⟨text, hhands, hdelivered, -, -, hfilled⟩ := hreads hgoes
  refine ⟨hgoes, events, text, hlatest.trans (List.append_nil events), hhands, hdelivered, ?_⟩
  by_contra hread
  rw [hfilled rfl (Option.isSome_iff_ne_none.2 hread)] at hbare
  exact Bool.noConfusion hbare

end Writer

/-! ### Lines that code of callers has no part in -/

/-- The value is what it is: nothing of it is deferred, no code is asked for it, and no text of it is
taken for a document. -/
structure Value.Bare (v : Value) : Prop where
  settled : v.isDeferred = false
  silent : v.codes = []
  unmarshalled : v.marshalled? = none

namespace Writer

variable {now : Clock → Moment} {w : Writer Value} {form : Form Value}

/-- All of a line was handed on where lines of its severity go: a text without a line break in it, which
reads back as a document, and a line break. -/
structure Handed (w : Writer Value) (events : List Event) (document : Json) : Prop where
  destination : ∀ h ∈ handings events, h.1 = w.settings.outputFor w.severity
  reads : ∃ text : String, ((handings events).reverse.map Prod.snd).flatten = bytes (text ++ "\n") ∧
    '\n' ∉ text.toList ∧ read? text = some document

theorem wording_reads (now : Clock → Moment) (hbare : ∀ x ∈ w.parts form, x.Bare) :
    ∃ text : String, (wording (w.script now form) false).1 = bytes (text ++ "\n") ∧
      '\n' ∉ text.toList ∧ read? text = some (Document.ofLine now w form) := by
  have hjson : ∀ x ∈ w.parts form, ∀ json, x.marshalled? = some json →
      Value.IsJson (fun _ => False) json := fun x hx json hjson =>
    absurd ((hbare x hx).unmarshalled.symm.trans hjson) (by simp)
  have hargs : ∀ v ∈ form.args, v.Written now false fun _ => False :=
    Value.writings_say form.args fun x hx => hjson x (List.mem_append_left _ hx)
  have hcontext : ∀ e ∈ w.context.entries, e.2.Written now false fun _ => False := by
    refine Value.members_say w.context.entries fun x hx => hjson x (List.mem_append_right _ ?_)
    rwa [Value.entryParts_eq, ← Value.memberParts_eq]
  have hsays : Says false (w.script now form) false (wording (w.script now form) false).1
      (wording (w.script now form) false).2 := (says_false_iff _ _ _ _).2 rfl
  obtain ⟨tree, hout, hsound, -, hagrees⟩ :=
    Layout.saysLine_line w form hargs hcontext _ _ ((says_later _).1 hsays)
  have hwhole := hagrees.whole_of_filled (filled_of_not_deferred fun x hx => (hbare x hx).settled)
  refine ⟨String.ofList tree.text, by simpa [bytes] using hout, fun hbreak => ?_, ?_⟩
  · rw [String.toList_ofList] at hbreak
    exact absurd (tree.clean_text hsound '\n' hbreak) (by decide)
  · rw [← hagrees.said_eq rfl hwhole]
    exact read?_of_reads (tree.reads hsound hwhole)

end Writer

namespace Run

variable {σ : Type} {w : Writer Value} {form : Form Value}

/-- A line that code of callers has no part in is handed on and reads back; then its severity has its
outcome. -/
theorem writeForm_bare (p : Program σ) (hbare : ∀ x ∈ w.parts form, x.Bare) :
    ∃ events, (writeForm (.enabled w) form).run.run p =
        (w.severity.outcome p.wrappers, { p with latest := events ++ p.latest }) ∧
      w.Handed events (Document.ofLine p.now w form) := by
  have hcode : ∀ x ∈ w.parts form, ∀ code ∈ x.codes, code.IsPrompt :=
    fun x hx code hcode => by simp [(hbare x hx).silent] at hcode
  have htame : Value.Tame p.now .silent (w.parts form) (w.keys form) :=
    Value.tame_of_prompt hcode (fun _ hk _ hx => w.mem_parts_of_key form hk hx) .silent
  -- how the call ends is told by what it comes to as a line that is written as a whole
  obtain ⟨outcome, new, hrun, ⟨hkeys, -⟩ | ⟨-, houtcome⟩⟩ := writeForm_whole p htame rfl
  · cases hkeys
  have hline := run_line p w form
  have hends := congrArg Prod.fst (hline.symm.trans hrun)
  rw [houtcome] at hends
  obtain ⟨-, hto, hwhole, -⟩ := Writer.draft_events p.now ⟨p.wrappers, false, false⟩ hcode rfl
  obtain ⟨text, hwording, hreads⟩ := Writer.wording_reads p.now hbare
  refine ⟨(w.draft p.now form ⟨p.wrappers, false, false⟩ .empty).finish.latest, ?_, hto, text,
    hwhole.trans hwording, hreads⟩
  exact hline.trans (Prod.ext hends rfl)

theorem writeForm_handed (p : Program σ) (hs : w.severity.alwaysOn = false)
    (hbare : ∀ x ∈ w.parts form, x.Bare) :
    ∃ events, (writeForm (.enabled w) form).run.run p =
        (.ok (), { p with latest := events ++ p.latest }) ∧
      w.Handed events (Document.ofLine p.now w form) := by
  rw [← Severity.outcome_of_not_alwaysOn hs p.wrappers]
  exact writeForm_bare p hbare

end Run

end Logline
