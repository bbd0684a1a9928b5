import Logline.Proofs.Line.Calls

/-!
The member that keeps an object with nothing but a message from becoming plain text in cloud logging.
Whether a line gets it is told by what its call is given, not by what that comes to
(`Writer.cloud_member_by_arguments`): it is put if the call has neither arguments besides its message
nor pairs of context. Then nothing else is put either. But tokens that are dropped, empty maps among
them, and a context that is lifted up to the members and holds nothing but empty maps put nothing as
well, and leave the message alone in its line.
-/

namespace Logline

open Json Text Script

/-! ### What scripts put into an object -/

/-- After the members `before` the script may put `ms` into an object. -/
def Script.PutsAfter (before : List Member) (s : Script) (ms : List Member) : Prop :=
  Says true s (Tree.membersOwed false before)
    (encode (Tree.membersText (Tree.membersOwed false before) ms))
    (Tree.membersOwed false (before ++ ms))

theorem Text.encode_eq_nil {cs : List Char} (h : encode cs = []) : cs = [] := by
  cases cs with
  | nil => rfl
  | cons c cs => simp [encode_cons, encodeChar_ne_nil] at h

theorem Json.Tree.eq_nil_of_membersText {owed : Bool} {ms : List Member}
    (h : membersText owed ms = []) : ms = [] := by
  cases ms with
  | nil => rfl
  | cons m rest => cases m <;> simp [membersText, keyChars, quotedText] at h

namespace Script

variable {raw : Char → Prop} {before ms : List Member} {s rest : Script} {f after : Bool}
  {out : Bytes}

theorem PutsAfter.eq_nil (h : PutsAfter before [] ms) : ms = [] :=
  Tree.eq_nil_of_membersText (encode_eq_nil (says_nil.1 h).1)

/-- A key is put whatever comes of its value. -/
theorem PutsAfter.ne_nil {label : String} (h : PutsAfter before (key label ++ s) ms) : ms ≠ [] := by
  rintro rfl
  obtain ⟨a, b, mid, hout, hkey, -⟩ := says_append.1 h
  obtain ⟨rfl, -⟩ := says_key.1 hkey
  have hnone : encode (memberGap (Tree.membersOwed false before) ++ keyChars label) = [] :=
    (List.append_eq_nil_iff.1 hout.symm).1
  simpa [keyChars, quotedText] using encode_eq_nil hnone

/-- The members of the first of two scripts, and what the other says after them. -/
theorem SaysMembers.putsAfter {meant : List (String × Json)} (h : SaysMembers true raw s f meant)
    (before : List Member)
    (hs : Says true (s ++ rest) (Tree.membersOwed false before) out after) :
    ∃ ms more, PutsAfter before s ms ∧ Tree.MembersSound raw ms ∧
      out = encode (Tree.membersText (Tree.membersOwed false before) ms) ++ more ∧
        Says true rest (Tree.membersOwed false (before ++ ms)) more after := by
  obtain ⟨_, more, _, rfl, ha, hb⟩ := says_append.1 hs
  obtain ⟨ms, rfl, rfl, hsound, -⟩ := h _ _ _ ha
  rw [← Tree.membersOwed_append] at ha hb
  exact ⟨ms, more, ha, hsound, rfl, hb⟩

end Script

/-! ### The parts of a line -/

/-- Whether a call is given nothing that might stand beside its message. -/
def Form.alone {α : Type} (l : Labels) : Form α → Bool
  | .list [_] => l.message ≠ ""
  | .list _ => false
  | .messageList _ args => l.message ≠ "" && args.isEmpty
  | .map _ => false
  | .messageMap _ tokens => tokens.isEmpty

/-- Whether a call is given keys and values besides its message. -/
def Form.hasTokens {α : Type} : Form α → Bool
  | .messageMap _ tokens => !tokens.isEmpty
  | _ => false

namespace Layout

variable {α : Type} (l : Labels) (form : Form α) (args : List (Value × Writing))

/-- The member that holds the message of a call, if one does. -/
def messageMember : Script :=
  match form with
  | .list _ => match args with
    | [a] => if l.message = "" then [] else a.2.member (key l.message)
    | _ => []
  | .messageList message _ => if l.message = "" then [] else key l.message ++ quote message
  | .map _ => []
  | .messageMap message _ => key (if l.message = "" then "msg" else l.message) ++ quote message

/-- The members of a call besides its message. -/
def otherMembers : Script :=
  let ws := args.map Prod.snd
  match form with
  | .list _ => if form.alone l then [] else key l.arguments ++ listed ws
  | .messageList message _ =>
    if form.alone l then []
    else key l.arguments ++ if l.message = "" then messageListed message ws else listed ws
  | .map _ => tokens args
  | .messageMap _ _ => tokens args

def frontMembers (s : Settings) (now : Clock → Moment) (severity : Severity) : Script :=
  key l.time ++ timestamp s now ++ key l.level ++ quote (s.levelText severity.name)

variable {l form args} {now : Clock → Moment}

/-- What is said of a call in an object falls into its message, all other members and the one for
cloud logging. -/
theorem body_eq {s : Settings} (hs : s.labels = some l) (bare : Bool) (form : Form Value) :
    body s bare form (formWritings now form) =
      messageMember l form (formWritings now form) ++ otherMembers l form (formWritings now form) ++
        cloudMember s (bare && form.alone l) := by
  have hnone : cloudMember s false = [] := by simp [cloudMember]
  rw [formWritings_eq]
  cases form with
  | list args =>
    match args with
    | [] => simp [body, hs, messageMember, otherMembers, Form.alone, Form.args, writings, hnone]
    | [v] =>
      by_cases hm : l.message = "" <;>
        simp [body, hs, messageMember, otherMembers, Form.alone, Form.args, writings, hnone, hm]
    | u :: v :: rest =>
      simp [body, hs, messageMember, otherMembers, Form.alone, Form.args, writings, hnone]
  | messageList message args =>
    by_cases hm : l.message = ""
    · simp [body, hs, messageMember, otherMembers, Form.alone, hnone, hm]
    · cases args <;>
        simp [body, hs, messageMember, otherMembers, Form.alone, Form.args, writings, hnone, hm]
  | map args => simp [body, hs, messageMember, otherMembers, Form.alone, hnone]
  | messageMap message args =>
    have hempty : (writings now args).isEmpty = args.isEmpty := by
      rw [Value.writings_eq, List.isEmpty_map]
    simp [body, hs, messageMember, otherMembers, Form.alone, Form.args, hempty]

theorem otherMembers_of_alone {form : Form Value} (h : form.alone l) :
    otherMembers l form (formWritings now form) = [] := by
  cases form with
  | list args => simp [otherMembers, h]
  | messageList message args => simp [otherMembers, h]
  | map args => simp [Form.alone] at h
  | messageMap message args =>
    obtain rfl : args = [] := by simpa [Form.alone] using h
    rfl

theorem contextPart_of_isEmpty {s : Settings} {context : Pairs Value} (h : context.isEmpty) :
    contextPart s (entryWritings now context) = [] := by
  obtain ⟨stamp, entries⟩ := context
  obtain rfl : entries = [] := by simpa [Pairs.isEmpty] using h
  rfl

/-- If something besides the message is given, but puts nothing, it is keys and values. -/
theorem hasTokens_of_others {form : Form Value} {before : List Member}
    (hform : ∀ tokens, form ≠ .map tokens) (h : form.alone l = false)
    (hputs : PutsAfter before (otherMembers l form (formWritings now form)) []) :
    form.hasTokens = true := by
  cases form with
  | list args =>
    simp only [otherMembers, h] at hputs
    exact absurd rfl hputs.ne_nil
  | messageList message args =>
    simp only [otherMembers, h] at hputs
    exact absurd rfl hputs.ne_nil
  | map args => exact absurd rfl (hform args)
  | messageMap message args => simpa [Form.alone, Form.hasTokens] using h

section Says

variable {raw : Char → Prop} {s : Settings}

theorem saysMembers_front (raw : Char → Prop) (l : Labels) (s : Settings) (now : Clock → Moment)
    (severity : Severity) :
    ∃ f ms, SaysMembers true raw (frontMembers l s now severity) f ms := by
  have htime : SaysMembers true raw (key l.time ++ timestamp s now) true _ :=
    (saysItem_timestamp s).keyed_some l.time
  have hlevel : SaysMembers true raw (key l.level ++ quote (s.levelText severity.name)) true _ :=
    (saysItem_quote _).keyed_some l.level
  have hboth := htime.append hlevel
  rw [← List.append_assoc] at hboth
  exact ⟨_, _, hboth⟩

variable {form : Form Value} (h : ∀ v ∈ form.args, v.Written now true raw)
include h

theorem saysMembers_messageMember :
    ∃ f ms, SaysMembers true raw (messageMember l form (formWritings now form)) f ms := by
  rw [formWritings_eq]
  cases form with
  | list args =>
    match args with
    | [] => exact ⟨_, _, saysMembers_nil⟩
    | [v] =>
      simp only [messageMember, Form.args, writings]
      split
      · exact ⟨_, _, saysMembers_nil⟩
      · exact ⟨_, _, (h v (List.mem_singleton.2 rfl)).member l.message⟩
    | u :: v :: rest => exact ⟨_, _, saysMembers_nil⟩
  | messageList message args =>
    simp only [messageMember]
    split
    · exact ⟨_, _, saysMembers_nil⟩
    · exact ⟨_, _, (saysItem_quote message).keyed_some l.message⟩
  | map args => exact ⟨_, _, saysMembers_nil⟩
  | messageMap message args => exact ⟨_, _, (saysItem_quote message).keyed_some _⟩

theorem saysMembers_otherMembers :
    ∃ f ms, SaysMembers true raw (otherMembers l form (formWritings now form)) f ms := by
  rw [formWritings_eq]
  cases form with
  | list args =>
    simp only [otherMembers]
    split
    · exact ⟨_, _, saysMembers_nil⟩
    · exact ⟨_, _, (saysItem_listed h).keyed_some l.arguments⟩
  | messageList message args =>
    simp only [otherMembers]
    split
    · exact ⟨_, _, saysMembers_nil⟩
    split
    · exact ⟨_, _, (saysItem_messageListed message h).keyed_some l.arguments⟩
    · exact ⟨_, _, (saysItem_listed h).keyed_some l.arguments⟩
  | map args => exact ⟨_, _, Value.saysMembers_tokens args h⟩
  | messageMap message args => exact ⟨_, _, Value.saysMembers_tokens args h⟩

end Says

/-- The member for cloud logging, if it is put. -/
def cloudMembers (put : Bool) : List Member :=
  if put then [.pair "json" (.leaf ['1'] (.number "1"))] else []

theorem eq_of_says_cloudMember {late : Bool} {s : Settings} (hs : s.inCloud = true)
    {put owed after : Bool} {out : Bytes} (h : Says late (cloudMember s put) owed out after) :
    out = encode (Tree.membersText owed (cloudMembers put)) ∧
      after = Tree.membersOwed owed (cloudMembers put) := by
  cases put with
  | false =>
    simp only [cloudMember, Bool.and_false, Bool.false_eq_true, if_false, says_nil] at h
    exact h
  | true =>
    have hone : bytes "1" = encode ['1'] := rfl
    simp only [cloudMember, hs, Bool.and_self, if_true, Writing.plain, says_append, says_key,
      says_framed, text, says_chunk, says_nil, hone] at h
    obtain ⟨_, _, _, rfl, ⟨rfl, rfl⟩, _, _, rfl, ⟨_, rfl, rfl, -⟩, rfl⟩ := h
    simp [cloudMembers, Tree.membersText, Tree.membersOwed, Tree.text, encode_append]

/-- A line with labels is an object whose members are put part by part. -/
theorem line_eq {w : Writer Value} (hs : w.settings.labels = some l) (form : Form Value)
    (context : List (String × Writing)) :
    line now w form (formWritings now form) context =
      opening "\x7b" ++ (frontMembers l w.settings now w.severity ++
        (messageMember l form (formWritings now form) ++
          (otherMembers l form (formWritings now form) ++
            (cloudMember w.settings (context.isEmpty && form.alone l) ++
              (contextPart w.settings context ++ (modulePart w.settings w.module ++
                [text "\x7d\n", .owe false])))))) := by
  rw [line, body_eq hs]
  simp [head, frontMembers, tail, hs]

end Layout

/-! ### Lines in cloud logging -/

/-- The members of a line in the order of its parts. -/
structure LineMembers where
  /-- Time and level. -/
  front : List Member
  message : List Member
  others : List Member
  cloud : List Member
  context : List Member
  module : List Member

namespace LineMembers

def beforeCloud (m : LineMembers) : List Member := m.front ++ m.message ++ m.others

def beforeModule (m : LineMembers) : List Member := m.beforeCloud ++ m.cloud ++ m.context

def all (m : LineMembers) : List Member := m.beforeModule ++ m.module

/-- Each part is what the call puts there, one after the other. -/
structure PutBy (now : Clock → Moment) (w : Writer Value) (l : Labels) (form : Form Value)
    (m : LineMembers) : Prop where
  front : PutsAfter [] (Layout.frontMembers l w.settings now w.severity) m.front
  message : PutsAfter m.front (Layout.messageMember l form (formWritings now form)) m.message
  others : PutsAfter (m.front ++ m.message)
    (Layout.otherMembers l form (formWritings now form)) m.others
  cloud : m.cloud = Layout.cloudMembers (w.context.isEmpty && form.alone l)
  context : PutsAfter (m.beforeCloud ++ m.cloud)
    (Layout.contextPart w.settings (entryWritings now w.context)) m.context
  module : PutsAfter m.beforeModule (Layout.modulePart w.settings w.module) m.module

end LineMembers

namespace Layout

/-- All that a line with labels may say in cloud logging, part by part. -/
theorem exists_lineMembers {now : Clock → Moment} {raw : Char → Prop} {w : Writer Value} {l : Labels}
    (hs : w.settings.labels = some l) (hcloud : w.settings.inCloud = true) {form : Form Value}
    (hargs : ∀ v ∈ form.args, v.Written now true raw)
    (hcontext : ∀ e ∈ w.context.entries, e.2.Written now true raw) {out : Bytes} {after : Bool}
    (h : Says true (line now w form (formWritings now form) (entryWritings now w.context)) false out
      after) :
    ∃ m : LineMembers, m.PutBy now w l form ∧ Tree.MembersSound raw m.all ∧
      out = encode ((Tree.object m.all).text ++ ['\n']) := by
  have hempty : (entryWritings now w.context).isEmpty = w.context.isEmpty := by
    rw [Value.entryWritings_eq, List.isEmpty_map]
    rfl
  rw [line_eq hs, hempty] at h
  obtain ⟨_, _, _, rfl, hopen, hfromFront⟩ := says_append.1 h
  obtain ⟨rfl, rfl⟩ := says_opening.1 hopen
  obtain ⟨_, _, hsays⟩ := saysMembers_front raw l w.settings now w.severity
  obtain ⟨front, _, hfront, hfrontSound, rfl, hfromMessage⟩ :=
    hsays.putsAfter [] hfromFront
  obtain ⟨_, _, hsays⟩ := saysMembers_messageMember (l := l) hargs
  obtain ⟨message, _, hmessage, hmessageSound, rfl, hfromOthers⟩ := hsays.putsAfter _ hfromMessage
  obtain ⟨_, _, hsays⟩ := saysMembers_otherMembers (l := l) hargs
  obtain ⟨others, _, hothers, hothersSound, rfl, hfromCloud⟩ := hsays.putsAfter _ hfromOthers
  obtain ⟨_, _, _, rfl, hmember, hfromContext⟩ := says_append.1 hfromCloud
  obtain ⟨rfl, rfl⟩ := eq_of_says_cloudMember hcloud hmember
  rw [← Tree.membersOwed_append] at hfromContext
  obtain ⟨context, _, hcontext', hcontextSound, rfl, hfromModule⟩ :=
    (saysMembers_contextPart hcontext hs).putsAfter _ hfromContext
  have hsays : SaysMembers true raw (modulePart w.settings w.module) true _ :=
    saysMembers_modulePart hs w.module
  obtain ⟨module, _, hmodule, hmoduleSound, rfl, hclose⟩ := hsays.putsAfter _ hfromModule
  simp only [text, says_chunk, says_owe, says_nil] at hclose
  obtain ⟨_, rfl, rfl, -⟩ := hclose
  refine ⟨⟨front, message, others, cloudMembers (w.context.isEmpty && form.alone l), context, module⟩,
    ⟨hfront, hmessage, hothers, rfl, hcontext', hmodule⟩, ?_, ?_⟩
  · have hone : Tree.MembersSound raw (cloudMembers (w.context.isEmpty && form.alone l)) := by
      have hnumber : IsNumber "1".toList := by
        unfold IsNumber
        decide
      unfold cloudMembers
      split
      · exact ⟨⟨reads_number hnumber, clean_of_printable (Decimal.printable_of_isNumber hnumber)⟩,
          trivial⟩
      · exact trivial
    simp only [LineMembers.all, LineMembers.beforeModule, LineMembers.beforeCloud,
      Tree.membersSound_append]
    exact ⟨⟨⟨⟨⟨hfrontSound, hmessageSound⟩, hothersSound⟩, hone⟩, hcontextSound⟩, hmoduleSound⟩
  · have hnil : encode [] = [] := rfl
    simp [LineMembers.all, LineMembers.beforeModule, LineMembers.beforeCloud, Tree.text, bytes,
      Tree.membersText_append, Tree.membersOwed_append, encode_append, encode_cons, itemGap,
      Tree.membersOwed, hnil]

end Layout

namespace Writer

variable {now : Clock → Moment} {w : Writer Value} {l : Labels} {form : Form Value}

/-- **Whether the member for cloud logging is put is told by the arguments.** With labels a line is an
object of its time and level, its message, its other members, the one for cloud logging, its context
and its module. The one for cloud logging is put if nothing is given besides a message: no arguments
and no pairs of context. Then nothing else is put. But a line that holds only a message goes without
it if its call was given keys and values, or context, that put nothing. -/
theorem cloud_member_by_arguments (now : Clock → Moment) (w : Writer Value) (l : Labels)
    (form : Form Value) (thread : Thread) (t : Trail) (hlabels : w.settings.labels = some l)
    (hcloud : w.settings.inCloud = true)
    (hgo : (w.draft now form thread t).complete.trail.goesOn)
    (hjson : ∀ x ∈ w.parts form, ∀ json, x.marshalled? = some json →
      ((decode? json).bind read?).isSome) :
    ∃ m : LineMembers, m.PutBy now w l form ∧
      (w.draft now form thread t).complete.delivered =
        encode ((Tree.object m.all).text ++ ['\n']) ∧
      (Tree.MembersWhole m.all → read? (String.ofList (Tree.object m.all).text) =
        some (.object (Tree.membersJson m.all))) ∧
      (m.cloud ≠ [] ↔ w.context.isEmpty ∧ form.alone l) ∧
      (m.cloud ≠ [] → m.others = [] ∧ m.context = []) ∧
      ((∀ tokens, form ≠ .map tokens) → m.others = [] → m.context = [] →
        (m.cloud = [] ↔ form.hasTokens ∨ w.context.isEmpty = false)) := by
  obtain ⟨hargs, hcontext⟩ := written now true
    fun x hx json hx' => Value.isJson_of_isSome (hjson x hx json hx')
  obtain ⟨after, hsays⟩ := says_delivered (.inl rfl) hgo
  obtain ⟨m, hput, hsound, hdelivered⟩ :=
    Layout.exists_lineMembers hlabels hcloud hargs hcontext hsays
  have hcloud_iff : m.cloud ≠ [] ↔ w.context.isEmpty ∧ form.alone l := by
    rw [hput.cloud, Layout.cloudMembers]
    simp
  refine ⟨m, hput, hdelivered, fun hwhole => ?_, hcloud_iff, fun hput' => ?_, ?_⟩
  · exact read?_of_reads ((Tree.object m.all).reads hsound hwhole)
  · obtain ⟨hbare, halone⟩ := hcloud_iff.1 hput'
    have hothers := hput.others
    have hcontext' := hput.context
    rw [Layout.otherMembers_of_alone halone] at hothers
    rw [Layout.contextPart_of_isEmpty hbare] at hcontext'
    exact ⟨hothers.eq_nil, hcontext'.eq_nil⟩
  · intro hform hothers _
    have hleft : m.cloud = [] ↔ w.context.isEmpty = false ∨ form.alone l = false := by
      rw [← not_iff_not]
      simpa using hcloud_iff
    rw [hleft, or_comm]
    refine or_congr_left ⟨fun halone => ?_, fun htokens => ?_⟩
    · exact Layout.hasTokens_of_others hform halone (hothers ▸ hput.others)
    · cases form <;> simp_all [Form.hasTokens, Form.alone]

/-- A pair that is dropped: nothing stands beside the message, and yet the member is missing. -/
theorem dropped_pair_leaves_message_alone :
    let noon : Clock → Moment := fun _ => ⟨2026, 1, 1, 12, 0, 0, 0⟩
    let w : Writer Value := ⟨0, .warn, .empty, none, (Settings.initial none).setInCloud true⟩
    let form : Form Value := .messageMap "m" [.marker .skip, .bool true]
    ∃ m : LineMembers, m.PutBy noon w .cloud form ∧ m.others = [] ∧ m.context = [] ∧ m.cloud = [] ∧
      (w.draft noon form ⟨0, false, false⟩ .empty).complete.delivered = bytes
        "\x7b\"time\":\"2026-01-01T12:00:00.0000Z\",\"severity\":\"400\",\"message\":\"m\"\x7d\n" := by
  intro noon w form
  obtain ⟨m, hput, -, -, -, -, hmissing⟩ :=
    cloud_member_by_arguments noon w .cloud form ⟨0, false, false⟩ .empty rfl rfl
      (by decide +kernel) (by
        simp [w, form, parts, Form.args, Value.parts, Value.partsOf, Value.entryParts,
          Value.memberParts, Pairs.empty, Value.marshalled?])
  have hothers : m.others = [] := hput.others.eq_nil
  have hcontext : m.context = [] := hput.context.eq_nil
  have hnotMap : ∀ tokens, form ≠ .map tokens := by simp [form]
  have hcloud : m.cloud = [] := (hmissing hnotMap hothers hcontext).2 (.inl rfl)
  exact ⟨m, hput, hothers, hcontext, hcloud, by decide +kernel⟩

end Writer

end Logline
