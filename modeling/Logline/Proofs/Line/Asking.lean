import Mathlib
import Logline.Proofs.Line.Calls
import Logline.Proofs.Line.Steps
import Logline.Proofs.Value.Asked

/-!
Which code a line asks, and in which order. If all code comes to its end in time (`Script.Punctual`),
what a line asks for is what its script asks for, on either side of the output lock
(`runScript_asks`), and that is what its values ask for (`Value.writing_asks`). So each deferred value
is asked once for each place it has in the line, in the order of these places, and values that have
no place are not asked.
-/

namespace Logline

open Text Script

/-! ### What a script asks for -/

mutual

/-- The labels of the code that is asked if all of it comes to its end in time, with that of the lines
it writes. -/
def Instr.asks : Instr → List Nat
  | .block body => Script.asks body
  | .later made => (made ()).asks
  | .direct acts => Acts.asks acts
  | .guarded acts onTime _ => Acts.asks acts ++ Script.asks onTime
  | _ => []
termination_by structural i => i

def Script.asks : List Instr → List Nat
  | [] => []
  | i :: rest => i.asks ++ Script.asks rest
termination_by structural s => s

def Act.asks : Act → List Nat
  | .called label => [label]
  | .line _ body => Script.asks body
  | _ => []
termination_by structural a => a

def Acts.asks : List Act → List Nat
  | [] => []
  | a :: rest => a.asks ++ Acts.asks rest
termination_by structural acts => acts

end

mutual

/-- Code that runs on a helper answers in time, here and in the lines that code writes. -/
def Instr.Punctual : Instr → Draft → Prop
  | .block body, d => Script.Punctual body d
  | .later made, d => (made ()).Punctual d
  | .direct acts, d => Acts.Punctual acts d.caller d.trail
  | .guarded acts onTime _, d =>
    if d.locked then
      (runHelper acts).answered ∧ Script.Punctual onTime (d.helped (runHelper acts))
    else
      Acts.Punctual acts d.caller d.trail ∧
        Script.Punctual onTime { d with trail := runActs acts d.caller d.trail }
  | _, _ => True
termination_by structural i => i

def Script.Punctual : List Instr → Draft → Prop
  | [], _ => True
  | i :: rest, d => i.Punctual d ∧ Script.Punctual rest (i.run d)
termination_by structural s => s

def Act.Punctual : Act → Thread → Trail → Prop
  | .line route body, thread, t => Script.Punctual body (.start thread route t)
  | _, _, _ => True
termination_by structural a => a

def Acts.Punctual : List Act → Thread → Trail → Prop
  | [], _, _ => True
  | a :: rest, thread, t => a.Punctual thread t ∧ Acts.Punctual rest thread (a.run thread t)
termination_by structural acts => acts

end

/-! Code that does nothing but start is on time, whatever is written before and wherever it runs. -/

theorem Acts.called_of_tame {acts : List Act} (h : Acts.Tame .silent acts) :
    ∀ a ∈ acts, ∃ label, a = .called label := by
  intro a ha
  have hsilent := Acts.tame_iff.1 h a ha
  cases a with
  | called label => exact ⟨label, rfl⟩
  | _ => simp [Act.Tame, Manner.silent] at hsilent

theorem Acts.punctual_of_called {acts : List Act} (h : ∀ a ∈ acts, ∃ label, a = .called label)
    (thread : Thread) (t : Trail) : Acts.Punctual acts thread t := by
  induction acts generalizing t with
  | nil => trivial
  | cons a rest ih =>
    obtain ⟨label, rfl⟩ := h a List.mem_cons_self
    exact ⟨trivial, ih (fun b hb => h b (List.mem_cons_of_mem _ hb)) _⟩

mutual

theorem Instr.punctual_of_tame (i : Instr) (d : Draft) (h : i.Tame .silent) : i.Punctual d := by
  cases i with
  | block body => exact Script.punctual_of_tame body d h
  | later made => exact Instr.punctual_of_tame (made ()) d h
  | direct acts => exact Acts.punctual_of_called (Acts.called_of_tame h) _ _
  | guarded acts onTime tooLate =>
    obtain ⟨hacts, honTime, -⟩ := h
    have hcalled := Acts.called_of_tame hacts
    simp only [Instr.Punctual]
    split
    · exact ⟨(answered_iff acts).2 hcalled, Script.punctual_of_tame onTime _ honTime⟩
    · exact ⟨Acts.punctual_of_called hcalled _ _, Script.punctual_of_tame onTime _ honTime⟩
  | _ => trivial
termination_by structural i

theorem Script.punctual_of_tame (s : List Instr) (d : Draft) (h : Script.Tame .silent s) :
    Script.Punctual s d := by
  cases s with
  | nil => trivial
  | cons i rest =>
    obtain ⟨hi, hrest⟩ := h
    exact ⟨Instr.punctual_of_tame i d hi, Script.punctual_of_tame rest _ hrest⟩
termination_by structural s

end

/-! ### What a run asks for -/

namespace Event

def label? : Event → Option Nat
  | .called label _ => some label
  | _ => none

theorem label?_of_not_called {e : Event} (h : e.isCalled = false) : e.label? = none := by
  cases e with
  | called label place => exact Bool.noConfusion h
  | _ => rfl

end Event

/-- The labels of the code that was asked, given events with the latest first. -/
def askedLabels (events : List Event) : List Nat := events.reverse.filterMap Event.label?

theorem askedLabels_append (new earlier : List Event) :
    askedLabels (new ++ earlier) = askedLabels earlier ++ askedLabels new := by
  simp [askedLabels]

theorem askedLabels_of_not_called {events : List Event} (h : ∀ e ∈ events, e.isCalled = false) :
    askedLabels events = [] := by
  refine List.filterMap_eq_nil_iff.2 fun e he => ?_
  exact Event.label?_of_not_called (h e (List.mem_reverse.1 he))

/-- From `t` to `u` this code was asked. -/
def Trail.Asks (t : Trail) (labels : List Nat) (u : Trail) : Prop :=
  ∃ new, u.latest = new ++ t.latest ∧ askedLabels new = labels

namespace Trail.Asks

variable {t u v : Trail} {a b : List Nat}

theorem refl (t : Trail) : t.Asks [] t := ⟨[], rfl, rfl⟩

theorem trans (h : t.Asks a u) (h' : u.Asks b v) : t.Asks (a ++ b) v := by
  obtain ⟨new, hnew, rfl⟩ := h
  obtain ⟨new', hnew', rfl⟩ := h'
  exact ⟨new' ++ new, by rw [hnew', hnew, List.append_assoc], askedLabels_append new' new⟩

theorem of_writes {d e : Draft} (h : d.Writes e) : d.trail.Asks [] e.trail := by
  obtain ⟨new, hnew, hquiet, -⟩ := h.events
  exact ⟨new, hnew, askedLabels_of_not_called hquiet⟩

theorem push (t : Trail) {e : Event} (h : e.isCalled = false) : t.Asks [] (t.push e) :=
  ⟨[e], rfl, askedLabels_of_not_called (by simpa using h)⟩

theorem of_latest_eq (h : u.latest = t.latest) : t.Asks [] u := ⟨[], h, rfl⟩

theorem add (t : Trail) {e : Event} (h : e.isCalled = false) : t.Asks [] (t.add e) := by
  unfold Trail.add
  split
  · exact push t h
  · exact refl t

theorem stopWith (t : Trail) (s : Stop) : t.Asks [] (t.stopWith s) := by
  apply of_latest_eq
  unfold Trail.stopWith
  split <;> rfl

end Trail.Asks

namespace Draft

variable {d : Draft}

/-- A line that was stopped does not get its thread going again. -/
theorem goesOn_of_finish (h : d.finish.goesOn) : d.trail.goesOn := by
  by_contra hgo
  rw [finish, if_neg hgo, abandon] at h
  split at h
  · exact Trail.not_goesOn_foldl_join (t := d.trail.push .unlocked) hgo d.behind.reverse h
  · exact hgo h

theorem flush_asks (d : Draft) : d.trail.Asks [] d.flush.trail := by
  unfold flush
  split
  · exact .refl d.trail
  · unfold handOn
    split
    · exact .push d.trail rfl
    · exact .refl d.trail

/-- To end a line asks for nothing, if no helper is left behind. -/
theorem finish_asks (hgo : d.trail.goesOn) (hb : d.behind = []) : d.trail.Asks [] d.finish := by
  have hcomplete : d.trail.Asks [] d.complete.trail ∧ d.complete.behind = [] := by
    have hflush : ∀ e : Draft, e.flush.behind = e.behind := by
      intro e
      unfold flush handOn
      split <;> try split
      all_goals rfl
    unfold complete
    split
    · exact ⟨flush_asks d, (hflush d).trans hb⟩
    split
    · exact ⟨.stopWith d.trail .waits, hb⟩
    · exact ⟨(Trail.Asks.add d.trail rfl).trans (flush_asks _), (hflush _).trans hb⟩
  obtain ⟨hasks, hleft⟩ := hcomplete
  have hrelease : d.trail.Asks [] d.release := by
    unfold release
    dsimp only
    split
    · rw [unlock, hleft]
      exact hasks.trans (.push _ rfl)
    · exact hasks.trans (.add _ rfl)
  rw [finish, if_pos hgo]
  exact hrelease.trans (.of_latest_eq (latest_after d.route d.thread d.release))

end Draft

/-- A helper that answers in time has asked for what its code asks for, and for nothing else. -/
theorem asks_helped {acts : List Act} (ha : (runHelper acts).answered) {d : Draft}
    (hgo : d.trail.goesOn) : d.trail.Asks (Acts.asks acts) (d.helped (runHelper acts)).trail := by
  have hearly : ((runHelper acts).early).filterMap Event.label? = Acts.asks acts := by
    induction acts with
    | nil => rfl
    | cons a rest ih =>
      cases a with
      | called label => exact congrArg (label :: ·) (ih ha)
      | _ => exact Bool.noConfusion ha
  refine ⟨(runHelper acts).early.reverse, ?_, ?_⟩
  · exact congrArg Trail.latest (foldl_add_eq hgo)
  · rw [askedLabels, List.reverse_reverse, hearly]

mutual

theorem Instr.run_asks (i : Instr) (d : Draft) (hp : i.Punctual d)
    (hgo : (i.run d).trail.goesOn) (hd : d.trail.goesOn) :
    d.trail.Asks i.asks (i.run d).trail ∧ (i.run d).behind = d.behind := by
  cases i with
  | chunk bytes => exact ⟨.of_writes (d.write_writes bytes), (d.write_writes bytes).behind⟩
  | reserve n => exact ⟨.of_writes (d.reserve_writes n), (d.reserve_writes n).behind⟩
  | separate mark =>
    simp only [Instr.run]
    split
    · exact ⟨.of_writes (d.write_writes mark), (d.write_writes mark).behind⟩
    · exact ⟨.refl d.trail, rfl⟩
  | owe owed => exact ⟨.refl d.trail, rfl⟩
  | block body => exact runScript_asks body d hp hgo
  | later made => exact Instr.run_asks (made ()) d hp hgo hd
  | direct acts => exact ⟨runActs_asks acts d.caller d.trail hp hgo, rfl⟩
  | guarded acts onTime tooLate =>
    simp only [Instr.Punctual] at hp
    simp only [Instr.run] at hgo ⊢
    by_cases hl : d.locked
    · rw [if_pos hl] at hp hgo ⊢
      obtain ⟨ha, hnext⟩ := hp
      rw [if_pos ha] at hgo ⊢
      obtain ⟨hasks, hbehind⟩ := runScript_asks onTime _ hnext hgo
      refine ⟨(asks_helped ha hd).trans hasks, hbehind.trans ?_⟩
      simp [Draft.helped, ha]
    · rw [if_neg hl] at hp hgo ⊢
      obtain ⟨hacts, hnext⟩ := hp
      obtain ⟨hasks, hbehind⟩ := runScript_asks onTime _ hnext hgo
      have hran := runActs_asks acts d.caller d.trail hacts (goesOn_of_runScript hgo)
      exact ⟨hran.trans hasks, hbehind⟩
termination_by structural i

/-- A run that comes to its end asks for what its script asks for. -/
theorem runScript_asks (s : List Instr) (d : Draft) (hp : Script.Punctual s d)
    (hgo : (runScript s d).trail.goesOn) :
    d.trail.Asks (Script.asks s) (runScript s d).trail ∧ (runScript s d).behind = d.behind := by
  cases s with
  | nil => exact ⟨.refl d.trail, rfl⟩
  | cons i rest =>
    have hd := goesOn_of_runScript hgo
    rw [runScript, if_pos hd] at hgo ⊢
    obtain ⟨hi, hbehind⟩ := Instr.run_asks i d hp.1 (goesOn_of_runScript hgo) hd
    obtain ⟨hrest, hbehind'⟩ := runScript_asks rest (i.run d) hp.2 hgo
    exact ⟨hi.trans hrest, hbehind'.trans hbehind⟩
termination_by structural s

theorem Act.run_asks (a : Act) (thread : Thread) (t : Trail) (hp : a.Punctual thread t)
    (hgo : (a.run thread t).goesOn) : t.Asks a.asks (a.run thread t) := by
  cases a with
  | called label =>
    have ht : t.goesOn := by simpa [Act.run] using hgo
    rw [Act.run, Trail.add, if_pos ht]
    exact ⟨[.called label thread.place], rfl, rfl⟩
  | slow => exact .refl t
  | line route body =>
    have hd := Draft.goesOn_of_finish hgo
    obtain ⟨hasks, hbehind⟩ := runScript_asks body (.start thread route t) hp hd
    have hall := hasks.trans (Draft.finish_asks hd hbehind)
    rw [List.append_nil] at hall
    exact hall
  | panic message =>
    have hstop : ¬ (t.stopWith (.panics message)).goesOn := by simp [Trail.not_goesOn_stopWith]
    exact absurd hgo hstop
termination_by structural a

theorem runActs_asks (acts : List Act) (thread : Thread) (t : Trail)
    (hp : Acts.Punctual acts thread t) (hgo : (runActs acts thread t).goesOn) :
    t.Asks (Acts.asks acts) (runActs acts thread t) := by
  cases acts with
  | nil => exact .refl t
  | cons a rest =>
    have ht := goesOn_of_runActs hgo
    rw [runActs, if_pos ht] at hgo ⊢
    have ha := Act.run_asks a thread t hp.1 (goesOn_of_runActs hgo)
    exact ha.trans (runActs_asks rest thread _ hp.2 hgo)
termination_by structural acts

end

/-! ### Scripts of values -/

namespace Script

variable {a b s : Script}

@[simp] theorem asks_append : asks (a ++ b) = asks a ++ asks b := by
  induction a with
  | nil => rfl
  | cons i rest ih => simp [asks, ih]

theorem asks_flatMap {α : Type} (piece : α → Script) (as : List α) :
    asks (as.flatMap piece) = as.flatMap fun a => asks (piece a) := by
  induction as with
  | nil => rfl
  | cons a rest ih => simp [ih]

@[simp] theorem asks_quoteChunks (chunks : List Text.Bytes) : asks (quoteChunks chunks) = [] := by
  have hchunks : asks (chunks.map .chunk) = [] := by
    induction chunks with
    | nil => rfl
    | cons c rest ih => exact ih
  simp [quoteChunks, asks, Instr.asks, itemMark, text, hchunks]

@[simp] theorem asks_quote (s : String) : asks (quote s) = [] := asks_quoteChunks _

@[simp] theorem asks_key (label : String) : asks (key label) = [] := by
  simp [key, asks, Instr.asks, memberMark, text]

@[simp] theorem asks_opening (bracket : String) : asks (opening bracket) = [] := rfl

@[simp] theorem asks_closing (bracket : String) : asks (closing bracket) = [] := rfl

@[simp] theorem asks_framed : asks (framed s) = asks s := by
  simp [framed, asks, Instr.asks, itemMark]

@[simp] theorem asks_later (made : Unit → Script) : asks [later made] = asks (made ()) := by
  simp [later, asks, Instr.asks]

@[simp] theorem asks_guarded (acts : List Act) (onTime tooLate : Script) :
    asks [.guarded acts onTime tooLate] = Acts.asks acts ++ asks onTime := by
  simp [asks, Instr.asks]

@[simp] theorem asks_listed (ws : List Writing) : asks (listed ws) = asks (items ws) := by
  simp [listed]

@[simp] theorem asks_messageListed (message : String) (ws : List Writing) :
    asks (messageListed message ws) = asks (items ws) := by
  simp [messageListed]

@[simp] theorem asks_bracedScript : asks (bracedScript s) = asks s := by
  simp [bracedScript]

end Script

theorem Acts.asks_append (a b : List Act) : Acts.asks (a ++ b) = Acts.asks a ++ Acts.asks b := by
  induction a with
  | nil => rfl
  | cons act rest ih => simp [Acts.asks, ih]

theorem Acts.asks_flatMap {α : Type} (acts : α → List Act) (as : List α) :
    Acts.asks (as.flatMap acts) = as.flatMap fun a => Acts.asks (acts a) := by
  induction as with
  | nil => rfl
  | cons a rest ih => simp [Acts.asks_append, ih]

/-- The ways of a writing ask for what is asked for a value in the places it may have. -/
structure Writing.Asks (w : Writing) (a : Asked) : Prop where
  item : Script.asks w.item = a.written
  member : ∀ k, Script.asks k = [] → Script.asks (w.member k) = a.written
  splice : Script.asks w.splice = a.spliced
  key : Acts.asks (w.keyActs ()) = a.asKey
  shown : Acts.asks w.shownActs = a.shown

namespace Writing

variable {body : Script} {acts : List Act} {a : Asked}

theorem asks_plain (h : Script.asks body = a.written) (hs : a.spliced = a.written)
    (hk : Acts.asks acts = a.asKey) (hshown : Acts.asks acts = a.shown) :
    (plain body acts).Asks a where
  item := by simp [plain, h]
  member k hk := by simp [plain, h, hk]
  splice := by simp [plain, cannotInline, h, hs]
  key := hk
  shown := hshown

theorem asks_paired {pairs : Unit → Script} (h : Script.asks body = a.written)
    (hs : Script.asks (pairs ()) = a.spliced) (hk : Acts.asks acts = a.asKey)
    (hshown : Acts.asks acts = a.shown) : (paired body pairs acts).Asks a where
  item := by simp [paired, plain, h]
  member k hk := by simp [paired, plain, h, hk]
  splice := by simp [paired, hs]
  key := hk
  shown := hshown

theorem asks_null : null.Asks .nothing := asks_plain rfl rfl rfl rfl

theorem asks_nothing : nothing.Asks .nothing := ⟨rfl, fun _ _ => rfl, rfl, rfl, rfl⟩

theorem asks_deferred {result : Unit → Writing} (h : (result ()).Asks a) {isEmptyMap : Bool}
    (he : isEmptyMap = true → a.written = []) :
    (deferred acts isEmptyMap result).Asks
      ⟨Acts.asks acts ++ a.written, Acts.asks acts ++ a.spliced, Acts.asks acts ++ a.asKey, []⟩ where
  item := by simp [deferred, h.item]
  member k hk := by
    cases isEmptyMap with
    | true => simp [deferred, he rfl, Script.asks]
    | false => simp [deferred, hk, h.item]
  splice := by simp [deferred, h.splice]
  key := by simp [deferred, Acts.asks_append, h.key]
  shown := rfl

end Writing

namespace Value

variable {now : Clock → Moment}

/-- What is written of the value asks for what is asked for it. -/
def Asking (now : Clock → Moment) (v : Value) : Prop := (v.writing now).Asks v.asked

section Containers

variable {vs : List Value} (h : ∀ v ∈ vs, v.Asking now)
include h

theorem asks_items : Script.asks (items ((writings now vs).map Prod.snd)) =
    Asked.items (askedOf vs) := by
  rw [items, asks_flatMap, writings_eq, Asked.items, askedOf_eq, List.map_map, List.flatMap_map,
    List.flatMap_map]
  exact List.flatMap_congr fun v hv => (h v hv).item

theorem asks_shown : Acts.asks (shownActsOf ((writings now vs).map Prod.snd)) =
    (askedOf vs).flatMap fun a => a.2.shown := by
  rw [shownActsOf, Acts.asks_flatMap, writings_eq, askedOf_eq, List.map_map, List.flatMap_map,
    List.flatMap_map]
  exact List.flatMap_congr fun v hv => (h v hv).shown

end Containers

theorem asks_tokens (vs : List Value) (h : ∀ v ∈ vs, v.Asking now) :
    Script.asks (tokens (writings now vs)) = Asked.tokens (askedOf vs) := by
  match vs with
  | [] => rfl
  | [k] =>
    have hk := (h k (by simp)).key
    simp only [writings, tokens, askedOf, Asked.tokens]
    cases k.marker? with
    | some _ => rfl
    | none => simp [Script.asks, Instr.asks, hk, Writing.asks_null.member _ (asks_key _), Asked.nothing]
  | k :: v :: rest =>
    have hk := (h k (by simp)).key
    have hv := h v (by simp)
    have hrest := asks_tokens rest fun u hu => h u (by simp [hu])
    simp only [writings, tokens, askedOf, Asked.tokens, asks_append, hrest]
    cases k.marker? with
    | none => simp [Script.asks, Instr.asks, hk, hv.member _ (asks_key _)]
    | some marker =>
      cases marker with
      | skip => rfl
      | inline => rw [hv.splice]

section Members

variable {ms : List (String × Value)} (h : ∀ m ∈ ms, m.2.Asking now)
include h

theorem asks_members : Script.asks (members (memberWritings now ms)) =
    Asked.members (membersAsked ms) := by
  rw [members, asks_flatMap, memberWritings_eq, Asked.members, membersAsked_eq, List.flatMap_map,
    List.flatMap_map]
  exact List.flatMap_congr fun m hm => (h m hm).member _ (asks_key _)

theorem asks_shownMembers : Acts.asks (shownActsOf ((memberWritings now ms).map Prod.snd)) =
    (membersAsked ms).flatMap fun e => e.2.shown := by
  rw [shownActsOf, Acts.asks_flatMap, memberWritings_eq, membersAsked_eq, List.map_map,
    List.flatMap_map, List.flatMap_map]
  exact List.flatMap_congr fun m hm => (h m hm).shown

end Members

end Value

/-! ### Lines -/

namespace Layout

variable {now : Clock → Moment} {s : Settings}

theorem asks_cloudMember (s : Settings) (alone : Bool) : Script.asks (cloudMember s alone) = [] := by
  unfold cloudMember
  split
  · simp [Writing.plain, Script.asks, Instr.asks, text]
  · rfl

section Body

variable (s : Settings) (bare : Bool)

/-- One value may stand alone. -/
theorem asks_body_list {args : List Value} (h : ∀ v ∈ args, v.Asking now) :
    Script.asks (body s bare (.list args) (writings now args)) = formAsked (.list args) := by
  have hitems : Script.asks (items ((writings now args).map Prod.snd)) = formAsked (.list args) :=
    Value.asks_items h
  match args, h, hitems with
  | [v], h, hitems =>
    have hv := h v (by simp)
    have hitem : Script.asks (v.writing now).item = formAsked (.list [v]) := by
      rw [← hitems]
      simp [writings, items]
    have hmember : ∀ label, Script.asks ((v.writing now).member (key label)) =
        formAsked (.list [v]) := fun label => by rw [hv.member _ (asks_key label), ← hv.item, hitem]
    cases hs : s.labels with
    | none => simpa [body, hs, writings] using hitem
    | some l =>
      simp only [body, hs, writings, List.map_cons, List.map_nil]
      split
      · simpa [items] using hitem
      · simpa [asks_cloudMember] using hmember l.message
  | [], _, hitems => cases hs : s.labels <;> simpa [body, hs, writings] using hitems
  | v :: u :: rest, _, hitems =>
    cases hs : s.labels <;> simpa [body, hs, writings] using hitems

theorem asks_body_messageList (message : String) {args : List Value}
    (h : ∀ v ∈ args, v.Asking now) :
    Script.asks (body s bare (.messageList message args) (writings now args)) =
      formAsked (.messageList message args) := by
  have hitems : Script.asks (items ((writings now args).map Prod.snd)) =
      formAsked (.messageList message args) := Value.asks_items h
  have hnone : ((writings now args).map Prod.snd).isEmpty →
      formAsked (.messageList message args) = [] := fun he => by
    rw [← hitems, List.isEmpty_iff.1 he]
    rfl
  cases hs : s.labels with
  | none =>
    simp only [body, hs]
    split
    · next he => simp [hnone he]
    · simpa using hitems
  | some l =>
    simp only [body, hs]
    split
    · simpa using hitems
    split
    · next he => simp [hnone he, asks_cloudMember]
    · simpa using hitems

theorem asks_body_map {args : List Value} (h : ∀ v ∈ args, v.Asking now) :
    Script.asks (body s bare (.map args) (writings now args)) = formAsked (.map args) := by
  have htokens : Script.asks (tokens (writings now args)) = formAsked (.map args) :=
    Value.asks_tokens args h
  cases hs : s.labels <;> simpa [body, hs] using htokens

theorem asks_body_messageMap (message : String) {args : List Value}
    (h : ∀ v ∈ args, v.Asking now) :
    Script.asks (body s bare (.messageMap message args) (writings now args)) =
      formAsked (.messageMap message args) := by
  have htokens : Script.asks (tokens (writings now args)) =
      formAsked (.messageMap message args) := Value.asks_tokens args h
  cases hs : s.labels with
  | none =>
    simp only [body, hs]
    split
    · next he =>
      rw [← htokens, List.isEmpty_iff.1 he]
      simp [tokens, asks]
    · simpa using htokens
  | some l => simpa [body, hs, asks_cloudMember] using htokens

theorem asks_body (form : Form Value) (h : ∀ v ∈ form.args, v.Asking now) :
    Script.asks (body s bare form (formWritings now form)) = formAsked form := by
  cases form with
  | list args => exact asks_body_list s bare h
  | messageList message args => exact asks_body_messageList s bare message h
  | map args => exact asks_body_map s bare h
  | messageMap message args => exact asks_body_messageMap s bare message h

end Body

theorem asks_timestamp (s : Settings) : Script.asks (timestamp s now) = [] := by
  have htexts : ∀ texts : List String, Script.asks (texts.map text) = [] := fun texts => by
    induction texts with
    | nil => rfl
    | cons t rest ih => exact ih
  simp [timestamp, asks, Instr.asks, itemMark, text, htexts]

theorem asks_head (s : Settings) (severity : Severity) : Script.asks (head s now severity) = [] := by
  unfold head
  split <;> simp [asks_timestamp]

/-- Beside the values of its context the end of a line asks for nothing. -/
theorem asks_tail (s : Settings) (context : List (String × Writing)) (module : Option String) :
    Script.asks (tail s context module) = Script.asks (members context) := by
  have hmodule : Script.asks (modulePart s module) = [] := by
    unfold modulePart
    split <;> simp [asks]
  have hcontext : Script.asks (contextPart s context) = Script.asks (members context) := by
    unfold contextPart
    split
    · next he => rw [List.isEmpty_iff.1 he]; rfl
    split
    · simp
    split
    · rfl
    · simp
  simp [tail, hmodule, hcontext, asks, Instr.asks, text]

/-- A line asks for what its values ask for. -/
theorem asks_line (w : Writer Value) (form : Form Value) (h : ∀ v ∈ form.args, v.Asking now)
    (hcontext : ∀ e ∈ w.context.entries, e.2.Asking now) :
    Script.asks (line now w form (formWritings now form) (entryWritings now w.context)) =
      writerAsked w (formAsked form) := by
  obtain ⟨stamp, severity, ⟨own, entries⟩, module, settings⟩ := w
  have hmembers : Script.asks (members (entryWritings now ⟨own, entries⟩)) =
      Asked.members (membersAsked entries) := Value.asks_members hcontext
  simp [line, asks_head, asks_body _ _ _ h, asks_tail, hmembers, writerAsked, entriesAsked]

end Layout

/-! ### All values -/

namespace Value

variable {now : Clock → Moment}

theorem written_of_isEmptyMap {v : Value} (h : v.isEmptyMap = true) : v.asked.written = [] := by
  cases v with
  | map p =>
    obtain ⟨stamp, entries⟩ := p
    cases entries with
    | nil => rfl
    | cons e rest => simp [isEmptyMap, Pairs.isEmpty] at h
  | _ => simp [isEmptyMap] at h

/-- Members in the order of their keys. -/
theorem asks_byKey {ms : List (String × Value)} (h : ∀ m ∈ ms, m.2.Asking now) :
    Script.asks (members (byKey (memberWritings now ms))) =
      Asked.members ((membersAsked ms).mergeSort fun a b => a.1 ≤ b.1) := by
  have hsorted : Script.asks (members (memberWritings now (ms.mergeSort fun a b => a.1 ≤ b.1))) = _ :=
    asks_members fun m hm => h m (List.mem_mergeSort.1 hm)
  rw [memberWritings_eq, membersAsked_eq, List.map_mergeSort, List.map_mergeSort,
    ← memberWritings_eq, ← membersAsked_eq] at hsorted
  · exact hsorted
  all_goals exact fun a _ b _ => rfl

mutual

/-- Writing a value asks for what is asked for it. -/
theorem writing_asks (now : Clock → Moment) (v : Value) : v.Asking now := by
  cases v with
  | null => exact Writing.asks_null
  | marker m => exact Writing.asks_null
  | str s => exact Writing.asks_plain (asks_quote s) rfl rfl rfl
  | bytes bs => exact Writing.asks_plain (asks_quoteChunks _) rfl rfl rfl
  | strs texts =>
    refine Writing.asks_plain ?_ rfl rfl rfl
    have hquotes : Script.asks (texts.flatMap quote) = [] := by simp [asks_flatMap]
    simp [hquotes, asked, Asked.nothing]
  | list vs =>
    have hall := writings_ask now vs
    have hitems := (asks_listed _).trans (asks_items hall)
    exact Writing.asks_paired hitems (asks_tokens vs hall) (asks_shown hall) (asks_shown hall)
  | map p =>
    obtain ⟨stamp, entries⟩ := p
    have hall := members_ask now entries
    cases entries with
    | nil => exact Writing.asks_nothing
    | cons e rest =>
      have hmembers := asks_members hall
      exact Writing.asks_paired (asks_bracedScript.trans hmembers) hmembers
        (asks_shownMembers hall) (asks_shownMembers hall)
  | raw vs =>
    have hall := writings_ask now vs
    have htokens := asks_tokens vs hall
    exact Writing.asks_paired (asks_bracedScript.trans htokens) htokens (asks_shown hall)
      (asks_shown hall)
  | object ms =>
    have hall := members_ask now ms
    exact Writing.asks_plain (asks_bracedScript.trans (asks_byKey hall)) rfl
      (asks_shownMembers hall) (asks_shownMembers hall)
  | error code s =>
    have hcode := codeActs_ask now code
    refine Writing.asks_plain ?_ rfl hcode hcode
    simp [hcode, asked, Asked.always]
  | display code s =>
    have hcode := codeActs_ask now code
    refine Writing.asks_plain ?_ rfl hcode hcode
    simp [hcode, asked, Asked.always]
  | marshal code result thing =>
    have hcode := codeActs_ask now code
    have hthing := showingActs_ask now thing
    cases result with
    | ok json =>
      refine Writing.asks_plain ?_ rfl hthing hthing
      simp [hcode, asked, Script.asks, Instr.asks]
    | error e =>
      refine Writing.asks_plain ?_ rfl hthing hthing
      simp [hcode, hthing, asked, Acts.asks_append]
  | lazy code v =>
    have hv : (v.writing now).Asks v.asked := writing_asks now v
    have hdeferred : (Writing.deferred (codeActs now code) v.isEmptyMap
        fun _ => v.writing now).Asks _ := Writing.asks_deferred hv written_of_isEmptyMap
    rw [codeActs_ask now code] at hdeferred
    exact hdeferred
  | _ => exact Writing.asks_plain rfl rfl rfl rfl
termination_by structural v

theorem writings_ask (now : Clock → Moment) (vs : List Value) : ∀ v ∈ vs, v.Asking now := by
  cases vs with
  | nil => exact fun v hv => absurd hv List.not_mem_nil
  | cons v rest =>
    have hv := writing_asks now v
    have hrest := writings_ask now rest
    intro u hu
    rcases List.mem_cons.1 hu with rfl | hu
    · exact hv
    · exact hrest u hu
termination_by structural vs

theorem members_ask (now : Clock → Moment) (ms : List (String × Value)) :
    ∀ m ∈ ms, m.2.Asking now := by
  cases ms with
  | nil => exact fun m hm => absurd hm List.not_mem_nil
  | cons m rest =>
    obtain ⟨label, v⟩ := m
    have hv := writing_asks now v
    have hrest := members_ask now rest
    intro u hu
    rcases List.mem_cons.1 hu with rfl | hu
    · exact hv
    · exact hrest u hu
termination_by structural ms

theorem entries_ask (now : Clock → Moment) (p : Pairs Value) :
    ∀ e ∈ p.entries, e.2.Asking now := by
  obtain ⟨stamp, entries⟩ := p
  exact members_ask now entries
termination_by structural p

/-- Code asks for itself, and then for what its lines ask for. -/
theorem codeActs_ask (now : Clock → Moment) (c : Code Value) :
    Acts.asks (codeActs now c) = codeAsked c := by
  obtain ⟨label, effects, panics⟩ := c
  have heffects := effectsActs_ask now effects
  have hpanics : Acts.asks (panics.map Act.panic).toList = [] := by cases panics <;> rfl
  simp [codeActs, codeAsked, Acts.asks, Act.asks, Acts.asks_append, heffects, hpanics]
termination_by structural c

theorem showingActs_ask (now : Clock → Moment) (thing : Showing Value) :
    Acts.asks (showingActs now thing) = showingAsked thing := by
  obtain ⟨code, text⟩ := thing
  exact codeActs_ask now code
termination_by structural thing

theorem effectsActs_ask (now : Clock → Moment) (es : List (Effect Value)) :
    Acts.asks (effectsActs now es) = effectsAsked es := by
  cases es with
  | nil => rfl
  | cons e rest =>
    rw [effectsActs, effectsAsked, Acts.asks_append, effectActs_ask now e,
      effectsActs_ask now rest]
termination_by structural es

theorem effectActs_ask (now : Clock → Moment) (e : Effect Value) :
    Acts.asks (effectActs now e) = effectAsked e := by
  cases e with
  | slow => rfl
  | log handle form => exact handleActs_ask now handle form (form_asks now form)
termination_by structural e

theorem form_asks (now : Clock → Moment) (form : Form Value) : ∀ v ∈ form.args, v.Asking now := by
  cases form with
  | list args => exact writings_ask now args
  | messageList message args => exact writings_ask now args
  | map args => exact writings_ask now args
  | messageMap message args => exact writings_ask now args
termination_by structural form

theorem handleActs_ask (now : Clock → Moment) (handle : Handle Value) (form : Form Value)
    (hform : ∀ v ∈ form.args, v.Asking now) :
    Acts.asks (handleActs now handle form fun _ => formWritings now form) =
      handleAsked handle (formAsked form) := by
  cases handle with
  | disabled => rfl
  | enabled w => exact writerAct_asks now w form hform
termination_by structural handle

theorem writerAct_asks (now : Clock → Moment) (w : Writer Value) (form : Form Value)
    (hform : ∀ v ∈ form.args, v.Asking now) :
    Acts.asks [writerAct now w form fun _ => formWritings now form] =
      writerAsked w (formAsked form) := by
  obtain ⟨stamp, severity, context, module, settings⟩ := w
  have hline := Layout.asks_line ⟨stamp, severity, context, module, settings⟩ form hform
    (entries_ask now context)
  simpa [writerAct, Acts.asks, Act.asks] using hline
termination_by structural w

end

end Value

/-! ### Calls -/

namespace Writer

variable {now : Clock → Moment} {w : Writer Value} {form : Form Value} {thread : Thread}
  {t : Trail}

theorem asks_script (now : Clock → Moment) (w : Writer Value) (form : Form Value) :
    Script.asks (w.script now form) = writerAsked w (formAsked form) := by
  rw [script, Script.asks_later]
  exact Layout.asks_line w form (Value.form_asks now form) (Value.entries_ask now w.context)

theorem finish_asks
    (hp : Script.Punctual (w.script now form) (.start thread (Layout.route w) t))
    (hgo : (w.draft now form thread t).trail.goesOn) :
    t.Asks (writerAsked w (formAsked form)) (w.draft now form thread t).finish := by
  obtain ⟨hasks, hbehind⟩ := runScript_asks (w.script now form) _ hp hgo
  have hend := hasks.trans (Draft.finish_asks hgo hbehind)
  rw [asks_script, List.append_nil] at hend
  exact hend

/-- Code that comes to its result at once comes to its end in time. -/
theorem punctual_of_prompt (ht : t.goesOn) (hfree : thread.holdsLock = false)
    (hcode : ∀ x ∈ w.parts form, ∀ code ∈ x.codes, code.IsPrompt) :
    Script.Punctual (w.script now form) (.start thread (Layout.route w) t) ∧
      (w.draft now form thread t).trail.goesOn := by
  have htame : Value.Tame now .silent (w.parts form) (w.keys form) :=
    Value.tame_of_prompt hcode (fun _ hk _ hx => w.mem_parts_of_key form hk hx) .silent
  exact ⟨Script.punctual_of_tame _ _ (tame_script htame),
    Trail.calm_silent_iff.1 (calm_draft htame ht fun _ => hfree).trail⟩

/-- **Each deferred value is asked once in its place.** If all code comes to its end in time, as it
does if it comes to its result at once, a call asks the code of what it says and then that of its
context, a key before its value, and what a deferred value comes to after the value itself. Not asked
is what a marker drops, what is deferred in a container that stands as a key, and what a later equal
key replaces in a map. A handle that is switched off does nothing at all. -/
theorem calls_ask_in_order :
    (∀ (now : Clock → Moment) (w : Writer Value) (form : Form Value) (thread : Thread) (t : Trail),
      Script.Punctual (w.script now form) (.start thread (Layout.route w) t) →
      (w.draft now form thread t).trail.goesOn →
      ∃ events,
        (runActs (handleActs now (.enabled w) form fun _ => formWritings now form) thread t).latest =
          events ++ t.latest ∧ askedLabels events = writerAsked w (formAsked form)) ∧
    (∀ (now : Clock → Moment) (w : Writer Value) (form : Form Value) (thread : Thread) (t : Trail),
      t.goesOn → thread.holdsLock = false →
      (∀ x ∈ w.parts form, ∀ code ∈ x.codes, code.IsPrompt) →
      Script.Punctual (w.script now form) (.start thread (Layout.route w) t) ∧
        (w.draft now form thread t).trail.goesOn) ∧
    (∀ (v : Value) (rest : List Value),
      Asked.tokens (askedOf (.marker .skip :: v :: rest)) = Asked.tokens (askedOf rest)) ∧
    (∀ v : Value, v.isContainer → ∀ label ∈ v.asked.asKey,
      ∃ x ∈ v.parts, ∃ code, x.told? = some code ∧ label ∈ codeAsked code) ∧
    (∀ (p : Pairs Value) (stamp : Nat) (before between after : List (String × Value)) (key : String)
      (replaced other v : Value),
      (Value.map (p.add stamp (before ++ (key, replaced) :: between ++ (key, v) :: after))).asked =
        (Value.map (p.add stamp (before ++ (key, other) :: between ++ (key, v) :: after))).asked) ∧
    (∀ (σ : Type) (p : Program σ) (form : Form Value) (site : Site),
      (Run.writeForm .disabled form).run.run p = (.ok (), p) ∧
        (Run.writeFormAt site .disabled form).run.run p = (.ok (), p)) ∧
    ∀ (stamp : Nat) (maps : List (Pairs Value)) (name : String) (site : Site),
      Handle.withContext stamp .disabled maps = .disabled ∧
        Handle.withModule stamp (.disabled : Handle Value) name = .disabled ∧
          Handle.withSite stamp .disabled site = .disabled := by
  refine ⟨?_, fun now w form thread t => punctual_of_prompt, fun v rest => rfl, ?_, ?_,
    fun σ p form site => ⟨rfl, rfl⟩, fun stamp maps name site => ⟨rfl, rfl, rfl⟩⟩
  · intro now w form thread t hp hgo
    obtain ⟨events, hlatest, hasked⟩ := finish_asks hp hgo
    refine ⟨events, ?_, hasked⟩
    rw [runActs_handleActs now w form thread t (goesOn_of_runScript hgo)]
    exact hlatest
  · intro v hv label hlabel
    rw [Value.asKey_of_isContainer hv] at hlabel
    exact Value.exists_told_of_shown v label hlabel
  · intro p stamp before between after key replaced other v
    rw [Pairs.add_replaced p stamp before between after key replaced other v]

/-- Deferred values as a key, as a value, one after the other, behind a marker, in a key and in the
context, of which one writes a line itself. -/
theorem deferred_asked_once :
    let noon : Clock → Moment := fun _ => ⟨2026, 1, 1, 12, 0, 0, 0⟩
    let code : Nat → Code Value := fun label => ⟨label, [], none⟩
    let other : Writer Value := ⟨0, .note, .empty, none, .initial none⟩
    let logging : Code Value := ⟨2, [.log (.enabled other) (.list [.lazy (code 8) .null])], none⟩
    let w : Writer Value := ⟨0, .warn, ⟨1, [("c", .lazy (code 7) .null)]⟩, none, .initial none⟩
    let form : Form Value := .map [.lazy (code 1) (.str "k"), .lazy logging (.lazy (code 3) .null),
      .marker .skip, .lazy (code 4) .null, .list [.lazy (code 5) .null], .display (code 6) "d"]
    ∃ events,
      (runActs (handleActs noon (.enabled w) form fun _ => formWritings noon form)
        ⟨0, false, false⟩ .empty).latest = events ∧ askedLabels events = [1, 2, 8, 3, 6, 7] := by
  intro noon code other logging w form
  have hgo : (w.draft noon form ⟨0, false, false⟩ .empty).trail.goesOn := by decide +kernel
  have hp : Script.Punctual (w.script noon form)
      (.start ⟨0, false, false⟩ (Layout.route w) .empty) := by
    cbv
  obtain ⟨events, hlatest, hasked⟩ :=
    calls_ask_in_order.1 noon w form ⟨0, false, false⟩ .empty hp hgo
  exact ⟨events, hlatest.trans (List.append_nil events), hasked⟩

end Writer

end Logline
