import Logline.Proofs.Line.Documents
import Logline.Proofs.Line.Past

/-!
No overflow of the scratch space cuts a character or an escape (`pieces_stand_alone`). A line gathers
whole chunks and hands on what it gathered, or a chunk that passes the space by, so every piece that a
destination is handed stands alone: of the line itself, of lines that code of callers writes within it,
and of helpers that go on behind it. All that is asked of callers is that what they marshal is JSON.
-/

namespace Logline

open Text Script

/-! ### JSON of callers -/

mutual

/-- All that is marshalled for a value, also in lines that its code writes. -/
def Value.marshals : Value → List Bytes
  | .list vs => marshalsOf vs
  | .map p => entriesMarshal p
  | .raw vs => marshalsOf vs
  | .object ms => membersMarshal ms
  | .error code _ => codeMarshals code
  | .display code _ => codeMarshals code
  | .marshal code (.ok json) thing => json :: (codeMarshals code ++ showingMarshals thing)
  | .marshal code (.error _) thing => codeMarshals code ++ showingMarshals thing
  | .lazy code v => codeMarshals code ++ v.marshals
  | _ => []
termination_by structural v => v

def marshalsOf : List Value → List Bytes
  | [] => []
  | v :: rest => v.marshals ++ marshalsOf rest
termination_by structural vs => vs

def membersMarshal : List (String × Value) → List Bytes
  | [] => []
  | (_, v) :: rest => v.marshals ++ membersMarshal rest
termination_by structural ms => ms

def entriesMarshal : Pairs Value → List Bytes
  | ⟨_, entries⟩ => membersMarshal entries
termination_by structural p => p

def codeMarshals : Code Value → List Bytes
  | ⟨_, effects, _⟩ => effectsMarshal effects
termination_by structural c => c

def showingMarshals : Showing Value → List Bytes
  | ⟨code, _⟩ => codeMarshals code
termination_by structural s => s

def effectsMarshal : List (Effect Value) → List Bytes
  | [] => []
  | e :: rest => effectMarshals e ++ effectsMarshal rest
termination_by structural es => es

def effectMarshals : Effect Value → List Bytes
  | .slow => []
  | .log handle form => handleMarshals handle (formMarshals form)
termination_by structural e => e

def formMarshals : Form Value → List Bytes
  | .list args => marshalsOf args
  | .messageList _ args => marshalsOf args
  | .map tokens => marshalsOf tokens
  | .messageMap _ tokens => marshalsOf tokens
termination_by structural f => f

/-- Nothing is marshalled for a handle that is switched off. -/
def handleMarshals : Handle Value → List Bytes → List Bytes
  | .disabled, _ => []
  | .enabled w, said => writerMarshals w said
termination_by structural h => h

def writerMarshals : Writer Value → List Bytes → List Bytes
  | ⟨_, _, context, _, _⟩, said => said ++ entriesMarshal context
termination_by structural w => w

end

/-! ### Scripts of whole chunks -/

mutual

/-- Every chunk and every separator stands alone, in lines of callers' code as well. -/
def Instr.Whole : Instr → Prop
  | .chunk bytes => Text.Whole bytes
  | .separate mark => Text.Whole mark
  | .block body => Script.Whole body
  | .later made => (made ()).Whole
  | .direct acts => Acts.Whole acts
  | .guarded acts onTime tooLate => Acts.Whole acts ∧ Script.Whole onTime ∧ Script.Whole tooLate
  | _ => True
termination_by structural i => i

def Script.Whole : List Instr → Prop
  | [] => True
  | i :: rest => i.Whole ∧ Script.Whole rest
termination_by structural s => s

def Act.Whole : Act → Prop
  | .line _ body => Script.Whole body
  | _ => True
termination_by structural a => a

def Acts.Whole : List Act → Prop
  | [] => True
  | a :: rest => a.Whole ∧ Acts.Whole rest
termination_by structural acts => acts

end

/-- What an instruction writes itself stands alone, and so does all that its code writes. -/
def Instr.WritesWhole : Instr → Prop
  | .chunk bytes => Text.Whole bytes
  | .separate mark => Text.Whole mark
  | .direct acts => Acts.Whole acts
  | .guarded acts _ _ => Acts.Whole acts
  | _ => True

instance : Instr.Common Instr.WritesWhole :=
  ⟨fun _ h => h, fun _ h => h, fun _ => trivial, trivial⟩

mutual

theorem Instr.whole_of_every (i : Instr) (h : i.Every Instr.WritesWhole) : i.Whole := by
  cases i with
  | block body => exact Script.whole_of_every body h
  | later made => exact Instr.whole_of_every (made ()) h
  | guarded acts onTime tooLate =>
    exact ⟨h.1, Script.whole_of_every onTime h.2.1, Script.whole_of_every tooLate h.2.2⟩
  | _ => exact h
termination_by structural i

theorem Script.whole_of_every (s : List Instr) (h : Script.Every Instr.WritesWhole s) :
    Script.Whole s := by
  cases s with
  | nil => exact trivial
  | cons i rest => exact ⟨Instr.whole_of_every i h.1, Script.whole_of_every rest h.2⟩
termination_by structural s

end

theorem Acts.whole_iff {acts : List Act} : Acts.Whole acts ↔ ∀ a ∈ acts, a.Whole := by
  induction acts with
  | nil => simp [Acts.Whole]
  | cons a rest ih => simp [Acts.Whole, ih]

theorem Acts.whole_append {a b : List Act} : Acts.Whole (a ++ b) ↔ Acts.Whole a ∧ Acts.Whole b := by
  simp only [whole_iff, List.forall_mem_append]

/-! ### Scripts of values -/

/-- What the value marshals stands alone, and so does all that its code writes. -/
structure Value.BringsWhole (now : Clock → Moment) (x : Value) : Prop where
  json : ∀ json, x.marshalled? = some json → Text.Whole json
  code : ∀ code ∈ x.codes, Acts.Whole (codeActs now code)

namespace Value

variable {now : Clock → Moment}

theorem bringsWhole_of_nothing {x : Value} (hjson : x.marshalled? = none) (hcodes : x.codes = []) :
    x.BringsWhole now :=
  ⟨fun _ h => by simp [hjson] at h, fun _ h => by simp [hcodes] at h⟩

theorem bringsWhole_of_code {x : Value} {c : Code Value} (hjson : x.marshalled? = none)
    (hcodes : x.codes = [c, c]) (h : Acts.Whole (codeActs now c)) : x.BringsWhole now :=
  ⟨fun _ hj => by simp [hjson] at hj, by simpa [hcodes] using h⟩

theorem marshal_codes_whole {code : Code Value} {result : Except String Bytes}
    {thing : Showing Value} (hcode : Acts.Whole (codeActs now code))
    (hthing : Acts.Whole (showingActs now thing)) :
    ∀ c ∈ (marshal code result thing).codes, Acts.Whole (codeActs now c) := by
  rw [showingActs_eq] at hthing
  cases result <;> simp [codes, writtenCodes, textCode?, hcode, hthing]

/-- The code that gives the text of a key is that of its parts. -/
theorem keyActs_whole {k : Value} (h : ∀ x ∈ k.parts, x.BringsWhole now) :
    Acts.Whole ((k.writing now).keyActs ()) := by
  rw [Acts.whole_iff]
  intro a ha
  obtain ⟨x, hx, code, hcode, hmem⟩ := (textActs_of_parts k).1 a ha
  exact Acts.whole_iff.1 ((h x hx).code code (mem_codes_of_text hcode)) a hmem

theorem BringsWhole.written {x : Value} (h : x.BringsWhole now) : Acts.Whole (x.writtenActs now) := by
  rw [Acts.whole_iff]
  intro a ha
  obtain ⟨code, hcode, hmem⟩ := List.mem_flatMap.1 ha
  exact Acts.whole_iff.1 (h.code code (mem_codes_of_written hcode)) a hmem

end Value

theorem Layout.whole_line {now : Clock → Moment} (w : Writer Value) (form : Form Value)
    (h : ∀ x ∈ w.parts form, x.BringsWhole now) :
    Script.Whole (line now w form (formWritings now form) (entryWritings now w.context)) :=
  Script.whole_of_every _ (every_line w form
    ⟨fun x hx => (h x hx).json, fun x hx _ _ _ _ => (h x hx).written,
      fun _ hk => Value.keyActs_whole fun x hx => h x (w.mem_parts_of_key form hk hx)⟩)

namespace Value

mutual

/-- Whatever a value is made of brings along what stands alone, if all that is marshalled does. -/
theorem parts_whole (now : Clock → Moment) (v : Value) (h : ∀ json ∈ v.marshals, Text.Whole json) :
    ∀ x ∈ v.parts, x.BringsWhole now := by
  have hself : v.BringsWhole now → ∀ x ∈ [v], x.BringsWhole now := fun hv x hx =>
    List.mem_singleton.1 hx ▸ hv
  cases v with
  | list vs =>
    exact List.forall_mem_cons.2 ⟨bringsWhole_of_nothing rfl rfl, partsOf_whole now vs h⟩
  | map p => exact List.forall_mem_cons.2 ⟨bringsWhole_of_nothing rfl rfl, entryParts_whole now p h⟩
  | raw vs =>
    exact List.forall_mem_cons.2 ⟨bringsWhole_of_nothing rfl rfl, partsOf_whole now vs h⟩
  | object ms =>
    exact List.forall_mem_cons.2 ⟨bringsWhole_of_nothing rfl rfl, memberParts_whole now ms h⟩
  | error code s => exact hself (bringsWhole_of_code rfl rfl (codeActs_whole now code h))
  | display code s => exact hself (bringsWhole_of_code rfl rfl (codeActs_whole now code h))
  | marshal code result thing =>
    cases result with
    | ok json =>
      obtain ⟨hjson, hcodes⟩ := List.forall_mem_cons.1 h
      obtain ⟨hcode, hthing⟩ := List.forall_mem_append.1 hcodes
      refine hself ⟨fun _ hj => Option.some.inj hj ▸ hjson, ?_⟩
      exact marshal_codes_whole (codeActs_whole now code hcode) (showingActs_whole now thing hthing)
    | error e =>
      obtain ⟨hcode, hthing⟩ := List.forall_mem_append.1 h
      refine hself ⟨fun _ hj => by simp [marshalled?] at hj, ?_⟩
      exact marshal_codes_whole (codeActs_whole now code hcode) (showingActs_whole now thing hthing)
  | lazy code v =>
    obtain ⟨hcode, hv⟩ := List.forall_mem_append.1 h
    have hacts := codeActs_whole now code hcode
    exact List.forall_mem_cons.2 ⟨bringsWhole_of_code rfl rfl hacts, parts_whole now v hv⟩
  | _ => exact hself (bringsWhole_of_nothing rfl rfl)
termination_by structural v

theorem partsOf_whole (now : Clock → Moment) (vs : List Value)
    (h : ∀ json ∈ marshalsOf vs, Text.Whole json) : ∀ x ∈ partsOf vs, x.BringsWhole now := by
  cases vs with
  | nil => exact List.forall_mem_nil _
  | cons v rest =>
    obtain ⟨hv, hrest⟩ := List.forall_mem_append.1 h
    exact List.forall_mem_append.2 ⟨parts_whole now v hv, partsOf_whole now rest hrest⟩
termination_by structural vs

theorem memberParts_whole (now : Clock → Moment) (ms : List (String × Value))
    (h : ∀ json ∈ membersMarshal ms, Text.Whole json) :
    ∀ x ∈ memberParts ms, x.BringsWhole now := by
  cases ms with
  | nil => exact List.forall_mem_nil _
  | cons m rest =>
    obtain ⟨label, v⟩ := m
    obtain ⟨hv, hrest⟩ := List.forall_mem_append.1 h
    exact List.forall_mem_append.2 ⟨parts_whole now v hv, memberParts_whole now rest hrest⟩
termination_by structural ms

theorem entryParts_whole (now : Clock → Moment) (p : Pairs Value)
    (h : ∀ json ∈ entriesMarshal p, Text.Whole json) : ∀ x ∈ entryParts p, x.BringsWhole now := by
  obtain ⟨stamp, entries⟩ := p
  exact memberParts_whole now entries h
termination_by structural p

theorem codeActs_whole (now : Clock → Moment) (c : Code Value)
    (h : ∀ json ∈ codeMarshals c, Text.Whole json) : Acts.Whole (codeActs now c) := by
  obtain ⟨label, effects, panics⟩ := c
  have heffects := effectsActs_whole now effects h
  refine ⟨trivial, Acts.whole_append.2 ⟨heffects, ?_⟩⟩
  cases panics with
  | none => exact trivial
  | some message => exact ⟨trivial, trivial⟩
termination_by structural c

theorem showingActs_whole (now : Clock → Moment) (thing : Showing Value)
    (h : ∀ json ∈ showingMarshals thing, Text.Whole json) : Acts.Whole (showingActs now thing) := by
  obtain ⟨code, text⟩ := thing
  exact codeActs_whole now code h
termination_by structural thing

theorem effectsActs_whole (now : Clock → Moment) (es : List (Effect Value))
    (h : ∀ json ∈ effectsMarshal es, Text.Whole json) : Acts.Whole (effectsActs now es) := by
  cases es with
  | nil => exact trivial
  | cons e rest =>
    obtain ⟨he, hrest⟩ := List.forall_mem_append.1 h
    exact Acts.whole_append.2 ⟨effectActs_whole now e he, effectsActs_whole now rest hrest⟩
termination_by structural es

theorem effectActs_whole (now : Clock → Moment) (e : Effect Value)
    (h : ∀ json ∈ effectMarshals e, Text.Whole json) : Acts.Whole (effectActs now e) := by
  cases e with
  | slow => exact ⟨trivial, trivial⟩
  | log handle form =>
    exact handleActs_whole now handle form (formParts_whole now form) h
termination_by structural e

theorem formParts_whole (now : Clock → Moment) (form : Form Value)
    (h : ∀ json ∈ formMarshals form, Text.Whole json) :
    ∀ x ∈ partsOf form.args, x.BringsWhole now := by
  cases form with
  | list args => exact partsOf_whole now args h
  | messageList message args => exact partsOf_whole now args h
  | map tokens => exact partsOf_whole now tokens h
  | messageMap message tokens => exact partsOf_whole now tokens h
termination_by structural form

theorem handleActs_whole (now : Clock → Moment) (handle : Handle Value) (form : Form Value)
    (hform : (∀ json ∈ formMarshals form, Text.Whole json) →
      ∀ x ∈ partsOf form.args, x.BringsWhole now)
    (h : ∀ json ∈ handleMarshals handle (formMarshals form), Text.Whole json) :
    Acts.Whole (handleActs now handle form fun _ => formWritings now form) := by
  cases handle with
  | disabled => exact trivial
  | enabled w => exact ⟨writerAct_whole now w form hform h, trivial⟩
termination_by structural handle

theorem writerAct_whole (now : Clock → Moment) (w : Writer Value) (form : Form Value)
    (hform : (∀ json ∈ formMarshals form, Text.Whole json) →
      ∀ x ∈ partsOf form.args, x.BringsWhole now)
    (h : ∀ json ∈ writerMarshals w (formMarshals form), Text.Whole json) :
    (writerAct now w form fun _ => formWritings now form).Whole := by
  obtain ⟨stamp, severity, context, module, settings⟩ := w
  obtain ⟨hsaid, hcontext⟩ := List.forall_mem_append.1 h
  have hentries := entryParts_whole now context hcontext
  exact ⟨Layout.whole_line ⟨stamp, severity, context, module, settings⟩ form
    (List.forall_mem_append.2 ⟨hform hsaid, hentries⟩), trivial⟩
termination_by structural w

end

end Value

/-! ### What is handed on -/

/-- Bytes that a destination is handed stand alone. -/
def Event.Whole : Event → Prop
  | .wrote _ bytes _ => Text.Whole bytes
  | _ => True

def Trail.Whole (t : Trail) : Prop := ∀ e ∈ t.latest, e.Whole

/-- All that has gathered stands alone, chunk by chunk, and all that has been handed on, by the line
and by what helpers go on to do. -/
structure Draft.Whole (d : Draft) : Prop where
  gathered : ∀ c ∈ d.gathered, Text.Whole c
  trail : d.trail.Whole
  behind : ∀ t ∈ d.behind, t.Whole

structure Helped.Whole (h : Helped) : Prop where
  early : ∀ e ∈ h.early, e.Whole
  behind : h.behind.Whole

namespace Trail

variable {t : Trail}

theorem whole_empty : empty.Whole := List.forall_mem_nil _

theorem Whole.push (h : t.Whole) {e : Event} (he : e.Whole) : (t.push e).Whole :=
  List.forall_mem_cons.2 ⟨he, h⟩

theorem Whole.add (h : t.Whole) {e : Event} (he : e.Whole) : (t.add e).Whole := by
  unfold Trail.add
  split
  · exact h.push he
  · exact h

theorem Whole.stopWith (h : t.Whole) (s : Stop) : (t.stopWith s).Whole := by
  unfold Trail.stopWith
  split
  · exact h
  · exact h

theorem Whole.foldl_add (h : t.Whole) {events : List Event} (he : ∀ e ∈ events, e.Whole) :
    (events.foldl Trail.add t).Whole := by
  induction events generalizing t with
  | nil => exact h
  | cons e rest ih =>
    obtain ⟨hhead, htail⟩ := List.forall_mem_cons.1 he
    exact ih (h.add hhead) htail

theorem Whole.foldl_join (h : t.Whole) {helpers : List Trail} (hh : ∀ u ∈ helpers, u.Whole) :
    (helpers.foldl Trail.join t).Whole := by
  induction helpers generalizing t with
  | nil => exact h
  | cons u rest ih =>
    obtain ⟨hhead, htail⟩ := List.forall_mem_cons.1 hh
    exact ih (t := t.join u) (List.forall_mem_append.2 ⟨hhead, h⟩) htail

end Trail

namespace Draft.Whole

variable {d : Draft}

theorem start {t : Trail} (ht : t.Whole) (thread : Thread) (route : Route) :
    (Draft.start thread route t).Whole :=
  ⟨List.forall_mem_nil _, ht, List.forall_mem_nil _⟩

theorem withTrail (h : d.Whole) {t : Trail} (ht : t.Whole) : ({ d with trail := t } : Draft).Whole :=
  ⟨h.gathered, ht, h.behind⟩

theorem handOn (h : d.Whole) {bytes : Bytes} (hb : Text.Whole bytes) : (d.handOn bytes).Whole := by
  unfold Draft.handOn
  split
  · exact ⟨h.gathered, h.trail.push hb, h.behind⟩
  · exact h

/-- Chunks that stand alone do so together. -/
theorem scratch (h : d.Whole) : Text.Whole d.scratch :=
  whole_flatten fun c hc => h.gathered c (List.mem_reverse.1 hc)

theorem flush (h : d.Whole) : d.flush.Whole := by
  have hh := h.handOn h.scratch
  unfold Draft.flush
  split
  · exact h
  · exact ⟨List.forall_mem_nil _, hh.trail, hh.behind⟩

theorem lock (h : d.Whole) : d.lock.Whole := by
  have htaken : ({ d with locked := true, trail := d.trail.add .locked } : Draft).Whole :=
    ⟨h.gathered, h.trail.add trivial, h.behind⟩
  unfold Draft.lock
  split
  · exact h.flush
  split
  · exact h.withTrail (h.trail.stopWith .waits)
  · exact htaken.flush

theorem write (h : d.Whole) {chunk : Bytes} (hc : Text.Whole chunk) : (d.write chunk).Whole := by
  have he : (if scratchSize < d.used + chunk.length then d.lock else d).Whole := by
    split
    · exact h.lock
    · exact h
  unfold Draft.write
  generalize (if scratchSize < d.used + chunk.length then d.lock else d) = e at he ⊢
  dsimp only
  split
  · exact he.handOn hc
  · exact ⟨List.forall_mem_cons.2 ⟨hc, he.gathered⟩, he.trail, he.behind⟩

theorem reserve (h : d.Whole) (n : Nat) : (d.reserve n).Whole := by
  unfold Draft.reserve
  split
  · exact h.lock
  · exact h

theorem helped (h : d.Whole) {r : Helped} (hr : r.Whole) : (d.helped r).Whole := by
  refine ⟨h.gathered, h.trail.foldl_add hr.early, fun t ht => ?_⟩
  simp only [Draft.helped] at ht
  split at ht
  · exact h.behind t ht
  · exact List.forall_mem_cons.2 ⟨hr.behind, h.behind⟩ t ht

theorem complete (h : d.Whole) : d.complete.Whole := by
  have hshared := h.withTrail (h.trail.add (e := .shared) trivial)
  unfold Draft.complete
  split
  · exact h.flush
  split
  · exact h.withTrail (h.trail.stopWith .waits)
  · exact hshared.flush

theorem unlock (h : d.Whole) : d.unlock.Whole :=
  Trail.Whole.foldl_join (h.trail.push (e := .unlocked) trivial)
    fun u hu => h.behind u (List.mem_reverse.1 hu)

theorem release (h : d.Whole) : d.release.Whole := by
  unfold Draft.release
  dsimp only
  split
  · exact h.complete.unlock
  · exact h.complete.trail.add trivial

theorem finish (h : d.Whole) : d.finish.Whole := by
  unfold Draft.finish
  split
  · unfold Route.after
    split
    · exact h.release.stopWith _
    · exact h.release.stopWith _
    · exact h.release
  · unfold Draft.abandon
    split
    · exact h.unlock
    · exact h.trail

end Draft.Whole

/-! ### Runs -/

mutual

theorem Instr.run_whole (i : Instr) (d : Draft) (hi : i.Whole) (hd : d.Whole) : (i.run d).Whole := by
  cases i with
  | chunk bytes => exact hd.write hi
  | reserve n => exact hd.reserve n
  | separate mark =>
    simp only [Instr.run]
    split
    · exact hd.write hi
    · exact hd
  | owe owed => exact ⟨hd.gathered, hd.trail, hd.behind⟩
  | block body => exact runScript_whole body d hi hd
  | later made => exact Instr.run_whole (made ()) d hi hd
  | direct acts => exact hd.withTrail (runActs_whole acts d.caller d.trail hi hd.trail)
  | guarded acts onTime tooLate =>
    obtain ⟨ha, ho, hl⟩ := hi
    simp only [Instr.run]
    split
    · have hh := hd.helped (runHelper_whole acts ha)
      split
      · exact runScript_whole onTime _ ho hh
      · exact runScript_whole tooLate _ hl hh
    · have hran := runActs_whole acts d.caller d.trail ha hd.trail
      exact runScript_whole onTime _ ho (hd.withTrail hran)
termination_by structural i

/-- A run of whole chunks hands on what stands alone, wherever the scratch space is full. -/
theorem runScript_whole (s : List Instr) (d : Draft) (hs : Script.Whole s) (hd : d.Whole) :
    (runScript s d).Whole := by
  cases s with
  | nil => exact hd
  | cons i rest =>
    simp only [runScript]
    split
    · exact runScript_whole rest _ hs.2 (Instr.run_whole i d hs.1 hd)
    · exact hd
termination_by structural s

theorem Act.run_whole (a : Act) (thread : Thread) (t : Trail) (ha : a.Whole) (ht : t.Whole) :
    (a.run thread t).Whole := by
  cases a with
  | called label => exact ht.add trivial
  | slow => exact ht
  | line route body => exact (runScript_whole body _ ha (.start ht thread route)).finish
  | panic message => exact ht.stopWith _
termination_by structural a

theorem runActs_whole (acts : List Act) (thread : Thread) (t : Trail) (ha : Acts.Whole acts)
    (ht : t.Whole) : (runActs acts thread t).Whole := by
  cases acts with
  | nil => exact ht
  | cons a rest =>
    simp only [runActs]
    split
    · exact runActs_whole rest thread _ ha.2 (Act.run_whole a thread t ha.1 ht)
    · exact ht
termination_by structural acts

theorem runHelper_whole (acts : List Act) (ha : Acts.Whole acts) : (runHelper acts).Whole := by
  have hnone : ∀ e ∈ ([] : List Event), e.Whole := List.forall_mem_nil _
  cases acts with
  | nil => exact ⟨hnone, Trail.whole_empty⟩
  | cons a rest =>
    cases a with
    | called label =>
      have hrest := runHelper_whole rest ha.2
      exact ⟨List.forall_mem_cons.2 ⟨trivial, hrest.early⟩, hrest.behind⟩
    | slow => exact ⟨hnone, runActs_whole rest .helper .empty ha.2 Trail.whole_empty⟩
    | line route body =>
      have hline := (runScript_whole body _ ha.1 (.start Trail.whole_empty .helper route)).finish
      exact ⟨hnone, runActs_whole rest .helper _ ha.2 hline⟩
    | panic message => exact ⟨hnone, Trail.whole_empty⟩
termination_by structural acts

end

/-- What code does comes on top of what happened before. -/
theorem exists_latest_runActs (acts : List Act) (thread : Thread) (t : Trail)
    (ha : Acts.Whole acts) :
    ∃ new, (runActs acts thread t).latest = new ++ t.latest ∧ ∀ e ∈ new, e.Whole := by
  by_cases hgo : t.goesOn
  · have hwhole := runActs_whole acts thread .empty ha Trail.whole_empty
    refine ⟨(runActs acts thread .empty).latest, ?_, hwhole⟩
    conv => lhs; rw [Trail.eq_past_of_goesOn hgo, runActs_past]
    rfl
  · refine ⟨[], ?_, List.forall_mem_nil _⟩
    cases acts with
    | nil => rfl
    | cons a rest => simp [runActs, hgo]

/-- **No character and no escape is cut in two.** Whatever a call writes, on any thread and after
anything that happened, each piece that a destination is handed is well-formed by itself and holds
whole escapes only. -/
theorem pieces_stand_alone (now : Clock → Moment) (h : Handle Value) (form : Form Value)
    (thread : Thread) (t : Trail)
    (hjson : ∀ json ∈ handleMarshals h (formMarshals form),
      ((decode? json).bind Json.read?).isSome) :
    ∃ new,
      (runActs (handleActs now h form fun _ => formWritings now form) thread t).latest =
        new ++ t.latest ∧
      ∀ destination bytes reportErrors, .wrote destination bytes reportErrors ∈ new →
        ∃ text, decode? bytes = some text ∧ Json.Uncut text.toList := by
  have hacts := Value.handleActs_whole now h form (Value.formParts_whole now form)
    fun json hmem => whole_of_json (hjson json hmem)
  obtain ⟨new, hlatest, hnew⟩ := exists_latest_runActs _ thread t hacts
  exact ⟨new, hlatest, fun _ _ _ hmem => hnew _ hmem⟩

/-- A text longer than the scratch space, bytes that are no text and marshalled JSON, also in a line
that code writes within the line. -/
theorem long_call_stands_alone :
    let noon : Clock → Moment := fun _ => ⟨2026, 1, 1, 12, 0, 0, 0⟩
    let w : Writer Value := ⟨0, .warn, .empty, none, .initial none⟩
    let long := String.ofList (List.replicate 16384 'é')
    let json := Text.bytes "[\"\\u20AC\", 1]"
    let other : Form Value := .list [.bytes [0xC3, 0x28], .marshal .prompt (.ok json) "inner"]
    let form : Form Value := .map
      [.str long, .display ⟨1, [.slow, .log (.enabled w) other], none⟩ "d",
        .str "raw", .marshal .prompt (.ok json) "outer"]
    let t := runActs (handleActs noon (.enabled w) form fun _ => formWritings noon form)
      ⟨0, false, false⟩ .empty
    ∀ destination bytes reportErrors, .wrote destination bytes reportErrors ∈ t.latest →
      ∃ text, decode? bytes = some text ∧ Json.Uncut text.toList := by
  intro noon w long json other form t
  have hread : ((decode? json).bind Json.read?).isSome := by decide +kernel
  have hjson : ∀ j ∈ handleMarshals (.enabled w) (formMarshals form),
      ((decode? j).bind Json.read?).isSome := by
    have hlist : handleMarshals (.enabled w) (formMarshals form) = [json, json] := rfl
    rw [hlist]
    simpa using hread
  obtain ⟨new, hlatest, hnew⟩ :=
    pieces_stand_alone noon (.enabled w) form ⟨0, false, false⟩ .empty hjson
  have hall : t.latest = new := hlatest.trans (List.append_nil new)
  rwa [hall]

end Logline
