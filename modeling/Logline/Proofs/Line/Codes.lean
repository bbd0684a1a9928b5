import Logline.Proofs.Line.Saying
import Logline.Proofs.Text.Whole
import Logline.Proofs.Value.Parts

/-!
Which code of callers a script runs. That of a value runs where the value is written, with a
placeholder for the case that it misses its time; that of what stands in the place of a key is asked
for its text beforehand, on the thread that writes the line, whoever holds the output lock. Writing a
value runs the code its parts bring along and no other (`Value.writing_runs`).

What is told of the code is an instance of what is told of all instructions (`Script.Every`): a line
asks for nothing but chunks and separators that cut neither a character nor an escape, the room for a
number and that code (`Value.writing_every`).
-/

namespace Logline

open Script

/-! ### The code in a script -/

mutual

/-- `K` holds of all code that gives the text of a key, and `V` of all other, with the script that is
written if the code misses its time. -/
def Instr.Runs (K : List Act → Prop) (V : List Act → Script → Prop) : Instr → Prop
  | .block body => Script.Runs K V body
  | .later made => (made ()).Runs K V
  | .direct acts => K acts
  | .guarded acts onTime tooLate =>
    V acts tooLate ∧ Script.Runs K V onTime ∧ Script.Runs K V tooLate
  | _ => True
termination_by structural i => i

def Script.Runs (K : List Act → Prop) (V : List Act → Script → Prop) : List Instr → Prop
  | [] => True
  | i :: rest => i.Runs K V ∧ Script.Runs K V rest
termination_by structural s => s

end

mutual

/-- `P` holds of each instruction that is not made of others, and of all that run code. -/
def Instr.Every (P : Instr → Prop) : Instr → Prop
  | .block body => Script.Every P body
  | .later made => (made ()).Every P
  | .guarded acts onTime late =>
    P (.guarded acts onTime late) ∧ Script.Every P onTime ∧ Script.Every P late
  | i => P i
termination_by structural i => i

def Script.Every (P : Instr → Prop) : List Instr → Prop
  | [] => True
  | i :: rest => i.Every P ∧ Script.Every P rest
termination_by structural s => s

end

/-- Holds of all that lines ask for besides code of callers and what it marshals. Chunks stand alone,
and the only room is that for a number. -/
class Instr.Common (P : Instr → Prop) : Prop where
  chunk : ∀ bytes, Text.Whole bytes → P (.chunk bytes)
  separate : ∀ mark, Text.Whole mark → P (.separate mark)
  owe : ∀ owed, P (.owe owed)
  room : P (.reserve 64)

/-- The code that an instruction runs itself satisfies `K` or `V`. -/
def Instr.CodeIs (K : List Act → Prop) (V : List Act → Script → Prop) : Instr → Prop
  | .direct acts => K acts
  | .guarded acts _ late => V acts late
  | _ => True

instance (K : List Act → Prop) (V : List Act → Script → Prop) : Instr.Common (Instr.CodeIs K V) :=
  ⟨fun _ _ => trivial, fun _ _ => trivial, fun _ => trivial, trivial⟩

mutual

theorem Instr.runs_iff_every {K : List Act → Prop} {V : List Act → Script → Prop} (i : Instr) :
    i.Runs K V ↔ i.Every (Instr.CodeIs K V) := by
  cases i with
  | block body => exact Script.runs_iff_every body
  | later made => exact Instr.runs_iff_every (made ())
  | guarded acts onTime tooLate =>
    exact and_congr Iff.rfl
      (and_congr (Script.runs_iff_every onTime) (Script.runs_iff_every tooLate))
  | _ => exact Iff.rfl
termination_by structural i

theorem Script.runs_iff_every {K : List Act → Prop} {V : List Act → Script → Prop}
    (s : List Instr) : Script.Runs K V s ↔ Script.Every (Instr.CodeIs K V) s := by
  cases s with
  | nil => exact Iff.rfl
  | cons i rest => exact and_congr (Instr.runs_iff_every i) (Script.runs_iff_every rest)
termination_by structural s

end

/-- What is written for code that missed its time: a text where its own would be, or as an item, behind
the key if there is one. -/
def Script.IsPlaceholder (s : Script) : Prop :=
  s = quote lateText ∨ ∃ before, s = before ++ lateItem

namespace Script

variable {P : Instr → Prop} {a b s : Script}

theorem every_iff : Every P s ↔ ∀ i ∈ s, i.Every P := by
  induction s with
  | nil => simp [Every]
  | cons i rest ih => simp [Every, ih]

theorem every_append : Every P (a ++ b) ↔ Every P a ∧ Every P b := by
  simp only [every_iff, List.mem_append]
  exact ⟨fun h => ⟨fun i hi => h i (.inl hi), fun i hi => h i (.inr hi)⟩,
    fun h i hi => hi.elim (h.1 i) (h.2 i)⟩

theorem every_flatMap {α : Type} {piece : α → Script} {as : List α} :
    Every P (as.flatMap piece) ↔ ∀ a ∈ as, Every P (piece a) := by
  induction as with
  | nil => simp [Every]
  | cons a rest ih => simp [every_append, ih]

section Common

variable [hP : Instr.Common P]
include hP

theorem every_chunk {bytes : Text.Bytes} (h : Text.Whole bytes) : Every P [.chunk bytes] :=
  ⟨hP.chunk _ h, trivial⟩

theorem every_itemMark : itemMark.Every P := hP.separate _ (Text.whole_bytes (by decide))

theorem every_memberMark : memberMark.Every P := hP.separate _ (Text.whole_bytes (by decide))

theorem every_text {t : String} (h : '\\' ∉ t.toList) : (text t).Every P :=
  hP.chunk _ (Text.whole_bytes h)

theorem every_quoteChunks {chunks : List Text.Bytes} (h : ∀ c ∈ chunks, Text.Whole c) :
    Every P (quoteChunks chunks) := by
  have hquote : (text "\"").Every P := every_text (by decide)
  have hall : Every P (chunks.map .chunk) := by
    rw [every_iff, List.forall_mem_map]
    exact fun c hc => hP.chunk c (h c hc)
  exact ⟨every_itemMark, hquote, every_append.2 ⟨hall, hquote, hP.owe _, trivial⟩⟩

theorem every_quote (s : String) : Every P (quote s) :=
  every_quoteChunks fun _ => Text.whole_of_mem_escapeText

theorem every_quoteBytes (bs : Text.Bytes) : Every P (quoteBytes bs) :=
  every_quoteChunks fun _ => Text.whole_of_mem_escapeBytes

theorem every_key (label : String) : Every P (key label) :=
  every_append.2 ⟨⟨every_memberMark, hP.owe _, every_quote label⟩, every_text (by decide), hP.owe _,
    trivial⟩

theorem every_framed (h : Every P s) : Every P (framed s) :=
  ⟨every_itemMark, hP.owe _, hP.room, h, hP.owe _, trivial⟩

theorem every_opening {bracket : String} (h : '\\' ∉ bracket.toList) : Every P (opening bracket) :=
  ⟨every_itemMark, every_text h, hP.owe _, trivial⟩

theorem every_closing {bracket : String} (h : '\\' ∉ bracket.toList) : Every P (closing bracket) :=
  ⟨every_text h, hP.owe _, trivial⟩

theorem every_bracketed (h : Every P s) : Every P (opening "[" ++ s ++ closing "]") :=
  every_append.2 ⟨every_append.2 ⟨every_opening (by decide), h⟩, every_closing (by decide)⟩

theorem every_braced (h : Every P s) : Every P (bracedScript s) :=
  every_append.2 ⟨every_append.2 ⟨every_opening (by decide), h⟩, every_closing (by decide)⟩

theorem every_lateItem : Every P lateItem := every_framed (every_quote lateText)

end Common

theorem every_guarded {acts : List Act} {onTime tooLate : Script}
    (hv : P (.guarded acts onTime tooLate)) (ho : Every P onTime) (hl : Every P tooLate) :
    Every P [.guarded acts onTime tooLate] :=
  ⟨⟨hv, ho, hl⟩, trivial⟩

theorem runs_append {K : List Act → Prop} {V : List Act → Script → Prop} :
    Runs K V (a ++ b) ↔ Runs K V a ∧ Runs K V b := by
  simp only [runs_iff_every, every_append]

end Script

/-! ### Writings -/

/-- All three ways of a writing run no other code. -/
structure Writing.Runs (K : List Act → Prop) (V : List Act → Script → Prop) (w : Writing) :
    Prop where
  item : Script.Runs K V w.item
  member : ∀ k, Script.Runs K V k → Script.Runs K V (w.member k)
  splice : Script.Runs K V w.splice

structure Writing.Every (P : Instr → Prop) (w : Writing) : Prop where
  item : Script.Every P w.item
  member : ∀ k, Script.Every P k → Script.Every P (w.member k)
  splice : Script.Every P w.splice

namespace Writing

theorem runs_of_every {K : List Act → Prop} {V : List Act → Script → Prop} {w : Writing}
    (h : w.Every (Instr.CodeIs K V)) : w.Runs K V where
  item := (runs_iff_every _).2 h.item
  member k hk := (runs_iff_every _).2 (h.member k ((runs_iff_every k).1 hk))
  splice := (runs_iff_every _).2 h.splice

variable {P : Instr → Prop} [Instr.Common P] {body : Script}

theorem every_plain (h : Script.Every P body) (acts : List Act) : (plain body acts).Every P where
  item := every_framed h
  member _ hk := every_append.2 ⟨hk, every_framed h⟩
  splice := every_append.2 ⟨every_key _, every_framed h⟩

theorem every_paired {pairs : Unit → Script} (h : Script.Every P body)
    (hp : Script.Every P (pairs ())) (acts : List Act) : (paired body pairs acts).Every P where
  item := every_framed h
  member _ hk := every_append.2 ⟨hk, every_framed h⟩
  splice := ⟨hp, trivial⟩

theorem every_deferred {result : Unit → Writing} {acts : List Act}
    (hv : ∀ onTime late : Script, late.IsPlaceholder → P (.guarded acts onTime late))
    (h : (result ()).Every P) (isEmptyMap : Bool) : (deferred acts isEmptyMap result).Every P where
  item := every_guarded (hv _ _ (.inr ⟨[], rfl⟩)) ⟨h.item, trivial⟩ every_lateItem
  member k hk := by
    refine every_guarded (hv _ _ (.inr ⟨k, rfl⟩)) ?_ (every_append.2 ⟨hk, every_lateItem⟩)
    cases isEmptyMap with
    | true => exact trivial
    | false => exact every_append.2 ⟨hk, h.item, trivial⟩
  splice := every_guarded (hv _ _ (.inr ⟨_, rfl⟩)) ⟨h.splice, trivial⟩
    (every_append.2 ⟨every_key _, every_lateItem⟩)

theorem every_null : null.Every P :=
  every_plain (every_chunk (Text.whole_bytes (by decide))) []

end Writing

/-! ### The code of values -/

namespace Value

/-- What the code does that is run where the value is written. -/
def writtenActs (now : Clock → Moment) (v : Value) : List Act :=
  v.writtenCodes.flatMap (codeActs now)

/-- Something the code does that gives the text of one of these values. -/
def IsActOf (now : Clock → Moment) (parts : List Value) (a : Act) : Prop :=
  ∃ x ∈ parts, ∃ code, x.textCode? = some code ∧ a ∈ codeActs now code

variable {now : Clock → Moment}

theorem writtenActs_of_single {v : Value} {code : Code Value} (h : v.writtenCodes = [code]) :
    v.writtenActs now = codeActs now code := by
  rw [writtenActs, h, List.flatMap_singleton]

theorem showingActs_eq (thing : Showing Value) : showingActs now thing = codeActs now thing.code := by
  cases thing
  rfl

theorem IsActOf.mono {some more : List Value} {a : Act} (h : IsActOf now some a)
    (hsub : some ⊆ more) : IsActOf now more a := by
  obtain ⟨x, hx, code, hcode, ha⟩ := h
  exact ⟨x, hsub hx, code, hcode, ha⟩

mutual

/-- What runs for the text of a value, as a key or to show it. -/
theorem textActs_of_parts (v : Value) :
    (∀ a ∈ (v.writing now).keyActs (), IsActOf now v.parts a) ∧
      ∀ a ∈ (v.writing now).shownActs, IsActOf now v.parts a := by
  cases v with
  | list vs =>
    have hall := fun a ha => (shownActs_of_parts vs a ha).mono (List.subset_cons_self (list vs) _)
    exact ⟨hall, hall⟩
  | map p =>
    obtain ⟨stamp, entries⟩ := p
    cases entries with
    | nil => exact ⟨fun a ha => absurd ha List.not_mem_nil, fun a ha => absurd ha List.not_mem_nil⟩
    | cons e rest =>
      have hall := fun a ha => (shownActs_of_members (e :: rest) a ha).mono
        (List.subset_cons_self (map ⟨stamp, e :: rest⟩) _)
      exact ⟨hall, hall⟩
  | raw vs =>
    have hall := fun a ha => (shownActs_of_parts vs a ha).mono (List.subset_cons_self (raw vs) _)
    exact ⟨hall, hall⟩
  | object ms =>
    have hall := fun a ha =>
      (shownActs_of_members ms a ha).mono (List.subset_cons_self (object ms) _)
    exact ⟨hall, hall⟩
  | error code s =>
    have hcode := fun a ha => (⟨_, self_mem_parts _, code, rfl, ha⟩ : IsActOf now (error code s).parts a)
    exact ⟨hcode, hcode⟩
  | display code s =>
    have hcode := fun a ha =>
      (⟨_, self_mem_parts _, code, rfl, ha⟩ : IsActOf now (display code s).parts a)
    exact ⟨hcode, hcode⟩
  | marshal code result thing =>
    have hcode : ∀ a ∈ showingActs now thing, IsActOf now (marshal code result thing).parts a :=
      fun a ha => ⟨_, self_mem_parts _, thing.code, rfl, showingActs_eq thing ▸ ha⟩
    cases result <;> exact ⟨hcode, hcode⟩
  | lazy code v =>
    refine ⟨fun a ha => ?_, fun a ha => absurd ha List.not_mem_nil⟩
    rcases List.mem_append.1 ha with ha | ha
    · exact ⟨_, self_mem_parts _, code, rfl, ha⟩
    · exact ((textActs_of_parts v).1 a ha).mono (List.subset_cons_self _ _)
  | _ => exact ⟨fun a ha => absurd ha List.not_mem_nil, fun a ha => absurd ha List.not_mem_nil⟩
termination_by structural v

theorem shownActs_of_parts (vs : List Value) :
    ∀ a ∈ shownActsOf ((writings now vs).map Prod.snd), IsActOf now (partsOf vs) a := by
  cases vs with
  | nil => exact fun a ha => absurd ha List.not_mem_nil
  | cons v rest =>
    intro a ha
    rw [partsOf]
    rcases List.mem_append.1 ha with ha | ha
    · exact ((textActs_of_parts v).2 a ha).mono (List.subset_append_left ..)
    · exact (shownActs_of_parts rest a ha).mono (List.subset_append_right ..)
termination_by structural vs

theorem shownActs_of_members (ms : List (String × Value)) :
    ∀ a ∈ shownActsOf ((memberWritings now ms).map Prod.snd), IsActOf now (memberParts ms) a := by
  cases ms with
  | nil => exact fun a ha => absurd ha List.not_mem_nil
  | cons e rest =>
    obtain ⟨label, v⟩ := e
    intro a ha
    rw [memberParts]
    rcases List.mem_append.1 ha with ha | ha
    · exact ((textActs_of_parts v).2 a ha).mono (List.subset_append_left ..)
    · exact (shownActs_of_members rest a ha).mono (List.subset_append_right ..)
termination_by structural ms

end

variable {K : List Act → Prop} {V : List Act → Script → Prop}

/-- `V` holds of the code of all parts, whatever stands in for it, and `K` of what is run for the text
of each key. -/
structure Runs (now : Clock → Moment) (K : List Act → Prop) (V : List Act → Script → Prop)
    (parts keys : List Value) : Prop where
  parts : ∀ x ∈ parts, x.writtenCodes ≠ [] → ∀ late : Script, late.IsPlaceholder →
    V (x.writtenActs now) late
  keys : ∀ k ∈ keys, K ((k.writing now).keyActs ())

/-- `P` holds of whatever runs the code of a part, or gives the text of a key, and of what a part
marshals. -/
structure Every (now : Clock → Moment) (P : Instr → Prop) (parts keys : List Value) : Prop where
  json : ∀ x ∈ parts, ∀ json, x.marshalled? = some json → P (.chunk json)
  parts : ∀ x ∈ parts, x.writtenCodes ≠ [] → ∀ onTime late : Script, late.IsPlaceholder →
    P (.guarded (x.writtenActs now) onTime late)
  keys : ∀ k ∈ keys, P (.direct ((k.writing now).keyActs ()))

theorem Runs.every {parts keys : List Value} (h : Runs now K V parts keys) :
    Every now (Instr.CodeIs K V) parts keys :=
  ⟨fun _ _ _ _ => trivial, fun x hx hcode _ => h.parts x hx hcode, h.keys⟩

variable {P : Instr → Prop}

theorem Every.single {v : Value} {keys : List Value} (h : Every now P v.parts keys)
    {code : Code Value} (hcode : v.writtenCodes = [code]) {onTime late : Script}
    (hlate : late.IsPlaceholder) : P (.guarded (codeActs now code) onTime late) := by
  rw [← writtenActs_of_single hcode]
  exact h.parts v (self_mem_parts v) (by simp [hcode]) onTime late hlate

theorem Every.mono {parts keys parts' keys' : List Value} (h : Every now P parts keys)
    (hp : parts' ⊆ parts) (hk : keys' ⊆ keys) : Every now P parts' keys' :=
  ⟨fun x hx => h.json x (hp hx), fun x hx => h.parts x (hp hx), fun k hk' => h.keys k (hk hk')⟩

theorem Every.left {a b c d : List Value} (h : Every now P (a ++ b) (c ++ d)) : Every now P a c :=
  h.mono (List.subset_append_left ..) (List.subset_append_left ..)

theorem Every.right {a b c d : List Value} (h : Every now P (a ++ b) (c ++ d)) : Every now P b d :=
  h.mono (List.subset_append_right ..) (List.subset_append_right ..)

theorem every_of_mem_writings {vs : List Value} (h : ∀ v ∈ vs, (v.writing now).Every P) :
    ∀ w ∈ (writings now vs).map Prod.snd, w.Every P := by
  rw [writings_eq]
  simpa using h

theorem every_items {ws : List Writing} (h : ∀ w ∈ ws, w.Every P) : Script.Every P (items ws) := by
  rw [items, every_flatMap]
  exact fun w hw => (h w hw).item

theorem every_members [Instr.Common P] {ms : List (String × Writing)}
    (h : ∀ e ∈ ms, e.2.Every P) :
    Script.Every P (members ms) := by
  rw [members, every_flatMap]
  exact fun e he => (h e he).member _ (every_key e.1)

theorem every_tokens [Instr.Common P] (vs : List Value) (h : ∀ v ∈ vs, (v.writing now).Every P)
    (hk : ∀ k ∈ Run.tokenKeys vs, P (.direct ((k.writing now).keyActs ()))) :
    Script.Every P (tokens (writings now vs)) := by
  match vs with
  | [] => exact trivial
  | [k] =>
    have hacts := hk k (by simp [Run.tokenKeys])
    simp only [writings, tokens]
    cases k.marker? with
    | some _ => exact trivial
    | none => exact ⟨hacts, Writing.every_null.member _ (every_key _)⟩
  | k :: v :: rest =>
    have hacts := hk k (by simp [Run.tokenKeys])
    have hv := h v (by simp)
    have hrest := every_tokens rest (fun u hu => h u (by simp [hu]))
      fun u hu => hk u (by simp [Run.tokenKeys, hu])
    simp only [writings, tokens]
    refine every_append.2 ⟨?_, hrest⟩
    cases k.marker? with
    | none => exact ⟨hacts, hv.member _ (every_key _)⟩
    | some marker =>
      cases marker with
      | skip => exact trivial
      | inline => exact hv.splice

mutual

/-- What holds of the code of its parts and of its keys, holds of all that writing a value asks for. -/
theorem writing_every [Instr.Common P] (v : Value) (h : Every now P v.parts v.keys) :
    (v.writing now).Every P := by
  cases v with
  | null => exact Writing.every_null
  | str s => exact Writing.every_plain (every_quote s) []
  | bytes bs => exact Writing.every_plain (every_quoteBytes bs) []
  | int n => exact Writing.every_plain (every_chunk (Text.whole_intText n.val)) []
  | single bits => exact Writing.every_plain (every_chunk (Text.whole_binary (.inl rfl) _)) []
  | double bits => exact Writing.every_plain (every_chunk (Text.whole_binary (.inr rfl) _)) []
  | bool b => exact Writing.every_plain (every_chunk (Text.whole_boolText b)) []
  | strs texts =>
    exact Writing.every_plain (every_bracketed (every_flatMap.2 fun t _ => every_quote t)) []
  | list vs =>
    have hall := writings_every vs
      (h.mono (List.subset_cons_self ..) (List.subset_append_right ..))
    have htokens := every_tokens vs hall fun k hk => h.keys k (List.mem_append_left _ hk)
    have hitems := every_items (every_of_mem_writings hall)
    exact Writing.every_paired (every_bracketed hitems) htokens _
  | map p =>
    obtain ⟨stamp, entries⟩ := p
    have hall := memberWritings_every entries (h.mono (List.subset_cons_self ..) (List.Subset.refl _))
    have hmembers := every_members hall
    cases entries with
    | nil => exact ⟨trivial, fun _ _ => trivial, trivial⟩
    | cons e rest => exact Writing.every_paired (every_braced hmembers) hmembers _
  | raw vs =>
    have hall := writings_every vs
      (h.mono (List.subset_cons_self ..) (List.subset_append_right ..))
    have htokens := every_tokens vs hall fun k hk => h.keys k (List.mem_append_left _ hk)
    exact Writing.every_paired (every_braced htokens) htokens _
  | object ms =>
    have hall := memberWritings_every ms (h.mono (List.subset_cons_self ..) (List.Subset.refl _))
    have hsorted : ∀ e ∈ byKey (memberWritings now ms), e.2.Every P :=
      fun e he => hall e (List.mem_mergeSort.1 he)
    exact Writing.every_plain (every_braced (every_members hsorted)) _
  | error code s =>
    exact Writing.every_plain
      (every_guarded (h.single rfl (.inl rfl)) (every_quote s) (every_quote lateText)) _
  | display code s =>
    exact Writing.every_plain
      (every_guarded (h.single rfl (.inl rfl)) (every_quote s) (every_quote lateText)) _
  | marshal code result thing =>
    cases result with
    | ok json =>
      have hjson : Script.Every P [.chunk json] := ⟨h.json _ (self_mem_parts _) json rfl, trivial⟩
      exact Writing.every_plain
        (every_guarded (h.single rfl (.inl rfl)) hjson (every_quote lateText)) _
    | error e =>
      have hacts : (marshal code (.error e) thing).writtenActs now =
          codeActs now code ++ showingActs now thing := by
        simp [writtenActs, writtenCodes, showingActs_eq]
      have hcode := fun s => h.parts _ (self_mem_parts _) (by simp [writtenCodes]) s _ (.inl rfl)
      rw [hacts] at hcode
      exact Writing.every_plain (every_guarded (hcode _) (every_quote _) (every_quote lateText)) _
  | lazy code v =>
    have hv := writing_every v (h.mono (fun _ => mem_parts_lazy) (List.Subset.refl _))
    exact Writing.every_deferred (fun _ _ hlate => h.single rfl hlate) hv _
  | marker marker => exact Writing.every_null
termination_by structural v

theorem writings_every [Instr.Common P] (vs : List Value)
    (h : Every now P (partsOf vs) (keysOf vs)) :
    ∀ v ∈ vs, (v.writing now).Every P := by
  cases vs with
  | nil => simp
  | cons v rest =>
    have hv := writing_every v h.left
    have hrest := writings_every rest h.right
    intro u hu
    rcases List.mem_cons.1 hu with rfl | hu
    · exact hv
    · exact hrest u hu
termination_by structural vs

theorem memberWritings_every [Instr.Common P] (ms : List (String × Value))
    (h : Every now P (memberParts ms) (memberKeys ms)) :
    ∀ e ∈ memberWritings now ms, e.2.Every P := by
  cases ms with
  | nil => simp [memberWritings]
  | cons e rest =>
    obtain ⟨label, v⟩ := e
    have hv := writing_every v h.left
    have hrest := memberWritings_every rest h.right
    intro u hu
    rcases List.mem_cons.1 hu with rfl | hu
    · exact hv
    · exact hrest u hu
termination_by structural ms

end

/-- Writing a value runs the code its parts bring along, and that of its keys for their texts. -/
theorem writing_runs (v : Value) (h : Runs now K V v.parts v.keys) : (v.writing now).Runs K V :=
  Writing.runs_of_every (writing_every v h.every)

end Value

end Logline
