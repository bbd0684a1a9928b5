import Logline.Proofs.Line.Appended

/-!
Pairs that are spliced in. Tokens with pairs spliced into them, to any depth, can be written flat: the
pairs in the place of the splice, and nothing of what is skipped (`Value.flatTokens`). A line makes of
both the same, byte for byte and piece for piece, whatever it was before (`tokens_flat`); they differ
at most in which code is asked. So to splice in a value is to write its pairs (`splice_is_tokens`).
-/

namespace Logline

open Script Text

/-! ### Lines that differ in which code is asked -/

/-- The events besides that code of callers is asked. -/
def unasked (events : List Event) : List Event := events.filter fun e => !e.isCalled

/-- The line, and what happens besides that code of callers is asked. -/
def Draft.quiet (d : Draft) : Draft := d.seen unasked

theorem keepsOwn_unasked : Draft.KeepsOwn unasked := by
  intro e earlier he
  simp [unasked, he]

theorem quiet_add_called {e : Event} (h : e.isCalled) (t : Trail) :
    (t.add e).seen unasked = t.seen unasked := by
  unfold Trail.add
  split
  · simp [Trail.seen, Trail.push, unasked, h]
  · rfl

theorem quiet_foldl_add {events : List Event} (h : ∀ e ∈ events, e.isCalled) (t : Trail) :
    (events.foldl Trail.add t).seen unasked = t.seen unasked := by
  induction events generalizing t with
  | nil => rfl
  | cons e rest ih =>
    have hrest := ih (fun e' he' => h e' (List.mem_cons_of_mem e he')) (t.add e)
    exact hrest.trans (quiet_add_called (h e (List.mem_cons_self ..)) t)

/-- Silent code does nothing but to be asked. -/
theorem quiet_runActs {acts : List Act} (h : Acts.Tame .silent acts) (thread : Thread) (t : Trail) :
    (runActs acts thread t).seen unasked = t.seen unasked := by
  induction acts generalizing t with
  | nil => rfl
  | cons a rest ih =>
    rw [runActs]
    split
    · cases a with
      | called label => exact (ih h.2 _).trans (quiet_add_called rfl t)
      | _ => simp [Acts.Tame, Act.Tame, Manner.silent] at h
    · rfl

namespace Draft

variable {d e : Draft}

theorem quiet_ran {acts : List Act} (h : Acts.Tame .silent acts) (d : Draft) :
    ({ d with trail := runActs acts d.caller d.trail } : Draft).quiet = d.quiet :=
  congrArg (fun t => { d with trail := t }) (quiet_runActs h d.caller d.trail)

theorem quiet_helped {acts : List Act} (h : Acts.Tame .silent acts) (d : Draft) :
    (d.helped (runHelper acts)).quiet = d.quiet := by
  have hlines : ∀ a ∈ acts, a.isLine = false := by
    intro a ha
    have htame := Acts.tame_iff.1 h a ha
    cases a with
    | line route body => simp [Act.Tame, Manner.silent] at htame
    | _ => rfl
  have htrail := quiet_foldl_add (runHelper_onlyCalls hlines).1 d.trail
  simp only [quiet, seen, helped, answered_of_tame h, if_true, htrail]

theorem quiet_write (h : d.quiet = e.quiet) (chunk : Text.Bytes) :
    (d.write chunk).quiet = (e.write chunk).quiet := by
  rw [quiet, quiet, ← write_seen keepsOwn_unasked, ← write_seen keepsOwn_unasked]
  exact congrArg (write · chunk) h

theorem quiet_reserve (h : d.quiet = e.quiet) (n : Nat) :
    (d.reserve n).quiet = (e.reserve n).quiet := by
  rw [quiet, quiet, ← reserve_seen keepsOwn_unasked, ← reserve_seen keepsOwn_unasked]
  exact congrArg (reserve · n) h

theorem owed_of_quiet (h : d.quiet = e.quiet) : d.owed = e.owed := congrArg (·.owed) h

theorem spoken_of_quiet (h : d.quiet = e.quiet) : d.spoken = e.spoken := by
  have hhanded : d.handed = e.handed := congrArg (·.handed) h
  have hgathered : d.gathered = e.gathered := congrArg (·.gathered) h
  simp only [spoken, delivered, scratch, hhanded, hgathered]

theorem goesOn_of_quiet (h : d.quiet = e.quiet) : d.trail.goesOn = e.trail.goesOn := by
  have hstop : d.trail.stop = e.trail.stop := congrArg (·.trail.stop) h
  simp only [Trail.goesOn, hstop]

end Draft

/-- Silent code answers in time, wherever it runs. -/
theorem Instr.run_guarded {acts : List Act} (ha : Acts.Tame .silent acts) (onTime late : Script)
    (d : Draft) : ∃ e : Draft, e.quiet = d.quiet ∧
      (Instr.guarded acts onTime late).run d = runScript onTime e := by
  by_cases hl : d.locked
  · refine ⟨d.helped (runHelper acts), Draft.quiet_helped ha d, ?_⟩
    rw [Instr.run, if_pos hl, if_pos (answered_of_tame ha)]
  · refine ⟨{ d with trail := runActs acts d.caller d.trail }, Draft.quiet_ran ha d, ?_⟩
    rw [Instr.run, if_neg hl]

mutual

theorem Instr.run_quiet (i : Instr) {d e : Draft} (hi : i.Tame .silent) (h : d.quiet = e.quiet) :
    (i.run d).quiet = (i.run e).quiet := by
  cases i with
  | chunk bytes => exact Draft.quiet_write h bytes
  | reserve n => exact Draft.quiet_reserve h n
  | separate mark =>
    simp only [Instr.run, Draft.owed_of_quiet h]
    split
    · exact Draft.quiet_write h mark
    · exact h
  | owe owed => exact congrArg (fun d : Draft => { d with owed }) h
  | block body => exact runScript_quiet body hi h
  | later made => exact Instr.run_quiet (made ()) hi h
  | direct acts => exact (Draft.quiet_ran hi d).trans (h.trans (Draft.quiet_ran hi e).symm)
  | guarded acts onTime tooLate =>
    obtain ⟨ha, honTime, -⟩ := hi
    obtain ⟨d', hd, hrun⟩ := Instr.run_guarded ha onTime tooLate d
    obtain ⟨e', he, hrun'⟩ := Instr.run_guarded ha onTime tooLate e
    rw [hrun, hrun']
    exact runScript_quiet onTime honTime (hd.trans (h.trans he.symm))
termination_by structural i

/-- Which code was asked makes no difference to what silent code goes on to write. -/
theorem runScript_quiet (s : List Instr) {d e : Draft} (hs : Script.Tame .silent s)
    (h : d.quiet = e.quiet) : (runScript s d).quiet = (runScript s e).quiet := by
  cases s with
  | nil => exact h
  | cons i rest =>
    simp only [runScript, Draft.goesOn_of_quiet h]
    split
    · exact runScript_quiet rest hs.2 (Instr.run_quiet i hs.1 h)
    · exact h
termination_by structural s

end

/-! ### Scripts that make the same of a line -/

/-- Of any line both make the same, but for which code they ask. -/
def Script.SameLine (s t : Script) : Prop :=
  ∀ d e : Draft, d.quiet = e.quiet → (runScript s d).quiet = (runScript t e).quiet

namespace Script.SameLine

variable {a b s t u : Script} {acts : List Act}

theorem refl (h : Script.Tame .silent s) : SameLine s s := fun _ _ => runScript_quiet s h

theorem trans (h : SameLine s t) (h' : SameLine t u) : SameLine s u :=
  fun d e hde => (h d e hde).trans (h' e e rfl)

theorem append (h : SameLine a b) (h' : SameLine s t) : SameLine (a ++ s) (b ++ t) := by
  intro d e hde
  rw [runScript_append, runScript_append]
  exact h' _ _ (h d e hde)

/-- A script that was stopped stays where it is. -/
theorem of_going (h : ∀ d e : Draft, d.trail.goesOn → e.trail.goesOn → d.quiet = e.quiet →
    (runScript s d).quiet = (runScript t e).quiet) : SameLine s t := by
  intro d e hde
  have hsame := Draft.goesOn_of_quiet hde
  by_cases hgo : d.trail.goesOn
  · exact h d e hgo (hsame ▸ hgo) hde
  · rwa [runScript_of_not_goesOn hgo, runScript_of_not_goesOn (hsame ▸ hgo)]

theorem later {made : Unit → Script} (h : SameLine (made ()) t) : SameLine [Script.later made] t := by
  refine of_going fun d e hd _ hde => ?_
  have hrun : runScript [Script.later made] d = runScript (made ()) d := by
    simp [runScript, Script.later, Instr.run, hd]
  rw [hrun]
  exact h d e hde

theorem direct (ha : Acts.Tame .silent acts) (h : SameLine s t) : SameLine s (.direct acts :: t) := by
  refine of_going fun d e _ he hde => ?_
  rw [runScript, if_pos he]
  exact h d _ (hde.trans (Draft.quiet_ran ha e).symm)

/-- Code that answers in time leaves nothing but what follows from it. -/
theorem guarded (ha : Acts.Tame .silent acts) (h : SameLine s t) (late : Script) :
    SameLine [.guarded acts s late] t := by
  refine of_going fun d e hd _ hde => ?_
  obtain ⟨d', hd', hrun⟩ := Instr.run_guarded ha s late d
  rw [runScript, if_pos hd, runScript, hrun]
  exact h d' e (hd'.trans hde)

end Script.SameLine

/-! ### Tokens written flat -/

namespace Value

/-- Alternating keys and values, each with what is spliced in of it, without markers. -/
def flattened : List (Value × List Value) → List Value
  | [] => []
  | [(k, _)] => if k.marker?.isSome then [] else [k, .null]
  | (k, _) :: (v, pairs) :: rest =>
    (match k.marker? with
      | some .skip => []
      | some .inline => pairs
      | none => [k, v]) ++ flattened rest

mutual

/-- The pairs that are spliced in of a value, or the one that tells that it has none. -/
def flatPairs : Value → List Value
  | .list vs => flattened (flats vs)
  | .raw vs => flattened (flats vs)
  | .map p => p.entries.flatMap fun e => [.str e.1, e.2]
  | .lazy _ v => v.flatPairs
  | v => [.str "cannot-inline", v]
termination_by structural v => v

def flats : List Value → List (Value × List Value)
  | [] => []
  | v :: rest => (v, v.flatPairs) :: flats rest
termination_by structural vs => vs

end

/-- Tokens with all pairs in the places where they are spliced in. -/
def flatTokens (vs : List Value) : List Value := flattened (flats vs)

/-- The pairs that are spliced in of the value are these tokens. -/
inductive HasPairs : Value → List Value → Prop
  | raw (tokens : List Value) : HasPairs (.raw tokens) tokens
  | list (tokens : List Value) : HasPairs (.list tokens) tokens
  | map (p : Pairs Value) : HasPairs (.map p) (p.entries.flatMap fun e => [.str e.1, e.2])
  | lazy (code : Code Value) {v : Value} {tokens : List Value} (h : HasPairs v tokens) :
      HasPairs (.lazy code v) tokens

variable {now : Clock → Moment} {v : Value} {vs ws : List Value}

/-! Tokens one after the other, as long as no key is parted from its value. -/

theorem flats_eq (vs : List Value) : flats vs = vs.map fun v => (v, v.flatPairs) := by
  induction vs with
  | nil => rfl
  | cons v rest ih => rw [flats, ih, List.map_cons]

theorem flattened_append {ms : List (Value × List Value)} (heven : ms.length % 2 = 0)
    (more : List (Value × List Value)) :
    flattened (ms ++ more) = flattened ms ++ flattened more := by
  fun_induction flattened ms with
  | case1 => rfl
  | case2 => simp at heven
  | case3 => simp at heven
  | case4 k kw v pairs rest ih =>
    have hrest : rest.length % 2 = 0 := by simp only [List.length_cons] at heven; omega
    rw [List.cons_append, List.cons_append, flattened, ih hrest, List.append_assoc]

theorem flatTokens_pair {k : Value} (hk : k.marker? = none) (rest : List Value) :
    flatTokens (k :: v :: rest) = [k, v] ++ flatTokens rest := by
  simp [flatTokens, flats, flattened, hk]

theorem flatTokens_inline (v : Value) (rest : List Value) :
    flatTokens (.marker .inline :: v :: rest) = v.flatPairs ++ flatTokens rest := rfl

theorem flatTokens_append (heven : vs.length % 2 = 0) (ws : List Value) :
    flatTokens (vs ++ ws) = flatTokens vs ++ flatTokens ws := by
  have hlength : (flats vs).length % 2 = 0 := by rwa [flats_eq, List.length_map]
  rw [flatTokens, flats_eq, List.map_append, ← flats_eq, ← flats_eq, flattened_append hlength]
  rfl

theorem tokens_append {ms : List (Value × Writing)} (heven : ms.length % 2 = 0)
    (more : List (Value × Writing)) : tokens (ms ++ more) = tokens ms ++ tokens more := by
  fun_induction tokens ms with
  | case1 => rfl
  | case2 k w => simp at heven
  | case3 k w => simp at heven
  | case4 k kw v vw rest ih =>
    have hrest : rest.length % 2 = 0 := by simp only [List.length_cons] at heven; omega
    rw [List.cons_append, List.cons_append, tokens, ih hrest, List.append_assoc]

theorem tokens_writings_append (heven : vs.length % 2 = 0) (ws : List Value) :
    tokens (writings now (vs ++ ws)) = tokens (writings now vs) ++ tokens (writings now ws) := by
  have hlength : (writings now vs).length % 2 = 0 := by rwa [writings_eq, List.length_map]
  rw [writings_eq, List.map_append, ← writings_eq, ← writings_eq, tokens_append hlength]

/-! What is flat: keys with their values, and no marker in the place of a key. -/

/-- Keys and values in pairs, without markers. -/
def Flat (vs : List Value) : Prop :=
  vs.length % 2 = 0 ∧ ∀ k ∈ Run.tokenKeys vs, k.marker? = none

theorem flat_nil : Flat [] := by simp [Flat, Run.tokenKeys]

theorem flat_pair {k : Value} (hk : k.marker? = none) (hvs : Flat vs) : Flat (k :: v :: vs) := by
  obtain ⟨heven, hkeys⟩ := hvs
  refine ⟨by simp only [List.length_cons]; omega, ?_⟩
  simpa [Run.tokenKeys, hk] using hkeys

theorem flat_append (hvs : Flat vs) (hws : Flat ws) : Flat (vs ++ ws) := by
  fun_induction Run.tokenKeys vs with
  | case1 => exact hws
  | case2 k => simp [Flat] at hvs
  | case3 k v rest ih =>
    obtain ⟨heven, hkeys⟩ := hvs
    simp only [Run.tokenKeys, List.forall_mem_cons] at hkeys
    have hrest : Flat rest := ⟨by simp only [List.length_cons] at heven; omega, hkeys.2⟩
    exact flat_pair hkeys.1 (ih hrest)

theorem flat_flattened {ms : List (Value × List Value)} (h : ∀ m ∈ ms, Flat m.2) :
    Flat (flattened ms) := by
  fun_induction flattened ms with
  | case1 => exact flat_nil
  | case2 => exact flat_nil
  | case3 k pairs hk => exact flat_pair (by simpa using hk) flat_nil
  | case4 k kw v pairs rest ih =>
    have hrest := ih fun m hm => h m (by simp [hm])
    cases hk : k.marker? with
    | none => exact flat_pair hk hrest
    | some m =>
      cases m with
      | skip => exact hrest
      | inline => exact flat_append (h (v, pairs) (by simp)) hrest

theorem flat_members (es : List (String × Value)) :
    Flat (es.flatMap fun e => [.str e.1, e.2]) := by
  induction es with
  | nil => exact flat_nil
  | cons e rest ih => exact flat_pair rfl ih

mutual

theorem flat_flatPairs (v : Value) : Flat v.flatPairs := by
  cases v with
  | list vs => exact flat_flattened (flat_flats vs)
  | raw vs => exact flat_flattened (flat_flats vs)
  | map p => exact flat_members p.entries
  | lazy code v => exact flat_flatPairs v
  | _ => exact flat_pair rfl flat_nil
termination_by structural v

theorem flat_flats (vs : List Value) : ∀ m ∈ flats vs, Flat m.2 := by
  cases vs with
  | nil => simp [flats]
  | cons v rest => exact List.forall_mem_cons.2 ⟨flat_flatPairs v, flat_flats rest⟩
termination_by structural vs

end

theorem flat_flatTokens (vs : List Value) : Flat (flatTokens vs) := flat_flattened (flat_flats vs)

/-- Nothing changes what is flat already. -/
theorem flatTokens_of_flat (h : Flat vs) : flatTokens vs = vs := by
  fun_induction Run.tokenKeys vs with
  | case1 => rfl
  | case2 k => simp [Flat] at h
  | case3 k v rest ih =>
    obtain ⟨heven, hkeys⟩ := h
    simp only [Run.tokenKeys, List.forall_mem_cons] at hkeys
    have hrest : Flat rest := ⟨by simp only [List.length_cons] at heven; omega, hkeys.2⟩
    rw [flatTokens_pair hkeys.1, ih hrest]
    rfl

/-! ### Written flat or spliced in -/

theorem member_silent (hv : ∀ x ∈ v.parts, x.Behaves now .silent) (label : String) :
    Script.Tame .silent ((v.writing now).member (key label)) :=
  Portion.tame_script (.member label v) hv

theorem splice_silent (hv : ∀ x ∈ v.parts, x.Behaves now .silent) :
    Script.Tame .silent (v.writing now).splice :=
  Portion.tame_script (.spliced v) hv

/-- A value without pairs is written under a key that tells so. -/
theorem splice_told (htold : (v.writing now).splice = (v.writing now).member (key "cannot-inline"))
    (hv : ∀ x ∈ v.parts, x.Behaves now .silent) :
    SameLine (v.writing now).splice (tokens (writings now [.str "cannot-inline", v])) := by
  have htokens : tokens (writings now [.str "cannot-inline", v]) =
      .direct [] :: (v.writing now).splice := by
    rw [htold]
    exact congrArg (List.cons _) (List.append_nil _)
  rw [htokens]
  exact .direct trivial (.refl (splice_silent hv))

theorem members_tokens {es : List (String × Value)}
    (hes : ∀ e ∈ es, ∀ x ∈ e.2.parts, x.Behaves now .silent) :
    SameLine (members (memberWritings now es))
      (tokens (writings now (es.flatMap fun e => [.str e.1, e.2]))) := by
  induction es with
  | nil => exact .refl trivial
  | cons e rest ih =>
    obtain ⟨he, hrest⟩ := List.forall_mem_cons.1 hes
    have hcode : Acts.Tame .silent [] := trivial
    exact .append (.direct hcode (.refl (member_silent he e.1))) (ih hrest)

mutual

/-- To splice in a value is to write its pairs. -/
theorem splice_flat (v : Value) (hv : ∀ x ∈ v.parts, x.Behaves now .silent) :
    SameLine (v.writing now).splice (tokens (writings now v.flatPairs)) := by
  cases v with
  | list vs => exact .later (tokens_flat vs fun x hx => hv x (List.mem_cons_of_mem _ hx))
  | raw vs => exact .later (tokens_flat vs fun x hx => hv x (List.mem_cons_of_mem _ hx))
  | map p =>
    obtain ⟨stamp, entries⟩ := p
    have hentries : ∀ e ∈ entries, ∀ x ∈ e.2.parts, x.Behaves now .silent := by
      intro e he x hx
      refine hv x (List.mem_cons_of_mem _ ?_)
      rw [entryParts_eq]
      exact List.mem_flatMap.2 ⟨e, he, hx⟩
    have hmembers := members_tokens hentries
    cases entries with
    | nil => exact hmembers
    | cons e rest => exact .later hmembers
  | lazy code v =>
    have hcode : Acts.Tame .silent (codeActs now code) :=
      hv _ (self_mem_parts _) code (by simp [codes, writtenCodes])
    exact .guarded hcode (.later (splice_flat v fun x hx => hv x (mem_parts_lazy hx))) _
  | marshal code result thing => cases result <;> exact splice_told rfl hv
  | _ => exact splice_told rfl hv
termination_by structural v

/-- **Tokens written flat.** Tokens with pairs spliced into them, to any depth, make the same of any
line as the pairs alone. -/
theorem tokens_flat (vs : List Value) (hvs : ∀ x ∈ partsOf vs, x.Behaves now .silent) :
    SameLine (tokens (writings now vs)) (tokens (writings now (flatTokens vs))) := by
  cases vs with
  | nil => exact .refl trivial
  | cons k vs =>
    cases vs with
    | nil =>
      have hlast := Portion.tame_script (.tokens [k]) hvs
      cases hk : k.marker? with
      | some m => simpa [flatTokens, flats, flattened, writings, tokens, hk] using .refl trivial
      | none =>
        have hflat : tokens (writings now (flatTokens [k])) = tokens (writings now [k]) := by
          simp [flatTokens, flats, flattened, writings, writing, tokens, hk]
        rw [hflat]
        exact .refl hlast
    | cons v rest =>
      have hv : ∀ x ∈ v.parts, x.Behaves now .silent := fun x hx => hvs x (by simp [partsOf, hx])
      have hrest := tokens_flat rest fun x hx => hvs x (by simp [partsOf, hx])
      cases hk : k.marker? with
      | none =>
        have hpair : Script.Tame .silent (tokens (writings now [k, v])) :=
          Portion.tame_script (.tokens [k, v]) fun x hx => hvs x (by
            simp only [Portion.parts, partsOf, List.append_nil, List.mem_append] at hx ⊢
            exact hx.imp id .inl)
        rw [flatTokens_pair hk, tokens_writings_append (by simp)]
        rw [show k :: v :: rest = [k, v] ++ rest from rfl, tokens_writings_append (by simp)]
        exact .append (.refl hpair) hrest
      | some m =>
        cases m with
        | skip => simpa [flatTokens, flats, flattened, writings, tokens, hk] using hrest
        | inline =>
          obtain rfl : k = .marker .inline := by
            cases k with
            | marker m => exact congrArg marker (Option.some.inj hk)
            | _ => simp [marker?] at hk
          rw [flatTokens_inline, tokens_writings_append (flat_flatPairs v).1]
          exact .append (splice_flat v hv) hrest
termination_by structural vs

end

/-! ### A value and the tokens it has -/

variable {x : Value} {a b : List Value}

theorem HasPairs.flatPairs_eq (h : HasPairs x b) : x.flatPairs = flatTokens b := by
  induction h with
  | raw tokens => rfl
  | list tokens => rfl
  | map p => exact (flatTokens_of_flat (flat_members p.entries)).symm
  | lazy code h ih => exact ih

/-- The tokens bring along nothing but what the value brings along. -/
theorem HasPairs.silent (h : HasPairs x b) (hx : ∀ y ∈ x.parts, y.Behaves now .silent) :
    ∀ y ∈ partsOf b, y.Behaves now .silent := by
  induction h with
  | raw tokens => exact fun y hy => hx y (List.mem_cons_of_mem _ hy)
  | list tokens => exact fun y hy => hx y (List.mem_cons_of_mem _ hy)
  | lazy code h ih => exact ih fun y hy => hx y (mem_parts_lazy hy)
  | map p =>
    intro y hy
    simp only [partsOf_eq, List.mem_flatMap, List.mem_cons, List.not_mem_nil, or_false] at hy
    obtain ⟨part, ⟨e, he, rfl | rfl⟩, hy⟩ := hy
    · obtain rfl : y = .str e.1 := by simpa [parts] using hy
      simp [Behaves, codes, writtenCodes, textCode?]
    · refine hx y (List.mem_cons_of_mem _ ?_)
      rw [entryParts_eq]
      exact List.mem_flatMap.2 ⟨e, he, hy⟩

end Value

open Value

/-- **A splice is its pairs.** Tokens with a value spliced in between them, as raw tokens, as a list,
as a map or as a result that is deferred any number of times, make the same of a line as the tokens
with its pairs in that place: the same bytes handed on in the same pieces, with the same separator
owed afterwards, whatever was written before and whatever markers there are further in. Both are what
the same pairs without any marker come to, so no separator depends on where pairs are spliced in or
whether there are any. -/
theorem splice_is_tokens (now : Clock → Moment) (a b c : List Value) (x : Value)
    (ha : a.length % 2 = 0) (hb : b.length % 2 = 0) (hx : x.HasPairs b)
    (hcode : ∀ y ∈ partsOf (a ++ [.marker .inline, x] ++ c), y.Behaves now .silent) (d : Draft) :
    let pairs := flatTokens (a ++ b ++ c)
    let spliced := runScript (tokens (writings now (a ++ [.marker .inline, x] ++ c))) d
    let written := runScript (tokens (writings now (a ++ b ++ c))) d
    let flat := runScript (tokens (writings now pairs)) d
    (∀ k ∈ Run.tokenKeys pairs, k.marker? = none) ∧
      spliced.quiet = written.quiet ∧ written.quiet = flat.quiet ∧
      spliced.spoken = written.spoken ∧ spliced.owed = written.owed ∧
      (d.Going → spliced.Going ∧ written.Going ∧
        ∃ added, spliced.spoken = d.spoken ++ added ∧ written.spoken = d.spoken ++ added) := by
  intro pairs spliced written flat
  have hsilent : ∀ y ∈ partsOf (a ++ b ++ c), y.Behaves now .silent := by
    simp only [partsOf_eq, List.flatMap_append, List.mem_append] at hcode ⊢
    rintro y ((hy | hy) | hy)
    · exact hcode y (.inl (.inl hy))
    · refine hx.silent (fun z hz => hcode z (.inl (.inr ?_))) y (partsOf_eq b ▸ hy)
      exact List.mem_flatMap.2 ⟨x, by simp, hz⟩
    · exact hcode y (.inr hy)
  have hpairs : flatTokens (a ++ [.marker .inline, x] ++ c) = pairs := by
    simp only [pairs, List.append_assoc]
    rw [flatTokens_append ha, flatTokens_append ha, flatTokens_append hb, ← hx.flatPairs_eq]
    rfl
  have hspliced : spliced.quiet = flat.quiet := by
    simpa only [hpairs] using tokens_flat _ hcode d d rfl
  have hwritten : written.quiet = flat.quiet := tokens_flat _ hsilent d d rfl
  have hsame : spliced.quiet = written.quiet := hspliced.trans hwritten.symm
  have hspoken : spliced.spoken = written.spoken := Draft.spoken_of_quiet hsame
  refine ⟨(flat_flatTokens _).2, hsame, hwritten, hspoken, Draft.owed_of_quiet hsame, fun hd => ?_⟩
  obtain ⟨hgoing, hadded, -⟩ := going_runScript (Portion.tame_script (.tokens _) hcode) hd
  obtain ⟨hgoing', -, -⟩ := going_runScript (Portion.tame_script (.tokens _) hsilent) hd
  exact ⟨hgoing, hgoing', _, hadded, hspoken.symm.trans hadded⟩

/-- A list that is deferred twice, between two other pairs. Its first part is an empty map, its second
part is skipped, its third one has a pair after one that is skipped again. -/
theorem spliced_between_pairs :
    let noon : Clock → Moment := fun _ => ⟨2026, 1, 1, 12, 0, 0, 0⟩
    let code : Code Value := ⟨1, [], none⟩
    let b : List Value := [.marker .inline, .map .empty, .marker .skip, .str "x",
      .marker .inline, .raw [.marker .skip, .null, .display code "n", .int (.ofNat 7)]]
    let tokens (middle : List Value) : Script :=
      Script.tokens (writings noon ([.str "a", .null] ++ middle ++ [.str "e", .bool true]))
    let d : Draft := .start ⟨0, false, false⟩ ⟨.stdout, false, .warn⟩ .empty
    let spliced := runScript (tokens [.marker .inline, .lazy code (.lazy code (.list b))]) d
    let written := runScript (tokens b) d
    spliced.spoken = bytes "\"a\":null,\"n\":7,\"e\":true" ∧ spliced.spoken = written.spoken := by
  intro noon code b tokens d spliced written
  let vs : List Value := [.str "a", .null] ++ [.marker .inline, .lazy code (.lazy code (.list b))] ++
    [.str "e", .bool true]
  have hprompt : ∀ y ∈ partsOf vs, ∀ c ∈ y.codes, c.IsPrompt := by
    simp [vs, b, code, partsOf, parts, entryParts, memberParts, Pairs.empty, codes, writtenCodes,
      textCode?, Code.IsPrompt]
  have htame : Value.Tame noon .silent (partsOf vs) [] := tame_of_prompt hprompt (by simp) .silent
  obtain ⟨-, -, -, hsame, -, -⟩ := splice_is_tokens noon [.str "a", .null] b [.str "e", .bool true]
    (.lazy code (.lazy code (.list b))) (by decide) (by decide) (.lazy code (.lazy code (.list b)))
    htame.parts d
  exact ⟨hsame.trans (by decide +kernel), hsame⟩

end Logline
