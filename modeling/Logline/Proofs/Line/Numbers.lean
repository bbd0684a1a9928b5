import Logline.Proofs.Decimal.Sizes
import Logline.Proofs.Line.Endings

/-!
Numbers in a line. A number asks for room before it is written, and takes no more than it asked for
(`Value.length_numeral_le`). So the parts in which its text may come gather one behind the other
(`Draft.gathered_parts`), whatever the line was before. What has gathered is never parted: it stays where
it is, or it is the beginning of a piece that is handed on (`Composes.together`). So a number is in one
piece (`numbers_stay_whole`).
-/

namespace Logline

open Text Script

namespace Draft

variable {d e f : Draft}

/-! ### What has gathered stays together -/

/-- From `d` to `e` nothing that had gathered is parted: more has gathered behind it, or it is the
beginning of a piece that was handed on. -/
inductive Together (d e : Draft) : Prop
  | gathered (tail : Bytes) (hscratch : e.scratch = d.scratch ++ tail) (hhanded : e.handed = d.handed)
  | handed (tail : Bytes) (more : List Bytes)
      (hhanded : e.handed = more ++ (d.scratch ++ tail) :: d.handed)

namespace Together

theorem of_eq (hgathered : e.gathered = d.gathered) (hhanded : e.handed = d.handed) : d.Together e :=
  .gathered [] (by simp [scratch, hgathered]) hhanded

theorem trans (h : d.Together e) (h' : e.Together f) : d.Together f := by
  cases h with
  | gathered tail hscratch hhanded =>
    cases h' with
    | gathered tail' hscratch' hhanded' =>
      exact .gathered (tail ++ tail') (by rw [hscratch', hscratch, List.append_assoc])
        (hhanded'.trans hhanded)
    | handed tail' more hmore =>
      exact .handed (tail ++ tail') more (by rw [hmore, hscratch, hhanded, List.append_assoc])
  | handed tail more hmore =>
    obtain ⟨later, hlater⟩ : ∃ later, f.handed = later ++ e.handed := by
      cases h' with
      | gathered _ _ hhanded => exact ⟨[], hhanded⟩
      | handed tail' later hhanded => exact ⟨later ++ [e.scratch ++ tail'], by simp [hhanded]⟩
    exact .handed tail (later ++ more) (by rw [hlater, hmore, List.append_assoc])

theorem handOn (h : d.scratch = []) (bytes : Bytes) : d.Together (d.handOn bytes) := by
  by_cases hgo : d.trail.goesOn
  · rw [handOn_of_goesOn hgo]
    exact .handed bytes [] (by simp [h])
  · rw [handOn_of_not_goesOn hgo]
    exact .of_eq rfl rfl

theorem flush (hgo : d.trail.goesOn) : d.Together d.flush := by
  rcases flush_cases hgo with hstay | ⟨hhanded, -⟩
  · rw [hstay]
    exact .of_eq rfl rfl
  · exact .handed [] [] (by simp [hhanded])

/-- An event and the state of the lock leave alone what has gathered. -/
theorem flush_after (hgo : d.trail.goesOn) (locked : Bool) (e : Event) :
    d.Together ({ d with locked, trail := d.trail.add e } : Draft).flush :=
  (of_eq rfl rfl : d.Together { d with locked, trail := d.trail.add e }).trans
    (flush (by simpa using hgo))

theorem lock (hgo : d.trail.goesOn) : d.Together d.lock := by
  unfold Draft.lock
  split
  · exact flush hgo
  split
  · exact .of_eq rfl rfl
  · exact flush_after hgo true .locked

theorem write (hc : d.Counted) (hgo : d.trail.goesOn) (chunk : Bytes) :
    d.Together (d.write chunk) := by
  by_cases hbig : scratchSize < chunk.length
  · rw [write_of_long hbig]
    by_cases hlock : d.lock.trail.goesOn
    · exact (lock hgo).trans (handOn (scratch_lock hc hlock) chunk)
    · rw [handOn_of_not_goesOn hlock]
      exact lock hgo
  · have hgather : ∀ e : Draft, e.Together
        { e with gathered := chunk :: e.gathered, used := e.used + chunk.length } := fun e =>
      .gathered chunk (by simp [scratch]) rfl
    unfold Draft.write
    simp only [hbig, if_false]
    split
    · exact (lock hgo).trans (hgather d.lock)
    · exact hgather d

theorem reserve (hgo : d.trail.goesOn) (n : Nat) : d.Together (d.reserve n) := by
  unfold Draft.reserve
  split
  · exact lock hgo
  · exact .of_eq rfl rfl

theorem complete (hgo : d.trail.goesOn) : d.Together d.complete := by
  unfold Draft.complete
  split
  · exact flush hgo
  split
  · exact .of_eq rfl rfl
  · exact flush_after hgo d.locked .shared

theorem closed (d : Draft) : d.Together d.closed := by
  unfold Draft.closed
  split
  · next hgo => exact complete hgo
  · exact .of_eq rfl rfl

end Together

theorem Counted.write (h : d.Counted) (chunk : Bytes) : (d.write chunk).Counted := by
  have hlock := (adds_lock d).counted h
  by_cases hbig : scratchSize < chunk.length
  · rw [write_of_long hbig]
    by_cases hgo : d.lock.trail.goesOn
    · rwa [handOn_of_goesOn hgo]
    · rwa [handOn_of_not_goesOn hgo]
  · unfold Draft.write
    simp only [hbig, if_false]
    split
    · exact (adds_gather d.lock chunk).counted hlock
    · exact (adds_gather d chunk).counted h

end Draft

/-- A step of a line counts what has gathered, and parts none of it. -/
theorem Instr.advance_together {d : Draft} (hc : d.Counted) (hgo : d.trail.goesOn) (i : Instr)
    (rest : Script) : (i.advance rest d).2.Counted ∧ d.Together (i.advance rest d).2 := by
  cases i with
  | chunk bytes => exact ⟨hc.write bytes, .write hc hgo bytes⟩
  | reserve n => exact ⟨(Draft.adds_reserve d n).counted hc, .reserve hgo n⟩
  | separate mark =>
    simp only [advance, run]
    split
    · exact ⟨hc.write mark, .write hc hgo mark⟩
    · exact ⟨hc, .of_eq rfl rfl⟩
  | guarded acts onTime tooLate =>
    simp only [advance]
    split
    · exact ⟨hc, .of_eq rfl rfl⟩
    · exact ⟨hc, .of_eq rfl rfl⟩
  | _ => exact ⟨hc, .of_eq rfl rfl⟩

/-- Wherever a line comes to, what had gathered is still together. -/
theorem Composes.together {s rest : Script} {d e : Draft} (h : Composes s d rest e)
    (hc : d.Counted) : e.Counted ∧ d.Together e := by
  induction h with
  | refl => exact ⟨hc, .of_eq rfl rfl⟩
  | step _ hgo ih =>
    obtain ⟨hcounted, htogether⟩ := ih
    obtain ⟨hnext, hstep⟩ := Instr.advance_together hcounted hgo _ _
    exact ⟨hnext, htogether.trans hstep⟩

namespace Draft

variable {d e : Draft}

/-! ### Parts of a number -/

/-- Of a line the bytes that come after `before` are in one piece: one that was handed on, or what is
still in the scratch space. -/
def InOnePiece (d : Draft) (before bytes : Bytes) : Prop :=
  ∃ earlier first last later,
    d.handed.reverse ++ [d.scratch] = earlier ++ (first ++ bytes ++ last) :: later ∧
      earlier.flatten ++ first = before

/-- What had gathered last stays in one piece. -/
theorem Together.inOnePiece (h : d.Together e) {first bytes : Bytes}
    (hscratch : d.scratch = first ++ bytes) : e.InOnePiece (d.delivered ++ first) bytes := by
  cases h with
  | gathered tail htail hhanded =>
    exact ⟨d.handed.reverse, first, tail, [], by rw [htail, hhanded, hscratch], rfl⟩
  | handed tail more hhanded =>
    exact ⟨d.handed.reverse, first, tail, more.reverse ++ [e.scratch], by simp [hhanded, hscratch], rfl⟩

theorem used_reserve (hc : d.Counted) {n : Nat} (hn : n ≤ scratchSize)
    (hgo : (d.reserve n).trail.goesOn) : (d.reserve n).used + n ≤ scratchSize := by
  unfold reserve at hgo ⊢
  split
  · next hfull =>
    rw [if_pos hfull] at hgo
    have hcount : d.lock.used = d.lock.scratch.length := (adds_lock d).counted hc
    rw [hcount, scratch_lock hc hgo]
    simpa using hn
  · next hfits => exact Nat.le_of_not_lt hfits

/-- Room that was asked for last is there. -/
theorem room_of_reserve {s : Script} (hc : d.Counted) {n : Nat} (hn : n ≤ scratchSize)
    (hgo : (runScript (s ++ [.reserve n]) d).trail.goesOn) :
    (runScript (s ++ [.reserve n]) d).used + n ≤ scratchSize := by
  obtain ⟨_, hsteps, -⟩ := runScript_composes s [] d
  rw [runScript_append] at hgo ⊢
  have hrun : runScript [.reserve n] (runScript s d) = (runScript s d).reserve n := by
    rw [runScript, if_pos (goesOn_of_runScript hgo)]
    rfl
  rw [hrun] at hgo ⊢
  exact used_reserve (hsteps.together hc).1 hn hgo

theorem write_of_fits {chunk : Bytes} (h : d.used + chunk.length ≤ scratchSize) :
    d.write chunk =
      { d with gathered := chunk :: d.gathered, used := d.used + chunk.length } := by
  have hfits : ¬ scratchSize < d.used + chunk.length := Nat.not_lt.2 h
  have hsmall : ¬ scratchSize < chunk.length := by omega
  simp [write, hfits, hsmall]

/-- Parts for which there is room gather, and nothing is handed on meanwhile. -/
theorem gathered_parts {parts : List Bytes} (hgo : d.trail.goesOn)
    (hroom : d.used + parts.flatten.length ≤ scratchSize) :
    (runScript (parts.map .chunk) d).handed = d.handed ∧
      (runScript (parts.map .chunk) d).scratch = d.scratch ++ parts.flatten := by
  induction parts generalizing d with
  | nil => exact ⟨rfl, (List.append_nil _).symm⟩
  | cons part rest ih =>
    have hfits : d.used + part.length ≤ scratchSize := by
      simp only [List.flatten_cons, List.length_append] at hroom
      omega
    have hwrite := write_of_fits hfits
    have hstep : runScript ((part :: rest).map .chunk) d =
        runScript (rest.map .chunk) (d.write part) := by
      rw [List.map_cons, runScript, if_pos hgo]
      rfl
    have hrest : (d.write part).used + rest.flatten.length ≤ scratchSize := by
      rw [hwrite]
      simpa [Nat.add_assoc] using hroom
    obtain ⟨hhanded, hscratch⟩ := ih (d := d.write part) (by rwa [hwrite]) hrest
    rw [hstep, hhanded, hscratch, hwrite]
    exact ⟨rfl, by simp [scratch]⟩

/-- After a separator that was owed, the parts of an item that takes no more room than it asks for
have gathered last. -/
theorem framed_parts {parts : List Bytes} (hlength : parts.flatten.length ≤ 64) (hc : d.Counted)
    (hgo : (runScript (framed (parts.map .chunk)) d).trail.goesOn) :
    let e := runScript (framed (parts.map .chunk)) d
    ∃ first, e.scratch = first ++ parts.flatten ∧
      e.delivered ++ first = d.spoken ++ if d.owed then bytes ", " else [] := by
  let ahead : Script := [itemMark, .owe false]
  let body : Script := [.block (parts.map .chunk), .owe true]
  have hparts : framed (parts.map .chunk) = (ahead ++ [.reserve 64]) ++ body := rfl
  rw [hparts, runScript_append] at hgo ⊢
  set r := runScript (ahead ++ [.reserve 64]) d with hr
  have hrgo : r.trail.goesOn := goesOn_of_runScript hgo
  have htame : Script.Tame .silent (ahead ++ [.reserve 64]) := ⟨trivial, trivial, trivial, trivial⟩
  obtain ⟨hspoken, -⟩ := spoken_runScript htame hc hrgo
  have hroom : r.used + 64 ≤ scratchSize := room_of_reserve hc (by decide) hrgo
  have hfits : r.used + parts.flatten.length ≤ scratchSize := by omega
  obtain ⟨hhanded, hscratch⟩ := gathered_parts hrgo hfits
  have hblock : runScript body r = runScript [.owe true] (runScript (parts.map .chunk) r) := by
    rw [runScript, if_pos hrgo]
    rfl
  rw [hblock] at hgo ⊢
  have howe : runScript [.owe true] (runScript (parts.map .chunk) r) =
      { runScript (parts.map .chunk) r with owed := true } := if_pos (goesOn_of_runScript hgo)
  rw [howe]
  refine ⟨r.scratch, hscratch, ?_⟩
  have hdelivered : (runScript (parts.map .chunk) r).delivered = r.delivered := by
    rw [delivered, hhanded, delivered]
  calc (runScript (parts.map .chunk) r).delivered ++ r.scratch = r.spoken := by
        rw [hdelivered, spoken]
    _ = d.spoken ++ (Script.wording (ahead ++ [.reserve 64]) d.owed).1 := hspoken
    _ = d.spoken ++ if d.owed then bytes ", " else [] := by
        simp [ahead, itemMark, Script.wording, Instr.wording]

theorem Hands.closed (h : d.Hands) : d.closed.Hands := by
  unfold Draft.closed
  split
  · exact h.complete
  · exact h

theorem scratch_closed (hc : d.Counted) (hgo : d.closed.trail.goesOn) : d.closed.scratch = [] := by
  unfold Draft.closed at hgo ⊢
  split
  · next hopen =>
    rw [if_pos hopen] at hgo
    exact scratch_complete hc hgo
  · next hstopped =>
    rw [if_neg hstopped] at hgo
    exact absurd hgo hstopped

end Draft

namespace Script

theorem tame_parts (m : Manner) (parts : List Bytes) : Script.Tame m (framed (parts.map .chunk)) := by
  have hchunks : Script.Tame m (parts.map .chunk) := by
    induction parts with
    | nil => trivial
    | cons part rest ih => exact ⟨trivial, ih⟩
  exact ⟨trivial, trivial, trivial, hchunks, trivial, trivial⟩

theorem runs_parts {K : List Act → Prop} {V : List Act → Script → Prop} (parts : List Bytes) :
    Script.Runs K V (framed (parts.map .chunk)) := by
  have hchunks : Script.Runs K V (parts.map .chunk) := by
    induction parts with
    | nil => trivial
    | cons part rest ih => exact ⟨trivial, ih⟩
  exact ⟨trivial, trivial, trivial, hchunks, trivial, trivial⟩

end Script

section Ends

variable {script rest : Script} {thread : Thread} {route : Route} {t : Trail} {d : Draft}
  {parts : List Bytes}

/-- An item in parts does not stop a line whose thread may take the lock. -/
theorem Composes.goesOn_parts
    (h : Composes script (.start thread route t) (framed (parts.map .chunk) ++ rest) d)
    (hgo : d.trail.goesOn) (hfree : d.thread.holdsLock = false) :
    (runScript (framed (parts.map .chunk)) d).trail.goesOn := by
  have hcounted := (h.together (Draft.counted_start thread route t)).1
  have hgoing : d.Going := ⟨hgo, hfree, hcounted, h.unhanded fun _ => rfl⟩
  exact (going_runScript (Script.tame_parts .silent parts) hgoing).1.goesOn

/-- Where an item in parts stops a line, the line has not got the lock, and nothing of it was handed on. -/
theorem Composes.handed_of_stopped
    (h : Composes script (.start thread route t) (framed (parts.map .chunk) ++ rest) d)
    (hgo : d.trail.goesOn) (hstop : ¬ (runScript (framed (parts.map .chunk)) d).trail.goesOn) :
    (runScript script (.start thread route t)).closed.handed = [] := by
  obtain ⟨_, hitem, -⟩ := runScript_composes (framed (parts.map .chunk)) [] d
  have hquiet : Script.Runs (fun acts => ∀ a ∈ acts, a.isQuiet) (fun _ _ => True)
      (framed (parts.map .chunk) ++ []) := by
    rw [List.append_nil]
    exact Script.runs_parts parts
  have hlocked := hitem.goesOn_of_locked hquiet fun _ => hgo
  rw [← h.runScript_eq, runScript_append, runScript_of_not_goesOn hstop, Draft.closed, if_neg hstop]
  exact hitem.unhanded (h.unhanded fun _ => rfl) (Bool.eq_false_iff.2 fun hl => hstop (hlocked hl))

/-- Where a line comes to its end, an item in parts that did not stop it is in one piece. -/
theorem Composes.inOnePiece
    (h : Composes script (.start thread route t) (framed (parts.map .chunk) ++ rest) d)
    (hlength : parts.flatten.length ≤ 64)
    (hgo : (runScript (framed (parts.map .chunk)) d).trail.goesOn) :
    (runScript script (.start thread route t)).closed.InOnePiece
      (d.spoken ++ if d.owed then bytes ", " else []) parts.flatten := by
  have hcounted := (h.together (Draft.counted_start thread route t)).1
  obtain ⟨first, hscratch, hbefore⟩ := Draft.framed_parts hlength hcounted hgo
  obtain ⟨_, hitem, -⟩ := runScript_composes (framed (parts.map .chunk)) [] d
  obtain ⟨_, hrest, -⟩ :=
    runScript_composes rest [] (runScript (framed (parts.map .chunk)) d)
  have htogether := (hrest.together (hitem.together hcounted).1).2.trans (.closed _)
  rw [← h.runScript_eq, runScript_append, ← hbefore]
  exact htogether.inOnePiece hscratch

end Ends

/-! ### The text of a number -/

namespace Value

/-- The text of a number as it stands in a line. -/
def numeral? : Value → Option String
  | .int n => some (Decimal.intText n.val)
  | v => v.binary?.map Decimal.Spelling.line.text

/-- The size of a number. What is infinite has none. -/
def abs? : Value → Option ℚ
  | .int n => some |(n.val : ℚ)|
  | v => v.binary?.bind Decimal.Binary.abs?

variable {v : Value} {s : String}

/-- Numbers are whole numbers, or binary ones no larger than doubles. -/
theorem numeral_cases (hv : v.numeral? = some s) :
    (∃ n, v = .int n ∧ s = Decimal.intText n.val) ∨
      ∃ x : Decimal.Binary, v.binary? = some x ∧ v.abs? = x.abs? ∧ x.InRange ∧
        s = Decimal.Spelling.line.text x := by
  cases v with
  | int n => exact .inl ⟨n, rfl, (Option.some.inj hv).symm⟩
  | single bits =>
    exact .inr ⟨_, rfl, rfl, fun _ _ => Decimal.inRange_of_read (.inl rfl), (Option.some.inj hv).symm⟩
  | double bits =>
    exact .inr ⟨_, rfl, rfl, fun _ _ => Decimal.inRange_of_read (.inr rfl), (Option.some.inj hv).symm⟩
  | _ => cases hv

theorem writing_numeral (now : Clock → Moment) (hv : v.numeral? = some s) :
    v.writing now = .plain [text s] [] := by
  cases v with
  | int n => exact Option.some.inj hv ▸ rfl
  | single bits => exact Option.some.inj hv ▸ rfl
  | double bits => exact Option.some.inj hv ▸ rfl
  | _ => cases hv

theorem length_integer_le (n : Integer) : (Decimal.intText n.val).toList.length ≤ 40 := by
  obtain ⟨hleast, hgreatest⟩ := n.range
  exact Decimal.length_intText_le (by decide) (by omega)

/-- Numbers take no more room than they ask for. -/
theorem length_numeral_le (hv : v.numeral? = some s) : (Text.bytes s).length ≤ 64 := by
  rcases numeral_cases hv with ⟨n, -, rfl⟩ | ⟨x, -, -, hx, rfl⟩
  · have hascii : ∀ c ∈ (Decimal.intText n.val).toList, c.toNat < 0x80 := fun c hc =>
      (Decimal.mem_intText hc).elim Decimal.ascii_of_isDigit fun hsign => hsign ▸ (by decide)
    rw [Text.bytes, length_encode_ascii hascii]
    exact (length_integer_le n).trans (by decide)
  · rw [Text.bytes, length_encode_ascii x.ascii_line]
    exact (Decimal.Binary.length_line_le hx).trans (by decide)

theorem isNumber_or_word (hv : v.numeral? = some s) :
    Json.IsNumber s.toList ∨ s ∈ ["\"NaN\"", "\"+Inf\"", "\"-Inf\""] := by
  rcases numeral_cases hv with ⟨n, -, rfl⟩ | ⟨x, -, -, hx, rfl⟩
  · exact .inl (Decimal.isNumber_intText n.val)
  · exact Decimal.Binary.isNumber_or_word hx

/-- A whole number has all its digits in place, however large it is. -/
theorem hasExponent_numeral_iff (hv : v.numeral? = some s) :
    Json.HasExponent s.toList ↔ v.binary?.isSome ∧ ∃ x, v.abs? = some x ∧ Decimal.Extreme x := by
  rcases numeral_cases hv with ⟨n, rfl, rfl⟩ | ⟨x, hx, habs, -, rfl⟩
  · have hnone : ¬ Json.HasExponent (Decimal.intText n.val).toList :=
      Decimal.not_hasExponent fun c hc => (Decimal.mem_intText hc).imp_right .inr
    exact iff_of_false hnone fun hsome => Bool.noConfusion hsome.1
  · rw [Decimal.Binary.hasExponent_line_iff, hx, habs]
    simp

end Value

/-- **Numbers stay whole.** The text of a number, an integer of up to 128 bits or any single or double,
takes at most the 64 bytes that are asked for before it. It is a number of JSON or one of the words for
what is no number, and has an exponent exactly if it is binary and at least `10^21`, or below `10^-4` and
not zero; integers have all their digits.

So in whatever parts it comes, and however full the scratch space is, it is never parted: when the line
has come to its end, the text is within one piece that was handed on, behind what came before it, or
within what a line that was stopped later has not handed on. A line that is stopped at the number, since
its thread may not take the lock, has handed on nothing. -/
theorem numbers_stay_whole (now : Clock → Moment) {v : Value} {s : String}
    (hv : v.numeral? = some s) :
    v.writing now = .plain [text s] [] ∧ (bytes s).length ≤ 64 ∧
      (Json.IsNumber s.toList ∨ s ∈ ["\"NaN\"", "\"+Inf\"", "\"-Inf\""]) ∧
      (Json.HasExponent s.toList ↔
        v.binary?.isSome ∧ ∃ x, v.abs? = some x ∧ Decimal.Extreme x) ∧
      ∀ parts : List Bytes, parts.flatten = bytes s → ∀ script rest thread route t d,
        Composes script (.start thread route t) (framed (parts.map .chunk) ++ rest) d →
        d.trail.goesOn →
          let e := runScript (framed (parts.map .chunk)) d
          let f := (runScript script (.start thread route t)).closed
          f.Hands ∧ (d.thread.holdsLock = false → e.trail.goesOn) ∧
            (¬ e.trail.goesOn → f.handed = []) ∧
            (e.trail.goesOn → (f.trail.goesOn → f.scratch = []) ∧
              f.InOnePiece (d.spoken ++ if d.owed then bytes ", " else []) (bytes s)) := by
  have hlength := Value.length_numeral_le hv
  refine ⟨Value.writing_numeral now hv, hlength, Value.isNumber_or_word hv,
    Value.hasExponent_numeral_iff hv, ?_⟩
  intro parts hparts script rest thread route t d hsteps hgo e f
  obtain ⟨_, hrun, -⟩ := runScript_composes script [] (.start thread route t)
  have hcounted := (hrun.together (Draft.counted_start thread route t)).1
  refine ⟨(hrun.hands (List.nil_sublist _)).closed, hsteps.goesOn_parts hgo,
    hsteps.handed_of_stopped hgo, fun hego => ⟨Draft.scratch_closed hcounted, ?_⟩⟩
  rw [← hparts] at hlength ⊢
  exact hsteps.inOnePiece hlength hego

/-- Ten bytes are left, and a third comes in two parts: the line takes the lock, and the parts are handed
on together. -/
theorem third_stays_whole :
    let third : Value := .double 0x3FD5555555555555
    let fill : Bytes := List.replicate 16374 0x61
    let parts := [bytes "0.", bytes "3333333333333333"]
    let script : Script := .chunk fill :: framed (parts.map .chunk)
    let f := (runScript script (.start ⟨0, false, false⟩ ⟨.stdout, false, .warn⟩ .empty)).closed
    third.numeral? = some "0.3333333333333333" ∧ f.Hands ∧
      f.InOnePiece fill (bytes "0.3333333333333333") := by
  intro third fill parts script f
  have hthird : third.numeral? = some "0.3333333333333333" := by decide +kernel
  let start : Draft := .start ⟨0, false, false⟩ ⟨.stdout, false, .warn⟩ .empty
  have hfill : fill.length = 16374 := List.length_replicate
  clear_value fill
  have hroom : start.used + fill.length ≤ scratchSize := by
    rw [hfill]
    decide
  have hwrite := Draft.write_of_fits hroom
  obtain ⟨-, -, -, -, hwhole⟩ := numbers_stay_whole (fun _ => ⟨2026, 1, 1, 12, 0, 0, 0⟩) hthird
  obtain ⟨hhands, hgoes, -, hends⟩ := hwhole parts (by decide) script [] ⟨0, false, false⟩
    ⟨.stdout, false, .warn⟩ .empty (start.write fill) (Composes.refl.step rfl)
    (by rw [hwrite]; rfl)
  obtain ⟨-, hpiece⟩ := hends (hgoes (by rw [hwrite]; rfl))
  have hbefore : (start.write fill).spoken ++ (if (start.write fill).owed then bytes ", " else []) =
      fill := by
    rw [hwrite]
    simp [Draft.spoken, Draft.delivered, Draft.scratch, start, Draft.start]
  rw [hbefore] at hpiece
  exact ⟨hthird, hhands, hpiece⟩

/-- An integer has no exponent where a double of the same size has one. -/
theorem large_integer_in_full :
    let n : Value := .int (.ofNat (10 ^ 21))
    ∃ s, n.numeral? = some s ∧
      ¬ (Json.HasExponent s.toList ↔ ∃ x, n.abs? = some x ∧ Decimal.Extreme x) := by
  intro n
  refine ⟨"1000000000000000000000", by decide +kernel, fun h => ?_⟩
  have hnone : ¬ Json.HasExponent "1000000000000000000000".toList := by
    simp [Json.HasExponent]
  have hsize : n.abs? = some (10 ^ 21) := by
    norm_num [n, Value.abs?, Integer.ofNat]
  exact hnone (h.2 ⟨10 ^ 21, hsize, .inl le_rfl⟩)

end Logline
