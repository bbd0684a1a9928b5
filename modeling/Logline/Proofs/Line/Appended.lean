import Logline.Proofs.Line.Fits

/-!
What is appended to a line does not depend on what the line was before (`appended_anywhere`). However
full the scratch space is, and whether or not the line holds the output lock already, silent code
makes it the same bytes; they follow what was said before, and are those that an empty line would say
if it owed a separator or not alike. The space may run out anywhere in between.
-/

namespace Logline

open Script Text

/-- What may be appended to a line. -/
inductive Portion where
  /-- A value as an item. -/
  | item (v : Value)
  | member (label : String) (v : Value)
  /-- What is spliced in of a value. -/
  | spliced (v : Value)
  /-- Alternating keys and values. -/
  | tokens (vs : List Value)

namespace Portion

def script (now : Clock → Moment) : Portion → Script
  | .item v => (v.writing now).item
  | .member label v => (v.writing now).member (key label)
  | .spliced v => (v.writing now).splice
  | .tokens vs => Script.tokens (writings now vs)

def parts : Portion → List Value
  | .item v => v.parts
  | .member _ v => v.parts
  | .spliced v => v.parts
  | .tokens vs => Value.partsOf vs

def keys : Portion → List Value
  | .item v => v.keys
  | .member _ v => v.keys
  | .spliced v => v.keys
  | .tokens vs => Run.tokenKeys vs ++ Value.keysOf vs

variable {now : Clock → Moment}

theorem mem_parts_of_key (p : Portion) {k x : Value} (hk : k ∈ p.keys) (hx : x ∈ k.parts) :
    x ∈ p.parts := by
  cases p with
  | item v => exact v.mem_parts_of_key hk hx
  | member label v => exact v.mem_parts_of_key hk hx
  | spliced v => exact v.mem_parts_of_key hk hx
  | tokens vs =>
    rcases List.mem_append.1 hk with hk | hk
    · rw [parts, Value.partsOf_eq]
      exact List.mem_flatMap.2 ⟨k, Value.mem_of_mem_tokenKeys hk, hx⟩
    · exact Value.mem_partsOf_of_key vs hk hx

/-- What holds of the code of its values, holds of all that a portion asks for. -/
theorem every_script {P : Instr → Prop} [Instr.Common P] (p : Portion)
    (h : Value.Every now P p.parts p.keys) : Script.Every P (p.script now) := by
  cases p with
  | item v => exact (Value.writing_every v h).item
  | member label v => exact (Value.writing_every v h).member _ (every_key label)
  | spliced v => exact (Value.writing_every v h).splice
  | tokens vs =>
    have hall := Value.writings_every vs
      (h.mono (List.Subset.refl _) (List.subset_append_right ..))
    exact Value.every_tokens vs hall fun k hk => h.keys k (List.mem_append_left _ hk)

theorem tame_script (p : Portion) (h : ∀ x ∈ p.parts, x.Behaves now .silent) :
    Script.Tame .silent (p.script now) := by
  have htame : Value.Tame now .silent p.parts p.keys :=
    ⟨h, fun _ hk x hx => h x (p.mem_parts_of_key hk hx)⟩
  rw [tame_iff_runs, runs_iff_every]
  exact every_script p htame.runs.every

end Portion

/-- A line that went on so far, whatever has been written of it. -/
theorem Draft.going_before {before : Script} {thread : Thread} {route : Route} {t : Trail}
    (h : (runScript before (.start thread route t)).trail.goesOn)
    (hfree : thread.holdsLock = false) :
    (runScript before (.start thread route t)).Going := by
  have ht : t.goesOn := goesOn_of_runScript h
  obtain ⟨hcounted, hthread⟩ := adds_before h
  obtain ⟨left, hsteps, -⟩ := runScript_composes before [] (.start thread route t)
  exact ⟨h, (congrArg Thread.holdsLock hthread).trans hfree, hcounted,
    hsteps.unhanded (going_start hfree route ht).unhanded⟩

/-- **The same bytes anywhere.** If the code of its values is silent, what is appended as an item, a
member, a splice or tokens is the same after whatever was written before, in any state of the scratch
space and the output lock: what an empty line says that owes a separator if this one does. Nothing
stops either, unless their thread holds the lock already for a line further out. -/
theorem appended_anywhere (now : Clock → Moment) (p : Portion) (before : Script) (thread : Thread)
    (route : Route) (t : Trail) (h : (runScript before (.start thread route t)).trail.goesOn)
    (hcode : ∀ x ∈ p.parts, x.Behaves now .silent) :
    let d := runScript before (.start thread route t)
    let e := runScript (p.script now) d
    let alone := runScript (.owe d.owed :: p.script now) (.start thread route t)
    (thread.holdsLock = false → e.trail.goesOn ∧ alone.trail.goesOn) ∧
      (e.trail.goesOn → alone.trail.goesOn →
        e.spoken = d.spoken ++ alone.spoken ∧ e.owed = alone.owed) := by
  intro d e alone
  have hsilent := p.tame_script hcode
  have halone : Script.Tame .silent (.owe d.owed :: p.script now) := ⟨trivial, hsilent⟩
  refine ⟨fun hfree => ⟨?_, ?_⟩, fun hgo hgo' => ?_⟩
  · exact (going_runScript hsilent (Draft.going_before h hfree)).1.goesOn
  · exact (going_runScript halone
      (Draft.going_start hfree route (goesOn_of_runScript h))).1.goesOn
  · obtain ⟨hspoken, howed⟩ := spoken_runScript hsilent (adds_before h).1 hgo
    obtain ⟨hspoken', howed'⟩ := spoken_runScript halone (Draft.counted_start thread route t) hgo'
    refine ⟨?_, howed.trans howed'.symm⟩
    rw [hspoken]
    exact congrArg (d.spoken ++ ·) hspoken'.symm

/-- Tokens with deferred values and a splice, appended to a line that is longer than the scratch
space and so holds the lock. -/
theorem appended_under_lock :
    let noon : Clock → Moment := fun _ => ⟨2026, 1, 1, 12, 0, 0, 0⟩
    let route : Route := ⟨.stdout, false, .warn⟩
    let before : Script := [.chunk (List.replicate 16385 0x78), .owe true]
    let code : Code Value := ⟨1, [], none⟩
    let p : Portion := .tokens [.display code "k", .lazy code (.list [.null, .display code "d"]),
      .marker .inline, .lazy code (.raw [.str "n", .int (.ofNat 7)]), .str "e", .map .empty]
    let d := runScript before (.start ⟨0, false, false⟩ route .empty)
    let e := runScript (p.script noon) d
    d.locked = true ∧ e.trail.goesOn ∧ e.owed = true ∧
      e.spoken = d.spoken ++ bytes ",\"k\":[null, \"d\"],\"n\":7" := by
  intro noon route before code p
  obtain ⟨long, hlong, hbefore⟩ : ∃ long : Bytes, scratchSize < long.length ∧
      before = [.chunk long, .owe true] :=
    ⟨List.replicate 16385 0x78, by rw [List.length_replicate]; decide, rfl⟩
  clear_value before
  subst hbefore
  intro d e
  let start : Draft := .start ⟨0, false, false⟩ route .empty
  have hstart : start.Going := Draft.going_start rfl route rfl
  obtain ⟨hgoing, -, howes⟩ : d.Going ∧ _ ∧ d.owed = true :=
    going_runScript (s := [.chunk long, .owe true]) ⟨trivial, trivial, trivial⟩ hstart
  have hwritten : (start.write long).trail.goesOn :=
    (going_runScript (s := [.chunk long]) ⟨trivial, trivial⟩ hstart).1.goesOn
  have hlocked : d.locked = (start.write long).locked := by
    simp [d, start, runScript, Instr.run, hwritten, hstart.goesOn]
  have hprompt : ∀ x ∈ p.parts, ∀ c ∈ x.codes, c.IsPrompt := by
    simp [p, code, Portion.parts, Value.partsOf, Value.parts, Value.entryParts, Value.memberParts,
      Pairs.empty, Value.codes, Value.writtenCodes, Value.textCode?, Code.IsPrompt]
  have htame : Value.Tame noon .silent p.parts [] := Value.tame_of_prompt hprompt (by simp) .silent
  obtain ⟨hfree, hsame⟩ := appended_anywhere noon p [.chunk long, .owe true] ⟨0, false, false⟩ route
    .empty hgoing.goesOn htame.parts
  obtain ⟨hgo, halone⟩ := hfree rfl
  obtain ⟨hspoken, howed⟩ := hsame hgo halone
  rw [show (runScript [.chunk long, .owe true] start).owed = true from howes] at hspoken howed
  refine ⟨hlocked.trans ?_, hgo, howed.trans (by decide +kernel), hspoken.trans ?_⟩
  · exact (hstart.locked_write long).2 (.inr (Nat.lt_add_left _ hlong))
  · refine congrArg (d.spoken ++ ·) ?_
    decide +kernel

end Logline
