import Mathlib.Logic.Function.Iterate
import Logline.Proofs.Text.Shown

/-!
A byte sequence escaped in one pass. The scan keeps back the plain bytes it has come by since it
last wrote something, writes them before the next escape, and looks no further ahead than four
bytes for a character (`Scan.step`). What it has written, what it keeps back and the escaped form
of what lies ahead stay the same together (`Scan.step_whole`), and every step takes a byte at
least, so it comes to an end with the escaped form of the whole sequence (`scan_escapes`).

`escapeBytes_shows` says what that form is: between quotes, the one text the sequence is shown as.
-/

namespace Logline.Text

/-! ### The scan -/

/-- A byte that needs no escape. -/
def isPlainByte (b : UInt8) : Bool :=
  0x20 ≤ b.toNat && b.toNat < 0x7F && b.toNat ≠ 0x22 && b.toNat ≠ 0x5C

/-- The character at the start of a byte sequence, read off its first four bytes. -/
def decodeFour (s : Bytes) : Option Char := (first? (s.take 4)).map Prod.fst

/-- The escape of a character that lies below U+00A0. -/
def runeEscape (c : Char) : Bytes :=
  match namedEscape? c with
  | some letter => encode ['\\', letter]
  | none => unitEscape c.toNat

/-- How many bytes come before the next character. -/
def badAhead : Bytes → Nat
  | [] => 0
  | b :: rest => if (decodeFour (b :: rest)).isSome then 0 else 1 + badAhead rest

/-- Where a scan stands: the plain bytes behind it that are not written yet, what lies ahead, and
what it has written. -/
structure Scan where
  pending : Bytes
  rest : Bytes
  out : Bytes

namespace Scan

def start (s : Bytes) : Scan := ⟨[], s, []⟩

/-- Writes what is pending, then what stands for the next `n` bytes. -/
def put (t : Scan) (n : Nat) (chunk : Bytes) : Scan :=
  ⟨[], t.rest.drop n, t.out ++ t.pending ++ chunk⟩

def step (t : Scan) : Scan :=
  match t.rest with
  | [] => t
  | b :: rest =>
    if isPlainByte b then ⟨t.pending ++ [b], rest, t.out⟩
    else if b.toNat < 0x80 then t.put 1 (runeEscape (Char.ofNat b.toNat))
    else match decodeFour (b :: rest) with
      | some c =>
        let n := (encodeChar c).length
        if 0xFFFF < c.toNat then
          t.put n (unitEscape (0xD800 + (c.toNat - 0x10000) / 0x400) ++
            unitEscape (0xDC00 + (c.toNat - 0x10000) % 0x400))
        else if c.toNat < 0xA0 then t.put n (runeEscape c)
        else t.put n ((b :: rest).take n)
      | none =>
        let n := 1 + badAhead rest
        t.put n (bytes "«x" ++ ((b :: rest).take n).flatMap hexByte ++ bytes "»")

/-- What has been written in the end. -/
def written (t : Scan) : Bytes := t.out ++ t.pending

end Scan

/-! ### Four bytes are enough -/

theorem length_encodeChar_le (c : Char) : (encodeChar c).length ≤ 4 := by
  unfold encodeChar
  grind

theorem length_encodeChar_pos (c : Char) : 0 < (encodeChar c).length :=
  List.length_pos_iff.2 (encodeChar_ne_nil c)

theorem decodeFour_encodeChar (c : Char) (rest : Bytes) :
    decodeFour (encodeChar c ++ rest) = some c := by
  rw [decodeFour, List.take_append, List.take_of_length_le (length_encodeChar_le c),
    first?_encodeChar]
  rfl

/-- A character found among the first four bytes stands there. -/
theorem eq_encodeChar_of_decodeFour {s : Bytes} {c : Char} (h : decodeFour s = some c) :
    ∃ rest, s = encodeChar c ++ rest := by
  obtain ⟨found, hf, rfl⟩ := Option.map_eq_some_iff.1 h
  obtain ⟨rest, htake, -⟩ := eq_encodeChar_of_first? (c := found.1) (n := found.2) hf
  refine ⟨rest ++ s.drop 4, ?_⟩
  rw [← List.append_assoc, ← htake, List.take_append_drop]

theorem startsNone_iff_decodeFour {s : Bytes} : StartsNone s ↔ decodeFour s = none := by
  constructor
  · intro h
    cases hd : decodeFour s with
    | none => rfl
    | some c =>
      obtain ⟨rest, rfl⟩ := eq_encodeChar_of_decodeFour hd
      exact absurd ⟨rest, rfl⟩ (h c)
  · rintro h c ⟨rest, rfl⟩
    rw [decodeFour_encodeChar] at h
    cases h

theorem badAhead_spec (s : Bytes) :
    BadRun (s.take (badAhead s)) (s.drop (badAhead s)) ∧
      (s.drop (badAhead s) = [] ∨ ¬ StartsNone (s.drop (badAhead s))) := by
  induction s with
  | nil => exact ⟨by simp [badAhead, BadRun], .inl rfl⟩
  | cons b s ih =>
    rw [badAhead]
    cases hd : decodeFour (b :: s) with
    | some c =>
      have hc : ¬ StartsNone (b :: s) := by simp [startsNone_iff_decodeFour, hd]
      exact ⟨by simp [BadRun], .inr hc⟩
    | none =>
      simp only [Option.isSome_none, Bool.false_eq_true, if_false, Nat.add_comm 1,
        List.take_succ_cons, List.drop_succ_cons]
      refine ⟨ih.1.cons ?_, ih.2⟩
      rw [List.take_append_drop]
      exact startsNone_iff_decodeFour.2 hd

/-! ### The escaped form, part by part -/

theorem flatten_escapeBytes_char (c : Char) (rest : Bytes) :
    (escapeBytes (encodeChar c ++ rest)).flatten =
      encode (escapedChar c) ++ (escapeBytes rest).flatten := by
  rw [escapeBytes, escapeBytes, flatten_escapeSegments, flatten_escapeSegments,
    segments_encodeChar_append, ← encode_append]
  rfl

theorem flatten_escapeBytes_run {bad rest : Bytes} (hne : bad ≠ []) (hbad : BadRun bad rest)
    (hend : rest = [] ∨ ¬ StartsNone rest) :
    (escapeBytes (bad ++ rest)).flatten =
      bytes "«x" ++ bad.flatMap hexByte ++ bytes "»" ++ (escapeBytes rest).flatten := by
  have hopen : encode (escaped ['«', 'x']) = bytes "«x" := by decide
  have hclose : encode (escaped ['»']) = bytes "»" := by decide
  have hdigits : encode (escaped (hexLetters bad)) = bad.flatMap hexByte := encode_hexLetters bad
  rw [escapeBytes, escapeBytes, flatten_escapeSegments, flatten_escapeSegments,
    segments_badRun hbad, visibleSegments_badRun hne (endsRun_segments hend)]
  simp only [escaped_append, encode_append, hopen, hclose, hdigits]

theorem encode_escapedChar_of_low {c : Char} (h : c.toNat < 0xA0) (hp : isPlain c = false) :
    encode (escapedChar c) = runeEscape c := by
  unfold escapedChar runeEscape
  cases namedEscape? c with
  | some letter => rfl
  | none => simp [hp, h, encode_unitLetters]

theorem encode_escapedChar_of_kept {c : Char} (hlow : 0xA0 ≤ c.toNat) (hhigh : c.toNat ≤ 0xFFFF) :
    encode (escapedChar c) = encodeChar c := by
  have hnone : namedEscape? c = none := by
    unfold namedEscape?
    split <;> first | rfl | omega
  have hlow' : ¬ c.toNat < 0xA0 := by omega
  have hhigh' : c.toNat < 0x10000 := by omega
  simp [escapedChar, hnone, hlow', hhigh', encode]

theorem encode_escapedChar_of_high {c : Char} (h : 0xFFFF < c.toNat) :
    encode (escapedChar c) =
      unitEscape (0xD800 + (c.toNat - 0x10000) / 0x400) ++
        unitEscape (0xDC00 + (c.toNat - 0x10000) % 0x400) := by
  have hnone : namedEscape? c = none := by
    unfold namedEscape?
    split <;> first | rfl | omega
  have hp : isPlain c = false := by
    simp [isPlain]
    omega
  have hlow : ¬ c.toNat < 0xA0 := by omega
  have hhigh : ¬ c.toNat < 0x10000 := by omega
  simp [escapedChar, hnone, hp, hlow, hhigh, encode_append, encode_unitLetters]

/-! ### One step -/

theorem encodeChar_ofNat_of_ascii {b : UInt8} (h : b.toNat < 0x80) :
    encodeChar (Char.ofNat b.toNat) = [b] := by
  have hn := toNat_ofNat_of_valid (n := b.toNat) (by omega)
  simp [encodeChar, hn, h]

theorem isPlain_ofNat {b : UInt8} (h : b.toNat < 0x80) :
    isPlain (Char.ofNat b.toNat) = isPlainByte b := by
  have hn := toNat_ofNat_of_valid (n := b.toNat) (by omega)
  have hq : Char.ofNat b.toNat = '"' ↔ b.toNat = 0x22 := by
    rw [← Char.toNat_inj, hn]
    rfl
  have hb : Char.ofNat b.toNat = '\\' ↔ b.toNat = 0x5C := by
    rw [← Char.toNat_inj, hn]
    rfl
  simp [isPlain, isPlainByte, hn, hq, hb]

namespace Scan

/-- What is written once the scan has gone through what lies ahead. -/
def whole (t : Scan) : Bytes := t.written ++ (escapeBytes t.rest).flatten

theorem whole_put {t : Scan} {n : Nat} {chunk : Bytes}
    (h : (escapeBytes t.rest).flatten = chunk ++ (escapeBytes (t.rest.drop n)).flatten) :
    (t.put n chunk).whole = t.whole := by
  simp [whole, written, put, h]

theorem whole_put_char {t : Scan} {c : Char} {tail : Bytes} (h : t.rest = encodeChar c ++ tail) :
    (t.put (encodeChar c).length (encode (escapedChar c))).whole = t.whole :=
  whole_put (by rw [h, flatten_escapeBytes_char, List.drop_left])

/-- A run of bad bytes is written as far as it goes. -/
theorem whole_put_run {t : Scan} {b : UInt8} {rest : Bytes} (h : t.rest = b :: rest)
    (hnone : decodeFour (b :: rest) = none) :
    (t.put (1 + badAhead rest) (bytes "«x" ++
      (t.rest.take (1 + badAhead rest)).flatMap hexByte ++ bytes "»")).whole = t.whole := by
  obtain ⟨hbad, hend⟩ := badAhead_spec rest
  have hrun : BadRun (b :: rest.take (badAhead rest)) (rest.drop (badAhead rest)) := by
    refine hbad.cons ?_
    rw [List.take_append_drop]
    exact startsNone_iff_decodeFour.2 hnone
  have hescaped := flatten_escapeBytes_run (by simp) hrun hend
  rw [List.cons_append, List.take_append_drop] at hescaped
  apply whole_put
  rw [h, Nat.add_comm 1]
  exact hescaped

/-- A character that does not start with a byte of its own is beyond these. -/
theorem le_toNat_of_lead {b : UInt8} {c : Char} {rest tail : Bytes}
    (h : b :: rest = encodeChar c ++ tail) (hb : 0x80 ≤ b.toNat) : 0x80 ≤ c.toNat := by
  obtain ⟨x, xs, hx⟩ := List.exists_cons_of_ne_nil (encodeChar_ne_nil c)
  have hmem : b ∈ encodeChar c := by
    rw [hx] at h ⊢
    exact (List.cons.inj h).1 ▸ List.mem_cons_self ..
  have := toNat_of_mem_encodeChar hmem
  omega

/-- Every step leaves the text the scan comes to as it is. -/
theorem step_whole (t : Scan) : t.step.whole = t.whole := by
  obtain ⟨pending, rest, out⟩ := t
  cases rest with
  | nil => rfl
  | cons b rest =>
    simp only [step]
    split
    · next hplain =>
      have hb : b.toNat < 0x80 := by
        simp only [isPlainByte, Bool.and_eq_true, decide_eq_true_eq] at hplain
        omega
      have hc := flatten_escapeBytes_char (Char.ofNat b.toNat) rest
      rw [escapedChar_of_plain (by rw [isPlain_ofNat hb]; exact hplain)] at hc
      simp only [encode, List.flatMap_singleton, encodeChar_ofNat_of_ascii hb,
        List.singleton_append] at hc
      simp [whole, written, hc]
    next hplain =>
    split
    · next hb =>
      have hp : isPlain (Char.ofNat b.toNat) = false := by
        rw [isPlain_ofNat hb]
        simpa using hplain
      have hn := toNat_ofNat_of_valid (n := b.toNat) (by omega)
      have hc := whole_put_char (t := ⟨pending, b :: rest, out⟩) (c := Char.ofNat b.toNat)
        (by rw [encodeChar_ofNat_of_ascii hb]; rfl)
      rwa [encodeChar_ofNat_of_ascii hb, encode_escapedChar_of_low (by omega) hp] at hc
    next hb =>
    split
    · next c hd =>
      obtain ⟨tail, hs⟩ := eq_encodeChar_of_decodeFour hd
      have hc := whole_put_char (t := ⟨pending, b :: rest, out⟩) hs
      split
      · next hhigh => rwa [encode_escapedChar_of_high hhigh] at hc
      next hhigh =>
      split
      · next hlow =>
        have hp : isPlain c = false := by
          have := le_toNat_of_lead hs (by omega)
          simp [isPlain]
          omega
        rwa [encode_escapedChar_of_low hlow hp] at hc
      · rw [encode_escapedChar_of_kept (by omega) (by omega)] at hc
        rwa [hs, List.take_left, ← hs]
    · next hd => exact whole_put_run (t := ⟨pending, b :: rest, out⟩) rfl hd

/-- Every step takes a byte at least, until none is left. -/
theorem length_step (t : Scan) : t.step.rest.length ≤ t.rest.length - 1 := by
  obtain ⟨pending, rest, out⟩ := t
  cases rest with
  | nil => simp [step]
  | cons b rest =>
    have hput : ∀ n chunk, 0 < n → (put ⟨pending, b :: rest, out⟩ n chunk).rest.length ≤
        (b :: rest).length - 1 := fun n chunk hn => by simp [put]; omega
    simp only [step]
    split
    · simp
    split
    · exact hput _ _ (by omega)
    split
    · next c _ =>
      have hc := length_encodeChar_pos c
      split
      · exact hput _ _ hc
      split <;> exact hput _ _ hc
    · exact hput _ _ (by omega)

theorem whole_iterate (t : Scan) (n : Nat) : (step^[n] t).whole = t.whole := by
  induction n generalizing t with
  | zero => rfl
  | succ n ih => rw [Function.iterate_succ_apply, ih, step_whole]

theorem length_iterate (t : Scan) (n : Nat) :
    (step^[n] t).rest.length ≤ t.rest.length - n := by
  induction n generalizing t with
  | zero => rfl
  | succ n ih =>
    rw [Function.iterate_succ_apply]
    have := ih t.step
    have := length_step t
    omega

end Scan

/-- The scan of a byte sequence comes to its end in no more steps than there are bytes, and what
it has written then is the escaped form. -/
theorem scan_escapes (s : Bytes) :
    (Scan.step^[s.length] (Scan.start s)).rest = [] ∧
      (Scan.step^[s.length] (Scan.start s)).written = (escapeBytes s).flatten := by
  have hlen := Scan.length_iterate (Scan.start s) s.length
  have hrest : (Scan.step^[s.length] (Scan.start s)).rest = [] := by
    apply List.eq_nil_of_length_eq_zero
    simp only [Scan.start] at hlen ⊢
    omega
  have hwhole := Scan.whole_iterate (Scan.start s) s.length
  have hnil : (escapeBytes []).flatten = [] := rfl
  rw [Scan.whole, hrest, hnil, List.append_nil] at hwhole
  exact ⟨hrest, by simpa [Scan.whole, Scan.written, Scan.start] using hwhole⟩

/-! ### What the escaped form is -/

/-- **An escaped byte sequence is a JSON string of what it is shown as.** One pass over the bytes
comes to it. Between quotes it is read as the text that keeps all characters and shows every
longest run of other bytes in hexadecimal digits, the only such text; and it stands there
character by character, with no quote, backslash or control of its own and nothing beyond U+FFFF
but in escapes. -/
theorem escapeBytes_shows (s : Bytes) :
    (∃ n ≤ s.length, (Scan.step^[n] (Scan.start s)).rest = [] ∧
      (Scan.step^[n] (Scan.start s)).written = (escapeBytes s).flatten) ∧
    ∃ text : List Char, Shown s text ∧ (∀ other, Shown s other → other = text) ∧
      (decode? (bytes "\"" ++ (escapeBytes s).flatten ++ bytes "\"")).bind Json.read? =
        some (.string (String.ofList text)) ∧
      ∃ parts : List (List Char), List.Forall₂ Stands text parts ∧
        (escapeBytes s).flatten = encode parts.flatten ∧ ∀ l ∈ parts.flatten, MayStand l := by
  have hread : (decode? (bytes "\"" ++ (escapeBytes s).flatten ++ bytes "\"")).bind Json.read? =
      some (.string (visible s)) := by
    have hread := Json.read?_of_reads (Json.reads_quotedText (visible s))
    rw [Json.quotedText] at hread
    rw [decode?_quoted_escapeBytes, Option.bind_some, hread]
  refine ⟨⟨s.length, le_rfl, scan_escapes s⟩, (visible s).toList, shown_visible s,
    fun _ h => h.eq_visible, by rw [hread, String.ofList_toList],
    (visible s).toList.map escapedChar, forall₂_stands _, ?_, fun l hl => ?_⟩
  · rw [flatten_escapeBytes, escaped_eq_flatten]
  · obtain ⟨letters, hmem, hl⟩ := List.mem_flatten.1 hl
    obtain ⟨c, -, rfl⟩ := List.mem_map.1 hmem
    exact (stands_escapedChar c).mayStand hl

/-- The start of a character that a letter cuts short. -/
example : (escapeBytes [0xF0, 0x9F, 0x61]).flatten = bytes "«xF09F»a" := by cbv

/-- A newline is a control and stands as two letters, which are no `\u` escape. -/
theorem newline_stands_as_letter :
    '\n'.toNat < 0x20 ∧ (escapeBytes [0x0A]).flatten = encode ['\\', 'n'] ∧
      ∀ n, (escapeBytes [0x0A]).flatten ≠ encode (unitLetters n) := by
  have hbytes : (escapeBytes [0x0A]).flatten = encode ['\\', 'n'] := rfl
  refine ⟨by decide, hbytes, fun n h => ?_⟩
  rw [hbytes, encode_unitLetters] at h
  have hlen : 2 = 6 := congrArg List.length h
  omega

end Logline.Text
