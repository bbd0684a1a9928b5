import Logline.Line.Values
import Logline.Proofs.Decimal.Numbers
import Logline.Proofs.Json.Escapes
import Logline.Proofs.Text.Decoding

/-!
Byte sequences that stand alone: they are well-formed, and no escape in them is cut (`Whole`). An
escaped text is handed on in chunks that are (`whole_of_mem_escapeBytes`), whatever bytes it escapes,
and so are numbers, words and documents. Sequences that are put together from such stay so.
-/

namespace Logline.Text

open Json (Uncut)

/-- The sequence is a text, and no escape in it is cut. The halves of a character beyond U+FFFF are two
escapes, which may be parted. -/
def Whole (bs : Bytes) : Prop := ∃ text, decode? bs = some text ∧ Uncut text.toList

theorem whole_encode {cs : List Char} (h : Uncut cs) : Whole (encode cs) :=
  ⟨String.ofList cs, decode?_encode cs, by simpa using h⟩

theorem whole_iff {bs : Bytes} : Whole bs ↔ ∃ cs, bs = encode cs ∧ Uncut cs := by
  constructor
  · rintro ⟨text, hd, hu⟩
    exact ⟨text.toList, eq_bytes_of_decode? hd, hu⟩
  · rintro ⟨cs, rfl, hu⟩
    exact whole_encode hu

theorem whole_nil : Whole [] := whole_encode .nil

theorem Whole.append {a b : Bytes} (ha : Whole a) (hb : Whole b) : Whole (a ++ b) := by
  obtain ⟨as, rfl, has⟩ := whole_iff.1 ha
  obtain ⟨bs, rfl, hbs⟩ := whole_iff.1 hb
  rw [← encode_append]
  exact whole_encode (has.append hbs)

theorem whole_flatten {chunks : List Bytes} (h : ∀ c ∈ chunks, Whole c) : Whole chunks.flatten := by
  induction chunks with
  | nil => exact whole_nil
  | cons c rest ih =>
    exact (h c (List.mem_cons_self ..)).append (ih fun d hd => h d (List.mem_cons_of_mem c hd))

theorem whole_bytes {s : String} (h : '\\' ∉ s.toList) : Whole (bytes s) :=
  whole_encode (.of_no_backslash h)

/-! ### Numbers and documents -/

theorem whole_of_isNumber {s : String} (h : Json.IsNumber s.toList) : Whole (bytes s) :=
  whole_encode (Json.uncut_of_isNumber h)

theorem whole_of_json {json : Bytes} (h : ((decode? json).bind Json.read?).isSome) :
    Whole json := by
  obtain ⟨j, hj⟩ := Option.isSome_iff_exists.1 h
  obtain ⟨text, hd, hr⟩ := Option.bind_eq_some_iff.1 hj
  exact ⟨text, hd, Json.uncut_of_read? hr⟩

theorem whole_intText (n : Int) : Whole (bytes (Decimal.intText n)) :=
  whole_of_isNumber (Decimal.isNumber_intText n)

theorem whole_boolText (b : Bool) : Whole (bytes (Value.boolText b)) := by
  apply whole_bytes
  cases b <;> decide

/-- A float is a number, or a word in quotes. -/
theorem whole_binary {f : Decimal.Format} (hf : f = .single ∨ f = .double) (bits : Nat) :
    Whole (bytes (Decimal.Spelling.line.text (f.read bits))) := by
  cases hread : f.read bits with
  | nan => exact whole_bytes (s := "\"NaN\"") (by decide)
  | infinite negative =>
    cases negative with
    | true => exact whole_bytes (s := "\"-Inf\"") (by decide)
    | false => exact whole_bytes (s := "\"+Inf\"") (by decide)
  | finite negative m =>
    exact whole_of_isNumber (Decimal.isNumber_line (Decimal.inRange_of_read hf hread) negative)

/-! ### Chunks of escaped texts -/

theorem whole_hexByte (b : UInt8) : Whole (hexByte b) := by
  have hb := b.toNat_lt
  have h1 : b.toNat / 16 < 16 := by omega
  have h2 : b.toNat % 16 < 16 := by omega
  have hbytes : hexByte b = encode [hexLetter (b.toNat / 16), hexLetter (b.toNat % 16)] := by
    simp [hexByte, encode, encodeChar_hexLetter, h1, h2]
  have hletter : ∀ n, n < 16 → hexLetter n ≠ '\\' := fun n hn => by
    have hplain := isPlain_hexLetter hn
    rintro heq
    simp [heq, isPlain] at hplain
  rw [hbytes]
  exact whole_encode (.plain (hletter _ h1) (.plain (hletter _ h2) .nil))

theorem whole_unitEscape {n : Nat} (h : n < 0x10000) : Whole (unitEscape n) := by
  rw [← encode_unitLetters]
  exact whole_encode (.unit (Option.isSome_of_eq_some (Json.unit?_letters h)) .nil)

theorem whole_plain {cs : List Char} (h : ∀ c ∈ cs, isPlain c = true) : Whole (encode cs) := by
  refine whole_encode (.of_no_backslash fun hmem => ?_)
  have hplain := h _ hmem
  simp [isPlain] at hplain

/-- No escape of a character is cut, but the two of one beyond U+FFFF are chunks of their own. -/
theorem whole_of_mem_charChunks {c : Char} {chunk : Bytes} (h : chunk ∈ charChunks c) :
    Whole chunk := by
  have hv : c.toNat < 0xD800 ∨ 0xDFFF < c.toNat ∧ c.toNat < 0x110000 := c.valid
  unfold charChunks at h
  dsimp only at h
  split at h
  · next letter hletter =>
    obtain rfl := List.mem_singleton.1 h
    have hread := Option.isSome_of_eq_some (Json.unescape?_of_namedEscape? hletter)
    exact whole_encode (.letter hread .nil)
  split at h
  · obtain rfl := List.mem_singleton.1 h
    exact whole_unitEscape (by omega)
  split at h
  · next hnone _ _ =>
    obtain rfl := List.mem_singleton.1 h
    have hc : c ≠ '\\' := by
      rintro rfl
      simp [namedEscape?] at hnone
    have hbytes : encodeChar c = encode [c] := (List.append_nil _).symm
    rw [hbytes]
    exact whole_encode (.plain hc .nil)
  · simp only [List.mem_cons, List.not_mem_nil, or_false] at h
    rcases h with rfl | rfl
    · exact whole_unitEscape (by omega)
    · exact whole_unitEscape (by omega)

theorem whole_of_mem_runChunks {run : List Segment} (hne : run ≠ [])
    (hchain : run.IsChain fun a b => a.joins b = true) {chunk : Bytes} (h : chunk ∈ runChunks run) :
    Whole chunk := by
  rcases run_cases hne hchain with ⟨bs, hbs, rfl⟩ | ⟨cs, hcs, rfl⟩ | ⟨c, hc, rfl⟩
  · obtain ⟨b, bs, rfl⟩ := List.exists_cons_of_ne_nil hbs
    have hany : ((b :: bs).map Segment.bad).any Segment.isBad = true := rfl
    rw [runChunks, if_pos hany, List.flatMap_map] at h
    simp only [List.cons_append, List.mem_cons, List.mem_append, List.mem_flatMap, Segment.chunks,
      List.not_mem_nil, or_false] at h
    rcases h with rfl | ⟨x, -, rfl⟩ | rfl
    · exact whole_bytes (by decide)
    · exact whole_hexByte x
    · exact whole_bytes (by decide)
  · have hall : (cs.map Segment.char).all Segment.isPlain = true := by
      simpa [Segment.isPlain] using hcs
    have hany : (cs.map Segment.char).any Segment.isBad = false := by
      simp [Segment.isBad]
    rw [runChunks, hany, if_neg (by simp), if_pos hall, List.flatMap_map] at h
    obtain rfl := List.mem_singleton.1 h
    exact whole_plain hcs
  · have hchunks : runChunks [.char c] = charChunks c := by
      simp [runChunks, Segment.isBad, Segment.isPlain, hc, Segment.chunks]
    exact whole_of_mem_charChunks (hchunks ▸ h)

theorem whole_of_mem_escapeSegments {s : List Segment} {chunk : Bytes}
    (h : chunk ∈ escapeSegments s) : Whole chunk := by
  obtain ⟨-, hne, hchain, -⟩ := List.splitBy_eq_iff.1 (rfl : s.splitBy Segment.joins = _)
  obtain ⟨run, hrun, hchunk⟩ := List.mem_flatMap.1 h
  exact whole_of_mem_runChunks (fun heq => hne (heq ▸ hrun)) (hchain run hrun) hchunk

/-- Whatever bytes are escaped, none of the chunks ends inside a character or an escape. -/
theorem whole_of_mem_escapeBytes {s chunk : Bytes} (h : chunk ∈ escapeBytes s) : Whole chunk :=
  whole_of_mem_escapeSegments h

theorem whole_of_mem_escapeText {s : String} {chunk : Bytes} (h : chunk ∈ escapeText s) :
    Whole chunk :=
  whole_of_mem_escapeSegments h

end Logline.Text
