import Mathlib.Data.List.SplitBy
import Logline.Text.Escaped
import Logline.Text.Utf8.RoundTrip

/-!
The chunks of an escaped byte sequence, put together again, are its visible text with each
character escaped on its own (`flatten_escapeBytes`), although runs of characters and of bad bytes
are handed on as chunks of their own. An escaped text holds no control character
(`printable_escaped`).
-/

namespace Logline.Text

theorem encode_append (a b : List Char) : encode (a ++ b) = encode a ++ encode b :=
  List.flatMap_append

theorem encode_cons (c : Char) (cs : List Char) : encode (c :: cs) = encodeChar c ++ encode cs := rfl

/-- A character of ASCII is one byte. -/
theorem encode_cons_ascii {c : Char} (hc : c.toNat < 0x80) (s : List Char) :
    encode (c :: s) = UInt8.ofNat c.toNat :: encode s := by
  rw [encode_cons, encodeChar, if_pos hc]
  rfl

theorem length_encode_ascii {s : List Char} (h : ∀ c ∈ s, c.toNat < 0x80) :
    (encode s).length = s.length := by
  induction s with
  | nil => rfl
  | cons c s ih =>
    obtain ⟨hc, hs⟩ := List.forall_mem_cons.1 h
    rw [encode_cons_ascii hc, List.length_cons, List.length_cons, ih hs]

/-! ### Escaping characters one by one -/

/-- `\uXXXX` for a 16-bit unit. -/
def unitLetters (n : Nat) : List Char :=
  ['\\', 'u', hexLetter (n / 0x1000 % 16), hexLetter (n / 0x100 % 16), hexLetter (n / 16 % 16),
    hexLetter (n % 16)]

/-- A character inside a JSON string. -/
def escapedChar (c : Char) : List Char :=
  match namedEscape? c with
  | some letter => ['\\', letter]
  | none =>
    if isPlain c then [c]
    else if c.toNat < 0xA0 then unitLetters c.toNat
    else if c.toNat < 0x10000 then [c]
    else
      unitLetters (0xD800 + (c.toNat - 0x10000) / 0x400) ++
        unitLetters (0xDC00 + (c.toNat - 0x10000) % 0x400)

def escaped (cs : List Char) : List Char := cs.flatMap escapedChar

theorem escaped_append (a b : List Char) : escaped (a ++ b) = escaped a ++ escaped b :=
  List.flatMap_append

theorem namedEscape?_of_plain {c : Char} (h : isPlain c = true) : namedEscape? c = none := by
  simp only [isPlain, Bool.and_eq_true, decide_eq_true_eq, ne_eq] at h
  obtain ⟨⟨⟨hlow, -⟩, hq⟩, hb⟩ := h
  have hq' : c.toNat ≠ 0x22 := fun hc => hq (Char.toNat_inj.1 hc)
  have hb' : c.toNat ≠ 0x5C := fun hc => hb (Char.toNat_inj.1 hc)
  unfold namedEscape?
  split <;> first | rfl | omega

/-- The characters that have an escape of two letters, with its second. -/
theorem namedEscape?_eq_some {c letter : Char} (h : namedEscape? c = some letter) :
    (c, letter) ∈ [('"', '"'), ('\\', '\\'), ('\x08', 'b'), ('\x0c', 'f'), ('\n', 'n'), ('\r', 'r'),
      ('\t', 't')] := by
  have hc : ∀ d : Char, c.toNat = d.toNat → c = d := fun d => Char.toNat_inj.1
  unfold namedEscape? at h
  split at h <;> cases h
  · next hn => rw [hc '"' hn]; decide
  · next hn => rw [hc '\\' hn]; decide
  · next hn => rw [hc '\x08' hn]; decide
  · next hn => rw [hc '\x0c' hn]; decide
  · next hn => rw [hc '\n' hn]; decide
  · next hn => rw [hc '\r' hn]; decide
  · next hn => rw [hc '\t' hn]; decide

theorem escapedChar_of_plain {c : Char} (h : isPlain c = true) : escapedChar c = [c] := by
  simp [escapedChar, namedEscape?_of_plain h, h]

theorem escaped_of_plain {cs : List Char} (h : ∀ c ∈ cs, isPlain c = true) : escaped cs = cs := by
  induction cs with
  | nil => rfl
  | cons c rest ih =>
    have hc := escapedChar_of_plain (h c (List.mem_cons_self ..))
    have hrest := ih fun d hd => h d (List.mem_cons_of_mem c hd)
    rw [escaped] at hrest
    rw [escaped, List.flatMap_cons, hc, hrest, List.singleton_append]

/-! ### Hexadecimal digits -/

theorem encodeChar_hexLetter {n : Nat} (h : n < 16) : encodeChar (hexLetter n) = [hexDigit n] := by
  revert n
  decide

theorem isPlain_hexLetter {n : Nat} (h : n < 16) : isPlain (hexLetter n) = true := by
  revert n
  decide

theorem encode_unitLetters (n : Nat) : encode (unitLetters n) = unitEscape n := by
  have h1 := encodeChar_hexLetter (n := n / 0x1000 % 16) (by omega)
  have h2 := encodeChar_hexLetter (n := n / 0x100 % 16) (by omega)
  have h3 := encodeChar_hexLetter (n := n / 16 % 16) (by omega)
  have h4 := encodeChar_hexLetter (n := n % 16) (by omega)
  simp only [unitLetters, encode_cons, h1, h2, h3, h4]
  rfl

/-- The chunks of a character that is not plain come to its escape. -/
theorem flatten_charChunks {c : Char} (h : isPlain c = false) :
    (charChunks c).flatten = encode (escapedChar c) := by
  unfold charChunks escapedChar
  cases namedEscape? c with
  | some letter => simp
  | none =>
    simp only [h]
    split
    · simp [encode_unitLetters]
    split
    · simp [encode]
    · simp [encode_append, encode_unitLetters]

/-! ### Runs -/

/-- Segments that belong together are bad bytes, or plain characters, or one other character. -/
theorem run_cases {run : List Segment} (hne : run ≠ [])
    (h : run.IsChain fun a b => a.joins b = true) :
    (∃ bs : Bytes, bs ≠ [] ∧ run = bs.map .bad) ∨
      (∃ cs : List Char, (∀ c ∈ cs, isPlain c = true) ∧ run = cs.map .char) ∨
        ∃ c, isPlain c = false ∧ run = [.char c] := by
  induction run with
  | nil => exact absurd rfl hne
  | cons a rest ih =>
    cases rest with
    | nil =>
      cases a with
      | bad b => exact .inl ⟨[b], by simp⟩
      | char c =>
        cases hc : isPlain c with
        | true => exact .inr (.inl ⟨[c], by simpa using hc, rfl⟩)
        | false => exact .inr (.inr ⟨c, hc, rfl⟩)
    | cons b rest =>
      rw [List.isChain_cons_cons] at h
      obtain ⟨hab, hrest⟩ := h
      rcases ih (by simp) hrest with ⟨bs, hbs, hr⟩ | ⟨cs, hcs, hr⟩ | ⟨c, hc, hr⟩
      · cases a with
        | bad x => exact .inl ⟨x :: bs, by simp, by rw [hr]; rfl⟩
        | char x =>
          obtain ⟨y, ys, rfl⟩ := List.exists_cons_of_ne_nil hbs
          obtain ⟨rfl, -⟩ : b = .bad y ∧ _ := by simpa using hr
          simp [Segment.joins, Segment.isPlain, Segment.isBad] at hab
      · cases cs with
        | nil => simp at hr
        | cons y ys =>
          obtain ⟨rfl, -⟩ : b = .char y ∧ _ := by simpa using hr
          cases a with
          | bad x => simp [Segment.joins, Segment.isPlain, Segment.isBad] at hab
          | char x =>
            have hx : isPlain x = true := by
              simp [Segment.joins, Segment.isPlain, Segment.isBad] at hab
              exact hab.1
            refine .inr (.inl ⟨x :: y :: ys, fun d hd => ?_, by rw [hr]; rfl⟩)
            rcases List.mem_cons.1 hd with rfl | hd
            · exact hx
            · exact hcs d hd
      · obtain ⟨rfl, -⟩ : b = .char c ∧ _ := by simpa using hr
        cases a <;> simp [Segment.joins, Segment.isPlain, Segment.isBad, hc] at hab

/-- A run of bad bytes ends where no bad byte follows. -/
def EndsRun (rest : List Segment) : Prop := ∀ s ∈ rest.head?, s.isBad = false

theorem visibleSegments_true {rest : List Segment} (h : EndsRun rest) :
    visibleSegments true rest = '»' :: visibleSegments false rest := by
  cases rest with
  | nil => rfl
  | cons s rest =>
    cases s with
    | char c => rfl
    | bad b => simpa [Segment.isBad] using h (.bad b) (by simp)

theorem visibleSegments_bad {rest : List Segment} (h : EndsRun rest) (bs : Bytes) :
    visibleSegments true (bs.map .bad ++ rest) =
      (bs.flatMap fun b => [hexLetter (b.toNat / 16), hexLetter (b.toNat % 16)]) ++
        '»' :: visibleSegments false rest := by
  induction bs with
  | nil => exact visibleSegments_true h
  | cons b bs ih => simp [visibleSegments, ih]

theorem visibleSegments_char (cs : List Char) (rest : List Segment) :
    visibleSegments false (cs.map .char ++ rest) = cs ++ visibleSegments false rest := by
  induction cs with
  | nil => rfl
  | cons c cs ih => simp [visibleSegments, ih]

theorem encode_hexLetters (bs : Bytes) :
    encode (escaped (bs.flatMap fun b => [hexLetter (b.toNat / 16), hexLetter (b.toNat % 16)])) =
      bs.flatMap hexByte := by
  induction bs with
  | nil => rfl
  | cons b bs ih =>
    have hb := b.toNat_lt
    have h1 : b.toNat / 16 < 16 := by omega
    have h2 : b.toNat % 16 < 16 := by omega
    rw [List.flatMap_cons, escaped_append, encode_append, ih, List.flatMap_cons]
    congr 1
    rw [escaped_of_plain (by simp [isPlain_hexLetter, h1, h2])]
    simp [encode, encodeChar_hexLetter, h1, h2, hexByte]

/-- The chunks of one run, and the visible text it begins with. -/
theorem flatten_runChunks {run rest : List Segment} (hne : run ≠ [])
    (h : run.IsChain fun a b => a.joins b = true)
    (hrest : ∀ a ∈ run.getLast?, ∀ b ∈ rest.head?, a.joins b = false) :
    encode (escaped (visibleSegments false (run ++ rest))) =
      (runChunks run).flatten ++ encode (escaped (visibleSegments false rest)) := by
  rcases run_cases hne h with ⟨bs, hbs, rfl⟩ | ⟨cs, hcs, rfl⟩ | ⟨c, hc, rfl⟩
  · obtain ⟨b, bs, rfl⟩ := List.exists_cons_of_ne_nil hbs
    have hr : EndsRun rest := by
      intro s hs
      obtain ⟨last, hlast⟩ : ∃ x, ((b :: bs).map Segment.bad).getLast? = some (.bad x) :=
        ⟨(b :: bs).getLast (by simp), by rw [List.getLast?_map, List.getLast?_eq_some_getLast]; rfl⟩
      simpa [Segment.joins, Segment.isPlain, Segment.isBad] using hrest _ hlast s hs
    have hv : visibleSegments false ((b :: bs).map .bad ++ rest) =
        ['«', 'x'] ++ (((b :: bs).flatMap fun b =>
          [hexLetter (b.toNat / 16), hexLetter (b.toNat % 16)]) ++
            (['»'] ++ visibleSegments false rest)) := by
      simp [visibleSegments, visibleSegments_bad hr]
    have hopen : encode (escaped ['«', 'x']) = bytes "«x" := by decide
    have hclose : encode (escaped ['»']) = bytes "»" := by decide
    rw [hv, escaped_append, encode_append, escaped_append, encode_append, encode_hexLetters,
      escaped_append, encode_append, hopen, hclose]
    have hchunks : ((b :: bs).map Segment.bad).flatMap Segment.chunks = (b :: bs).map hexByte := by
      rw [List.flatMap_map, ← List.flatMap_singleton' ((b :: bs).map hexByte), List.flatMap_map]
      rfl
    have hany : ((b :: bs).map Segment.bad).any Segment.isBad = true := rfl
    rw [runChunks, if_pos hany, hchunks]
    simp [List.flatMap_def]
  · rw [visibleSegments_char, escaped_append, encode_append, escaped_of_plain hcs]
    have hall : (cs.map Segment.char).all Segment.isPlain = true := by
      simpa [Segment.isPlain] using hcs
    have hany : (cs.map Segment.char).any Segment.isBad = false := by
      simp [Segment.isBad]
    simp [runChunks, hall, hany, List.flatMap_map, Segment.plainBytes, encode]
  · rw [show [Segment.char c] = [c].map .char from rfl, visibleSegments_char, escaped_append,
      encode_append]
    simp [runChunks, Segment.isBad, Segment.isPlain, hc, Segment.chunks, flatten_charChunks hc,
      escaped]

/-- The chunks put together are the visible text, each character escaped on its own. -/
theorem flatten_escapeSegments (s : List Segment) :
    (escapeSegments s).flatten = encode (escaped (visibleSegments false s)) := by
  obtain ⟨hs, hne, hchain, hbetween⟩ := List.splitBy_eq_iff.1 (rfl : s.splitBy Segment.joins = _)
  rw [escapeSegments]
  conv => rhs; rw [hs]
  clear hs
  generalize s.splitBy Segment.joins = runs at *
  induction runs with
  | nil => rfl
  | cons run runs ih =>
    have hrun : run ≠ [] := fun h => hne (by simp [h])
    have htail := ih (fun h => hne (List.mem_cons_of_mem run h))
      (fun m hm => hchain m (List.mem_cons_of_mem run hm)) hbetween.tail
    have hends : ∀ a ∈ run.getLast?, ∀ b ∈ runs.flatten.head?, a.joins b = false := by
      intro a ha b hb
      cases runs with
      | nil => simp at hb
      | cons next runs =>
        obtain ⟨⟨hn, hn', hj⟩, -⟩ := List.isChain_cons_cons.1 hbetween
        rw [List.getLast?_eq_some_getLast hn] at ha
        rw [List.flatten_cons, List.head?_append_of_ne_nil _ hn', List.head?_eq_some_head hn'] at hb
        rw [← Option.some.inj ha, ← Option.some.inj hb]
        exact hj
    rw [List.flatMap_cons, List.flatten_append, htail, List.flatten_cons,
      flatten_runChunks hrun (hchain run (List.mem_cons_self ..)) hends]

/-- The escaped form of any byte sequence. -/
theorem flatten_escapeBytes (s : Bytes) :
    (escapeBytes s).flatten = encode (escaped (visible s).toList) := by
  rw [escapeBytes, flatten_escapeSegments, visible, String.toList_ofList]

/-- The escaped form of a text. -/
theorem flatten_escapeText (s : String) :
    (escapeText s).flatten = encode (escaped s.toList) := by
  have h := visibleSegments_char s.toList []
  rw [List.append_nil] at h
  rw [escapeText, flatten_escapeSegments, h]
  simp [visibleSegments]

/-! ### Nothing raw -/

/-- Characters that may stand in a line as they are: no controls, U+007F among them. -/
def Printable (cs : List Char) : Prop := ∀ c ∈ cs, 0x20 ≤ c.toNat ∧ c.toNat ≠ 0x7F

theorem Printable.append {a b : List Char} (ha : Printable a) (hb : Printable b) :
    Printable (a ++ b) := by
  intro c hc
  rcases List.mem_append.1 hc with h | h
  · exact ha c h
  · exact hb c h

theorem toNat_hexLetter_printable {n : Nat} (h : n < 16) :
    0x20 ≤ (hexLetter n).toNat ∧ (hexLetter n).toNat ≠ 0x7F := by
  revert n
  decide

theorem printable_unitLetters (n : Nat) : Printable (unitLetters n) := by
  intro c hc
  simp only [unitLetters, List.mem_cons, List.not_mem_nil, or_false] at hc
  rcases hc with rfl | rfl | rfl | rfl | rfl | rfl
  · decide
  · decide
  all_goals exact toNat_hexLetter_printable (by omega)

theorem printable_escapedChar (c : Char) : Printable (escapedChar c) := by
  unfold escapedChar
  split
  · next letter hl =>
    have hprint : ∀ p ∈ [('"', '"'), ('\\', '\\'), ('\x08', 'b'), ('\x0c', 'f'), ('\n', 'n'),
        ('\r', 'r'), ('\t', 't')], 0x20 ≤ p.2.toNat ∧ p.2.toNat ≠ 0x7F := by decide
    intro d hd
    rcases List.mem_cons.1 hd with rfl | hd
    · decide
    · obtain rfl := List.mem_singleton.1 hd
      exact hprint _ (namedEscape?_eq_some hl)
  split
  · next hp =>
    intro d hd
    obtain rfl := List.mem_singleton.1 hd
    simp only [isPlain, Bool.and_eq_true, decide_eq_true_eq] at hp
    omega
  split
  · exact printable_unitLetters _
  split
  · next hlow _ =>
    intro d hd
    obtain rfl := List.mem_singleton.1 hd
    omega
  · exact (printable_unitLetters _).append (printable_unitLetters _)

theorem printable_escaped (cs : List Char) : Printable (escaped cs) := by
  intro c hc
  obtain ⟨d, -, hd⟩ := List.mem_flatMap.1 hc
  exact printable_escapedChar d c hd

/-- A character below U+0080 is one byte, and all bytes of the others lie beyond. -/
theorem toNat_of_mem_encodeChar {c : Char} {b : UInt8} (h : b ∈ encodeChar c) :
    b.toNat = c.toNat ∧ c.toNat < 0x80 ∨ 0x80 ≤ b.toNat ∧ 0x80 ≤ c.toNat := by
  have hmax : c.toNat < 0x110000 := by
    have hv : c.toNat < 0xD800 ∨ 0xDFFF < c.toNat ∧ c.toNat < 0x110000 := c.valid
    omega
  have hcont : ∀ n, 0x80 ≤ (continuation n).toNat := fun n => by rw [toNat_continuation]; omega
  unfold encodeChar at h
  dsimp only at h
  split at h
  · next hc =>
    obtain rfl := List.mem_singleton.1 h
    exact .inl ⟨by simp; omega, hc⟩
  have hlead : ∀ k, 0x80 ≤ k → k < 0x100 → 0x80 ≤ (UInt8.ofNat k).toNat := fun k h h' => by
    simp
    omega
  refine .inr ⟨?_, by omega⟩
  split at h
  · simp only [List.mem_cons, List.not_mem_nil, or_false] at h
    rcases h with rfl | rfl
    exacts [hlead _ (by omega) (by omega), hcont _]
  split at h <;> simp only [List.mem_cons, List.not_mem_nil, or_false] at h
  · rcases h with rfl | rfl | rfl
    exacts [hlead _ (by omega) (by omega), hcont _, hcont _]
  · rcases h with rfl | rfl | rfl | rfl
    exacts [hlead _ (by omega) (by omega), hcont _, hcont _, hcont _]

end Logline.Text
