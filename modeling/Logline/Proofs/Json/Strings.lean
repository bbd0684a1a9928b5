import Logline.Json.Reader
import Logline.Proofs.Text.Escaping

/-!
Reading an escaped text gives the text back, whatever follows its closing quote
(`readString_escaped`).
-/

namespace Logline.Json

open Text

/-- The rest of a string after one of its characters has been read. -/
def andThen (c : Char) (r : Option (List Char × List Char)) : Option (List Char × List Char) :=
  r.bind fun r => some (c :: r.1, r.2)

theorem readString_plain {c : Char} {s : List Char} (hq : c ≠ '"') (hb : c ≠ '\\')
    (hc : 0x20 ≤ c.toNat) : readString (c :: s) = andThen c (readString s) := by
  have h : ¬ c.toNat < 0x20 := by omega
  simp [readString, hb, h, andThen]

theorem readString_letter {c letter : Char} {s : List Char} (h : unescape? letter = some c) :
    readString ('\\' :: letter :: s) = andThen c (readString s) := by
  have hu : letter ≠ 'u' := fun hl => by simp [hl, unescape?] at h
  simp [readString, hu, h, andThen]

theorem unescape?_of_namedEscape? {c letter : Char} (h : namedEscape? c = some letter) :
    unescape? letter = some c := by
  have hall : ∀ p ∈ [('"', '"'), ('\\', '\\'), ('\x08', 'b'), ('\x0c', 'f'), ('\n', 'n'),
      ('\r', 'r'), ('\t', 't')], unescape? p.2 = some p.1 := by decide
  exact hall _ (namedEscape?_eq_some h)

theorem hexValue?_hexLetter {n : Nat} (h : n < 16) : hexValue? (hexLetter n) = some n := by
  revert n
  decide

/-- The letters of a 16-bit unit. -/
theorem unit?_letters {n : Nat} (h : n < 0x10000) :
    unit? (hexLetter (n / 0x1000 % 16)) (hexLetter (n / 0x100 % 16)) (hexLetter (n / 16 % 16))
      (hexLetter (n % 16)) = some n := by
  have h1 := hexValue?_hexLetter (n := n / 0x1000 % 16) (by omega)
  have h2 := hexValue?_hexLetter (n := n / 0x100 % 16) (by omega)
  have h3 := hexValue?_hexLetter (n := n / 16 % 16) (by omega)
  have h4 := hexValue?_hexLetter (n := n % 16) (by omega)
  simp only [unit?, h1, h2, h3, h4, Option.bind_eq_bind, Option.bind_some, pure, Option.some.injEq]
  omega

/-- A unit that stands for a character is read alone, also before another escape. -/
theorem readString_unit {a b c d x : Char} {n : Nat} {s : List Char} (hn : unit? a b c d = some n)
    (hx : unitChar? n = some x) :
    readString ('\\' :: 'u' :: a :: b :: c :: d :: s) = andThen x (readString s) := by
  rw [readString.eq_def]
  split
  · next h => simp at h
  · next h =>
    simp only [List.cons.injEq, true_and] at h
    obtain ⟨rfl, rfl, rfl, rfl, rfl⟩ := h
    simp [hn, hx, andThen]
  · next h =>
    simp only [List.cons.injEq, true_and] at h
    obtain ⟨rfl, rfl, rfl, rfl, rfl⟩ := h
    simp [hn, hx, andThen]
  · next hshort h =>
    simp only [List.cons.injEq, true_and] at h
    obtain ⟨rfl, rfl⟩ := h
    exact (hshort a b c d s rfl rfl).elim
  · next hshort _ h =>
    simp only [List.cons.injEq] at h
    obtain ⟨rfl, rfl⟩ := h
    exact (hshort a b c d s rfl rfl).elim
  · next h => simp at h

theorem readString_pair {a b c d e f g h x : Char} {high low : Nat} {s : List Char}
    (hhigh : unit? a b c d = some high) (hlow : unit? e f g h = some low)
    (hnone : unitChar? high = none) (hx : pairChar? high low = some x) :
    readString ('\\' :: 'u' :: a :: b :: c :: d :: '\\' :: 'u' :: e :: f :: g :: h :: s) =
      andThen x (readString s) := by
  simp [readString, hhigh, hlow, hnone, hx, andThen]

theorem readString_unitLetters {n : Nat} {x : Char} (s : List Char) (hn : n < 0x10000)
    (hx : unitChar? n = some x) :
    readString (unitLetters n ++ s) = andThen x (readString s) :=
  readString_unit (unit?_letters hn) hx

theorem unitChar?_toNat {c : Char} (h : c.toNat < 0xD800) : unitChar? c.toNat = some c := by
  have h' : ¬ 0xD800 ≤ c.toNat := by omega
  simp [unitChar?, h', Char.ofNat_toNat]

/-- The two halves of a character beyond U+FFFF. -/
theorem pairChar?_halves {c : Char} (h : 0x10000 ≤ c.toNat) :
    pairChar? (0xD800 + (c.toNat - 0x10000) / 0x400) (0xDC00 + (c.toNat - 0x10000) % 0x400) =
      some c := by
  have hv : c.toNat < 0xD800 ∨ 0xDFFF < c.toNat ∧ c.toNat < 0x110000 := c.valid
  have hhalves : (0xD800 ≤ 0xD800 + (c.toNat - 0x10000) / 0x400 &&
      0xD800 + (c.toNat - 0x10000) / 0x400 < 0xDC00 &&
      0xDC00 ≤ 0xDC00 + (c.toNat - 0x10000) % 0x400 &&
      0xDC00 + (c.toNat - 0x10000) % 0x400 < 0xE000) = true := by
    simp
    omega
  have hsum : 0x10000 + (0xD800 + (c.toNat - 0x10000) / 0x400 - 0xD800) * 0x400 +
      (0xDC00 + (c.toNat - 0x10000) % 0x400 - 0xDC00) = c.toNat := by omega
  rw [pairChar?, if_pos (by simpa using hhalves), hsum, Char.ofNat_toNat]

theorem unitChar?_high {n : Nat} (h : n < 0x100000) : unitChar? (0xD800 + n / 0x400) = none := by
  have h' : 0xD800 + n / 0x400 < 0xE000 := by omega
  simp [unitChar?, h']

theorem readString_escapedChar (c : Char) (s : List Char) :
    readString (escapedChar c ++ s) = andThen c (readString s) := by
  have hv : c.toNat < 0xD800 ∨ 0xDFFF < c.toNat ∧ c.toNat < 0x110000 := c.valid
  unfold escapedChar
  split
  · next letter h => exact readString_letter (unescape?_of_namedEscape? h)
  next hnone =>
  have hquote : c ≠ '"' := fun hc => by simp [hc, namedEscape?] at hnone
  have hback : c ≠ '\\' := fun hc => by simp [hc, namedEscape?] at hnone
  split
  · next hp =>
    simp only [isPlain, Bool.and_eq_true, decide_eq_true_eq] at hp
    exact readString_plain hquote hback hp.1.1.1
  split
  · next hlow =>
    exact readString_unitLetters s (by omega) (unitChar?_toNat (by omega))
  split
  · exact readString_plain hquote hback (by omega)
  · next hhigh =>
    rw [List.append_assoc]
    exact readString_pair (unit?_letters (by omega)) (unit?_letters (by omega))
      (unitChar?_high (by omega)) (pairChar?_halves (by omega))

/-- An escaped text is read back up to its closing quote. -/
theorem readString_escaped (cs rest : List Char) :
    readString (escaped cs ++ '"' :: rest) = some (cs, rest) := by
  induction cs with
  | nil => simp [escaped, readString]
  | cons c cs ih =>
    have h := readString_escapedChar c (escaped cs ++ '"' :: rest)
    rw [ih] at h
    rwa [escaped, List.flatMap_cons, List.append_assoc]

end Logline.Json
