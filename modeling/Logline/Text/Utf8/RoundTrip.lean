import Logline.Text.Utf8

/-!
What `encode` writes is cut again into the characters it was made of (`segments_encode`), whatever
follows a character (`first?_encodeChar`).
-/

namespace Logline.Text

theorem toNat_continuation (n : Nat) : (continuation n).toNat = 0x80 + n % 0x40 := by
  simp [continuation]
  omega

theorem isContinuation_continuation (n : Nat) : isContinuation (continuation n) = true := by
  simp [isContinuation, toNat_continuation]
  omega

theorem Lead.of?_two {b : UInt8} {k : Nat} (hb : b.toNat = 0xC0 + k) (hlow : 2 ≤ k)
    (hhigh : k < 0x20) : Lead.of? b = some ⟨1, 0x80, 0xBF, k⟩ := by
  have h1 : ¬ 0xC0 + k < 0xC2 := by omega
  have h2 : 0xC0 + k < 0xE0 := by omega
  simp [Lead.of?, hb, h1, h2]

theorem Lead.of?_three {b : UInt8} {k : Nat} (hb : b.toNat = 0xE0 + k) (hk : k < 0x10) :
    Lead.of? b =
      some ⟨2, if k = 0 then 0xA0 else 0x80, if k = 0xD then 0x9F else 0xBF, k⟩ := by
  have h1 : ¬ 0xE0 + k < 0xC2 := by omega
  have h2 : ¬ 0xE0 + k < 0xE0 := by omega
  have h3 : 0xE0 + k < 0xF0 := by omega
  by_cases h0 : k = 0
  · simp [Lead.of?, hb, h0]
  · by_cases hd : k = 0xD
    · simp [Lead.of?, hb, hd]
    · have h4 : ¬ 0xE0 + k = 0xED := by omega
      simp [Lead.of?, hb, h0, hd, h1, h2, h3, h4]

theorem Lead.of?_four {b : UInt8} {k : Nat} (hb : b.toNat = 0xF0 + k) (hk : k < 5) :
    Lead.of? b =
      some ⟨3, if k = 0 then 0x90 else 0x80, if k = 4 then 0x8F else 0xBF, k⟩ := by
  obtain rfl | rfl | rfl | rfl | rfl : k = 0 ∨ k = 1 ∨ k = 2 ∨ k = 3 ∨ k = 4 := by omega
  all_goals simp [Lead.of?, hb]

/-- A first byte is followed by one in the range it announces, and by as many more continuation
bytes as it asks for. -/
theorem first?_lead {b b' : UInt8} {l : Lead} {rest : Bytes} (hb : 0x80 ≤ b.toNat)
    (hl : Lead.of? b = some l) (hlow : l.low ≤ b'.toNat) (hhigh : b'.toNat ≤ l.high)
    (hmore : 1 + ((rest.take (l.more - 1)).takeWhile isContinuation).length = l.more) :
    first? (b :: b' :: rest) = some (l.char (b' :: rest), l.more + 1) := by
  have : ¬ b.toNat < 0x80 := by omega
  simp [first?, this, hl, Lead.goesOn, hlow, hhigh, hmore]

theorem first?_encodeChar (c : Char) (rest : Bytes) :
    first? (encodeChar c ++ rest) = some (c, (encodeChar c).length) := by
  have hc := Char.ofNat_toNat c
  have hv : c.toNat < 0xD800 ∨ 0xDFFF < c.toNat ∧ c.toNat < 0x110000 := c.valid
  unfold encodeChar
  generalize c.toNat = n at hc hv
  have h0 := toNat_continuation n
  have h6 := toNat_continuation (n / 0x40)
  have h12 := toNat_continuation (n / 0x1000)
  subst hc
  dsimp only
  by_cases h1 : n < 0x80
  · have hn : (UInt8.ofNat n).toNat = n := by simp; omega
    simp [first?, hn, h1]
  by_cases h2 : n < 0x800
  · have hn : (UInt8.ofNat (0xC0 + n / 0x40)).toNat = 0xC0 + n / 0x40 := by simp; omega
    have hl := Lead.of?_two hn (by omega) (by omega)
    simp only [h1, h2, if_true, if_false, List.cons_append, List.nil_append]
    rw [first?_lead (by omega) hl (by dsimp only; omega) (by dsimp only; omega) (by simp)]
    have : n / 0x40 * 0x40 + (continuation n).toNat % 0x40 = n := by omega
    simp [Lead.char, this]
  by_cases h3 : n < 0x10000
  · have hn : (UInt8.ofNat (0xE0 + n / 0x1000)).toNat = 0xE0 + n / 0x1000 := by simp; omega
    have hl := Lead.of?_three hn (by omega)
    simp only [h1, h2, h3, if_true, if_false, List.cons_append, List.nil_append]
    rw [first?_lead (by omega) hl (by dsimp only; split <;> omega) (by dsimp only; split <;> omega)
      (by simp [isContinuation_continuation])]
    have : (n / 0x1000 * 0x40 + (continuation (n / 0x40)).toNat % 0x40) * 0x40 +
        (continuation n).toNat % 0x40 = n := by omega
    simp [Lead.char, this]
  · have hn : (UInt8.ofNat (0xF0 + n / 0x40000)).toNat = 0xF0 + n / 0x40000 := by simp; omega
    have hl := Lead.of?_four hn (by omega)
    simp only [h1, h2, h3, if_false, List.cons_append, List.nil_append]
    rw [first?_lead (by omega) hl (by dsimp only; split <;> omega) (by dsimp only; split <;> omega)
      (by simp [isContinuation_continuation])]
    have : ((n / 0x40000 * 0x40 + (continuation (n / 0x1000)).toNat % 0x40) * 0x40 +
        (continuation (n / 0x40)).toNat % 0x40) * 0x40 + (continuation n).toNat % 0x40 = n := by
      omega
    simp [Lead.char, this]

theorem segmentsFrom_append (s rest : Bytes) :
    segmentsFrom s.length (s ++ rest) = segmentsFrom 0 rest := by
  induction s with
  | nil => rfl
  | cons b s ih => exact ih

theorem encodeChar_ne_nil (c : Char) : encodeChar c ≠ [] := by
  unfold encodeChar
  grind

theorem segments_encodeChar_append (c : Char) (rest : Bytes) :
    segments (encodeChar c ++ rest) = .char c :: segments rest := by
  obtain ⟨b, bs, hb⟩ := List.exists_cons_of_ne_nil (encodeChar_ne_nil c)
  have hf := first?_encodeChar c rest
  simp only [segments, hb, List.cons_append] at *
  rw [segmentsFrom, hf]
  simp [segmentsFrom_append]

theorem segments_encode (cs : List Char) : segments (encode cs) = cs.map .char := by
  induction cs with
  | nil => rfl
  | cons c cs ih =>
    rw [encode, List.flatMap_cons, segments_encodeChar_append, List.map_cons]
    exact congrArg _ ih

theorem decode?_encode (cs : List Char) : decode? (encode cs) = some (String.ofList cs) := by
  simp [decode?, segments_encode, Function.comp_def]

end Logline.Text
