import Mathlib.Data.List.Basic
import Logline.Text.Utf8.RoundTrip

/-!
What `decode?` accepts is what `encode` writes (`eq_bytes_of_decode?`): a character read off the
start of a sequence stands there exactly as it is written (`eq_encodeChar_of_first?`).
-/

namespace Logline.Text

/-- One continuation byte is the one that carries its six bits. -/
theorem eq_continuation {b : UInt8} {n : Nat} (hb : isContinuation b = true)
    (hn : n % 0x40 = b.toNat % 0x40) : continuation n = b := by
  apply UInt8.toNat_inj.1
  simp only [isContinuation, Bool.and_eq_true, decide_eq_true_eq] at hb
  rw [toNat_continuation]
  omega

theorem toNat_ofNat_of_valid {n : Nat} (h : n < 0xD800 ∨ 0xDFFF < n ∧ n < 0x110000) :
    (Char.ofNat n).toNat = n := by
  have hv : n.isValidChar := h
  have hc : Char.ofNat n = Char.ofNatAux n hv := dif_pos hv
  rw [hc]
  rfl

theorem ofNat_eq_of_toNat {b : UInt8} {n : Nat} (h : n = b.toNat) : UInt8.ofNat n = b := by
  subst h
  exact UInt8.ofNat_toNat

/-- The bytes of a two-byte character, told from its number. -/
theorem encodeChar_two {n : Nat} {b b₁ : UInt8} (hlow : 0x80 ≤ n) (hhigh : n < 0x800)
    (h₀ : b.toNat = 0xC0 + n / 0x40) (hc₁ : isContinuation b₁ = true)
    (h₁ : b₁.toNat % 0x40 = n % 0x40) : encodeChar (Char.ofNat n) = [b, b₁] := by
  have hn := toNat_ofNat_of_valid (n := n) (by omega)
  have h2 : ¬ n < 0x80 := by omega
  simp only [encodeChar, hn, h2, hhigh, if_true, if_false]
  rw [ofNat_eq_of_toNat h₀.symm, eq_continuation hc₁ h₁.symm]

theorem encodeChar_three {n : Nat} {b b₁ b₂ : UInt8} (hlow : 0x800 ≤ n) (hhigh : n < 0x10000)
    (hv : n < 0xD800 ∨ 0xDFFF < n) (h₀ : b.toNat = 0xE0 + n / 0x1000)
    (hc₁ : isContinuation b₁ = true) (h₁ : b₁.toNat % 0x40 = n / 0x40 % 0x40)
    (hc₂ : isContinuation b₂ = true) (h₂ : b₂.toNat % 0x40 = n % 0x40) :
    encodeChar (Char.ofNat n) = [b, b₁, b₂] := by
  have hn := toNat_ofNat_of_valid (n := n) (by omega)
  have h2 : ¬ n < 0x80 := by omega
  have h3 : ¬ n < 0x800 := by omega
  simp only [encodeChar, hn, h2, h3, hhigh, if_true, if_false]
  rw [ofNat_eq_of_toNat h₀.symm, eq_continuation hc₁ h₁.symm, eq_continuation hc₂ h₂.symm]

theorem encodeChar_four {n : Nat} {b b₁ b₂ b₃ : UInt8} (hlow : 0x10000 ≤ n)
    (hhigh : n < 0x110000) (h₀ : b.toNat = 0xF0 + n / 0x40000)
    (hc₁ : isContinuation b₁ = true) (h₁ : b₁.toNat % 0x40 = n / 0x1000 % 0x40)
    (hc₂ : isContinuation b₂ = true) (h₂ : b₂.toNat % 0x40 = n / 0x40 % 0x40)
    (hc₃ : isContinuation b₃ = true) (h₃ : b₃.toNat % 0x40 = n % 0x40) :
    encodeChar (Char.ofNat n) = [b, b₁, b₂, b₃] := by
  have hn := toNat_ofNat_of_valid (n := n) (by omega)
  have h2 : ¬ n < 0x80 := by omega
  have h3 : ¬ n < 0x800 := by omega
  have h4 : ¬ n < 0x10000 := by omega
  simp only [encodeChar, hn, h2, h3, h4, if_false]
  rw [ofNat_eq_of_toNat h₀.symm, eq_continuation hc₁ h₁.symm, eq_continuation hc₂ h₂.symm,
    eq_continuation hc₃ h₃.symm]

/-- The bytes that `goesOn` counts, if it counts all that are asked for. -/
theorem Lead.exists_of_goesOn {l : Lead} {rest : Bytes} (hm : 0 < l.more)
    (h : l.goesOn rest = l.more) :
    ∃ b bs tail, rest = b :: bs ++ tail ∧ l.low ≤ b.toNat ∧ b.toNat ≤ l.high ∧
      bs.length + 1 = l.more ∧ ∀ c ∈ bs, isContinuation c = true := by
  cases rest with
  | nil => simp [goesOn] at h; omega
  | cons b t =>
    simp only [goesOn, Bool.and_eq_true, decide_eq_true_eq] at h
    split at h
    · next hb =>
      have hlen : ((t.take (l.more - 1)).takeWhile isContinuation).length = l.more - 1 := by omega
      have hall : (t.take (l.more - 1)).takeWhile isContinuation = t.take (l.more - 1) := by
        apply (List.takeWhile_prefix isContinuation).eq_of_length_le
        rw [hlen]
        exact List.length_take_le ..
      refine ⟨b, t.take (l.more - 1), t.drop (l.more - 1), by simp, hb.1, hb.2, ?_, ?_⟩
      · rw [← hall]
        omega
      · intro c hc
        rw [← hall] at hc
        exact List.all_eq_true.1 List.all_takeWhile c hc
    · omega

/-- The three kinds of first bytes, by how many bytes follow. -/
theorem Lead.of?_eq_some {b : UInt8} {l : Lead} (h : Lead.of? b = some l) :
    l.more = 1 ∧ l.low = 0x80 ∧ l.high = 0xBF ∧ b.toNat = 0xC0 + l.bits ∧ 2 ≤ l.bits ∧ l.bits < 0x20 ∨
    l.more = 2 ∧ l.low = (if l.bits = 0 then 0xA0 else 0x80) ∧
      l.high = (if l.bits = 0xD then 0x9F else 0xBF) ∧ b.toNat = 0xE0 + l.bits ∧ l.bits < 0x10 ∨
    l.more = 3 ∧ l.low = (if l.bits = 0 then 0x90 else 0x80) ∧
      l.high = (if l.bits = 4 then 0x8F else 0xBF) ∧ b.toNat = 0xF0 + l.bits ∧ l.bits < 5 := by
  unfold Lead.of? at h
  dsimp only at h
  repeat' split at h
  all_goals cases h
  all_goals grind

/-- A character of several bytes, led by `b`, stands there as it is written. -/
theorem eq_encodeChar_of_goesOn {b : UInt8} {rest : Bytes} {l : Lead} (hl : Lead.of? b = some l)
    (hgo : l.goesOn rest = l.more) :
    ∃ tail, b :: rest = encodeChar (l.char rest) ++ tail ∧
      l.more + 1 = (encodeChar (l.char rest)).length := by
  have hcases := Lead.of?_eq_some hl
  obtain ⟨b₁, bs, tail, rfl, hlow, hhigh, hlen, hbs⟩ := Lead.exists_of_goesOn (by omega) hgo
  have hc₁ : isContinuation b₁ = true := by
    simp only [isContinuation, Bool.and_eq_true, decide_eq_true_eq]
    grind
  rcases hcases with ⟨hm, hlo, hhi, hb, hk⟩ | ⟨hm, hlo, hhi, hb, hk⟩ | ⟨hm, hlo, hhi, hb, hk⟩
  · obtain rfl : bs = [] := List.eq_nil_of_length_eq_zero (by omega)
    have he := encodeChar_two (n := l.bits * 0x40 + b₁.toNat % 0x40) (b := b)
      (by omega) (by omega) (by omega) hc₁ (by omega)
    have hchar : l.char ([b₁] ++ tail) = Char.ofNat (l.bits * 0x40 + b₁.toNat % 0x40) := by
      simp [Lead.char, hm]
    rw [hchar, he]
    exact ⟨tail, rfl, by simp [hm]⟩
  · obtain ⟨b₂, rfl⟩ := List.length_eq_one_iff.1 (show bs.length = 1 by omega)
    have hc₂ := hbs b₂ (by simp)
    have he := encodeChar_three
      (n := (l.bits * 0x40 + b₁.toNat % 0x40) * 0x40 + b₂.toNat % 0x40) (b := b)
      (by grind) (by omega) (by grind) (by omega) hc₁ (by omega) hc₂ (by omega)
    have hchar : l.char ([b₁, b₂] ++ tail) =
        Char.ofNat ((l.bits * 0x40 + b₁.toNat % 0x40) * 0x40 + b₂.toNat % 0x40) := by
      simp [Lead.char, hm]
    rw [hchar, he]
    exact ⟨tail, rfl, by simp [hm]⟩
  · obtain ⟨b₂, b₃, rfl⟩ := List.length_eq_two.1 (show bs.length = 2 by omega)
    have hc₂ := hbs b₂ (by simp)
    have hc₃ := hbs b₃ (by simp)
    have he := encodeChar_four
      (n := ((l.bits * 0x40 + b₁.toNat % 0x40) * 0x40 + b₂.toNat % 0x40) * 0x40 +
        b₃.toNat % 0x40) (b := b)
      (by grind) (by grind) (by omega) hc₁ (by omega) hc₂ (by omega) hc₃ (by omega)
    have hchar : l.char ([b₁, b₂, b₃] ++ tail) =
        Char.ofNat (((l.bits * 0x40 + b₁.toNat % 0x40) * 0x40 + b₂.toNat % 0x40) * 0x40 +
          b₃.toNat % 0x40) := by
      simp [Lead.char, hm]
    rw [hchar, he]
    exact ⟨tail, rfl, by simp [hm]⟩

/-- A character read off the start of a sequence stands there as it is written. -/
theorem eq_encodeChar_of_first? {s : Bytes} {c : Char} {n : Nat} (h : first? s = some (c, n)) :
    ∃ rest, s = encodeChar c ++ rest ∧ n = (encodeChar c).length := by
  cases s with
  | nil => simp [first?] at h
  | cons b rest =>
    rw [first?] at h
    split at h
    · next hb =>
      obtain ⟨rfl, rfl⟩ : Char.ofNat b.toNat = c ∧ 1 = n := by simpa using h
      have hn := toNat_ofNat_of_valid (n := b.toNat) (by omega)
      exact ⟨rest, by simp [encodeChar, hn, hb], by simp [encodeChar, hn, hb]⟩
    split at h
    · simp at h
    next l hl =>
    split at h
    · next hgo =>
      obtain ⟨rfl, rfl⟩ : l.char rest = c ∧ l.more + 1 = n := by simpa using h
      exact eq_encodeChar_of_goesOn hl hgo
    · simp at h

/-- A sequence cut into characters only is what these are written as. -/
theorem eq_encode_of_segments {s : Bytes} {cs : List Char} (h : segments s = cs.map .char) :
    s = encode cs := by
  induction cs generalizing s with
  | nil =>
    cases s with
    | nil => rfl
    | cons b rest =>
      simp only [segments, segmentsFrom, List.map_nil] at h
      split at h <;> simp at h
  | cons c cs ih =>
    cases s with
    | nil => simp [segments, segmentsFrom] at h
    | cons b rest =>
      cases hf : first? (b :: rest) with
      | none => simp [segments, segmentsFrom, hf] at h
      | some found =>
        obtain ⟨c', n⟩ := found
        obtain ⟨tail, hs, hn⟩ := eq_encodeChar_of_first? hf
        obtain ⟨b', bs, hb⟩ := List.exists_cons_of_ne_nil (encodeChar_ne_nil c')
        have hrest : rest = bs ++ tail := by
          rw [hb] at hs
          exact (List.cons.inj hs).2
        have hlen : n - 1 = bs.length := by simp [hn, hb]
        simp only [segments, segmentsFrom, hf, List.map_cons, List.cons.injEq,
          Segment.char.injEq] at h
        obtain ⟨rfl, h⟩ := h
        rw [hlen, hrest, segmentsFrom_append] at h
        rw [hs, ih h]
        rfl

theorem eq_map_char_of_all {segs : List Segment}
    (h : segs.all (fun | .char _ => true | .bad _ => false) = true) :
    segs = (segs.filterMap fun | .char c => some c | .bad _ => none).map .char := by
  induction segs with
  | nil => rfl
  | cons seg rest ih =>
    cases seg with
    | char c => simpa using ih (by simpa using h)
    | bad b => simp at h

/-- Only well-formed sequences are texts, and each is the one its text is written as. -/
theorem eq_bytes_of_decode? {s : Bytes} {text : String} (h : decode? s = some text) :
    s = bytes text := by
  simp only [decode?] at h
  split at h
  · next hall =>
    obtain rfl := Option.some.inj h
    rw [bytes, String.toList_ofList]
    exact eq_encode_of_segments (eq_map_char_of_all hall)
  · simp at h

end Logline.Text
