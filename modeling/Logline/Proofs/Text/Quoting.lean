import Logline.Text.Quoted

/-!
Texts in quotes can be told apart. No shown character is the beginning of another one, and none
begins with the quote, so what stands in quotes ends where its own text does.
-/

namespace Logline.Text

/-! ### Hexadecimal digits -/

theorem digitChar_inj {m n : Nat} (hm : m < 16) (hn : n < 16)
    (h : Nat.digitChar m = Nat.digitChar n) : m = n := by
  have hall : ∀ a b : Fin 16, Nat.digitChar a = Nat.digitChar b → a = b := by decide
  exact congrArg Fin.val (hall ⟨m, hm⟩ ⟨n, hn⟩ h)

theorem toDigits_inj {m n : Nat} (h : Nat.toDigits 16 m = Nat.toDigits 16 n) : m = n := by
  induction m using Nat.strongRecOn generalizing n with
  | ind m ih =>
    have hne : ∀ k, Nat.toDigits 16 k ≠ [] := fun k => by
      rw [Nat.toDigits_eq_if (by decide)]
      split <;> simp
    rw [Nat.toDigits_eq_if (by decide), Nat.toDigits_eq_if (n := n) (by decide)] at h
    split at h <;> split at h
    · next hm hn => exact digitChar_inj hm hn (by simpa using h)
    · simp [List.cons_eq_append_iff, hne] at h
    · simp [List.append_eq_cons_iff, hne] at h
    · next hm hn =>
      obtain ⟨hfront, hlast⟩ := List.append_inj' h rfl
      have hdiv : m / 16 = n / 16 := ih (m / 16) (by omega) hfront
      have hmod : m % 16 = n % 16 :=
        digitChar_inj (Nat.mod_lt _ (by decide)) (Nat.mod_lt _ (by decide)) (by simpa using hlast)
      omega

theorem brace_not_mem_toDigits (n : Nat) : '\x7d' ∉ Nat.toDigits 16 n := by
  have hall : ∀ a : Fin 16, '\x7d' ≠ Nat.digitChar a := by decide
  induction n using Nat.strongRecOn with
  | ind n ih =>
    rw [Nat.toDigits_eq_if (by decide)]
    split
    · next hn => exact fun h => hall ⟨n, hn⟩ (List.mem_singleton.1 h)
    · have hlast := hall ⟨n % 16, Nat.mod_lt _ (by decide)⟩
      exact fun h => (List.mem_append.1 h).elim (ih (n / 16) (by omega))
        fun h => hlast (List.mem_singleton.1 h)

/-- Digits end at the brace behind them. -/
theorem toDigits_append_inj {m n : Nat} {x y : List Char}
    (h : Nat.toDigits 16 m ++ '\x7d' :: x = Nat.toDigits 16 n ++ '\x7d' :: y) : m = n ∧ x = y := by
  have htake : ∀ k (rest : List Char),
      (Nat.toDigits 16 k ++ '\x7d' :: rest).takeWhile (· ≠ '\x7d') = Nat.toDigits 16 k := by
    intro k rest
    rw [List.takeWhile_append_of_pos fun c hc => by
      simpa using fun he : c = '\x7d' => brace_not_mem_toDigits k (he ▸ hc)]
    simp
  have hdigits : Nat.toDigits 16 m = Nat.toDigits 16 n := by rw [← htake m x, h, htake n y]
  rw [hdigits] at h
  exact ⟨toDigits_inj hdigits, by simpa using h⟩

/-! ### Shown characters -/

/-- The character a letter behind a backslash stands for. -/
def ofLetter (letter : Char) : Char :=
  if letter = '0' then '\x00' else if letter = 't' then '\t' else if letter = 'r' then '\r'
  else if letter = 'n' then '\n' else letter

/-- What shows a character in double quotes. -/
inductive Shows (c : Char) : List Char → Prop where
  | itself : c ≠ '\\' → c ≠ '"' → Shows c [c]
  | letter (l : Char) : l ≠ 'u' → ofLetter l = c → Shows c ['\\', l]
  | number : Shows c ('\\' :: 'u' :: '\x7b' :: Nat.toDigits 16 c.toNat ++ ['\x7d'])

theorem shows_shownChar (c : Char) : Shows c (shownChar '"' c).toList := by
  unfold shownChar
  split
  · next h => exact .letter '0' (by decide) h.symm
  split
  · next h => exact .letter 't' (by decide) h.symm
  split
  · next h => exact .letter 'r' (by decide) h.symm
  split
  · next h => exact .letter 'n' (by decide) h.symm
  split
  · next h =>
    have hc : c = '\\' ∨ c = '"' := by simpa using h
    rcases hc with rfl | rfl
    · exact .letter '\\' (by decide) rfl
    · exact .letter '"' (by decide) rfl
  next h =>
  split
  · simpa [hexText] using Shows.number (c := c)
  · simp only [Bool.or_eq_true, decide_eq_true_eq, not_or] at h
    simpa using Shows.itself h.1 h.2

variable {c d : Char} {a b x y : List Char}

/-- A shown character ends before anything that follows. -/
theorem Shows.append_inj (ha : Shows c a) (hb : Shows d b) (h : a ++ x = b ++ y) :
    c = d ∧ x = y := by
  cases ha with
  | itself hback =>
    cases hb with
    | itself => simpa using h
    | letter => exact absurd (List.cons.inj h).1 hback
    | number => exact absurd (List.cons.inj h).1 hback
  | letter l hu hl =>
    cases hb with
    | itself hback => exact absurd (List.cons.inj h).1.symm hback
    | letter l' _ hl' =>
      obtain ⟨-, hletter, hrest⟩ : True ∧ l = l' ∧ x = y := by simpa using h
      exact ⟨by rw [← hl, ← hl', hletter], hrest⟩
    | number => exact absurd (List.cons.inj (List.cons.inj h).2).1 hu
  | number =>
    cases hb with
    | itself hback => exact absurd (List.cons.inj h).1.symm hback
    | letter l hu => exact absurd (List.cons.inj (List.cons.inj h).2).1.symm hu
    | number =>
      obtain ⟨hnumber, hrest⟩ := toDigits_append_inj (x := x) (y := y) (by simpa using h)
      exact ⟨Char.toNat_inj.1 hnumber, hrest⟩

theorem Shows.not_quote (h : Shows c a) : a ++ x ≠ '"' :: y := by
  cases h with
  | itself _ hquote => exact fun h => hquote (List.cons.inj h).1
  | letter => exact fun h => absurd (List.cons.inj h).1 (by decide)
  | number => exact fun h => absurd (List.cons.inj h).1 (by decide)

/-! ### Quoted texts -/

def shownLetters (cs : List Char) : List Char := cs.flatMap fun c => (shownChar '"' c).toList

theorem toList_quoted (s : String) :
    (quoted s).toList = '"' :: (shownLetters s.toList ++ ['"']) := by
  simp [quoted, shownLetters, List.flatMap_def, Function.comp_def]

theorem shownLetters_append_inj (as bs : List Char)
    (h : shownLetters as ++ '"' :: x = shownLetters bs ++ '"' :: y) : as = bs ∧ x = y := by
  induction as generalizing bs with
  | nil =>
    cases bs with
    | nil => simpa [shownLetters] using h
    | cons d bs =>
      rw [shownLetters, shownLetters, List.flatMap_cons, List.append_assoc] at h
      exact absurd h.symm (shows_shownChar d).not_quote
  | cons c as ih =>
    cases bs with
    | nil =>
      rw [shownLetters, shownLetters, List.flatMap_cons, List.append_assoc] at h
      exact absurd h (shows_shownChar c).not_quote
    | cons d bs =>
      simp only [shownLetters, List.flatMap_cons, List.append_assoc] at h
      obtain ⟨rfl, hrest⟩ := (shows_shownChar c).append_inj (shows_shownChar d) h
      obtain ⟨rfl, hxy⟩ := ih bs hrest
      exact ⟨rfl, hxy⟩

/-- **A text in quotes tells the text**, whatever follows. -/
theorem quoted_append_inj {s t u v : String} (h : quoted s ++ u = quoted t ++ v) :
    s = t ∧ u = v := by
  have hlist := congrArg String.toList h
  simp only [String.toList_append, toList_quoted, List.cons_append, List.append_assoc,
    List.cons.injEq, true_and, List.nil_append] at hlist
  obtain ⟨hst, huv⟩ := shownLetters_append_inj _ _ hlist
  exact ⟨String.toList_inj.1 hst, String.toList_inj.1 huv⟩

end Logline.Text
