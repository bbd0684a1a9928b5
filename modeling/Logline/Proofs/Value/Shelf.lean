import Mathlib.Data.List.GetD
import Logline.Program
import Logline.Value.Shelf
import Logline.Proofs.Value.Merging

/-!
Maps on the shelf. Rows that are filled stay in step and their index tells exactly where each key is
(`Builder.Exact`), so that putting a pair does to their entries what `Pairs.insert` does. Whatever
maps are made and put together, each holds what the pairs it was given say one after the other
(`Rows.Of`), and no row that is on the shelf is ever written to again (`Maps.Sound.rows_step`). So all
maps that were ever got stay whole (`Maps.stay_whole`).
-/

namespace Logline

variable {α : Type}

/-! ### Two rows as entries -/

namespace Rows

variable {r : Rows α} {given new : List (String × α)} {key : String} {v : α}

/-- A value for each key. -/
def InStep (r : Rows α) : Prop := r.keys.length = r.values.length

theorem keys_entries (h : r.InStep) : r.entries.map Prod.fst = r.keys :=
  List.map_fst_zip (Nat.le_of_eq h)

/-- To look for a key's place first finds the same as to go through the pairs. -/
theorem get?_eq_lookup (h : r.InStep) (key : String) : r.get? key = r.entries.lookup key := by
  obtain ⟨keys, values⟩ := r
  induction keys generalizing values with
  | nil => rfl
  | cons k keys ih =>
    cases values with
    | nil => simp [InStep] at h
    | cons w values =>
      have hrest := ih values (Nat.succ.inj h)
      simp only [get?, entries, List.zip_cons_cons] at hrest ⊢
      rw [List.idxOf?_cons, List.lookup_cons, ← hrest]
      by_cases hk : k = key
      · simp [hk]
      · have hk' : (key == k) = false := beq_eq_false_iff_ne.2 (Ne.symm hk)
        cases keys.idxOf? key <;> simp [hk, hk']

theorem lookup_eq_some_iff_of_nodup {es : List (String × α)} (h : (es.map Prod.fst).Nodup) :
    es.lookup key = some v ↔ (key, v) ∈ es := by
  induction es with
  | nil => simp
  | cons e es ih =>
    obtain ⟨k, w⟩ := e
    obtain ⟨hk, hes⟩ := List.nodup_cons.1 h
    rw [List.lookup_cons, List.mem_cons]
    by_cases hkey : key = k
    · subst hkey
      have hnot : (key, v) ∉ es := fun hmem => hk (List.mem_map.2 ⟨(key, v), hmem, rfl⟩)
      simp [hnot, eq_comm]
    · simp [beq_eq_false_iff_ne.2 hkey, hkey, ih hes]

/-- Putting a value over another leaves everything else. -/
theorem entries_set (h : r.InStep) (hnodup : r.keys.Nodup) {i : Nat} (hi : r.keys[i]? = some key) :
    entries ⟨r.keys, r.values.set i v⟩ = Pairs.insert key v r.entries := by
  obtain ⟨keys, values⟩ := r
  simp only [entries]
  induction keys generalizing values i with
  | nil => simp at hi
  | cons k keys ih =>
    obtain ⟨hk, hkeys⟩ := List.nodup_cons.1 hnodup
    cases values with
    | nil => simp [InStep] at h
    | cons w values =>
      cases i with
      | zero =>
        obtain rfl : k = key := by simpa using hi
        simp [Pairs.insert]
      | succ i =>
        have hi' : keys[i]? = some key := by simpa using hi
        have hne : k ≠ key := fun hk' => hk (hk' ▸ List.mem_of_getElem? hi')
        rw [List.set_cons_succ, List.zip_cons_cons, List.zip_cons_cons, Pairs.insert, if_neg hne,
          ih values (Nat.succ.inj h) hkeys hi']

theorem insert_of_not_mem {es : List (String × α)} (h : key ∉ es.map Prod.fst) :
    Pairs.insert key v es = es ++ [(key, v)] := by
  induction es with
  | nil => rfl
  | cons e es ih =>
    obtain ⟨k, w⟩ := e
    rw [List.map_cons, List.mem_cons, not_or] at h
    rw [Pairs.insert, if_neg (Ne.symm h.1), ih h.2]
    rfl

theorem entries_snoc (h : r.InStep) (hkey : key ∉ r.keys) :
    entries ⟨r.keys ++ [key], r.values ++ [v]⟩ = Pairs.insert key v r.entries := by
  rw [insert_of_not_mem (by rwa [keys_entries h])]
  exact List.zip_append h

/-! ### What a map was given -/

/-- Rows in step that hold what the pairs say one after the other. -/
structure Of (r : Rows α) (given : List (String × α)) : Prop where
  inStep : r.InStep
  entries : r.entries = Pairs.insertAll [] given

namespace Of

theorem empty : (empty : Rows α).Of [] := ⟨rfl, rfl⟩

/-- The map of the same pairs as the running program has it. -/
theorem entries_of (h : r.Of given) {p : Pairs α} (hp : p.IsOf given) : r.entries = p.entries :=
  h.entries.trans hp.entries.symm

theorem firsts (h : r.Of given) : FirstsOf (given.map Prod.fst) r.keys := by
  rw [← keys_entries h.inStep, h.entries]
  exact Pairs.firsts_insertAll given

theorem nodup (h : r.Of given) : r.keys.Nodup := h.firsts.nodup

theorem get? (h : r.Of given) (key : String) : r.get? key = given.reverse.lookup key := by
  rw [get?_eq_lookup h.inStep, h.entries, Pairs.lookup_insertAll]
  exact Option.or_none

theorem get?_iff (h : r.Of given) : r.get? key = some v ↔ (key, v) ∈ r.entries := by
  have hnodup : (r.entries.map Prod.fst).Nodup := by
    rw [keys_entries h.inStep]
    exact h.nodup
  rw [get?_eq_lookup h.inStep, lookup_eq_some_iff_of_nodup hnodup]

theorem nil_of_isEmpty (h : r.Of given) (hempty : r.keys.isEmpty = true) : given = [] := by
  have hentries := h.entries
  rw [Rows.entries, List.isEmpty_iff.1 hempty] at hentries
  exact Pairs.insertAll_eq_nil hentries.symm

end Of

end Rows

/-! ### Builder a copy -/

namespace Builder

variable {index : List (String × Nat)} {keys : List String} {key : String}

/-- The index tells the place of each key, and of nothing else. -/
def Exact (index : List (String × Nat)) (keys : List String) : Prop :=
  ∀ key i, index.lookup key = some i ↔ keys[i]? = some key

theorem Exact.not_mem (h : Exact index keys) (hnone : index.lookup key = none) : key ∉ keys := by
  intro hmem
  obtain ⟨i, hi⟩ := List.getElem?_of_mem hmem
  rw [(h key i).2 hi] at hnone
  cases hnone

theorem Exact.snoc (h : Exact index keys) (hkey : key ∉ keys) :
    Exact ((key, keys.length) :: index) (keys ++ [key]) := by
  intro k i
  rw [List.lookup_cons]
  by_cases hk : k = key
  · subst hk
    have hnot : keys[i]? ≠ some k := fun hi => hkey (List.mem_of_getElem? hi)
    rw [List.getElem?_append]
    by_cases hi : i < keys.length
    · have hne : keys.length ≠ i := by omega
      simp [hi, hne]
      exact fun h => hnot (by rw [List.getElem?_eq_getElem hi, h])
    · simp [hi, List.getElem?_singleton]
      omega
  · rw [beq_eq_false_iff_ne.2 hk]
    refine (h k i).trans ?_
    rw [List.getElem?_append]
    by_cases hi : i < keys.length
    · simp [hi]
    · simp [hi, List.getElem?_singleton, Ne.symm hk]

theorem exact_zipIdx (h : keys.Nodup) : Exact keys.zipIdx.reverse keys := by
  induction keys using List.reverseRecOn with
  | nil => simp [Exact]
  | append_singleton keys key ih =>
    obtain ⟨hkeys, -, hkey⟩ := List.nodup_append.1 h
    have hnot : key ∉ keys := fun hmem => hkey key hmem key (List.mem_singleton_self _) rfl
    have hindex : (keys ++ [key]).zipIdx.reverse = (key, keys.length) :: keys.zipIdx.reverse := by
      simp [List.zipIdx_append]
    rw [hindex]
    exact (ih hkeys).snoc hnot

end Builder

namespace Shelf

variable {s s' old : Shelf α} {r : Rows α} {m n : Spot} {given new : List (String × α)}

theorem rows_length (old : Shelf α) (r : Rows α) : rows (old ++ [r]) (some old.length) = r := by
  simp [rows]

theorem modify_length (old : Shelf α) (r : Rows α) (f : Rows α → Rows α) :
    (old ++ [r]).modify old.length f = old ++ [f r] := by
  induction old with
  | nil => rfl
  | cons a old ih => simpa using ih

/-- The shelf with a copy that is being filled: rows at the end, an exact index of their keys, and
entries that are those of the base with the pairs put in so far. -/
structure Fills (old : Shelf α) (t : Shelf α × Builder) (given : List (String × α)) : Prop where
  target : t.2.target = old.length
  rows : ∃ r : Rows α, t.1 = old ++ [r] ∧ r.Of given ∧ Builder.Exact t.2.index r.keys

theorem fills_copy (h : (s.rows m).Of given) : Fills s (s.copy m) given :=
  ⟨rfl, s.rows m, rfl, h, Builder.exact_zipIdx h.nodup⟩

/-- One pair more. -/
theorem Fills.put {t : Shelf α × Builder} (h : Fills old t given) (e : String × α) :
    Fills old (put t e) (given ++ [e]) := by
  obtain ⟨s, target, index⟩ := t
  obtain ⟨key, v⟩ := e
  obtain ⟨htarget, r, rfl, hr, hexact⟩ := h
  obtain rfl : target = old.length := htarget
  have hgiven : Pairs.insertAll [] (given ++ [(key, v)]) = Pairs.insert key v r.entries := by
    rw [Pairs.insertAll_snoc, hr.entries]
  unfold Shelf.put
  cases hi : index.lookup key with
  | some i =>
    have hplace : r.keys[i]? = some key := (hexact key i).1 hi
    simp only [hi, modify_length]
    refine ⟨rfl, _, rfl, ⟨?_, ?_⟩, hexact⟩
    · simpa [Rows.InStep] using hr.inStep
    · rw [hgiven]
      exact Rows.entries_set hr.inStep hr.nodup hplace
  | none =>
    have hkey : key ∉ r.keys := hexact.not_mem hi
    simp only [hi, modify_length, rows_length]
    refine ⟨rfl, _, rfl, ⟨?_, ?_⟩, hexact.snoc hkey⟩
    · simpa [Rows.InStep] using hr.inStep
    · rw [hgiven]
      exact Rows.entries_snoc hr.inStep hkey

theorem Fills.putAll {t : Shelf α × Builder} (h : Fills old t given) (new : List (String × α)) :
    Fills old (new.foldl Shelf.put t) (given ++ new) := by
  induction new generalizing t given with
  | nil => rwa [List.append_nil]
  | cons e new ih =>
    rw [List.append_cons]
    exact ih (h.put e)

/-! ### Maps on the shelf -/

/-- A map on the shelf that holds what it was given. -/
structure Holds (s : Shelf α) (m : Spot) (given : List (String × α)) : Prop where
  stands : ∀ i, m = some i → i < s.length
  rows : (s.rows m).Of given

theorem holds_none (s : Shelf α) : s.Holds none [] := ⟨fun i h => absurd h (by simp), Rows.Of.empty⟩

/-- What stands on a shelf stays there when more is put behind it. -/
theorem rows_kept (h : s <+: s') (hm : ∀ i, m = some i → i < s.length) :
    s'.rows m = s.rows m := by
  obtain ⟨more, rfl⟩ := h
  cases m with
  | none => rfl
  | some i => exact List.getD_append _ _ _ _ (hm i rfl)

theorem Holds.mono (h : s.Holds m given) (hs : s <+: s') : s'.Holds m given := by
  refine ⟨fun i hi => Nat.lt_of_lt_of_le (h.stands i hi) hs.length_le, ?_⟩
  rw [rows_kept hs h.stands]
  exact h.rows

/-- What an operation comes to: a map that holds all it was given, and a shelf on which everything
stands as before. -/
structure Makes (s : Shelf α) (t : Shelf α × Spot) (given : List (String × α)) : Prop where
  kept : s <+: t.1
  holds : t.1.Holds t.2 given

theorem makes_build (h : s.Holds m given) (new : List (String × α)) :
    Makes s (s.build m new) (given ++ new) := by
  have hfills := (fills_copy h.rows).putAll new
  rw [build]
  generalize new.foldl put (s.copy m) = t at hfills
  obtain ⟨shelf, target, index⟩ := t
  obtain ⟨htarget, r, rfl, hr, -⟩ := hfills
  obtain rfl : target = s.length := htarget
  simp only [finish, rows_length]
  split
  · next hempty =>
    rw [hr.nil_of_isEmpty hempty]
    exact ⟨List.prefix_append .., holds_none _⟩
  · refine ⟨List.prefix_append .., fun i hi => ?_, ?_⟩
    · obtain rfl : s.length = i := Option.some.inj hi
      simp
    · rw [rows_length]
      exact hr

theorem makes_add (h : s.Holds m given) (new : List (String × α)) :
    Makes s (s.add m new) (given ++ new) := by
  unfold add
  split
  · next hempty =>
    rw [List.isEmpty_iff.1 hempty, List.append_nil]
    exact ⟨List.prefix_rfl, h⟩
  · exact makes_build h new

/-- Pairs may be taken from a map that holds them. -/
theorem Makes.of_entries {t : Shelf α × Spot} (h : Makes s t (given ++ r.entries))
    (hr : r.Of new) : Makes s t (given ++ new) := by
  refine ⟨h.kept, h.holds.stands, h.holds.rows.inStep, ?_⟩
  rw [h.holds.rows.entries, hr.entries, Pairs.insertAll_append, Pairs.insertAll_insertAll,
    Pairs.insertAll_append]

theorem makes_merge (h : s.Holds m given) (hn : s.Holds n new) :
    Makes s (s.merge m n) (given ++ new) := by
  have hfirst : (s.rows m).keys.isEmpty = true → Makes s (s, n) (given ++ new) := fun hempty => by
    rw [h.rows.nil_of_isEmpty hempty]
    exact ⟨List.prefix_rfl, hn⟩
  have hsecond : (s.rows n).keys.isEmpty = true → Makes s (s, m) (given ++ new) := fun hempty => by
    rw [hn.rows.nil_of_isEmpty hempty, List.append_nil]
    exact ⟨List.prefix_rfl, h⟩
  unfold merge
  split
  · split
    · next hempty => exact hsecond hempty
    split
    · next hempty => exact hfirst hempty
    · exact (makes_build h _).of_entries hn.rows
  · next hnone =>
    split
    · next hempty => exact hfirst hempty
    · next hempty =>
      -- the first is not empty, so it is the second that stands nowhere
      refine hsecond ?_
      cases m with
      | none => exact absurd rfl hempty
      | some i =>
        cases n with
        | none => rfl
        | some j => exact absurd rfl (hnone i j rfl)

end Shelf

/-! ### Maps of a program -/

/-- What is asked of maps. Those got before are named by when they were got; the first, got before
anything was asked, is the empty one. -/
inductive MapCall where
  | pairs (tokens : List Value)
  | add (base : Nat) (tokens : List Value)
  /-- The code of a key panics, once the pairs of the tokens before it are put in. -/
  | stopped (base : Nat) (tokens : List Value)
  | merge (one other : Nat)

/-- The shelf, and where the maps stand that were got. -/
structure Maps where
  shelf : Shelf Value
  got : List Spot

namespace Maps

open Run (tokenPairs)

def start : Maps := ⟨[], [none]⟩

/-- The map that was got then, the empty one if there is none. -/
def place (s : Maps) (i : Nat) : Spot := s.got.getD i none

def rows (s : Maps) (i : Nat) : Rows Value := s.shelf.rows (s.place i)

def take (s : Maps) (t : Shelf Value × Spot) : Maps := ⟨t.1, s.got ++ [t.2]⟩

def step (s : Maps) : MapCall → Maps
  | .pairs tokens => s.take (s.shelf.add none (tokenPairs tokens))
  | .add i tokens => s.take (s.shelf.add (s.place i) (tokenPairs tokens))
  | .stopped i tokens =>
    { s with shelf := ((tokenPairs tokens).foldl Shelf.put (s.shelf.copy (s.place i))).1 }
  | .merge i j => s.take (s.shelf.merge (s.place i) (s.place j))

def after (s : Maps) (calls : List MapCall) : Maps := calls.foldl step s

/-- What the maps were given, with what a call gives to the map that it makes. -/
def give (given : List (List (String × Value))) : MapCall → List (List (String × Value))
  | .pairs tokens => given ++ [tokenPairs tokens]
  | .add i tokens => given ++ [given.getD i [] ++ tokenPairs tokens]
  | .stopped _ _ => given
  | .merge i j => given ++ [given.getD i [] ++ given.getD j []]

/-- What calls give to the maps they make. -/
def givens (calls : List MapCall) : List (List (String × Value)) := calls.foldl give [[]]

variable {s : Maps} {given : List (List (String × Value))}

/-- Every map holds what it was given. -/
structure Sound (s : Maps) (given : List (List (String × Value))) : Prop where
  length : s.got.length = given.length
  holds : ∀ i, s.shelf.Holds (s.place i) (given.getD i [])

theorem sound_start : start.Sound [[]] := by
  refine ⟨rfl, fun i => ?_⟩
  cases i <;> exact Shelf.holds_none _

theorem place_take_of_lt {i : Nat} (h : i < s.got.length) (t : Shelf Value × Spot) :
    (s.take t).place i = s.place i := by
  exact List.getD_append _ _ _ _ h

theorem Sound.take (h : s.Sound given) {t : Shelf Value × Spot} {new : List (String × Value)}
    (ht : s.shelf.Makes t new) : (s.take t).Sound (given ++ [new]) := by
  refine ⟨by simp [Maps.take, h.length], fun i => ?_⟩
  rcases Nat.lt_trichotomy i s.got.length with hi | hi | hi
  · rw [place_take_of_lt hi, List.getD_append _ _ _ _ (h.length ▸ hi)]
    exact (h.holds i).mono ht.kept
  · have hplace : (s.take t).place i = t.2 := by simp [place, Maps.take, hi]
    have hnew : (given ++ [new]).getD i [] = new := by simp [hi, h.length]
    rw [hplace, hnew]
    exact ht.holds
  · have hplace : (s.take t).place i = none := by
      rw [place, Maps.take, List.getD_eq_default]
      simp
      omega
    have hnew : (given ++ [new]).getD i [] = [] := by
      rw [List.getD_eq_default]
      simp [← h.length]
      omega
    rw [hplace, hnew]
    exact Shelf.holds_none _

theorem Sound.kept (h : s.Sound given) (call : MapCall) : s.shelf <+: (s.step call).shelf := by
  cases call with
  | pairs tokens => exact (Shelf.makes_add (Shelf.holds_none _) _).kept
  | add i tokens => exact (Shelf.makes_add (h.holds i) _).kept
  | stopped i tokens =>
    obtain ⟨-, r, hr, -, -⟩ := (Shelf.fills_copy (h.holds i).rows).putAll (tokenPairs tokens)
    exact ⟨[r], hr.symm⟩
  | merge i j => exact (Shelf.makes_merge (h.holds i) (h.holds j)).kept

/-- What a call makes. -/
theorem Sound.step (h : s.Sound given) (call : MapCall) : (s.step call).Sound (give given call) := by
  cases call with
  | pairs tokens => exact h.take (Shelf.makes_add (Shelf.holds_none _) _)
  | add i tokens => exact h.take (Shelf.makes_add (h.holds i) _)
  | stopped i tokens => exact ⟨h.length, fun j => (h.holds j).mono (h.kept (.stopped i tokens))⟩
  | merge i j => exact h.take (Shelf.makes_merge (h.holds i) (h.holds j))

theorem Sound.after (h : s.Sound given) (calls : List MapCall) :
    (s.after calls).Sound (calls.foldl give given) := by
  induction calls generalizing s given with
  | nil => exact h
  | cons call calls ih => exact ih (h.step call)

theorem sound_run (calls : List MapCall) : (start.after calls).Sound (givens calls) :=
  sound_start.after calls

/-! ### Maps that were got before -/

theorem got_step (s : Maps) (call : MapCall) : s.got <+: (s.step call).got := by
  cases call with
  | stopped i tokens => exact List.prefix_rfl
  | _ => exact List.prefix_append ..

/-- A call leaves the rows of all maps got before as they are. -/
theorem Sound.rows_step (h : s.Sound given) (call : MapCall) {i : Nat} (hi : i < s.got.length) :
    (s.step call).rows i = s.rows i := by
  obtain ⟨more, hgot⟩ := got_step s call
  have hplace : (s.step call).place i = s.place i := by
    rw [place, place, ← hgot]
    exact List.getD_append _ _ _ _ hi
  rw [rows, rows, hplace]
  exact Shelf.rows_kept (h.kept call) (h.holds i).stands

/-- So does any number of calls. -/
theorem Sound.rows_after (h : s.Sound given) (calls : List MapCall) {i : Nat}
    (hi : i < s.got.length) : (s.after calls).rows i = s.rows i := by
  induction calls generalizing s given with
  | nil => rfl
  | cons call calls ih =>
    have hi' : i < (s.step call).got.length :=
      Nat.lt_of_lt_of_le hi (got_step s call).length_le
    exact (ih (h.step call) hi').trans (h.rows_step call hi)

/-! ### The maps of the running program -/

/-- The same calls on maps whose pairs stand together. -/
def stepPairs (ps : List (Pairs Value)) : MapCall → List (Pairs Value)
  | .pairs tokens => ps ++ [Pairs.empty.add (ps.length + 1) (tokenPairs tokens)]
  | .add i tokens => ps ++ [(ps.getD i .empty).add (ps.length + 1) (tokenPairs tokens)]
  | .stopped _ _ => ps
  | .merge i j => ps ++ [(ps.getD i .empty).merge (ps.length + 1) (ps.getD j .empty)]

def pairsAfter (ps : List (Pairs Value)) (calls : List MapCall) : List (Pairs Value) :=
  calls.foldl stepPairs ps

/-- Maps that were each given the same. -/
structure Alike (ps : List (Pairs Value)) (given : List (List (String × Value))) : Prop where
  length : ps.length = given.length
  isOf : ∀ i, (ps.getD i .empty).IsOf (given.getD i [])

theorem Alike.snoc {ps : List (Pairs Value)} (h : Alike ps given) {p : Pairs Value}
    {new : List (String × Value)} (hp : p.IsOf new) : Alike (ps ++ [p]) (given ++ [new]) := by
  refine ⟨by simp [h.length], fun i => ?_⟩
  by_cases hi : i < ps.length
  · rw [List.getD_append _ _ _ _ hi, List.getD_append _ _ _ _ (h.length ▸ hi)]
    exact h.isOf i
  · rw [List.getD_append_right _ _ _ _ (by omega), List.getD_append_right _ _ _ _ (by
      rw [← h.length]; omega), h.length]
    cases i - given.length with
    | zero => exact hp
    | succ k => exact .empty

theorem Alike.step {ps : List (Pairs Value)} (h : Alike ps given) (call : MapCall) :
    Alike (stepPairs ps call) (give given call) := by
  cases call with
  | pairs tokens => exact h.snoc (Pairs.IsOf.empty.add _ _)
  | add i tokens => exact h.snoc ((h.isOf i).add _ _)
  | stopped i tokens => exact h
  | merge i j => exact h.snoc ((h.isOf i).merge (h.isOf j) _)

theorem Alike.after {ps : List (Pairs Value)} (h : Alike ps given) (calls : List MapCall) :
    Alike (pairsAfter ps calls) (calls.foldl give given) := by
  induction calls generalizing ps given with
  | nil => exact h
  | cons call calls ih => exact ih (h.step call)

theorem alike_start : Alike [Pairs.empty] [[]] := by
  refine ⟨rfl, fun i => ?_⟩
  cases i <;> exact .empty

/-- The rows on the shelf hold the pairs that the running program has together. -/
theorem entries_after (calls : List MapCall) (i : Nat) :
    ((start.after calls).rows i).entries = ((pairsAfter [.empty] calls).getD i .empty).entries :=
  ((sound_run calls).holds i).rows.entries_of ((alike_start.after calls).isOf i)

/-! ### All maps -/

/-- A last key without a value is given null. -/
theorem tokenPairs_odd {tokens : List Value} (h : tokens.length % 2 = 0) (key : Value) :
    tokenPairs (tokens ++ [key]) = tokenPairs tokens ++ [(key.keyText, .null)] := by
  fun_induction tokenPairs tokens with
  | case1 => rfl
  | case2 k => simp at h
  | case3 k v rest ih =>
    have hrest : rest.length % 2 = 0 := by
      simp only [List.length_cons] at h
      omega
    show (k.keyText, v) :: tokenPairs (rest ++ [key]) = _
    rw [ih hrest]
    rfl

theorem keys_prefix_insertAll (es new : List (String × Value)) :
    es.map Prod.fst <+: (Pairs.insertAll es new).map Prod.fst := by
  induction new using List.reverseRecOn with
  | nil => exact List.prefix_rfl
  | append_singleton new e ih =>
    rw [Pairs.insertAll_snoc, Pairs.keys_insert]
    split
    · exact ih
    · exact ih.trans (List.prefix_append ..)

/-- What is given to a map puts no key it has elsewhere. -/
theorem keys_prefix {r r' : Rows Value} {given more : List (String × Value)} (h : r.Of given)
    (h' : r'.Of (given ++ more)) : r.keys <+: r'.keys := by
  rw [← Rows.keys_entries h.inStep, ← Rows.keys_entries h'.inStep, h.entries, h'.entries,
    Pairs.insertAll_append]
  exact keys_prefix_insertAll _ _

/-- **All maps stay whole.** After any calls every map has a value for each of its keys, which are
all different, and looking for a key finds what the way through the map comes by; the running
program's maps hold the same pairs. Later calls leave it as it is. A map that is made of tokens and
that more are added to has each key once, where it was first given, and with the value that was given
last, null if a last key comes without one; the keys of the first map keep their places. -/
theorem stay_whole (calls : List MapCall) (tokens more : List Value) :
    let s := start.after calls
    (∀ i, (s.rows i).keys.length = (s.rows i).values.length ∧ (s.rows i).keys.Nodup ∧
      (∀ key v, (s.rows i).get? key = some v ↔ (key, v) ∈ (s.rows i).entries) ∧
      (s.rows i).entries = ((pairsAfter [.empty] calls).getD i .empty).entries) ∧
    (∀ later i, i < s.got.length → (s.after later).rows i = s.rows i) ∧
    let n := s.got.length
    let t := s.after [.pairs tokens, .add n more]
    let given := tokenPairs tokens ++ tokenPairs more
    FirstsOf (given.map Prod.fst) (t.rows (n + 1)).keys ∧
      (t.rows n).keys <+: (t.rows (n + 1)).keys ∧
      (∀ key, (t.rows (n + 1)).get? key = given.reverse.lookup key) ∧
      ∀ before key, more = before ++ [key] → before.length % 2 = 0 →
        (t.rows (n + 1)).get? key.keyText = some .null := by
  intro s
  have hs : s.Sound (givens calls) := sound_run calls
  refine ⟨fun i => ⟨(hs.holds i).rows.inStep, (hs.holds i).rows.nodup,
    fun _ _ => (hs.holds i).rows.get?_iff, entries_after calls i⟩,
    fun later i hi => hs.rows_after later hi, ?_⟩
  intro n t given
  have ht := hs.after [.pairs tokens, .add n more]
  have hlen : n = (givens calls).length := hs.length
  have hgivens : [MapCall.pairs tokens, .add n more].foldl give (givens calls) =
      givens calls ++ [tokenPairs tokens] ++ [given] := by
    simp [hlen, give, given]
  rw [hgivens] at ht
  have hfirst : (t.rows n).Of (tokenPairs tokens) := by
    have hn : (givens calls ++ [tokenPairs tokens] ++ [given]).getD n [] = tokenPairs tokens := by
      simp [hlen]
    exact hn ▸ (ht.holds n).rows
  have hboth : (t.rows (n + 1)).Of given := by
    have hn : (givens calls ++ [tokenPairs tokens] ++ [given]).getD (n + 1) [] = given := by
      simp [hlen]
    exact hn ▸ (ht.holds (n + 1)).rows
  refine ⟨hboth.firsts, keys_prefix hfirst hboth, hboth.get?, ?_⟩
  rintro before key rfl heven
  rw [hboth.get?]
  simp [given, tokenPairs_odd heven]

end Maps

end Logline
