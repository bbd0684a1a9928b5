import Logline.Program
import Logline.Value.Meaning

/-!
What a value is made of. Functions that go through the values in a list or a map one by one are told
as maps of it, so that no later proof has to follow their recursion.
-/

namespace Logline.Value

/-! ### Code and JSON that a value brings along itself -/

/-- Code that is run where the value is written, one after the other. A thing that cannot be turned
into JSON is shown in its place. -/
def writtenCodes : Value → List (Code Value)
  | .error code _ => [code]
  | .display code _ => [code]
  | .marshal code (.ok _) _ => [code]
  | .marshal code (.error _) thing => [code, thing.code]
  | .lazy code _ => [code]
  | _ => []

/-- Code that is run for the text of a value, as a key or as a part of one. -/
def textCode? : Value → Option (Code Value)
  | .error code _ => some code
  | .display code _ => some code
  | .marshal _ _ thing => some thing.code
  | .lazy code _ => some code
  | _ => none

def codes (v : Value) : List (Code Value) := v.writtenCodes ++ v.textCode?.toList

theorem mem_codes_of_written {v : Value} {code : Code Value} (h : code ∈ v.writtenCodes) :
    code ∈ v.codes :=
  List.mem_append_left _ h

theorem mem_codes_of_text {v : Value} {code : Code Value} (h : v.textCode? = some code) :
    code ∈ v.codes :=
  List.mem_append_right _ (Option.mem_toList.2 h)

def marshalled? : Value → Option Text.Bytes
  | .marshal _ (.ok json) _ => some json
  | _ => none

def isDeferred : Value → Bool
  | .lazy _ _ => true
  | _ => false

/-! ### Parts -/

mutual

/-- A value and all values it is made of. -/
def parts : Value → List Value
  | .list vs => .list vs :: partsOf vs
  | .map p => .map p :: entryParts p
  | .raw vs => .raw vs :: partsOf vs
  | .object ms => .object ms :: memberParts ms
  | .lazy code v => .lazy code v :: v.parts
  | v => [v]
termination_by structural v => v

def partsOf : List Value → List Value
  | [] => []
  | v :: rest => v.parts ++ partsOf rest
termination_by structural vs => vs

def memberParts : List (String × Value) → List Value
  | [] => []
  | (_, v) :: rest => v.parts ++ memberParts rest
termination_by structural ms => ms

def entryParts : Pairs Value → List Value
  | ⟨_, entries⟩ => memberParts entries
termination_by structural p => p

end

mutual

/-- What stands, or may be spliced in to stand, in the place of a key. -/
def keys : Value → List Value
  | .list vs => Run.tokenKeys vs ++ keysOf vs
  | .map p => entryKeys p
  | .raw vs => Run.tokenKeys vs ++ keysOf vs
  | .object ms => memberKeys ms
  | .lazy _ v => v.keys
  | _ => []
termination_by structural v => v

def keysOf : List Value → List Value
  | [] => []
  | v :: rest => v.keys ++ keysOf rest
termination_by structural vs => vs

def memberKeys : List (String × Value) → List Value
  | [] => []
  | (_, v) :: rest => v.keys ++ memberKeys rest
termination_by structural ms => ms

def entryKeys : Pairs Value → List Value
  | ⟨_, entries⟩ => memberKeys entries
termination_by structural p => p

end

theorem partsOf_eq (vs : List Value) : partsOf vs = vs.flatMap parts := by
  induction vs with
  | nil => rfl
  | cons v rest ih => simp [partsOf, ih]

theorem memberParts_eq (ms : List (String × Value)) :
    memberParts ms = ms.flatMap fun m => m.2.parts := by
  induction ms with
  | nil => rfl
  | cons m rest ih => simp [memberParts, ih]

theorem entryParts_eq (p : Pairs Value) : entryParts p = p.entries.flatMap fun e => e.2.parts := by
  cases p
  exact memberParts_eq _

/-- A value is a part of itself. -/
theorem self_mem_parts (v : Value) : v ∈ v.parts := by
  cases v <;> simp [parts]

theorem mem_parts_list {x v : Value} {vs : List Value} (hv : v ∈ vs) (hx : x ∈ v.parts) :
    x ∈ (list vs).parts := by
  rw [parts, partsOf_eq]
  exact List.mem_cons_of_mem _ (List.mem_flatMap.2 ⟨v, hv, hx⟩)

theorem mem_parts_raw {x v : Value} {vs : List Value} (hv : v ∈ vs) (hx : x ∈ v.parts) :
    x ∈ (raw vs).parts := by
  rw [parts, partsOf_eq]
  exact List.mem_cons_of_mem _ (List.mem_flatMap.2 ⟨v, hv, hx⟩)

theorem mem_parts_lazy {x v : Value} {code : Code Value} (hx : x ∈ v.parts) :
    x ∈ (lazy code v).parts :=
  List.mem_cons_of_mem _ hx

theorem mem_of_mem_tokenKeys {k : Value} {vs : List Value} (h : k ∈ Run.tokenKeys vs) : k ∈ vs := by
  fun_induction Run.tokenKeys vs with
  | case1 => exact h
  | case2 => exact h
  | case3 u v rest ih =>
    rcases List.mem_cons.1 h with rfl | h
    · exact List.mem_cons_self ..
    · exact List.mem_cons_of_mem _ (List.mem_cons_of_mem _ (ih h))

mutual

/-- Keys are parts. -/
theorem mem_parts_of_key (v : Value) {k x : Value} (hk : k ∈ v.keys) (hx : x ∈ k.parts) :
    x ∈ v.parts := by
  cases v with
  | list vs =>
    rw [keys, List.mem_append] at hk
    rcases hk with hk | hk
    · exact mem_parts_list (mem_of_mem_tokenKeys hk) hx
    · exact List.mem_cons_of_mem _ (mem_partsOf_of_key vs hk hx)
  | map p => exact List.mem_cons_of_mem _ (mem_entryParts_of_key p hk hx)
  | raw vs =>
    rw [keys, List.mem_append] at hk
    rcases hk with hk | hk
    · exact mem_parts_raw (mem_of_mem_tokenKeys hk) hx
    · exact List.mem_cons_of_mem _ (mem_partsOf_of_key vs hk hx)
  | object ms => exact List.mem_cons_of_mem _ (mem_memberParts_of_key ms hk hx)
  | lazy code v => exact mem_parts_lazy (mem_parts_of_key v hk hx)
  | _ => simp [keys] at hk
termination_by structural v

theorem mem_partsOf_of_key (vs : List Value) {k x : Value} (hk : k ∈ keysOf vs)
    (hx : x ∈ k.parts) : x ∈ partsOf vs := by
  cases vs with
  | nil => simp [keysOf] at hk
  | cons v rest =>
    rcases List.mem_append.1 hk with hk | hk
    · exact List.mem_append_left _ (mem_parts_of_key v hk hx)
    · exact List.mem_append_right _ (mem_partsOf_of_key rest hk hx)
termination_by structural vs

theorem mem_memberParts_of_key (ms : List (String × Value)) {k x : Value} (hk : k ∈ memberKeys ms)
    (hx : x ∈ k.parts) : x ∈ memberParts ms := by
  cases ms with
  | nil => simp [memberKeys] at hk
  | cons m rest =>
    obtain ⟨label, v⟩ := m
    rcases List.mem_append.1 hk with hk | hk
    · exact List.mem_append_left _ (mem_parts_of_key v hk hx)
    · exact List.mem_append_right _ (mem_memberParts_of_key rest hk hx)
termination_by structural ms

theorem mem_entryParts_of_key (p : Pairs Value) {k x : Value} (hk : k ∈ entryKeys p)
    (hx : x ∈ k.parts) : x ∈ entryParts p := by
  obtain ⟨stamp, entries⟩ := p
  exact mem_memberParts_of_key entries hk hx
termination_by structural p

end

/-! ### Meanings and writings one by one -/

theorem meanings_eq (vs : List Value) : meanings vs = vs.map fun v => (v, v.meaning) := by
  induction vs with
  | nil => rfl
  | cons v rest ih => simp [meanings, ih]

theorem memberMeanings_eq (ms : List (String × Value)) :
    memberMeanings ms = ms.map fun m => (m.1, m.2.meaning) := by
  induction ms with
  | nil => rfl
  | cons m rest ih => simp [memberMeanings, ih]

variable {now : Clock → Moment}

theorem writings_eq (vs : List Value) : writings now vs = vs.map fun v => (v, v.writing now) := by
  induction vs with
  | nil => rfl
  | cons v rest ih => simp [writings, ih]

theorem memberWritings_eq (ms : List (String × Value)) :
    memberWritings now ms = ms.map fun m => (m.1, m.2.writing now) := by
  induction ms with
  | nil => rfl
  | cons m rest ih => simp [memberWritings, ih]

theorem entryWritings_eq (p : Pairs Value) :
    entryWritings now p = p.entries.map fun e => (e.1, e.2.writing now) := by
  cases p
  exact memberWritings_eq _

end Logline.Value
