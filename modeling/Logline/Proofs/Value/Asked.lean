import Logline.Proofs.Value.Parts

/-!
Which code of callers is asked for a value, and in which order, as its labels tell. That depends on
where the value stands: a deferred value is asked where it is written, where its pairs are spliced in
and where it is a key itself, but not where a container that holds it is a key. Lines that code
writes ask for their own values in turn.

What a later equal key replaces in a map is asked for nothing (`Pairs.add_replaced`).
-/

namespace Logline

/-- The labels of the code that is asked for a value in each of the places it may have. -/
structure Asked where
  /-- As an item, or behind the key of a member. -/
  written : List Nat
  /-- With its pairs spliced in. -/
  spliced : List Nat
  /-- In the place of a key. -/
  asKey : List Nat
  /-- As a part of what stands in the place of a key. -/
  shown : List Nat

namespace Asked

def nothing : Asked := ⟨[], [], [], []⟩

/-- The same wherever the value stands. -/
def always (labels : List Nat) : Asked := ⟨labels, labels, labels, labels⟩

def items (as : List (Value × Asked)) : List Nat := as.flatMap fun a => a.2.written

def members (es : List (String × Asked)) : List Nat := es.flatMap fun e => e.2.written

/-- A key is asked before its value. What a marker drops is not asked. -/
def tokens : List (Value × Asked) → List Nat
  | [] => []
  | [(k, ka)] => match k.marker? with
    | some _ => []
    | none => ka.asKey
  | (k, ka) :: (_, va) :: rest =>
    (match k.marker? with
      | some .skip => []
      | some .inline => va.spliced
      | none => ka.asKey ++ va.written) ++ tokens rest

end Asked

mutual

def Value.asked : Value → Asked
  | .list vs =>
    let as := askedOf vs
    let shown := as.flatMap fun a => a.2.shown
    ⟨Asked.items as, Asked.tokens as, shown, shown⟩
  | .map p =>
    let es := entriesAsked p
    let shown := es.flatMap fun e => e.2.shown
    ⟨Asked.members es, Asked.members es, shown, shown⟩
  | .raw vs =>
    let as := askedOf vs
    let shown := as.flatMap fun a => a.2.shown
    ⟨Asked.tokens as, Asked.tokens as, shown, shown⟩
  | .object ms =>
    let es := membersAsked ms
    let written := Asked.members (es.mergeSort fun a b => a.1 ≤ b.1)
    let shown := es.flatMap fun e => e.2.shown
    ⟨written, written, shown, shown⟩
  | .error code _ => .always (codeAsked code)
  | .display code _ => .always (codeAsked code)
  | .marshal code (.ok _) thing =>
    ⟨codeAsked code, codeAsked code, showingAsked thing, showingAsked thing⟩
  | .marshal code (.error _) thing =>
    let shown := showingAsked thing
    let written := codeAsked code ++ shown
    ⟨written, written, shown, shown⟩
  | .lazy code v =>
    let labels := codeAsked code
    let result := v.asked
    ⟨labels ++ result.written, labels ++ result.spliced, labels ++ result.asKey, []⟩
  | _ => .nothing
termination_by structural v => v

def askedOf : List Value → List (Value × Asked)
  | [] => []
  | v :: rest => (v, v.asked) :: askedOf rest
termination_by structural vs => vs

def membersAsked : List (String × Value) → List (String × Asked)
  | [] => []
  | (key, v) :: rest => (key, v.asked) :: membersAsked rest
termination_by structural ms => ms

def entriesAsked : Pairs Value → List (String × Asked)
  | ⟨_, entries⟩ => membersAsked entries
termination_by structural p => p

/-- The code itself, then what the lines ask for that it writes. -/
def codeAsked : Code Value → List Nat
  | ⟨label, effects, _⟩ => label :: effectsAsked effects
termination_by structural c => c

def showingAsked : Showing Value → List Nat
  | ⟨code, _⟩ => codeAsked code
termination_by structural s => s

def effectsAsked : List (Effect Value) → List Nat
  | [] => []
  | e :: rest => effectAsked e ++ effectsAsked rest
termination_by structural es => es

def effectAsked : Effect Value → List Nat
  | .slow => []
  | .log handle form => handleAsked handle (formAsked form)
termination_by structural e => e

def formAsked : Form Value → List Nat
  | .list args => Asked.items (askedOf args)
  | .messageList _ args => Asked.items (askedOf args)
  | .map tokens => Asked.tokens (askedOf tokens)
  | .messageMap _ tokens => Asked.tokens (askedOf tokens)
termination_by structural f => f

/-- A handle that is switched off asks for nothing. -/
def handleAsked : Handle Value → List Nat → List Nat
  | .disabled, _ => []
  | .enabled w, said => writerAsked w said
termination_by structural h => h

/-- What is said comes before the context. -/
def writerAsked : Writer Value → List Nat → List Nat
  | ⟨_, _, context, _, _⟩, said => said ++ Asked.members (entriesAsked context)
termination_by structural w => w

end

theorem askedOf_eq (vs : List Value) : askedOf vs = vs.map fun v => (v, v.asked) := by
  induction vs with
  | nil => rfl
  | cons v rest ih => simp [askedOf, ih]

theorem membersAsked_eq (ms : List (String × Value)) :
    membersAsked ms = ms.map fun m => (m.1, m.2.asked) := by
  induction ms with
  | nil => rfl
  | cons m rest ih => simp [membersAsked, ih]

/-! ### Containers as keys -/

namespace Value

def isContainer : Value → Bool
  | .list _ => true
  | .map _ => true
  | .raw _ => true
  | .object _ => true
  | _ => false

/-- Code that comes to a text. -/
def told? : Value → Option (Code Value)
  | .error code _ => some code
  | .display code _ => some code
  | .marshal _ _ thing => some thing.code
  | _ => none

theorem showingAsked_eq (thing : Showing Value) : showingAsked thing = codeAsked thing.code := by
  cases thing
  rfl

/-- To show a container does the same whatever it is shown for. -/
theorem asKey_of_isContainer {v : Value} (h : v.isContainer = true) :
    v.asked.asKey = v.asked.shown := by
  cases v with
  | list vs => rfl
  | map p => rfl
  | raw vs => rfl
  | object ms => rfl
  | _ => exact Bool.noConfusion h

mutual

/-- Showing a value asks for texts among its parts, and for nothing deferred. -/
theorem exists_told_of_shown (v : Value) : ∀ label ∈ v.asked.shown,
    ∃ x ∈ v.parts, ∃ code, x.told? = some code ∧ label ∈ codeAsked code := by
  cases v with
  | list vs =>
    intro label h
    obtain ⟨x, hx, hcode⟩ := exists_told_of_shownAll vs label h
    exact ⟨x, List.mem_cons_of_mem _ hx, hcode⟩
  | map p =>
    obtain ⟨stamp, entries⟩ := p
    intro label h
    obtain ⟨x, hx, hcode⟩ := exists_told_of_shownMembers entries label h
    exact ⟨x, List.mem_cons_of_mem _ hx, hcode⟩
  | raw vs =>
    intro label h
    obtain ⟨x, hx, hcode⟩ := exists_told_of_shownAll vs label h
    exact ⟨x, List.mem_cons_of_mem _ hx, hcode⟩
  | object ms =>
    intro label h
    obtain ⟨x, hx, hcode⟩ := exists_told_of_shownMembers ms label h
    exact ⟨x, List.mem_cons_of_mem _ hx, hcode⟩
  | error code text => exact fun label h => ⟨_, self_mem_parts _, code, rfl, h⟩
  | display code text => exact fun label h => ⟨_, self_mem_parts _, code, rfl, h⟩
  | marshal code result thing =>
    have hshown : (marshal code result thing).asked.shown = codeAsked thing.code := by
      rw [← showingAsked_eq]
      cases result <;> rfl
    exact fun label h => ⟨_, self_mem_parts _, thing.code, rfl, hshown ▸ h⟩
  | _ => exact fun label h => absurd h List.not_mem_nil
termination_by structural v

theorem exists_told_of_shownAll (vs : List Value) :
    ∀ label ∈ (askedOf vs).flatMap fun a => a.2.shown,
      ∃ x ∈ partsOf vs, ∃ code, x.told? = some code ∧ label ∈ codeAsked code := by
  cases vs with
  | nil => exact fun label h => absurd h List.not_mem_nil
  | cons v rest =>
    have hv := exists_told_of_shown v
    have hrest := exists_told_of_shownAll rest
    intro label h
    rw [partsOf]
    rcases List.mem_append.1 h with h | h
    · obtain ⟨x, hx, hcode⟩ := hv label h
      exact ⟨x, List.mem_append_left _ hx, hcode⟩
    · obtain ⟨x, hx, hcode⟩ := hrest label h
      exact ⟨x, List.mem_append_right _ hx, hcode⟩
termination_by structural vs

theorem exists_told_of_shownMembers (ms : List (String × Value)) :
    ∀ label ∈ (membersAsked ms).flatMap fun e => e.2.shown,
      ∃ x ∈ memberParts ms, ∃ code, x.told? = some code ∧ label ∈ codeAsked code := by
  cases ms with
  | nil => exact fun label h => absurd h List.not_mem_nil
  | cons m rest =>
    obtain ⟨key, v⟩ := m
    have hv := exists_told_of_shown v
    have hrest := exists_told_of_shownMembers rest
    intro label h
    rw [memberParts]
    rcases List.mem_append.1 h with h | h
    · obtain ⟨x, hx, hcode⟩ := hv label h
      exact ⟨x, List.mem_append_left _ hx, hcode⟩
    · obtain ⟨x, hx, hcode⟩ := hrest label h
      exact ⟨x, List.mem_append_right _ hx, hcode⟩
termination_by structural ms

end

end Value

/-! ### Replaced values -/

namespace Pairs

variable {α : Type} {k key : String} {u v : α}

theorem insert_insert_self (es : List (String × α)) :
    insert k v (insert k u es) = insert k v es := by
  induction es with
  | nil => simp [insert]
  | cons e rest ih =>
    by_cases he : e.1 = k
    · simp [insert, he]
    · simp [insert, he, ih]

/-- Once a key is there, other pairs may be added before or after its value is replaced. -/
theorem insert_comm_of_mem {es : List (String × α)} (hk : k ∈ es.map Prod.fst) (hne : key ≠ k) :
    insert k v (insert key u es) = insert key u (insert k v es) := by
  induction es with
  | nil => exact absurd hk List.not_mem_nil
  | cons e rest ih =>
    obtain ⟨label, w⟩ := e
    by_cases hlabel : label = k
    · subst hlabel
      simp [insert, Ne.symm hne]
    · have hrest : k ∈ rest.map Prod.fst := by simpa [Ne.symm hlabel] using hk
      by_cases hkey : label = key
      · subst hkey
        simp [insert, hne]
      · simp [insert, hlabel, hkey, ih hrest]

theorem insertAll_append (es new more : List (String × α)) :
    insertAll es (new ++ more) = insertAll (insertAll es new) more :=
  List.foldl_append

/-- A value that is replaced later on may as well have been replaced at once. -/
theorem insert_insertAll {es new : List (String × α)} (hk : k ∈ es.map Prod.fst) :
    insert k v (insertAll es new) = insert k v (insertAll (insert k v es) new) := by
  induction new generalizing es with
  | nil => exact (insert_insert_self es).symm
  | cons e rest ih =>
    have hnext := ih ((mem_keys_insert e.1 k e.2 es).2 (.inr hk))
    show insert k v (insertAll (insert e.1 e.2 es) rest) =
      insert k v (insertAll (insert e.1 e.2 (insert k v es)) rest)
    by_cases he : e.1 = k
    · rw [he, insert_insert_self]
    · rw [hnext, insert_comm_of_mem hk he]

/-- What a later equal key replaces leaves no trace in a map. -/
theorem add_replaced (p : Pairs α) (stamp : Nat) (before between after : List (String × α))
    (k : String) (u u' v : α) :
    p.add stamp (before ++ (k, u) :: between ++ (k, v) :: after) =
      p.add stamp (before ++ (k, u') :: between ++ (k, v) :: after) := by
  have hforget : ∀ w : α, insertAll p.entries (before ++ (k, w) :: between ++ (k, v) :: after) =
      insertAll (insert k v (insertAll (insert k v (insertAll p.entries before)) between)) after := by
    intro w
    have hk : k ∈ (insert k w (insertAll p.entries before)).map Prod.fst :=
      (mem_keys_insert k k w _).2 (.inl rfl)
    rw [insertAll_append, insertAll_append]
    show insertAll (insert k v (insertAll (insert k w (insertAll p.entries before)) between)) after =
      _
    rw [insert_insertAll hk, insert_insert_self]
  have hne : ∀ w : α, (before ++ (k, w) :: between ++ (k, v) :: after).isEmpty = false := by simp
  simp only [add, hne, hforget]

end Pairs

end Logline
