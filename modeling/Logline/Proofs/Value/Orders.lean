import Logline.Proofs.Text.Quoting
import Logline.Proofs.Value.Asked

/-!
The order in which objects hold their members. It is nobody's choice, and two runs of a program need
not agree in it. Texts that show a container show it as it is, so they tell the order of every object
of two or more members in it (`exists_shown_ne`), and such a text may stand as a key.
-/

namespace Logline.Value

/-! ### Reordered values -/

mutual

/-- Differing in nothing but the order in which objects hold their members. -/
inductive Reordered : Value → Value → Prop where
  | refl (v : Value) : Reordered v v
  | list {us vs : List Value} : ReorderedItems us vs → Reordered (.list us) (.list vs)
  | map {stamp : Nat} {es fs : List (String × Value)} :
      ReorderedMembers es fs → Reordered (.map ⟨stamp, es⟩) (.map ⟨stamp, fs⟩)
  | raw {us vs : List Value} : ReorderedItems us vs → Reordered (.raw us) (.raw vs)
  | object {ms ns ps : List (String × Value)} : (ms.map Prod.fst).Nodup →
      ReorderedMembers ms ns → ns.Perm ps → Reordered (.object ms) (.object ps)
  | lazy {code : Code Value} {u v : Value} : Reordered u v → Reordered (.lazy code u) (.lazy code v)

inductive ReorderedItems : List Value → List Value → Prop where
  | nil : ReorderedItems [] []
  | cons {u v : Value} {us vs : List Value} :
      Reordered u v → ReorderedItems us vs → ReorderedItems (u :: us) (v :: vs)

/-- Members under the same keys. -/
inductive ReorderedMembers : List (String × Value) → List (String × Value) → Prop where
  | nil : ReorderedMembers [] []
  | cons {key : String} {u v : Value} {ms ns : List (String × Value)} :
      Reordered u v → ReorderedMembers ms ns → ReorderedMembers ((key, u) :: ms) ((key, v) :: ns)

end

theorem ReorderedItems.refl (vs : List Value) : ReorderedItems vs vs := by
  induction vs with
  | nil => exact .nil
  | cons v rest ih => exact .cons (.refl v) ih

theorem ReorderedMembers.refl (ms : List (String × Value)) : ReorderedMembers ms ms := by
  induction ms with
  | nil => exact .nil
  | cons m rest ih => exact .cons (.refl m.2) ih

/-- One value among others. -/
theorem ReorderedItems.one (before after : List Value) {u v : Value} (h : Reordered u v) :
    ReorderedItems (before ++ u :: after) (before ++ v :: after) := by
  induction before with
  | nil => exact .cons h (.refl after)
  | cons w rest ih => exact .cons (.refl w) ih

theorem ReorderedMembers.one (before after : List (String × Value)) (key : String) {u v : Value}
    (h : Reordered u v) :
    ReorderedMembers (before ++ (key, u) :: after) (before ++ (key, v) :: after) := by
  induction before with
  | nil => exact .cons h (.refl after)
  | cons m rest ih => exact .cons (.refl m.2) ih

/-! ### Values whose texts tell an order -/

mutual

/-- Whether an object of two or more members is shown with the value. -/
def showsOrder : Value → Bool
  | .list vs => itemsShowOrder vs
  | .map p => entriesShowOrder p
  | .raw vs => itemsShowOrder vs
  | .object ms => 1 < ms.length || membersShowOrder ms
  | _ => false
termination_by structural v => v

def itemsShowOrder : List Value → Bool
  | [] => false
  | v :: rest => v.showsOrder || itemsShowOrder rest
termination_by structural vs => vs

def membersShowOrder : List (String × Value) → Bool
  | [] => false
  | (_, v) :: rest => v.showsOrder || membersShowOrder rest
termination_by structural ms => ms

def entriesShowOrder : Pairs Value → Bool
  | ⟨_, entries⟩ => membersShowOrder entries
termination_by structural p => p

end

/-- Whether it is shown by the text of the value as a key. -/
def keyShowsOrder : Value → Bool
  | .lazy _ v => v.keyShowsOrder
  | v => v.showsOrder
termination_by structural v => v

theorem shownItems_eq (vs : List Value) : shownItems vs = vs.map shown := by
  induction vs with
  | nil => rfl
  | cons v rest ih => simp [shownItems, ih]

theorem shownEntries_eq (ms : List (String × Value)) :
    shownEntries ms = ms.map fun m => (m.1, m.2.shown) := by
  induction ms with
  | nil => rfl
  | cons m rest ih => simp [shownEntries, ih]

/-! ### One text among others -/

/-- What stands around one of the texts that are joined. -/
theorem exists_around (sep : String) (before after : List String) :
    ∃ front back, ∀ s, sep.intercalate (before ++ s :: after) = front ++ s ++ back := by
  induction before with
  | nil =>
    cases after with
    | nil => exact ⟨"", "", fun s => by simp⟩
    | cons t rest =>
      exact ⟨"", sep ++ sep.intercalate (t :: rest), fun s => by
        simp [String.intercalate_cons_cons, String.append_assoc]⟩
  | cons b rest ih =>
    obtain ⟨front, back, h⟩ := ih
    refine ⟨b ++ sep ++ front, back, fun s => ?_⟩
    obtain ⟨t, more, hmore⟩ : ∃ t more, rest ++ s :: after = t :: more :=
      List.exists_cons_of_ne_nil (by simp)
    rw [List.cons_append, hmore, String.intercalate_cons_cons, ← hmore, h]
    simp [String.append_assoc]

theorem intercalate_ne (sep : String) (before after : List String) {s t : String} (h : s ≠ t) :
    sep.intercalate (before ++ s :: after) ≠ sep.intercalate (before ++ t :: after) := by
  obtain ⟨front, back, haround⟩ := exists_around sep before after
  rw [haround, haround]
  simpa using h

theorem bracketed_ne {before after : List String} {s t : String} (h : s ≠ t) :
    bracketed (before ++ s :: after) ≠ bracketed (before ++ t :: after) := by
  simpa [bracketed] using intercalate_ne ", " before after h

theorem braced_ne {before after : List (String × String)} {key s t : String} (h : s ≠ t) :
    braced (before ++ (key, s) :: after) ≠ braced (before ++ (key, t) :: after) := by
  have hentry : Text.quoted key ++ ": " ++ s ≠ Text.quoted key ++ ": " ++ t := by simpa using h
  simpa [braced] using intercalate_ne ", " _ _ hentry

/-- The first key can be told from what is shown in braces. -/
theorem key_eq_of_braced {key label : String} {s t : String} {es fs : List (String × String)}
    (h : braced ((key, s) :: es) = braced ((label, t) :: fs)) : key = label := by
  obtain ⟨a, ha⟩ : ∃ a, braced ((key, s) :: es) = "\x7b" ++ (Text.quoted key ++ a) := by
    cases es <;> simp [braced, String.intercalate_cons_cons, String.append_assoc]
  obtain ⟨b, hb⟩ : ∃ b, braced ((label, t) :: fs) = "\x7b" ++ (Text.quoted label ++ b) := by
    cases fs <;> simp [braced, String.intercalate_cons_cons, String.append_assoc]
  rw [ha, hb] at h
  exact (Text.quoted_append_inj (by simpa using h)).1

/-! ### An order that is told -/

mutual

/-- **A text that shows an object of two or more members tells their order**: with another order of
one object there is another text. -/
theorem exists_shown_ne (v : Value) (h : v.showsOrder = true)
    (hkeys : ∀ ms, .object ms ∈ v.parts → (ms.map Prod.fst).Nodup) :
    ∃ w, Reordered v w ∧ v.shown ≠ w.shown := by
  cases v with
  | list vs =>
    obtain ⟨before, u, w, after, rfl, hw, hne⟩ := exists_shown_item_ne vs h
      fun ms hms => hkeys ms (List.mem_cons_of_mem _ hms)
    refine ⟨.list (before ++ w :: after), .list (.one before after hw), ?_⟩
    simpa [shown, shownItems_eq] using bracketed_ne hne
  | map p =>
    obtain ⟨stamp, es⟩ := p
    obtain ⟨before, key, u, w, after, rfl, hw, hne⟩ := exists_shown_member_ne es h
      fun ms hms => hkeys ms (List.mem_cons_of_mem _ hms)
    refine ⟨.map ⟨stamp, before ++ (key, w) :: after⟩, .map (.one before after key hw), ?_⟩
    simpa [shown, shownPairs, shownEntries_eq] using braced_ne hne
  | raw vs =>
    obtain ⟨before, u, w, after, rfl, hw, hne⟩ := exists_shown_item_ne vs h
      fun ms hms => hkeys ms (List.mem_cons_of_mem _ hms)
    refine ⟨.raw (before ++ w :: after), .raw (.one before after hw), ?_⟩
    simpa [shown, shownItems_eq] using bracketed_ne hne
  | object ms =>
    have hnodup : (ms.map Prod.fst).Nodup := hkeys ms (List.mem_cons_self ..)
    match ms, h, hnodup with
    | (key, u) :: (label, v) :: rest, _, hnodup =>
      -- with the first two members in each other's place
      refine ⟨.object ((label, v) :: (key, u) :: rest),
        .object hnodup (.refl _) (.swap _ _ _), fun heq => ?_⟩
      have hkey : key = label := by
        rw [shown, shown, shownEntries_eq, shownEntries_eq] at heq
        exact key_eq_of_braced heq
      simp [hkey] at hnodup
    | [(key, u)], h, hnodup =>
      obtain ⟨w, hw, hne⟩ := exists_shown_ne u (by simpa [showsOrder, membersShowOrder] using h)
        fun ms hms => hkeys ms (List.mem_cons_of_mem _ (by simpa [memberParts] using hms))
      refine ⟨.object [(key, w)], .object hnodup (.cons hw .nil) (.refl _), ?_⟩
      simpa [shown, shownEntries_eq] using @braced_ne [] [] key _ _ hne
  | _ => exact Bool.noConfusion h
termination_by structural v

theorem exists_shown_item_ne (vs : List Value) (h : itemsShowOrder vs = true)
    (hkeys : ∀ ms, .object ms ∈ partsOf vs → (ms.map Prod.fst).Nodup) :
    ∃ before u w after, vs = before ++ u :: after ∧ Reordered u w ∧ u.shown ≠ w.shown := by
  cases vs with
  | nil => exact Bool.noConfusion h
  | cons v rest =>
    rcases Bool.or_eq_true_iff.1 h with h | h
    · obtain ⟨w, hw, hne⟩ := exists_shown_ne v h fun ms hms => hkeys ms (List.mem_append_left _ hms)
      exact ⟨[], v, w, rest, rfl, hw, hne⟩
    · obtain ⟨before, u, w, after, rfl, hw, hne⟩ := exists_shown_item_ne rest h
        fun ms hms => hkeys ms (List.mem_append_right _ hms)
      exact ⟨v :: before, u, w, after, rfl, hw, hne⟩
termination_by structural vs

theorem exists_shown_member_ne (ms : List (String × Value)) (h : membersShowOrder ms = true)
    (hkeys : ∀ ns, .object ns ∈ memberParts ms → (ns.map Prod.fst).Nodup) :
    ∃ before key u w after, ms = before ++ (key, u) :: after ∧ Reordered u w ∧
      u.shown ≠ w.shown := by
  cases ms with
  | nil => exact Bool.noConfusion h
  | cons m rest =>
    obtain ⟨key, v⟩ := m
    rcases Bool.or_eq_true_iff.1 h with h | h
    · obtain ⟨w, hw, hne⟩ := exists_shown_ne v h fun ns hns => hkeys ns (List.mem_append_left _ hns)
      exact ⟨[], key, v, w, rest, rfl, hw, hne⟩
    · obtain ⟨before, label, u, w, after, rfl, hw, hne⟩ := exists_shown_member_ne rest h
        fun ns hns => hkeys ns (List.mem_append_right _ hns)
      exact ⟨(key, v) :: before, label, u, w, after, rfl, hw, hne⟩
termination_by structural ms

end

theorem keyText_of_isContainer {v : Value} (h : v.isContainer = true) : v.keyText = v.shown := by
  cases v with
  | list vs => rfl
  | map p => rfl
  | raw vs => rfl
  | object ms => rfl
  | _ => exact Bool.noConfusion h

theorem Reordered.isContainer {v w : Value} (h : Reordered v w) : w.isContainer = v.isContainer := by
  cases h <;> rfl

theorem exists_keyText_ne_of_isContainer {v : Value} (hv : v.isContainer = true)
    (h : v.showsOrder = true) (hkeys : ∀ ms, .object ms ∈ v.parts → (ms.map Prod.fst).Nodup) :
    ∃ w, Reordered v w ∧ v.keyText ≠ w.keyText := by
  obtain ⟨w, hw, hne⟩ := exists_shown_ne v h hkeys
  refine ⟨w, hw, ?_⟩
  rwa [keyText_of_isContainer hv, keyText_of_isContainer (hw.isContainer.trans hv)]

/-- **So does the text of a key.** There what is deferred is looked into. -/
theorem exists_keyText_ne (v : Value) (h : v.keyShowsOrder = true)
    (hkeys : ∀ ms, .object ms ∈ v.parts → (ms.map Prod.fst).Nodup) :
    ∃ w, Reordered v w ∧ v.keyText ≠ w.keyText := by
  cases v with
  | lazy code v =>
    obtain ⟨w, hw, hne⟩ := exists_keyText_ne v h fun ms hms => hkeys ms (mem_parts_lazy hms)
    exact ⟨.lazy code w, .lazy hw, hne⟩
  | list vs => exact exists_keyText_ne_of_isContainer rfl h hkeys
  | map p => exact exists_keyText_ne_of_isContainer rfl h hkeys
  | raw vs => exact exists_keyText_ne_of_isContainer rfl h hkeys
  | object ms => exact exists_keyText_ne_of_isContainer rfl h hkeys
  | _ => exact Bool.noConfusion h
termination_by structural v

/-! ### Keys by where they stand -/

/-- Whether a member with the value is left out. -/
def leftOut : Value → Bool
  | .lazy _ v => v.isEmptyMap
  | v => v.isEmptyMap

end Value

/-- The keys where a value is written, and where its pairs are spliced in, each with what stands behind
it. -/
structure Standing where
  written : List (Value × Value)
  spliced : List (Value × Value)

namespace Standing

def nothing : Standing := ⟨[], []⟩

def items (ss : List (Value × Standing)) : List (Value × Value) := ss.flatMap fun s => s.2.written

def members (es : List (String × Standing)) : List (Value × Value) :=
  es.flatMap fun e => e.2.written

def tokens : List (Value × Standing) → List (Value × Value)
  | [] => []
  | [(k, _)] => match k.marker? with
    | some _ => []
    | none => [(k, .null)]
  | (k, _) :: (v, s) :: rest =>
    (match k.marker? with
      | some .skip => []
      | some .inline => s.spliced
      | none => (k, v) :: s.written) ++ tokens rest

end Standing

namespace Value

mutual

def standing : Value → Standing
  | .list vs =>
    let ss := standingOf vs
    ⟨Standing.items ss, Standing.tokens ss⟩
  | .map p =>
    let keys := Standing.members (entriesStanding p)
    ⟨keys, keys⟩
  | .raw vs =>
    let keys := Standing.tokens (standingOf vs)
    ⟨keys, keys⟩
  | .object ms =>
    let keys := Standing.members (membersStanding ms)
    ⟨keys, keys⟩
  | .lazy _ v => v.standing
  | _ => .nothing
termination_by structural v => v

def standingOf : List Value → List (Value × Standing)
  | [] => []
  | v :: rest => (v, v.standing) :: standingOf rest
termination_by structural vs => vs

def membersStanding : List (String × Value) → List (String × Standing)
  | [] => []
  | (key, v) :: rest => (key, v.standing) :: membersStanding rest
termination_by structural ms => ms

def entriesStanding : Pairs Value → List (String × Standing)
  | ⟨_, entries⟩ => membersStanding entries
termination_by structural p => p

end

theorem items_standingOf (vs : List Value) :
    Standing.items (standingOf vs) = vs.flatMap fun v => v.standing.written := by
  induction vs with
  | nil => rfl
  | cons v rest ih => exact congrArg (v.standing.written ++ ·) ih

theorem members_membersStanding (ms : List (String × Value)) :
    Standing.members (membersStanding ms) = ms.flatMap fun m => m.2.standing.written := by
  induction ms with
  | nil => rfl
  | cons m rest ih => exact congrArg (m.2.standing.written ++ ·) ih

end Value

/-- The keys in what is said. -/
def Form.standing : Form Value → List (Value × Value)
  | .list args => Standing.items (Value.standingOf args)
  | .messageList _ args => Standing.items (Value.standingOf args)
  | .map tokens => Standing.tokens (Value.standingOf tokens)
  | .messageMap _ tokens => Standing.tokens (Value.standingOf tokens)

/-- The keys in a line that are no texts from the start. -/
def Writer.standing (w : Writer Value) (form : Form Value) : List (Value × Value) :=
  form.standing ++ Standing.members (Value.entriesStanding w.context)

/-! ### Reordered lines -/

inductive Form.Reordered : Form Value → Form Value → Prop where
  | list {us vs : List Value} : Value.ReorderedItems us vs → Reordered (.list us) (.list vs)
  | messageList {message : String} {us vs : List Value} : Value.ReorderedItems us vs →
      Reordered (.messageList message us) (.messageList message vs)
  | map {us vs : List Value} : Value.ReorderedItems us vs → Reordered (.map us) (.map vs)
  | messageMap {message : String} {us vs : List Value} : Value.ReorderedItems us vs →
      Reordered (.messageMap message us) (.messageMap message vs)

/-- Handles that differ in the order of objects in their contexts. -/
inductive Writer.Reordered : Writer Value → Writer Value → Prop where
  | context {stamp stamp' : Nat} {severity : Severity} {es fs : List (String × Value)}
      {module : Option String} {settings : Settings} : Value.ReorderedMembers es fs →
      Reordered ⟨stamp, severity, ⟨stamp', es⟩, module, settings⟩
        ⟨stamp, severity, ⟨stamp', fs⟩, module, settings⟩

end Logline
