import Logline.Proofs.Line.Orders

/-!
Keys that tell an order. A key that shows an object of two or more members has another text if the
object holds them in another order, and wherever in the values of a line such a key is written, the
line says something else. So what a line says depends on an order exactly if one of the keys in it
does (`wording_same_iff`).
-/

namespace Logline

open Script Text Json

/-! ### Scripts that say different things -/

namespace Script

theorem wording_key (label : String) (owed : Bool) :
    wording (key label) owed = (encode (memberGap owed ++ keyChars label), false) :=
  (says_false_iff _ _ _ _).1 (says_key.2 ⟨rfl, rfl⟩)

theorem encode_inj {a b : List Char} (h : encode a = encode b) : a = b := by
  have hdecoded := congrArg decode? h
  rw [decode?_encode, decode?_encode, Option.some_inj] at hdecoded
  exact String.ofList_injective hdecoded

theorem keyChars_inj {a b : String} (h : keyChars a = keyChars b) : a = b := by
  have htail : escaped a.toList ++ '"' :: [':'] = escaped b.toList ++ '"' :: [':'] := by
    simpa [keyChars, quotedText] using h
  have hread := congrArg readString htail
  rw [readString_escaped, readString_escaped] at hread
  exact String.toList_inj.1 (by simpa using hread)

/-- Wherever they stand they say different things, but end alike, so that what follows them says the
same. -/
def Differ (s t : Script) : Prop :=
  ∀ owed, (wording s owed).1 ≠ (wording t owed).1 ∧ (wording s owed).2 = (wording t owed).2

/-- Different keys are written differently. -/
theorem differ_key {a b : String} (h : a ≠ b) : Differ (key a) (key b) := by
  intro owed
  simp only [wording_key]
  refine ⟨fun heq => h ?_, trivial⟩
  exact keyChars_inj (List.append_cancel_left (encode_inj heq))

namespace Differ

variable {s t : Script} (h : Differ s t)
include h

theorem after (front : Script) : Differ (front ++ s) (front ++ t) := by
  intro owed
  obtain ⟨hne, hend⟩ := h (wording front owed).2
  simp only [wording_append]
  exact ⟨by simpa using hne, hend⟩

theorem before (back : Script) : Differ (s ++ back) (t ++ back) := by
  intro owed
  obtain ⟨hne, hend⟩ := h owed
  simp only [wording_append, hend]
  exact ⟨by simpa using hne, trivial⟩

theorem direct (acts acts' : List Act) : Differ (.direct acts :: s) (.direct acts' :: t) := by
  intro owed
  simpa [wording, Instr.wording] using h owed

theorem later : Differ [Script.later fun _ => s] [Script.later fun _ => t] := by
  intro owed
  simpa only [wording_later] using h owed

theorem guarded (acts : List Act) (late : Script) :
    Differ [.guarded acts s late] [.guarded acts t late] := by
  intro owed
  simpa [wording, Instr.wording] using h owed

theorem framed : Differ (framed s) (framed t) := by
  intro owed
  simpa [Script.framed, itemMark, wording, Instr.wording] using (h false).1

theorem braced : Differ (bracedScript s) (bracedScript t) :=
  (h.after _).before _

end Differ

end Script

namespace Value

/-- The script of a member that is not left out begins with its key. -/
theorem exists_member_eq (now : Clock → Moment) (v : Value) (h : v.leftOut = false) :
    ∃ rest, ∀ k owed, Script.wording ((v.writing now).member k) owed =
      Script.wording (k ++ rest) owed := by
  cases v with
  | map p =>
    obtain ⟨stamp, es⟩ := p
    cases es with
    | nil => exact Bool.noConfusion h
    | cons e es => exact ⟨_, fun _ _ => rfl⟩
  | marshal code result shown =>
    cases result with
    | ok json => exact ⟨_, fun _ _ => rfl⟩
    | error e => exact ⟨_, fun _ _ => rfl⟩
  | lazy code v =>
    refine ⟨[later fun _ => (v.writing now).item], fun k owed => ?_⟩
    have hempty : v.isEmptyMap = false := h
    simp [writing, Writing.deferred, Script.wording, Instr.wording, hempty]
  | _ => exact ⟨_, fun _ _ => rfl⟩

theorem differ_member {now : Clock → Moment} {v : Value} (hv : v.leftOut = false) {a b : String}
    (h : a ≠ b) : Differ ((v.writing now).member (key a)) ((v.writing now).member (key b)) := by
  obtain ⟨rest, hrest⟩ := exists_member_eq now v hv
  intro owed
  simpa only [hrest] using (differ_key h).before rest owed

/-! ### Orders that are told -/

/-- A key that is written tells an order. -/
def TellOrder (keys : List (Value × Value)) : Prop :=
  ∃ m ∈ keys, m.1.keyShowsOrder = true ∧ m.2.leftOut = false

theorem not_tellOrder_iff {keys : List (Value × Value)} :
    ¬TellOrder keys ↔ ∀ m ∈ keys, m.2.leftOut = false → m.1.keyShowsOrder = false := by
  simp only [TellOrder, not_exists, not_and]
  exact forall₂_congr fun m _ => by cases m.1.keyShowsOrder <;> simp

theorem tellOrder_append {a b : List (Value × Value)} :
    TellOrder (a ++ b) ↔ TellOrder a ∨ TellOrder b := by
  simp only [TellOrder, List.mem_append, or_and_right, exists_or]

theorem tellOrder_flatMap {α : Type} {as : List α} {f : α → List (Value × Value)} :
    TellOrder (as.flatMap f) ↔ ∃ a ∈ as, TellOrder (f a) := by
  simp only [TellOrder, List.mem_flatMap]
  exact ⟨fun ⟨m, ⟨a, ha, hm⟩, h⟩ => ⟨a, ha, m, hm, h⟩, fun ⟨a, ha, m, hm, h⟩ => ⟨m, ⟨a, ha, hm⟩, h⟩⟩

theorem tellOrder_items {vs : List Value} :
    TellOrder (Standing.items (standingOf vs)) ↔ ∃ v ∈ vs, TellOrder v.standing.written := by
  rw [items_standingOf, tellOrder_flatMap]

theorem tellOrder_members {ms : List (String × Value)} :
    TellOrder (Standing.members (membersStanding ms)) ↔
      ∃ m ∈ ms, TellOrder m.2.standing.written := by
  rw [members_membersStanding, tellOrder_flatMap]

/-- Orders of one value that show where it is written. -/
structure WrittenApart (v w : Value) : Prop where
  reordered : Reordered v w
  item : ∀ now, Differ (v.writing now).item (w.writing now).item
  member : ∀ now k, Differ ((v.writing now).member k) ((w.writing now).member k)

/-- Orders of one value that show where its pairs are spliced in. -/
structure SplicedApart (v w : Value) : Prop where
  reordered : Reordered v w
  splice : ∀ now, Differ (v.writing now).splice (w.writing now).splice

/-- Wherever the value tells an order, another order shows. -/
structure Telling (v : Value) : Prop where
  asKey : v.keyShowsOrder = true → ∃ w, Reordered v w ∧ v.keyText ≠ w.keyText
  written : TellOrder v.standing.written → ∃ w, WrittenApart v w
  spliced : TellOrder v.standing.spliced → ∃ w, SplicedApart v w

section Sequences

variable {v w : Value} (h : WrittenApart v w) (now : Clock → Moment)
include h

theorem items_differ (before after : List Value) :
    Differ (items ((writings now (before ++ v :: after)).map Prod.snd))
      (items ((writings now (before ++ w :: after)).map Prod.snd)) := by
  have haround : ∀ u : Value, items ((writings now (before ++ u :: after)).map Prod.snd) =
      items ((writings now before).map Prod.snd) ++
        ((u.writing now).item ++ items ((writings now after).map Prod.snd)) := fun u => by
    simp [items, writings_eq]
  rw [haround, haround]
  exact ((h.item now).before _).after _

theorem listed_differ (before after : List Value) :
    Differ (listed ((writings now (before ++ v :: after)).map Prod.snd))
      (listed ((writings now (before ++ w :: after)).map Prod.snd)) :=
  ((items_differ h now before after).after _).before _

theorem members_differ (key : String) (before after : List (String × Value)) :
    Differ (members (memberWritings now (before ++ (key, v) :: after)))
      (members (memberWritings now (before ++ (key, w) :: after))) := by
  have haround : ∀ u : Value, members (memberWritings now (before ++ (key, u) :: after)) =
      members (memberWritings now before) ++
        ((u.writing now).member (Script.key key) ++ members (memberWritings now after)) := fun u => by
    simp [members, memberWritings_eq]
  rw [haround, haround]
  exact ((h.member now _).before _).after _

end Sequences

section Sorting

variable {α : Type} (key : String) {a b : α}

/-- Puts `b` in the place of what is under the key. -/
def putUnder (b : α) (m : String × α) : String × α :=
  (m.1, if m.1 = key then b else m.2)

theorem map_putUnder {front back : List (String × α)}
    (hkey : key ∉ (front ++ back).map Prod.fst) :
    (front ++ (key, a) :: back).map (putUnder key b) = front ++ (key, b) :: back := by
  have hother : ∀ m ∈ front ++ back, putUnder key b m = m := fun m hm => by
    have hne : m.1 ≠ key := fun heq => hkey (heq ▸ List.mem_map_of_mem hm)
    simp [putUnder, hne]
  have hfront : front.map (putUnder key b) = front :=
    (List.map_congr_left fun m hm => hother m (List.mem_append_left _ hm)).trans front.map_id
  have hback : back.map (putUnder key b) = back :=
    (List.map_congr_left fun m hm => hother m (List.mem_append_right _ hm)).trans back.map_id
  rw [List.map_append, List.map_cons, hfront, hback]
  simp [putUnder]

/-- Where a key is sorted to does not depend on what is under it. -/
theorem exists_sorted_around (before after : List (String × α)) (a : α)
    (hkey : key ∉ (before ++ after).map Prod.fst) :
    ∃ front back, ∀ b, sorted (before ++ (key, b) :: after) = front ++ (key, b) :: back := by
  obtain ⟨front, back, hsorted⟩ : ∃ front back,
      sorted (before ++ (key, a) :: after) = front ++ (key, a) :: back :=
    List.append_of_mem (List.mem_mergeSort.2 (by simp))
  have hperm : (front ++ back).Perm (before ++ after) := by
    have hall : (sorted (before ++ (key, a) :: after)).Perm (before ++ (key, a) :: after) :=
      List.mergeSort_perm ..
    rw [hsorted] at hall
    exact (List.perm_middle.symm.trans (hall.trans List.perm_middle)).cons_inv
  have hkey' : key ∉ (front ++ back).map Prod.fst :=
    fun hmem => hkey ((hperm.map Prod.fst).mem_iff.1 hmem)
  refine ⟨front, back, fun b => ?_⟩
  calc sorted (before ++ (key, b) :: after)
      = sorted ((before ++ (key, a) :: after).map (putUnder key b)) := by
        rw [map_putUnder key hkey]
    _ = (sorted (before ++ (key, a) :: after)).map (putUnder key b) := (map_sorted _ _).symm
    _ = front ++ (key, b) :: back := by rw [hsorted, map_putUnder key hkey']

end Sorting

/-- Nor does a member in the order of the keys hide what it says. -/
theorem members_byKey_differ {v w : Value} (h : WrittenApart v w) (now : Clock → Moment)
    (key : String) (before after : List (String × Value))
    (hkey : key ∉ (before ++ after).map Prod.fst) :
    Differ (members (byKey (memberWritings now (before ++ (key, v) :: after))))
      (members (byKey (memberWritings now (before ++ (key, w) :: after)))) := by
  obtain ⟨front, back, hsorted⟩ := exists_sorted_around key before after v hkey
  have hbyKey : ∀ u : Value, byKey (memberWritings now (before ++ (key, u) :: after)) =
      memberWritings now (front ++ (key, u) :: back) := fun u => by
    rw [byKey_memberWritings, hsorted]
  rw [hbyKey, hbyKey]
  exact members_differ h now key front back

/-- **Keys and values in turn.** A key that tells an order is replaced by one with another text, and a
value that does by another one. -/
theorem exists_tokens_differ (vs : List Value) (h : ∀ v ∈ vs, Telling v)
    (hk : TellOrder (Standing.tokens (standingOf vs))) :
    ∃ ws, ReorderedItems vs ws ∧
      ∀ now, Differ (tokens (writings now vs)) (tokens (writings now ws)) := by
  match vs, hk with
  | [], hk => simp [standingOf, Standing.tokens, TellOrder] at hk
  | [k], hk =>
    cases hm : k.marker? with
    | some marker => simp [standingOf, Standing.tokens, hm, TellOrder] at hk
    | none =>
      have hshows : k.keyShowsOrder = true := by
        simpa [standingOf, Standing.tokens, hm, TellOrder, leftOut, isEmptyMap] using hk
      obtain ⟨l, hl, hne⟩ := (h k (List.mem_singleton_self k)).asKey hshows
      refine ⟨[l], .cons hl .nil, fun now => ?_⟩
      simp only [writings, tokens, hm, (hl.alike .words now).marker]
      exact ((differ_key hne).before _).direct _ _
  | k :: v :: rest, hk =>
    have hrest : ∀ u ∈ rest, Telling u := fun u hu => h u (by simp [hu])
    simp only [standingOf, Standing.tokens] at hk
    rcases tellOrder_append.1 hk with hk | hk
    · cases hm : k.marker? with
      | some marker =>
        cases marker with
        | skip => simp [hm, TellOrder] at hk
        | inline =>
          rw [hm] at hk
          obtain ⟨w, hw⟩ := (h v (by simp)).spliced hk
          refine ⟨k :: w :: rest, .cons (.refl k) (.cons hw.reordered (.refl rest)), fun now => ?_⟩
          simp only [writings, tokens, hm]
          exact (hw.splice now).before _
      | none =>
        rw [hm] at hk
        obtain ⟨m, hmem, hshows, hleft⟩ := hk
        rcases List.mem_cons.1 hmem with rfl | hmem
        · obtain ⟨l, hl, hne⟩ := (h k (by simp)).asKey hshows
          refine ⟨l :: v :: rest, .cons hl (.refl _), fun now => ?_⟩
          simp only [writings, tokens, hm, (hl.alike .words now).marker]
          exact ((differ_member hleft hne).direct _ _).before _
        · obtain ⟨w, hw⟩ := (h v (by simp)).written ⟨m, hmem, hshows, hleft⟩
          refine ⟨k :: w :: rest, .cons (.refl k) (.cons hw.reordered (.refl rest)), fun now => ?_⟩
          simp only [writings, tokens, hm]
          exact ((hw.member now _).direct _ _).before _
    · obtain ⟨ws, hws, hdiffer⟩ := exists_tokens_differ rest hrest hk
      refine ⟨k :: v :: ws, .cons (.refl k) (.cons (.refl v) hws), fun now => ?_⟩
      simp only [writings, tokens]
      exact (hdiffer now).after _

/-! ### Every value -/

/-- Keys in different places of objects are different. -/
def KeysApart (parts : List Value) : Prop :=
  ∀ ms, .object ms ∈ parts → (ms.map Prod.fst).Nodup

theorem KeysApart.mono {parts more : List Value} (h : KeysApart more) (hsub : parts ⊆ more) :
    KeysApart parts :=
  fun ms hms => h ms (hsub hms)

/-- A value that is written with its pairs. -/
theorem Telling.of_pairs {v : Value} {keys : List (Value × Value)} (hkeys : KeysApart v.parts)
    (hstanding : v.standing = ⟨keys, keys⟩)
    (h : TellOrder keys → ∃ w, WrittenApart v w ∧ SplicedApart v w) : Telling v where
  asKey hk := exists_keyText_ne v hk hkeys
  written hk := by
    obtain ⟨w, hw, -⟩ := h (by rwa [hstanding] at hk)
    exact ⟨w, hw⟩
  spliced hk := by
    obtain ⟨w, -, hw⟩ := h (by rwa [hstanding] at hk)
    exact ⟨w, hw⟩

section Containers

variable {vs : List Value} {ms : List (String × Value)}

theorem telling_list (h : ∀ v ∈ vs, Telling v) (hkeys : KeysApart (Value.list vs).parts) :
    Telling (.list vs) where
  asKey hk := exists_keyText_ne _ hk hkeys
  written hk := by
    obtain ⟨v, hv, hwritten⟩ := tellOrder_items.1 hk
    obtain ⟨w, hw⟩ := (h v hv).written hwritten
    obtain ⟨before, after, rfl⟩ := List.append_of_mem hv
    have hlisted := fun now => listed_differ hw now before after
    exact ⟨.list (before ++ w :: after), .list (.one before after hw.reordered),
      fun now => (hlisted now).framed, fun now k => (hlisted now).framed.after k⟩
  spliced hk := by
    obtain ⟨ws, hws, hdiffer⟩ := exists_tokens_differ vs h hk
    exact ⟨.list ws, .list hws, fun now => (hdiffer now).later⟩

theorem telling_raw (h : ∀ v ∈ vs, Telling v) (hkeys : KeysApart (Value.raw vs).parts) :
    Telling (.raw vs) := by
  refine .of_pairs hkeys rfl fun hk => ?_
  obtain ⟨ws, hws, hdiffer⟩ := exists_tokens_differ vs h hk
  have hbody := fun now => (hdiffer now).braced.framed
  exact ⟨.raw ws, ⟨.raw hws, hbody, fun now k => (hbody now).after k⟩,
    .raw hws, fun now => (hdiffer now).later⟩

/-- A map with members is written with them. -/
theorem writing_map (now : Clock → Moment) (stamp : Nat) (before after : List (String × Value))
    (m : String × Value) :
    (Value.map ⟨stamp, before ++ m :: after⟩).writing now =
      .paired (bracedScript (members (memberWritings now (before ++ m :: after))))
        (fun _ => members (memberWritings now (before ++ m :: after)))
        (shownActsOf ((memberWritings now (before ++ m :: after)).map Prod.snd)) := by
  have hempty : (memberWritings now (before ++ m :: after)).isEmpty = false := by
    simp [memberWritings_eq]
  simp only [writing, entryWritings, hempty, Bool.false_eq_true, if_false]

theorem telling_map {stamp : Nat} (h : ∀ m ∈ ms, Telling m.2)
    (hkeys : KeysApart (Value.map ⟨stamp, ms⟩).parts) : Telling (.map ⟨stamp, ms⟩) := by
  refine .of_pairs hkeys rfl fun hk => ?_
  obtain ⟨⟨key, v⟩, hm, hwritten⟩ := tellOrder_members.1 hk
  obtain ⟨w, hw⟩ := (h _ hm).written hwritten
  obtain ⟨before, after, rfl⟩ := List.append_of_mem hm
  have hmembers := fun now => members_differ hw now key before after
  have hreordered : Reordered (.map ⟨stamp, before ++ (key, v) :: after⟩)
      (.map ⟨stamp, before ++ (key, w) :: after⟩) := .map (.one before after key hw.reordered)
  refine ⟨_, ⟨hreordered, fun now => ?_, fun now k => ?_⟩, hreordered, fun now => ?_⟩
  all_goals rw [writing_map, writing_map]
  · exact (hmembers now).braced.framed
  · exact (hmembers now).braced.framed.after k
  · exact (hmembers now).later

theorem telling_object (h : ∀ m ∈ ms, Telling m.2) (hkeys : KeysApart (Value.object ms).parts) :
    Telling (.object ms) := by
  have hnodup : (ms.map Prod.fst).Nodup := hkeys ms (self_mem_parts _)
  refine .of_pairs hkeys rfl fun hk => ?_
  obtain ⟨⟨key, v⟩, hm, hwritten⟩ := tellOrder_members.1 hk
  obtain ⟨w, hw⟩ := (h _ hm).written hwritten
  obtain ⟨before, after, rfl⟩ := List.append_of_mem hm
  have hkey : key ∉ (before ++ after).map Prod.fst := by
    rw [List.map_append, List.map_cons, List.nodup_middle] at hnodup
    simpa using (List.nodup_cons.1 hnodup).1
  have hbody := fun now => (members_byKey_differ hw now key before after hkey).braced.framed
  have hreordered : Reordered (.object (before ++ (key, v) :: after))
      (.object (before ++ (key, w) :: after)) :=
    .object hnodup (.one before after key hw.reordered) (.refl _)
  exact ⟨_, ⟨hreordered, hbody, fun now k => (hbody now).after k⟩,
    hreordered, fun now => (hbody now).after _⟩

end Containers

/-- Nothing stands in the empty map. -/
theorem isEmptyMap_of_tellOrder {v : Value} (h : TellOrder v.standing.written) :
    v.isEmptyMap = false := by
  cases v with
  | map p =>
    obtain ⟨stamp, es⟩ := p
    cases es with
    | nil => simp [standing, entriesStanding, membersStanding, Standing.members, TellOrder] at h
    | cons e es => rfl
  | _ => rfl

theorem telling_lazy {code : Code Value} {v : Value} (h : Telling v) : Telling (.lazy code v) where
  asKey hk := by
    obtain ⟨w, hw, hne⟩ := h.asKey hk
    exact ⟨.lazy code w, .lazy hw, hne⟩
  written hk := by
    obtain ⟨w, hw⟩ := h.written hk
    have hempty : v.isEmptyMap = false := isEmptyMap_of_tellOrder hk
    have hitem := fun now => (hw.item now).later
    refine ⟨.lazy code w, .lazy hw.reordered, fun now => (hitem now).guarded _ _, fun now k => ?_⟩
    have hmember := ((hitem now).after k).guarded (codeActs now code) (k ++ lateItem)
    have hempty' : w.isEmptyMap = false := (hw.reordered.alike .words now).isEmptyMap.trans hempty
    simpa only [writing, Writing.deferred, hempty, hempty', Bool.false_eq_true, if_false]
      using hmember
  spliced hk := by
    obtain ⟨w, hw⟩ := h.spliced hk
    exact ⟨.lazy code w, .lazy hw.reordered, fun now => (hw.splice now).later.guarded _ _⟩

theorem not_tellOrder_nil : ¬TellOrder [] := by
  simp [TellOrder]

mutual

/-- **Every value is telling.** -/
theorem telling (v : Value) (hkeys : KeysApart v.parts) : Telling v := by
  cases v with
  | list vs => exact telling_list (telling_items vs (hkeys.mono (List.subset_cons_self ..))) hkeys
  | map p =>
    obtain ⟨stamp, es⟩ := p
    exact telling_map (telling_members es (hkeys.mono (List.subset_cons_self ..))) hkeys
  | raw vs => exact telling_raw (telling_items vs (hkeys.mono (List.subset_cons_self ..))) hkeys
  | object ms =>
    exact telling_object (telling_members ms (hkeys.mono (List.subset_cons_self ..))) hkeys
  | lazy code v => exact telling_lazy (telling v (hkeys.mono (List.subset_cons_self ..)))
  | _ => exact ⟨fun hk => Bool.noConfusion hk, fun hk => absurd hk not_tellOrder_nil,
      fun hk => absurd hk not_tellOrder_nil⟩
termination_by structural v

theorem telling_items (vs : List Value) (hkeys : KeysApart (partsOf vs)) :
    ∀ v ∈ vs, Telling v := by
  cases vs with
  | nil => exact fun v hv => absurd hv List.not_mem_nil
  | cons u rest =>
    have hu := telling u (hkeys.mono (List.subset_append_left ..))
    have hrest := telling_items rest (hkeys.mono (List.subset_append_right ..))
    exact List.forall_mem_cons.2 ⟨hu, hrest⟩
termination_by structural vs

theorem telling_members (ms : List (String × Value)) (hkeys : KeysApart (memberParts ms)) :
    ∀ m ∈ ms, Telling m.2 := by
  cases ms with
  | nil => exact fun m hm => absurd hm List.not_mem_nil
  | cons m rest =>
    obtain ⟨key, v⟩ := m
    have hv := telling v (hkeys.mono (List.subset_append_left ..))
    have hrest := telling_members rest (hkeys.mono (List.subset_append_right ..))
    exact List.forall_mem_cons.2 ⟨hv, hrest⟩
termination_by structural ms

end

end Value

/-! ### Lines -/

namespace Layout

open Value

variable (s : Settings) (bare : Bool) (now : Clock → Moment)

section Body

variable {v w : Value} (h : WrittenApart v w)
include h

theorem body_list_differ (before after : List Value) :
    Differ (body s bare (.list (before ++ v :: after)) (writings now (before ++ v :: after)))
      (body s bare (.list (before ++ w :: after)) (writings now (before ++ w :: after))) := by
  by_cases hone : before ++ after = []
  · obtain ⟨rfl, rfl⟩ := List.append_eq_nil_iff.1 hone
    simp only [List.nil_append, body, writings, List.map_cons, List.map_nil]
    cases s.labels with
    | none => exact h.item now
    | some l =>
      by_cases hmessage : l.message = ""
      · simp only [hmessage, if_true]
        exact (listed_differ h now [] []).after _
      · simp only [hmessage, if_false]
        exact (h.member now _).before _
  · obtain ⟨label, hbody⟩ := exists_body_list s bare
    have hlength : ∀ u : Value, (writings now (before ++ u :: after)).length ≠ 1 := by
      intro u
      have := List.length_pos_iff.2 hone
      simp only [writings_eq, List.length_map, List.length_append, List.length_cons] at this ⊢
      omega
    rw [hbody _ _ (hlength v), hbody _ _ (hlength w)]
    exact (listed_differ h now before after).after label

theorem body_messageList_differ (message : String) (before after : List Value) :
    Differ
      (body s bare (.messageList message (before ++ v :: after))
        (writings now (before ++ v :: after)))
      (body s bare (.messageList message (before ++ w :: after))
        (writings now (before ++ w :: after))) := by
  have hlisted := ((items_differ h now before after).after (opening "[" ++ quote message)).before
    (closing "]")
  have hempty : ∀ u : Value, ((writings now (before ++ u :: after)).map Prod.snd).isEmpty = false :=
    fun u => by simp [writings_eq]
  cases hs : s.labels with
  | none =>
    simp only [body, hs, hempty, Bool.false_eq_true, if_false]
    exact hlisted
  | some l =>
    by_cases hmessage : l.message = ""
    · simp only [body, hs, hmessage, if_true]
      exact hlisted.after _
    · simp only [body, hs, hmessage, hempty, Bool.false_eq_true, if_false]
      exact ((listed_differ h now before after).after _).after _

end Body

section Pairs

variable {us vs : List Value} (h : Differ (tokens (writings now us)) (tokens (writings now vs)))
include h

theorem body_map_differ :
    Differ (body s bare (.map us) (writings now us)) (body s bare (.map vs) (writings now vs)) := by
  cases hs : s.labels with
  | none =>
    simp only [body, hs]
    exact h.braced
  | some l => simpa only [body, hs] using h

theorem body_messageMap_differ (message : String)
    (hempty : (writings now vs).isEmpty = (writings now us).isEmpty) :
    Differ (body s bare (.messageMap message us) (writings now us))
      (body s bare (.messageMap message vs) (writings now vs)) := by
  have hus : (writings now us).isEmpty = false := by
    by_contra hus
    rw [Bool.not_eq_false] at hus
    rw [List.isEmpty_iff.1 hus, List.isEmpty_iff.1 (hempty.trans hus)] at h
    exact (h false).1 rfl
  cases hs : s.labels with
  | none =>
    simp only [body, hs, hempty, hus, Bool.false_eq_true, if_false]
    exact h.braced.after _
  | some l =>
    simp only [body, hs, hempty, hus]
    exact (h.after _).before _

end Pairs

/-- What is said tells an order if one of its keys does. -/
theorem exists_body_differ (form : Form Value) (hkeys : KeysApart (partsOf form.args))
    (hk : TellOrder form.standing) :
    ∃ form', form.Reordered form' ∧ ∀ s bare now,
      Differ (body s bare form (formWritings now form))
        (body s bare form' (formWritings now form')) := by
  have htelling := telling_items form.args hkeys
  cases form with
  | list args =>
    obtain ⟨v, hv, hwritten⟩ := tellOrder_items.1 hk
    obtain ⟨w, hw⟩ := (htelling v hv).written hwritten
    obtain ⟨before, after, rfl⟩ : ∃ before after, args = before ++ v :: after :=
      List.append_of_mem hv
    exact ⟨_, .list (.one before after hw.reordered),
      fun s bare now => body_list_differ s bare now hw before after⟩
  | messageList message args =>
    obtain ⟨v, hv, hwritten⟩ := tellOrder_items.1 hk
    obtain ⟨w, hw⟩ := (htelling v hv).written hwritten
    obtain ⟨before, after, rfl⟩ : ∃ before after, args = before ++ v :: after :=
      List.append_of_mem hv
    exact ⟨_, .messageList (.one before after hw.reordered),
      fun s bare now => body_messageList_differ s bare now hw message before after⟩
  | map tokens =>
    obtain ⟨ws, hws, hdiffer⟩ := exists_tokens_differ tokens htelling hk
    exact ⟨_, .map hws, fun s bare now => body_map_differ s bare now (hdiffer now)⟩
  | messageMap message tokens =>
    obtain ⟨ws, hws, hdiffer⟩ := exists_tokens_differ tokens htelling hk
    exact ⟨_, .messageMap hws, fun s bare now => body_messageMap_differ s bare now (hdiffer now)
      message (writings_isEmpty_alike (hws.alike .words now))⟩

/-- So does a context. -/
theorem exists_tail_differ (es : List (String × Value)) (hkeys : KeysApart (memberParts es))
    (hk : TellOrder (Standing.members (membersStanding es))) :
    ∃ fs, ReorderedMembers es fs ∧ ∀ s now module,
      Differ (tail s (memberWritings now es) module) (tail s (memberWritings now fs) module) ∧
        (memberWritings now es).isEmpty = (memberWritings now fs).isEmpty := by
  obtain ⟨⟨key, v⟩, hm, hwritten⟩ := tellOrder_members.1 hk
  obtain ⟨w, hw⟩ := (telling_members es hkeys _ hm).written hwritten
  obtain ⟨before, after, rfl⟩ := List.append_of_mem hm
  refine ⟨before ++ (key, w) :: after, .one before after key hw.reordered, fun s now module => ?_⟩
  have hmembers := members_differ hw now key before after
  have hempty : ∀ u : Value,
      (memberWritings now (before ++ (key, u) :: after)).isEmpty = false := fun u => by
    simp [memberWritings_eq]
  have hcontext : Differ (contextPart s (memberWritings now (before ++ (key, v) :: after)))
      (contextPart s (memberWritings now (before ++ (key, w) :: after))) := by
    simp only [contextPart, hempty, Bool.false_eq_true, if_false]
    cases s.labels with
    | none => exact hmembers.braced
    | some l =>
      by_cases hlabel : l.context = ""
      · simpa only [hlabel, if_true] using hmembers
      · simp only [hlabel, if_false]
        exact hmembers.braced.after _
  exact ⟨(hcontext.before _).before _, (hempty v).trans (hempty w).symm⟩

end Layout

namespace Writer

open Value

/-- **A line tells every order that one of its keys tells.** -/
theorem exists_script_differ (w : Writer Value) (form : Form Value)
    (hkeys : KeysApart (w.parts form)) (hk : TellOrder (w.standing form)) :
    ∃ w' form', w.Reordered w' ∧ form.Reordered form' ∧
      ∀ now, Differ (w.script now form) (w'.script now form') := by
  obtain ⟨stamp, severity, ⟨contextStamp, es⟩, module, settings⟩ := w
  rcases tellOrder_append.1 hk with hk | hk
  · obtain ⟨form', hform, hdiffer⟩ := Layout.exists_body_differ form
      (hkeys.mono (List.subset_append_left ..)) hk
    refine ⟨_, form', .context (.refl es), hform, fun now => ?_⟩
    exact (((hdiffer settings _ now).after _).before _).later
  · obtain ⟨fs, hfs, hdiffer⟩ := Layout.exists_tail_differ es
      (hkeys.mono (List.subset_append_right ..)) hk
    refine ⟨⟨stamp, severity, ⟨contextStamp, fs⟩, module, settings⟩, form, .context hfs, ?_, ?_⟩
    · cases form with
      | list args => exact .list (.refl args)
      | messageList message args => exact .messageList (.refl args)
      | map tokens => exact .map (.refl tokens)
      | messageMap message tokens => exact .messageMap (.refl tokens)
    · intro now
      obtain ⟨htail, hempty⟩ := hdiffer settings now module
      have hline := (htail.after (Layout.head settings now severity ++
        Layout.body settings (memberWritings now es).isEmpty form (formWritings now form))).later
      simpa only [script, Layout.line, entryWritings, hempty] using hline

/-- What a line says depends on no order if and only if none of the keys that are written does. -/
theorem wording_same_iff (now : Clock → Moment) (w : Writer Value) (form : Form Value)
    (hkeys : KeysApart (w.parts form)) :
    (∀ w' form', w.Reordered w' → form.Reordered form' →
      Script.wording (w'.script now form') false = Script.wording (w.script now form) false) ↔
    ∀ m ∈ w.standing form, m.2.leftOut = false → m.1.keyShowsOrder = false := by
  rw [← not_tellOrder_iff]
  refine ⟨fun hsame hk => ?_, fun hk w' form' hw hform => ?_⟩
  · obtain ⟨w', form', hw, hform, hdiffer⟩ := exists_script_differ w form hkeys hk
    exact (hdiffer now false).1 (congrArg Prod.fst (hsame w' form' hw hform)).symm
  · have hcount : TellNoOrder .words (w.standing form) := fun m hm hcounts =>
      not_tellOrder_iff.1 hk m hm (by simpa [View.counts] using hcounts)
    have hline := (line_alike .words now hw hform hcount).1.later
    exact (hline false).symm

/-- **An order shows in the texts of keys only.** What a line says depends on the order in which
objects hold their members if and only if a key that is written, and not left out with its member,
shows an object of two or more of them. If no key does at all, the call with its values in any other
order is the very same in all it does. And where such keys come to be in a map, the orders of one value
may be different keys of it. -/
theorem order_shows_in_keys (w : Writer Value) (form : Form Value)
    (hkeys : ∀ ms, .object ms ∈ w.parts form → (ms.map Prod.fst).Nodup) :
    (∀ now : Clock → Moment,
      (∀ w' form', w.Reordered w' → form.Reordered form' →
        Script.wording (w'.script now form') false = Script.wording (w.script now form) false) ↔
      ∀ m ∈ w.standing form, m.2.leftOut = false → m.1.keyShowsOrder = false) ∧
    ((∀ m ∈ w.standing form, m.1.keyShowsOrder = false) →
      ∀ (σ : Type) (w' : Writer Value) (form' : Form Value), w.Reordered w' →
        form.Reordered form' →
          (Run.writeForm (.enabled w') form' : Run σ Unit) = Run.writeForm (.enabled w) form) ∧
    ∀ k : Value, k.keyShowsOrder = true → (∀ ms, .object ms ∈ k.parts → (ms.map Prod.fst).Nodup) →
      ∃ l, Value.Reordered k l ∧ ∀ u v : Value,
        Pairs.insertAll [] (Run.tokenPairs [k, u, l, v]) = [(k.keyText, u), (l.keyText, v)] := by
  refine ⟨fun now => wording_same_iff now w form hkeys, fun hk σ w' form' hw hform => ?_,
    fun k hk hparts => ?_⟩
  · have hdeeds : TellNoOrder .deeds (w.standing form) := fun m hm _ => hk m hm
    funext p
    simp only [Run.writeForm, handleActs_alike _ hw hform hdeeds]
  · obtain ⟨l, hl, hne⟩ := Value.exists_keyText_ne k hk hparts
    refine ⟨l, hl, fun u v => ?_⟩
    simp [Run.tokenPairs, Pairs.insertAll, Pairs.insert, hne]

/-- An object behind a key, in both orders, then as a key. -/
theorem object_key_shows_order :
    let noon : Clock → Moment := fun _ => ⟨2026, 1, 1, 12, 0, 0, 0⟩
    let w : Writer Value := ⟨0, .warn, .empty, none, .initial none⟩
    let one : List (String × Value) := [("a", .str "1"), ("b", .lazy ⟨1, [], none⟩ .null)]
    let other : List (String × Value) := [("b", .lazy ⟨1, [], none⟩ .null), ("a", .str "1")]
    (∀ σ : Type, (Run.writeForm (.enabled w) (.map [.str "k", .object other]) : Run σ Unit) =
      Run.writeForm (.enabled w) (.map [.str "k", .object one])) ∧
    ∃ w' form', w.Reordered w' ∧ (Form.list [.raw [.object one, .null]]).Reordered form' ∧
      Script.wording (w'.script noon form') false ≠
        Script.wording (w.script noon (.list [.raw [.object one, .null]])) false := by
  intro noon w one other
  have hone : (one.map Prod.fst).Nodup := by decide
  have hobject : Value.Reordered (.object one) (.object other) :=
    .object hone (.refl one) (.swap _ _ _)
  have hitems : ReorderedItems [.str "k", .object one] [.str "k", .object other] :=
    .cons (.refl _) (.cons hobject .nil)
  have hkeys : ∀ form : Form Value, form.args = [.str "k", .object one] ∨
      form.args = [.raw [.object one, .null]] →
        ∀ ms, .object ms ∈ w.parts form → (ms.map Prod.fst).Nodup := by
    intro form hargs ms hms
    have hms : ms = one := by
      rcases hargs with hargs | hargs <;>
        simpa [Writer.parts, hargs, partsOf, Value.parts, memberParts, entryParts, Pairs.empty, w,
          one] using hms
    exact hms ▸ hone
  obtain ⟨-, hline, -⟩ := order_shows_in_keys w (.map [.str "k", .object one])
    (hkeys _ (.inl rfl))
  obtain ⟨hkey, -, -⟩ := order_shows_in_keys w (.list [.raw [.object one, .null]])
    (hkeys _ (.inr rfl))
  refine ⟨fun σ => hline ?_ σ w _ (.context .nil) (.map hitems), ?_⟩
  · simp [standing, Form.standing, standingOf, Value.standing, Standing.tokens, Value.marker?,
      Standing.members, membersStanding, entriesStanding, Standing.nothing, one, w, Pairs.empty,
      keyShowsOrder, showsOrder]
  · have hwritten : (.object one, .null) ∈ w.standing (.list [.raw [.object one, .null]]) := by
      simp [standing, Form.standing, standingOf, Value.standing, Standing.items, Standing.tokens,
        Value.marker?]
    by_contra hnone
    have hsame := (hkey noon).1 fun w' form' hw hform =>
      not_not.1 fun hne => hnone ⟨w', form', hw, hform, hne⟩
    exact Bool.noConfusion (hsame _ hwritten rfl)

end Writer

end Logline
