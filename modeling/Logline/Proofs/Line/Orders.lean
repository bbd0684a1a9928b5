import Mathlib.Data.List.Forall2
import Mathlib.Data.List.Nodup
import Logline.Proofs.Line.Calls
import Logline.Proofs.Value.Orders

/-!
Lines of reordered values. A line says nothing of the order in which objects hold their members but
what the texts of its keys tell: if no key that is written shows an object of two or more members,
lines with the values in another order say the same; and if there is no such key at all, neither
written nor left out, calls with them do the very same.

Both are one argument, for two views of a script (`View`): what it does, and what it says.
-/

namespace Logline

open Script Text Json

/-! ### Two views of a script -/

/-- How closely scripts are compared: in all they do, or in what they say. -/
inductive View where
  | deeds
  | words

namespace View

def Same : View → Script → Script → Prop
  | .deeds, s, t => s = t
  | .words, s, t => ∀ owed, Script.wording s owed = Script.wording t owed

/-- Whether a key matters, with what stands behind it. A line does not say the key of a member that
is left out. -/
def counts : View → Value × Value → Bool
  | .deeds, _ => true
  | .words, m => !m.2.leftOut

namespace Same

variable {view : View} {a b s t : Script}

protected theorem refl (view : View) (s : Script) : view.Same s s := by
  cases view with
  | deeds => exact Eq.refl s
  | words => exact fun owed => rfl

theorem append (h : view.Same a b) (h' : view.Same s t) : view.Same (a ++ s) (b ++ t) := by
  cases view with
  | deeds => exact congrArg₂ _ h h'
  | words =>
    intro owed
    simp only [wording_append, h owed, h' (Script.wording b owed).2]

variable (h : view.Same s t)
include h

theorem after (front : Script) : view.Same (front ++ s) (front ++ t) :=
  (Same.refl view front).append h

theorem before (back : Script) : view.Same (s ++ back) (t ++ back) :=
  h.append (.refl view back)

theorem direct (acts : List Act) : view.Same (.direct acts :: s) (.direct acts :: t) :=
  h.after [.direct acts]

theorem later : view.Same [Script.later fun _ => s] [Script.later fun _ => t] := by
  cases view with
  | deeds => exact congrArg (fun s => [Script.later fun _ => s]) h
  | words => exact fun owed => by simpa only [wording_later] using h owed

theorem guarded (acts : List Act) (late : Script) :
    view.Same [.guarded acts s late] [.guarded acts t late] := by
  cases view with
  | deeds => exact congrArg (fun s => [Instr.guarded acts s late]) h
  | words => exact fun owed => by simp only [Script.wording, Instr.wording, h owed]

theorem framed : view.Same (framed s) (framed t) := by
  cases view with
  | deeds => exact congrArg Script.framed h
  | words => exact fun owed => by simp [Script.framed, Script.wording, Instr.wording, h false]

theorem braced : view.Same (bracedScript s) (bracedScript t) :=
  (h.after _).before _

end Same

end View

namespace Value

/-- No text of these keys depends on an order, as far as they matter. -/
def TellNoOrder (view : View) (keys : List (Value × Value)) : Prop :=
  ∀ m ∈ keys, view.counts m = true → m.1.keyShowsOrder = false

variable {view : View} {now : Clock → Moment}

theorem tellNoOrder_append {a b : List (Value × Value)} :
    TellNoOrder view (a ++ b) ↔ TellNoOrder view a ∧ TellNoOrder view b :=
  List.forall_mem_append

theorem tellNoOrder_cons {m : Value × Value} {keys : List (Value × Value)} :
    TellNoOrder view (m :: keys) ↔
      (view.counts m = true → m.1.keyShowsOrder = false) ∧ TellNoOrder view keys :=
  List.forall_mem_cons

theorem tellNoOrder_items {vs : List Value} :
    TellNoOrder view (Standing.items (standingOf vs)) ↔
      ∀ v ∈ vs, TellNoOrder view v.standing.written := by
  rw [items_standingOf]
  exact List.forall_mem_flatMap

theorem tellNoOrder_members {ms : List (String × Value)} :
    TellNoOrder view (Standing.members (membersStanding ms)) ↔
      ∀ m ∈ ms, TellNoOrder view m.2.standing.written := by
  rw [members_membersStanding]
  exact List.forall_mem_flatMap

/-- Values that are written alike as far as the keys in the first tell no order, and as keys and in
texts if the first itself tells none. -/
structure Alike (view : View) (now : Clock → Moment) (u v : Value) : Prop where
  marker : v.marker? = u.marker?
  isEmptyMap : v.isEmptyMap = u.isEmptyMap
  leftOut : v.leftOut = u.leftOut
  item : TellNoOrder view u.standing.written →
    view.Same (u.writing now).item (v.writing now).item
  member : TellNoOrder view u.standing.written → ∀ k : Script,
    view.Same ((u.writing now).member k) ((v.writing now).member k)
  splice : TellNoOrder view u.standing.spliced →
    view.Same (u.writing now).splice (v.writing now).splice
  keyText : u.keyShowsOrder = false → v.keyText = u.keyText
  keyActs : u.keyShowsOrder = false → (v.writing now).keyActs () = (u.writing now).keyActs ()
  shown : u.showsOrder = false → v.shown = u.shown
  shownActs : u.showsOrder = false → (v.writing now).shownActs = (u.writing now).shownActs

theorem Alike.refl (v : Value) : Alike view now v v :=
  ⟨rfl, rfl, rfl, fun _ => .refl view _, fun _ _ => .refl view _, fun _ => .refl view _,
    fun _ => rfl, fun _ => rfl, fun _ => rfl, fun _ => rfl⟩

/-! ### Values one after the other -/

section Items

variable {us vs : List Value} (h : List.Forall₂ (Alike view now) us vs)
include h

theorem items_alike (hk : ∀ u ∈ us, TellNoOrder view u.standing.written) :
    view.Same (items ((writings now us).map Prod.snd)) (items ((writings now vs).map Prod.snd)) := by
  induction h with
  | nil => exact .refl view _
  | cons hv _ ih =>
    obtain ⟨hfirst, hrest⟩ := List.forall_mem_cons.1 hk
    exact (hv.item hfirst).append (ih hrest)

theorem listed_alike (hk : ∀ u ∈ us, TellNoOrder view u.standing.written) :
    view.Same (listed ((writings now us).map Prod.snd))
      (listed ((writings now vs).map Prod.snd)) :=
  ((items_alike h hk).after _).before _

theorem shownItems_alike (hs : itemsShowOrder us = false) :
    shownItems vs = shownItems us ∧
      shownActsOf ((writings now vs).map Prod.snd) = shownActsOf ((writings now us).map Prod.snd) := by
  induction h with
  | nil => exact ⟨rfl, rfl⟩
  | cons hv _ ih =>
    obtain ⟨hfirst, hrest⟩ := Bool.or_eq_false_iff.1 hs
    obtain ⟨htexts, hacts⟩ := ih hrest
    refine ⟨congrArg₂ List.cons (hv.shown hfirst) htexts, ?_⟩
    show Writing.shownActs _ ++ shownActsOf _ = Writing.shownActs _ ++ shownActsOf _
    rw [hv.shownActs hfirst, hacts]

end Items

/-- A member that is left out says nothing. -/
theorem wording_member_of_leftOut {v : Value} (h : v.leftOut = true) (k : Script) (owed : Bool) :
    Script.wording ((v.writing now).member k) owed = ([], owed) := by
  cases v with
  | map p =>
    obtain ⟨stamp, es⟩ := p
    cases es with
    | nil => rfl
    | cons e es => exact Bool.noConfusion h
  | lazy code v =>
    have hempty : v.isEmptyMap = true := h
    simp [writing, Writing.deferred, Script.wording, Instr.wording, hempty]
  | _ => exact Bool.noConfusion h

/-- A key and what stands behind it. -/
theorem token_alike {k l u v : Value} (hkey : Alike view now k l) (hv : Alike view now u v)
    (hk : TellNoOrder view ((k, u) :: u.standing.written)) :
    view.Same (.direct ((k.writing now).keyActs ()) :: (u.writing now).member (key k.keyText))
      (.direct ((l.writing now).keyActs ()) :: (v.writing now).member (key l.keyText)) := by
  obtain ⟨hshows, hwritten⟩ := tellNoOrder_cons.1 hk
  cases hcounts : view.counts (k, u) with
  | true =>
    rw [hkey.keyActs (hshows hcounts), hkey.keyText (hshows hcounts)]
    exact (hv.member hwritten _).direct _
  | false =>
    cases view with
    | deeds => exact Bool.noConfusion hcounts
    | words =>
      have hu : u.leftOut = true := by simpa [View.counts] using hcounts
      have hv : v.leftOut = true := hv.leftOut.trans hu
      intro owed
      simp only [Script.wording, Instr.wording, wording_member_of_leftOut hu,
        wording_member_of_leftOut hv]

/-- Keys and values in turn. -/
theorem tokens_alike {us vs : List Value} (h : List.Forall₂ (Alike view now) us vs)
    (hk : TellNoOrder view (Standing.tokens (standingOf us))) :
    view.Same (tokens (writings now us)) (tokens (writings now vs)) := by
  cases h with
  | nil => exact .refl view _
  | @cons k l _ _ hkey h =>
    cases h with
    | nil =>
      simp only [standingOf, Standing.tokens] at hk
      simp only [writings, tokens, hkey.marker]
      cases hm : k.marker? with
      | some _ => exact .refl view _
      | none =>
        rw [hm] at hk
        exact token_alike hkey (.refl .null) hk
    | cons hv h =>
      simp only [standingOf, Standing.tokens] at hk
      obtain ⟨hfirst, hothers⟩ := tellNoOrder_append.1 hk
      simp only [writings, tokens, hkey.marker]
      refine View.Same.append ?_ (tokens_alike h hothers)
      cases hm : k.marker? with
      | some marker =>
        rw [hm] at hfirst
        cases marker with
        | skip => exact .refl view _
        | inline => exact hv.splice hfirst
      | none =>
        rw [hm] at hfirst
        exact token_alike hkey hv hfirst
termination_by us.length

/-! ### Members -/

/-- Members under the same key. -/
def AlikeMember (view : View) (now : Clock → Moment) (m n : String × Value) : Prop :=
  n.1 = m.1 ∧ Alike view now m.2 n.2

section Members

variable {ms ns : List (String × Value)} (h : List.Forall₂ (AlikeMember view now) ms ns)
include h

theorem keys_alike : ns.map Prod.fst = ms.map Prod.fst := by
  induction h with
  | nil => rfl
  | cons hm _ ih => exact congrArg₂ List.cons hm.1 ih

theorem members_alike (hk : ∀ m ∈ ms, TellNoOrder view m.2.standing.written) :
    view.Same (members (memberWritings now ms)) (members (memberWritings now ns)) := by
  induction h with
  | nil => exact .refl view _
  | @cons m n _ _ hm _ ih =>
    obtain ⟨hfirst, hrest⟩ := List.forall_mem_cons.1 hk
    have hmember := hm.2.member hfirst (key m.1)
    refine View.Same.append ?_ (ih hrest)
    rwa [hm.1]

theorem shownMembers_alike (hs : membersShowOrder ms = false) :
    shownEntries ns = shownEntries ms ∧
      shownActsOf ((memberWritings now ns).map Prod.snd) =
        shownActsOf ((memberWritings now ms).map Prod.snd) := by
  induction h with
  | nil => exact ⟨rfl, rfl⟩
  | cons hm _ ih =>
    obtain ⟨hfirst, hrest⟩ := Bool.or_eq_false_iff.1 hs
    obtain ⟨htexts, hacts⟩ := ih hrest
    refine ⟨congrArg₂ List.cons (Prod.ext hm.1 (hm.2.shown hfirst)) htexts, ?_⟩
    show Writing.shownActs _ ++ shownActsOf _ = Writing.shownActs _ ++ shownActsOf _
    rw [hm.2.shownActs hfirst, hacts]

end Members

/-! ### Sorted members -/

/-- Members in the order of their keys. -/
def sorted {α : Type} (ms : List (String × α)) : List (String × α) :=
  ms.mergeSort fun a b => a.1 ≤ b.1

theorem map_sorted {α β : Type} (f : String × α → β) (ms : List (String × α)) :
    (sorted ms).map (fun m => (m.1, f m)) = sorted (ms.map fun m => (m.1, f m)) :=
  List.map_mergeSort fun _ _ _ _ => rfl

theorem byKey_memberWritings (ms : List (String × Value)) :
    byKey (memberWritings now ms) = memberWritings now (sorted ms) := by
  rw [memberWritings_eq, memberWritings_eq, map_sorted]
  rfl

/-- Sorting by different keys leaves nothing of an order. -/
theorem sorted_eq_of_perm {α : Type} {as bs : List (String × α)} (hperm : as.Perm bs)
    (hkeys : (as.map Prod.fst).Nodup) : sorted as = sorted bs := by
  have hsorted : ∀ l : List (String × α),
      (sorted l).Pairwise fun a b => decide (a.1 ≤ b.1) = true := fun l =>
    List.pairwise_mergeSort
      (fun a b c hab hbc => by
        simp only [decide_eq_true_eq] at *
        exact String.le_trans hab hbc)
      (fun a b => by simpa using String.le_total a.1 b.1) l
  refine List.Perm.eq_of_pairwise (fun a b ha hb hab hba => ?_) (hsorted as) (hsorted bs)
    ((List.mergeSort_perm as _).trans (hperm.trans (List.mergeSort_perm bs _).symm))
  simp only [decide_eq_true_eq] at hab hba
  have ha := List.mem_mergeSort.1 ha
  have hb := hperm.mem_iff.2 (List.mem_mergeSort.1 hb)
  exact List.inj_on_of_nodup_map hkeys ha hb (String.le_antisymm hab hba)

/-- Members under the same keys are sorted alike. -/
theorem sorted_alike {ms ns : List (String × Value)}
    (h : List.Forall₂ (AlikeMember view now) ms ns) :
    List.Forall₂ (AlikeMember view now) (sorted ms) (sorted ns) := by
  -- both in one list
  obtain ⟨zs, rfl, rfl, hzs⟩ : ∃ zs : List (String × Value × Value),
      ms = zs.map (fun z => (z.1, z.2.1)) ∧ ns = zs.map (fun z => (z.1, z.2.2)) ∧
        ∀ z ∈ zs, Alike view now z.2.1 z.2.2 := by
    induction h with
    | nil => exact ⟨[], rfl, rfl, fun _ hz => absurd hz List.not_mem_nil⟩
    | @cons m n _ _ hm _ ih =>
      obtain ⟨zs, rfl, rfl, hzs⟩ := ih
      exact ⟨(m.1, m.2, n.2) :: zs, rfl, congrArg (· :: _) (Prod.ext hm.1 rfl),
        List.forall_mem_cons.2 ⟨hm.2, hzs⟩⟩
  rw [← map_sorted, ← map_sorted, List.forall₂_map_left_iff,
    List.forall₂_map_right_iff, List.forall₂_same]
  exact fun z hz => ⟨rfl, hzs z (List.mem_mergeSort.1 hz)⟩

/-- Members in the order of their keys, whatever order they are held in. -/
theorem members_byKey_alike {ms ns ps : List (String × Value)} (hkeys : (ms.map Prod.fst).Nodup)
    (h : List.Forall₂ (AlikeMember view now) ms ns) (hperm : ns.Perm ps)
    (hk : ∀ m ∈ ms, TellNoOrder view m.2.standing.written) :
    view.Same (members (byKey (memberWritings now ms)))
      (members (byKey (memberWritings now ps))) := by
  have hsorted : sorted ps = sorted ns :=
    (sorted_eq_of_perm hperm (by rwa [keys_alike h])).symm
  rw [byKey_memberWritings, byKey_memberWritings, hsorted]
  exact members_alike (sorted_alike h) fun m hm => hk m (List.mem_mergeSort.1 hm)

/-! ### Values -/

/-- Values with pairs, with alike bodies. -/
theorem alike_paired {u v : Value} {body body' : Script} {pairs pairs' : Script}
    {acts acts' : List Act} (hmarker : v.marker? = u.marker?)
    (hempty : v.isEmptyMap = u.isEmptyMap) (hleft : v.leftOut = u.leftOut)
    (hu : u.writing now = .paired body (fun _ => pairs) acts)
    (hv : v.writing now = .paired body' (fun _ => pairs') acts')
    (hbody : TellNoOrder view u.standing.written → view.Same body body')
    (hpairs : TellNoOrder view u.standing.spliced → view.Same pairs pairs')
    (hkey : u.keyShowsOrder = u.showsOrder) (hcontainer : u.isContainer ∧ v.isContainer)
    (hshown : u.showsOrder = false → v.shown = u.shown ∧ acts' = acts) : Alike view now u v where
  marker := hmarker
  isEmptyMap := hempty
  leftOut := hleft
  item hk := by
    rw [hu, hv]
    exact (hbody hk).framed
  member hk k := by
    rw [hu, hv]
    exact (hbody hk).framed.after k
  splice hk := by
    rw [hu, hv]
    exact (hpairs hk).later
  keyText hs := by
    rw [keyText_of_isContainer hcontainer.1, keyText_of_isContainer hcontainer.2]
    exact (hshown (hkey ▸ hs)).1
  keyActs hs := by rw [hu, hv, (hshown (hkey ▸ hs)).2]; rfl
  shown hs := (hshown hs).1
  shownActs hs := by rw [hu, hv, (hshown hs).2]; rfl

section Containers

variable {us vs : List Value} {ms ns : List (String × Value)}

theorem alike_list (h : List.Forall₂ (Alike view now) us vs) :
    Alike view now (.list us) (.list vs) := by
  refine alike_paired rfl rfl rfl rfl rfl (fun hk => listed_alike h (tellNoOrder_items.1 hk))
    (tokens_alike h) rfl ⟨rfl, rfl⟩ fun hs => ?_
  obtain ⟨htexts, hacts⟩ := shownItems_alike h hs
  exact ⟨congrArg bracketed htexts, hacts⟩

theorem alike_raw (h : List.Forall₂ (Alike view now) us vs) :
    Alike view now (.raw us) (.raw vs) := by
  refine alike_paired rfl rfl rfl rfl rfl (fun hk => (tokens_alike h hk).braced) (tokens_alike h) rfl
    ⟨rfl, rfl⟩ fun hs => ?_
  obtain ⟨htexts, hacts⟩ := shownItems_alike h hs
  exact ⟨congrArg (fun texts => "RawMap(" ++ bracketed texts ++ ")") htexts, hacts⟩

theorem alike_map {stamp : Nat} (h : List.Forall₂ (AlikeMember view now) ms ns) :
    Alike view now (.map ⟨stamp, ms⟩) (.map ⟨stamp, ns⟩) := by
  cases h with
  | nil => exact .refl _
  | cons hm hrest =>
    have h := List.Forall₂.cons hm hrest
    have hmembers := fun hk => members_alike h (tellNoOrder_members.1 hk)
    refine alike_paired rfl rfl rfl rfl rfl (fun hk => (hmembers hk).braced) hmembers rfl ⟨rfl, rfl⟩
      fun hs => ?_
    obtain ⟨htexts, hacts⟩ := shownMembers_alike h hs
    exact ⟨congrArg braced htexts, hacts⟩

theorem alike_object {ps : List (String × Value)} (hkeys : (ms.map Prod.fst).Nodup)
    (h : List.Forall₂ (AlikeMember view now) ms ns) (hperm : ns.Perm ps) :
    Alike view now (.object ms) (.object ps) := by
  have hbody : TellNoOrder view (Standing.members (membersStanding ms)) → view.Same
      (framed (bracedScript (members (byKey (memberWritings now ms)))))
      (framed (bracedScript (members (byKey (memberWritings now ps))))) := fun hk =>
    (members_byKey_alike hkeys h hperm (tellNoOrder_members.1 hk)).braced.framed
  have hshown : (Value.object ms).showsOrder = false →
      (Value.object ps).shown = (Value.object ms).shown ∧
        shownActsOf ((memberWritings now ps).map Prod.snd) =
          shownActsOf ((memberWritings now ms).map Prod.snd) := by
    intro hs
    obtain ⟨hlength, hs⟩ := Bool.or_eq_false_iff.1 hs
    -- one member has no other order
    have hsame : ps = ns := by
      have hle : ns.length ≤ 1 := by
        rw [← h.length_eq]
        simpa using hlength
      match ns, hle with
      | [], _ => exact hperm.nil_eq.symm
      | [n], _ => exact (List.perm_singleton.1 hperm.symm)
    rw [hsame]
    obtain ⟨htexts, hacts⟩ := shownMembers_alike h hs
    exact ⟨congrArg braced htexts, hacts⟩
  exact
    { marker := rfl
      isEmptyMap := rfl
      leftOut := rfl
      item := hbody
      member := fun hk k => (hbody hk).after k
      splice := fun hk => (hbody hk).after _
      keyText := fun hs => (hshown hs).1
      keyActs := fun hs => (hshown hs).2
      shown := fun hs => (hshown hs).1
      shownActs := fun hs => (hshown hs).2 }

end Containers

/-- A deferred value is written as what it comes to. -/
theorem alike_lazy {code : Code Value} {u v : Value} (h : Alike view now u v) :
    Alike view now (.lazy code u) (.lazy code v) where
  marker := rfl
  isEmptyMap := rfl
  leftOut := h.isEmptyMap
  item hk := (h.item hk).later.guarded _ _
  member hk k := by
    have hitem := (h.item hk).later
    simp only [writing, Writing.deferred, h.isEmptyMap]
    cases u.isEmptyMap with
    | true => exact .refl view _
    | false => exact (hitem.after k).guarded _ _
  splice hk := (h.splice hk).later.guarded _ _
  keyText := h.keyText
  keyActs hs := congrArg (codeActs now code ++ ·) (h.keyActs hs)
  shown _ := rfl
  shownActs _ := rfl

mutual

/-- **Reordered values are alike.** -/
theorem Reordered.alike (view : View) (now : Clock → Moment) :
    ∀ {u v : Value}, Reordered u v → Alike view now u v
  | _, _, .refl u => .refl u
  | _, _, .list h => alike_list (h.alike view now)
  | _, _, .map h => alike_map (h.alike view now)
  | _, _, .raw h => alike_raw (h.alike view now)
  | _, _, .object hkeys h hperm => alike_object hkeys (h.alike view now) hperm
  | _, _, .lazy h => alike_lazy (h.alike view now)

theorem ReorderedItems.alike (view : View) (now : Clock → Moment) :
    ∀ {us vs : List Value}, ReorderedItems us vs → List.Forall₂ (Alike view now) us vs
  | _, _, .nil => .nil
  | _, _, .cons h hrest => .cons (h.alike view now) (hrest.alike view now)

theorem ReorderedMembers.alike (view : View) (now : Clock → Moment) :
    ∀ {ms ns : List (String × Value)}, ReorderedMembers ms ns →
      List.Forall₂ (AlikeMember view now) ms ns
  | _, _, .nil => .nil
  | _, _, .cons h hrest => .cons ⟨rfl, h.alike view now⟩ (hrest.alike view now)

end

end Value

/-! ### Lines -/

namespace Layout

open Value

variable {view : View} {now : Clock → Moment} (s : Settings) (bare : Bool)

/-- All but a single value are written in a list. -/
theorem exists_body_list : ∃ label, ∀ (vs : List Value) (args : List (Value × Writing)),
    args.length ≠ 1 → body s bare (.list vs) args = label ++ listed (args.map Prod.snd) := by
  cases hs : s.labels with
  | none =>
    refine ⟨[], fun vs args hargs => ?_⟩
    match args, hargs with
    | [], _ => simp [body, hs]
    | _ :: _ :: _, _ => simp [body, hs]
  | some l =>
    refine ⟨key l.arguments, fun vs args hargs => ?_⟩
    match args, hargs with
    | [], _ => simp [body, hs]
    | _ :: _ :: _, _ => simp [body, hs]

section Body

variable {us vs : List Value} (h : List.Forall₂ (Alike view now) us vs)
include h

theorem writings_isEmpty_alike : (writings now vs).isEmpty = (writings now us).isEmpty := by
  cases h <;> rfl

/-- One value may stand alone. -/
theorem body_list_alike (hk : ∀ u ∈ us, TellNoOrder view u.standing.written) :
    view.Same (body s bare (.list us) (writings now us))
      (body s bare (.list vs) (writings now vs)) := by
  have hlisted := listed_alike h hk
  cases h with
  | nil => exact .refl view _
  | cons hv hrest =>
    cases hrest with
    | nil =>
      have hwritten := (List.forall_mem_cons.1 hk).1
      simp only [body, writings, List.map_cons, List.map_nil]
      cases s.labels with
      | none => exact hv.item hwritten
      | some l =>
        by_cases hmessage : l.message = ""
        · simp only [hmessage, if_true]
          exact hlisted.after _
        · simp only [hmessage, if_false]
          exact (hv.member hwritten _).before _
    | cons hu hrest =>
      obtain ⟨label, hbody⟩ := exists_body_list s bare
      rw [hbody _ _ (by simp [writings]), hbody _ _ (by simp [writings])]
      exact hlisted.after label

theorem body_messageList_alike (message : String)
    (hk : ∀ u ∈ us, TellNoOrder view u.standing.written) :
    view.Same (body s bare (.messageList message us) (writings now us))
      (body s bare (.messageList message vs) (writings now vs)) := by
  have hlisted := listed_alike h hk
  have hmessage : view.Same (messageListed message ((writings now us).map Prod.snd))
      (messageListed message ((writings now vs).map Prod.snd)) :=
    ((items_alike h hk).after _).before _
  cases h with
  | nil => exact .refl view _
  | cons hv hrest =>
    cases hs : s.labels with
    | none =>
      simp only [body, hs]
      exact hmessage
    | some l =>
      by_cases hblank : l.message = ""
      · simp only [body, hs, hblank, if_true]
        exact hmessage.after _
      · simp only [body, hs, hblank, if_false]
        exact (hlisted.after _).after _

theorem body_map_alike (hk : TellNoOrder view (Standing.tokens (standingOf us))) :
    view.Same (body s bare (.map us) (writings now us))
      (body s bare (.map vs) (writings now vs)) := by
  have htokens := tokens_alike h hk
  cases hs : s.labels with
  | none =>
    simp only [body, hs]
    exact htokens.braced
  | some l => simpa only [body, hs] using htokens

theorem body_messageMap_alike (message : String)
    (hk : TellNoOrder view (Standing.tokens (standingOf us))) :
    view.Same (body s bare (.messageMap message us) (writings now us))
      (body s bare (.messageMap message vs) (writings now vs)) := by
  have htokens := tokens_alike h hk
  have hempty := writings_isEmpty_alike h
  cases hs : s.labels with
  | none =>
    simp only [body, hs, hempty]
    cases (writings now us).isEmpty with
    | true => exact .refl view _
    | false => exact htokens.braced.after _
  | some l =>
    simp only [body, hs, hempty]
    exact (htokens.after _).before _

end Body

variable (view now) in
theorem body_alike {form form' : Form Value} (h : form.Reordered form')
    (hk : TellNoOrder view form.standing) :
    view.Same (body s bare form (formWritings now form))
      (body s bare form' (formWritings now form')) := by
  cases h with
  | list h => exact body_list_alike s bare (h.alike view now) (tellNoOrder_items.1 hk)
  | messageList h =>
    exact body_messageList_alike s bare (h.alike view now) _ (tellNoOrder_items.1 hk)
  | map h => exact body_map_alike s bare (h.alike view now) hk
  | messageMap h => exact body_messageMap_alike s bare (h.alike view now) _ hk

theorem tail_alike {es fs : List (String × Value)}
    (h : List.Forall₂ (AlikeMember view now) es fs)
    (hk : TellNoOrder view (Standing.members (membersStanding es))) (module : Option String) :
    view.Same (tail s (memberWritings now es) module) (tail s (memberWritings now fs) module) ∧
      (memberWritings now es).isEmpty = (memberWritings now fs).isEmpty := by
  have hmembers := members_alike h (tellNoOrder_members.1 hk)
  have hempty : (memberWritings now es).isEmpty = (memberWritings now fs).isEmpty := by
    cases h <;> rfl
  have hcontext : view.Same (contextPart s (memberWritings now es))
      (contextPart s (memberWritings now fs)) := by
    simp only [contextPart, hempty]
    cases (memberWritings now fs).isEmpty with
    | true => exact .refl view _
    | false =>
      cases s.labels with
      | none => exact hmembers.braced
      | some l =>
        by_cases hblank : l.context = ""
        · simpa only [hblank, if_true, Bool.false_eq_true, if_false] using hmembers
        · simp only [hblank, if_false]
          exact hmembers.braced.after _
  exact ⟨(hcontext.before _).before _, hempty⟩

end Layout

namespace Writer

open Value

/-- **Lines of reordered values**, with their handles. -/
theorem line_alike (view : View) (now : Clock → Moment) {w w' : Writer Value}
    {form form' : Form Value} (hw : w.Reordered w') (hform : form.Reordered form')
    (hk : TellNoOrder view (w.standing form)) :
    view.Same (Layout.line now w form (formWritings now form) (entryWritings now w.context))
        (Layout.line now w' form' (formWritings now form') (entryWritings now w'.context)) ∧
      Layout.route w' = Layout.route w := by
  obtain ⟨hsaid, hcontext⟩ := tellNoOrder_append.1 hk
  cases hw with
  | @context stamp stamp' severity es fs module settings h =>
    obtain ⟨htail, hempty⟩ := Layout.tail_alike settings (h.alike view now) hcontext module
    have hbody := Layout.body_alike view now settings (memberWritings now es).isEmpty hform hsaid
    refine ⟨?_, rfl⟩
    simp only [Layout.line, entryWritings]
    rw [← hempty]
    exact (hbody.after _).append htail

/-- A call is the same list of acts. -/
theorem handleActs_alike (now : Clock → Moment) {w w' : Writer Value} {form form' : Form Value}
    (hw : w.Reordered w') (hform : form.Reordered form')
    (hk : TellNoOrder .deeds (w.standing form)) :
    handleActs now (.enabled w') form' (fun _ => formWritings now form') =
      handleActs now (.enabled w) form fun _ => formWritings now form := by
  obtain ⟨hline, hroute⟩ := line_alike .deeds now hw hform hk
  obtain ⟨stamp, severity, context, module, settings⟩ := w
  obtain ⟨stamp', severity', context', module', settings'⟩ := w'
  have hline : Layout.line now _ form _ (entryWritings now context) =
    Layout.line now _ form' _ (entryWritings now context') := hline
  simp only [handleActs, writerAct, hroute, hline]

end Writer

end Logline
