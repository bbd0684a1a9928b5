import Logline.Output.Sink
import Logline.Proofs.Line.Threads

/-!
How destinations take what they are handed. A destination may take a part of what it is offered; the
rest is offered to it again, and in between other threads go on as far as the output lock permits.

A line that has the lock alone keeps the others out until its last offer is made. Lines that fit have
the lock together, and where a destination takes parts, offers of one line may come between those of
another (`halves_mix`). Nothing else mixes (`offers_mix`).
-/

namespace Logline

/-! ### Offers -/

/-- An offer is followed by another one only if a part of it was taken. -/
theorem Sink.pairwise_offer (s : Sink) (fuel : Nat) (bytes : Text.Bytes) :
    (s.offer fuel bytes).1.Pairwise fun o _ => o.2 < o.1.length := by
  induction fuel generalizing bytes with
  | zero => exact .nil
  | succ fuel ih =>
    unfold Sink.offer
    split
    · exact .nil
    split
    · exact List.pairwise_singleton _ _
    · exact List.pairwise_singleton _ _
    · next n _ _ =>
      refine List.pairwise_cons.2 ⟨fun o ho => ?_, ih (bytes.drop n)⟩
      by_contra hall
      have hnone : bytes.drop n = [] := List.drop_eq_nil_of_le (by simpa using hall)
      cases fuel <;> simp [hnone, Sink.offer] at ho

theorem Sink.pairwise_writeAll (s : Sink) (bytes : Text.Bytes) :
    (s.writeAll bytes).1.Pairwise fun o _ => o.2 < o.1.length := by
  have hoffers : (s.writeAll bytes).1 = (s.offer (bytes.length + 1) bytes).1 := by
    unfold Sink.writeAll
    split
    · next h => rw [h]
    · next h => split <;> rw [h]
  rw [hoffers]
  exact s.pairwise_offer _ bytes

/-- A destination is offered bytes of a line, and takes some of them. What the line has of the lock
meanwhile is told along. -/
structure Offer (ι : Type) where
  thread : ι
  line : Nat
  bytes : Text.Bytes
  taken : Nat
  hold : Hold

section Streams

variable {ι : Type} [DecidableEq ι]

def Offer.IsOf (o : Offer ι) (i : ι) (k : Nat) : Prop := o.thread = i ∧ o.line = k

/-- Threads with the offers that each has to make before it goes on. Those that were made are kept with
the latest first. -/
structure Stream (ι : Type) where
  world : World ι
  pending : ι → List (Offer ι)
  made : List (Offer ι)

namespace Stream

def initial : Stream ι := ⟨World.initial, fun _ => [], []⟩

/-- What a thread has to offer to hand on bytes. -/
def offers (s : Stream ι) (sinks : Destination → Sink) (i : ι) (destination : Destination)
    (bytes : Text.Bytes) : List (Offer ι) :=
  ((sinks destination).writeAll bytes).1.map fun o =>
    ⟨i, (s.world.worker i).past, o.1, o.2, s.world.lock i⟩

/-- A thread that has nothing to offer goes on, or hands on bytes; or a thread makes its next offer. -/
inductive Step (plan : Plan ι) (sinks : Destination → Sink) (s : Stream ι) : Stream ι → Prop
  | quiet (i : ι) (hidle : s.pending i = []) {w : World ι} (hstep : Logline.Step plan s.world w)
      (hothers : ∀ j, j ≠ i → w.worker j = s.world.worker j ∧ w.lock j = s.world.lock j)
      (hnone : w.latest = s.world.latest) : Step plan sinks s { s with world := w }
  | hand (i : ι) (hidle : s.pending i = []) (destination : Destination) (bytes : Text.Bytes)
      (report : Bool) (hnext : .wrote destination bytes report :: (s.world.worker i).done <:+
        (s.world.worker i).phase.latest) :
      Step plan sinks s { s with
        world := s.world.perform i (.wrote destination bytes report)
        pending := Function.update s.pending i (s.offers sinks i destination bytes) }
  | offer (i : ι) {o : Offer ι} {rest : List (Offer ι)} (hnext : s.pending i = o :: rest) :
      Step plan sinks s { s with
        pending := Function.update s.pending i rest
        made := o :: s.made }

def Reached (plan : Plan ι) (sinks : Destination → Sink) (s : Stream ι) : Prop :=
  Relation.ReflTransGen (Step plan sinks) initial s

end Stream

/-! ### A thread between two offers -/

variable {plan : Plan ι} {sinks : Destination → Sink} {v w : World ι}

theorem World.handed_suffix (w : World ι) {i : ι} {e : Event} (j : ι) (k : Nat) :
    w.handed j k <:+ (w.perform i e).handed j k := by
  simp only [World.handed, World.perform, List.filter_append, List.map_append]
  exact List.suffix_append _ _

/-- Where a thread goes on without handing on anything, it has of the lock in its line what it had, or
nothing any more, unless it has not handed on anything in that line. -/
theorem Step.lock_or_nothing (hv : v.Sound plan) (h : Step plan v w)
    (hnone : w.latest = v.latest) (i : ι) :
    (w.lock i = v.lock i ∧ (w.worker i).past = (v.worker i).past) ∨ w.lock i = .nothing ∨
      w.handed i (w.worker i).past = [] := by
  have hset : ∀ {j : ι} {x : Worker}, x.past = (v.worker j).past →
      (v.set j x).lock i = v.lock i ∧ ((v.set j x).worker i).past = (v.worker i).past := by
    intro j x hx
    by_cases hij : i = j
    · subst hij
      exact ⟨rfl, by simpa using hx⟩
    · exact ⟨rfl, by simp [hij]⟩
  cases h with
  | start j hphase hline => exact .inl (hset rfl)
  | advance j hphase hgo hdone => exact .inl (hset rfl)
  | close j hphase hend hdone => exact .inl (hset rfl)
  | leave j hphase hdone =>
    by_cases hij : i = j
    · subst hij
      refine .inr (.inr ?_)
      simpa using hv.future i _ (Nat.lt_succ_self _)
    · exact .inl ⟨rfl, by simp [hij]⟩
  | perform j e hnext hpermits =>
    by_cases hij : i = j
    · subst hij
      obtain ⟨s, after, hs, hstep, -⟩ := hv.next hnext
      have hfresh : s = .fresh → e.handing? = none →
          (v.perform i e).handed i ((v.perform i e).worker i).past = [] := fun hfresh he => by
        rw [World.worker_perform_self, World.handed_perform_self, he,
          hv.handed_eq_nil hs (.inl hfresh)]
        rfl
      rw [World.lock_perform_self]
      cases e with
      | called label place => exact .inl ⟨rfl, by simp⟩
      | wrote destination bytes report => exact .inl ⟨rfl, by simp⟩
      | unlocked => exact .inr (.inl rfl)
      | unshared => exact .inr (.inl rfl)
      | locked => exact .inr (.inr (hfresh (by cases s <;> simp_all [Event.next?]) rfl))
      | shared => exact .inr (.inr (hfresh (by cases s <;> simp_all [Event.next?]) rfl))
    · exact .inl ⟨by simp [hij], by simp [hij]⟩

/-! ### All threads -/

/-- Who has offers to make is in the line they are of and has the lock, and so it was when the offers of
this line were made. If it has the lock alone, or has offers to make, no others came between the ones
it made in this line, but those of lines that had the lock together with it. -/
structure Stream.Sound (plan : Plan ι) (s : Stream ι) : Prop where
  world : s.world.Sound plan
  pending : ∀ i, ∀ o ∈ s.pending i, o.IsOf i (s.world.worker i).past ∧
    o.hold = s.world.lock i ∧ s.world.lock i ≠ .nothing ∧
      s.world.handed i (s.world.worker i).past ≠ []
  parts : ∀ i, (s.pending i).Pairwise fun o _ => o.taken < o.bytes.length
  made : ∀ o ∈ s.made, s.world.handed o.thread o.line ≠ []
  current : ∀ i, ∀ o ∈ s.made, o.IsOf i (s.world.worker i).past → s.world.lock i ≠ .nothing →
    o.hold = s.world.lock i ∧
      (s.world.lock i = .shared → s.pending i ≠ [] → o.taken < o.bytes.length)
  after : ∀ i x o, s.pending i ≠ [] ∨ s.world.lock i = .exclusive → [x, o].Sublist s.made →
    o.IsOf i (s.world.worker i).past → ¬ x.IsOf i (s.world.worker i).past →
      s.world.lock i = .shared ∧ x.hold = .shared
  mixed : ∀ i k b x a, [b, x, a].Sublist s.made → a.IsOf i k → b.IsOf i k → ¬ x.IsOf i k →
    a.hold = .shared ∧ x.hold = .shared ∧ b.hold = .shared ∧ a.taken < a.bytes.length

namespace Stream

variable {s s' : Stream ι}

theorem sound_initial (plan : Plan ι) : (initial : Stream ι).Sound plan where
  world := World.sound_initial plan
  pending _ _ h := absurd h List.not_mem_nil
  parts _ := .nil
  made _ h := absurd h List.not_mem_nil
  current _ _ h := absurd h List.not_mem_nil
  after _ _ _ _ h := absurd (h.subset (List.mem_cons_self ..)) List.not_mem_nil
  mixed _ _ _ _ _ h := absurd (h.subset (List.mem_cons_self ..)) List.not_mem_nil

/-- What was made in the line a thread is in was handed on in it. -/
theorem Sound.handed_ne_nil (h : s.Sound plan) {o : Offer ι} (ho : o ∈ s.made) {i : ι} {k : Nat}
    (hof : o.IsOf i k) : s.world.handed i k ≠ [] := by
  obtain ⟨rfl, rfl⟩ := hof
  exact h.made o ho

theorem Sound.quiet (h : s.Sound plan) {i : ι} (hidle : s.pending i = []) {w : World ι}
    (hw : w.Sound plan) (hstep : Logline.Step plan s.world w)
    (hothers : ∀ j, j ≠ i → w.worker j = s.world.worker j ∧ w.lock j = s.world.lock j)
    (hnone : w.latest = s.world.latest) : Sound plan { s with world := w } := by
  have hhanded : w.handed = s.world.handed := by
    funext j k
    simp only [World.handed, hnone]
  have hbusy : ∀ j, s.pending j ≠ [] →
      w.worker j = s.world.worker j ∧ w.lock j = s.world.lock j := fun j hj =>
    hothers j fun hji => hj (hji ▸ hidle)
  -- In a line in which something was offered a thread has what it had of the lock, or nothing.
  have hsame : ∀ j, ∀ o ∈ s.made, o.IsOf j (w.worker j).past → w.lock j ≠ .nothing →
      w.lock j = s.world.lock j ∧ (w.worker j).past = (s.world.worker j).past := by
    intro j o ho hof hlock
    rcases hstep.lock_or_nothing h.world hnone j with hkept | hnothing | hnil
    · exact hkept
    · exact absurd hnothing hlock
    · rw [hhanded] at hnil
      exact absurd hnil (h.handed_ne_nil ho hof)
  refine ⟨hw, fun j o ho => ?_, h.parts, fun o ho => ?_, fun j o ho hof hlock => ?_,
    fun j x o hj hxo hof hx => ?_, h.mixed⟩
  · obtain ⟨hworker, hlock⟩ := hbusy j (List.ne_nil_of_mem ho)
    simp only [hworker, hlock, hhanded]
    exact h.pending j o ho
  · simp only [hhanded]
    exact h.made o ho
  · obtain ⟨hlock', hpast⟩ := hsame j o ho hof hlock
    simp only [hlock'] at hlock ⊢
    exact h.current j o ho (hpast ▸ hof) hlock
  · have hheld : w.lock j ≠ .nothing := by
      rcases hj with hj | hj
      · obtain ⟨o', ho'⟩ := List.exists_mem_of_ne_nil _ hj
        obtain ⟨-, -, hheld, -⟩ := h.pending j o' ho'
        exact (hbusy j hj).2 ▸ hheld
      · exact fun hnothing => absurd (hj.symm.trans hnothing) (by decide)
    have ho : o ∈ s.made := hxo.subset (by simp)
    obtain ⟨hlock, hpast⟩ := hsame j o ho hof hheld
    simp only [hlock, hpast] at hj hof hx ⊢
    exact h.after j x o hj hxo hof hx

theorem Sound.hand (h : s.Sound plan) {i : ι} {destination : Destination} {bytes : Text.Bytes}
    {report : Bool} {e : Event} (he : e = .wrote destination bytes report)
    (hnext : e :: (s.world.worker i).done <:+ (s.world.worker i).phase.latest) :
    Sound plan { s with
      world := s.world.perform i e
      pending := Function.update s.pending i (s.offers sinks i destination bytes) } := by
  have hlock : (s.world.perform i e).lock = s.world.lock := by
    funext j
    by_cases hj : j = i
    · subst hj
      simp [he, Hold.after]
    · simp [hj]
  have hpast : ∀ j, ((s.world.perform i e).worker j).past = (s.world.worker j).past := by
    intro j
    by_cases hj : j = i
    · subst hj
      simp
    · simp [hj]
  have hmore : ∀ j k, s.world.handed j k ≠ [] → (s.world.perform i e).handed j k ≠ [] :=
    fun j k hne hnil => hne (List.suffix_nil.1 (hnil ▸ s.world.handed_suffix j k))
  obtain ⟨stage, after, hs, hstep, -, hheld⟩ := h.world.next hnext
  have hstage := stage_of_handing hstep (by simp [he, Event.handing?])
  -- A line that has the lock together with others has not offered anything before.
  have hfirst : s.world.lock i = .shared → ∀ o ∈ s.made, ¬ o.IsOf i (s.world.worker i).past := by
    intro hshared o ho hof
    rcases hstage with rfl | rfl
    · exact absurd (hshared.symm.trans hheld) (by decide)
    · exact h.handed_ne_nil ho hof (h.world.handed_eq_nil hs (.inr rfl))
  have hholds : s.world.lock i ≠ .nothing := by
    rcases hstage with rfl | rfl <;> simp [hheld, Stage.hold]
  refine ⟨h.world.perform hnext (by rw [he]; trivial), fun j o ho => ?_, fun j => ?_,
    fun o ho => hmore _ _ (h.made o ho), fun j o ho hof hj => ?_, fun j x o hj hxo hof hx => ?_,
    h.mixed⟩ <;> by_cases hji : j = i
  · subst hji
    simp only [Function.update_self, offers, List.mem_map] at ho
    obtain ⟨o, -, rfl⟩ := ho
    simp only [hlock, hpast]
    refine ⟨⟨rfl, rfl⟩, trivial, hholds, ?_⟩
    rw [World.handed_perform_self, he]
    exact List.cons_ne_nil _ _
  · simp only [Function.update_of_ne hji, hlock, hpast] at ho ⊢
    obtain ⟨hof, hhold, hheld, hne⟩ := h.pending j o ho
    exact ⟨hof, hhold, hheld, hmore _ _ hne⟩
  · subst hji
    simp only [Function.update_self, offers]
    exact List.pairwise_map.2 ((sinks destination).pairwise_writeAll bytes)
  · simp only [Function.update_of_ne hji]
    exact h.parts j
  · subst hji
    simp only [hlock, hpast] at hof hj ⊢
    exact ⟨(h.current j o ho hof hj).1, fun hshared => absurd hof (hfirst hshared o ho)⟩
  · simp only [Function.update_of_ne hji, hlock, hpast] at hof hj ⊢
    exact h.current j o ho hof hj
  · subst hji
    simp only [hlock, hpast] at hof hx ⊢
    have ho : o ∈ s.made := hxo.subset (by simp)
    rcases hstage with rfl | rfl
    · exact h.after j x o (.inr hheld) hxo hof hx
    · exact absurd hof (hfirst hheld o ho)
  · simp only [Function.update_of_ne hji, hlock, hpast] at hj hof hx ⊢
    exact h.after j x o hj hxo hof hx

theorem Sound.offer (h : s.Sound plan) {i : ι} {o : Offer ι} {rest : List (Offer ι)}
    (hnext : s.pending i = o :: rest) :
    Sound plan { s with pending := Function.update s.pending i rest, made := o :: s.made } := by
  obtain ⟨hof, hhold, hheld, hne⟩ := h.pending i o (by simp [hnext])
  have hbusy : s.pending i ≠ [] := by simp [hnext]
  have hpending : ∀ j, Function.update s.pending i rest j ⊆ s.pending j := by
    intro j
    by_cases hj : j = i
    · subst hj
      simp [hnext]
    · simp [hj]
  have hmore : ∀ j, Function.update s.pending i rest j ≠ [] → s.pending j ≠ [] := fun j hj hnil =>
    hj (List.subset_nil.1 (hnil ▸ hpending j))
  refine ⟨h.world, fun j o' ho' => h.pending j o' (hpending j ho'), fun j => ?_, fun o' ho' => ?_,
    fun j o' ho' hof' hj => ?_, fun j x o' hj hxo hof' hx => ?_,
    fun j k b x a hsub ha hb hx => ?_⟩
  · by_cases hj : j = i
    · subst hj
      have hparts := h.parts j
      rw [hnext] at hparts
      simpa using (List.pairwise_cons.1 hparts).2
    · simpa [hj] using h.parts j
  · rcases List.mem_cons.1 ho' with rfl | ho'
    · obtain ⟨hthread, hline⟩ := hof
      rwa [hthread, hline]
    · exact h.made o' ho'
  · rcases List.mem_cons.1 ho' with rfl | ho'
    · obtain rfl : i = j := hof.1.symm.trans hof'.1
      refine ⟨hhold, fun _ hrest => ?_⟩
      have hrest : rest ≠ [] := by simpa using hrest
      have hparts := h.parts i
      rw [hnext] at hparts
      obtain ⟨next, hmem⟩ := List.exists_mem_of_ne_nil _ hrest
      exact (List.pairwise_cons.1 hparts).1 next hmem
    · obtain ⟨hsame, hpart⟩ := h.current j o' ho' hof' hj
      exact ⟨hsame, fun hshared hrest => hpart hshared (hmore j hrest)⟩
  · have hbefore : s.pending j ≠ [] ∨ s.world.lock j = .exclusive := hj.imp_left (hmore j)
    rcases List.sublist_cons_iff.1 hxo with hold | ⟨_, heq, -⟩
    · exact h.after j x o' hbefore hold hof' hx
    · obtain ⟨rfl, rfl⟩ := List.cons.inj heq
      -- The newest offer is one of another thread, which has the lock as well.
      have hij : i ≠ j := by
        rintro rfl
        exact hx hof
      have hnot : s.world.lock j ≠ .exclusive := fun hexclusive =>
        hheld (h.world.alone j i hij.symm hexclusive)
      obtain ⟨p, hp⟩ := List.exists_mem_of_ne_nil _ (hbefore.resolve_right hnot)
      obtain ⟨-, -, hheldj, -⟩ := h.pending j p hp
      have hshared : ∀ {k l : ι}, k ≠ l → s.world.lock k ≠ .nothing → s.world.lock l ≠ .nothing →
          s.world.lock k = .shared := by
        intro k l hkl hk hl
        cases hkey : s.world.lock k with
        | nothing => exact absurd hkey hk
        | shared => rfl
        | exclusive => exact absurd (h.world.alone k l hkl hkey) hl
      exact ⟨hshared hij.symm hheldj hheld, hhold.trans (hshared hij hheld hheldj)⟩
  · rcases List.sublist_cons_iff.1 hsub with hold | ⟨_, heq, hold⟩
    · exact h.mixed j k b x a hold ha hb hx
    · obtain ⟨rfl, rfl⟩ := List.cons.inj heq
      obtain ⟨rfl, rfl⟩ : j = i ∧ k = (s.world.worker i).past :=
        ⟨hb.1.symm.trans hof.1, hb.2.symm.trans hof.2⟩
      obtain ⟨hshared, hxshared⟩ := h.after j x a (.inl hbusy) hold ha hx
      obtain ⟨hsame, hpart⟩ := h.current j a (hold.subset (by simp)) ha hheld
      exact ⟨hsame.trans hshared, hxshared, hhold.trans hshared, hpart hshared hbusy⟩

theorem Step.sound (hplan : plan.Unlogged) (h : s.Sound plan) (hstep : Step plan sinks s s') :
    s'.Sound plan := by
  cases hstep with
  | quiet i hidle hstep hothers hnone =>
    exact h.quiet hidle (hstep.sound hplan h.world) hstep hothers hnone
  | hand i hidle destination bytes report hnext => exact h.hand rfl hnext
  | offer i hnext => exact h.offer hnext

theorem Reached.sound (hplan : plan.Unlogged) (h : Reached plan sinks s) : s.Sound plan := by
  induction h with
  | refl => exact sound_initial plan
  | tail _ hstep ih => exact hstep.sound hplan ih

/-- **What mixes.** Where an offer of another line comes between two offers of one line, all three were
made while their threads had the lock together, so both lines fit; and the destination took only a
part of the first. -/
theorem offers_mix (hplan : plan.Unlogged) (h : Reached plan sinks s) {a x b : Offer ι}
    (hmade : [b, x, a].Sublist s.made) (hab : b.thread = a.thread ∧ b.line = a.line)
    (hx : ¬ (x.thread = a.thread ∧ x.line = a.line)) :
    a.hold = .shared ∧ x.hold = .shared ∧ b.hold = .shared ∧ a.taken < a.bytes.length :=
  (h.sound hplan).mixed a.thread a.line b x a hmade ⟨rfl, rfl⟩ hab hx

end Stream

end Streams

/-- Two lines that fit, and a destination that takes the half of what it is offered: an offer of one
line is made before the rest of the other is. -/
theorem halves_mix :
    let plan : Plan Bool := ⟨fun _ => ⟨0, false, false⟩, fun i =>
      [(⟨.stdout, false, .note⟩, [.chunk (if i then [0x61, 0x62] else [0x63, 0x64])])]⟩
    ∃ s, Stream.Reached plan (fun _ => .half) s ∧ ∃ a x b, s.made = [b, x, a] ∧
      a.thread = true ∧ a.bytes = [0x61, 0x62] ∧ x.thread = false ∧ x.bytes = [0x63, 0x64] ∧
      b.thread = true ∧ b.bytes = [0x62] ∧
      a.hold = .shared ∧ x.hold = .shared ∧ b.hold = .shared ∧ a.taken < a.bytes.length := by
  intro plan
  have hplan : plan.Unlogged := by
    refine ⟨fun _ => rfl, fun i line hline => ?_⟩
    obtain rfl := List.mem_singleton.1 hline
    exact ⟨trivial, trivial⟩
  have hset : ∀ (w : World Bool) (i : Bool) (x : Worker), ∀ j, j ≠ i →
      (w.set i x).worker j = w.worker j ∧ (w.set i x).lock j = w.lock j :=
    fun w i x j hj => ⟨w.worker_set_of_ne x hj, rfl⟩
  have hperform : ∀ (w : World Bool) (i : Bool) (e : Event), ∀ j, j ≠ i →
      (w.perform i e).worker j = w.worker j ∧ (w.perform i e).lock j = w.lock j :=
    fun w i e j hj => ⟨w.worker_perform_of_ne hj, w.lock_perform_of_ne hj⟩
  let sinks : Destination → Sink := fun _ => .half
  have hshared : Hold.shared ≠ .exclusive ∧ Hold.nothing ≠ .exclusive := by decide
  -- Both threads compose their lines and take the lock together.
  have htrue : Stream.Reached plan sinks _ := (((Relation.ReflTransGen.refl.tail
    (.quiet true rfl (.start true rfl rfl) (hset _ _ _) rfl)).tail
      (.quiet true rfl (.advance true rfl rfl rfl) (hset _ _ _) rfl)).tail
        (.quiet true rfl (.close true rfl (.inl rfl) rfl) (hset _ _ _) rfl)).tail
          (.quiet true rfl (.perform true .shared ⟨[_, _], rfl⟩ fun _ => hshared.2)
            (hperform _ _ _) rfl)
  have hboth : Stream.Reached plan sinks _ := (((htrue.tail
    (.quiet false rfl (.start false rfl rfl) (hset _ _ _) rfl)).tail
      (.quiet false rfl (.advance false rfl rfl rfl) (hset _ _ _) rfl)).tail
        (.quiet false rfl (.close false rfl (.inl rfl) rfl) (hset _ _ _) rfl)).tail
          (.quiet false rfl (.perform false .shared ⟨[_, _], rfl⟩ fun i =>
            match i with | true => hshared.1 | false => hshared.2) (hperform _ _ _) rfl)
  have hmixed : Stream.Reached plan sinks _ := ((((hboth.tail
    (.hand true rfl .stdout [0x61, 0x62] false ⟨[_], rfl⟩)).tail (.offer true rfl)).tail
      (.hand false rfl .stdout [0x63, 0x64] false ⟨[_], rfl⟩)).tail (.offer false rfl)).tail
        (.offer true rfl)
  have hmix := Stream.offers_mix hplan hmixed (List.Sublist.refl _) ⟨rfl, rfl⟩ (by simp)
  exact ⟨_, hmixed, _, _, _, rfl, rfl, rfl, rfl, rfl, rfl, rfl, hmix⟩

end Logline
