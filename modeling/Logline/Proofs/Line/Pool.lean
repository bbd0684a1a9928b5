import Mathlib.Logic.Function.Basic
import Mathlib.Logic.Relation
import Logline.Line.Pool
import Logline.Proofs.Line.Steps

/-!
Lines on pooled scratch spaces. A line says its own chunks and nothing else, whatever lines had its
space before and however they ended: what was passed to its destination, together with what is still
in the space, is its chunks so far (`Draft.Keeps`). Every operation keeps to this, so it holds of all
lines of a desk (`Desk.Reached.lines_keep`), on which lines are written in turns and one within the
other, in spaces of one pool. How a destination takes what it is passed never comes back to a line.

A line of a program is a line on a desk (`Desk.Reached.runs`): what its script asks for and the code
that is run meanwhile are operations there.
-/

namespace Logline

/-! ### The chunks of a line -/

/-- What a line may ask its scratch space for. -/
inductive Ask where
  | chunk (bytes : Text.Bytes)
  | reserve (n : Nat)

namespace Ask

def on : Ask → Draft → Draft
  | chunk bytes, d => d.write bytes
  | reserve n, d => d.reserve n

def chunks : Ask → List Text.Bytes
  | chunk bytes => [bytes]
  | reserve _ => []

end Ask

namespace Draft

/-- The line has said the chunks `own`, given with the latest first: they are what was handed on and
what is in the scratch space, which is not overfull. No piece that was handed on is empty, and one
that is longer than the space is a chunk of its own. -/
structure Keeps (d : Draft) (own : List Text.Bytes) : Prop where
  counted : d.Counted
  fits : d.used ≤ scratchSize
  spoken : d.spoken = own.reverse.flatten
  pieces : ∀ p ∈ d.handed, p ≠ [] ∧ (scratchSize < p.length → p ∈ own)

variable {d : Draft} {own : List Text.Bytes}

theorem keeps_start (thread : Thread) (route : Route) (t : Trail) :
    (start thread route t).Keeps [] :=
  ⟨rfl, Nat.zero_le _, rfl, fun _ h => absurd h List.not_mem_nil⟩

/-- Code of a caller leaves the chunks alone. -/
theorem Keeps.of_eq {e : Draft} (h : d.Keeps own) (hgathered : e.gathered = d.gathered)
    (hused : e.used = d.used) (hhanded : e.handed = d.handed) : e.Keeps own := by
  have hscratch : e.scratch = d.scratch := by rw [scratch, hgathered, scratch]
  refine ⟨?_, hused ▸ h.fits, ?_, hhanded ▸ h.pieces⟩
  · rw [Counted, hused, hscratch, h.counted]
  · rw [Draft.spoken, delivered, hhanded, hscratch]
    exact h.spoken

theorem Keeps.flush (h : d.Keeps own) (hgo : d.trail.goesOn) :
    d.flush.Keeps own ∧ d.flush.used = 0 := by
  have hadds := adds_flush d
  have hspoken : d.flush.spoken = own.reverse.flatten := by
    rw [hadds.spoken h.counted (goesOn_flush hgo), List.append_nil, h.spoken]
  have hused : d.flush.used = 0 := by
    unfold Draft.flush
    split
    · next hempty => exact hempty
    · rfl
  refine ⟨⟨hadds.counted h.counted, by omega, hspoken, ?_⟩, hused⟩
  by_cases hempty : d.used = 0
  · have hstay : d.flush = d := if_pos hempty
    rw [hstay]
    exact h.pieces
  · have hhanded : d.flush.handed = d.scratch :: d.handed := by
      simp only [Draft.flush, if_neg hempty, handOn_of_goesOn hgo]
    have hlength : d.scratch.length = d.used := h.counted.symm
    have hfits := h.fits
    rw [hhanded]
    intro p hp
    rcases List.mem_cons.1 hp with rfl | hp
    · exact ⟨List.ne_nil_of_length_pos (by omega), fun hlong => by omega⟩
    · exact h.pieces p hp

/-- Whoever asks for the lock has handed on all that gathered when it comes to have it. -/
theorem Keeps.lock (h : d.Keeps own) (hgo : d.lock.trail.goesOn) :
    d.lock.Keeps own ∧ d.lock.used = 0 := by
  have hd : d.trail.goesOn := (adds_lock d).goesOn hgo
  unfold Draft.lock at hgo ⊢
  split
  · exact h.flush hd
  · next hl =>
    split
    · next hw => simp [hl, hw, Trail.not_goesOn_stopWith] at hgo
    · exact (h.of_eq rfl rfl rfl : Keeps { d with locked := true, trail := d.trail.add .locked } own).flush
        (by simpa using hd)

/-- A chunk that passes the space by is a piece of its own. -/
theorem Keeps.handOn (h : d.Keeps own) (hused : d.used = 0) (hgo : d.trail.goesOn)
    {chunk : Text.Bytes} (hlong : scratchSize < chunk.length) :
    (d.handOn chunk).Keeps (chunk :: own) := by
  have hempty : d.scratch = [] := List.eq_nil_of_length_eq_zero (h.counted.symm.trans hused)
  have hspoken := (adds_handOn hempty chunk).spoken h.counted (goesOn_handOn hgo chunk)
  rw [handOn_of_goesOn hgo] at hspoken ⊢
  refine ⟨h.counted, h.fits, by simpa [h.spoken] using hspoken, fun p hp => ?_⟩
  rcases List.mem_cons.1 hp with rfl | hp
  · exact ⟨List.ne_nil_of_length_pos (by omega), fun _ => List.mem_cons_self ..⟩
  · obtain ⟨hne, hown⟩ := h.pieces p hp
    exact ⟨hne, fun hp => List.mem_cons_of_mem _ (hown hp)⟩

theorem Keeps.gather (h : d.Keeps own) {chunk : Text.Bytes}
    (hfits : d.used + chunk.length ≤ scratchSize) :
    Keeps { d with gathered := chunk :: d.gathered, used := d.used + chunk.length }
      (chunk :: own) := by
  have hadds := adds_gather d chunk
  refine ⟨hadds.counted h.counted, hfits, ?_, fun p hp => ?_⟩
  · calc Draft.spoken { d with gathered := chunk :: d.gathered, used := d.used + chunk.length }
        = d.spoken ++ chunk := by simp [Draft.spoken, delivered, scratch]
      _ = (chunk :: own).reverse.flatten := by simp [h.spoken]
  · obtain ⟨hne, hlong⟩ := h.pieces p hp
    exact ⟨hne, fun hp => List.mem_cons_of_mem _ (hlong hp)⟩

theorem Keeps.write (h : d.Keeps own) (chunk : Text.Bytes) (hgo : (d.write chunk).trail.goesOn) :
    (d.write chunk).Keeps (chunk :: own) := by
  by_cases hbig : scratchSize < chunk.length
  · rw [write_of_long hbig] at hgo ⊢
    have hlock : d.lock.trail.goesOn := by
      by_cases hstopped : d.lock.trail.goesOn
      · exact hstopped
      · rwa [handOn_of_not_goesOn hstopped] at hgo
    obtain ⟨hkeeps, hused⟩ := h.lock hlock
    exact hkeeps.handOn hused hlock hbig
  · unfold Draft.write at hgo ⊢
    simp only [hbig, if_false] at hgo ⊢
    split
    · next hfull =>
      rw [if_pos hfull] at hgo
      obtain ⟨hkeeps, hused⟩ := h.lock hgo
      exact hkeeps.gather (by omega)
    · exact h.gather (by omega)

theorem Keeps.reserve (h : d.Keeps own) (n : Nat) (hgo : (d.reserve n).trail.goesOn) :
    (d.reserve n).Keeps own := by
  unfold Draft.reserve at hgo ⊢
  split
  · next hfull => exact (h.lock (by simpa [hfull] using hgo)).1
  · exact h

theorem Keeps.ask (h : d.Keeps own) (a : Ask) (hgo : (a.on d).trail.goesOn) :
    (a.on d).Keeps (a.chunks ++ own) := by
  cases a with
  | chunk bytes => exact h.write bytes hgo
  | reserve n => exact h.reserve n hgo

theorem Keeps.complete (h : d.Keeps own) (hgo : d.complete.trail.goesOn) :
    d.complete.Keeps own ∧ d.complete.used = 0 := by
  have hd : d.trail.goesOn := (adds_complete d).goesOn hgo
  unfold Draft.complete at hgo ⊢
  split
  · exact h.flush hd
  · next hl =>
    split
    · next hw => simp [hl, hw, Trail.not_goesOn_stopWith] at hgo
    · exact (h.of_eq rfl rfl rfl : Keeps { d with trail := d.trail.add .shared } own).flush
        (by simpa using hd)

theorem ask_writes (d : Draft) (a : Ask) : d.Writes (a.on d) := by
  cases a with
  | chunk bytes => exact write_writes d bytes
  | reserve n => exact reserve_writes d n

@[simp] theorem locked_complete (d : Draft) : d.complete.locked = d.locked := by
  unfold Draft.complete
  split
  · exact locked_flush d
  split
  · rfl
  · exact locked_flush _

/-- Whose thread has nothing of the lock does not wait for it. -/
theorem goesOn_ask (hgo : d.trail.goesOn) (hfree : d.thread.holdsLock = false) (a : Ask) :
    (a.on d).trail.goesOn := by
  have hlock : d.lock.trail.goesOn := goesOn_lock hgo (lock_onward hgo hfree).2
  cases a with
  | chunk bytes =>
    simp only [Ask.on]
    by_cases hbig : scratchSize < bytes.length
    · rw [write_of_long hbig]
      exact goesOn_handOn hlock bytes
    · simp only [Draft.write, hbig, if_false]
      split
      · exact hlock
      · exact hgo
  | reserve n =>
    simp only [Ask.on, Draft.reserve]
    split
    · exact hlock
    · exact hgo

/-- What completing a line hands on, the events tell as well. -/
theorem complete_events (hgo : d.complete.trail.goesOn) :
    ∃ new, d.complete.trail.latest = new ++ d.trail.latest ∧
      d.complete.handed = (handings new).map Prod.snd ++ d.handed := by
  have hd : d.trail.goesOn := (adds_complete d).goesOn hgo
  unfold Draft.complete at hgo ⊢
  split
  · next hl =>
    obtain ⟨new, hnew, -, hhanded⟩ := (flush_writes (.inl hl)).events
    exact ⟨new, hnew, hhanded⟩
  · next hl =>
    split
    · next hw => simp [hl, hw, Trail.not_goesOn_stopWith] at hgo
    · rw [Trail.add, if_pos hd]
      rcases flush_cases (d := { d with trail := d.trail.push .shared }) hd with
        hstay | ⟨hhanded, htrail⟩
      · rw [hstay]
        exact ⟨[.shared], rfl, rfl⟩
      · rw [hhanded, htrail]
        exact ⟨[_, .shared], rfl, rfl⟩

end Draft

/-! ### Lines on a desk -/

/-- What was passed to destinations between two moments of a thread, the latest first. -/
def Trail.passedSince (earlier later : Trail) : List Text.Bytes :=
  (handings (later.latest.take (later.latest.length - earlier.latest.length))).map Prod.snd

theorem Trail.passedSince_eq {earlier later : Trail} {new : List Event}
    (h : later.latest = new ++ earlier.latest) :
    earlier.passedSince later = (handings new).map Prod.snd := by
  simp [passedSince, h]

inductive Progress where
  | composing
  | released
  | dropped
deriving DecidableEq

/-- A line in a pooled space: how much room the space has, the chunks of the line so far, and what was
passed to its destination, the latest first. -/
structure PooledLine where
  draft : Draft
  room : Nat
  own : List Text.Bytes
  passed : List Text.Bytes
  progress : Progress

namespace PooledLine

def start (s : Space) (thread : Thread) (route : Route) (t : Trail) : PooledLine :=
  ⟨.startIn s thread route t, s.room, [], [], .composing⟩

/-- A space has room at least for what it holds. -/
def become (l : PooledLine) (d : Draft) : PooledLine :=
  { l with
    draft := d
    room := max l.room d.used
    passed := l.draft.trail.passedSince d.trail ++ l.passed }

def ask (l : PooledLine) (a : Ask) : PooledLine :=
  { l.become (a.on l.draft) with own := a.chunks ++ l.own }

/-- Code of a caller has run meanwhile, and lines of its own have. -/
def meanwhile (l : PooledLine) (t : Trail) (owed : Bool) (behind : List Trail) : PooledLine :=
  { l with draft := { l.draft with trail := t, owed, behind } }

def release (l : PooledLine) : PooledLine :=
  { l.become l.draft.complete with progress := .released }

def drop (l : PooledLine) : PooledLine := { l with progress := .dropped }

def space (l : PooledLine) : Space := ⟨l.draft.gathered, l.draft.used, l.room⟩

end PooledLine

/-- The lines that were started, and the spaces that none of them uses. -/
structure Desk (ι : Type) where
  pool : Pool
  lines : ι → Option PooledLine

namespace Desk

variable {ι : Type} [DecidableEq ι]

def empty : Desk ι := ⟨[], fun _ => none⟩

def set (k : Desk ι) (pool : Pool) (i : ι) (l : PooledLine) : Desk ι :=
  ⟨pool, Function.update k.lines i (some l)⟩

/-- A line is started, asks for something, is left for code of a caller, is released or given up. A
thread that comes to wait for the lock that it holds itself does not get to do what it wanted to. -/
inductive Step (k : Desk ι) : Desk ι → Prop
  | start (i : ι) (hi : k.lines i = none) (thread : Thread) (route : Route) (t : Trail) :
      Step k (k.set k.pool.take.2 i (.start k.pool.take.1 thread route t))
  | ask (i : ι) {l : PooledLine} (hi : k.lines i = some l) (hl : l.progress = .composing) (a : Ask)
      (hgo : (a.on l.draft).trail.goesOn) : Step k (k.set k.pool i (l.ask a))
  | meanwhile (i : ι) {l : PooledLine} (hi : k.lines i = some l) (hl : l.progress = .composing)
      (t : Trail) (owed : Bool) (behind : List Trail) :
      Step k (k.set k.pool i (l.meanwhile t owed behind))
  | release (i : ι) {l : PooledLine} (hi : k.lines i = some l) (hl : l.progress = .composing)
      (hgo : l.draft.complete.trail.goesOn) :
      Step k (k.set (k.pool.giveBack l.release.space) i l.release)
  | drop (i : ι) {l : PooledLine} (hi : k.lines i = some l) (hl : l.progress = .composing) :
      Step k (k.set (k.pool.giveBack l.space) i l.drop)

def Reached (k : Desk ι) : Prop := Relation.ReflTransGen Step empty k

end Desk

/-! ### What holds on every desk -/

/-- Nothing has gathered in the space, and it is large enough. -/
structure Space.Clean (s : Space) : Prop where
  gathered : s.gathered = []
  used : s.used = 0
  room : scratchSize ≤ s.room

theorem Pool.clean_take {p : Pool} (h : ∀ s ∈ p, s.Clean) :
    p.take.1.Clean ∧ ∀ s ∈ p.take.2, s.Clean := by
  cases p with
  | nil => exact ⟨⟨rfl, rfl, Nat.le_refl _⟩, h⟩
  | cons s rest => exact ⟨h s (List.mem_cons_self ..), fun u hu => h u (List.mem_cons_of_mem s hu)⟩

theorem Pool.clean_giveBack {p : Pool} (h : ∀ s ∈ p, s.Clean) (s : Space) :
    ∀ u ∈ p.giveBack s, u.Clean := by
  unfold giveBack
  split
  · next hroom =>
    intro u hu
    rcases List.mem_cons.1 hu with rfl | hu
    · exact ⟨rfl, rfl, hroom⟩
    · exact h u hu
  · exact h

/-- In a clean space a line starts from nothing. -/
theorem Draft.startIn_of_clean {s : Space} (h : s.Clean) (thread : Thread) (route : Route)
    (t : Trail) : startIn s thread route t = .start thread route t := by
  simp [startIn, h.gathered, h.used, start]

namespace PooledLine

structure Sound (l : PooledLine) : Prop where
  keeps : l.draft.Keeps l.own
  passed : l.passed = l.draft.handed
  room : scratchSize ≤ l.room
  unhanded : l.progress ≠ .released → l.draft.Unhanded
  released : l.progress = .released → l.draft.used = 0

namespace Sound

variable {l : PooledLine}

theorem start {s : Space} (h : s.Clean) (thread : Thread) (route : Route) (t : Trail) :
    (PooledLine.start s thread route t).Sound := by
  have hkeeps : (Draft.startIn s thread route t).Keeps [] := by
    rw [Draft.startIn_of_clean h]
    exact Draft.keeps_start thread route t
  exact ⟨hkeeps, rfl, h.room, fun _ _ => rfl, fun hl => Progress.noConfusion hl⟩

theorem ask (h : l.Sound) (hl : l.progress = .composing) (a : Ask)
    (hgo : (a.on l.draft).trail.goesOn) : (l.ask a).Sound := by
  have hwrites := Draft.ask_writes l.draft a
  obtain ⟨new, hnew, -, hhanded⟩ := hwrites.events
  refine ⟨h.keeps.ask a hgo, ?_, Nat.le_trans h.room (Nat.le_max_left ..), fun hl' hf => ?_, fun hl' => ?_⟩
  · calc l.draft.trail.passedSince (a.on l.draft).trail ++ l.passed
        = (handings new).map Prod.snd ++ l.draft.handed := by
          rw [Trail.passedSince_eq hnew, h.passed]
      _ = (a.on l.draft).handed := hhanded.symm
  · have hfree : l.draft.locked = false :=
      Bool.eq_false_iff.2 fun hlocked => by simp [hwrites.locked hlocked, PooledLine.ask, become] at hf
    exact (hwrites.handed hf).trans (h.unhanded hl' hfree)
  · exact absurd (hl.symm.trans hl') (by decide)

theorem meanwhile (h : l.Sound) (t : Trail) (owed : Bool) (behind : List Trail) :
    (l.meanwhile t owed behind).Sound :=
  ⟨h.keeps.of_eq rfl rfl rfl, h.passed, h.room, h.unhanded, h.released⟩

theorem release (h : l.Sound) (hgo : l.draft.complete.trail.goesOn) : l.release.Sound := by
  obtain ⟨hkeeps, hused⟩ := h.keeps.complete hgo
  obtain ⟨new, hnew, hhanded⟩ := Draft.complete_events hgo
  refine ⟨hkeeps, ?_, Nat.le_trans h.room (Nat.le_max_left ..), fun hl => absurd rfl hl, fun _ => hused⟩
  calc l.draft.trail.passedSince l.draft.complete.trail ++ l.passed
      = (handings new).map Prod.snd ++ l.draft.handed := by
        rw [Trail.passedSince_eq hnew, h.passed]
    _ = l.draft.complete.handed := hhanded.symm

theorem drop (h : l.Sound) (hl : l.progress = .composing) : l.drop.Sound :=
  ⟨h.keeps, h.passed, h.room, fun _ => h.unhanded (hl ▸ by decide),
    fun hl' => Progress.noConfusion hl'⟩

end Sound

end PooledLine

namespace Desk

variable {ι : Type} [DecidableEq ι] {k k' : Desk ι}

structure Sound (k : Desk ι) : Prop where
  pool : ∀ s ∈ k.pool, s.Clean
  lines : ∀ i l, k.lines i = some l → l.Sound

theorem Sound.set (h : k.Sound) {pool : Pool} (hpool : ∀ s ∈ pool, s.Clean) {i : ι}
    {l : PooledLine} (hl : l.Sound) : (k.set pool i l).Sound := by
  refine ⟨hpool, fun j m hm => ?_⟩
  by_cases hj : j = i
  · subst hj
    simp only [Desk.set, Function.update_self, Option.some.injEq] at hm
    exact hm ▸ hl
  · simp only [Desk.set, Function.update_of_ne hj] at hm
    exact h.lines j m hm

theorem Step.sound (h : Step k k') (hk : k.Sound) : k'.Sound := by
  cases h with
  | start i hi thread route t =>
    obtain ⟨htaken, hleft⟩ := Pool.clean_take hk.pool
    exact hk.set hleft (.start htaken thread route t)
  | ask i hi hl a hgo => exact hk.set hk.pool ((hk.lines _ _ hi).ask hl a hgo)
  | meanwhile i hi hl t owed behind => exact hk.set hk.pool ((hk.lines _ _ hi).meanwhile t owed behind)
  | release i hi hl hgo => exact hk.set (Pool.clean_giveBack hk.pool _) ((hk.lines _ _ hi).release hgo)
  | drop i hi hl => exact hk.set (Pool.clean_giveBack hk.pool _) ((hk.lines _ _ hi).drop hl)

theorem Reached.sound (h : Reached k) : k.Sound := by
  induction h with
  | refl => exact ⟨fun _ hs => absurd hs List.not_mem_nil, fun _ _ hl => absurd hl (by simp [empty])⟩
  | tail _ hstep ih => exact hstep.sound ih

/-- A line that has the lock keeps it. -/
theorem Step.locked (h : Step k k') {i : ι} {l l' : PooledLine} (hl : k.lines i = some l)
    (hl' : k'.lines i = some l') (hlocked : l.draft.locked) : l'.draft.locked := by
  have hset : ∀ {pool : Pool} {j : ι} {m n : PooledLine}, k.lines j = some m →
      (m.draft.locked → n.draft.locked) → (k.set pool j n).lines i = some l' → l'.draft.locked := by
    intro pool j m n hm hkept hn
    by_cases hi : i = j
    · subst hi
      obtain rfl : l = m := Option.some.inj (hl.symm.trans hm)
      obtain rfl : n = l' := by simpa [Desk.set] using hn
      exact hkept hlocked
    · obtain rfl : l = l' := by simpa [Desk.set, Function.update_of_ne hi, hl] using hn
      exact hlocked
  cases h with
  | start j hj thread route t =>
    have hi : i ≠ j := by
      rintro rfl
      simp [hl] at hj
    obtain rfl : l = l' := by simpa [Desk.set, Function.update_of_ne hi, hl] using hl'
    exact hlocked
  | ask j hj hm a hgo => exact hset hj (Draft.ask_writes _ a).locked hl'
  | meanwhile j hj hm t owed behind =>
    refine hset hj ?_ hl'
    exact id
  | release j hj hm hgo =>
    refine hset hj ?_ hl'
    simp [PooledLine.release, PooledLine.become]
  | drop j hj hm =>
    refine hset hj ?_ hl'
    exact id

/-- **Every line on a desk says its own chunks.** At each moment what was passed to its destination,
followed by what is in its space, is the chunks of the line so far; nothing is left there once the
line is released. The space holds no more than it may. Nothing empty is passed on, and nothing longer
than the space that is not a chunk by itself. Before a line has the lock, nothing is passed on but by
its release, and once it has the lock it keeps it. -/
theorem lines_keep (h : Reached k) (i : ι) (l : PooledLine) (hl : k.lines i = some l) :
    l.passed.reverse.flatten ++ l.draft.scratch = l.own.reverse.flatten ∧
      (l.progress = .released → l.draft.scratch = []) ∧
      l.draft.scratch.length ≤ scratchSize ∧
      (∀ p ∈ l.passed, p ≠ [] ∧ (scratchSize < p.length → p ∈ l.own)) ∧
      (l.draft.locked = false → l.progress ≠ .released → l.passed = []) ∧
      ∀ k' l', Step k k' → k'.lines i = some l' → l.draft.locked → l'.draft.locked := by
  have hsound := h.sound.lines i l hl
  have hcount : l.draft.scratch.length = l.draft.used := hsound.keeps.counted.symm
  rw [hsound.passed, hcount]
  refine ⟨hsound.keeps.spoken, fun hreleased => ?_, hsound.keeps.fits, hsound.keeps.pieces,
    fun hf hl => hsound.unhanded hl hf, fun k' l' hstep hl' => hstep.locked hl hl'⟩
  exact List.eq_nil_of_length_eq_zero (hcount.trans (hsound.released hreleased))

/-- A line takes the space of one that was given up with something in it, and says its own chunk. -/
theorem reused_space_is_empty :
    ∃ k : Desk Bool, Reached k ∧ ∃ l l', k.lines false = some l ∧ k.lines true = some l' ∧
      l.progress = .dropped ∧ l.draft.scratch = [0x61] ∧ k.pool.length = 1 ∧
      l'.progress = .released ∧ l'.passed.reverse.flatten ++ l'.draft.scratch = [0x62] ∧
      l'.draft.scratch = [] := by
  let thread : Thread := ⟨0, false, false⟩
  let route : Route := ⟨.stdout, false, .note⟩
  have hdropped : Reached _ := ((Relation.ReflTransGen.refl.tail
    (.start false rfl thread route .empty)).tail (.ask false rfl rfl (.chunk [0x61]) rfl)).tail
      (.drop false rfl rfl)
  have hreleased : Reached _ := ((hdropped.tail (.start true rfl thread route .empty)).tail
    (.ask true rfl rfl (.chunk [0x62]) rfl)).tail (.release true rfl rfl rfl)
  obtain ⟨hown, hempty, -⟩ := lines_keep hreleased true _ rfl
  exact ⟨_, hreleased, _, _, rfl, rfl, rfl, rfl, rfl, rfl, hown, hempty rfl⟩

/-! ### Lines of programs -/

/-- From a desk on, the line `i` comes to the draft. -/
def Comes (k : Desk ι) (i : ι) (d : Draft) : Prop :=
  ∃ k' l, Relation.ReflTransGen Step k k' ∧ k'.lines i = some l ∧ l.progress = .composing ∧
    l.draft = d

theorem Comes.ask {i : ι} {d : Draft} (h : k.Comes i d) (a : Ask) (hgo : (a.on d).trail.goesOn) :
    k.Comes i (a.on d) := by
  obtain ⟨k', l, hsteps, hi, hl, rfl⟩ := h
  exact ⟨_, l.ask a, hsteps.tail (.ask i hi hl a hgo), by simp [set], hl, rfl⟩

theorem Comes.meanwhile {i : ι} {d : Draft} (h : k.Comes i d) (t : Trail) (owed : Bool)
    (behind : List Trail) : k.Comes i { d with trail := t, owed, behind } := by
  obtain ⟨k', l, hsteps, hi, hl, rfl⟩ := h
  exact ⟨_, l.meanwhile t owed behind, hsteps.tail (.meanwhile i hi hl t owed behind),
    by simp [set], hl, rfl⟩

/-- A step of a script is one on the desk, or none. -/
theorem Comes.advance {i : ι} {d : Draft} (h : k.Comes i d) (hgo : d.trail.goesOn)
    (hfree : d.thread.holdsLock = false) (ins : Instr) (rest : Script) :
    k.Comes i (ins.advance rest d).2 ∧ (ins.advance rest d).2.thread = d.thread := by
  have hask : ∀ a : Ask, k.Comes i (a.on d) ∧ (a.on d).thread = d.thread := fun a =>
    ⟨h.ask a (Draft.goesOn_ask hgo hfree a), (Draft.ask_writes d a).thread⟩
  cases ins with
  | chunk bytes => exact hask (.chunk bytes)
  | reserve n => exact hask (.reserve n)
  | separate mark =>
    simp only [Instr.advance, Instr.run]
    split
    · exact hask (.chunk mark)
    · exact ⟨h, rfl⟩
  | owe owed => exact ⟨h.meanwhile d.trail owed d.behind, rfl⟩
  | block body => exact ⟨h, rfl⟩
  | later made => exact ⟨h, rfl⟩
  | direct acts => exact ⟨h.meanwhile _ d.owed d.behind, rfl⟩
  | guarded acts onTime tooLate =>
    simp only [Instr.advance]
    split
    · exact ⟨h.meanwhile _ d.owed _, rfl⟩
    · exact ⟨h.meanwhile _ d.owed d.behind, rfl⟩

/-- **A line of a program is a line on the desk.** Whatever lines there were before, it takes its space
from the pool, and what its script asks for and the code that is run meanwhile leads it to where it
comes to in the program; there it is released, or given up if it was stopped. -/
theorem Reached.runs (h : Reached k) {i : ι} (hi : k.lines i = none) {thread : Thread}
    (hfree : thread.holdsLock = false) (route : Route) (t : Trail) (s : Script) :
    let d := runScript s (.start thread route t)
    ∃ k' l, Relation.ReflTransGen Step k k' ∧ k'.lines i = some l ∧ l.draft = d.closed ∧
      l.progress = if d.trail.goesOn then .released else .dropped := by
  intro d
  have hsteps : ∀ {rest e}, Composes s (.start thread route t) rest e →
      k.Comes i e ∧ e.thread = thread := by
    intro rest e hs
    induction hs with
    | refl =>
      have hclean := (Pool.clean_take h.sound.pool).1
      exact ⟨⟨_, .start k.pool.take.1 thread route t, .single (.start i hi thread route t),
        by simp [set], rfl, Draft.startIn_of_clean hclean thread route t⟩, rfl⟩
    | step _ hgo ih =>
      obtain ⟨hcomes, hthread⟩ := ih
      obtain ⟨hnext, hsame⟩ := hcomes.advance hgo (hthread ▸ hfree) _ _
      exact ⟨hnext, hsame.trans hthread⟩
  obtain ⟨left, hs, -⟩ := runScript_composes s [] (.start thread route t)
  simp only [List.append_nil] at hs
  obtain ⟨⟨k', l, hcomes, hl, hcomposing, hdraft⟩, hthread⟩ := hsteps hs
  by_cases hgo : d.trail.goesOn
  · have hcomplete : l.draft.complete.trail.goesOn := by
      rw [hdraft]
      exact Draft.goesOn_complete hgo ((congrArg Thread.holdsLock hthread).trans hfree)
    refine ⟨_, l.release, hcomes.tail (.release i hl hcomposing hcomplete), by simp [set], ?_, ?_⟩
    · rw [Draft.closed, if_pos hgo]
      exact congrArg Draft.complete hdraft
    · rw [if_pos hgo]
      rfl
  · refine ⟨_, l.drop, hcomes.tail (.drop i hl hcomposing), by simp [set], ?_, ?_⟩
    · rw [Draft.closed, if_neg hgo]
      exact hdraft
    · rw [if_neg hgo]
      rfl

end Desk

end Logline
