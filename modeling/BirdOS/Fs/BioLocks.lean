import BirdOS.Fs.Bio
import BirdOS.Lib.Locks
import BirdOS.Lib.Tally

/-! # The locks of the buffer cache

`bget`, `brelse`, `bpin` and `bunpin` of any number of CPUs.  A step is one lock
operation of one CPU with the code up to its next one.  `bget` holds the lock of its
bucket from the lookup to the end; on a miss it visits the other buckets with their
locks, one after the other.  A buffer it takes from another bucket is in no list between
the `release` of that bucket and the insertion into its own.

`brelse`, `bpin` and `bunpin` choose the bucket before they take its lock.

`pins` counts `bpin` minus `bunpin` of every buffer.  No code reads it. -/

namespace BirdOS.BioLocks

open Bio Function Option Machine

inductive Phase where
  | outside
  /-- `bget`: `acquire(&buckets[bid].lock)`. -/
  | bget (dev blockno : Nat)
  /-- A miss, at the loop head for bucket `i`: `acquire(&buckets[i].lock)`. -/
  | probe (dev blockno : Nat) (i : Bucket) (cycle : Nat)
  /-- `release(&buckets[i].lock)`, with no free buffer in it. -/
  | pass (dev blockno : Nat) (i : Bucket) (cycle : Nat)
  /-- `release(&buckets[i].lock)`, with `b` taken out of it. -/
  | moving (dev blockno : Nat) (i : Bucket) (b : BufId)
  /-- Puts `b` into its own bucket. -/
  | placing (dev blockno : Nat) (b : BufId)
  /-- `acquire(&tickslock)`; `ret` in `bget`, which then returns `b`. -/
  | stamp (bid : Bucket) (b : BufId) (ret : Bool)
  /-- `release(&tickslock)`. -/
  | stamped (bid : Bucket) (b : BufId) (ret : Bool)
  /-- `release(&buckets[bid].lock)`. -/
  | unlock (bid : Bucket) (b : BufId) (ret : Bool)
  /-- `bget`: `acquiresleep(&b->lock)`. -/
  | acquiresleep (b : BufId)
  /-- `brelse`, after `releasesleep`: `acquire(&buckets[bid].lock)`. -/
  | brelse (bid : Bucket) (b : BufId)
  /-- `bpin` or `bunpin`: `acquire(&buckets[bid].lock)`. -/
  | count (bid : Bucket) (b : BufId) (pin : Bool)
  /-- `bpin` or `bunpin`: `release(&buckets[bid].lock)`. -/
  | counted (bid : Bucket)
  /-- Stopped by a panic, with the lock it held. -/
  | panicked (bid : Option Bucket)
  deriving DecidableEq

open Phase

structure State (α : Type*) where
  cache : Cache
  lock : Bucket → Option α
  ticksLock : Option α
  sleep : BufId → Option α
  phase : α → Phase
  pins : BufId → Int

inductive Op (α : Type*) where
  | bget (a : α) (dev blockno : Nat)
  | brelse (a : α) (b : BufId)
  | bpin (a : α) (b : BufId)
  | bunpin (a : α) (b : BufId)
  | go (a : α)
  /-- The clock interrupt. -/
  | tick

def init {α : Type*} : State α :=
  ⟨binit, fun _ => none, none, fun _ => none, fun _ => .outside, fun _ => 0⟩

def loopHead (dev blockno : Nat) (i : Bucket) (cycle : Nat) : Phase :=
  if cycle = NBUCKET then .panicked (some (HASH blockno)) else .probe dev blockno i cycle

section Steps
variable {α : Type*} [DecidableEq α]

def State.goto (s : State α) (a : α) (ph : Phase) : State α :=
  { s with phase := update s.phase a ph }

def State.acquire (s : State α) (a : α) (k : Bucket) : Option (State α) :=
  match s.lock k with
  | none => some { s with lock := update s.lock k (some a) }
  | some _ => none

def State.release (s : State α) (k : Bucket) : State α :=
  { s with lock := update s.lock k none }

def enter (s : State α) (a : α) (dev blockno : Nat) : State α :=
  let bid := HASH blockno
  match lookup s.cache dev blockno with
  | some b => { s with cache := incref s.cache b }.goto a (.stamp bid b true)
  | none =>
    match victim s.cache bid with
    | some b => { s with cache := claim s.cache b dev blockno }.goto a (.stamp bid b true)
    | none => s.goto a (loopHead dev blockno (bid + 1) 1)

def visit (s : State α) (a : α) (dev blockno : Nat) (i : Bucket) (cycle : Nat) : State α :=
  match victim s.cache i with
  | some b => { s with cache := unlink s.cache b }.goto a (.moving dev blockno i b)
  | none => s.goto a (.pass dev blockno i cycle)

def go (s : State α) (a : α) : Option (State α) :=
  match s.phase a with
  | .outside | .panicked _ => none
  | .bget dev blockno => do
    let s ← s.acquire a (HASH blockno)
    some (enter s a dev blockno)
  | .probe dev blockno i cycle =>
    -- `if (!holding(&bcache.buckets[i].lock)) acquire(...); else continue;`
    if s.lock i = some a then some (s.goto a (loopHead dev blockno (i + 1) (cycle + 1)))
    else do
      let s ← s.acquire a i
      some (visit s a dev blockno i cycle)
  | .pass dev blockno i cycle =>
    some ((s.release i).goto a (loopHead dev blockno (i + 1) (cycle + 1)))
  | .moving dev blockno i b => some ((s.release i).goto a (.placing dev blockno b))
  | .placing dev blockno b =>
    let bid := HASH blockno
    some ({ s with cache := claim (pushFront s.cache bid b) b dev blockno }.goto a
      (.stamp bid b true))
  | .stamp bid b ret =>
    if s.ticksLock = none then
      some ({ s with ticksLock := some a, cache := Bio.stamp s.cache b }.goto a
        (.stamped bid b ret))
    else none
  | .stamped bid b ret => some ({ s with ticksLock := none }.goto a (.unlock bid b ret))
  | .unlock bid b ret =>
    some ((s.release bid).goto a (if ret then .acquiresleep b else .outside))
  | .acquiresleep b =>
    if s.sleep b = none then
      some ({ s with sleep := update s.sleep b (some a) }.goto a .outside)
    else none
  | .brelse bid b => do
    let s ← s.acquire a bid
    some ({ s with cache := decref s.cache b }.goto a (.stamp bid b false))
  | .count bid b pin => do
    let s ← s.acquire a bid
    some ({ s with
      cache := if pin then incref s.cache b else decref s.cache b
      pins := update s.pins b (s.pins b + if pin then 1 else -1) }.goto a (.counted bid))
  | .counted bid => some ((s.release bid).goto a .outside)

def startRelse (s : State α) (a : α) (b : BufId) : State α :=
  if s.sleep b = some a then
    { s with sleep := update s.sleep b none }.goto a
      (.brelse (HASH (s.cache.buf b).blockno) b)
  else s.goto a (.panicked none)

def step (s : State α) : Op α → Option (State α)
  | .bget a dev blockno =>
    if s.phase a = .outside then some (s.goto a (.bget dev blockno)) else none
  | .brelse a b => if s.phase a = .outside then some (startRelse s a b) else none
  | .bpin a b =>
    if s.phase a = .outside then
      some (s.goto a (.count (HASH (s.cache.buf b).blockno) b true))
    else none
  | .bunpin a b =>
    if s.phase a = .outside then
      some (s.goto a (.count (HASH (s.cache.buf b).blockno) b false))
    else none
  | .go a => BioLocks.go s a
  | .tick =>
    if s.ticksLock = none then
      some { s with cache := { s.cache with ticks := s.cache.ticks + 1 } }
    else none

end Steps

/-! ## Which locks a CPU holds -/

def Phase.locks : Phase → List Bucket
  | .outside | .bget _ _ | .acquiresleep _ | .brelse _ _ | .count _ _ _ => []
  | .probe _ blockno _ _ | .placing _ blockno _ => [HASH blockno]
  | .pass _ blockno i _ | .moving _ blockno i _ => [i, HASH blockno]
  | .stamp bid _ _ | .stamped bid _ _ | .unlock bid _ _ | .counted bid => [bid]
  | .panicked bid => bid.toList

def Phase.wants : Phase → Option Bucket
  | .bget _ blockno => some (HASH blockno)
  | .probe _ _ i _ => some i
  | .brelse bid _ | .count bid _ _ => some bid
  | _ => none

def State.wants {α : Type*} (s : State α) (a : α) : Option Bucket := (s.phase a).wants

section Turns
variable {α : Type*} [DecidableEq α]

inductive Turn (s : State α) (a : α) : State α → Prop where
  | hit (dev blockno : Nat) (b : BufId) (hp : s.phase a = .bget dev blockno)
      (hfree : s.lock (HASH blockno) = none) (hb : lookup s.cache dev blockno = some b) :
      Turn s a ({ s with
        lock := update s.lock (HASH blockno) (some a)
        cache := incref s.cache b }.goto a (.stamp (HASH blockno) b true))
  | recycle (dev blockno : Nat) (b : BufId) (hp : s.phase a = .bget dev blockno)
      (hfree : s.lock (HASH blockno) = none) (hmiss : lookup s.cache dev blockno = none)
      (hb : victim s.cache (HASH blockno) = some b) :
      Turn s a ({ s with
        lock := update s.lock (HASH blockno) (some a)
        cache := claim s.cache b dev blockno }.goto a (.stamp (HASH blockno) b true))
  | miss (dev blockno : Nat) (hp : s.phase a = .bget dev blockno)
      (hfree : s.lock (HASH blockno) = none) (hmiss : lookup s.cache dev blockno = none) :
      Turn s a ({ s with lock := update s.lock (HASH blockno) (some a) }.goto a
        (loopHead dev blockno (HASH blockno + 1) 1))
  | skip (dev blockno : Nat) (i : Bucket) (cycle : Nat)
      (hp : s.phase a = .probe dev blockno i cycle)
      (hheld : s.lock i = some a) :
      Turn s a (s.goto a (loopHead dev blockno (i + 1) (cycle + 1)))
  | found (dev blockno : Nat) (i : Bucket) (cycle : Nat) (b : BufId)
      (hp : s.phase a = .probe dev blockno i cycle) (hfree : s.lock i = none)
      (hb : victim s.cache i = some b) :
      Turn s a ({ s with
        lock := update s.lock i (some a)
        cache := unlink s.cache b }.goto a (.moving dev blockno i b))
  | vain (dev blockno : Nat) (i : Bucket) (cycle : Nat)
      (hp : s.phase a = .probe dev blockno i cycle) (hfree : s.lock i = none) :
      Turn s a ({ s with lock := update s.lock i (some a) }.goto a
        (.pass dev blockno i cycle))
  | pass (dev blockno : Nat) (i : Bucket) (cycle : Nat)
      (hp : s.phase a = .pass dev blockno i cycle) :
      Turn s a ((s.release i).goto a (loopHead dev blockno (i + 1) (cycle + 1)))
  | moving (dev blockno : Nat) (i : Bucket) (b : BufId)
      (hp : s.phase a = .moving dev blockno i b) :
      Turn s a ((s.release i).goto a (.placing dev blockno b))
  | placing (dev blockno : Nat) (b : BufId) (hp : s.phase a = .placing dev blockno b) :
      Turn s a ({ s with
        cache := claim (pushFront s.cache (HASH blockno) b) b dev blockno }.goto a
          (.stamp (HASH blockno) b true))
  | stamp (bid : Bucket) (b : BufId) (ret : Bool) (hp : s.phase a = .stamp bid b ret) :
      Turn s a ({ s with ticksLock := some a, cache := Bio.stamp s.cache b }.goto a
        (.stamped bid b ret))
  | stamped (bid : Bucket) (b : BufId) (ret : Bool) (hp : s.phase a = .stamped bid b ret) :
      Turn s a ({ s with ticksLock := none }.goto a (.unlock bid b ret))
  | unlock (bid : Bucket) (b : BufId) (ret : Bool) (hp : s.phase a = .unlock bid b ret) :
      Turn s a ((s.release bid).goto a (if ret then .acquiresleep b else .outside))
  | acquiresleep (b : BufId) (hp : s.phase a = .acquiresleep b) (hfree : s.sleep b = none) :
      Turn s a ({ s with sleep := update s.sleep b (some a) }.goto a .outside)
  | brelse (bid : Bucket) (b : BufId) (hp : s.phase a = .brelse bid b)
      (hfree : s.lock bid = none) :
      Turn s a ({ s with
        lock := update s.lock bid (some a)
        cache := decref s.cache b }.goto a (.stamp bid b false))
  | count (bid : Bucket) (b : BufId) (pin : Bool) (hp : s.phase a = .count bid b pin)
      (hfree : s.lock bid = none) :
      Turn s a ({ s with
        lock := update s.lock bid (some a)
        cache := if pin then incref s.cache b else decref s.cache b
        pins := update s.pins b (s.pins b + if pin then 1 else -1) }.goto a (.counted bid))
  | counted (bid : Bucket) (hp : s.phase a = .counted bid) :
      Turn s a ((s.release bid).goto a .outside)

omit [DecidableEq α] in
theorem acquire_some {s s' : State α} {a : α} {k : Bucket} {f : State α → State α}
    (h : ((s.acquire a k).bind fun t => some (f t)) = some s') :
    s.lock k = none ∧ s' = f { s with lock := update s.lock k (some a) } := by
  unfold State.acquire at h
  cases hl : s.lock k with
  | none => exact ⟨rfl, by rw [hl] at h; exact (Option.some.inj h).symm⟩
  | some b => rw [hl] at h; cases h

theorem go_turn {s s' : State α} {a : α} (h : go s a = some s') : Turn s a s' := by
  unfold go at h
  cases hp : s.phase a with
  | outside | panicked bid => rw [hp] at h; cases h
  | bget dev blockno =>
    rw [hp] at h
    obtain ⟨hfree, rfl⟩ := acquire_some h
    cases hl : lookup s.cache dev blockno with
    | some b => simpa only [enter, hl] using Turn.hit dev blockno b hp hfree hl
    | none =>
      cases hv : victim s.cache (HASH blockno) with
      | some b => simpa only [enter, hl, hv] using Turn.recycle dev blockno b hp hfree hl hv
      | none => simpa only [enter, hl, hv] using Turn.miss dev blockno hp hfree hl
  | probe dev blockno i cycle =>
    rw [hp] at h
    by_cases hheld : s.lock i = some a
    · simp only [if_pos hheld] at h
      cases h
      exact .skip dev blockno i cycle hp hheld
    simp only [if_neg hheld] at h
    obtain ⟨hfree, rfl⟩ := acquire_some h
    cases hv : victim s.cache i with
    | some b => simpa only [visit, hv] using Turn.found dev blockno i cycle b hp hfree hv
    | none => simpa only [visit, hv] using Turn.vain dev blockno i cycle hp hfree
  | pass dev blockno i cycle =>
    rw [hp] at h
    cases h
    exact .pass dev blockno i cycle hp
  | moving dev blockno i b =>
    rw [hp] at h
    cases h
    exact .moving dev blockno i b hp
  | placing dev blockno b =>
    rw [hp] at h
    cases h
    exact .placing dev blockno b hp
  | stamp bid b ret =>
    rw [hp] at h
    cases of_guard h
    exact .stamp bid b ret hp
  | stamped bid b ret =>
    rw [hp] at h
    cases h
    exact .stamped bid b ret hp
  | unlock bid b ret =>
    rw [hp] at h
    cases h
    exact .unlock bid b ret hp
  | acquiresleep b =>
    rw [hp] at h
    obtain ⟨hfree, ⟨⟩⟩ := ite_none_right_eq_some.mp h
    exact .acquiresleep b hp hfree
  | brelse bid b =>
    rw [hp] at h
    obtain ⟨hfree, rfl⟩ := acquire_some h
    exact .brelse bid b hp hfree
  | count bid b pin =>
    rw [hp] at h
    obtain ⟨hfree, rfl⟩ := acquire_some h
    exact .count bid b pin hp hfree
  | counted bid =>
    rw [hp] at h
    cases h
    exact .counted bid hp

def Phase.first : Phase → Bool
  | .bget .. | .brelse .. | .count .. | .panicked none => true
  | _ => false

theorem step_cases {s s' : State α} {op : Op α} (hs : step s op = some s') : (∃ a, Turn s a s') ∨
    (∃ a ph sleep, s.phase a = .outside ∧ ph.first = true ∧
      s' = { s with sleep := sleep }.goto a ph) ∨
    s' = { s with cache := { s.cache with ticks := s.cache.ticks + 1 } } := by
  cases op with
  | go a => exact .inl ⟨a, go_turn hs⟩
  | tick =>
    have hs := of_guard hs
    exact .inr (.inr (Option.some.inj hs).symm)
  | brelse a b =>
    obtain ⟨hp, ⟨⟩⟩ := ite_none_right_eq_some.mp hs
    unfold startRelse
    split
    · exact .inr (.inl ⟨a, _, _, hp, rfl, rfl⟩)
    · exact .inr (.inl ⟨a, _, s.sleep, hp, rfl, rfl⟩)
  | _ a =>
    obtain ⟨hp, ⟨⟩⟩ := ite_none_right_eq_some.mp hs
    exact .inr (.inl ⟨a, _, s.sleep, hp, rfl, rfl⟩)

end Turns

def Phase.OnWalk : Phase → Prop
  | .probe _ blockno i cycle | .pass _ blockno i cycle =>
    i.val = ((HASH blockno).val + cycle) % NBUCKET ∧ 0 < cycle ∧ cycle < NBUCKET
  | .moving _ blockno i _ => i ≠ HASH blockno
  | _ => True

theorem walk_ne {bid i : Bucket} {cycle : Nat} (hi : i.val = (bid.val + cycle) % NBUCKET)
    (hpos : 0 < cycle) (hlt : cycle < NBUCKET) : i ≠ bid := by
  rintro rfl
  have := i.is_lt
  simp only [NBUCKET] at *
  omega

theorem walk_succ {bid i : Bucket} {cycle : Nat} (hi : i.val = (bid.val + cycle) % NBUCKET) :
    (i + 1).val = (bid.val + (cycle + 1)) % NBUCKET := by
  have hval : (i + 1).val = (i.val + 1) % NBUCKET := Fin.val_add i 1
  rw [hval, hi]
  simp only [NBUCKET]
  omega

theorem loopHead_onWalk {dev blockno : Nat} {i : Bucket} {cycle : Nat}
    (hi : i.val = ((HASH blockno).val + cycle) % NBUCKET) (hpos : 0 < cycle)
    (hle : cycle ≤ NBUCKET) :
    (loopHead dev blockno i cycle).OnWalk := by
  by_cases hc : cycle = NBUCKET
  · rw [loopHead, if_pos hc]
    exact trivial
  · rw [loopHead, if_neg hc]
    exact ⟨hi, hpos, by omega⟩

theorem loopHead_locks (dev blockno : Nat) (i : Bucket) (cycle : Nat) :
    (loopHead dev blockno i cycle).locks = [HASH blockno] := by
  unfold loopHead
  split <;> rfl

theorem mem_release {i bid : Bucket} (h : i ≠ bid) (k : Bucket) :
    k ∈ [bid] ↔ k ≠ i ∧ k ∈ [i, bid] := by
  simp only [List.mem_cons, List.not_mem_nil, or_false]
  exact ⟨fun hk => ⟨hk ▸ Ne.symm h, .inr hk⟩, fun hk => hk.2.resolve_left hk.1⟩

section Holding
variable {α : Type*}

/-- The lock table is what the phases say, and every miss is where its walk says. -/
structure Held (s : State α) : Prop where
  agrees : Locks.Agrees s.lock (fun _ => locks) s.phase
  walk : ∀ a, (s.phase a).OnWalk

theorem Held.init : Held (init : State α) where
  agrees := by
    intro k a
    simp [BioLocks.init, locks]
  walk := fun _ => trivial

variable [DecidableEq α]

theorem Held.goto {s s' : State α} {a : α} {ph : Phase} (h : Held s)
    (hphase : s'.phase = update s.phase a ph) (hwalk : ph.OnWalk)
    (hagrees : Locks.Agrees s'.lock (fun _ => locks) (update s.phase a ph)) :
    Held s' where
  agrees := by
    rw [hphase]
    exact hagrees
  walk := by
    intro b
    rw [hphase]
    obtain rfl | hb := eq_or_ne b a
    · rw [update_self]
      exact hwalk
    · rw [update_of_ne hb]
      exact h.walk b

theorem Held.turn {s s' : State α} {a : α} (h : Held s) (ht : Turn s a s') : Held s' := by
  have hwalk := h.walk a
  cases ht with
  | hit dev blockno b hp hfree hb | recycle dev blockno b hp hfree hmiss hb
  | brelse bid b hp hfree | count bid b pin hp hfree =>
    exact h.goto rfl trivial (h.agrees.acquire hfree (by simp [hp, locks]))
  | miss dev blockno hp hfree hmiss =>
    refine h.goto rfl (loopHead_onWalk ?_ Nat.one_pos (by decide)) (h.agrees.acquire hfree ?_)
    · exact Fin.val_add _ 1
    · intro k
      rw [loopHead_locks, hp]
      simp [locks]
  | skip dev blockno i cycle hp hheld =>
    rw [hp] at hwalk
    refine h.goto rfl (loopHead_onWalk (walk_succ hwalk.1) (by omega) hwalk.2.2)
      (h.agrees.move ?_)
    intro k
    rw [loopHead_locks, hp]
    exact Iff.rfl
  | found dev blockno i cycle b hp hfree hb =>
    rw [hp] at hwalk
    exact h.goto rfl (walk_ne hwalk.1 hwalk.2.1 hwalk.2.2)
      (h.agrees.acquire hfree (by simp [hp, locks]))
  | vain dev blockno i cycle hp hfree =>
    rw [hp] at hwalk
    exact h.goto rfl hwalk (h.agrees.acquire hfree (by simp [hp, locks]))
  | pass dev blockno i cycle hp =>
    rw [hp] at hwalk
    refine h.goto rfl (loopHead_onWalk (walk_succ hwalk.1) (by omega) hwalk.2.2)
      (h.agrees.release (by simp [hp, locks]) ?_)
    intro k
    rw [loopHead_locks, hp]
    exact mem_release (walk_ne hwalk.1 hwalk.2.1 hwalk.2.2) k
  | moving dev blockno i b hp =>
    rw [hp] at hwalk
    refine h.goto rfl trivial (h.agrees.release (by simp [hp, locks]) ?_)
    intro k
    rw [hp]
    exact mem_release hwalk k
  | placing dev blockno b hp | acquiresleep b hp hfree =>
    exact h.goto rfl trivial (h.agrees.move (by simp [hp, locks]))
  | stamp bid b ret hp
  | stamped bid b ret hp => exact h.goto rfl trivial (h.agrees.move (by simp [hp, locks]))
  | unlock bid b ret hp =>
    refine h.goto rfl ?_ (h.agrees.release (by simp [hp, locks]) ?_)
    · cases ret <;> exact trivial
    · cases ret <;> simp [hp, locks]
  | counted bid hp =>
    exact h.goto rfl trivial (h.agrees.release (by simp [hp, locks])
      (by simp [hp, locks]))

omit [DecidableEq α] in
theorem first_locks {ph : Phase} (h : ph.first = true) : ph.locks = [] ∧ ph.OnWalk := by
  cases ph with
  | bget dev blockno | brelse bid b | count bid b pin => exact ⟨rfl, trivial⟩
  | panicked bid =>
    cases bid with
    | none => exact ⟨rfl, trivial⟩
    | some bid => cases h
  | _ => cases h

theorem Held.step {s s' : State α} {op : Op α} (h : Held s) (hs : step s op = some s') :
    Held s' := by
  rcases step_cases hs with ⟨a, ht⟩ | ⟨a, ph, sleep, hp, hph, rfl⟩ | rfl
  · exact h.turn ht
  · obtain ⟨hlocks, hwalk⟩ := first_locks hph
    refine h.goto rfl hwalk (h.agrees.move ?_)
    rw [hp, hlocks]
    exact fun _ => Iff.rfl
  · exact ⟨h.agrees, h.walk⟩

end Holding

/-! ## Deadlock -/

def rank (z i : Bucket) : Nat := (i - (z + 1)).val

def Phase.probes : Phase → Option (Bucket × Bucket)
  | .probe _ blockno i _ => some (HASH blockno, i)
  | _ => none

/-- Two misses wait in their walks at once only if neither has gone past bucket `z`. -/
def Staggered {α : Type*} (z : Bucket) (s : State α) : Prop :=
  ∀ a b, a ≠ b → ∀ p ∈ (s.phase a).probes, ∀ q ∈ (s.phase b).probes,
    rank z p.1 < rank z p.2 ∧ rank z q.1 < rank z q.2

instance {α : Type*} [Fintype α] [DecidableEq α] (z : Bucket) (s : State α) :
    Decidable (Staggered z s) := by
  dsimp only [Staggered]
  infer_instance

section Deadlock
variable {α : Type*}

theorem probes_of_wants {ph : Phase} {i k : Bucket} (hw : ph.wants = some i) (hk : k ∈ ph.locks) :
    ph.probes = some (k, i) := by
  cases ph with
  | probe dev blockno j cycle =>
    cases hw
    rw [List.mem_singleton.mp hk]
    rfl
  | bget dev blockno | brelse bid b | count bid b pin => simp [locks] at hk
  | _ => cases hw

theorem Held.not_deadlock {s : State α} (h : Held s) {z : Bucket} (hs : Staggered z s) (D : Set α) :
    ¬ Locks.Deadlock s.lock s.wants D := by
  have hbound : ∀ i, rank z i ≤ NBUCKET := fun i => le_of_lt (Fin.is_lt _)
  refine Locks.not_deadlock_of_rank (rank z) NBUCKET hbound ?_ D
  intro a
  by_cases hp : ∀ p ∈ (s.phase a).probes, rank z p.1 < rank z p.2
  · left
    intro l hw k hk
    exact hp (k, l) (probes_of_wants hw ((h.agrees k a).mp hk))
  right
  push Not at hp
  obtain ⟨p, hpa, hle⟩ := hp
  intro b hb k hk
  by_contra hw
  obtain ⟨l, hl⟩ := ne_none_iff_exists'.mp hw
  have hprobes := probes_of_wants hl ((h.agrees k b).mp hk)
  exact absurd (hs a b (Ne.symm hb) p hpa (k, l) hprobes).1 (not_lt.mpr hle)

variable [DecidableEq α]

def Orderly (z : Bucket) (s : State α) (op : Op α) : Prop := ∀ s' ∈ step s op, Staggered z s'

instance [Fintype α] (z : Bucket) (s : State α) (op : Op α) : Decidable (Orderly z s op) :=
  inferInstanceAs (Decidable (∀ s' ∈ step s op, Staggered z s'))

/-- Let a miss walk past bucket `z` only while no other miss waits in its walk.  Then no
interleaving of cache calls on any number of CPUs reaches a deadlock on bucket locks. -/
theorem bucket_locks_free_of_deadlock (z : Bucket) (ops : List (Op α)) (s : State α)
    (hgood : Along step (Orderly z) init ops) (hrun : run step init ops = some s)
    (D : Set α) : ¬ Locks.Deadlock s.lock s.wants D := by
  have hinv : Held s ∧ Staggered z s := by
    refine along_invariant (I := fun s => Held s ∧ Staggered z s) ?_ ops init s ?_ hgood hrun
    · intro t op t' ht hop hstep
      exact ⟨ht.1.step hstep, hop t' hstep⟩
    · refine ⟨Held.init, ?_⟩
      intro a b _ p hp
      cases hp
  exact hinv.1.not_deadlock hinv.2 D

end Deadlock

def twoMisses : List (Op (Fin 3)) :=
  [.bget 1 1 1, .bget 2 1 2, .go 1, .go 2, .go 2, .go 2, .go 2]

theorem bucket_locks_free_of_deadlock_two : ∃ s, run step init twoMisses = some s ∧
    s.wants 1 = some 2 ∧ s.lock 2 = some 2 ∧ ∀ D, ¬ Locks.Deadlock s.lock s.wants D := by
  obtain ⟨s, hs, hw, hl⟩ := run_test step init twoMisses
    (fun s => s.wants 1 = some 2 ∧ s.lock 2 = some 2) (by decide +kernel)
  exact ⟨s, hs, hw, hl, fun D =>
    bucket_locks_free_of_deadlock 0 twoMisses s (by decide +kernel) hs D⟩

def holdAll : List (Op (Fin 3)) :=
  (List.range NBUF).flatMap fun j =>
    .bget 0 1 (NBUCKET * j) :: List.replicate 5 (.go 0)

def crossing : List (Op (Fin 3)) :=
  holdAll ++ [.bget 1 1 1, .bget 2 1 2, .go 1, .go 2] ++ List.replicate 22 (.go 2)

theorem bget_deadlocks : ∃ s, run step init crossing = some s ∧
    Locks.Deadlock s.lock s.wants {1, 2} := by
  obtain ⟨s, hs, h1, h2, w1, w2⟩ := run_test step init crossing
    (fun s => s.lock 1 = some 1 ∧ s.lock 2 = some 2 ∧ s.wants 1 = some 2 ∧ s.wants 2 = some 1)
    (by decide +kernel)
  exact ⟨s, hs, Locks.deadlock_pair (by decide) h1 h2 w1 w2⟩

end BirdOS.BioLocks
