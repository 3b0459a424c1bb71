import Mathlib.Data.Fintype.Basic
import BirdOS.Lib.Machine
import BirdOS.Lib.Locks
import BirdOS.Param

/-! # Allocation of process slots (`allocproc`, `fork`, `clone`)

Any number of callers scan the process table for a free slot, at the granularity of the
locks `p->lock`.  `SLEEPING`, `RUNNABLE` and `RUNNING` are one state, `live`.

`out q` counts the calls of `allocproc` that have returned slot `q` and whose process has
neither been given up nor reaped; `procs` lists the slots of the processes that `fork` and
`clone` have reported to their callers and that have not been reaped. -/

namespace BirdOS.Allocproc

open Function Machine

inductive ProcState where
  | unused
  | live
  | zombie
  deriving DecidableEq

inductive Kind where
  | fork
  | clone
  deriving DecidableEq

inductive Phase where
  | idle
  /-- Before `acquire(&proc[i].lock)` in the loop of `allocproc`. -/
  | scan (k : Kind) (i : Nat)
  /-- The lock is held, `p->state` is tested next. -/
  | check (k : Kind) (q : Slot)
  /-- `allocproc` has returned `q` with its lock held. -/
  | build (k : Kind) (q : Slot)
  /-- `clone` between its `release` and its second `acquire`. -/
  | window (q : Slot)
  /-- `clone` after that `acquire`. -/
  | finish (q : Slot)
  deriving DecidableEq

def Phase.locks : Phase → List Slot
  | .check _ q => [q]
  | .build _ q => [q]
  | .finish q => [q]
  | _ => []

def Phase.slot : Phase → Option Slot
  | .build _ q => some q
  | .window q => some q
  | .finish q => some q
  | _ => none

def Phase.tests : Phase → Option Slot
  | .check _ q => some q
  | _ => none

structure State (ι : Type) where
  state : Slot → ProcState
  lock : Slot → Option ι
  phase : ι → Phase
  out : Slot → Nat
  procs : List Slot

/-- `ok` answers for the allocations of memory in `allocproc` and `uvmcopy`. -/
inductive Op (ι : Type) where
  | call (c : ι) (k : Kind)
  | go (c : ι) (ok : Bool)
  | exit (q : Slot)
  /-- `freeproc` in `wait`, or the end of `join`. -/
  | reap (q : Slot)

def boot (ι : Type) : State ι where
  state := fun _ => .unused
  lock := fun _ => none
  phase := fun _ => .idle
  out := fun _ => 0
  procs := []

section Source
variable {ι : Type} [DecidableEq ι]

def State.acquire (s : State ι) (c : ι) (q : Slot) (p : Phase) : Option (State ι) :=
  if s.lock q = none then
    some { s with
      lock := update s.lock q (some c)
      phase := update s.phase c p }
  else none

def State.release (s : State ι) (c : ι) (q : Slot) (p : Phase) : State ι :=
  { s with lock := update s.lock q none, phase := update s.phase c p }

def State.create (s : State ι) (c : ι) (q : Slot) : State ι :=
  { s.release c q .idle with
    state := update s.state q .live
    procs := q :: s.procs }

def go (s : State ι) (c : ι) (ok : Bool) : Option (State ι) :=
  match s.phase c with
  | .idle => none
  | .scan k i =>
    if h : i < NPROC then s.acquire c ⟨i, h⟩ (.check k ⟨i, h⟩)
    else some { s with phase := update s.phase c .idle }
  | .check k q =>
    if s.state q = .unused then
      if ok then
        some { s with
          phase := update s.phase c (.build k q)
          out := update s.out q (s.out q + 1) }
      else some (s.release c q .idle)
    else some (s.release c q (.scan k (q + 1)))
  | .build .fork q =>
    if ok then some (s.create c q)
    else
      some { s.release c q .idle with
        state := update s.state q .unused
        out := update s.out q (s.out q - 1) }
  | .build .clone q => some (s.release c q (.window q))
  | .window q => s.acquire c q (.finish q)
  | .finish q => some (s.create c q)

def step (s : State ι) : Op ι → Option (State ι)
  | .call c k =>
    if s.phase c = .idle then
      some { s with phase := update s.phase c (.scan k 0) }
    else none
  | .go c ok => go s c ok
  | .exit q =>
    if s.lock q = none ∧ s.state q = .live then
      some { s with state := update s.state q .zombie }
    else none
  | .reap q =>
    if s.lock q = none ∧ s.state q = .zombie then
      some { s with
        state := update s.state q .unused
        out := update s.out q (s.out q - 1)
        procs := s.procs.erase q }
    else none

end Source

/-- No `allocproc` takes a slot that a `clone` is still working on without its lock. -/
def Patient {ι : Type} (s : State ι) : Op ι → Prop
  | .go c _ => ∀ q ∈ (s.phase c).tests, ∀ c', s.phase c' ≠ .window q
  | _ => True

/-- Each slot has one creator at a time; reported processes have slots of their own, and the
slots in use are theirs. -/
structure Exclusive {ι : Type} (s : State ι) : Prop where
  out : ∀ q, s.out q ≤ 1
  nodup : s.procs.Nodup
  mem : ∀ q, q ∈ s.procs ↔ s.state q ≠ .unused

/-! ## The invariant -/

structure Inv {ι : Type} (s : State ι) : Prop where
  agrees : Locks.Agrees s.lock (fun _ => Phase.locks) s.phase
  unused : ∀ c q, (s.phase c).slot = some q → s.state q = .unused
  unique : ∀ c c' q, (s.phase c).slot = some q → (s.phase c').slot = some q → c = c'
  used : ∀ q, s.state q ≠ .unused → s.out q = 1
  taken : ∀ c q, (s.phase c).slot = some q → s.out q = 1
  free : ∀ q, s.state q = .unused → (∀ c, (s.phase c).slot ≠ some q) → s.out q = 0
  nodup : s.procs.Nodup
  mem : ∀ q, q ∈ s.procs ↔ s.state q ≠ .unused

section Invariant
variable {ι : Type} {s s' : State ι}

theorem inv_boot (ι : Type) : Inv (boot ι) where
  agrees := fun _ _ => by simp [boot, Phase.locks]
  unused := fun _ _ h => by cases h
  unique := fun _ _ _ h => by cases h
  used := fun _ h => absurd rfl h
  taken := fun _ _ h => by cases h
  free := fun _ _ _ => rfl
  nodup := List.nodup_nil
  mem := fun _ => by simp [boot]

theorem Inv.exclusive (hi : Inv s) : Exclusive s := by
  refine ⟨fun q => ?_, hi.nodup, hi.mem⟩
  by_cases hu : s.state q = .unused
  · by_cases ht : ∃ c, (s.phase c).slot = some q
    · obtain ⟨c, hc⟩ := ht
      exact le_of_eq (hi.taken c q hc)
    · have hfree := hi.free q hu fun c hc => ht ⟨c, hc⟩
      omega
  · exact le_of_eq (hi.used q hu)

variable {c : ι} {q : Slot} {p : Phase}

theorem Inv.alone (hi : Inv s) (hheld : (s.phase c).locks = [q])
    (hwindow : ∀ c', s.phase c' ≠ .window q) {c' : ι} (hc : (s.phase c').slot = some q) :
    c' = c := by
  have hlock : s.lock q = some c := (hi.agrees q c).mpr (by simp [hheld])
  have hown : s.lock q = some c' := by
    refine (hi.agrees q c').mpr ?_
    cases hph : s.phase c' with
    | build k r | finish r =>
      rw [hph] at hc
      cases hc
      exact List.mem_singleton_self _
    | window r =>
      rw [hph] at hc
      cases hc
      exact absurd hph (hwindow c')
    | _ =>
      rw [hph] at hc
      cases hc
  rw [hlock] at hown
  exact (Option.some.inj hown).symm

theorem Inv.exit (hi : Inv s) (hlive : s.state q = .live) :
    Inv { s with state := update s.state q .zombie } := by
  have hiff : ∀ r, update s.state q .zombie r = .unused ↔ s.state r = .unused := by
    intro r
    by_cases hr : r = q
    · simp [hr, hlive]
    · rw [update_of_ne hr]
  refine ⟨hi.agrees, ?_, hi.unique, ?_, hi.taken, ?_, hi.nodup, ?_⟩
  · exact fun c r h => (hiff r).mpr (hi.unused c r h)
  · exact fun r hne => hi.used r fun hu => hne ((hiff r).mpr hu)
  · exact fun r hu => hi.free r ((hiff r).mp hu)
  · exact fun r => (hi.mem r).trans (not_congr (hiff r).symm)

theorem Inv.reap (hi : Inv s) (hz : s.state q = .zombie) : Inv { s with
      state := update s.state q .unused
      out := update s.out q (s.out q - 1)
      procs := s.procs.erase q } := by
  have hused : s.state q ≠ .unused := by
    rw [hz]
    exact fun h => by cases h
  have hother : ∀ {c' r}, (s.phase c').slot = some r → r ≠ q := by
    rintro c' r h rfl
    exact hused (hi.unused c' r h)
  refine ⟨hi.agrees, ?_, hi.unique, ?_, ?_, ?_, hi.nodup.erase q, ?_⟩
  · intro c' r h
    simp only [update_of_ne (hother h)]
    exact hi.unused c' r h
  · intro r hne
    have hr : r ≠ q := by
      rintro rfl
      simp at hne
    simp only [update_of_ne hr] at hne ⊢
    exact hi.used r hne
  · intro c' r h
    simp only [update_of_ne (hother h)]
    exact hi.taken c' r h
  · intro r hu hnone
    obtain rfl | hr := eq_or_ne r q
    · simp only [update_self, hi.used r hused]
    · simp only [update_of_ne hr] at hu ⊢
      exact hi.free r hu hnone
  · intro r
    simp only [hi.nodup.mem_erase_iff, hi.mem r]
    by_cases hr : r = q
    · simp [hr]
    · simp [hr]

variable [DecidableEq ι]

section
variable (hi : Inv s)
include hi

theorem Inv.move (hslot : p.slot = (s.phase c).slot) {lock : Slot → Option ι}
    (hagrees : Locks.Agrees lock (fun _ => Phase.locks) (update s.phase c p)) :
    Inv { s with lock := lock, phase := update s.phase c p } := by
  have hsame : ∀ c', (update s.phase c p c').slot = (s.phase c').slot := by
    intro c'
    by_cases hc : c' = c
    · subst hc
      rw [update_self, hslot]
    · rw [update_of_ne hc]
  refine ⟨hagrees, ?_, ?_, hi.used, ?_, ?_, hi.nodup, hi.mem⟩
  · intro c' q' h
    rw [hsame] at h
    exact hi.unused c' q' h
  · intro c' c'' q' h h'
    rw [hsame] at h h'
    exact hi.unique c' c'' q' h h'
  · intro c' q' h
    rw [hsame] at h
    exact hi.taken c' q' h
  · intro q' hu hnone
    refine hi.free q' hu fun c' h => hnone c' ?_
    rw [hsame]
    exact h

theorem Inv.acquire (hlocks : (s.phase c).locks = []) (hp : p.locks = [q])
    (hslot : p.slot = (s.phase c).slot) (ha : s.acquire c q p = some s') : Inv s' := by
  unfold State.acquire at ha
  split at ha
  · next hfree =>
    cases ha
    refine hi.move hslot (hi.agrees.acquire hfree fun k => ?_)
    rw [hp, hlocks]
    simp
  · cases ha

theorem Inv.release (hheld : (s.phase c).locks = [q]) (hp : p.locks = [])
    (hslot : p.slot = (s.phase c).slot) : Inv (s.release c q p) := by
  refine hi.move hslot (hi.agrees.release (by rw [hheld]; simp) fun k => ?_)
  rw [hp, hheld]
  simp

theorem Inv.found {k : Kind} (hph : s.phase c = .check k q)
    (hu : s.state q = .unused) (hwindow : ∀ c', s.phase c' ≠ .window q) :
    Inv { s with
      phase := update s.phase c (.build k q)
      out := update s.out q (s.out q + 1) } := by
  have hheld : (s.phase c).locks = [q] := by rw [hph]; rfl
  have hfree : ∀ c', (s.phase c').slot ≠ some q := by
    intro c' hc
    have := hi.alone hheld hwindow hc
    subst this
    rw [hph] at hc
    cases hc
  have hzero := hi.free q hu hfree
  have hother : ∀ {c' q'}, (update s.phase c (.build k q) c').slot = some q' →
      (c' = c ∧ q' = q) ∨ (c' ≠ c ∧ q' ≠ q ∧ (s.phase c').slot = some q') := by
    intro c' q' h
    by_cases hc : c' = c
    · subst hc
      rw [update_self] at h
      exact .inl ⟨rfl, (Option.some.inj h).symm⟩
    rw [update_of_ne hc] at h
    refine .inr ⟨hc, ?_, h⟩
    rintro rfl
    exact hfree c' h
  refine ⟨?_, ?_, ?_, ?_, ?_, ?_, hi.nodup, hi.mem⟩
  · refine hi.agrees.move fun r => ?_
    rw [hheld]
    rfl
  · intro c' q' h
    rcases hother h with ⟨-, rfl⟩ | ⟨-, -, h'⟩
    · exact hu
    · exact hi.unused c' q' h'
  · intro c' c'' q' h h'
    rcases hother h with ⟨rfl, rfl⟩ | ⟨-, hne, h1⟩
    · rcases hother h' with ⟨rfl, -⟩ | ⟨-, hne', -⟩
      · rfl
      · exact absurd rfl hne'
    rcases hother h' with ⟨-, rfl⟩ | ⟨-, -, h2⟩
    · exact absurd rfl hne
    · exact hi.unique c' c'' q' h1 h2
  · intro q' hne
    have hq : q' ≠ q := by
      rintro rfl
      exact hne hu
    simp only [update_of_ne hq]
    exact hi.used q' hne
  · intro c' q' h
    rcases hother h with ⟨-, rfl⟩ | ⟨-, hq, h'⟩
    · simp only [update_self, hzero]
    · simp only [update_of_ne hq]
      exact hi.taken c' q' h'
  · intro q' hu' hnone
    have hq : q' ≠ q := by
      rintro rfl
      exact hnone c (by simp only [update_self]; rfl)
    simp only [update_of_ne hq]
    refine hi.free q' hu' fun c' h => ?_
    by_cases hc : c' = c
    · subst hc
      rw [hph] at h
      cases h
    · exact hnone c' (by simp only [update_of_ne hc]; exact h)

theorem Inv.done (hheld : (s.phase c).locks = [q])
    (hslot : (s.phase c).slot = some q) (st : ProcState) {n : Nat} (procs : List Slot)
    (hn : n = if st = .unused then 0 else 1) (hnodup : procs.Nodup)
    (hmem : ∀ r, r ∈ procs ↔ update s.state q st r ≠ .unused) :
    Inv { s.release c q .idle with
      state := update s.state q st
      out := update s.out q n
      procs := procs } := by
  have hother : ∀ {c' q'}, (update s.phase c .idle c').slot = some q' →
      c' ≠ c ∧ q' ≠ q ∧ (s.phase c').slot = some q' := by
    intro c' q' h
    by_cases hc : c' = c
    · subst hc
      rw [update_self] at h
      cases h
    rw [update_of_ne hc] at h
    refine ⟨hc, ?_, h⟩
    rintro rfl
    exact hc (hi.unique c' c q' h hslot)
  refine ⟨?_, ?_, ?_, ?_, ?_, ?_, hnodup, hmem⟩
  · refine hi.agrees.release (by rw [hheld]; simp) fun k => ?_
    rw [hheld]
    simp [Phase.locks]
  · intro c' q' h
    obtain ⟨-, hq, h'⟩ := hother h
    simp only [update_of_ne hq]
    exact hi.unused c' q' h'
  · intro c' c'' q' h h'
    exact hi.unique c' c'' q' (hother h).2.2 (hother h').2.2
  · intro q' hne
    by_cases hq : q' = q
    · subst hq
      simp only [update_self] at hne ⊢
      rw [hn, if_neg hne]
    · simp only [update_of_ne hq] at hne ⊢
      exact hi.used q' hne
  · intro c' q' h
    obtain ⟨-, hq, h'⟩ := hother h
    simp only [update_of_ne hq]
    exact hi.taken c' q' h'
  · intro q' hu hnone
    by_cases hq : q' = q
    · subst hq
      simp only [update_self] at hu ⊢
      rw [hn, if_pos hu]
    simp only [update_of_ne hq] at hu ⊢
    refine hi.free q' hu fun c' h => hnone c' ?_
    have hc : c' ≠ c := by
      rintro rfl
      rw [hslot] at h
      exact hq (Option.some.inj h).symm
    simp only [State.release, update_of_ne hc]
    exact h

theorem Inv.create (hheld : (s.phase c).locks = [q])
    (hslot : (s.phase c).slot = some q) : Inv (s.create c q) := by
  have hu := hi.unused c q hslot
  have hnew : q ∉ s.procs := fun hm => (hi.mem q).mp hm hu
  have hdone := hi.done hheld hslot .live (n := 1) (q :: s.procs) rfl
    (List.nodup_cons.mpr ⟨hnew, hi.nodup⟩) fun r => by
      by_cases hr : r = q
      · simp [hr]
      · simp [hr, hi.mem r]
  have hout : update s.out q 1 = s.out := by
    rw [← hi.taken c q hslot, update_eq_self]
  rw [hout] at hdone
  exact hdone

theorem Inv.abandon (hheld : (s.phase c).locks = [q]) (hslot : (s.phase c).slot = some q) :
    Inv { s.release c q .idle with
      state := update s.state q .unused
      out := update s.out q (s.out q - 1) } := by
  have hstate : update s.state q .unused = s.state := by
    rw [← hi.unused c q hslot, update_eq_self]
  refine hi.done hheld hslot .unused s.procs ?_ hi.nodup ?_
  · rw [hi.taken c q hslot]
    rfl
  · rw [hstate]
    exact hi.mem

theorem Inv.go {ok : Bool} (hgood : Patient s (.go c ok)) (hs : go s c ok = some s') : Inv s' := by
  unfold Allocproc.go at hs
  cases hph : s.phase c with
  | idle =>
    rw [hph] at hs
    cases hs
  | scan k i =>
    simp only [hph] at hs
    split at hs
    · exact hi.acquire (by rw [hph]; rfl) rfl (by rw [hph]; rfl) hs
    cases hs
    refine hi.move (by rw [hph]; rfl) (hi.agrees.move fun r => ?_)
    rw [hph]
    rfl
  | check k q =>
    simp only [hph] at hs
    have hwindow : ∀ c', s.phase c' ≠ .window q := hgood q (by rw [hph]; rfl)
    split at hs
    · next hu =>
      split at hs
      · cases hs
        exact hi.found hph hu hwindow
      · cases hs
        exact hi.release (by rw [hph]; rfl) rfl (by rw [hph]; rfl)
    · cases hs
      exact hi.release (by rw [hph]; rfl) rfl (by rw [hph]; rfl)
  | build k q =>
    have hheld : (s.phase c).locks = [q] := by rw [hph]; rfl
    have hslot : (s.phase c).slot = some q := by rw [hph]; rfl
    cases k with
    | fork =>
      simp only [hph] at hs
      split at hs
      · cases hs
        exact hi.create hheld hslot
      · cases hs
        exact hi.abandon hheld hslot
    | clone =>
      simp only [hph] at hs
      cases hs
      exact hi.release hheld rfl hslot.symm
  | window q =>
    simp only [hph] at hs
    exact hi.acquire (by rw [hph]; rfl) rfl (by rw [hph]; rfl) hs
  | finish q =>
    simp only [hph] at hs
    cases hs
    exact hi.create (by rw [hph]; rfl) (by rw [hph]; rfl)

theorem Inv.step {op : Op ι} (hgood : Patient s op) (hs : step s op = some s') :
    Inv s' := by
  cases op with
  | call c k =>
    simp only [Allocproc.step] at hs
    split at hs
    · next hidle =>
      cases hs
      refine hi.move (by rw [hidle]; rfl) (hi.agrees.move fun r => ?_)
      rw [hidle]
      rfl
    · cases hs
  | go c ok => exact hi.go hgood hs
  | exit q =>
    simp only [Allocproc.step] at hs
    split at hs
    · next hlive =>
      cases hs
      exact hi.exit hlive.2
    · cases hs
  | reap q =>
    simp only [Allocproc.step] at hs
    split at hs
    · next hz =>
      cases hs
      exact hi.reap hz.2
    · cases hs

end

end Invariant

/-- As long as no `allocproc` takes a slot in the window in which `clone` does not hold its
lock, a slot belongs to one creator and then to one process until that is reaped. -/
theorem slots_exclusive {ι : Type} [DecidableEq ι] (ops : List (Op ι)) (s : State ι)
    (hgood : Along step Patient (boot ι) ops)
    (hrun : run step (boot ι) ops = some s) : Exclusive s :=
  (along_invariant (fun _ _ _ hi hgood hs => hi.step hgood hs) ops (boot ι) s
    (inv_boot ι) hgood hrun).exclusive

instance {ι : Type} [Fintype ι] (s : State ι) (op : Op ι) : Decidable (Patient s op) := by
  cases op <;> dsimp only [Patient] <;> infer_instance

def inTurn : List (Op Bool) :=
  [.call true .clone, .go true true, .go true true,
    .call false .fork, .go true true, .go true true, .go true true,
    .go false true, .go false true, .go false true, .go false true, .go false true,
    .exit 0, .reap 0, .call false .fork, .go false true, .go false true, .go false true]

theorem slots_exclusive_in_turn : ∃ s, run step (boot Bool) inTurn = some s ∧
    s.procs = [0, 1] ∧ Exclusive s := by
  obtain ⟨s, hrun, hp⟩ := run_test step (boot Bool) inTurn (fun s => s.procs = [0, 1])
    (by decide +kernel)
  exact ⟨s, hrun, hp, slots_exclusive inTurn s (by decide +kernel) hrun⟩

def inWindow : List (Op Bool) :=
  [.call true .clone, .go true true, .go true true, .go true true,
    .call false .fork, .go false true, .go false true, .go false true,
    .go true true, .go true true]

theorem slot_given_twice : ∃ s, run step (boot Bool) inWindow = some s ∧
    s.procs = [0, 0] ∧ s.out 0 = 2 ∧ ¬ Exclusive s := by
  obtain ⟨s, hrun, hp, ho⟩ := run_test step (boot Bool) inWindow
    (fun s => s.procs = [0, 0] ∧ s.out 0 = 2) (by decide +kernel)
  refine ⟨s, hrun, hp, ho, fun hex => ?_⟩
  have := hex.out 0
  omega

end BirdOS.Allocproc
