import BirdOS.Lib.Machine
import BirdOS.Lib.Tally
import BirdOS.Param

/-! # Spinlocks (`spinlock.c`)

The other modules take `acquire` and `release` for single steps.  Here a step of a CPU is
one access to the words of a lock: the test of `holding`, the atomic swap, the stores to
`lk->cpu` and `lk->locked`.  `push_off` and `pop_off` touch nothing but the CPU's own fields
and interrupt flag, and go with the access next to them.  A CPU releases locks that it
holds and acquires locks that it does not hold. -/

namespace BirdOS.Spinlock

open Machine Function Tally

abbrev Hart := Fin NCPU

inductive Pc (ι : Type*) where
  | idle
  /-- `acquire`: `holding`. -/
  | testing (l : ι)
  | swapping (l : ι)
  /-- `lk->cpu = mycpu()`. -/
  | taken (l : ι)
  /-- `release`: `holding`. -/
  | checking (l : ι)
  /-- `lk->cpu = 0`. -/
  | clearing (l : ι)
  /-- `__sync_lock_release`, `pop_off`. -/
  | dropping (l : ι)
  deriving DecidableEq

structure Cpu where
  noff : Nat
  intena : Bool
  intr : Bool

def push_off (k : Cpu) : Cpu :=
  ⟨k.noff + 1, if k.noff = 0 then k.intr else k.intena, false⟩

/-- `none` is one of the two panics. -/
def pop_off (k : Cpu) : Option Cpu :=
  if k.intr ∨ k.noff < 1 then none
  else some ⟨k.noff - 1, k.intena, k.noff - 1 = 0 && k.intena⟩

structure State (ι : Type*) where
  locked : ι → Bool
  /-- `lk->cpu`. -/
  owner : ι → Option Hart
  cpu : Hart → Cpu
  pc : Hart → Pc ι
  panic : Bool

inductive Op (ι : Type*) where
  | acquire (c : Hart) (l : ι)
  | release (c : Hart) (l : ι)
  | go (c : Hart)

variable {ι : Type*} [DecidableEq ι]

def State.holding (s : State ι) (c : Hart) (l : ι) : Prop :=
  s.locked l = true ∧ s.owner l = some c

instance (s : State ι) (c : Hart) (l : ι) : Decidable (s.holding c l) :=
  inferInstanceAs (Decidable (_ ∧ _))

def State.goto (s : State ι) (c : Hart) (p : Pc ι) : State ι := { s with pc := update s.pc c p }

def State.panics (s : State ι) : State ι := { s with panic := true }

def go (s : State ι) (c : Hart) : Option (State ι) :=
  match s.pc c with
  | .idle => none
  | .testing l => some (if s.holding c l then s.panics else s.goto c (.swapping l))
  | .swapping l =>
    some (if s.locked l then s else { s with locked := update s.locked l true }.goto c (.taken l))
  | .taken l => some ({ s with owner := update s.owner l (some c) }.goto c .idle)
  | .checking l => some (if s.holding c l then s.goto c (.clearing l) else s.panics)
  | .clearing l => some ({ s with owner := update s.owner l none }.goto c (.dropping l))
  | .dropping l =>
    match pop_off (s.cpu c) with
    | none => some s.panics
    | some k =>
      some ({ s with locked := update s.locked l false, cpu := update s.cpu c k }.goto c .idle)

def step (s : State ι) (op : Op ι) : Option (State ι) :=
  if s.panic then none
  else
    match op with
    | .acquire c l =>
      if s.pc c = .idle ∧ ¬ s.holding c l then
        some ({ s with cpu := update s.cpu c (push_off (s.cpu c)) }.goto c (.testing l))
      else none
    | .release c l =>
      if s.pc c = .idle ∧ s.holding c l then some (s.goto c (.checking l)) else none
    | .go c => Spinlock.go s c

/-- After `initlock`, with any settings of the interrupt flags. -/
def init (intr : Hart → Bool) : State ι :=
  ⟨fun _ => false, fun _ => none, fun c => ⟨0, false, intr c⟩, fun _ => .idle, false⟩

/-! ## Who holds a lock -/

/-- After the swap, and before the store that frees the lock, it does not name its holder. -/
def Pc.claims (l : ι) : Pc ι → Nat
  | .taken k | .dropping k => if k = l then 1 else 0
  | _ => 0

def named (c : Hart) (o : Option Hart) : Nat := if o = some c then 1 else 0

def State.held (s : State ι) (c : Hart) (l : ι) : Nat := (s.pc c).claims l + named c (s.owner l)

/-- `push_off` was called for a lock that is not taken yet. -/
def Pc.waiting : Pc ι → Nat
  | .testing _ | .swapping _ => 1
  | _ => 0

def Pc.Ok (owner : ι → Option Hart) (c : Hart) : Pc ι → Prop
  | .testing l | .swapping l => owner l ≠ some c
  | .checking l | .clearing l => owner l = some c
  | _ => True

variable [Fintype ι]

structure Inv (intr : Hart → Bool) (s : State ι) : Prop where
  calm : s.panic = false
  word : ∀ l, tally (fun h => h l) s.held = (s.locked l).toNat
  caller : ∀ c, (s.pc c).Ok s.owner c
  nesting : ∀ c, (s.cpu c).noff = tally id (s.held c) + (s.pc c).waiting
  flags : ∀ c, if (s.cpu c).noff = 0 then (s.cpu c).intr = intr c
    else (s.cpu c).intr = false ∧ (s.cpu c).intena = intr c

variable {intr : Hart → Bool} {s s' : State ι} {c : Hart} {l : ι} {p : Pc ι}

theorem inv_init : Inv intr (init intr : State ι) where
  calm := rfl
  word := fun _ => tally_eq_zero.mpr fun _ => rfl
  caller := fun _ => trivial
  nesting := by
    intro c
    have hzero : tally id ((init intr : State ι).held c) = 0 := tally_eq_zero.mpr fun _ => rfl
    rw [hzero]
    rfl
  flags := fun _ => rfl

theorem Inv.sole (hi : Inv intr s) {d : Hart} (hc : s.held c l ≠ 0) (hd : s.held d l ≠ 0) :
    s.locked l = true ∧ c = d := by
  have hword := hi.word l
  have hle := le_tally (fun h => h l) s.held c
  cases hl : s.locked l with
  | false =>
    rw [hl, Bool.toNat_false] at hword
    omega
  | true =>
    rw [hl, Bool.toNat_true] at hword
    exact ⟨rfl, eq_of_tally_le_one (w := fun h : ι → Nat => h l) (by omega) hc hd⟩

/-- Only CPU `c` moves, only its name comes and goes, and `row` says what it holds then. -/
theorem Inv.moves (hi : Inv intr s) {row : ι → Nat} (hcalm : s'.panic = false)
    (hpc : s'.pc = update s.pc c p)
    (hkeep : ∀ l d, d ≠ c → (s'.owner l = some d ↔ s.owner l = some d)) (hok : p.Ok s'.owner c)
    (hrow : ∀ l, p.claims l + named c (s'.owner l) = row l)
    (hword : ∀ l, row l + (s.locked l).toNat = s.held c l + (s'.locked l).toNat)
    (hcpu : ∀ d, d ≠ c → s'.cpu d = s.cpu d)
    (hnest : (s'.cpu c).noff = tally id row + p.waiting)
    (hflags : if (s'.cpu c).noff = 0 then (s'.cpu c).intr = intr c
      else (s'.cpu c).intr = false ∧ (s'.cpu c).intena = intr c) : Inv intr s' := by
  have hheld : s'.held = update s.held c row := by
    funext d l
    rw [State.held, hpc]
    obtain rfl | hd := eq_or_ne d c
    · rw [update_self, update_self]
      exact hrow l
    · simp only [update_of_ne hd, State.held, named, hkeep l d hd]
  refine ⟨hcalm, fun l => ?_, fun d => ?_, fun d => ?_, fun d => ?_⟩
  · have hupd := tally_update (fun h : ι → Nat => h l) s.held c row
    have hold := hi.word l
    have hnew := hword l
    rw [hheld]
    omega
  all_goals obtain rfl | hd := eq_or_ne d c
  · rw [hpc, update_self]
    exact hok
  · have hold := hi.caller d
    rw [hpc, update_of_ne hd]
    cases hpd : s.pc d <;> rw [hpd] at hold <;> simp_all [Pc.Ok]
  · rw [hpc, hheld, update_self, update_self]
    exact hnest
  · rw [hpc, hheld, update_of_ne hd, update_of_ne hd, hcpu d hd]
    exact hi.nesting d
  · exact hflags
  · rw [hcpu d hd]
    exact hi.flags d

/-- The lock `l` gets or loses the name of its holder. -/
theorem Inv.renames (hi : Inv intr s) {o : Option Hart} (hok : p.Ok (update s.owner l o) c)
    (hkeep : ∀ d, d ≠ c → (o = some d ↔ s.owner l = some d))
    (hself : p.claims l + named c o = s.held c l)
    (hother : ∀ k, k ≠ l → p.claims k = (s.pc c).claims k)
    (hwait : (s.pc c).waiting = p.waiting) :
    Inv intr ({ s with owner := update s.owner l o }.goto c p) := by
  refine hi.moves hi.calm rfl (fun k d hd => ?_) hok (fun k => ?_) (fun _ => rfl)
    (fun _ _ => rfl) ?_ (hi.flags c)
  · obtain rfl | hk := eq_or_ne k l
    · simpa [State.goto] using hkeep d hd
    · simp [State.goto, hk]
  · obtain rfl | hk := eq_or_ne k l
    · simpa [State.goto] using hself
    · simp [State.goto, State.held, hk, hother k hk]
  · rw [← hwait]
    exact hi.nesting c

theorem Inv.goto (hi : Inv intr s) (hok : p.Ok s.owner c)
    (hclaims : ∀ k, p.claims k = (s.pc c).claims k) (hwait : (s.pc c).waiting = p.waiting) :
    Inv intr (s.goto c p) := by
  refine hi.moves hi.calm rfl (fun _ _ _ => Iff.rfl) hok (fun k => ?_) (fun _ => rfl)
    (fun _ _ => rfl) ?_ (hi.flags c)
  · rw [hclaims]
    rfl
  · rw [← hwait]
    exact hi.nesting c

/-- CPU `c` takes the lock `l`, which then has `n` in its row, or frees it. -/
theorem Inv.toggles (hi : Inv intr s) {n : Nat} {b : Bool} {k : Cpu} (hok : p.Ok s.owner c)
    (hself : p.claims l + named c (s.owner l) = n)
    (hother : ∀ k, k ≠ l → p.claims k = (s.pc c).claims k)
    (hword : n + (s.locked l).toNat = s.held c l + b.toNat)
    (hnest : k.noff + s.held c l + (s.pc c).waiting = (s.cpu c).noff + n + p.waiting)
    (hflags : if k.noff = 0 then k.intr = intr c else k.intr = false ∧ k.intena = intr c) :
    Inv intr ({ s with locked := update s.locked l b, cpu := update s.cpu c k }.goto c p) := by
  have hupd := tally_update id (s.held c) l n
  have hold := hi.nesting c
  simp only [id] at hupd
  have hrow (j : ι) : p.claims j + named c (s.owner j) = update (s.held c) l n j := by
    obtain rfl | hj := eq_or_ne j l
    · simpa using hself
    · simp [State.held, hj, hother j hj]
  refine hi.moves hi.calm rfl (fun _ _ _ => Iff.rfl) hok hrow (fun j => ?_) (fun d hd => ?_) ?_ ?_
  · obtain rfl | hj := eq_or_ne j l
    · simpa [State.goto] using hword
    · simp [State.goto, hj]
  · simp [State.goto, hd]
  · simp only [State.goto, update_self]
    omega
  · simpa [State.goto] using hflags

/-- A lock that is held without a name names nobody. -/
theorem Inv.unnamed (hi : Inv intr s) (h : (s.pc c).claims l = 1) : s.owner l = none := by
  by_contra hne
  obtain ⟨d, hd⟩ := Option.ne_none_iff_exists'.mp hne
  have hmine : s.held c l ≠ 0 := by rw [State.held, h]; omega
  have hother : s.held d l ≠ 0 := by simp [State.held, named, hd]
  obtain ⟨hl, rfl⟩ := hi.sole hmine hother
  have hle := le_tally (fun h : ι → Nat => h l) s.held c
  rw [hi.word, hl] at hle
  simp [State.held, h, hd, named] at hle

theorem Inv.busy (hi : Inv intr s) (h : s.pc c ≠ .idle ∨ ∃ l, s.held c l ≠ 0) :
    (s.cpu c).noff ≠ 0 := by
  have hnest := hi.nesting c
  have hok := hi.caller c
  have hold {l : ι} (hl : s.held c l ≠ 0) : (s.cpu c).noff ≠ 0 := by
    have hle := le_tally id (s.held c) l
    simp only [id] at hle
    omega
  rcases h with hpc | ⟨l, hl⟩
  · cases hp : s.pc c with
    | idle => exact absurd hp hpc
    | testing l | swapping l =>
      rw [hp, Pc.waiting] at hnest
      omega
    | taken l | dropping l => exact hold (l := l) (by simp [State.held, hp, Pc.claims])
    | checking l | clearing l =>
      rw [hp] at hok
      have hmine : s.owner l = some c := hok
      exact hold (l := l) (by simp [State.held, named, hmine])
  · exact hold hl

theorem Inv.go (hi : Inv intr s) (h : go s c = some s') : Inv intr s' := by
  have hok := hi.caller c
  have hflags := hi.flags c
  unfold Spinlock.go at h
  cases hpc : s.pc c with
  | idle => rw [hpc] at h; cases h
  | testing l =>
    rw [hpc] at h hok
    cases h
    rw [if_neg fun hh => hok hh.2]
    exact hi.goto hok (by rw [hpc]; exact fun _ => rfl) (by rw [hpc]; rfl)
  | swapping l =>
    rw [hpc] at h hok
    cases h
    split
    · exact hi
    · next hl =>
      have hother : s.owner l ≠ some c := hok
      have hzero : s.held c l = 0 := by simp [State.held, hpc, Pc.claims, named, hother]
      have htake : Inv intr ({ s with
          locked := update s.locked l true, cpu := update s.cpu c (s.cpu c) }.goto c (.taken l)) :=
        hi.toggles trivial rfl (fun k hk => by simp [hpc, Pc.claims, Ne.symm hk])
          (by simp [hzero, hl, Pc.claims, named, hother])
          (by simp [hzero, hpc, Pc.claims, Pc.waiting, named, hother]) hflags
      rwa [update_eq_self] at htake
  | taken l =>
    rw [hpc] at h
    cases h
    have hnone := hi.unnamed (c := c) (l := l) (by simp [hpc, Pc.claims])
    refine hi.renames trivial (fun d hd => ?_) ?_ (fun k hk => ?_) (by rw [hpc]; rfl)
    · simp [hnone, Ne.symm hd]
    · simp [State.held, hpc, hnone, Pc.claims, named]
    · simp [hpc, Ne.symm hk, Pc.claims]
  | checking l =>
    rw [hpc] at h hok
    cases h
    have hmine : s.owner l = some c := hok
    have hheld : s.held c l ≠ 0 := by simp [State.held, named, hmine]
    rw [if_pos ⟨(hi.sole hheld hheld).1, hmine⟩]
    exact hi.goto hok (by rw [hpc]; exact fun _ => rfl) (by rw [hpc]; rfl)
  | clearing l =>
    rw [hpc] at h hok
    cases h
    have hmine : s.owner l = some c := hok
    refine hi.renames trivial (fun d hd => ?_) ?_ (fun k hk => ?_) (by rw [hpc]; rfl)
    · simp [hmine, Ne.symm hd]
    · simp [State.held, hpc, hmine, Pc.claims, named]
    · simp [hpc, Ne.symm hk, Pc.claims]
  | dropping l =>
    rw [hpc] at h
    have hnone := hi.unnamed (c := c) (l := l) (by simp [hpc, Pc.claims])
    have hone : s.held c l = 1 := by simp [State.held, hpc, hnone, Pc.claims, named]
    have hheld : s.held c l ≠ 0 := by omega
    have hl := (hi.sole hheld hheld).1
    have hbusy := hi.busy (c := c) (.inr ⟨l, hheld⟩)
    rw [if_neg hbusy] at hflags
    have hpop : pop_off (s.cpu c) = some ⟨(s.cpu c).noff - 1, (s.cpu c).intena,
        (s.cpu c).noff - 1 = 0 && (s.cpu c).intena⟩ := if_neg (by simp [hflags.1]; omega)
    simp only [hpop] at h
    cases h
    refine hi.toggles trivial rfl (fun k hk => by simp [hpc, Pc.claims, Ne.symm hk])
      (by simp [hone, hl, hnone, Pc.claims, named]) ?_ ?_
    · simp [hone, hpc, hnone, Pc.claims, Pc.waiting, named]
      omega
    · by_cases hlast : (s.cpu c).noff - 1 = 0
      · simp [hlast, hflags.2]
      · simp [hlast, hflags.2]

theorem Inv.step (hi : Inv intr s) {op : Op ι} (h : step s op = some s') : Inv intr s' := by
  unfold Spinlock.step at h
  split at h
  · cases h
  cases op with
  | acquire c l =>
    obtain ⟨⟨hpc, hnot⟩, ⟨⟩⟩ := Option.ite_none_right_eq_some.mp h
    have hother : s.owner l ≠ some c := by
      intro hmine
      have hheld : s.held c l ≠ 0 := by simp [State.held, named, hmine]
      exact hnot ⟨(hi.sole hheld hheld).1, hmine⟩
    refine hi.moves (c := c) hi.calm rfl (fun _ _ _ => Iff.rfl) hother
      (fun k => by rw [State.held, hpc]; rfl) (fun _ => rfl) (fun d hd => ?_) ?_ ?_
    · simp [State.goto, hd]
    · have hnest := hi.nesting c
      simp only [hpc, Pc.waiting] at hnest
      simp [State.goto, push_off, Pc.waiting, hnest]
    · have hflags := hi.flags c
      split at hflags
      · next hz => simp [State.goto, push_off, hz, hflags]
      · next hz => simp [State.goto, push_off, hz, hflags]
  | release c l =>
    obtain ⟨⟨hpc, hmine⟩, ⟨⟩⟩ := Option.ite_none_right_eq_some.mp h
    exact hi.goto hmine.2 (by rw [hpc]; exact fun _ => rfl) (by rw [hpc]; rfl)
  | go c => exact hi.go h

/-- In whatever order the CPUs access the locks, no panic is reached, a lock has one holder
at a time, interrupts are off on a CPU that holds a lock or is in a call, and otherwise they
are as they were at the start. -/
theorem spinlocks_exclude (intr : Hart → Bool) (s : State ι)
    (hs : Reachable step (init intr) s) : s.panic = false ∧
      (∀ l c d, s.held c l ≠ 0 → s.held d l ≠ 0 → s.locked l = true ∧ c = d) ∧
      ∀ c, (s.pc c ≠ .idle ∨ (∃ l, s.held c l ≠ 0) → (s.cpu c).intr = false) ∧
        (s.pc c = .idle → (∀ l, s.held c l = 0) → (s.cpu c).intr = intr c) := by
  have hi : Inv intr s := reachable_invariant inv_init (fun _ _ _ hi h => hi.step h) hs
  refine ⟨hi.calm, fun l c d => hi.sole, fun c => ⟨fun hbusy => ?_, fun hidle hnone => ?_⟩⟩
  · have hflags := hi.flags c
    rw [if_neg (hi.busy hbusy)] at hflags
    exact hflags.1
  · have hflags := hi.flags c
    have hnest := hi.nesting c
    have hzero : tally id (s.held c) = 0 := tally_eq_zero.mpr hnone
    rw [hidle, hzero] at hnest
    rw [if_pos (show (s.cpu c).noff = 0 from hnest)] at hflags
    exact hflags

/-- CPU 0 has the first of two locks and spins for the second, which CPU 1 has. -/
theorem spinlocks_exclude_two : ∃ s : State Bool, run step (init fun _ => true)
    [.acquire 0 false, .go 0, .go 0, .go 0, .acquire 1 true, .go 1, .go 1, .acquire 0 true, .go 0,
      .go 0] = some s ∧ s.panic = false ∧ (s.cpu 0).intr = false := by
  obtain ⟨s, hs, hpc⟩ := run_test step (init fun _ => true : State Bool)
    [.acquire 0 false, .go 0, .go 0, .go 0, .acquire 1 true, .go 1, .go 1, .acquire 0 true, .go 0,
      .go 0] (fun s => s.pc 0 = .swapping true) (by decide +kernel)
  obtain ⟨hcalm, -, hintr⟩ := spinlocks_exclude (fun _ => true) s ⟨_, hs⟩
  exact ⟨s, hs, hcalm, (hintr 0).1 (.inl (by simp [hpc]))⟩

end BirdOS.Spinlock
