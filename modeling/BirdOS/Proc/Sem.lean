import BirdOS.Lib.Machine
import BirdOS.Lib.Tally
import BirdOS.Param

/-! # Counting semaphores (`sys_sem_create`, `sys_sem_free`, `sys_sem_p`, `sys_sem_v`)

The semaphore table and, for every process, the point it has reached inside a
semaphore call.  A step is a stretch of code between two lock operations that another
CPU can see: `sem_p` takes `p->lock`, then decrements under the semaphore's lock, then
sleeps; `sem_v` increments and, still holding the semaphore's lock, runs `wakeup`, one
`p->lock` after the other.  `kill` wakes a sleeper as well.

`created`, `returned` and `completed` record the history of a semaphore since its
creation: its initial count, the calls of `sem_p` that have returned and the calls of
`sem_v` that have completed.  No code reads them. -/

namespace BirdOS.Semaphore

open Machine Tally Function Option

def SEM_MAX_NUM : Nat := 128

abbrev SemId := Fin SEM_MAX_NUM

instance : NeZero SEM_MAX_NUM := ⟨by decide⟩

structure Sem where
  lock : Option Slot
  resourceCount : Int
  allocated : Bool

inductive Phase where
  | outside
  /-- `sem_p` holds `p->lock` and waits for the semaphore's lock. -/
  | entering (id : SemId)
  /-- `sem_p` made the count negative: it holds `p->lock` and is about to sleep. -/
  | falling (id : SemId)
  | asleep (id : SemId)
  /-- RUNNABLE again, inside `sleep`. -/
  | woken (id : SemId)
  /-- `sem_p` got a resource and still holds `p->lock`. -/
  | leaving (id : SemId)
  /-- `sem_v` holds the semaphore's lock, in `wakeup` at slot `i`. -/
  | waking (id : SemId) (i : Nat)
  deriving DecidableEq

open Phase

structure State where
  sems : SemId → Sem
  phase : Slot → Phase
  created : SemId → Int
  returned : SemId → Nat
  completed : SemId → Nat

open State

def Phase.locked : Phase → Bool
  | .entering _ | .falling _ | .leaving _ => true
  | _ => false

def initsem : State where
  sems := fun _ => ⟨none, 0, false⟩
  phase := fun _ => .outside
  created := fun _ => 0
  returned := fun _ => 0
  completed := fun _ => 0

def State.setPhase (s : State) (p : Slot) (ph : Phase) : State :=
  { s with phase := update s.phase p ph }

def State.setSem (s : State) (id : SemId) (m : Sem) : State :=
  { s with sems := update s.sems id m }

attribute [local simp] State.setSem

def semCreate (s : State) (id : SemId) (n : Int) : Option State :=
  if n ≤ 0 ∨ n > INT_MAX then none
  else if (s.sems id).lock.isSome ∨ (s.sems id).allocated then none
  else some
    { s.setSem id ⟨none, n, true⟩ with
      created := update s.created id n
      returned := update s.returned id 0
      completed := update s.completed id 0 }

def semFree (s : State) (id : SemId) : Option State :=
  if (s.sems id).lock.isSome then none
  else if (s.sems id).allocated then some (s.setSem id ⟨none, 0, false⟩)
  else some s

def semPTake (s : State) (p : Slot) (id : SemId) : Option State :=
  let m := s.sems id
  if m.lock.isSome then none
  else
    let s' := s.setSem id { m with resourceCount := wrap32 (m.resourceCount - 1) }
    if wrap32 (m.resourceCount - 1) < 0 then some (s'.setPhase p (.falling id))
    else some (s'.setPhase p (.leaving id))

def semPReturn (s : State) (p : Slot) (id : SemId) : State :=
  { s.setPhase p .outside with returned := update s.returned id (s.returned id + 1) }

def semVTake (s : State) (p : Slot) (id : SemId) : Option State :=
  let m := s.sems id
  if m.lock.isSome then none
  else if wrap32 (m.resourceCount + 1) ≤ 0 then
    some ((s.setSem id
      { m with lock := some p, resourceCount := wrap32 (m.resourceCount + 1) }).setPhase p
      (.waking id 0))
  else
    some { s.setSem id { m with resourceCount := wrap32 (m.resourceCount + 1) } with
      completed := update s.completed id (s.completed id + 1) }

def wakeup (s : State) (p : Slot) (id : SemId) (q : Slot) : Option State :=
  if (s.phase q).locked then none
  else
    let s' := if s.phase q = .asleep id then s.setPhase q (.woken id) else s
    some (s'.setPhase p (.waking id (q + 1)))

def semVReturn (s : State) (p : Slot) (id : SemId) : State :=
  { (s.setSem id { s.sems id with lock := none }).setPhase p .outside with
    completed := update s.completed id (s.completed id + 1) }

/-- `kill` as far as a semaphore call can see it. -/
def kill (s : State) (p : Slot) : Option State :=
  if (s.phase p).locked then none
  else
    match s.phase p with
    | .asleep id => some (s.setPhase p (.woken id))
    | _ => some s

inductive Op where
  | create (id : SemId) (n : Int)
  | free (id : SemId)
  | semP (p : Slot) (id : SemId)
  | semV (p : Slot) (id : SemId)
  /-- The process goes on inside its call. -/
  | continue (p : Slot)
  | kill (p : Slot)

def step (s : State) : Op → Option State
  | .create id n => semCreate s id n
  | .free id => semFree s id
  | .semP p id => if s.phase p = .outside then some (s.setPhase p (.entering id)) else none
  | .semV p id => if s.phase p = .outside then semVTake s p id else none
  | .continue p =>
    match s.phase p with
    | .outside | .asleep _ => none
    | .entering id => semPTake s p id
    | .falling id => some (s.setPhase p (.asleep id))
    | .woken id | .leaving id => some (semPReturn s p id)
    | .waking id i => if h : i < NPROC then wakeup s p id ⟨i, h⟩ else some (semVReturn s p id)
  | .kill p => kill s p

/-! ## What is counted -/

def Phase.uses (id : SemId) : Phase → Bool
  | .outside => false
  | .entering j | .falling j | .asleep j | .woken j | .leaving j | .waking j _ => decide (j = id)

def Phase.blockedOn (id : SemId) : Phase → Nat
  | .falling j | .asleep j => if j = id then 1 else 0
  | _ => 0

def Phase.inCall (id : SemId) : Phase → Nat
  | .falling j | .asleep j | .woken j | .leaving j => if j = id then 1 else 0
  | _ => 0

def Phase.inWakeup (id : SemId) : Phase → Nat
  | .waking j _ => if j = id then 1 else 0
  | _ => 0

def blocked (s : State) (id : SemId) : Nat := tally (blockedOn id) s.phase

def released (s : State) (id : SemId) : Nat :=
  s.completed id + tally (inWakeup id) s.phase

variable {id : SemId} {ph : Phase}

theorem weights_of_unused (h : ph.uses id = false) :
    ph.blockedOn id = 0 ∧ ph.inCall id = 0 ∧ ph.inWakeup id = 0 := by
  cases ph <;> simp_all [uses, blockedOn, inCall, inWakeup]

structure IdInv (s : State) (id : SemId) : Prop where
  unused : (s.sems id).allocated = false →
    (s.sems id).lock = none ∧ ∀ p, (s.phase p).uses id = false
  lock : tally (inWakeup id) s.phase = if (s.sems id).lock.isSome then 1 else 0
  account : (s.sems id).allocated = true →
    (s.sems id).resourceCount + s.returned id + tally (inCall id) s.phase =
      s.created id + released s id
  free : (s.sems id).allocated = true → (s.sems id).lock = none →
    (blocked s id : Int) = max 0 (-(s.sems id).resourceCount)
  waking : ∀ p i, s.phase p = .waking id i → i ≤ NPROC ∧ (s.sems id).resourceCount = 0 ∧
    blocked s id ≤ 1 ∧ ∀ r, (s.phase r).blockedOn id ≠ 0 → i ≤ r.val

def Inv (s : State) : Prop := ∀ id, IdInv s id

theorem initsem_inv : Inv initsem := by
  intro id
  refine ⟨fun _ => ⟨rfl, fun _ => rfl⟩, ?_, ?_, ?_, ?_⟩
  · simp [initsem, tally, inWakeup]
  · intro h
    simp [initsem] at h
  · intro h
    simp [initsem] at h
  · intro p i h
    simp [initsem] at h

variable {s s' : State}

theorem IdInv.congr (h : IdInv s id) (hphase : s'.phase = s.phase)
    (hsem : s'.sems id = s.sems id) (hcreated : s'.created id = s.created id)
    (hreturned : s'.returned id = s.returned id) (hcompleted : s'.completed id = s.completed id) :
    IdInv s' id := by
  obtain ⟨hu, hl, ha, hf, hw⟩ := h
  refine ⟨?_, ?_, ?_, ?_, ?_⟩
  · rwa [hphase, hsem]
  · rwa [hphase, hsem]
  · rwa [released, hphase, hsem, hcreated, hreturned, hcompleted]
  all_goals rwa [blocked, hphase, hsem]

theorem tallies_setPhase (s : State) (id : SemId) (p : Slot) (ph : Phase) :
    blocked (s.setPhase p ph) id + (s.phase p).blockedOn id = blocked s id + ph.blockedOn id ∧
    tally (inCall id) (s.setPhase p ph).phase + (s.phase p).inCall id =
      tally (inCall id) s.phase + ph.inCall id ∧
    tally (inWakeup id) (s.setPhase p ph).phase + (s.phase p).inWakeup id =
      tally (inWakeup id) s.phase + ph.inWakeup id :=
  ⟨tally_update _ _ _ _, tally_update _ _ _ _, tally_update _ _ _ _⟩

theorem setPhase_phase (s : State) (p : Slot) (ph : Phase) (r : Slot) :
    (s.setPhase p ph).phase r = if r = p then ph else s.phase r := by
  by_cases hr : r = p <;> simp [setPhase, hr]

variable {p : Slot}

theorem IdInv.setPhase (h : IdInv s id)
    (hb : (s.phase p).blockedOn id = ph.blockedOn id) (hc : (s.phase p).inCall id = ph.inCall id)
    (hv : (s.phase p).inWakeup id = ph.inWakeup id) (hnot : ∀ i, ph ≠ .waking id i)
    (huse : (s.sems id).allocated = false → ph.uses id = false) :
    IdInv (s.setPhase p ph) id := by
  obtain ⟨tb, tc, tv⟩ := tallies_setPhase s id p ph
  have eb : blocked (s.setPhase p ph) id = blocked s id := by omega
  have ec : tally (inCall id) (s.setPhase p ph).phase = tally (inCall id) s.phase := by
    omega
  have ev : tally (inWakeup id) (s.setPhase p ph).phase =
      tally (inWakeup id) s.phase := by omega
  refine ⟨?_, ev.trans h.lock, ?_, ?_, ?_⟩
  · intro ha
    refine ⟨(h.unused ha).1, ?_⟩
    intro r
    rw [setPhase_phase]
    split
    · exact huse ha
    · exact (h.unused ha).2 r
  · intro ha
    rw [released, ec, ev]
    exact h.account ha
  · intro ha hl
    rw [eb]
    exact h.free ha hl
  · intro r i hr
    rw [setPhase_phase] at hr
    split at hr
    · exact absurd hr (hnot i)
    obtain ⟨hi, hcount, hone, hleft⟩ := h.waking r i hr
    refine ⟨hi, hcount, by rw [eb]; exact hone, ?_⟩
    intro x hx
    apply hleft x
    rw [setPhase_phase] at hx
    split at hx
    · rename_i hxp
      rwa [hxp, hb]
    · exact hx

theorem IdInv.setPhase_unused (h : IdInv s id)
    (hold : (s.phase p).uses id = false) (hnew : ph.uses id = false) :
    IdInv (s.setPhase p ph) id := by
  obtain ⟨ob, oc, ow⟩ := weights_of_unused hold
  obtain ⟨nb, nc, nw⟩ := weights_of_unused hnew
  apply h.setPhase (ob.trans nb.symm) (oc.trans nc.symm) (ow.trans nw.symm)
  · intro i e
    subst e
    simp [uses] at hnew
  · exact fun _ => hnew

theorem IdInv.no_waking (h : IdInv s id) (hl : (s.sems id).lock = none)
    (p : Slot) (i : Nat) : s.phase p ≠ .waking id i := by
  intro e
  have hlock := h.lock
  simp only [hl, isSome_none, Bool.false_eq_true, if_false] at hlock
  have := tally_eq_zero.mp hlock p
  simp [e, inWakeup] at this

theorem IdInv.allocated_of_uses (h : IdInv s id)
    (hp : (s.phase p).uses id = true) : (s.sems id).allocated = true := by
  by_contra hn
  rw [(h.unused (Bool.eq_false_iff.mpr hn)).2 p] at hp
  exact Bool.noConfusion hp

/-! ## The calls keep the invariant -/

theorem semCreate_inv {n : Int} (h : Inv s) (hk : semCreate s id n = some s') : Inv s' := by
  unfold semCreate at hk
  split at hk
  · simp at hk
  split at hk
  · simp at hk
  rename_i hn hfree
  cases hk
  have hfalse : (s.sems id).allocated = false := by
    simp only [not_or, Bool.not_eq_true] at hfree
    exact hfree.2
  have hunused := (h id).unused hfalse
  intro j
  obtain rfl | hj := eq_or_ne j id
  · have hzero := fun p => weights_of_unused (hunused.2 p)
    have hb : tally (blockedOn j) s.phase = 0 := tally_eq_zero.mpr fun p => (hzero p).1
    have hc : tally (inCall j) s.phase = 0 := tally_eq_zero.mpr fun p => (hzero p).2.1
    have hv : tally (inWakeup j) s.phase = 0 := tally_eq_zero.mpr fun p => (hzero p).2.2
    refine ⟨?_, ?_, ?_, ?_, ?_⟩
    · simp
    · simp [hv]
    · simp [released, hc, hv]
    · intro _ _
      simp only [setSem, blocked, hb, update_self]
      omega
    · intro p i hp
      have := (hzero p).2.2
      simp only [setSem] at hp
      simp [hp, inWakeup] at this
  · exact (h j).congr rfl (by simp [hj]) (by simp [hj]) (by simp [hj]) (by simp [hj])

theorem semFree_inv (h : Inv s)
    (hunused : ∀ p, (s.phase p).uses id = false) (hk : semFree s id = some s') : Inv s' := by
  unfold semFree at hk
  split at hk
  · simp at hk
  split at hk
  · rename_i hlock _
    cases hk
    intro j
    obtain rfl | hj := eq_or_ne j id
    · have hv : tally (inWakeup j) s.phase = 0 :=
        tally_eq_zero.mpr fun p => (weights_of_unused (hunused p)).2.2
      refine ⟨fun _ => ⟨by simp, hunused⟩, ?_, ?_, ?_, ?_⟩
      · simp [hv]
      · simp
      · simp
      · intro p i hp
        have := hunused p
        simp only [setSem] at hp
        simp [hp, uses] at this
    · exact (h j).congr rfl (by simp [hj]) rfl rfl rfl
  · cases hk
    exact h

theorem IdInv.setSem_other {j : SemId} (h : IdInv s j) (hj : j ≠ id) (m : Sem) :
    IdInv (s.setSem id m) j :=
  h.congr rfl (by simp [hj]) rfl rfl rfl

theorem uses_ne {j : SemId} (hj : j ≠ id) (h : ph.uses id = true) :
    ph.uses j = false := by
  cases ph <;> simp_all [uses, Ne.symm hj]

theorem blocked_le (s : State) (id : SemId) : blocked s id ≤ NPROC := by
  rw [← Fintype.card_fin NPROC]
  apply tally_le_card
  intro ph
  cases ph <;> simp only [blockedOn] <;> (try split) <;> decide

theorem semPTake_inv (h : Inv s) (hfits : (s.sems id).resourceCount ≤ INT_MAX)
    (hp : s.phase p = .entering id) (hk : semPTake s p id = some s') : Inv s' := by
  have hal : (s.sems id).allocated = true :=
    (h id).allocated_of_uses (by rw [hp]; simp [uses])
  unfold semPTake at hk
  simp only at hk
  split at hk
  · simp at hk
  rename_i hguard
  have hlock : (s.sems id).lock = none := not_isSome_iff_eq_none.mp hguard
  -- at most `NPROC` processes are blocked, so the count does not wrap downwards
  have hwrap : wrap32 ((s.sems id).resourceCount - 1) = (s.sems id).resourceCount - 1 := by
    have hwaiters := (h id).free hal hlock
    have hle := blocked_le s id
    simp only [INT_MAX, NPROC] at hfits hle
    exact wrap32_eq (by omega)
  rw [hwrap] at hk
  generalize hs1 :
    s.setSem id { s.sems id with resourceCount := (s.sems id).resourceCount - 1 } = s1
    at hk
  have hcount : (s1.sems id) = ⟨none, (s.sems id).resourceCount - 1, true⟩ := by
    simp [← hs1, hlock, hal]
  have hphase : s1.phase = s.phase := by simp [← hs1]
  have hhist : s1.created = s.created ∧ s1.returned = s.returned ∧ s1.completed = s.completed := by
    simp [← hs1]
  have hfree := (h id).free hal hlock
  have haccount := (h id).account hal
  have hwake := (h id).lock
  -- both branches add one call that has taken its decrement
  have hmain : ∀ ph : Phase, ph.uses id = true → ph.inCall id = 1 → ph.inWakeup id = 0 →
      (∀ i, ph ≠ .waking id i) →
      ((blocked s id + ph.blockedOn id : Nat) : Int) = max 0 (-((s.sems id).resourceCount - 1)) →
      Inv (s1.setPhase p ph) := by
    intro ph huse hcall hnw hnot hblocked j
    obtain rfl | hj := eq_or_ne j id
    · obtain ⟨tb, tc, tv⟩ := tallies_setPhase s1 j p ph
      have hold : (s.phase p).blockedOn j = 0 ∧ (s.phase p).inCall j = 0 ∧
          (s.phase p).inWakeup j = 0 := by
        rw [hp]
        exact ⟨rfl, rfl, rfl⟩
      rw [hphase, hold.1, add_zero] at tb
      rw [hphase, hold.2.1, add_zero, hcall] at tc
      rw [hphase, hold.2.2, add_zero, hnw, add_zero] at tv
      have eb : blocked s1 j = blocked s j := by simp [blocked, hphase]
      have hsem : (s1.setPhase p ph).sems j = ⟨none, (s.sems j).resourceCount - 1, true⟩ := hcount
      refine ⟨?_, ?_, ?_, ?_, ?_⟩
      · simp [hsem]
      · rw [hsem, tv, hwake, hlock]
      · intro _
        have hret : (s1.setPhase p ph).returned j = s.returned j := by
          simp [setPhase, hhist]
        have hcre : (s1.setPhase p ph).created j = s.created j := by simp [setPhase, hhist]
        have hcom : (s1.setPhase p ph).completed j = s.completed j := by
          simp [setPhase, hhist]
        rw [released, tv, tc, hsem, hret, hcre, hcom]
        rw [released] at haccount
        push_cast at haccount ⊢
        omega
      · intro _ _
        rw [hsem, tb, eb]
        exact hblocked
      · intro r i hr
        rw [setPhase_phase] at hr
        split at hr
        · exact absurd hr (hnot i)
        · rw [hphase] at hr
          exact absurd hr ((h j).no_waking hlock r i)
    · have h1 : IdInv s1 j := by
        rw [← hs1]
        exact (h j).setSem_other hj _
      apply h1.setPhase_unused
      · rw [hphase, hp]
        exact uses_ne hj (by simp [uses])
      · exact uses_ne hj huse
  split at hk
  · cases hk
    apply hmain <;> simp [uses, inCall, inWakeup, blockedOn]
    omega
  cases hk
  apply hmain <;> simp [uses, inCall, inWakeup, blockedOn]
  omega

theorem semPReturn_inv (h : Inv s)
    (hp : s.phase p = .woken id ∨ s.phase p = .leaving id) : Inv (semPReturn s p id) := by
  have hw : (s.phase p).uses id = true ∧ (s.phase p).blockedOn id = 0 ∧ (s.phase p).inCall id = 1 ∧
      (s.phase p).inWakeup id = 0 := by
    rcases hp with hp | hp <;>
      simp [hp, uses, blockedOn, inCall, inWakeup]
  obtain ⟨huse, wb, wc, wv⟩ := hw
  intro j
  obtain rfl | hj := eq_or_ne j id
  · obtain ⟨tb, tc, tv⟩ := tallies_setPhase s j p .outside
    have nw : blockedOn j .outside = 0 ∧ inCall j .outside = 0 ∧
        inWakeup j .outside = 0 := ⟨rfl, rfl, rfl⟩
    rw [wb, nw.1] at tb
    rw [wc, nw.2.1] at tc
    rw [wv, nw.2.2] at tv
    have hal := (h j).allocated_of_uses huse
    refine ⟨?_, tv.trans (h j).lock, ?_, ?_, ?_⟩
    · intro ha
      simp only [semPReturn, setPhase] at ha
      simp [hal] at ha
    · intro _
      have haccount := (h j).account hal
      have hrel : released (semPReturn s p j) j = released s j := congrArg (s.completed j + ·) tv
      have hret : (semPReturn s p j).returned j = s.returned j + 1 := by simp [semPReturn]
      rw [hrel, hret]
      simp only [semPReturn]
      change (s.sems j).resourceCount + ((s.returned j + 1 : Nat) : Int) +
        (tally (inCall j) (s.setPhase p .outside).phase : Int) = s.created j + _
      push_cast
      omega
    · intro ha hl
      have heq : blocked (semPReturn s p j) j = blocked s j := tb
      rw [heq]
      exact (h j).free ha hl
    · intro r i hr
      have heq : blocked (semPReturn s p j) j = blocked s j := tb
      simp only [semPReturn] at hr
      rw [setPhase_phase] at hr
      split at hr
      · simp at hr
      obtain ⟨hi, hcount, hone, hleft⟩ := (h j).waking r i hr
      refine ⟨hi, hcount, by rw [heq]; exact hone, ?_⟩
      intro x hx
      simp only [semPReturn] at hx
      rw [setPhase_phase] at hx
      split at hx
      · simp [blockedOn] at hx
      · exact hleft x hx
  · have h1 : IdInv (s.setPhase p .outside) j := (h j).setPhase_unused (uses_ne hj huse) rfl
    exact h1.congr rfl rfl rfl (by simp [semPReturn, setPhase, hj]) rfl

theorem semVTake_inv (h : Inv s)
    (hp : s.phase p = .outside) (hal : (s.sems id).allocated = true) (hone : blocked s id ≤ 1)
    (hmax : (s.sems id).resourceCount < INT_MAX) (hk : semVTake s p id = some s') : Inv s' := by
  unfold semVTake at hk
  simp only at hk
  split at hk
  · simp at hk
  rename_i hguard
  have hlock : (s.sems id).lock = none := not_isSome_iff_eq_none.mp hguard
  have hfree := (h id).free hal hlock
  have hwrap : wrap32 ((s.sems id).resourceCount + 1) = (s.sems id).resourceCount + 1 := by
    simp only [INT_MAX] at hmax
    exact wrap32_eq (by omega)
  rw [hwrap] at hk
  have haccount := (h id).account hal
  have hwake : tally (inWakeup id) s.phase = 0 := by simpa [hlock] using (h id).lock
  split at hk
  · rename_i hneg
    cases hk
    intro j
    obtain rfl | hj := eq_or_ne j id
    · generalize hs1 : s.setSem j { s.sems j with
        lock := some p, resourceCount := (s.sems j).resourceCount + 1 } = s1
      have hsem : (s1.setPhase p (.waking j 0)).sems j =
          ⟨some p, (s.sems j).resourceCount + 1, true⟩ := by
        simp [← hs1, setPhase, hal]
      have hphase : s1.phase = s.phase := by simp [← hs1]
      obtain ⟨tb, tc, tv⟩ := tallies_setPhase s1 j p (.waking j 0)
      have hw : (s1.phase p).blockedOn j = 0 ∧ (s1.phase p).inCall j = 0 ∧
          (s1.phase p).inWakeup j = 0 := by
        rw [hphase, hp]
        exact ⟨rfl, rfl, rfl⟩
      have hn : blockedOn j (.waking j 0) = 0 ∧ inCall j (.waking j 0) = 0 ∧
          inWakeup j (.waking j 0) = 1 := by
        simp [blockedOn, inCall, inWakeup]
      have eb : blocked s1 j = blocked s j := by simp [blocked, hphase]
      rw [hw.1, hn.1, eb] at tb
      rw [hw.2.1, hn.2.1, hphase] at tc
      rw [hw.2.2, hn.2.2, hphase, hwake] at tv
      refine ⟨?_, ?_, ?_, ?_, ?_⟩
      · simp [hsem]
      · rw [hsem]
        exact tv
      · intro _
        have hhist : (s1.setPhase p (.waking j 0)).returned j = s.returned j ∧
            (s1.setPhase p (.waking j 0)).created j = s.created j ∧
            (s1.setPhase p (.waking j 0)).completed j = s.completed j := by
          simp [← hs1, setPhase]
        rw [released, hsem, hhist.1, hhist.2.1, hhist.2.2]
        rw [released, hwake] at haccount
        push_cast at haccount ⊢
        omega
      · simp [hsem]
      · intro r i hr
        rw [setPhase_phase] at hr
        split at hr
        · cases hr
          rw [hsem]
          refine ⟨zero_le, ?_, by omega, fun _ _ => zero_le⟩
          simp only
          omega
        · rw [hphase] at hr
          exact absurd hr ((h j).no_waking hlock r i)
    · apply ((h j).setSem_other hj _).setPhase_unused
      · change (s.phase p).uses j = false
        rw [hp]
        rfl
      · simp [uses, Ne.symm hj]
  · rename_i hpos
    cases hk
    intro j
    obtain rfl | hj := eq_or_ne j id
    · refine ⟨?_, ?_, ?_, ?_, ?_⟩
      · simp [hal]
      · simpa [hlock] using hwake
      · intro _
        simp only [setSem, update_self, released, hwake] at haccount ⊢
        push_cast
        omega
      · intro _ _
        simp only [setSem, update_self, blocked] at hfree ⊢
        omega
      · intro r i hr
        exact absurd hr ((h j).no_waking hlock r i)
    · exact (h j).congr rfl (by simp [hj]) rfl rfl (by simp [hj])

theorem IdInv.locked_of_waking (h : IdInv s id) {i : Nat}
    (hp : s.phase p = .waking id i) : (s.sems id).lock ≠ none :=
  fun hl => h.no_waking hl p i hp

variable {q : Slot}

theorem IdInv.wake (h : IdInv s id)
    (hlock : (s.sems id).lock ≠ none) (hq : s.phase q = .asleep id) :
    IdInv (s.setPhase q (.woken id)) id := by
  obtain ⟨tb, tc, tv⟩ := tallies_setPhase s id q (.woken id)
  simp only [hq, blockedOn, inCall, inWakeup, if_true, add_zero,
    Nat.add_right_cancel_iff] at tb tc tv
  have hal := h.allocated_of_uses (p := q) (by rw [hq]; simp [uses])
  refine ⟨?_, tv.trans h.lock, ?_, ?_, ?_⟩
  · intro ha
    change (s.sems id).allocated = false at ha
    simp [hal] at ha
  · intro _
    rw [released, tv, tc]
    exact h.account hal
  · intro _ hl
    exact absurd hl hlock
  · intro r i hr
    rw [setPhase_phase] at hr
    split at hr
    · simp at hr
    obtain ⟨hi, hcount, hone, hleft⟩ := h.waking r i hr
    refine ⟨hi, hcount, by omega, ?_⟩
    intro x hx
    rw [setPhase_phase] at hx
    split at hx
    · simp [blockedOn] at hx
    · exact hleft x hx

theorem IdInv.advance (h : IdInv s id)
    (hp : s.phase p = .waking id q.val) (hq : (s.phase q).blockedOn id = 0) :
    IdInv (s.setPhase p (.waking id (q + 1))) id := by
  obtain ⟨tb, tc, tv⟩ := tallies_setPhase s id p (.waking id (q + 1))
  simp only [hp, blockedOn, inCall, inWakeup, add_zero,
    Nat.add_right_cancel_iff] at tb tc tv
  have hal := h.allocated_of_uses (p := p) (by rw [hp]; simp [uses])
  refine ⟨?_, tv.trans h.lock, ?_, ?_, ?_⟩
  · intro ha
    change (s.sems id).allocated = false at ha
    simp [hal] at ha
  · intro _
    rw [released, tv, tc]
    exact h.account hal
  · intro ha hl
    exact absurd hl (h.locked_of_waking hp)
  · intro r i hr
    obtain ⟨hi, hcount, hone, hleft⟩ := h.waking p q hp
    -- the holder of the semaphore's lock is the only process in `wakeup`
    have hrp : r = p := by
      rw [setPhase_phase] at hr
      split at hr
      · assumption
      have hsec := h.lock
      have hle : tally (inWakeup id) s.phase ≤ 1 := by
        rw [hsec]
        split <;> omega
      apply eq_of_tally_le_one hle
      · simp [hr, inWakeup]
      · simp [hp, inWakeup]
    subst hrp
    rw [setPhase_phase, if_pos rfl] at hr
    cases hr
    refine ⟨q.isLt, hcount, by omega, ?_⟩
    intro x hx
    rw [setPhase_phase] at hx
    split at hx
    · simp [blockedOn] at hx
    have hxq : x ≠ q := fun e => hx (e ▸ hq)
    have hle := hleft x hx
    have hval : x.val ≠ q.val := fun e => hxq (Fin.ext e)
    omega

theorem wakeup_inv (h : Inv s)
    (hp : s.phase p = .waking id q.val) (hk : wakeup s p id q = some s') : Inv s' := by
  unfold wakeup at hk
  split at hk
  · simp at hk
  rename_i hfree
  cases hk
  intro j
  split
  · rename_i hq
    have hne : p ≠ q := by
      intro e
      rw [e, hq] at hp
      cases hp
    have hp' : (s.setPhase q (.woken id)).phase p = .waking id q.val := by
      rw [setPhase_phase, if_neg hne, hp]
    obtain rfl | hj := eq_or_ne j id
    · apply ((h j).wake ((h j).locked_of_waking hp) hq).advance hp'
      rw [setPhase_phase, if_pos rfl]
      rfl
    have hunused : IdInv (s.setPhase q (.woken id)) j := by
      apply (h j).setPhase_unused
      · rw [hq]
        simp [uses, Ne.symm hj]
      · simp [uses, Ne.symm hj]
    apply hunused.setPhase_unused
    · rw [hp']
      simp [uses, Ne.symm hj]
    · simp [uses, Ne.symm hj]
  · rename_i hq
    obtain rfl | hj := eq_or_ne j id
    · apply (h j).advance hp
      cases hph : s.phase q with
      | falling k => simp [hph, locked] at hfree
      | asleep k =>
        have hkj : k ≠ j := fun e => hq (by rw [hph, e])
        simp [blockedOn, hkj]
      | outside | entering k | woken k | leaving k | waking k i => rfl
    · apply (h j).setPhase_unused
      · rw [hp]
        simp [uses, Ne.symm hj]
      · simp [uses, Ne.symm hj]

theorem semVReturn_inv {i : Nat} (h : Inv s)
    (hp : s.phase p = .waking id i) (hi : NPROC ≤ i) : Inv (semVReturn s p id) := by
  intro j
  obtain rfl | hj := eq_or_ne j id
  · obtain ⟨_, hcount, _, hleft⟩ := (h j).waking p i hp
    have hal := (h j).allocated_of_uses (p := p) (by rw [hp]; simp [uses])
    -- the loop has passed every slot
    have hnone : blocked s j = 0 := by
      apply tally_eq_zero.mpr
      intro r
      by_contra hr
      have := hleft r hr
      have := r.isLt
      omega
    obtain ⟨tb, tc, tv⟩ := tallies_setPhase s j p .outside
    simp only [hp, blockedOn, inCall, inWakeup, if_true, add_zero] at tb tc tv
    have hsome : (s.sems j).lock.isSome = true :=
      isSome_iff_ne_none.mpr ((h j).locked_of_waking hp)
    have hlock := (h j).lock
    rw [if_pos hsome] at hlock
    have hv : tally (inWakeup j) (s.setPhase p .outside).phase = 0 := by omega
    have hsem : (semVReturn s p j).sems j = { s.sems j with lock := none } := by
      simp [semVReturn, setPhase]
    refine ⟨?_, ?_, ?_, ?_, ?_⟩
    · simp [hsem, hal]
    · rw [hsem]
      exact hv
    · intro _
      have haccount := (h j).account hal
      have hrel : released (semVReturn s p j) j = s.completed j + 1 := by
        have hdone : (semVReturn s p j).completed j = s.completed j + 1 := by simp [semVReturn]
        rw [released, hdone]
        exact congrArg (s.completed j + 1 + ·) hv
      have hcall : tally (inCall j) (semVReturn s p j).phase =
          tally (inCall j) s.phase := tc
      rw [hrel, hcall, hsem]
      rw [released, hlock] at haccount
      exact haccount
    · intro _ _
      have hb : blocked (semVReturn s p j) j = 0 := tb.trans hnone
      rw [hb, hsem]
      simp [hcount]
    · intro r k hr
      have hr' : (s.setPhase p .outside).phase r = .waking j k := hr
      have hzero := tally_eq_zero.mp hv r
      simp [hr', inWakeup] at hzero
  · have h1 : IdInv ((s.setSem id { s.sems id with lock := none }).setPhase p .outside) j := by
      apply ((h j).setSem_other hj _).setPhase_unused
      · change (s.phase p).uses j = false
        rw [hp]
        simp [uses, Ne.symm hj]
      · rfl
    exact h1.congr rfl rfl rfl rfl (by simp [semVReturn, setPhase, hj])

theorem kill_eq (hp : ∀ id, s.phase p ≠ .asleep id) :
    kill s p = if (s.phase p).locked then none else some s := by
  unfold kill
  cases hph : s.phase p with
  | asleep id => exact absurd hph (hp id)
  | _ => rfl

/-- Calls on created semaphores, none of which is freed during a call on it. -/
def Proper (s : State) : Op → Prop
  | .free id => ∀ p, (s.phase p).uses id = false
  | .semP _ id | .semV _ id => (s.sems id).allocated = true
  | _ => True

def SingleWakeup (s : State) : Op → Prop
  | .semV _ id => blocked s id ≤ 1 ∧ (s.sems id).resourceCount < INT_MAX
  | .kill p => ∀ id, s.phase p ≠ .asleep id
  | _ => True

instance (s : State) (op : Op) : Decidable (Proper s op) := by
  cases op <;> dsimp only [Proper] <;> infer_instance

instance (s : State) (op : Op) : Decidable (SingleWakeup s op) := by
  cases op <;> dsimp only [SingleWakeup] <;> infer_instance

def Fits (s : State) : Prop := ∀ id, (s.sems id).resourceCount ≤ INT_MAX

theorem Fits.setSem (h : Fits s) {m : Sem} (hm : m.resourceCount ≤ INT_MAX) :
    Fits (s.setSem id m) := by
  intro j
  obtain rfl | hj := eq_or_ne j id
  · simpa using hm
  · simpa [hj] using h j

theorem step_fits {o : Op} (h : Fits s) (hk : step s o = some s') : Fits s' := by
  cases o with
  | create id n =>
    simp only [step, semCreate] at hk
    split at hk
    · cases hk
    obtain ⟨-, ⟨⟩⟩ := ite_none_left_eq_some.mp hk
    exact h.setSem (by simp only; omega)
  | free id =>
    simp only [step, semFree] at hk
    split at hk
    · cases hk
    split at hk <;> cases hk
    · exact h.setSem (by decide)
    · exact h
  | semP p id =>
    obtain ⟨-, ⟨⟩⟩ := ite_none_right_eq_some.mp hk
    exact h
  | semV p id =>
    replace hk := of_guard hk
    unfold semVTake at hk
    simp only at hk
    split at hk
    · cases hk
    split at hk <;> cases hk <;> exact h.setSem (wrap32_le _)
  | «continue» p =>
    simp only [step] at hk
    cases hp : s.phase p with
    | outside | asleep id => simp [hp] at hk
    | entering id =>
      simp only [hp, semPTake] at hk
      split at hk
      · cases hk
      split at hk <;> cases hk <;> exact h.setSem (wrap32_le _)
    | falling id | woken id | leaving id =>
      rw [hp] at hk
      cases hk
      exact h
    | waking id i =>
      simp only [hp] at hk
      split at hk
      · obtain ⟨-, ⟨⟩⟩ := ite_none_left_eq_some.mp hk
        split <;> exact h
      · cases hk
        exact h.setSem (h id)
  | kill p =>
    simp only [step, kill] at hk
    split at hk
    · cases hk
    split at hk <;> cases hk <;> exact h

theorem step_inv {o : Op} (h : Inv s) (hfits : Fits s) (hproper : Proper s o)
    (hsingle : SingleWakeup s o) (hk : step s o = some s') : Inv s' := by
  cases o with
  | create id n => exact semCreate_inv h hk
  | free id => exact semFree_inv h hproper hk
  | semP p id =>
    simp only [step] at hk
    obtain ⟨hp, ⟨⟩⟩ := ite_none_right_eq_some.mp hk
    intro j
    apply (h j).setPhase (by rw [hp]; rfl) (by rw [hp]; rfl) (by rw [hp]; rfl)
      (fun i e => Phase.noConfusion e)
    intro hfree
    have hne : id ≠ j := by
      intro e
      subst e
      simp [Proper, hfree] at hproper
    simp [uses, hne]
  | semV p id =>
    simp only [step] at hk
    split at hk
    · exact semVTake_inv h ‹_› hproper hsingle.1 hsingle.2 hk
    · simp at hk
  | «continue» p =>
    simp only [step] at hk
    cases hp : s.phase p with
    | outside | asleep id => simp [hp] at hk
    | entering id =>
      rw [hp] at hk
      exact semPTake_inv h (hfits id) hp hk
    | falling id =>
      rw [hp] at hk
      cases hk
      intro j
      apply (h j).setPhase (by rw [hp]; rfl) (by rw [hp]; rfl) (by rw [hp]; rfl)
        (fun i e => Phase.noConfusion e)
      intro hfree
      have huse := ((h j).unused hfree).2 p
      rw [hp] at huse
      exact huse
    | woken id =>
      rw [hp] at hk
      cases hk
      exact semPReturn_inv h (.inl hp)
    | leaving id =>
      rw [hp] at hk
      cases hk
      exact semPReturn_inv h (.inr hp)
    | waking id i =>
      rw [hp] at hk
      simp only at hk
      split at hk
      · rename_i hi
        exact wakeup_inv (q := ⟨i, hi⟩) h hp hk
      · cases hk
        exact semVReturn_inv h hp (Nat.le_of_not_lt ‹_›)
  | kill p =>
    simp only [step, kill_eq hsingle] at hk
    split at hk
    · simp at hk
    · cases hk
      exact h

/-! ## The semaphore -/

structure Counting (s : State) (id : SemId) : Prop where
  /-- Between the critical sections the count tells how many processes wait. -/
  waiters : (s.sems id).lock = none →
    (blocked s id : Int) = max 0 (-(s.sems id).resourceCount)
  holders : (s.sems id).lock = none →
    (s.returned id : Int) - s.completed id ≤ s.created id
  /-- In the middle of a `sem_v` too, once its increment is counted. -/
  exclusion : (s.returned id : Int) - released s id ≤ s.created id

theorem IdInv.counting (h : IdInv s id)
    (hal : (s.sems id).allocated = true) : Counting s id := by
  have haccount := h.account hal
  have hex : (s.returned id : Int) - released s id ≤ s.created id := by
    cases hl : (s.sems id).lock with
    | none =>
      have hfree := h.free hal hl
      have hle : blocked s id ≤ tally (inCall id) s.phase := by
        apply tally_mono
        intro ph
        cases ph <;> simp [blockedOn, inCall]
      omega
    | some p =>
      have hlock := h.lock
      rw [hl, isSome_some, if_pos rfl] at hlock
      obtain ⟨r, hr⟩ := exists_of_tally_ne_zero (f := s.phase) (w := inWakeup id) (by omega)
      cases hph : s.phase r with
      | waking k i =>
        have hk : k = id := by
          by_contra hne
          simp [hph, inWakeup, hne] at hr
        subst hk
        have hcount := (h.waking r i hph).2.1
        omega
      | _ => simp [hph, inWakeup] at hr
  refine ⟨h.free hal, ?_, hex⟩
  intro hl
  have hlock := h.lock
  rw [hl, isSome_none] at hlock
  rw [released, hlock] at hex
  simpa using hex

/-- In every run in which each `sem_v` finds at most one process blocked and a count below
`INT_MAX`, and no process is killed in its sleep, a created semaphore counts. -/
theorem semaphore_counts (os : List Op) (s : State) (hrun : run step initsem os = some s)
    (hproper : Along step Proper initsem os)
    (hsingle : Along step SingleWakeup initsem os) (id : SemId)
    (hal : (s.sems id).allocated = true) : Counting s id := by
  have hinv : Inv s ∧ Fits s := by
    apply along_invariant (I := fun t => Inv t ∧ Fits t) _ os initsem s
      ⟨initsem_inv, fun _ => (by decide : (0 : Int) ≤ INT_MAX)⟩
      (along_and os initsem hproper hsingle) hrun
    rintro t o t' ⟨ht, hfits⟩ hgood hk
    exact ⟨step_inv ht hfits hgood.1 hgood.2 hk, step_fits hfits hk⟩
  exact (hinv.1 id).counting hal

def handover : List Op :=
  [.create 0 1, .semP 0 0, .continue 0, .continue 0, .semP 1 0, .continue 1, .continue 1,
    .semV 0 0] ++ List.replicate (NPROC + 1) (.continue 0) ++ [.continue 1]

theorem semaphore_counts_handover :
    ∃ s, run step initsem handover = some s ∧ Counting s 0 := by
  obtain ⟨s, hrun, hal⟩ := run_test step initsem handover
    (fun s => (s.sems 0).allocated = true) (by decide +kernel)
  exact ⟨s, hrun, semaphore_counts handover s hrun (by decide +kernel) (by decide +kernel) 0 hal⟩

def stampede : List Op :=
  [.create 0 1, .semP 0 0, .continue 0, .continue 0, .semP 1 0, .continue 1, .continue 1,
    .semP 2 0, .continue 2, .continue 2, .semV 0 0] ++
    List.replicate (NPROC + 1) (.continue 0) ++ [.continue 1, .continue 2]

theorem semaphore_stampede : Along step Proper initsem stampede ∧
    ∃ s, run step initsem stampede = some s ∧ (s.sems 0).allocated = true ∧
      (s.sems 0).lock = none ∧ s.created 0 = 1 ∧
      (blocked s 0 : Int) ≠ max 0 (-(s.sems 0).resourceCount) ∧
      ¬ (s.returned 0 : Int) - s.completed 0 ≤ s.created 0 := by
  refine ⟨by decide +kernel, ?_⟩
  exact run_test step initsem stampede (fun s => (s.sems 0).allocated = true ∧
    (s.sems 0).lock = none ∧ s.created 0 = 1 ∧
    (blocked s 0 : Int) ≠ max 0 (-(s.sems 0).resourceCount) ∧
    ¬ (s.returned 0 : Int) - s.completed 0 ≤ s.created 0) (by decide +kernel)

end BirdOS.Semaphore
