import BirdOS.Lib.Tally
import BirdOS.Proc.SchedO1

/-! # The scheduler on several CPUs (`proc.c`)

`scheduler`, `sched`, `yield`, `sleep`, `wakeup`, `wakeup1`, `kill`, `fork`, `exit`, `wait`,
`setPriority` and `sched_tick` at the granularity of locks: a step of a CPU is what it does
between two operations on the locks of processes or on `runq_lock`.  A section under
`runq_lock` contains no other lock operation and is one step.

Interrupts are off while a spinlock is held, so the sections that hold the lock of a
process on behalf of `wakeup`, `kill` and `setPriority` start where no such lock is held,
also between the turns of a loop over the process table: such a loop is a sequence of
sections, and other steps of the CPU may come between them. -/

namespace BirdOS.Sched

open SchedO1 Tally Function Machine Finset

abbrev CpuId := Fin NCPU

inductive PState where
  | unused
  | sleeping
  | runnable
  | running
  | zombie
  deriving DecidableEq

inductive Chan where
  | proc (p : Slot)
  | addr (a : Nat)
  deriving DecidableEq

/-- `forkret`, or after `sched` in `yield`, in `sleep` with another lock, with the lock of the
process, or of `wait`. -/
inductive Resume where
  | forkret
  | yield
  | sleep
  | self
  | wait
  deriving DecidableEq

inductive Caller where
  | fork
  | wait
  deriving DecidableEq

/-- `switching` is the way from a change of the state to the scheduler; at `self` the process
holds its own lock. -/
inductive Pc where
  | sched
  | picked (p : Slot)
  | putback (p : Slot)
  | resumed
  | kernel
  | self
  | switching
  | exitParent (pp : Slot)
  | exitBoth (pp : Slot)
  | exitWoken (pp : Slot)
  | waitScan (i : Nat) (havekids : Bool)
  | waitChild (i : Nat) (np : Slot)
  | forkNew (np : Slot)
  | forkQueued (np : Slot)
  | free (np : Slot) (caller : Caller)
  | freed (np : Slot) (caller : Caller)
  deriving DecidableEq

/-- `prio` has still to go through `runq_lock`. -/
inductive Sect where
  | none
  | target (q : Slot)
  | prio (q : Slot)
  deriving DecidableEq

/-- `pending` was made RUNNABLE and is not yet on the run queue. -/
structure Cpu where
  proc : Option Slot
  pc : Pc
  sect : Sect
  pending : Option Slot

structure State where
  rq : Runq
  state : Slot → PState
  chan : Slot → Option Chan
  parent : Slot → Option Slot
  pid : Slot → Nat
  killed : Slot → Bool
  resume : Slot → Resume
  lock : Slot → Option CpuId
  nextpid : Nat
  cpus : CpuId → Cpu

open State

def initproc : Slot := 0

/-! ## Steps -/

inductive SchedAct where
  | pick
  | dispatch
  | putback

inductive SwitchAct where
  | resume
  | swtch
  | yield
  | sleep (ch : Chan)
  | lockSelf
  | unlockSelf
  | sleepSelf (ch : Chan)

inductive ExitAct where
  | lockParent (pp : Slot)
  | lockSelf
  | reparent (q : Slot)
  | wakeParent
  | zombie

inductive WaitAct where
  | start
  | next
  | copyoutFails

inductive ForkAct where
  | allocproc (np : Slot)
  | kallocFails
  | copyFails
  | child
  | done
  | freeRunq
  | freeDone

inductive SectAct where
  | wakeup (q : Slot) (ch : Chan)
  | wakeup1
  | kill (q : Slot) (pid : Nat)
  | setPriority (q : Slot) (priority : Int)
  | tick
  | tickCpu

inductive Act where
  | scheduler (a : SchedAct)
  | switch (a : SwitchAct)
  | exit (a : ExitAct)
  | wait (a : WaitAct)
  | fork (a : ForkAct)
  | sect (a : SectAct)
  | enqueue
  | reposition
  | unlock

def Pc.lockFree : Pc → Bool
  | .sched | .picked _ | .putback _ | .kernel => true
  | _ => false

def Cpu.settled (k : Cpu) : Bool := k.sect = .none && k.pending = none

section Updates
variable (s : State) (c : CpuId)

def State.setCpu (k : Cpu) : State := { s with cpus := update s.cpus c k }

def State.goto (pc : Pc) : State := s.setCpu c { s.cpus c with pc := pc }

def State.setState (p : Slot) (x : PState) : State :=
  { s with state := update s.state p x }

def State.acquire (p : Slot) : State := { s with lock := update s.lock p (some c) }

def State.release (p : Slot) : State := { s with lock := update s.lock p none }

def State.makeRunnable (p : Slot) : State :=
  (s.setState p .runnable).setCpu c { s.cpus c with pending := some p }

end Updates

def clearProc (s : State) (p : Slot) : State :=
  { s with
    pid := update s.pid p 0
    parent := update s.parent p none
    chan := update s.chan p none
    killed := update s.killed p false }

def reposition (q : Runq) (p : Slot) : Runq :=
  if q.onRunq p then runqEnqueue (runqRemove q p) p
  else { q with dynPriority := update q.dynPriority p (runqDyn q p) }

def schedulerStep (s : State) (c : CpuId) (act : SchedAct) : Option State :=
  match act, (s.cpus c).pc with
  | .pick, .sched =>
    match runqPick s.rq with
    | none => none
    | some (rq, none) => some { s with rq := rq }
    | some (rq, some p) => some ({ s with rq := rq }.goto c (.picked p))
  | .dispatch, .picked p =>
    if s.lock p = none then
      if s.state p ≠ .runnable then some (s.goto c (.putback p))
      else
        let s := (s.acquire c p).setState p .running
        let s := { s with rq := { s.rq with waitTime := update s.rq.waitTime p 0 } }
        some (s.setCpu c { s.cpus c with proc := some p, pc := .resumed })
    else none
  | .putback, .putback p =>
    some ({ s with rq := if s.rq.onRunq p then s.rq else runqEnqueue s.rq p }.goto c .sched)
  | _, _ => none

def switchStep (s : State) (c : CpuId) (p : Slot) (act : SwitchAct) : Option State :=
  match act, (s.cpus c).pc with
  | .resume, .resumed =>
    match s.resume p with
    | .forkret | .yield => some ((s.release p).goto c .kernel)
    | .sleep =>
      some (({ s with chan := update s.chan p none }.release p).goto c .kernel)
    | .self => some ({ s with chan := update s.chan p none }.goto c .self)
    | .wait => some ({ s with chan := update s.chan p none }.goto c (.waitScan 0 false))
  | .swtch, .switching =>
    some ((s.release p).setCpu c { s.cpus c with proc := none, pc := .sched })
  | .yield, .kernel =>
    if s.lock p = none then
      let s := { s with resume := update s.resume p .yield }
      some (((s.acquire c p).makeRunnable c p).goto c .switching)
    else none
  | .sleep ch, .kernel =>
    if s.lock p = none then
      let s := { s with
        chan := update s.chan p (some ch)
        resume := update s.resume p .sleep }
      some (((s.acquire c p).setState p .sleeping).goto c .switching)
    else none
  | .lockSelf, .kernel => if s.lock p = none then some ((s.acquire c p).goto c .self) else none
  | .unlockSelf, .self => some ((s.release p).goto c .kernel)
  | .sleepSelf ch, .self =>
    let s := { s with
      chan := update s.chan p (some ch)
      resume := update s.resume p .self }
    some ((s.setState p .sleeping).goto c .switching)
  | _, _ => none

/-- The parent that it locks was read earlier and may no longer be the parent. -/
def exitStep (s : State) (c : CpuId) (p : Slot) (act : ExitAct) : Option State :=
  match act, (s.cpus c).pc with
  | .lockParent pp, .kernel =>
    if p ≠ initproc ∧ s.lock pp = none then some ((s.acquire c pp).goto c (.exitParent pp))
    else none
  | .lockSelf, .exitParent pp =>
    if s.lock p = none then some ((s.acquire c p).goto c (.exitBoth pp)) else none
  | .reparent q, .exitBoth _ =>
    if s.parent q = some p ∧ s.lock q = none then
      some { s with parent := update s.parent q (some initproc) }
    else none
  | .wakeParent, .exitBoth pp =>
    if s.chan pp = some (.proc pp) ∧ s.state pp = .sleeping then
      some ((s.makeRunnable c pp).goto c (.exitWoken pp))
    else some (s.goto c (.exitWoken pp))
  | .zombie, .exitWoken pp =>
    some (((s.setState p .zombie).release pp).goto c .switching)
  | _, _ => none

def waitStep (s : State) (c : CpuId) (p : Slot) (act : WaitAct) : Option State :=
  match act, (s.cpus c).pc with
  | .start, .kernel =>
    if s.lock p = none then some ((s.acquire c p).goto c (.waitScan 0 false)) else none
  | .next, .waitScan i havekids =>
    if h : i < NPROC then
      if s.parent ⟨i, h⟩ = some p then
        if s.lock ⟨i, h⟩ = none then
          some ((s.acquire c ⟨i, h⟩).goto c (.waitChild i ⟨i, h⟩))
        else none
      else some (s.goto c (.waitScan (i + 1) havekids))
    else if havekids = false ∨ s.killed p then some (s.goto c .self)
    else
      let s := { s with
        chan := update s.chan p (some (.proc p))
        resume := update s.resume p .wait }
      some ((s.setState p .sleeping).goto c .switching)
  | .next, .waitChild i np =>
    if s.state np = .zombie then some ((clearProc s np).goto c (.free np .wait))
    else some ((s.release np).goto c (.waitScan (i + 1) true))
  | .copyoutFails, .waitChild _ np =>
    if s.state np = .zombie then some ((s.release np).goto c .self) else none
  | _, _ => none

def forkStep (s : State) (c : CpuId) (p : Slot) (act : ForkAct) : Option State :=
  match act, (s.cpus c).pc with
  | .allocproc np, .kernel =>
    if s.lock np = none then
      if s.state np = .unused then
        let s := { s with
          rq := allocFields s.rq np
          pid := update s.pid np s.nextpid
          nextpid := s.nextpid + 1 }
        some ((s.acquire c np).goto c (.forkNew np))
      else some s
    else none
  | .kallocFails, .forkNew np => some ((s.release np).goto c .kernel)
  | .copyFails, .forkNew np => some ((clearProc s np).goto c (.free np .fork))
  | .child, .forkNew np =>
    let s := { s with
      parent := update s.parent np (some p)
      resume := update s.resume np .forkret }
    some ((s.makeRunnable c np).goto c (.forkQueued np))
  | .done, .forkQueued np => some ((s.release np).goto c .kernel)
  | .freeRunq, .free np caller =>
    some ({ s with rq := runqRemove s.rq np }.goto c (.freed np caller))
  | .freeDone, .freed np caller =>
    some (((s.setState np .unused).release np).goto c
      (match caller with | .fork => .kernel | .wait => .self))
  | _, _ => none

def sectStep (s : State) (c : CpuId) (act : SectAct) : Option State :=
  let k := s.cpus c
  let locked (q : Slot) := (s.acquire c q).setCpu c { k with sect := .target q }
  match act with
  | .wakeup q ch =>
    if s.lock q = none then
      if s.state q = .sleeping ∧ s.chan q = some ch then some ((locked q).makeRunnable c q)
      else some (locked q)
    else none
  | .wakeup1 =>
    if k.pc = .kernel ∧ s.lock initproc = none then
      if s.chan initproc = some (.proc initproc) ∧ s.state initproc = .sleeping then
        some ((locked initproc).makeRunnable c initproc)
      else some (locked initproc)
    else none
  | .kill q pid =>
    if k.pc = .kernel ∧ s.lock q = none then
      if s.pid q = pid then
        let t := { locked q with killed := update s.killed q true }
        if s.state q = .sleeping then some (t.makeRunnable c q) else some t
      else some (locked q)
    else none
  | .setPriority q priority =>
    if k.pc = .kernel ∧ s.lock q = none then
      let s := { s with rq :=
        { s.rq with priority := update s.rq.priority q (wrap32 priority) } }
      some ((s.acquire c q).setCpu c { k with sect := .prio q })
    else none
  | .tick => if c = 0 then (tickQueue s.rq).map fun rq => { s with rq := rq } else none
  | .tickCpu =>
    match k.proc with
    | some r => if c = 0 ∧ s.lock r = none then some
        { s with rq := SchedO1.tickCpu s.rq r } else none
    | none => none

def procStep (s : State) (c : CpuId) (act : Slot → Option State) : Option State :=
  match (s.cpus c).settled, (s.cpus c).proc with
  | true, some p => act p
  | _, _ => none

def step (s : State) (l : CpuId × Act) : Option State :=
  let c := l.1
  let k := s.cpus c
  match l.2 with
  | .scheduler a => if k.settled ∧ k.proc = none then schedulerStep s c a else none
  | .switch a => procStep s c fun p => switchStep s c p a
  | .exit a => procStep s c fun p => exitStep s c p a
  | .wait a => procStep s c fun p => waitStep s c p a
  | .fork a => procStep s c fun p => forkStep s c p a
  | .sect a => if k.settled ∧ k.pc.lockFree then sectStep s c a else none
  | .enqueue =>
    match k.pending with
    | some q => some ({ s with rq := runqEnqueue s.rq q }.setCpu c { k with pending := none })
    | none => none
  | .reposition =>
    match k.sect with
    | .prio q => some ({ s with rq := reposition s.rq q }.setCpu c { k with sect := .target q })
    | _ => none
  | .unlock =>
    match k.pending, k.sect with
    | none, .target q => some ((s.release q).setCpu c { k with sect := .none })
    | _, _ => none

def boot : State where
  rq := runqEnqueue (allocFields SchedO1.boot initproc) initproc
  state := update (fun _ => .unused) initproc .runnable
  chan := fun _ => none
  parent := fun _ => none
  pid := update (fun _ => 0) initproc 1
  killed := fun _ => false
  resume := fun _ => .forkret
  lock := fun _ => none
  nextpid := 2
  cpus := fun _ => ⟨none, .sched, .none, none⟩

/-! ## The invariant -/

def Pc.idle : Pc → Bool
  | .sched | .picked _ | .putback _ => true
  | _ => false

def Pc.running : Pc → Bool
  | .sched | .picked _ | .putback _ | .switching => false
  | _ => true

def Pc.own : Pc → Bool
  | .resumed | .self | .switching | .exitBoth _ | .exitWoken _ | .waitScan _ _ | .waitChild _ _
  | .free _ .wait | .freed _ .wait => true
  | _ => false

def Pc.other : Pc → Option Slot
  | .exitParent q | .exitBoth q | .exitWoken q | .waitChild _ q | .forkNew q | .forkQueued q
  | .free q _ | .freed q _ => some q
  | _ => none

def Pc.embryo : Pc → Option Slot
  | .forkNew q | .free q _ | .freed q _ => some q
  | _ => none

def Sect.slot : Sect → Option Slot
  | .none => Option.none
  | .target q | .prio q => some q

def Cpu.holds (k : Cpu) (q : Slot) : Prop :=
  (k.pc.own = true ∧ k.proc = some q) ∨ k.pc.other = some q ∨ k.sect.slot = some q

def tok (p : Slot) (k : Cpu) : Nat :=
  (if k.pc = .picked p then 1 else 0) + if k.pending = some p then 1 else 0

def run (p : Slot) (k : Cpu) : Nat := if k.pc.running = true ∧ k.proc = some p then 1 else 0

/-- What it says of the states of processes it says of those whose lock the CPU holds. -/
structure Cpu.Local (k : Cpu) (state : Slot → PState) : Prop where
  idle : k.pc.idle = true ↔ k.proc = none
  no_putback : ∀ p, k.pc ≠ .putback p
  sect : k.sect ≠ .none → k.pc.lockFree = true
  distinct : k.pc.own = true → ∀ p, k.proc = some p → k.pc.other ≠ some p
  switching : k.pc = .switching → ∀ p, k.proc = some p → state p ≠ .running
  embryo : ∀ q, k.pc.embryo = some q → state q ≠ .runnable ∧ state q ≠ .running
  pending : ∀ q, k.pending = some q → k.holds q

structure Inv (s : State) : Prop where
  rq : ∃ B, RqInv s.rq B
  queue : ∀ p, (if s.rq.onRunq p then 1 else 0) + tally (tok p) s.cpus =
    if s.state p = .runnable then 1 else 0
  running : ∀ p, tally (run p) s.cpus = if s.state p = .running then 1 else 0
  locks : ∀ c q, s.lock q = some c ↔ (s.cpus c).holds q
  loc : ∀ c, (s.cpus c).Local s.state

def LockMove (s : State) (c : CpuId) (k' : Cpu) (lock : Slot → Option CpuId) : Prop :=
  ∀ q, (lock q = some c ↔ k'.holds q) ∧ ∀ c', c' ≠ c → (lock q = some c' ↔ s.lock q = some c')

variable {state : Slot → PState}

section Rules
variable {s s' : State} {c : CpuId} {k k' : Cpu} {p q : Slot}

theorem lockMove_same (h : Inv s) (hk : s.cpus c = k) (hh : ∀ x, k'.holds x ↔ k.holds x) :
    LockMove s c k' s.lock := by
  intro x
  refine ⟨?_, fun _ _ => Iff.rfl⟩
  rw [h.locks, hk, hh]

theorem lockMove_acquire (h : Inv s) (hk : s.cpus c = k) (hq : s.lock q = none)
    (hh : ∀ x, k'.holds x ↔ k.holds x ∨ x = q) : LockMove s c k' (update s.lock q (some c)) := by
  intro x
  obtain rfl | hx := eq_or_ne x q
  · rw [update_self, hq]
    refine ⟨by simp [hh], ?_⟩
    intro c' hc
    simp [Ne.symm hc]
  rw [update_of_ne hx]
  refine ⟨?_, fun _ _ => Iff.rfl⟩
  rw [h.locks, hk, hh]
  simp [hx]

theorem lockMove_release (h : Inv s) (hk : s.cpus c = k) (hq : k.holds q)
    (hh : ∀ x, k'.holds x ↔ k.holds x ∧ x ≠ q) : LockMove s c k' (update s.lock q none) := by
  intro x
  obtain rfl | hx := eq_or_ne x q
  · have hlock : s.lock x = some c := (h.locks c x).mpr (by rw [hk]; exact hq)
    rw [update_self, hlock]
    refine ⟨by simp [hh], ?_⟩
    intro c' hc
    simp [Ne.symm hc]
  rw [update_of_ne hx]
  refine ⟨?_, fun _ _ => Iff.rfl⟩
  rw [h.locks, hk, hh]
  simp [hx]

theorem Cpu.Local.congr (h : k.Local s.state)
    (hst : ∀ q, k.holds q → state q = s.state q) : k.Local state where
  idle := h.idle
  no_putback := h.no_putback
  sect := h.sect
  distinct := h.distinct
  switching := by
    intro hpc p hp
    rw [hst p (.inl ⟨by rw [hpc]; rfl, hp⟩)]
    exact h.switching hpc p hp
  embryo := by
    intro q hq
    have hother : k.pc.other = some q := by
      cases hpc : k.pc <;> simp_all [Pc.embryo, Pc.other]
    rw [hst q (.inr (.inl hother))]
    exact h.embryo q hq
  pending := h.pending

section
variable (h : Inv s)
include h

section
variable (hk : s.cpus c = k)
include hk

theorem Inv.move (hcpus : s'.cpus = update s.cpus c k')
    (hrq : ∃ B, RqInv s'.rq B) (hqueue : ∀ p, (if s'.rq.onRunq p then 1 else 0) + tok p k' +
        (if s.state p = .runnable then 1 else 0) =
      (if s.rq.onRunq p then 1 else 0) + tok p k + if s'.state p = .runnable then 1 else 0)
    (hrunning : ∀ p, run p k' + (if s.state p = .running then 1 else 0) =
      run p k + if s'.state p = .running then 1 else 0) (hlock : LockMove s c k' s'.lock)
    (hstate : ∀ q c', c' ≠ c → s.lock q = some c' → s'.state q = s.state q)
    (hloc : k'.Local s'.state) : Inv s' := by
  refine ⟨hrq, ?_, ?_, ?_, ?_⟩
  · intro p
    have hupd := tally_update (tok p) s.cpus c k'
    rw [hk] at hupd
    have := h.queue p
    have := hqueue p
    rw [hcpus]
    omega
  · intro p
    have hupd := tally_update (run p) s.cpus c k'
    rw [hk] at hupd
    have := h.running p
    have := hrunning p
    rw [hcpus]
    omega
  · intro c' x
    rw [hcpus]
    by_cases hc : c' = c
    · subst hc
      rw [update_self]
      exact (hlock x).1
    · rw [update_of_ne hc, (hlock x).2 c' hc]
      exact h.locks c' x
  · intro c'
    rw [hcpus]
    by_cases hc : c' = c
    · subst hc
      rw [update_self]
      exact hloc
    rw [update_of_ne hc]
    apply (h.loc c').congr
    intro x hx
    exact hstate x c' hc ((h.locks c' x).mpr hx)

theorem Inv.requeue (k' : Cpu)
    (hcpus : s'.cpus = update s.cpus c k') (hrq : ∃ B, RqInv s'.rq B) (hst : s'.state = s.state)
    (htok : ∀ p, (if s'.rq.onRunq p then 1 else 0) + tok p k' =
      (if s.rq.onRunq p then 1 else 0) + tok p k) (hrun : ∀ p, run p k' = run p k)
    (hlock : LockMove s c k' s'.lock) (hloc : k'.Local s.state) : Inv s' := by
  apply h.move hk hcpus hrq
  · intro p
    rw [hst, htok]
  · intro p
    rw [hst, hrun]
  · exact hlock
  · intro q c' _ _
    rw [hst]
  · rw [hst]
    exact hloc

theorem Inv.quiet (k' : Cpu) (hcpus : s'.cpus = update s.cpus c k') (hrq : ∃ B, RqInv s'.rq B)
    (hon : s'.rq.onRunq = s.rq.onRunq) (hst : s'.state = s.state)
    (htok : ∀ p, tok p k' = tok p k) (hrun : ∀ p, run p k' = run p k)
    (hlock : LockMove s c k' s'.lock) (hloc : k'.Local s.state) : Inv s' := by
  apply h.requeue hk k' hcpus hrq hst _ hrun hlock hloc
  intro p
  rw [hon, htok]

theorem Inv.change (k' : Cpu) (hcpus : s'.cpus = update s.cpus c k') (hrq : ∃ B, RqInv s'.rq B)
    (hon : s'.rq.onRunq = s.rq.onRunq) (q : Slot) {x : PState}
    (hst : s'.state = update s.state q x) (hown : ∀ c', c' ≠ c → s.lock q ≠ some c')
    (htok : ∀ p, p ≠ q → tok p k' = tok p k) (hrun : ∀ p, p ≠ q → run p k' = run p k)
    (hqtok : tok q k' + (if s.state q = .runnable then 1 else 0) =
      tok q k + if x = .runnable then 1 else 0)
    (hqrun : run q k' + (if s.state q = .running then 1 else 0) =
      run q k + if x = .running then 1 else 0)
    (hlock : LockMove s c k' s'.lock) (hloc : k'.Local s'.state) : Inv s' := by
  apply h.move hk hcpus hrq
  · intro p
    rw [hon, hst]
    obtain rfl | hp := eq_or_ne p q
    · rw [update_self]
      omega
    · rw [update_of_ne hp, htok p hp]
  · intro p
    rw [hst]
    obtain rfl | hp := eq_or_ne p q
    · rw [update_self]
      exact hqrun
    · rw [update_of_ne hp, hrun p hp]
  · exact hlock
  · intro r c' hc hr
    rw [hst, update_of_ne]
    intro hrq
    exact hown c' hc (hrq ▸ hr)
  · exact hloc

theorem Inv.state_running (hrun : k.pc.running = true)
    (hp : k.proc = some p) : s.state p = .running := by
  have hle := le_tally (run p) s.cpus c
  rw [hk, h.running p] at hle
  by_contra hne
  simp [run, hrun, hp, hne] at hle

theorem Inv.state_runnable (htok : tok p k ≠ 0) :
    s.state p = .runnable ∧ s.rq.onRunq p = false := by
  have hle := le_tally (tok p) s.cpus c
  have hq := h.queue p
  rw [hk] at hle
  by_cases hst : s.state p = .runnable
  · refine ⟨hst, ?_⟩
    by_contra hon
    rw [Bool.not_eq_false] at hon
    simp only [hst, hon, if_true] at hq
    omega
  · simp only [hst, if_false] at hq
    omega

end

theorem Inv.not_queued (hst : s.state p ≠ .runnable) : s.rq.onRunq p = false := by
  have hq := h.queue p
  simp only [hst, if_false] at hq
  by_contra hon
  rw [Bool.not_eq_false] at hon
  simp [hon] at hq

end

theorem not_owned_of_free (hq : s.lock q = none) : ∀ c', c' ≠ c → s.lock q ≠ some c' := by
  intro c' _ he
  rw [hq] at he
  simp at he

theorem Inv.not_owned_of_holds (h : Inv s) (hk : s.cpus c = k) (hq : k.holds q) :
    ∀ c', c' ≠ c → s.lock q ≠ some c' := by
  intro c' hc he
  have hlock : s.lock q = some c := (h.locks c q).mpr (by rw [hk]; exact hq)
  rw [hlock] at he
  exact hc (Option.some.inj he).symm

def Cpu.at (p : Slot) (pc : Pc) : Cpu := ⟨some p, pc, .none, none⟩

theorem local_at {pc : Pc} (hidle : pc.idle = false) (hdistinct : pc.own = true → pc.other ≠ some p)
    (hswitching : pc = .switching → state p ≠ .running)
    (hembryo : ∀ q, pc.embryo = some q → state q ≠ .runnable ∧ state q ≠ .running) :
    (Cpu.at p pc).Local state where
  idle := by simp [Cpu.at, hidle]
  no_putback := by
    intro r hr
    have hpc : pc = .putback r := hr
    simp [hpc, Pc.idle] at hidle
  sect := by simp [Cpu.at]
  distinct := by
    intro hown r hr
    cases hr
    exact hdistinct hown
  switching := by
    intro hpc r hr
    cases hr
    exact hswitching hpc
  embryo := hembryo
  pending := by simp [Cpu.at]

theorem holds_at (pc : Pc) (x : Slot) :
    (Cpu.at p pc).holds x ↔ (pc.own = true ∧ x = p) ∨ pc.other = some x := by
  have hcomm : p = x ↔ x = p := eq_comm
  simp [Cpu.holds, Cpu.at, Sect.slot, hcomm]

theorem tok_at {pc : Pc} (hpc : pc.running = true) (x : Slot) : tok x (Cpu.at p pc) = 0 := by
  cases pc <;> simp_all [tok, Cpu.at, Pc.running]

theorem run_at {pc : Pc} (hpc : pc.running = true) (x : Slot) :
    run x (Cpu.at p pc) = if p = x then 1 else 0 := by
  simp [run, Cpu.at, hpc]

theorem idle_of_running {pc : Pc} (hpc : pc.running = true) : pc.idle = false := by
  cases pc <;> simp_all [Pc.running, Pc.idle]

theorem other_of_embryo {pc : Pc} (h : pc.embryo = some q) : pc.other = some q := by
  cases pc <;> simp_all [Pc.embryo, Pc.other]

variable {t : State}

theorem goto_cpus (ht : t.cpus = s.cpus) {pc : Pc} (hk : s.cpus c = .at p pc)
    (pc' : Pc) : (t.goto c pc').cpus = update s.cpus c (.at p pc') := by
  simp [goto, setCpu, ht, hk, Cpu.at]

section LockMoves
variable {pc pc' : Pc}

theorem lockMove_keep (h : Inv s) (hk : s.cpus c = .at p pc) (hown : pc'.own = pc.own)
    (hother : pc'.other = pc.other) : LockMove s c (.at p pc') s.lock := by
  apply lockMove_same h hk
  intro x
  rw [holds_at, holds_at, hown, hother]

theorem lockMove_lockSelf (h : Inv s) (hk : s.cpus c = .at p pc) (hl : s.lock p = none)
    (hold : pc.own = false) (hown : pc'.own = true) (hother : pc'.other = pc.other) :
    LockMove s c (.at p pc') (s.acquire c p).lock := by
  apply lockMove_acquire h hk hl
  intro x
  simp only [holds_at, hold, hown, hother, Bool.false_eq_true, false_and, true_and, false_or]
  exact Or.comm

theorem lockMove_unlockSelf (h : Inv s) (hk : s.cpus c = .at p pc) (hold : pc.own = true)
    (hown : pc'.own = false) (hnone : pc.other = none) (hother : pc'.other = none) :
    LockMove s c (.at p pc') (s.release p).lock := by
  apply lockMove_release h hk ((holds_at pc p).mpr (.inl ⟨hold, rfl⟩))
  intro x
  simp [holds_at, hold, hown, hnone, hother]

theorem lockMove_lockOther (h : Inv s) (hk : s.cpus c = .at p pc) (hl : s.lock q = none)
    (hown : pc'.own = pc.own) (hold : pc.other = none) (hother : pc'.other = some q) :
    LockMove s c (.at p pc') (s.acquire c q).lock := by
  apply lockMove_acquire h hk hl
  intro x
  have hcomm : q = x ↔ x = q := eq_comm
  simp [holds_at, hown, hold, hother, hcomm]

theorem lockMove_unlockOther (h : Inv s) (hk : s.cpus c = .at p pc) (hown : pc'.own = pc.own)
    (hold : pc.other = some q) (hother : pc'.other = none) :
    LockMove s c (.at p pc') (s.release q).lock := by
  apply lockMove_release h hk ((holds_at pc q).mpr (.inr hold))
  intro x
  have hloc := hk ▸ h.loc c
  have hdistinct : pc.own = true → p ≠ q := by
    intro ho hpq
    exact hloc.distinct ho p rfl (hpq ▸ hold)
  simp only [holds_at, hown, hold, hother, reduceCtorEq, or_false, Option.some.injEq]
  constructor
  · intro ⟨ho, hx⟩
    subst hx
    exact ⟨.inl ⟨ho, rfl⟩, hdistinct ho⟩
  · intro ⟨hx, hne⟩
    exact hx.resolve_right fun e => hne e.symm

end LockMoves

theorem Inv.goOn {pc : Pc} (h : Inv s) (hk : s.cpus c = .at p pc)
    (hpc : pc.running = true) (pc' : Pc) (hpc' : pc'.running = true) (hcpus : t.cpus = s.cpus)
    (hrq : ∃ B, RqInv t.rq B) (hon : t.rq.onRunq = s.rq.onRunq) (hst : t.state = s.state)
    (hlock : LockMove s c (.at p pc') t.lock)
    (hother : ∀ q, pc'.other = some q → (pc'.own = true → p ≠ q) ∧
      (pc'.embryo = some q → s.state q ≠ .runnable ∧ s.state q ≠ .running)) :
    Inv (t.goto c pc') := by
  apply h.quiet hk (.at p pc') (goto_cpus hcpus hk pc') hrq hon hst
  · intro x
    rw [tok_at hpc, tok_at hpc']
  · intro x
    rw [run_at hpc, run_at hpc']
  · exact hlock
  apply local_at (idle_of_running hpc')
  · intro hown ho
    exact (hother p ho).1 hown rfl
  · intro he
    rw [he] at hpc'
    simp [Pc.running] at hpc'
  · intro q hq
    exact (hother q (other_of_embryo hq)).2 hq

theorem Inv.goAlone {pc : Pc} (h : Inv s) (hk : s.cpus c = .at p pc)
    (hpc : pc.running = true) (pc' : Pc) (hpc' : pc'.running = true) (hcpus : t.cpus = s.cpus)
    (hrq : ∃ B, RqInv t.rq B) (hon : t.rq.onRunq = s.rq.onRunq) (hst : t.state = s.state)
    (hlock : LockMove s c (.at p pc') t.lock) (hother : pc'.other = none) : Inv (t.goto c pc') := by
  apply h.goOn hk hpc pc' hpc' hcpus hrq hon hst hlock
  intro q hq
  rw [hother] at hq
  simp at hq

theorem Inv.leave {pc : Pc} (h : Inv s) (hk : s.cpus c = .at p pc) (hpc : pc.running = true)
    {x : PState} (hx : x ≠ .running) (pending : Option Slot)
    (hpending : pending = if x = .runnable then some p else none)
    (hcpus : s'.cpus = update s.cpus c ⟨some p, .switching, .none, pending⟩)
    (hrq : s'.rq = s.rq) (hst : s'.state = update s.state p x)
    (hown : ∀ c', c' ≠ c → s.lock p ≠ some c')
    (hlock : LockMove s c (.at p .switching) s'.lock) : Inv s' := by
  have hrunning := h.state_running hk hpc rfl
  apply h.change hk ⟨some p, .switching, .none, pending⟩ hcpus (by rw [hrq]; exact h.rq)
    (by rw [hrq]) p hst hown
  · intro y hy
    rw [tok_at hpc, hpending]
    split <;> simp [tok, hy.symm]
  · intro y hy
    rw [run_at hpc]
    simp [run, Pc.running, hy.symm]
  · rw [tok_at hpc, hpending, hrunning]
    split <;> simp [tok]
  · rw [run_at hpc, hrunning]
    simp [run, Pc.running, hx]
  · exact hlock
  refine ⟨by simp [Pc.idle], by simp, by simp, by simp [Pc.other], ?_, by simp [Pc.embryo], ?_⟩
  · intro _ y hy
    cases hy
    rw [hst, update_self]
    exact hx
  · intro y hy
    have hyp : y = p := by
      have : pending = some y := hy
      rw [hpending] at this
      split at this
      · exact (Option.some.inj this).symm
      · simp at this
    exact .inl ⟨rfl, by rw [hyp]⟩

theorem local_idle {pc : Pc} (hidle : pc.idle = true)
    (hpc : ∀ p, pc ≠ .putback p) : Cpu.Local ⟨none, pc, .none, none⟩ state where
  idle := by simp [hidle]
  no_putback := hpc
  sect := by simp
  distinct := by simp
  switching := by simp
  embryo := by
    intro q hq
    cases pc <;> simp_all [Pc.idle, Pc.embryo]
  pending := by simp

theorem Cpu.Local.setPending (h : k.Local state) (hq : k.holds q) :
    ({ k with pending := some q } : Cpu).Local state where
  idle := h.idle
  no_putback := h.no_putback
  sect := h.sect
  distinct := h.distinct
  switching := h.switching
  embryo := h.embryo
  pending := by
    intro x hx
    cases hx
    exact hq

theorem Inv.wake (h : Inv s) (hk : s.cpus c = k) (k' : Cpu)
    (hcpus : s'.cpus = update s.cpus c k') (hrq : s'.rq = s.rq) (q : Slot)
    (hold : s.state q ≠ .runnable ∧ s.state q ≠ .running)
    (hst : s'.state = update s.state q .runnable)
    (hown : ∀ c', c' ≠ c → s.lock q ≠ some c') (hnone : k.pending = none)
    (hsome : k'.pending = some q) (hpicked : ∀ x, k'.pc = .picked x ↔ k.pc = .picked x)
    (hrun : ∀ x, run x k' = run x k) (hlock : LockMove s c k' s'.lock)
    (hloc : k'.Local s'.state) : Inv s' := by
  apply h.change hk k' hcpus (by rw [hrq]; exact h.rq) (by rw [hrq]) q hst hown
  · intro x hx
    simp [tok, hnone, hsome, hpicked, hx.symm]
  · exact fun x _ => hrun x
  · simp [tok, hnone, hsome, hpicked, hold.1]
  · simp [hrun, hold.2]
  · exact hlock
  · exact hloc

theorem Inv.wakeOther {pc : Pc} (h : Inv s) (hk : s.cpus c = .at p pc)
    (hpc : pc.running = true) (pc' : Pc) (hpc' : pc'.running = true) (hown : pc'.own = pc.own)
    (hother : pc'.other = pc.other) (hembryo : pc'.embryo = none) (hq : pc.other = some q)
    (hold : s.state q ≠ .runnable ∧ s.state q ≠ .running)
    (hcpus : t.cpus = s.cpus) (hrq : t.rq = s.rq) (hst : t.state = s.state)
    (hlock : t.lock = s.lock) : Inv ((t.makeRunnable c q).goto c pc') := by
  have hholds : (Cpu.at p pc').holds q := (holds_at pc' q).mpr (.inr (hother.trans hq))
  have hloc := hk ▸ h.loc c
  refine h.wake hk ⟨some p, pc', .none, some q⟩ ?_ hrq q hold ?_
    (h.not_owned_of_holds hk ((holds_at pc q).mpr (.inr hq))) rfl rfl ?_ ?_ ?_ ?_
  · simp [goto, makeRunnable, setState, setCpu, hcpus, hk, Cpu.at]
  · exact congrArg (fun f => update f q .runnable) hst
  · intro x
    have hidle := idle_of_running hpc
    have hidle' := idle_of_running hpc'
    constructor
    · intro he
      have he : pc' = .picked x := he
      simp [he, Pc.idle] at hidle'
    · intro he
      have he : pc = .picked x := he
      simp [he, Pc.idle] at hidle
  · intro x
    rw [run_at hpc]
    simp [run, hpc']
  · have hkeep : LockMove s c (.at p pc') s.lock := lockMove_keep h hk hown hother
    rw [← hlock] at hkeep
    exact hkeep
  · apply Cpu.Local.setPending (k := .at p pc') _ hholds
    apply local_at (idle_of_running hpc')
    · intro ho he
      rw [hown] at ho
      exact hloc.distinct ho p rfl (hother.symm.trans he)
    · intro he
      rw [he] at hpc'
      simp [Pc.running] at hpc'
    intro x hx
    rw [hembryo] at hx
    simp at hx

end Rules

/-! ## Steps keep the invariant -/

section Steps
variable {s s' : State} {c : CpuId} {p q : Slot} {pc : Pc}

section
variable (h : Inv s)
include h

section
variable (hk : s.cpus c = .at p pc)
include hk

theorem Inv.switchStep {act : SwitchAct} (hs : Sched.switchStep s c p act = some s') : Inv s' := by
  have hpc : (s.cpus c).pc = pc := by rw [hk]; rfl
  unfold Sched.switchStep at hs
  rw [hpc] at hs
  split at hs
  · -- the process comes back from `swtch`
    have hfree : LockMove s c (.at p .kernel) (s.release p).lock :=
      lockMove_unlockSelf h hk rfl rfl rfl rfl
    split at hs
    all_goals cases hs
    · exact h.goAlone hk rfl .kernel rfl rfl h.rq rfl rfl hfree rfl
    · exact h.goAlone hk rfl .kernel rfl rfl h.rq rfl rfl hfree rfl
    · exact h.goAlone hk rfl .kernel rfl rfl h.rq rfl rfl hfree rfl
    · exact h.goAlone hk rfl .self rfl rfl h.rq rfl rfl (lockMove_keep h hk rfl rfl) rfl
    · exact h.goAlone hk rfl (.waitScan 0 false) rfl rfl h.rq rfl rfl
        (lockMove_keep h hk rfl rfl) rfl
  · -- `c->proc = 0` and the release of the lock in `scheduler`
    cases hs
    refine h.quiet hk ⟨none, .sched, .none, none⟩ ?_ h.rq rfl rfl ?_ ?_ ?_
      (local_idle rfl (by simp))
    · simp [setCpu, release, hk, Cpu.at]
    · intro x
      simp [tok, Cpu.at]
    · intro x
      simp [run, Cpu.at, Pc.running]
    · apply lockMove_release h hk (.inl ⟨rfl, rfl⟩)
      intro x
      rw [holds_at]
      simp [Cpu.holds, Pc.own, Pc.other, Sect.slot]
  · obtain ⟨hl, ⟨⟩⟩ := Option.ite_none_right_eq_some.mp hs
    refine h.leave hk rfl (x := .runnable) (by simp) (some p) rfl ?_ rfl rfl
      (not_owned_of_free hl) (lockMove_lockSelf h hk hl rfl rfl rfl)
    simp [goto, makeRunnable, setState, acquire, setCpu, hk, Cpu.at]
  · obtain ⟨hl, ⟨⟩⟩ := Option.ite_none_right_eq_some.mp hs
    exact h.leave hk rfl (x := .sleeping) (by simp) none rfl (goto_cpus rfl hk .switching) rfl rfl
      (not_owned_of_free hl) (lockMove_lockSelf h hk hl rfl rfl rfl)
  · obtain ⟨hl, ⟨⟩⟩ := Option.ite_none_right_eq_some.mp hs
    exact h.goAlone hk rfl .self rfl rfl h.rq rfl rfl (lockMove_lockSelf h hk hl rfl rfl rfl) rfl
  · cases hs
    exact h.goAlone hk rfl .kernel rfl rfl h.rq rfl rfl
      (lockMove_unlockSelf h hk rfl rfl rfl rfl) rfl
  · cases hs
    exact h.leave hk rfl (x := .sleeping) (by simp) none rfl (goto_cpus rfl hk .switching) rfl rfl
      (h.not_owned_of_holds hk (.inl ⟨rfl, rfl⟩)) (lockMove_keep h hk rfl rfl)
  · simp at hs

theorem Inv.exitStep {act : ExitAct} (hs : Sched.exitStep s c p act = some s') : Inv s' := by
  have hpc : (s.cpus c).pc = pc := by rw [hk]; rfl
  unfold Sched.exitStep at hs
  rw [hpc] at hs
  split at hs
  · rename_i pp
    obtain ⟨hg, ⟨⟩⟩ := Option.ite_none_right_eq_some.mp hs
    refine h.goOn hk rfl (.exitParent pp) rfl rfl h.rq rfl rfl
      (lockMove_lockOther h hk hg.2 rfl rfl rfl) ?_
    simp [Pc.own, Pc.embryo]
  · rename_i pp
    obtain ⟨hl, ⟨⟩⟩ := Option.ite_none_right_eq_some.mp hs
    have hpp : s.lock pp = some c :=
      (h.locks c pp).mpr (by rw [hk]; exact .inr (.inl rfl))
    refine h.goOn hk rfl (.exitBoth pp) rfl rfl h.rq rfl rfl
      (lockMove_lockSelf h hk hl rfl rfl rfl) ?_
    intro q hq
    cases hq
    refine ⟨fun _ hpq => ?_, by simp [Pc.embryo]⟩
    rw [hpq, hpp] at hl
    simp at hl
  · split at hs
    · cases hs
      exact { h with }
    · simp at hs
  · rename_i pp
    have hdistinct : p ≠ pp := by
      have hloc := hk ▸ h.loc c
      intro hpp
      exact hloc.distinct rfl p rfl (by rw [hpp]; rfl)
    split at hs
    · rename_i hg
      cases hs
      exact h.wakeOther hk rfl (.exitWoken pp) rfl rfl rfl rfl rfl ⟨by simp [hg.2], by simp [hg.2]⟩
        rfl rfl rfl rfl
    cases hs
    refine h.goOn hk rfl (.exitWoken pp) rfl rfl h.rq rfl rfl (lockMove_keep h hk rfl rfl) ?_
    intro q hq
    cases hq
    exact ⟨fun _ => hdistinct, by simp [Pc.embryo]⟩
  · rename_i pp
    cases hs
    exact h.leave hk rfl (x := .zombie) (by simp) none rfl (goto_cpus rfl hk .switching) rfl rfl
      (h.not_owned_of_holds hk (.inl ⟨rfl, rfl⟩)) (lockMove_unlockOther h hk rfl rfl rfl)
  · simp at hs

theorem Inv.embryo_state (hq : pc.embryo = some q) :
    s.state q ≠ .runnable ∧ s.state q ≠ .running := by
  have hloc := hk ▸ h.loc c
  exact hloc.embryo q hq

theorem Inv.distinct (hown : pc.own = true) (hq : pc.other = some q) : p ≠ q := by
  have hloc := hk ▸ h.loc c
  intro hpq
  exact hloc.distinct hown p rfl (hpq ▸ hq)

theorem Inv.waitStep {act : WaitAct} (hs : Sched.waitStep s c p act = some s') : Inv s' := by
  have hpc : (s.cpus c).pc = pc := by rw [hk]; rfl
  unfold Sched.waitStep at hs
  rw [hpc] at hs
  split at hs
  · obtain ⟨hl, ⟨⟩⟩ := Option.ite_none_right_eq_some.mp hs
    exact h.goAlone hk rfl (.waitScan 0 false) rfl rfl h.rq rfl rfl
      (lockMove_lockSelf h hk hl rfl rfl rfl) rfl
  · rename_i i havekids
    have hmine : s.lock p = some c := (h.locks c p).mpr (by rw [hk]; exact .inl ⟨rfl, rfl⟩)
    split at hs
    · rename_i hi
      split at hs
      · obtain ⟨hl, ⟨⟩⟩ := Option.ite_none_right_eq_some.mp hs
        refine h.goOn hk rfl (.waitChild i ⟨i, hi⟩) rfl rfl h.rq rfl rfl
          (lockMove_lockOther h hk hl rfl rfl rfl) ?_
        intro q hq
        cases hq
        refine ⟨fun _ hpq => ?_, by simp [Pc.embryo]⟩
        rw [← hpq, hmine] at hl
        simp at hl
      · cases hs
        exact h.goAlone hk rfl (.waitScan (i + 1) havekids) rfl rfl h.rq rfl rfl
          (lockMove_keep h hk rfl rfl) rfl
    · split at hs
      · cases hs
        exact h.goAlone hk rfl .self rfl rfl h.rq rfl rfl (lockMove_keep h hk rfl rfl) rfl
      cases hs
      exact h.leave hk rfl (x := .sleeping) (by simp) none rfl (goto_cpus rfl hk .switching)
        rfl rfl (h.not_owned_of_holds hk (.inl ⟨rfl, rfl⟩)) (lockMove_keep h hk rfl rfl)
  · rename_i i np
    split at hs
    · rename_i hz
      cases hs
      refine h.goOn hk rfl (.free np .wait) rfl rfl h.rq rfl rfl (lockMove_keep h hk rfl rfl) ?_
      intro q hq
      cases hq
      exact ⟨fun _ => h.distinct hk rfl rfl, fun _ => ⟨by simp [hz], by simp [hz]⟩⟩
    cases hs
    exact h.goAlone hk rfl (.waitScan (i + 1) true) rfl rfl h.rq rfl rfl
      (lockMove_unlockOther h hk rfl rfl rfl) rfl
  · split at hs
    · cases hs
      exact h.goAlone hk rfl .self rfl rfl h.rq rfl rfl (lockMove_unlockOther h hk rfl rfl rfl) rfl
    · simp at hs
  · simp at hs

theorem Inv.forkStep {act : ForkAct} (hs : Sched.forkStep s c p act = some s') : Inv s' := by
  have hpc : (s.cpus c).pc = pc := by rw [hk]; rfl
  unfold Sched.forkStep at hs
  rw [hpc] at hs
  split at hs
  · rename_i np
    split at hs
    · rename_i hl
      split at hs
      · rename_i hu
        cases hs
        obtain ⟨B, hB⟩ := h.rq
        have hoff : s.rq.onRunq np = false := h.not_queued (by simp [hu])
        refine h.goOn hk rfl (.forkNew np) rfl rfl ⟨B, hB.allocFields hoff⟩ rfl rfl
          (lockMove_lockOther h hk hl rfl rfl rfl) ?_
        intro q hq
        cases hq
        exact ⟨by simp [Pc.own], fun _ => ⟨by simp [hu], by simp [hu]⟩⟩
      · cases hs
        exact h
    · simp at hs
  · cases hs
    exact h.goAlone hk rfl .kernel rfl rfl h.rq rfl rfl (lockMove_unlockOther h hk rfl rfl rfl) rfl
  · rename_i np
    cases hs
    refine h.goOn hk rfl (.free np .fork) rfl rfl h.rq rfl rfl (lockMove_keep h hk rfl rfl) ?_
    intro q hq
    cases hq
    exact ⟨by simp [Pc.own], fun _ => h.embryo_state hk rfl⟩
  · rename_i np
    cases hs
    exact h.wakeOther hk rfl (.forkQueued np) rfl rfl rfl rfl rfl (h.embryo_state hk rfl)
      rfl rfl rfl rfl
  · cases hs
    exact h.goAlone hk rfl .kernel rfl rfl h.rq rfl rfl (lockMove_unlockOther h hk rfl rfl rfl) rfl
  · rename_i np caller
    cases hs
    have hoff : s.rq.onRunq np = false := h.not_queued (h.embryo_state hk rfl).1
    have hsame : runqRemove s.rq np = s.rq := by simp [runqRemove, hoff]
    refine h.goOn hk (by cases caller <;> rfl) (.freed np caller) (by cases caller <;> rfl) rfl
      ?_ ?_ rfl (lockMove_keep h hk (by cases caller <;> rfl) rfl) ?_
    · simp only [hsame]
      exact h.rq
    · simp only [hsame]
    · intro q hq
      cases hq
      refine ⟨fun ho => h.distinct hk ?_ rfl, fun _ => h.embryo_state hk rfl⟩
      cases caller <;> simp_all [Pc.own]
  · rename_i np caller
    cases hs
    have hstate := h.embryo_state hk rfl
    have hrun : (Pc.freed np caller).running = true := rfl
    have hnext : ∀ pc' : Pc, pc'.running = true → pc'.own = (Pc.freed np caller).own →
        pc'.other = none → pc'.embryo = none →
        Inv (((s.setState np .unused).release np).goto c pc') := by
      intro pc' hpc' hown hother hembryo
      refine h.change hk (.at p pc') (goto_cpus rfl hk pc') h.rq rfl np rfl
        (h.not_owned_of_holds hk ((holds_at _ np).mpr (.inr rfl))) ?_ ?_ ?_ ?_
        (lockMove_unlockOther h hk hown rfl hother) ?_
      · intro x _
        rw [tok_at hrun, tok_at hpc']
      · intro x _
        rw [run_at hrun, run_at hpc']
      · rw [tok_at hrun, tok_at hpc']
        simp [hstate.1]
      · rw [run_at hrun, run_at hpc']
        simp [hstate.2]
      · apply local_at (idle_of_running hpc')
        · simp [hother]
        · intro he
          rw [he] at hpc'
          simp [Pc.running] at hpc'
        · simp [hembryo]
    cases caller with
    | fork => exact hnext .kernel rfl rfl rfl rfl
    | wait => exact hnext .self rfl rfl rfl rfl
  · simp at hs

end

theorem Inv.schedulerStep {act : SchedAct} (hk : s.cpus c = ⟨none, pc, .none, none⟩)
    (hs : Sched.schedulerStep s c act = some s') : Inv s' := by
  have hpc : (s.cpus c).pc = pc := by rw [hk]
  obtain ⟨B, hB⟩ := h.rq
  unfold Sched.schedulerStep at hs
  rw [hpc] at hs
  split at hs
  · rcases hB.pick with ⟨hpick, _⟩ | ⟨i, p, rest, hi, _, hBi, hon, hpick⟩
    · rw [hpick] at hs
      cases hs
      exact h
    rw [hpick] at hs
    cases hs
    refine h.requeue hk ⟨none, .picked p, .none, none⟩ ?_ ⟨_, hB.remove hon⟩ rfl ?_
      (fun _ => rfl) (lockMove_same h hk fun _ => Iff.rfl) (local_idle rfl (by simp))
    · simp [goto, setCpu, hk]
    · intro x
      simp only [goto, setCpu, runqRemove_onRunq, tok]
      obtain rfl | hxp := eq_or_ne x p
      · simp [hon]
      · simp [hxp, Ne.symm hxp]
  · rename_i p
    obtain ⟨hrunnable, _⟩ := h.state_runnable (p := p) hk (by simp [tok])
    split at hs
    · rename_i hl
      rw [if_neg (by simp [hrunnable])] at hs
      cases hs
      refine h.change hk (.at p .resumed) ?_ ⟨B, hB.waitTime _⟩ rfl p rfl (not_owned_of_free hl)
        ?_ ?_ ?_ ?_ ?_ (local_at rfl (by simp [Pc.other]) (by simp) (by simp [Pc.embryo]))
      · simp [setCpu, setState, acquire, hk, Cpu.at]
      · intro x hx
        rw [tok_at rfl]
        simp [tok, Ne.symm hx]
      · intro x hx
        rw [run_at rfl]
        simp [run, Pc.running, Ne.symm hx]
      · rw [tok_at rfl]
        simp [tok, hrunnable]
      · rw [run_at rfl]
        simp [run, Pc.running, hrunnable]
      · apply lockMove_acquire h hk hl
        intro x
        rw [holds_at]
        simp [Cpu.holds, Pc.own, Pc.other, Sect.slot]
    · simp at hs
  · rename_i p
    have hloc := hk ▸ h.loc c
    exact absurd rfl (hloc.no_putback p)
  · simp at hs

end

section Sections
variable {k : Cpu} {sect : Sect}

theorem holds_enter (hset : k.sect = .none) (hsect : sect.slot = some q) (pending : Option Slot)
    (x : Slot) : ({ k with sect := sect, pending := pending } : Cpu).holds x ↔ k.holds x ∨
      x = q := by
  have hcomm : q = x ↔ x = q := eq_comm
  have hnone : k.sect.slot = none := by rw [hset]; rfl
  simp only [Cpu.holds, hnone, hsect, reduceCtorEq, or_false, Option.some.injEq, hcomm, or_assoc]

theorem Cpu.Local.enter (h : k.Local state) (hfree : k.pc.lockFree = true)
    (hpending : k.pending = none) : ({ k with sect := sect } : Cpu).Local state where
  idle := h.idle
  no_putback := h.no_putback
  sect := fun _ => hfree
  distinct := h.distinct
  switching := h.switching
  embryo := h.embryo
  pending := by
    intro x hx
    have hx : k.pending = some x := hx
    rw [hpending] at hx
    simp at hx

theorem Inv.enter (h : Inv s) (hk : s.cpus c = k) (hset : k.sect = .none)
    (hpending : k.pending = none)
    (hfree : k.pc.lockFree = true) (hl : s.lock q = none) (sect : Sect) (hsect : sect.slot = some q)
    (hcpus : s'.cpus = update s.cpus c { k with sect := sect })
    (hrq : ∃ B, RqInv s'.rq B) (hon : s'.rq.onRunq = s.rq.onRunq) (hst : s'.state = s.state)
    (hlock : s'.lock = (s.acquire c q).lock) : Inv s' := by
  have hloc := hk ▸ h.loc c
  refine h.quiet hk { k with sect := sect } hcpus hrq hon hst (fun _ => rfl) (fun _ => rfl) ?_
    (hloc.enter hfree hpending)
  rw [hlock]
  exact lockMove_acquire h hk hl fun x => holds_enter hset hsect k.pending x

theorem Inv.enterWake (h : Inv s) (hk : s.cpus c = k) (hset : k.sect = .none)
    (hpending : k.pending = none) (hfree : k.pc.lockFree = true) (hl : s.lock q = none)
    (hsleep : s.state q = .sleeping)
    (hcpus : s'.cpus = update s.cpus c { k with sect := .target q, pending := some q })
    (hrq : s'.rq = s.rq) (hst : s'.state = update s.state q .runnable)
    (hlock : s'.lock = (s.acquire c q).lock) : Inv s' := by
  have hloc := hk ▸ h.loc c
  have hstate : k.Local s'.state := by
    apply hloc.congr
    intro x hx
    rw [hst, update_of_ne]
    intro hxq
    have hmine : s.lock x = some c := (h.locks c x).mpr (by rw [hk]; exact hx)
    rw [hxq, hl] at hmine
    simp at hmine
  have hlocked : ({ k with sect := .target q } : Cpu).Local s'.state := hstate.enter hfree hpending
  refine h.wake hk { k with sect := .target q, pending := some q } hcpus hrq q
    ⟨by simp [hsleep], by simp [hsleep]⟩ hst (not_owned_of_free hl) hpending rfl (fun _ => Iff.rfl)
    (fun _ => rfl) ?_ (hlocked.setPending (.inr (.inr rfl)))
  rw [hlock]
  exact lockMove_acquire h hk hl fun x => holds_enter hset rfl (some q) x

theorem Inv.sectStep {act : SectAct} (h : Inv s) (hset : (s.cpus c).sect = .none)
    (hpending : (s.cpus c).pending = none) (hfree : (s.cpus c).pc.lockFree = true)
    (hs : Sched.sectStep s c act = some s') : Inv s' := by
  have hlocked : ∀ q, s.lock q = none →
      Inv ((s.acquire c q).setCpu c { s.cpus c with sect := .target q }) := by
    intro q hl
    exact h.enter rfl hset hpending hfree hl (.target q) rfl rfl h.rq rfl rfl rfl
  have hwoken : ∀ (t : State) (q : Slot), s.lock q = none → s.state q = .sleeping →
      t.cpus = update s.cpus c { s.cpus c with sect := .target q } → t.rq = s.rq →
      t.state = s.state → t.lock = (s.acquire c q).lock → Inv (t.makeRunnable c q) := by
    intro t q hl hsleep hcpus hrq hst hlock
    refine h.enterWake rfl hset hpending hfree hl hsleep ?_ hrq ?_ hlock
    · simp [makeRunnable, setState, setCpu, hcpus]
    · exact congrArg (fun f => update f q .runnable) hst
  obtain ⟨B, hB⟩ := id h.rq
  unfold Sched.sectStep at hs
  simp only at hs
  split at hs
  · rename_i q ch
    split at hs
    · rename_i hl
      split at hs
      · rename_i hg
        cases hs
        exact hwoken _ q hl hg.1 rfl rfl rfl rfl
      · cases hs
        exact hlocked q hl
    · simp at hs
  · split at hs
    · rename_i hl
      split at hs
      · rename_i hg
        cases hs
        exact hwoken _ initproc hl.2 hg.2 rfl rfl rfl rfl
      · cases hs
        exact hlocked initproc hl.2
    · simp at hs
  · rename_i q pid
    split at hs
    · rename_i hl
      split at hs
      · split at hs
        · rename_i hsleep
          cases hs
          exact hwoken _ q hl.2 hsleep rfl rfl rfl rfl
        cases hs
        have h' := hlocked q hl.2
        exact ⟨h'.rq, h'.queue, h'.running, h'.locks, h'.loc⟩
      · cases hs
        exact hlocked q hl.2
    · simp at hs
  · rename_i q priority
    obtain ⟨hl, ⟨⟩⟩ := Option.ite_none_right_eq_some.mp hs
    exact h.enter rfl hset hpending hfree hl.2 (.prio q) rfl rfl
      ⟨B, hB.seg, hB.dyn, hB.queued, hB.bitmap⟩ rfl rfl rfl
  · split at hs
    · obtain ⟨rq, hrq, rfl⟩ := Option.map_eq_some_iff.mp hs
      obtain ⟨rq', B', hrq', hB', _, hon⟩ := hB.tickQueue
      rw [hrq] at hrq'
      cases hrq'
      refine ⟨⟨B', hB'⟩, ?_, h.running, h.locks, h.loc⟩
      simp only [hon]
      exact h.queue
    · simp at hs
  · split at hs
    · split at hs
      · cases hs
        exact ⟨⟨B, hB.seg, hB.dyn, hB.queued, hB.bitmap⟩, h.queue, h.running, h.locks, h.loc⟩
      · simp at hs
    · simp at hs

end Sections

theorem reposition_onRunq (q : Runq) (p : Slot) : (reposition q p).onRunq = q.onRunq := by
  unfold reposition
  split
  · rename_i hp
    rw [runqEnqueue_onRunq, runqRemove_onRunq, update_idem, ← hp, update_eq_self]
  · rfl

theorem reposition_inv {q : Runq} {B : Nat → List Slot} (h : RqInv q B) (p : Slot) :
    ∃ B', RqInv (reposition q p) B' := by
  unfold reposition
  split
  · rename_i hp
    exact ⟨_, (h.move hp).1⟩
  · rename_i hp
    exact ⟨B, h.setDyn (Bool.eq_false_iff.mpr hp) _⟩

theorem Inv.enqueue {k : Cpu} (h : Inv s) (hk : s.cpus c = k) (hq : k.pending = some q) :
    Inv ({ s with rq := runqEnqueue s.rq q }.setCpu c { k with pending := none }) := by
  obtain ⟨_, hoff⟩ := h.state_runnable (p := q) hk (by simp [tok, hq])
  obtain ⟨B, hB⟩ := h.rq
  have hloc := hk ▸ h.loc c
  refine h.requeue hk { k with pending := none } rfl ⟨_, hB.enqueue hoff⟩ rfl ?_ (fun _ => rfl)
    (lockMove_same h hk fun _ => Iff.rfl)
    { hloc with pending := by simp }
  intro x
  simp only [setCpu, runqEnqueue_onRunq, tok, hq]
  obtain rfl | hx := eq_or_ne x q
  · simp [hoff]
    omega
  · simp [hx, Ne.symm hx]

theorem cpu_eq {k : Cpu} {pr pending : Option Slot} {sect : Sect} (hproc : k.proc = pr)
    (hsect : k.sect = sect) (hpending : k.pending = pending) : k = ⟨pr, k.pc, sect, pending⟩ := by
  subst hproc hsect hpending
  rfl

theorem Inv.repositioned (h : Inv s) (hq : (s.cpus c).sect = .prio q) :
    Inv ({ s with rq := reposition s.rq q }.setCpu c { s.cpus c with sect := .target q }) := by
  obtain ⟨B, hB⟩ := h.rq
  have hloc := h.loc c
  have hholds : ∀ x, ({ s.cpus c with sect := .target q } : Cpu).holds x ↔ (s.cpus c).holds x := by
    intro x
    simp [Cpu.holds, hq, Sect.slot]
  refine h.quiet rfl { s.cpus c with sect := .target q } rfl (reposition_inv hB q)
    (reposition_onRunq s.rq q) rfl (fun _ => rfl) (fun _ => rfl) (lockMove_same h rfl hholds)
    { hloc with
      sect := fun _ => hloc.sect (by simp [hq])
      pending := fun x hx => (hholds x).mpr (hloc.pending x hx) }

theorem Inv.unlock (h : Inv s) (hp : (s.cpus c).pending = none) (hq : (s.cpus c).sect = .target q) :
    Inv ((s.release q).setCpu c { s.cpus c with sect := .none }) := by
  have hloc := h.loc c
  have hfree : (s.cpus c).pc.own = false ∧ (s.cpus c).pc.other = none := by
    have hlf := hloc.sect (by simp [hq])
    cases hpc : (s.cpus c).pc <;> simp_all [Pc.lockFree, Pc.own, Pc.other]
  refine h.quiet rfl { s.cpus c with sect := .none } rfl h.rq rfl rfl (fun _ => rfl) (fun _ => rfl)
    (lockMove_release h rfl (.inr (.inr (by rw [hq]; rfl))) ?_)
    { hloc with sect := by simp, pending := by simp [hp] }
  intro x
  have hcomm : q = x ↔ x = q := eq_comm
  simp [Cpu.holds, hfree.1, hfree.2, hq, Sect.slot, hcomm]

theorem Inv.step (h : Inv s) {l : CpuId × Act} (hs : Sched.step s l = some s') : Inv s' := by
  obtain ⟨c, act⟩ := l
  have hsettled : (s.cpus c).settled = true →
      (s.cpus c).sect = .none ∧ (s.cpus c).pending = none := by
    intro he
    simpa [Cpu.settled] using he
  have hproc : ∀ f : Slot → Option State, procStep s c f = some s' →
      ∃ p, s.cpus c = .at p (s.cpus c).pc ∧ f p = some s' := by
    intro f hf
    unfold procStep at hf
    split at hf
    · rename_i p hset hp
      obtain ⟨h1, h2⟩ := hsettled hset
      exact ⟨p, cpu_eq hp h1 h2, hf⟩
    · simp at hf
  cases act with
  | scheduler a =>
    simp only [Sched.step] at hs
    split at hs
    · rename_i hg
      obtain ⟨h1, h2⟩ := hsettled hg.1
      exact h.schedulerStep (cpu_eq hg.2 h1 h2) hs
    · simp at hs
  | switch a =>
    obtain ⟨p, hk, hf⟩ := hproc _ hs
    exact h.switchStep hk hf
  | exit a =>
    obtain ⟨p, hk, hf⟩ := hproc _ hs
    exact h.exitStep hk hf
  | wait a =>
    obtain ⟨p, hk, hf⟩ := hproc _ hs
    exact h.waitStep hk hf
  | fork a =>
    obtain ⟨p, hk, hf⟩ := hproc _ hs
    exact h.forkStep hk hf
  | sect a =>
    simp only [Sched.step] at hs
    split at hs
    · rename_i hg
      obtain ⟨h1, h2⟩ := hsettled hg.1
      exact h.sectStep h1 h2 hg.2 hs
    · simp at hs
  | enqueue =>
    simp only [Sched.step] at hs
    split at hs
    · rename_i q hq
      cases hs
      exact h.enqueue rfl hq
    · simp at hs
  | reposition =>
    simp only [Sched.step] at hs
    split at hs
    · rename_i q hq
      cases hs
      exact h.repositioned hq
    · simp at hs
  | unlock =>
    simp only [Sched.step] at hs
    split at hs
    · rename_i q hp hq
      cases hs
      exact h.unlock hp hq
    · simp at hs

end Steps

theorem boot_inv : Inv boot := by
  have hoff : (allocFields SchedO1.boot initproc).onRunq initproc = false := rfl
  have hrq := (SchedO1.boot_inv.allocFields (p := initproc) rfl).enqueue hoff
  refine ⟨⟨_, hrq⟩, ?_, ?_, ?_, ?_⟩
  · intro p
    have htok : tally (tok p) boot.cpus = 0 := tally_eq_zero.mpr fun _ => rfl
    rw [htok]
    obtain rfl | hp := eq_or_ne p initproc
    · simp [boot]
    · simp [boot, allocFields, SchedO1.boot, runqInit, hp]
  · intro p
    have hrun : tally (run p) boot.cpus = 0 := tally_eq_zero.mpr fun _ => rfl
    rw [hrun]
    obtain rfl | hp := eq_or_ne p initproc
    · simp [boot]
    · simp [boot, hp]
  · intro c q
    simp [boot, Cpu.holds, Pc.own, Pc.other, Sect.slot]
  · intro c
    exact local_idle rfl (by simp)

theorem reachable_inv {s : State} (h : Reachable step boot s) : Inv s :=
  reachable_invariant (I := Inv) boot_inv (fun _ _ _ hI hs => hI.step hs) h

/-! ## Safety -/

def occurrences (B : Nat → List Slot) (p : Slot) : Nat :=
  ∑ i ∈ range RUNQ_LEN, (B i).count p

def pickers (s : State) (p : Slot) : Finset CpuId :=
  univ.filter fun c => (s.cpus c).pc = .picked p

def enqueuers (s : State) (p : Slot) : Finset CpuId :=
  univ.filter fun c => (s.cpus c).pending = some p

theorem occurrences_eq {q : Runq} {B : Nat → List Slot} (h : RqInv q B) (p : Slot) :
    occurrences B p = if q.onRunq p then 1 else 0 := by
  unfold occurrences
  split
  · rename_i hon
    obtain ⟨hi, hmem⟩ := h.mem_bucket hon
    rw [sum_eq_single (q.dynPriority p)]
    · exact List.count_eq_one_of_mem (h.nodup hi) hmem
    · intro j hj hne
      apply List.count_eq_zero_of_not_mem
      intro hjmem
      exact hne (h.bucket_unique (mem_range.mp hj) hi hjmem hmem)
    · intro hni
      exact absurd (mem_range.mpr hi) hni
  · rename_i hon
    apply sum_eq_zero
    intro i hi
    exact List.count_eq_zero_of_not_mem
      (h.not_mem (Bool.eq_false_iff.mpr hon) (mem_range.mp hi))

theorem tally_tok (s : State) (p : Slot) :
    tally (tok p) s.cpus = (pickers s p).card + (enqueuers s p).card := by
  rw [pickers, enqueuers, ← tally_indicator (fun k : Cpu => k.pc = .picked p) s.cpus,
    ← tally_indicator (fun k : Cpu => k.pending = some p) s.cpus, ← tally_add]
  rfl

structure Safe (s : State) (B : Nat → List Slot) : Prop where
  buckets : RqInv s.rq B
  /-- A RUNNABLE process is in exactly one of three places, and no other process is in one. -/
  placed : ∀ p, occurrences B p + (pickers s p).card + (enqueuers s p).card =
    if s.state p = .runnable then 1 else 0
  enqueuer_holds : ∀ p, ∀ c ∈ enqueuers s p, s.lock p = some c
  running : ∀ p, s.state p = .running → ∃! c, (s.cpus c).proc = some p
  one_cpu : ∀ p c c', (s.cpus c).proc = some p → (s.cpus c').proc = some p → c = c'
  no_putback : ∀ c p, (s.cpus c).pc ≠ .putback p

section Safety
variable {s : State} {c c' : CpuId} {p : Slot}

theorem Inv.proc_place (h : Inv s) (hp : (s.cpus c).proc = some p) :
    run p (s.cpus c) = 1 ∨ (s.lock p = some c ∧ s.state p ≠ .running) := by
  have hloc := h.loc c
  have hidle : (s.cpus c).pc.idle = false := by
    rw [Bool.eq_false_iff, ne_eq, hloc.idle, hp]
    simp
  by_cases hpc : (s.cpus c).pc = .switching
  · right
    exact ⟨(h.locks c p).mpr (.inl ⟨by rw [hpc]; rfl, hp⟩), hloc.switching hpc p hp⟩
  left
  have hrun : (s.cpus c).pc.running = true := by
    cases hk : (s.cpus c).pc <;> simp_all [Pc.idle, Pc.running]
  simp [run, hrun, hp]

theorem Inv.one_cpu (h : Inv s) (hc : (s.cpus c).proc = some p) (hc' : (s.cpus c').proc = some p) :
    c = c' := by
  have hle : tally (run p) s.cpus ≤ 1 := by
    rw [h.running p]
    split <;> omega
  have hstate : ∀ {x}, run p (s.cpus x) = 1 → s.state p = .running := by
    intro x hx
    have hpos := le_tally (run p) s.cpus x
    rw [hx, h.running p] at hpos
    by_contra hne
    simp [hne] at hpos
  rcases h.proc_place hc with hrun | ⟨hlock, hst⟩
  · rcases h.proc_place hc' with hrun' | ⟨_, hst'⟩
    · exact eq_of_tally_le_one hle (by omega) (by omega)
    · exact absurd (hstate hrun) hst'
  rcases h.proc_place hc' with hrun' | ⟨hlock', _⟩
  · exact absurd (hstate hrun') hst
  · rw [hlock] at hlock'
    exact Option.some.inj hlock'

theorem Inv.safe (h : Inv s) : ∃ B, Safe s B := by
  obtain ⟨B, hB⟩ := h.rq
  refine ⟨B, hB, ?_, ?_, ?_, fun _ _ _ => h.one_cpu, fun c => (h.loc c).no_putback⟩
  · intro p
    rw [occurrences_eq hB, add_assoc, ← tally_tok]
    exact h.queue p
  · intro p c hc
    have hpending : (s.cpus c).pending = some p := (mem_filter.mp hc).2
    exact (h.locks c p).mpr ((h.loc c).pending p hpending)
  · intro p hp
    have hone : tally (run p) s.cpus ≠ 0 := by
      rw [h.running p, if_pos hp]
      simp
    obtain ⟨c, hc⟩ := exists_of_tally_ne_zero hone
    have hproc : (s.cpus c).proc = some p := by
      by_contra hne
      simp [run, hne] at hc
    exact ⟨c, hproc, fun c' hc' => h.one_cpu hc' hproc⟩

end Safety

/-- In every state that the CPUs reach together: a queued process is RUNNABLE; a RUNNABLE
process is queued once, or picked by one CPU, or about to be queued by one CPU that holds
its lock, and only one of the three; a RUNNING process is the process of exactly one CPU;
and no CPU puts a picked process back. -/
theorem scheduler_safe (s : State) (h : Reachable step boot s) : ∃ B, Safe s B :=
  (reachable_inv h).safe

def forkTrace : List (CpuId × Act) :=
  [(0, .scheduler .pick), (0, .scheduler .dispatch), (0, .switch .resume),
    (0, .fork (.allocproc 1)), (0, .fork .child), (0, .enqueue), (1, .scheduler .pick)]

theorem scheduler_safe_after_fork : ∃ s, Reachable step boot s ∧
      ((s.state 0 = .running ∧ (s.cpus 1).pc = .picked 1) ∧ s.lock 1 = some 0) ∧
      ∃ B, Safe s B := by
  obtain ⟨s, hrun, hs⟩ := run_test step boot forkTrace
    (fun s => (s.state 0 = .running ∧ (s.cpus 1).pc = .picked 1) ∧ s.lock 1 = some 0)
    (by decide +kernel)
  exact ⟨s, ⟨forkTrace, hrun⟩, hs, scheduler_safe s ⟨forkTrace, hrun⟩⟩

theorem yield_between_runnable_and_enqueue :
    ∃ s, Reachable step boot s ∧ (s.state initproc = .runnable ∧
      s.rq.onRunq initproc = false) ∧ ∀ c, (s.cpus c).pc ≠ .picked initproc := by
  obtain ⟨s, hrun, hs⟩ := run_test step boot
    [(0, .scheduler .pick), (0, .scheduler .dispatch), (0, .switch .resume), (0, .switch .yield)]
    (fun s => (s.state initproc = .runnable ∧ s.rq.onRunq initproc = false) ∧
      ∀ c, (s.cpus c).pc ≠ .picked initproc) (by decide +kernel)
  exact ⟨s, ⟨_, hrun⟩, hs⟩

end BirdOS.Sched
