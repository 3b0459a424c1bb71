import Mathlib.Data.Fintype.Lattice
import BirdOS.Lib.Locks
import BirdOS.Proc.Sem

/-! # The locks of the IPC calls and of the process table

`sem_p`, `sem_v`, `msgsnd`, `msgrcv`, `fork` and `wait` by any processes at once, as they
take `p->lock`, `sems[id].lock` and `mqlock`.  A step is one lock operation of one process
with the code up to its next lock operation.  A process inside a call has a CPU to itself
unless it sleeps: `sched` hands `p->lock` to the scheduler of that CPU, which releases it,
and the scheduler that picks the process up again acquires `p->lock` while it holds no
other lock, so both operations are written as the process's own.

`sleep` and `wakeup` take `p->lock` inside the locks of the semaphores and of the queues;
`sem_p`, `fork` and `wait` take those inside `p->lock`.

Whether a queue has room or a message of the wanted type, whether memory suffices,
whether `copyout` succeeds and whether the caller is killed is up to the label of a step.
`exit` is one step, taken when the locks it needs are free; so are `sem_create` and
`sem_free`, which hold one lock only. -/

namespace BirdOS.IpcLocks

open Function
open Semaphore (SemId)

inductive Lock where
  | proc (p : Slot)
  | sem (id : SemId)
  | mq
  deriving DecidableEq

def Lock.isProc : Lock → Bool
  | .proc _ => true
  | _ => false

def Lock.isIpc (l : Lock) : Bool := !l.isProc

inductive Chan where
  | sem (id : SemId)
  | proc (p : Slot)
  deriving DecidableEq

inductive Status where
  | unused
  /-- RUNNABLE or RUNNING. -/
  | ready
  | sleeping (chan : Chan)
  | zombie
  deriving DecidableEq

inductive Dir where
  | snd
  | rcv
  deriving DecidableEq

inductive Sleeper where
  | semP
  | msg (d : Dir)
  | wait
  deriving DecidableEq

inductive Waker where
  | semV (id : SemId)
  | msg (d : Dir) (left : Nat)
  deriving DecidableEq

inductive Phase where
  | outside
  /-- `sem_p`: `acquire(&p->lock)`. -/
  | semP (id : SemId)
  /-- `acquire(&sems[id].lock)`. -/
  | taking (id : SemId)
  /-- `release(&sems[id].lock)`, `short` when the count is negative. -/
  | taken (id : SemId) (short : Bool)
  /-- In `sched`, with `p->lock` held: the release by the scheduler. -/
  | dozing (k : Sleeper)
  /-- In `sched`: the acquire by the scheduler. -/
  | asleep (k : Sleeper)
  /-- `release(&p->lock)` at the end of `sem_p` and `wait`. -/
  | leaving
  /-- `sem_v`: `acquire(&sems[id].lock)`. -/
  | semV (id : SemId)
  /-- `release(&sems[id].lock)` at the end of `sem_v`. -/
  | raised (id : SemId)
  /-- `wakeup`: `acquire(&proc[i].lock)`. -/
  | waking (w : Waker) (i : Slot)
  /-- `wakeup`: `release(&proc[i].lock)`. -/
  | woken (w : Waker) (i : Slot)
  /-- `msgsnd`, `msgrcv`: `acquire(&mqlock)`. -/
  | msg (d : Dir)
  /-- `release(&mqlock)` at their end. -/
  | done
  /-- `sleep(proc, &mqlock)`: `acquire(&p->lock)`. -/
  | sleep (d : Dir)
  /-- `sleep`: `release(&mqlock)`. -/
  | handing (d : Dir)
  /-- `sleep`: `release(&p->lock)`. -/
  | rising (d : Dir)
  /-- `sleep`: `acquire(&mqlock)`. -/
  | back (d : Dir)
  /-- `allocproc`: `acquire(&proc[i].lock)`. -/
  | allocproc (i : Slot)
  /-- `allocproc`: `release(&proc[i].lock)` of a slot in use. -/
  | passing (i : Slot)
  /-- `release(&np->lock)` of a `fork` that found no memory. -/
  | failing (i : Slot)
  /-- `addmqcount`: `acquire(&mqlock)`. -/
  | addmqcount (i : Slot)
  /-- `addmqcount`: `release(&mqlock)`. -/
  | counted (i : Slot)
  /-- `release(&np->lock)` at the end of `fork`. -/
  | forked (i : Slot)
  /-- `wait`: `acquire(&p->lock)`. -/
  | wait
  /-- `wait`: `acquire(&np->lock)`. -/
  | visiting (i : Slot)
  /-- `wait`: `release(&np->lock)` of a child that runs. -/
  | skipping (i : Slot)
  /-- `releasemq2`: `acquire(&mqlock)`. -/
  | releasemq2 (i : Slot)
  /-- `releasemq2`: `release(&mqlock)`. -/
  | released (i : Slot)
  /-- `wait`: `release(&np->lock)` of a zombie. -/
  | reaping (i : Slot)
  deriving DecidableEq

inductive LockOp where
  | acquire (l : Lock)
  | release (l : Lock)

def Phase.lockOp (p : Slot) : Phase → Option LockOp
  | .outside => none
  | .semP _ | .asleep _ | .sleep _ | .wait => some (.acquire (.proc p))
  | .dozing _ | .leaving | .rising _ => some (.release (.proc p))
  | .taking id | .semV id => some (.acquire (.sem id))
  | .taken id _ | .raised id => some (.release (.sem id))
  | .waking _ i | .allocproc i | .visiting i => some (.acquire (.proc i))
  | .woken _ i | .passing i | .failing i | .forked i | .skipping i | .reaping i =>
    some (.release (.proc i))
  | .msg _ | .back _ | .addmqcount _ | .releasemq2 _ => some (.acquire .mq)
  | .done | .handing _ | .counted _ | .released _ => some (.release .mq)

structure Table where
  status : Slot → Status
  parent : Slot → Option Slot
  resourceCount : SemId → Int
  rstart : Nat
  wstart : Nat

def Table.setStatus (t : Table) (p : Slot) (st : Status) : Table :=
  { t with status := update t.status p st }

def Table.setCount (t : Table) (id : SemId) (n : Int) : Table :=
  { t with resourceCount := update t.resourceCount id n }

def Table.wake (t : Table) (chan : Chan) (i : Slot) : Table :=
  if t.status i = .sleeping chan then t.setStatus i .ready else t

/-- `p->chan = chan; p->state = SLEEPING; sched()`. -/
def doze (t : Table) (p : Slot) (chan : Chan) (k : Sleeper) : Table × Phase :=
  (t.setStatus p (.sleeping chan), .dozing k)

def following (i : Slot) : Option Slot :=
  if h : i.val + 1 < NPROC then some ⟨i.val + 1, h⟩ else none

/-- Both queues hold the address of the process table, on which process 0 sleeps in `wait`. -/
def Waker.chan : Waker → Chan
  | .semV id => .sem id
  | .msg _ _ => .proc 0

def wakeups (t : Table) (d : Dir) : Nat → Table × Phase
  | 0 => match d with
    | .snd => ({ t with rstart := 0 }, .done)
    | .rcv => ({ t with wstart := 0 }, .done)
  | n + 1 => (t, .waking (.msg d n) 0)

def Waker.resume (t : Table) : Waker → Table × Phase
  | .semV id => (t, .raised id)
  | .msg d left => wakeups t d left

/-- The body of the loops; `ok` when there is room, or a message. -/
def tryMsg (t : Table) (d : Dir) (ok : Bool) : Table × Phase :=
  match d, ok with
  | .snd, true => wakeups t .snd t.rstart
  | .rcv, true => wakeups t .rcv t.wstart
  | .snd, false => ({ t with wstart := t.wstart + 1 }, .sleep .snd)
  | .rcv, false => ({ t with rstart := t.rstart + 1 }, .sleep .rcv)

def scan (t : Table) (p : Slot) (n : Nat) (havekids killed : Bool) : Table × Phase :=
  match (List.finRange NPROC).find? fun np => n ≤ np.val ∧ t.parent np = some p with
  | some np => (t, .visiting np)
  | none => if havekids && !killed then doze t p (.proc p) .wait else (t, .leaving)

def Table.birth (t : Table) (p i : Slot) : Table :=
  { t.setStatus i .ready with parent := update t.parent i (some p) }

def Table.freeproc (t : Table) (i : Slot) : Table :=
  { t.setStatus i .unused with parent := update t.parent i none }

def Phase.after (t : Table) (p : Slot) (ok : Bool) : Phase → Table × Phase
  | .outside => (t, .outside)
  | .semP id => (t, .taking id)
  | .taking id =>
    let n := t.resourceCount id - 1
    (t.setCount id n, .taken id (n < 0))
  | .taken id short => if short then doze t p (.sem id) .semP else (t, .leaving)
  | .dozing k => (t, .asleep k)
  | .asleep .semP => (t, .leaving)
  | .asleep (.msg d) => (t, .rising d)
  | .asleep .wait => scan t p 0 false !ok
  | .leaving => (t, .outside)
  | .semV id =>
    let n := t.resourceCount id + 1
    (t.setCount id n, if n ≤ 0 then .waking (.semV id) 0 else .raised id)
  | .raised _ => (t, .outside)
  | .waking w i => (t.wake w.chan i, .woken w i)
  | .woken w i => match following i with
    | some j => (t, .waking w j)
    | none => w.resume t
  | .msg d => tryMsg t d ok
  | .done => (t, .outside)
  | .sleep d => (t, .handing d)
  | .handing d => doze t p (.proc 0) (.msg d)
  | .rising d => (t, .back d)
  | .back .snd => tryMsg t .snd ok
  -- `msgrcv` returns -1 after its sleep, with `mqlock` held
  | .back .rcv => (t, .outside)
  | .allocproc i =>
    if t.status i = .unused then (t, if ok then .addmqcount i else .failing i) else (t, .passing i)
  | .passing i => match following i with
    | some j => (t, .allocproc j)
    | none => (t, .outside)
  | .failing _ => (t, .outside)
  | .addmqcount i => (t, .counted i)
  | .counted i => (t.birth p i, .forked i)
  | .forked _ => (t, .outside)
  | .wait => scan t p 0 false !ok
  | .visiting i => (t, if t.status i = .zombie then .releasemq2 i else .skipping i)
  | .skipping i => scan t p (i.val + 1) true !ok
  | .releasemq2 i => (t, .released i)
  | .released i => (if ok then t.freeproc i else t, .reaping i)
  | .reaping _ => (t, .leaving)

/-- A phase, and whether an earlier `msgrcv` of the process has left `mqlock` held. -/
structure Point where
  phase : Phase
  kept : Bool
  deriving DecidableEq

structure State where
  lock : Lock → Option Slot
  point : Slot → Point
  table : Table
  panicked : Bool

def State.phase (s : State) (p : Slot) : Phase := (s.point p).phase

def init : State where
  lock := fun _ => none
  point := fun _ => ⟨.outside, false⟩
  table := ⟨update (fun _ => .unused) 0 .ready, fun _ => none, fun _ => 0, 0, 0⟩
  panicked := false

def State.move (s : State) (p : Slot) (ok : Bool) (lock : Lock → Option Slot) : State :=
  let next := (s.phase p).after s.table p ok
  { s with
    lock := lock
    table := next.1
    point := update s.point p
      ⟨next.2, (s.point p).kept || decide (s.phase p = .back .rcv)⟩ }

def State.runs (s : State) (p : Slot) : Bool :=
  match s.phase p with
  | .asleep _ => decide (s.table.status p = .ready)
  | _ => true

/-- `sched` panics when the process holds another lock than `p->lock`. -/
def State.schedLocks (s : State) (p : Slot) : Bool :=
  match s.phase p with
  | .dozing _ => (s.point p).kept
  | _ => false

def go (s : State) (p : Slot) (ok : Bool) : Option State :=
  match (s.phase p).lockOp p with
  | none => none
  | some (.acquire l) =>
    if s.runs p then
      match s.lock l with
      | none => some (s.move p ok (update s.lock l (some p)))
      -- `acquire` panics on a lock that its CPU holds, and spins on any other
      | some q => if q = p then some { s with panicked := true } else none
    else none
  | some (.release l) =>
    if s.schedLocks p then some { s with panicked := true }
    else some (s.move p ok (update s.lock l none))

/-- The children go to the first process; it and the parent `pp` are woken; `p` is a zombie. -/
def Table.exit (t : Table) (p pp : Slot) : Table :=
  { t with
    status := fun q =>
      if q = p then .zombie
      else if (q = 0 ∨ q = pp) ∧ t.status q = .sleeping (.proc q) then .ready
      else t.status q
    parent := fun q => if t.parent q = some p then some 0 else t.parent q }

def State.exitFree (s : State) (p pp : Slot) : Prop :=
  s.lock (.proc 0) = none ∧ s.lock (.proc p) = none ∧ s.lock (.proc pp) = none ∧
    ∀ q, s.table.parent q = some p → s.lock (.proc q) = none

instance (s : State) (p pp : Slot) : Decidable (s.exitFree p pp) :=
  inferInstanceAs (Decidable (_ ∧ _ ∧ _ ∧ ∀ q, s.table.parent q = some p → _))

inductive Call where
  | semP (id : SemId)
  | semV (id : SemId)
  | msg (d : Dir)
  | fork
  | wait

def Call.start : Call → Phase
  | .semP id => .semP id
  | .semV id => .semV id
  | .msg d => .msg d
  | .fork => .allocproc 0
  | .wait => .wait

inductive Op where
  | call (p : Slot) (c : Call)
  | go (p : Slot) (ok : Bool)
  | exit (p : Slot)
  /-- `sem_create` and `sem_free` store a count under the semaphore's lock. -/
  | setSem (id : SemId) (n : Int)

def exit (s : State) (p : Slot) : Option State :=
  -- "init exiting", and "sched locks" of a process that still holds `mqlock`
  if p = 0 ∨ (s.point p).kept then some { s with panicked := true }
  else
    match s.table.parent p with
    | none => none
    | some pp => if s.exitFree p pp then some { s with table := s.table.exit p pp } else none

def step (s : State) (op : Op) : Option State :=
  if s.panicked then none
  else
    match op with
    | .call p c =>
      if s.phase p = .outside ∧ s.table.status p = .ready then
        some { s with point := update s.point p ⟨c.start, (s.point p).kept⟩ }
      else none
    | .go p ok => go s p ok
    | .exit p => if s.phase p = .outside ∧ s.table.status p = .ready then exit s p else none
    | .setSem id n =>
      if s.lock (.sem id) = none then some { s with table := s.table.setCount id n } else none

/-! ## Who holds what and who waits for whom -/

def Waker.locks : Waker → List Lock
  | .semV id => [.sem id]
  | .msg _ _ => [.mq]

def Phase.locks (p : Slot) : Phase → List Lock
  | .outside | .semP _ | .asleep _ | .semV _ | .msg _ | .back _ | .allocproc _ | .wait => []
  | .taking _ | .dozing _ | .leaving | .rising _ | .visiting _ => [.proc p]
  | .taken id _ => [.proc p, .sem id]
  | .raised id => [.sem id]
  | .waking w _ => w.locks
  | .woken w i => .proc i :: w.locks
  | .done | .sleep _ => [.mq]
  | .handing _ => [.mq, .proc p]
  | .passing i | .failing i | .addmqcount i | .forked i => [.proc i]
  | .counted i => [.proc i, .mq]
  | .skipping i | .releasemq2 i | .reaping i => [.proc p, .proc i]
  | .released i => [.proc p, .proc i, .mq]

def Point.locks (p : Slot) (pt : Point) : List Lock :=
  pt.phase.locks p ++ if pt.kept then [.mq] else []

def State.wants (s : State) (p : Slot) : Option Lock :=
  match (s.phase p).lockOp p with
  | some (.acquire l) => if s.runs p then some l else none
  | _ => none

def State.waits (s : State) (p : Slot) : Option Lock :=
  (s.wants p).filter fun l => s.lock l ≠ none ∧ s.lock l ≠ some p

/-- `p` spins on a process lock with the lock of a semaphore or of the queues. -/
def State.procInIpc (s : State) (p : Slot) : Bool :=
  (s.waits p).any Lock.isProc && ((s.point p).locks p).any Lock.isIpc

/-- `p` spins on the lock of a semaphore or of the queues with a process lock. -/
def State.ipcInProc (s : State) (p : Slot) : Bool :=
  (s.waits p).any Lock.isIpc && ((s.point p).locks p).any Lock.isProc

def Staggered (s : State) : Prop :=
  (∀ p, s.procInIpc p = false) ∨ (∀ p, s.ipcInProc p = false)

instance (s : State) : Decidable (Staggered s) := by
  dsimp only [Staggered]
  infer_instance

def Disciplined (s : State) (op : Op) : Prop := ∀ s' ∈ step s op, Staggered s'

instance (s : State) (op : Op) : Decidable (Disciplined s op) :=
  match h : step s op with
  | none => isTrue (by simp [Disciplined, h])
  | some s' => decidable_of_iff (Staggered s') (by simp [Disciplined, h])

end BirdOS.IpcLocks
