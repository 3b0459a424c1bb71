import BirdOS.Fs.Names
import BirdOS.Mm.Space
import BirdOS.Proc.Sched
import BirdOS.Proc.Threads

/-! # What a slot of the process table carries over to its next process

`allocproc`, `freeproc` and `join` each reset some of the fields of `struct proc`, and `kill`
and `setPriority` write to whatever slot has the pid, in use or not.  The calls are steps of
their own up to the points where the lock of a slot that is being set up is given back:
`allocproc` returns with the lock, and `clone` gives it back once before the process is
RUNNABLE.  The type `φ` is that of open files and `ν` that of mapped areas. -/

namespace BirdOS.FreshSlots

open Option Machine

open Function (update update_eq_self update_of_ne update_self)
open SchedO1 (Runq runqEnqueue runqRemove runqPick allocFields)
open Sched (PState Chan initproc)
open Allocproc (Kind)
open Kalloc (Layout IsPage)
open Threads (KSTACK)
open Names (NOFILE)
open Space (NVMA)

/-- Where the saved context returns to. -/
inductive Resume where
  | forkret
  | yield
  | sleep
  deriving DecidableEq

@[ext] structure Proc (φ ν : Type) where
  state : PState
  pid : BitVec 32
  parent : Option Slot
  pthread : Option Slot
  chan : Option Chan
  killed : Bool
  resume : Resume
  kstack : Nat
  ofile : Fin NOFILE → Option φ
  vma : Fin NVMA → Option ν

inductive Phase where
  | idle
  /-- `allocproc` has returned `np`. -/
  | build (k : Kind) (np : Slot)
  /-- `clone` between its `release` and its second `acquire`. -/
  | window (np : Slot)
  deriving DecidableEq

def Phase.slot : Phase → Option Slot
  | .idle => none
  | .build _ np | .window np => some np

def Phase.locks : Phase → List Slot
  | .build _ np => [np]
  | _ => []

structure State (φ ν : Type) where
  proc : Slot → Proc φ ν
  rq : Runq
  lock : Slot → Option Slot
  phase : Slot → Phase
  /-- How many CPUs have taken the process with `runq_pick` and not looked at it yet. -/
  picked : Slot → Nat
  nextpid : BitVec 32

inductive Op (φ ν : Type) where
  | alloc (c np : Slot) (k : Kind)
  /-- A page for a trapframe or, with `table`, for the page table is missing. -/
  | allocFails (c np : Slot) (table : Bool)
  | forkDone (c : Slot)
  | forkFails (c : Slot)
  | cloneSetup (c : Slot)
  | cloneDone (c : Slot)
  | setFile (c : Slot) (fd : Fin NOFILE) (f : Option φ)
  | setArea (c : Slot) (i : Fin NVMA) (v : Option ν)
  | exit (c : Slot)
  | wait (c np : Slot)
  | join (c t : Slot)
  | kill (c q : Slot) (pid : BitVec 32)
  | setPriority (c q : Slot) (pid : BitVec 32) (priority : Int)
  | sleep (c : Slot) (ch : Chan)
  | yield (c : Slot)
  | wakeup (q : Slot) (ch : Chan)
  | pick
  | dispatch (q : Slot)
  | tick (r : Option Slot)

section Source
variable {φ ν : Type}

def State.setProc (s : State φ ν) (q : Slot) (p : Proc φ ν) : State φ ν :=
  { s with proc := update s.proc q p }

def number (s : State φ ν) (np : Slot) : State φ ν :=
  { s.setProc np { s.proc np with pid := s.nextpid } with
    rq := allocFields s.rq np
    nextpid := s.nextpid + 1 }

def allocproc (s : State φ ν) (np : Slot) : State φ ν :=
  let s := number s np
  s.setProc np { s.proc np with resume := .forkret, vma := fun _ => none }

def freeproc (s : State φ ν) (np : Slot) : State φ ν :=
  { s.setProc np { s.proc np with
      pid := 0
      parent := none
      chan := none
      killed := false
      state := .unused } with
    rq := runqRemove s.rq np }

def makeRunnable (s : State φ ν) (q : Slot) : State φ ν :=
  { s.setProc q { s.proc q with state := .runnable } with rq := runqEnqueue s.rq q }

def State.release (s : State φ ν) (c np : Slot) (ph : Phase) : State φ ν :=
  { s with lock := update s.lock np none, phase := update s.phase c ph }

def reparent (s : State φ ν) (c : Slot) : State φ ν :=
  { s with proc := fun q =>
      if (s.proc q).parent = some c then { s.proc q with parent := some initproc } else s.proc q }

def Ready (s : State φ ν) (c : Slot) : Prop :=
  (s.proc c).state = .running ∧ s.phase c = .idle

instance (s : State φ ν) (c : Slot) : Decidable (Ready s c) :=
  inferInstanceAs (Decidable (_ ∧ _))

def forkDone (s : State φ ν) (c : Slot) : Option (State φ ν) :=
  match s.phase c with
  | .build .fork np =>
    some ((makeRunnable (s.setProc np { s.proc np with
      parent := some c
      ofile := (s.proc c).ofile
      vma := (s.proc c).vma }) np).release c np .idle)
  | _ => none

def forkFails (s : State φ ν) (c : Slot) : Option (State φ ν) :=
  match s.phase c with
  | .build .fork np => some ((freeproc s np).release c np .idle)
  | _ => none

def cloneSetup (s : State φ ν) (c : Slot) : Option (State φ ν) :=
  match s.phase c with
  | .build .clone np =>
    some ((s.setProc np { s.proc np with
      pthread := some c
      parent := none
      ofile := (s.proc c).ofile }).release c np (.window np))
  | _ => none

def cloneDone (s : State φ ν) (c : Slot) : Option (State φ ν) :=
  match s.phase c with
  | .window np =>
    if s.lock np = none then
      some { makeRunnable s np with phase := update s.phase c .idle }
    else none
  | _ => none

def step (L : Layout) (s : State φ ν) : Op φ ν → Option (State φ ν)
  | .alloc c np k =>
    if Ready s c ∧ s.lock np = none ∧ (s.proc np).state = .unused then
      some { allocproc s np with
        lock := update s.lock np (some c)
        phase := update s.phase c (.build k np) }
    else none
  | .allocFails c np table =>
    if Ready s c ∧ s.lock np = none ∧ (s.proc np).state = .unused then
      some (if table then freeproc (number s np) np else number s np)
    else none
  | .forkDone c => if (s.proc c).state = .running then forkDone s c else none
  | .forkFails c => if (s.proc c).state = .running then forkFails s c else none
  | .cloneSetup c => if (s.proc c).state = .running then cloneSetup s c else none
  | .cloneDone c => if (s.proc c).state = .running then cloneDone s c else none
  | .setFile c fd f =>
    if Ready s c then
      some (s.setProc c { s.proc c with ofile := update (s.proc c).ofile fd f })
    else none
  | .setArea c i v =>
    if Ready s c then
      some (s.setProc c { s.proc c with vma := update (s.proc c).vma i v })
    else none
  | .exit c =>
    if Ready s c ∧ c ≠ initproc then
      let s := reparent s c
      some (s.setProc c { s.proc c with
        ofile := fun _ => none
        vma := fun _ => none
        state := .zombie })
    else none
  | .wait c np =>
    if Ready s c ∧ (s.proc np).parent = some c ∧ (s.proc np).state = .zombie then
      some (freeproc s np)
    else none
  | .join c t =>
    -- `kfree` panics on anything but a page
    if Ready s c ∧ (s.proc t).pthread = some c ∧ (s.proc t).state = .zombie ∧
        IsPage L (s.proc t).kstack then
      some (s.setProc t { s.proc t with
        kstack := 0
        state := .unused
        pid := 0
        parent := none
        pthread := none
        killed := false })
    else none
  | .kill c q pid =>
    if Ready s c ∧ s.lock q = none ∧ (s.proc q).pid = pid then
      let t := s.setProc q { s.proc q with killed := true }
      some (if (s.proc q).state = .sleeping then makeRunnable t q else t)
    else none
  | .setPriority c q pid priority =>
    if Ready s c ∧ s.lock q = none ∧ (s.proc q).pid = pid then
      some { s with rq := SchedO1.setPriority s.rq q priority }
    else none
  | .sleep c ch =>
    if Ready s c then
      some (s.setProc c { s.proc c with chan := some ch, resume := .sleep, state := .sleeping })
    else none
  | .yield c =>
    -- not with a lock held
    if (s.proc c).state = .running ∧ (s.phase c).locks = [] then
      some (makeRunnable (s.setProc c { s.proc c with resume := .yield }) c)
    else none
  | .wakeup q ch =>
    if s.lock q = none ∧ (s.proc q).state = .sleeping ∧ (s.proc q).chan = some ch then
      some (makeRunnable s q)
    else none
  | .pick =>
    match runqPick s.rq with
    | some (rq, some q) =>
      some { s with rq := rq, picked := update s.picked q (s.picked q + 1) }
    | _ => none
  | .dispatch q =>
    if s.picked q ≠ 0 ∧ s.lock q = none then
      let t := { s with picked := update s.picked q (s.picked q - 1) }
      if (s.proc q).state = .runnable then
        some { t.setProc q { s.proc q with
            state := .running
            -- the end of `sleep`
            chan := if (s.proc q).resume = .sleep then none else (s.proc q).chan } with
          rq := { s.rq with waitTime := update s.rq.waitTime q 0 } }
      else some { t with rq := if s.rq.onRunq q then s.rq else runqEnqueue s.rq q }
    else none
  | .tick r =>
    if ∀ q, r = some q → (s.proc q).state = .running then
      (SchedO1.schedTick s.rq r).map fun rq => { s with rq := rq }
    else none

def emptySlot (φ ν : Type) (q : Slot) : Proc φ ν where
  state := .unused
  pid := 0
  parent := none
  pthread := none
  chan := none
  killed := false
  resume := .forkret
  kstack := KSTACK q
  ofile := fun _ => none
  vma := fun _ => none

def boot (φ ν : Type) : State φ ν :=
  makeRunnable
    { proc := update (emptySlot φ ν) initproc { emptySlot φ ν initproc with pid := 1 }
      rq := allocFields SchedO1.boot initproc
      lock := fun _ => none
      phase := fun _ => .idle
      picked := fun _ => 0
      nextpid := 2 } initproc

end Source

/-! ## The invariant -/

section Invariant
variable {φ ν : Type}

/-- RUNNABLE processes are on the run queue or taken from it by one CPU. -/
def Queue (st : PState) (on : Bool) (picked : Nat) : Prop :=
  if st = .runnable then on = true ∧ picked = 0 ∨ on = false ∧ picked = 1
  else on = false ∧ picked = 0

structure SlotOk (q : Slot) (p : Proc φ ν) : Prop where
  kstack : p.kstack = KSTACK q
  thread : p.pthread ≠ none → p.parent = none
  zombie : p.state = .zombie → ∀ fd, p.ofile fd = none
  chan : p.chan ≠ none → (p.state = .sleeping ∨ p.state = .runnable) ∧ p.resume = .sleep

structure Fresh (p : Proc φ ν) : Prop where
  parent : p.parent = none
  pthread : p.pthread = none
  killed : p.killed = false
  ofile : ∀ fd, p.ofile fd = none

structure Inv (s : State φ ν) : Prop where
  rq : SchedO1.Ok s.rq
  queue : ∀ q, Queue (s.proc q).state (s.rq.onRunq q) (s.picked q)
  slot : ∀ q, SlotOk q (s.proc q)
  fresh : ∀ q, (s.proc q).state = .unused → (∀ c, s.phase c ≠ .window q) → Fresh (s.proc q)
  locks : Locks.Agrees s.lock (fun _ => Phase.locks) s.phase
  unused : ∀ c q, (s.phase c).slot = some q → (s.proc q).state = .unused
  unique : ∀ c c' q, (s.phase c).slot = some q → (s.phase c').slot = some q → c = c'

/-- `kill` finds no slot without process or call, and `allocproc` takes none that a `clone` is
still working on. -/
def Tame (s : State φ ν) : Op φ ν → Prop
  | .kill _ q _ => (s.proc q).state = .unused → ∃ c, (s.phase c).slot = some q
  | .alloc _ np _ | .allocFails _ np _ => ∀ c, s.phase c ≠ .window np
  | _ => True

instance (s : State φ ν) (op : Op φ ν) : Decidable (Tame s op) := by
  cases op <;> dsimp only [Tame] <;> infer_instance

variable {s s' : State φ ν} {c q : Slot} {p : Proc φ ν}

theorem Inv.put (h : Inv s) (hproc : s'.proc = update s.proc q p)
    (hrq : SchedO1.Ok s'.rq) (hq : Queue p.state (s'.rq.onRunq q) (s'.picked q))
    (hother : ∀ r, r ≠ q → s'.rq.onRunq r = s.rq.onRunq r ∧ s'.picked r = s.picked r)
    (hslot : SlotOk q p) (hfresh : p.state = .unused → (∀ c, s'.phase c ≠ .window q) → Fresh p)
    (hwindow : ∀ r, r ≠ q → ∀ c, s.phase c = .window r → s'.phase c = .window r)
    (hlocks : Locks.Agrees s'.lock (fun _ => Phase.locks) s'.phase)
    (hunused : ∀ c, (s'.phase c).slot = some q → p.state = .unused)
    (hslots : ∀ c r, r ≠ q → (s'.phase c).slot = some r → (s.phase c).slot = some r)
    (hunique : ∀ c c', (s'.phase c).slot = some q → (s'.phase c').slot = some q → c = c') :
    Inv s' := by
  have hself : s'.proc q = p := by rw [hproc, update_self]
  have hkeep : ∀ r, r ≠ q → s'.proc r = s.proc r := fun r hr => by
    rw [hproc, update_of_ne hr]
  refine ⟨hrq, ?_, ?_, ?_, hlocks, ?_, ?_⟩
  · intro r
    obtain rfl | hr := eq_or_ne r q
    · rw [hself]
      exact hq
    · rw [hkeep r hr, (hother r hr).1, (hother r hr).2]
      exact h.queue r
  · intro r
    obtain rfl | hr := eq_or_ne r q
    · rw [hself]
      exact hslot
    · rw [hkeep r hr]
      exact h.slot r
  · intro r hst hnone
    obtain rfl | hr := eq_or_ne r q
    · rw [hself] at hst ⊢
      exact hfresh hst hnone
    · rw [hkeep r hr] at hst ⊢
      exact h.fresh r hst fun c hc => hnone c (hwindow r hr c hc)
  · intro c r hc
    obtain rfl | hr := eq_or_ne r q
    · rw [hself]
      exact hunused c hc
    · rw [hkeep r hr]
      exact h.unused c r (hslots c r hr hc)
  · intro c c' r hc hc'
    obtain rfl | hr := eq_or_ne r q
    · exact hunique c c' hc hc'
    · exact h.unique c c' r (hslots c r hr hc) (hslots c' r hr hc')

theorem Inv.set (h : Inv s) (hproc : s'.proc = update s.proc q p)
    (hphase : s'.phase = s.phase) (hlock : s'.lock = s.lock) (hrq : SchedO1.Ok s'.rq)
    (hq : Queue p.state (s'.rq.onRunq q) (s'.picked q))
    (hother : ∀ r, r ≠ q → s'.rq.onRunq r = s.rq.onRunq r ∧ s'.picked r = s.picked r)
    (hslot : SlotOk q p) (hfresh : p.state = .unused → (∀ c, s.phase c ≠ .window q) → Fresh p)
    (hunused : (s.proc q).state = .unused → p.state = .unused) : Inv s' := by
  refine h.put hproc hrq hq hother hslot ?_ ?_ ?_ ?_ ?_ ?_
  · rw [hphase]
    exact hfresh
  · rw [hphase]
    exact fun _ _ _ => id
  · rw [hphase, hlock]
    exact h.locks
  · rw [hphase]
    exact fun c hc => hunused (h.unused c q hc)
  · rw [hphase]
    exact fun _ _ _ => id
  · rw [hphase]
    exact fun c c' => h.unique c c' q

theorem Inv.move {ph : Phase} (h : Inv s) (hproc : s'.proc = update s.proc q p)
    (hphase : s'.phase = update s.phase c ph)
    (hlocks : Locks.Agrees s'.lock (fun _ => Phase.locks) (update s.phase c ph))
    (hrq : SchedO1.Ok s'.rq) (hq : Queue p.state (s'.rq.onRunq q) (s'.picked q))
    (hother : ∀ r, r ≠ q → s'.rq.onRunq r = s.rq.onRunq r ∧ s'.picked r = s.picked r)
    (hslot : SlotOk q p) (hfresh : p.state = .unused → ph ≠ .window q → Fresh p)
    (halone : ∀ c', c' ≠ c → (s.phase c').slot ≠ some q)
    (hold : ∀ r, (s.phase c).slot = some r → r = q) (hnew : ∀ r, ph.slot = some r → r = q)
    (hunused : ph.slot = some q → p.state = .unused) : Inv s' := by
  have hself : s'.phase c = ph := by rw [hphase, update_self]
  have hkeep : ∀ c', c' ≠ c → s'.phase c' = s.phase c' := fun c' hc => by
    rw [hphase, update_of_ne hc]
  have hcaller : ∀ c', (s'.phase c').slot = some q → c' = c := by
    intro c' hc'
    by_contra hne
    rw [hkeep c' hne] at hc'
    exact halone c' hne hc'
  refine h.put hproc hrq hq hother hslot ?_ ?_ (hphase ▸ hlocks) ?_ ?_ ?_
  · intro hst hnone
    exact hfresh hst (hself ▸ hnone c)
  · intro r hr c' hc'
    by_cases hc : c' = c
    · subst hc
      exact absurd (hold r (by rw [hc']; rfl)) hr
    · rw [hkeep c' hc]
      exact hc'
  · intro c' hc'
    have hcc := hcaller c' hc'
    subst hcc
    rw [hself] at hc'
    exact hunused hc'
  · intro c' r hr hc'
    by_cases hc : c' = c
    · subst hc
      rw [hself] at hc'
      exact absurd (hnew r hc') hr
    · rw [hkeep c' hc] at hc'
      exact hc'
  · intro c' c'' hc' hc''
    rw [hcaller c' hc', hcaller c'' hc'']

/-! ### Facts about single slots -/

section
variable (h : Inv s)
include h

theorem Inv.off_queue (hst : (s.proc q).state ≠ .runnable) :
    s.rq.onRunq q = false ∧ s.picked q = 0 := by
  have hq := h.queue q
  rwa [Queue, if_neg hst] at hq

theorem Inv.chan_none (hsleeping : (s.proc q).state ≠ .sleeping)
    (hrunnable : (s.proc q).state ≠ .runnable) : (s.proc q).chan = none := by
  by_contra hne
  exact ((h.slot q).chan hne).1.elim hsleeping hrunnable

theorem Inv.alone (hfree : s.lock q = none) (hwindow : ∀ c, s.phase c ≠ .window q)
    (c : Slot) : (s.phase c).slot ≠ some q := by
  intro hc
  cases hph : s.phase c with
  | idle =>
    rw [hph] at hc
    cases hc
  | window np =>
    rw [hph] at hc
    cases hc
    exact hwindow c hph
  | build k np =>
    rw [hph] at hc
    cases hc
    have hlock := (h.locks q c).mpr (by rw [hph]; exact List.mem_singleton_self q)
    rw [hfree] at hlock
    cases hlock

theorem Inv.alone_of_build {k : Kind} (hc : s.phase c = .build k q) (c' : Slot)
    (hne : c' ≠ c) : (s.phase c').slot ≠ some q :=
  fun hc' => hne (h.unique c' c q hc' (by rw [hc]; rfl))

theorem Inv.fresh_of_build {k : Kind} (hc : s.phase c = .build k q) :
    (s.proc q).state = .unused ∧ Fresh (s.proc q) := by
  have hst := h.unused c q (by rw [hc]; rfl)
  refine ⟨hst, h.fresh q hst fun c' hw => ?_⟩
  have hcc := h.unique c' c q (by rw [hw]; rfl) (by rw [hc]; rfl)
  rw [hcc, hc] at hw
  cases hw

theorem Queue.enqueue (hst : (s.proc q).state ≠ .runnable) :
    Queue .runnable ((runqEnqueue s.rq q).onRunq q) (s.picked q) ∧
      ∀ r, r ≠ q → (runqEnqueue s.rq q).onRunq r = s.rq.onRunq r ∧ s.picked r = s.picked r := by
  constructor
  · rw [Queue, if_pos rfl]
    exact .inl ⟨by simp, (h.off_queue hst).2⟩
  · intro r hr
    simp [hr]

theorem Inv.wake (hst : (s.proc q).state ≠ .runnable)
    (huse : (s.proc q).state ≠ .unused) (hp : p.state = .runnable) (hslot : SlotOk q p) :
    Inv { s with proc := update s.proc q p, rq := runqEnqueue s.rq q } := by
  obtain ⟨hq, hother⟩ := Queue.enqueue h hst
  refine h.set rfl rfl rfl (h.rq.enqueue q) (hp ▸ hq) hother hslot ?_ fun hu => absurd hu huse
  intro hu
  rw [hp] at hu
  cases hu

theorem Inv.edit (hst : p.state = (s.proc q).state) (hslot : SlotOk q p)
    (hfresh : p.state = .unused → (∀ c, s.phase c ≠ .window q) → Fresh p) : Inv (s.setProc q p) :=
  h.set rfl rfl rfl h.rq (hst ▸ h.queue q) (fun _ _ => ⟨rfl, rfl⟩) hslot hfresh fun hu =>
    hst.trans hu

end

/-! ### `allocproc` and `freeproc` -/

theorem Inv.number (h : Inv s) (hst : (s.proc q).state = .unused) : Inv (number s q) := by
  have hoff := (h.off_queue (q := q) (by simp [hst])).1
  refine h.set rfl rfl rfl (h.rq.allocFields hoff) (h.queue q) (fun _ _ => ⟨rfl, rfl⟩) ?_ ?_ id
  · exact { h.slot q with }
  · intro hu hnone
    exact { h.fresh q hu hnone with }

theorem Inv.allocproc (h : Inv s) (hst : (s.proc q).state = .unused) : Inv (allocproc s q) := by
  have hn := h.number hst
  have hself : (FreshSlots.number s q).proc q = { s.proc q with pid := s.nextpid } :=
    update_self ..
  have hchan := hn.chan_none (q := q) (by simp [hself, hst]) (by simp [hself, hst])
  refine hn.edit rfl { hn.slot q with chan := fun hne => absurd hchan hne } ?_
  intro hu hnone
  exact { hn.fresh q hu hnone with }

theorem Inv.freeproc (h : Inv s) (hst : (s.proc q).state ≠ .runnable)
    (hpthread : (s.proc q).pthread = none) (hofile : ∀ fd, (s.proc q).ofile fd = none) :
    Inv (freeproc s q) := by
  have hslot : SlotOk q { s.proc q with
      pid := 0, parent := none, chan := none, killed := false, state := .unused } := by
    refine ⟨(h.slot q).kstack, fun _ => rfl, ?_, fun hne => absurd rfl hne⟩
    rintro ⟨⟩
  refine h.set rfl rfl rfl (h.rq.remove q) ?_ ?_ hslot ?_ fun _ => rfl
  · simp [FreshSlots.freeproc, State.setProc, Queue, (h.off_queue hst).2]
  · intro r hr
    simp [FreshSlots.freeproc, State.setProc, hr]
  · exact fun _ _ => ⟨rfl, hpthread, rfl, hofile⟩

/-! ### `fork` and `clone` -/

theorem Inv.finish {k : Kind} {ph : Phase} (h : Inv s) (hc : s.phase c = .build k q)
    (hproc : s'.proc = update s.proc q p) (hphase : s'.phase = update s.phase c ph)
    (hlock : s'.lock = update s.lock q none) (hph : ph = .idle ∨ ph = .window q)
    (hrq : SchedO1.Ok s'.rq) (hq : Queue p.state (s'.rq.onRunq q) (s'.picked q))
    (hother : ∀ r, r ≠ q → s'.rq.onRunq r = s.rq.onRunq r ∧ s'.picked r = s.picked r)
    (hslot : SlotOk q p) (hfresh : p.state = .unused → ph ≠ .window q → Fresh p)
    (hunused : ph = .window q → p.state = .unused) : Inv s' := by
  refine h.move hproc hphase ?_ hrq hq hother hslot hfresh (h.alone_of_build hc) ?_ ?_ ?_
  · rw [hlock]
    refine h.locks.release ?_ fun l => ?_
    · rw [hc]
      exact List.mem_singleton_self q
    · rw [hc]
      rcases hph with rfl | rfl <;> simp [Phase.locks]
  · rw [hc]
    rintro r ⟨⟩
    rfl
  · rcases hph with rfl | rfl <;> rintro r ⟨⟩
    rfl
  · rcases hph with rfl | rfl
    · rintro ⟨⟩
    · exact fun _ => hunused rfl

theorem Inv.alloc {k : Kind} (h : Inv s) (hready : Ready s c) (hfree : s.lock q = none)
    (hst : (s.proc q).state = .unused) (hwindow : ∀ c, s.phase c ≠ .window q) :
    Inv { FreshSlots.allocproc s q with
      lock := update s.lock q (some c)
      phase := update s.phase c (.build k q) } := by
  have ha := h.allocproc hst
  refine ha.move (update_eq_self q _).symm rfl ?_ ha.rq (ha.queue q)
    (fun _ _ => ⟨rfl, rfl⟩) (ha.slot q) ?_ (fun c' _ => ha.alone hfree hwindow c') ?_ ?_ ?_
  · refine ha.locks.acquire hfree fun l => ?_
    have hidle : (FreshSlots.allocproc s q).phase c = .idle := hready.2
    rw [hidle]
    simp [Phase.locks]
  · exact fun hu _ => ha.fresh q hu hwindow
  · have hidle : (FreshSlots.allocproc s q).phase c = .idle := hready.2
    rw [hidle]
    rintro r ⟨⟩
  · rintro r ⟨⟩
    rfl
  · intro _
    simp [FreshSlots.allocproc, FreshSlots.number, State.setProc, hst]

theorem Inv.forkDone (h : Inv s) (hs : forkDone s c = some s') : Inv s' := by
  unfold FreshSlots.forkDone at hs
  split at hs
  · next np hc =>
    cases hs
    obtain ⟨hst, hfresh⟩ := h.fresh_of_build hc
    have hne : (s.proc np).state ≠ .runnable := by simp [hst]
    obtain ⟨hq, hother⟩ := Queue.enqueue h hne
    refine h.finish hc (p := { s.proc np with
        parent := some c, ofile := (s.proc c).ofile, vma := (s.proc c).vma, state := .runnable })
      ?_ rfl rfl (.inl rfl) (h.rq.enqueue np) hq hother ?_ (by rintro ⟨⟩) (by rintro ⟨⟩)
    · simp [State.release, makeRunnable, State.setProc]
    · refine ⟨(h.slot np).kstack, fun hp => absurd hfresh.pthread hp, by rintro ⟨⟩, fun hch => ?_⟩
      exact absurd (h.chan_none (by simp [hst]) hne) hch
  · cases hs

theorem Inv.forkFails (h : Inv s) (hs : forkFails s c = some s') : Inv s' := by
  unfold FreshSlots.forkFails at hs
  split at hs
  · next np hc =>
    cases hs
    obtain ⟨hst, hfresh⟩ := h.fresh_of_build hc
    have hfree := h.freeproc (q := np) (by simp [hst]) hfresh.pthread hfresh.ofile
    have hself : (FreshSlots.freeproc s np).proc np = { s.proc np with
        pid := 0, parent := none, chan := none, killed := false, state := .unused } :=
      update_self ..
    have hc' : (FreshSlots.freeproc s np).phase c = .build .fork np := hc
    exact hfree.finish hc' (update_eq_self np _).symm rfl rfl (.inl rfl) hfree.rq
      (hfree.queue np) (fun _ _ => ⟨rfl, rfl⟩) (hfree.slot np)
      (fun _ _ => (hfree.fresh_of_build hc').2) (by rintro ⟨⟩)
  · cases hs

theorem Inv.cloneSetup (h : Inv s) (hs : cloneSetup s c = some s') : Inv s' := by
  unfold FreshSlots.cloneSetup at hs
  split at hs
  · next np hc =>
    cases hs
    obtain ⟨hst, hfresh⟩ := h.fresh_of_build hc
    refine h.finish hc (p := { s.proc np with
        pthread := some c, parent := none, ofile := (s.proc c).ofile })
      rfl rfl rfl (.inr rfl) h.rq (h.queue np) (fun _ _ => ⟨rfl, rfl⟩) ?_
      (fun _ hne => absurd rfl hne) fun _ => hst
    refine ⟨(h.slot np).kstack, fun _ => rfl, ?_, (h.slot np).chan⟩
    rw [hst]
    rintro ⟨⟩
  · cases hs

theorem Inv.cloneDone (h : Inv s) (hs : cloneDone s c = some s') : Inv s' := by
  unfold FreshSlots.cloneDone at hs
  split at hs
  · next np hc =>
    split at hs
    · cases hs
      have hst := h.unused c np (by rw [hc]; rfl)
      have hne : (s.proc np).state ≠ .runnable := by simp [hst]
      obtain ⟨hq, hother⟩ := Queue.enqueue h hne
      refine h.move (p := { s.proc np with state := .runnable }) rfl rfl (h.locks.move ?_)
        (h.rq.enqueue np) hq hother ?_ (by rintro ⟨⟩) ?_ ?_ (by rintro r ⟨⟩) (by rintro ⟨⟩)
      · rw [hc]
        exact fun _ => Iff.rfl
      · refine ⟨(h.slot np).kstack, (h.slot np).thread, by rintro ⟨⟩, fun hch => ?_⟩
        exact absurd (h.chan_none (by simp [hst]) hne) hch
      · exact fun c' hne' hc' => hne' (h.unique c' c np hc' (by rw [hc]; rfl))
      · rw [hc]
        rintro r ⟨⟩
        rfl
    · cases hs
  · cases hs

/-! ### The other calls -/

theorem Inv.reparent (h : Inv s) (c : Slot) : Inv (reparent s c) := by
  have hstate : ∀ r, ((FreshSlots.reparent s c).proc r).state = (s.proc r).state := by
    intro r
    simp only [FreshSlots.reparent]
    split <;> rfl
  refine ⟨h.rq, ?_, ?_, ?_, h.locks, ?_, h.unique⟩
  · intro r
    rw [hstate]
    exact h.queue r
  · intro r
    have hslot := h.slot r
    simp only [FreshSlots.reparent]
    split
    · next hp =>
      refine ⟨hslot.kstack, fun ht => ?_, hslot.zombie, hslot.chan⟩
      have hnone := hslot.thread ht
      rw [hp] at hnone
      cases hnone
    · exact hslot
  · intro r hu hnone
    rw [hstate] at hu
    have hf := h.fresh r hu hnone
    have hsame : (FreshSlots.reparent s c).proc r = s.proc r := by
      simp [FreshSlots.reparent, hf.parent]
    rw [hsame]
    exact hf
  · intro c' r hc'
    rw [hstate]
    exact h.unused c' r hc'

theorem Inv.zombie (h : Inv s) (hrun : (s.proc c).state = .running) :
    Inv (s.setProc c { s.proc c with
      ofile := fun _ => none, vma := fun _ => none, state := .zombie }) := by
  have hoff := h.off_queue (q := c) (by simp [hrun])
  have hchan := h.chan_none (q := c) (by simp [hrun]) (by simp [hrun])
  refine h.set rfl rfl rfl h.rq ?_ (fun _ _ => ⟨rfl, rfl⟩) ?_ (by rintro ⟨⟩) ?_
  · simp [Queue, State.setProc, hoff]
  · exact ⟨(h.slot c).kstack, (h.slot c).thread, fun _ _ => rfl, fun hne => absurd hchan hne⟩
  · rw [hrun]
    rintro ⟨⟩

theorem Inv.kill (h : Inv s) (hfree : s.lock q = none)
    (htame : (s.proc q).state = .unused → ∃ c, (s.phase c).slot = some q) :
    Inv (s.setProc q { s.proc q with killed := true }) := by
  refine h.edit rfl { h.slot q with } ?_
  intro hu hnone
  obtain ⟨c, hc⟩ := htame hu
  exact absurd hc (h.alone hfree hnone c)

theorem setPriority_onRunq (rq : Runq) (q : Slot) (priority : Int) :
    (SchedO1.setPriority rq q priority).onRunq = rq.onRunq := by
  simp only [SchedO1.setPriority]
  split
  · next hq => simp [← hq]
  · rfl

theorem Inv.setRq {rq : Runq} (h : Inv s) (hrq : SchedO1.Ok rq) (hon : rq.onRunq = s.rq.onRunq) :
    Inv { s with rq := rq } := by
  refine { h with rq := hrq, queue := fun r => ?_ }
  rw [hon]
  exact h.queue r

theorem schedTick_onRunq {rq rq' : Runq} {r : Option Slot} (h : SchedO1.Ok rq)
    (hs : SchedO1.schedTick rq r = some rq') : rq'.onRunq = rq.onRunq := by
  obtain ⟨⟨B, hB⟩, -⟩ := h
  obtain ⟨rq1, B1, hrun, -, -, hon⟩ := hB.tickQueue
  rw [SchedO1.schedTick, hrun, bind_eq_bind, bind_some] at hs
  cases r with
  | none | some x =>
    cases hs
    exact hon

theorem Inv.pick {rq : Runq} (h : Inv s) (hs : runqPick s.rq = some (rq, some q)) :
    Inv { s with rq := rq, picked := update s.picked q (s.picked q + 1) } := by
  obtain ⟨B, hB⟩ := h.rq.1
  rcases hB.pick with ⟨hpick, -⟩ | ⟨i, q', rest, -, -, -, hon, hpick⟩
  · rw [hpick] at hs
    cases hs
  rw [hpick] at hs
  cases hs
  have hst : (s.proc q).state = .runnable := by
    by_contra hne
    rw [(h.off_queue hne).1] at hon
    cases hon
  have hnone : s.picked q = 0 := by
    have hq := h.queue q
    rw [Queue, if_pos hst, hon] at hq
    simpa using hq
  refine h.set (update_eq_self q s.proc).symm rfl rfl (h.rq.remove q) ?_ ?_ (h.slot q)
    (h.fresh q) id
  · rw [Queue, if_pos hst]
    exact .inr ⟨by simp, by simp [hnone]⟩
  · intro r hr
    simp [hr]

theorem Inv.picked (h : Inv s) (hp : s.picked q ≠ 0) :
    (s.proc q).state = .runnable ∧ s.rq.onRunq q = false ∧ s.picked q = 1 := by
  have hq := h.queue q
  by_cases hst : (s.proc q).state = .runnable
  · rw [Queue, if_pos hst] at hq
    rcases hq with ⟨-, h0⟩ | ⟨hoff, h1⟩
    · exact absurd h0 hp
    · exact ⟨hst, hoff, h1⟩
  · exact absurd (h.off_queue hst).2 hp

theorem Inv.dispatch (h : Inv s) (hp : s.picked q ≠ 0) : Inv { s.setProc q { s.proc q with
        state := .running
        chan := if (s.proc q).resume = .sleep then none else (s.proc q).chan } with
      picked := update s.picked q (s.picked q - 1)
      rq := { s.rq with waitTime := update s.rq.waitTime q 0 } } := by
  obtain ⟨hst, hoff, hone⟩ := h.picked hp
  refine h.set rfl rfl rfl (h.rq.clearWait hoff) ?_ ?_ ?_ (by rintro ⟨⟩) ?_
  · simp [Queue, hoff, hone]
  · intro r hr
    simp [hr]
  · refine ⟨(h.slot q).kstack, (h.slot q).thread, by rintro ⟨⟩, fun hch => ?_⟩
    by_cases hr : (s.proc q).resume = .sleep
    · simp [hr] at hch
    · simp only [if_neg hr] at hch
      exact absurd ((h.slot q).chan hch).2 hr
  · rw [hst]
    rintro ⟨⟩

/-! ### Runs -/

variable {L : Layout}

theorem Inv.step {op : Op φ ν} (h : Inv s) (htame : Tame s op) (hs : step L s op = some s') :
    Inv s' := by
  cases op with
  | alloc c np k =>
    obtain ⟨⟨hready, hfree, hst⟩, ⟨⟩⟩ := ite_none_right_eq_some.mp hs
    exact h.alloc hready hfree hst htame
  | allocFails c np table =>
    obtain ⟨⟨-, -, hst⟩, ⟨⟩⟩ := ite_none_right_eq_some.mp hs
    have hn := h.number hst
    cases table with
    | false => exact hn
    | true =>
      have hself : (FreshSlots.number s np).proc np = { s.proc np with pid := s.nextpid } :=
        update_self ..
      have hst' : ((FreshSlots.number s np).proc np).state = .unused := by
        rw [hself]
        exact hst
      have hf := hn.fresh np hst' htame
      exact hn.freeproc (by simp [hst']) hf.pthread hf.ofile
  | forkDone c =>
    exact h.forkDone (of_guard hs)
  | forkFails c =>
    exact h.forkFails (of_guard hs)
  | cloneSetup c =>
    exact h.cloneSetup (of_guard hs)
  | cloneDone c =>
    exact h.cloneDone (of_guard hs)
  | setFile c fd f | setArea c i v =>
    obtain ⟨⟨hrun, -⟩, ⟨⟩⟩ := ite_none_right_eq_some.mp hs
    have hslot := h.slot c
    refine h.edit rfl ⟨hslot.kstack, hslot.thread, ?_, hslot.chan⟩ ?_
    · rw [hrun]
      rintro ⟨⟩
    · rw [hrun]
      rintro ⟨⟩
  | exit c =>
    obtain ⟨⟨⟨hrun, -⟩, -⟩, ⟨⟩⟩ := ite_none_right_eq_some.mp hs
    refine (h.reparent c).zombie ?_
    simp only [FreshSlots.reparent]
    split <;> exact hrun
  | wait c np =>
    obtain ⟨⟨-, hparent, hst⟩, ⟨⟩⟩ := ite_none_right_eq_some.mp hs
    refine h.freeproc (by simp [hst]) ?_ ((h.slot np).zombie hst)
    by_contra hne
    rw [(h.slot np).thread hne] at hparent
    cases hparent
  | join c t =>
    obtain ⟨⟨-, -, -, hpage⟩, -⟩ := ite_none_right_eq_some.mp hs
    rw [(h.slot t).kstack] at hpage
    exact absurd hpage.2.2 (not_lt.mpr (Threads.phystop_le_kstack t))
  | kill c q pid =>
    obtain ⟨⟨-, hfree, -⟩, ⟨⟩⟩ := ite_none_right_eq_some.mp hs
    have hk := h.kill hfree htame
    have hself : (s.setProc q { s.proc q with killed := true }).proc q =
        { s.proc q with killed := true } := update_self ..
    split
    · next hst =>
      have hslot := hk.slot q
      have hst' : ((s.setProc q { s.proc q with killed := true }).proc q).state = .sleeping := by
        rw [hself]
        exact hst
      refine hk.wake (by simp [hst']) (by simp [hst']) rfl ?_
      refine ⟨hslot.kstack, hslot.thread, by rintro ⟨⟩, fun hch => ⟨.inr rfl, ?_⟩⟩
      exact (hslot.chan hch).2
    · exact hk
  | setPriority c q pid priority =>
    cases of_guard hs
    exact h.setRq (h.rq.setPriority q priority) (setPriority_onRunq s.rq q priority)
  | sleep c ch =>
    obtain ⟨⟨hrun, -⟩, ⟨⟩⟩ := ite_none_right_eq_some.mp hs
    have hoff := h.off_queue (q := c) (by simp [hrun])
    refine h.set rfl rfl rfl h.rq ?_ (fun _ _ => ⟨rfl, rfl⟩) ?_ (by rintro ⟨⟩) ?_
    · simp [Queue, State.setProc, hoff]
    · exact ⟨(h.slot c).kstack, (h.slot c).thread, by rintro ⟨⟩, fun _ => ⟨.inl rfl, rfl⟩⟩
    · rw [hrun]
      rintro ⟨⟩
  | yield c =>
    obtain ⟨⟨hrun, -⟩, ⟨⟩⟩ := ite_none_right_eq_some.mp hs
    have hchan := h.chan_none (q := c) (by simp [hrun]) (by simp [hrun])
    have hw := h.wake (q := c) (p := { s.proc c with resume := .yield, state := .runnable })
      (by simp [hrun]) (by simp [hrun]) rfl
      ⟨(h.slot c).kstack, (h.slot c).thread, by rintro ⟨⟩, fun hne => absurd hchan hne⟩
    simpa [makeRunnable, State.setProc] using hw
  | wakeup q ch =>
    obtain ⟨⟨-, hst, -⟩, ⟨⟩⟩ := ite_none_right_eq_some.mp hs
    have hslot := h.slot q
    refine h.wake (by simp [hst]) (by simp [hst]) rfl ?_
    refine ⟨hslot.kstack, hslot.thread, by rintro ⟨⟩, fun hch => ⟨.inr rfl, ?_⟩⟩
    exact (hslot.chan hch).2
  | pick =>
    simp only [FreshSlots.step] at hs
    split at hs
    · next hpick =>
      cases hs
      exact h.pick hpick
    · cases hs
  | dispatch q =>
    obtain ⟨⟨hp, -⟩, hs⟩ := ite_none_right_eq_some.mp hs
    rw [if_pos (h.picked hp).1] at hs
    cases hs
    exact h.dispatch hp
  | tick r =>
    obtain ⟨hrun, hs⟩ := ite_none_right_eq_some.mp hs
    obtain ⟨rq, hrq, rfl⟩ := map_eq_some_iff.mp hs
    refine h.setRq (h.rq.schedTick (fun x hx => ?_) hrq) (schedTick_onRunq h.rq hrq)
    exact (h.off_queue (by simp [hrun x hx])).1

theorem inv_boot (φ ν : Type) : Inv (boot φ ν) := by
  let t : State φ ν :=
    { proc := update (emptySlot φ ν) initproc { emptySlot φ ν initproc with pid := 1 }
      rq := allocFields SchedO1.boot initproc
      lock := fun _ => none
      phase := fun _ => .idle
      picked := fun _ => 0
      nextpid := 2 }
  have hempty : ∀ q, t.proc q = { emptySlot φ ν q with pid := (t.proc q).pid } := by
    intro q
    obtain rfl | hq := eq_or_ne q initproc
    · simp [t]
    · simp [t, hq, emptySlot]
  have hslot : ∀ q, SlotOk q (t.proc q) := by
    intro q
    rw [hempty q]
    exact ⟨rfl, fun _ => rfl, fun _ _ => rfl, fun hne => absurd rfl hne⟩
  have hok : SchedO1.Ok t.rq :=
    SchedO1.Ok.allocFields ⟨⟨_, SchedO1.boot_inv⟩, fun _ hp => by cases hp⟩ rfl
  have hbase : Inv t := by
    refine ⟨hok, ?_, hslot, ?_, ?_, ?_, ?_⟩
    · intro q
      rw [hempty q]
      exact ⟨rfl, rfl⟩
    · intro q _ _
      rw [hempty q]
      exact ⟨rfl, rfl, rfl, fun _ => rfl⟩
    · intro l c
      simp [t, Phase.locks]
    · rintro c q ⟨⟩
    · rintro c c' q ⟨⟩
  have hst : (t.proc initproc).state ≠ .runnable := by
    rw [hempty initproc]
    simp [emptySlot]
  obtain ⟨hq, hother⟩ := Queue.enqueue hbase hst
  refine hbase.put (p := { t.proc initproc with state := .runnable }) rfl (hok.enqueue initproc) hq
    hother ?_ (by rintro ⟨⟩) (fun _ _ _ => id) hbase.locks (by rintro c ⟨⟩) (fun _ _ _ => id)
    (by rintro c c' ⟨⟩)
  rw [hempty initproc]
  exact ⟨rfl, fun _ => rfl, by rintro ⟨⟩, fun hne => absurd rfl hne⟩

end Invariant

/-! ## Fresh processes -/

/-- What a slot that `allocproc` returns should look like. -/
structure Clean {φ ν : Type} (s : State φ ν) (q : Slot) : Prop where
  killed : (s.proc q).killed = false
  chan : (s.proc q).chan = none
  pthread : (s.proc q).pthread = none
  onRunq : s.rq.onRunq q = false
  ofile : ∀ fd, (s.proc q).ofile fd = none
  vma : ∀ i, (s.proc q).vma i = none

theorem Inv.eq_emptySlot {φ ν : Type} {s : State φ ν} {q : Slot} (h : Inv s)
    (hst : (s.proc q).state = .unused) (hwindow : ∀ c, s.phase c ≠ .window q) :
    s.proc q = { emptySlot φ ν q with
      pid := (s.proc q).pid, resume := (s.proc q).resume, vma := (s.proc q).vma } := by
  have hf := h.fresh q hst hwindow
  have hchan := h.chan_none (q := q) (by simp [hst]) (by simp [hst])
  exact Proc.ext hst rfl hf.parent hf.pthread hchan hf.killed rfl (h.slot q).kstack
    (funext hf.ofile) rfl

/-- In a run in which no `kill` finds a free slot and no `allocproc` takes a slot out of the
hands of a `clone`, every slot that `allocproc` returns is as if it had never been used. -/
theorem allocproc_returns_fresh (φ ν : Type) (L : Layout) (ops : List (Op φ ν)) (s s' : State φ ν)
    (c np : Slot) (k : Kind) (htame : Along (step L) Tame (boot φ ν) ops)
    (hrun : run (step L) (boot φ ν) ops = some s) (hlast : Tame s (.alloc c np k))
    (hs : step L s (.alloc c np k) = some s') :
    Clean s' np ∧ s'.proc np = { emptySlot φ ν np with pid := s.nextpid } ∧
      s'.rq.priority np = 10 ∧ s'.rq.dynPriority np = 10 := by
  have hinv : Inv s := along_invariant (fun _ _ _ hi hgood hstep => hi.step hgood hstep) ops
    (boot φ ν) s (inv_boot φ ν) htame hrun
  obtain ⟨⟨-, -, hst⟩, ⟨⟩⟩ := Option.ite_none_right_eq_some.mp hs
  have hrq : (allocFields s.rq np).onRunq np = false := (hinv.off_queue (by simp [hst])).1
  have hproc : (allocproc s np).proc np = { emptySlot φ ν np with pid := s.nextpid } := by
    simp only [allocproc, number, State.setProc, update_self]
    rw [hinv.eq_emptySlot hst hlast]
    rfl
  refine ⟨⟨?_, ?_, ?_, hrq, ?_, ?_⟩, hproc, update_self .., update_self ..⟩
  · exact congrArg Proc.killed hproc
  · exact congrArg Proc.chan hproc
  · exact congrArg Proc.pthread hproc
  · exact congrFun (congrArg Proc.ofile hproc)
  · exact congrFun (congrArg Proc.vma hproc)

def reuse : List (Op Unit Unit) :=
  [.pick, .dispatch 0, .setFile 0 ⟨0, Nat.succ_pos _⟩ (some ()),
    .setArea 0 ⟨0, Nat.succ_pos _⟩ (some ()),
    .alloc 0 1 .fork, .forkDone 0, .kill 0 1 2, .setPriority 0 1 2 3, .pick, .dispatch 1, .exit 1,
    .wait 0 1]

theorem allocproc_returns_fresh_reuse : ∃ s s' : State Unit Unit,
    run (step ⟨KERNBASE, Nat.le_refl _⟩) (boot Unit Unit) reuse = some s ∧
      step ⟨KERNBASE, Nat.le_refl _⟩ s (.alloc 0 1 .fork) = some s' ∧ Clean s' 1 := by
  obtain ⟨s, hrun, hsome, hlast⟩ := run_test (step ⟨KERNBASE, Nat.le_refl _⟩)
    (boot Unit Unit) reuse
    (fun s => (step ⟨KERNBASE, Nat.le_refl _⟩ s (.alloc 0 1 .fork)).isSome ∧
      Tame s (.alloc 0 1 .fork)) (by decide +kernel)
  obtain ⟨s', hs⟩ := Option.isSome_iff_exists.mp hsome
  exact ⟨s, s', hrun, hs, (allocproc_returns_fresh Unit Unit _ reuse s s' 0 1 .fork
    (by decide +kernel)
    hrun hlast hs).1⟩

/-- `init` calls `kill(0)`, which finds the free slot 1, and then `fork`. -/
theorem killed_before_birth : ∃ s s' : State Unit Unit,
    run (step ⟨KERNBASE, Nat.le_refl _⟩) (boot Unit Unit)
      [.pick, .dispatch 0, .kill 0 1 0] = some s ∧
      step ⟨KERNBASE, Nat.le_refl _⟩ s (.alloc 0 1 .fork) = some s' ∧ ¬ Clean s' 1 := by
  obtain ⟨s, hrun, hkilled⟩ := run_test (step ⟨KERNBASE, Nat.le_refl _⟩) (boot Unit Unit)
    [.pick, .dispatch 0, .kill 0 1 0]
    (fun s => (step ⟨KERNBASE, Nat.le_refl _⟩ s (.alloc 0 1 .fork)).map
      (fun s' => (s'.proc 1).killed) = some true) (by decide +kernel)
  obtain ⟨s', hs, hk⟩ := Option.map_eq_some_iff.mp hkilled
  refine ⟨s, s', hrun, hs, fun hclean => ?_⟩
  rw [hclean.killed] at hk
  cases hk

end BirdOS.FreshSlots
