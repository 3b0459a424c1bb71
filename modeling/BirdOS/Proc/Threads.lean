import BirdOS.Lib.Tally
import BirdOS.Mm.Vm
import BirdOS.Proc.Allocproc

/-! # Processes, threads and their page tables (`proc.c`, `exec.c`)

The process table with what `allocproc`, `fork`, `clone`, `exec`, `exit`, `wait` and `join`
do to trapframes, page tables and kernel stacks.  A page that `kalloc` returns has a number
of its own, never used again, so that a stale pointer is equal to no page in use; `tables`
gives for every page table in memory the page that it maps at `TRAPFRAME`.

`free` counts the free physical pages.  What user memory takes and gives back in `fork`,
`exec` and `wait` is left open: the label says how many pages are free afterwards. -/

namespace BirdOS.Threads

open Machine Function Option
open Allocproc (Kind)
open Kalloc (Layout IsPage)
open Vm (MAXVA)

def TRAMPOLINE : Nat := MAXVA - PGSIZE

def KSTACK (q : Slot) : Nat := TRAMPOLINE - (q + 1) * 2 * PGSIZE

inductive ProcState where
  | unused
  /-- Still `UNUSED`, but taken by a call of `fork` or `clone`. -/
  | building (c : Slot) (k : Kind)
  /-- `SLEEPING`, `RUNNABLE` or `RUNNING`. -/
  | live
  | zombie
  deriving DecidableEq

structure Proc where
  state : ProcState
  pid : Nat
  parent : Option Slot
  /-- The process that has made this thread. -/
  pthread : Option Slot
  ustack : Nat
  kstack : Nat
  trapframe : Option Nat
  alarm_trapframe : Option Nat
  pagetable : Option Nat

structure State where
  procs : Slot → Proc
  tables : Nat → Option Nat
  next : Nat
  free : Nat
  nextpid : Nat
  initproc : Slot

def State.setProc (s : State) (q : Slot) (p : Proc) : State :=
  { s with procs := update s.procs q p }

def emptySlot (q : Slot) : Proc :=
  ⟨.unused, 0, none, none, 0, KSTACK q, none, none, none⟩

def userinit (free : Nat) : State where
  procs := update emptySlot 0
    ⟨.live, 1, none, none, 0, KSTACK 0, some 0, some 1, some 2⟩
  tables := update (fun _ => none) 2 (some 0)
  next := 3
  free := free
  nextpid := 2
  initproc := 0

/-! ## The calls -/

def Ready (s : State) (c : Slot) : Prop :=
  (s.procs c).state = .live ∧
    ∀ np, (s.procs np).state ≠ .building c .fork ∧ (s.procs np).state ≠ .building c .clone

instance (s : State) (c : Slot) : Decidable (Ready s c) := by
  dsimp only [Ready]
  infer_instance

/-- The last page of the table is shared by the entries for `TRAMPOLINE` and `TRAPFRAME`. -/
def allocproc (s : State) (c np : Slot) (k : Kind) : Option State :=
  if Ready s c ∧ (s.procs np).state = .unused ∧ 5 ≤ s.free then
    some { s with
      procs := update s.procs np
        { s.procs np with
          state := .building c k
          pid := s.nextpid
          trapframe := some s.next
          alarm_trapframe := some (s.next + 1)
          pagetable := some (s.next + 2) }
      tables := update s.tables (s.next + 2) (some s.next)
      next := s.next + 3
      free := s.free - 5
      nextpid := s.nextpid + 1 }
  else none

def freeTable (tables : Nat → Option Nat) : Option Nat → Nat → Option Nat
  | none => tables
  | some t => update tables t none

def freeproc (s : State) (np : Slot) (free : Nat) : State :=
  { s.setProc np { s.procs np with
      state := .unused, pid := 0, parent := none, trapframe := none, alarm_trapframe := none,
      pagetable := none } with
    tables := freeTable s.tables (s.procs np).pagetable
    free := free }

/-- When the second trapframe fails, the first is not given back. -/
def allocprocFails (s : State) (c np : Slot) : Option State :=
  if Ready s c ∧ (s.procs np).state = .unused then
    let p := { s.procs np with pid := s.nextpid }
    let s := { s with nextpid := s.nextpid + 1 }
    if s.free = 0 then some (s.setProc np { p with trapframe := none })
    else if s.free = 1 then
      some { s.setProc np { p with trapframe := some s.next, alarm_trapframe := none } with
        next := s.next + 1
        free := 0 }
    else if s.free < 5 then
      -- `proc_pagetable` fails and gives its own pages back
      some { freeproc (s.setProc np { p with
          trapframe := some s.next
          alarm_trapframe := some (s.next + 1)
          pagetable := none }) np s.free with next := s.next + 2 }
    else none
  else none

def forkDone (s : State) (np : Slot) (free : Nat) : Option State :=
  match (s.procs np).state with
  | .building c .fork =>
    some { s.setProc np { s.procs np with state := .live, parent := some c } with free := free }
  | _ => none

def forkFails (s : State) (np : Slot) (free : Nat) : Option State :=
  match (s.procs np).state with
  | .building _ .fork => some (freeproc s np free)
  | _ => none

def cloneDone (s : State) (np : Slot) (stack : Nat) : Option State :=
  match (s.procs np).state with
  | .building c .clone =>
    if s.free = 0 then none
    else
      some { s.setProc np { s.procs np with
          state := .live
          pagetable := (s.procs c).pagetable
          pthread := some c
          ustack := stack
          parent := none } with
        next := s.next + 1
        free := s.free - 1 }
  | _ => none

def exec (s : State) (c : Slot) (free : Nat) : Option State :=
  if Ready s c then
    match (s.procs c).trapframe with
    | some tf =>
      some { s.setProc c { s.procs c with pagetable := some s.next } with
        tables := freeTable (update s.tables s.next (some tf)) (s.procs c).pagetable
        next := s.next + 1
        free := free }
    | none => none
  else none

def originalParent (p : Proc) : Option Slot :=
  if p.parent = none ∧ p.pthread ≠ none then p.pthread else p.parent

def reparent (s : State) (c : Slot) : State :=
  { s with procs := fun q =>
      if (s.procs q).parent = some c then { s.procs q with parent := some s.initproc }
      else s.procs q }

def exit (s : State) (c : Slot) : Option State :=
  if Ready s c ∧ c ≠ s.initproc ∧ originalParent (s.procs c) ≠ none then
    let s := reparent s c
    some (s.setProc c { s.procs c with state := .zombie })
  else none

def wait (s : State) (p np : Slot) (free : Nat) : Option State :=
  if Ready s p ∧ (s.procs np).parent = some p ∧ (s.procs np).state = .zombie then
    some (freeproc s np free)
  else none

def kfree (L : Layout) (free pa : Nat) : Option Nat :=
  if IsPage L pa then some (free + 1) else none

inductive Joined where
  | panics
  | returns (pid stack : Nat) (s : State)
  | fails
  | sleeps

def findThread (s : State) (c : Slot) : Option Slot :=
  (List.finRange NPROC).find? fun t =>
    decide ((s.procs t).pthread = some c ∧ (s.procs t).state = .zombie)

def join (L : Layout) (s : State) (c : Slot) (killed : Bool) : Joined :=
  match findThread s c with
  | some t =>
    match kfree L s.free (s.procs t).kstack with
    | none => .panics
    | some free =>
      .returns (s.procs t).pid (s.procs t).ustack
        { s.setProc t { s.procs t with
            kstack := 0, state := .unused, pid := 0, parent := none, pthread := none } with
          free := free }
  | none =>
    if (∃ t, (s.procs t).pthread = some c) ∧ killed = false then .sleeps else .fails

inductive Op where
  | alloc (c np : Slot) (k : Kind)
  | allocFails (c np : Slot)
  | forkDone (np : Slot) (free : Nat)
  | forkFails (np : Slot) (free : Nat)
  | cloneDone (np : Slot) (stack : Nat)
  | exec (c : Slot) (free : Nat)
  | exit (c : Slot)
  | wait (p np : Slot) (free : Nat)
  | join (c : Slot) (killed : Bool)

def step (L : Layout) (s : State) : Op → Option State
  | .alloc c np k => allocproc s c np k
  | .allocFails c np => allocprocFails s c np
  | .forkDone np free => forkDone s np free
  | .forkFails np free => forkFails s np free
  | .cloneDone np stack => cloneDone s np stack
  | .exec c free => exec s c free
  | .exit c => exit s c
  | .wait p np free => wait s p np free
  | .join c killed =>
    if Ready s c then
      match join L s c killed with
      | .panics => none
      | .returns _ _ s => some s
      | _ => some s
    else none

/-! ## What holds in every run -/

variable {p : Proc} {q : Slot} {op : Op}

section Source
variable {L : Layout} {s s' : State} {c np : Slot}

/-- The slot is free, tables and other slots are as before, and the memory too unless one page
was left. -/
structure Failed (s s' : State) (np : Slot) (p : Proc) : Prop where
  procs : s'.procs = update s.procs np p
  state : p.state = .unused
  kstack : p.kstack = (s.procs np).kstack
  pthread : p.pthread = (s.procs np).pthread
  pagetable : ∀ t, p.pagetable = some t → (s.procs np).pagetable = some t
  tables : s'.tables = s.tables
  next : s.next ≤ s'.next
  free : s.free ≠ 1 → s'.free = s.free

theorem allocprocFails_spec (h : allocprocFails s c np = some s') :
    (s.procs np).state = .unused ∧ ∃ p, Failed s s' np p := by
  simp only [allocprocFails, ite_none_right_eq_some] at h
  obtain ⟨⟨-, hu⟩, h⟩ := h
  refine ⟨hu, ?_⟩
  split at h
  · cases h
    exact ⟨_, rfl, hu, rfl, rfl, fun _ ht => ht, rfl, le_rfl, fun _ => rfl⟩
  split at h
  · next hone =>
    cases h
    exact ⟨_, rfl, hu, rfl, rfl, fun _ ht => ht, rfl, Nat.le_succ _, fun hne => absurd hone hne⟩
  split at h
  · cases h
    refine ⟨_, update_idem _ _ _, rfl, ?_, ?_, ?_, ?_, Nat.le_add_right _ 2, fun _ => rfl⟩
    all_goals simp [freeproc, State.setProc, freeTable]
  · cases h

structure SlotOk (q : Slot) (p : Proc) : Prop where
  kstack : p.kstack = KSTACK q
  pthread : p.pthread ≠ none → p.parent = none ∧ (p.state = .live ∨ p.state = .zombie)

def Slots (s : State) : Prop := ∀ q, SlotOk q (s.procs q)

theorem slots_userinit (free : Nat) : Slots (userinit free) := by
  intro q
  obtain rfl | hq := eq_or_ne q 0
  · exact ⟨rfl, fun h => absurd rfl h⟩
  · simp only [userinit, update_of_ne hq]
    exact ⟨rfl, fun h => absurd rfl h⟩

theorem Slots.set (h : Slots s) (hp : SlotOk np p) : ∀ q, SlotOk q (update s.procs np p q) := by
  intro q
  obtain rfl | hq := eq_or_ne q np
  · rw [update_self]
    exact hp
  · rw [update_of_ne hq]
    exact h q

theorem Slots.pthread_none (h : Slots s) (hl : (s.procs q).state ≠ .live)
    (hz : (s.procs q).state ≠ .zombie) : (s.procs q).pthread = none := by
  by_contra hne
  exact ((h q).pthread hne).2.elim hl hz

theorem phystop_le_kstack (q : Slot) : PHYSTOP ≤ KSTACK q := by
  have hq : q.val < 64 := q.isLt
  unfold KSTACK TRAMPOLINE MAXVA PGSIZE PHYSTOP KERNBASE
  omega

theorem kfree_kstack (free : Nat) (q : Slot) : kfree L free (KSTACK q) = none :=
  if_neg fun h => not_lt.mpr (phystop_le_kstack q) h.2.2

theorem findThread_none : findThread s c = none ↔
    ∀ t, (s.procs t).pthread = some c → (s.procs t).state ≠ .zombie := by
  simp [findThread]

theorem Slots.join_unchanged (h : Slots s) {killed : Bool}
    (hs : step L s (.join c killed) = some s') : s' = s := by
  have hs := of_guard hs
  unfold join at hs
  cases hf : findThread s c with
  | some t =>
    simp only [hf, (h t).kstack, kfree_kstack] at hs
    cases hs
  | none =>
    simp only [hf] at hs
    split at hs
    · cases hs
    · next heq =>
      split at heq <;> cases heq
    · exact (Option.some.inj hs).symm

theorem Slots.freeproc (h : Slots s) (free : Nat) (hnone : (s.procs np).pthread = none) :
    Slots (freeproc s np free) :=
  h.set ⟨(h np).kstack, fun hne => absurd hnone hne⟩

theorem Slots.reparent (h : Slots s) (c : Slot) : Slots (reparent s c) := by
  intro q
  simp only [Threads.reparent]
  split
  · next hp =>
    refine ⟨(h q).kstack, fun hne => ?_⟩
    rw [((h q).pthread hne).1] at hp
    cases hp
  · exact h q

theorem Slots.step (h : Slots s) (hs : step L s op = some s') : Slots s' := by
  cases op with
  | alloc c np k =>
    simp only [Threads.step, allocproc, ite_none_right_eq_some] at hs
    obtain ⟨⟨-, hu, -⟩, hs⟩ := hs
    cases hs
    have hnone := h.pthread_none (q := np) (by rw [hu]; simp) (by rw [hu]; simp)
    exact h.set ⟨(h np).kstack, fun hne => absurd hnone hne⟩
  | allocFails c np =>
    obtain ⟨hu, p, hp⟩ := allocprocFails_spec hs
    have hnone := h.pthread_none (q := np) (by rw [hu]; simp) (by rw [hu]; simp)
    intro q
    rw [hp.procs]
    refine h.set ⟨hp.kstack.trans (h np).kstack, fun hne => absurd ?_ hne⟩ q
    rw [hp.pthread, hnone]
  | forkDone np free =>
    simp only [Threads.step, Threads.forkDone] at hs
    split at hs
    · next c hb =>
      cases hs
      have hnone := h.pthread_none (q := np) (by rw [hb]; simp) (by rw [hb]; simp)
      exact h.set ⟨(h np).kstack, fun hne => absurd hnone hne⟩
    · cases hs
  | forkFails np free =>
    simp only [Threads.step, Threads.forkFails] at hs
    split at hs
    · next c hb =>
      cases hs
      exact h.freeproc free (h.pthread_none (by rw [hb]; simp) (by rw [hb]; simp))
    · cases hs
  | cloneDone np stack =>
    simp only [Threads.step, Threads.cloneDone] at hs
    split at hs
    · split at hs
      · cases hs
      · cases hs
        exact h.set ⟨(h np).kstack, fun _ => ⟨rfl, .inl rfl⟩⟩
    · cases hs
  | exec c free =>
    simp only [Threads.step, Threads.exec, ite_none_right_eq_some] at hs
    obtain ⟨-, hs⟩ := hs
    split at hs
    · cases hs
      exact h.set ⟨(h c).kstack, (h c).pthread⟩
    · cases hs
  | exit c =>
    simp only [Threads.step, Threads.exit, ite_none_right_eq_some] at hs
    obtain ⟨-, hs⟩ := hs
    cases hs
    have hr := h.reparent c
    exact hr.set ⟨(hr c).kstack, fun hne => ⟨((hr c).pthread hne).1, .inr rfl⟩⟩
  | wait p np free =>
    simp only [Threads.step, Threads.wait, ite_none_right_eq_some] at hs
    obtain ⟨⟨-, hparent, -⟩, hs⟩ := hs
    cases hs
    refine h.freeproc free ?_
    by_contra hne
    rw [((h np).pthread hne).1] at hparent
    cases hparent
  | join c killed => rw [h.join_unchanged hs]; exact h

end Source

/-! ## Page tables -/

/-- Every live process has its table in memory, with its own trapframe. -/
structure OwnTables (s : State) : Prop where
  maps : ∀ q, (s.procs q).state = .live → ∃ t tf,
    (s.procs q).pagetable = some t ∧ (s.procs q).trapframe = some tf ∧ s.tables t = some tf
  used : ∀ t, s.tables t = none → ∀ q, (s.procs q).state = .live → (s.procs q).pagetable ≠ some t

def NoThread (_ : State) : Op → Prop
  | .cloneDone _ _ => False
  | _ => True

structure Tables (s : State) : Prop where
  own : ∀ q, (s.procs q).state ≠ .unused → ∃ t tf,
    (s.procs q).pagetable = some t ∧ (s.procs q).trapframe = some tf ∧ s.tables t = some tf
  inj : ∀ q q' t, (s.procs q).pagetable = some t → (s.procs q').pagetable = some t → q = q'
  fresh : ∀ q t, (s.procs q).pagetable = some t → t < s.next

section Tables
variable {L : Layout} {s s' : State} {c np : Slot}

theorem tables_userinit (free : Nat) : Tables (userinit free) := by
  have hinit : ∀ q t, ((userinit free).procs q).pagetable = some t → q = 0 ∧ t = 2 := by
    intro q t ht
    obtain rfl | hq := eq_or_ne q 0
    · exact ⟨rfl, (Option.some.inj ht).symm⟩
    · simp [userinit, hq, emptySlot] at ht
  refine ⟨?_, ?_, ?_⟩
  · intro q hne
    obtain rfl | hq := eq_or_ne q 0
    · exact ⟨2, 0, rfl, rfl, rfl⟩
    · simp [userinit, hq, emptySlot] at hne
  · intro q q' t ht ht'
    rw [(hinit q t ht).1, (hinit q' t ht').1]
  · intro q t ht
    rw [(hinit q t ht).2]
    exact Nat.lt_succ_self 2

section
variable (h : Tables s)
include h

theorem Tables.ownTables : OwnTables s := by
  have hlive : ∀ {q}, (s.procs q).state = .live → (s.procs q).state ≠ .unused := by
    intro q hq
    rw [hq]
    simp
  refine ⟨fun q hq => h.own q (hlive hq), ?_⟩
  intro t ht q hq hpt
  obtain ⟨t', tf, hpt', -, hmap⟩ := h.own q (hlive hq)
  rw [hpt] at hpt'
  cases hpt'
  rw [ht] at hmap
  cases hmap

theorem Tables.set (hprocs : s'.procs = update s.procs q p)
    (htables : ∀ q' t, q' ≠ q → (s.procs q').pagetable = some t → s'.tables t = s.tables t)
    (hown : p.state ≠ .unused → ∃ t tf,
      p.pagetable = some t ∧ p.trapframe = some tf ∧ s'.tables t = some tf)
    (hnew : ∀ t, p.pagetable = some t → (s.procs q).pagetable = some t ∨ (s.next ≤ t ∧ t < s'.next))
    (hnext : s.next ≤ s'.next) : Tables s' := by
  have hself : s'.procs q = p := by rw [hprocs, update_self]
  have hother : ∀ {q'}, q' ≠ q → s'.procs q' = s.procs q' := by
    intro q' hq
    rw [hprocs, update_of_ne hq]
  have hapart : ∀ {q' t}, q' ≠ q → (s.procs q').pagetable = some t → p.pagetable ≠ some t := by
    intro q' t hq ht hp
    rcases hnew t hp with hold | ⟨hge, -⟩
    · exact hq (h.inj q' q t ht hold)
    · have := h.fresh q' t ht
      omega
  refine ⟨?_, ?_, ?_⟩
  · intro q' hne
    by_cases hq : q' = q
    · subst hq
      rw [hself] at hne ⊢
      exact hown hne
    rw [hother hq] at hne ⊢
    obtain ⟨t, tf, ht, htf, hmap⟩ := h.own q' hne
    exact ⟨t, tf, ht, htf, (htables q' t hq ht).trans hmap⟩
  · intro a b t ha hb
    by_cases haq : a = q <;> by_cases hbq : b = q
    · rw [haq, hbq]
    · subst haq
      rw [hself] at ha
      rw [hother hbq] at hb
      exact absurd ha (hapart hbq hb)
    · subst hbq
      rw [hself] at hb
      rw [hother haq] at ha
      exact absurd hb (hapart haq ha)
    rw [hother haq] at ha
    rw [hother hbq] at hb
    exact h.inj a b t ha hb
  · intro a t ha
    obtain rfl | haq := eq_or_ne a q
    · rw [hself] at ha
      rcases hnew t ha with hold | ⟨-, hlt⟩
      · exact lt_of_lt_of_le (h.fresh a t hold) hnext
      · exact hlt
    · rw [hother haq] at ha
      exact lt_of_lt_of_le (h.fresh a t ha) hnext

theorem Tables.freeTable_other {T : Nat → Option Nat} {q' : Slot} {t : Nat}
    (hq : q' ≠ q) (ht : (s.procs q').pagetable = some t) :
    freeTable T (s.procs q).pagetable t = T t := by
  cases hold : (s.procs q).pagetable with
  | none => rfl
  | some old =>
    refine update_of_ne ?_ _ _
    rintro rfl
    exact hq (h.inj q' q t ht hold)

theorem Tables.freeproc (np : Slot) (free : Nat) : Tables (freeproc s np free) :=
  h.set rfl (fun _ _ hq ht => h.freeTable_other hq ht) (fun hne => absurd rfl hne)
    (fun _ ht => by cases ht) le_rfl

theorem Tables.alloc {k : Kind} (hs : allocproc s c np k = some s') : Tables s' := by
  simp only [allocproc, ite_none_right_eq_some] at hs
  obtain ⟨-, hs⟩ := hs
  cases hs
  refine h.set rfl ?_ ?_ ?_ (Nat.le_add_right _ 3)
  · intro q t _ ht
    have := h.fresh q t ht
    exact update_of_ne (by omega) _ _
  · exact fun _ => ⟨_, _, rfl, rfl, update_self ..⟩
  · intro t ht
    cases ht
    exact .inr ⟨Nat.le_add_right _ 2, Nat.lt_succ_self _⟩

theorem Tables.exec {free : Nat} (hs : exec s c free = some s') : Tables s' := by
  simp only [Threads.exec, ite_none_right_eq_some] at hs
  obtain ⟨-, hs⟩ := hs
  cases htf : (s.procs c).trapframe with
  | none =>
    simp only [htf] at hs
    cases hs
  | some tf =>
    simp only [htf] at hs
    cases hs
    refine h.set rfl ?_ ?_ ?_ (Nat.le_succ _)
    · intro q t hq ht
      have := h.fresh q t ht
      refine (h.freeTable_other hq ht).trans (update_of_ne (by omega) _ _)
    · refine fun _ => ⟨s.next, tf, rfl, rfl, ?_⟩
      -- the table that `exec` frees is an older page
      show freeTable (update s.tables s.next (some tf)) (s.procs c).pagetable s.next = some tf
      cases hold : (s.procs c).pagetable with
      | none => exact update_self ..
      | some old =>
        have := h.fresh c old hold
        exact (update_of_ne (by omega) _ _).trans (update_self ..)
    · intro t ht
      cases ht
      exact .inr ⟨le_rfl, Nat.lt_succ_self _⟩

theorem Tables.exit (hs : exit s c = some s') : Tables s' := by
  simp only [Threads.exit, ite_none_right_eq_some] at hs
  obtain ⟨hg, hs⟩ := hs
  cases hs
  have hsame : ∀ q, ((reparent s c).procs q).pagetable = (s.procs q).pagetable ∧
      ((reparent s c).procs q).trapframe = (s.procs q).trapframe ∧
      ((reparent s c).procs q).state = (s.procs q).state := by
    intro q
    simp only [reparent]
    split <;> exact ⟨rfl, rfl, rfl⟩
  have hr : Tables (reparent s c) := by
    refine ⟨?_, ?_, ?_⟩
    · intro q hne
      rw [(hsame q).2.2] at hne
      rw [(hsame q).1, (hsame q).2.1]
      exact h.own q hne
    · intro q q' t ht ht'
      rw [(hsame q).1] at ht
      rw [(hsame q').1] at ht'
      exact h.inj q q' t ht ht'
    · intro q t ht
      rw [(hsame q).1] at ht
      exact h.fresh q t ht
  refine hr.set rfl (fun _ _ _ _ => rfl) (fun _ => ?_) (fun _ ht => .inl ht) le_rfl
  refine hr.own c ?_
  rw [(hsame c).2.2, hg.1.1]
  simp

theorem Tables.step (hslots : Slots s) (hop : NoThread s op)
    (hs : step L s op = some s') : Tables s' := by
  cases op with
  | alloc c np k => exact h.alloc hs
  | allocFails c np =>
    obtain ⟨-, p, hp⟩ := allocprocFails_spec hs
    exact h.set hp.procs (fun _ t _ _ => congrFun hp.tables t) (fun hne => absurd hp.state hne)
      (fun t ht => .inl (hp.pagetable t ht)) hp.next
  | forkDone np free =>
    simp only [Threads.step, Threads.forkDone] at hs
    split at hs
    · next c hb =>
      cases hs
      refine h.set rfl (fun _ _ _ _ => rfl) (fun _ => h.own np ?_) (fun _ ht => .inl ht)
        le_rfl
      rw [hb]
      simp
    · cases hs
  | forkFails np free =>
    simp only [Threads.step, Threads.forkFails] at hs
    split at hs
    · cases hs
      exact h.freeproc np free
    · cases hs
  | cloneDone np stack => exact hop.elim
  | exec c free => exact h.exec hs
  | exit c => exact h.exit hs
  | wait p np free =>
    simp only [Threads.step, Threads.wait, ite_none_right_eq_some] at hs
    obtain ⟨-, hs⟩ := hs
    cases hs
    exact h.freeproc np free
  | join c killed =>
    rw [hslots.join_unchanged hs]
    exact h

end

end Tables

instance (s : State) (op : Op) : Decidable (NoThread s op) := by
  cases op <;> dsimp only [NoThread] <;> infer_instance

/-- As long as no `clone` starts a thread, page tables belong to the processes that use
them. -/
theorem page_tables_owned (L : Layout) (free : Nat) (ops : List Op) (s : State)
    (hgood : Along (step L) NoThread (userinit free) ops)
    (hrun : run (step L) (userinit free) ops = some s) : OwnTables s := by
  have hboth : Slots s ∧ Tables s :=
    along_invariant (I := fun s => Slots s ∧ Tables s)
      (fun _ _ _ hi hop hs => ⟨hi.1.step hs, hi.2.step hi.1 hop hs⟩) ops (userinit free) s
      ⟨slots_userinit free, tables_userinit free⟩ hgood hrun
  exact hboth.2.ownTables

def forkExecWait : List Op :=
  [.alloc 0 1 .fork, .forkDone 1 90, .exec 1 80, .exec 0 70, .exit 1, .join 0 false,
    .wait 0 1 85, .alloc 0 1 .fork]

theorem page_tables_owned_fork_exec :
    ∃ s, run (step ⟨KERNBASE, Nat.le_refl _⟩) (userinit 100) forkExecWait = some s ∧
      s.tables 2 = none ∧ OwnTables s := by
  obtain ⟨s, hrun, hfreed⟩ := run_test (step ⟨KERNBASE, Nat.le_refl _⟩) (userinit 100)
    forkExecWait (fun s => s.tables 2 = none) (by decide +kernel)
  exact ⟨s, hrun, hfreed, page_tables_owned _ 100 forkExecWait s (by decide +kernel) hrun⟩

def childClones : List Op :=
  [.alloc 0 1 .fork, .forkDone 1 90, .alloc 1 2 .clone, .cloneDone 2 0]

/-- The thread runs with a page table that maps its creator's trapframe; when the creator
calls `exec`, that table is freed under the thread. -/
theorem thread_loses_page_table :
    (∃ s, run (step ⟨KERNBASE, Nat.le_refl _⟩) (userinit 100) childClones = some s ∧
      (s.procs 2).state = .live ∧ (s.procs 2).pagetable = (s.procs 1).pagetable ∧
      (s.procs 2).pagetable.bind s.tables = (s.procs 1).trapframe ∧
      (s.procs 2).pagetable.bind s.tables ≠ (s.procs 2).trapframe ∧ ¬ OwnTables s) ∧
    ∃ s, run (step ⟨KERNBASE, Nat.le_refl _⟩) (userinit 100)
        (childClones ++ [.exec 1 80]) = some s ∧
      (s.procs 2).state = .live ∧ (s.procs 2).pagetable ≠ none ∧
      (s.procs 2).pagetable.bind s.tables = none ∧ ¬ OwnTables s := by
  have hbroken : ∀ s : State, (s.procs 2).state = .live →
      (s.procs 2).pagetable.bind s.tables ≠ (s.procs 2).trapframe → ¬ OwnTables s := by
    intro s hlive hne hown
    obtain ⟨t, tf, ht, htf, hmap⟩ := hown.maps 2 hlive
    rw [ht, htf] at hne
    exact hne hmap
  constructor
  · obtain ⟨s, hrun, hlive, hshare, hmap, hne⟩ := run_test
      (step ⟨KERNBASE, Nat.le_refl _⟩) (userinit 100) childClones
      (fun s => (s.procs 2).state = .live ∧ (s.procs 2).pagetable = (s.procs 1).pagetable ∧
        (s.procs 2).pagetable.bind s.tables = (s.procs 1).trapframe ∧
        (s.procs 2).pagetable.bind s.tables ≠ (s.procs 2).trapframe) (by decide +kernel)
    exact ⟨s, hrun, hlive, hshare, hmap, hne, hbroken s hlive hne⟩
  · obtain ⟨s, hrun, hlive, hsome, hnone, htf⟩ := run_test
      (step ⟨KERNBASE, Nat.le_refl _⟩) (userinit 100) (childClones ++ [.exec 1 80])
      (fun s => (s.procs 2).state = .live ∧ (s.procs 2).pagetable ≠ none ∧
        (s.procs 2).pagetable.bind s.tables = none ∧ (s.procs 2).trapframe ≠ none)
      (by decide +kernel)
    refine ⟨s, hrun, hlive, hsome, hnone, hbroken s hlive ?_⟩
    rw [hnone]
    exact fun h => htf h.symm

/-! ## Joining threads -/

def NoThreads (s : State) (c : Slot) : Prop :=
  ∀ q, (s.procs q).pthread ≠ some c ∧ (s.procs q).state ≠ .building c .clone

def NoExited (s : State) (c : Slot) : Prop :=
  ∀ t, (s.procs t).pthread = some c → (s.procs t).state ≠ .zombie

/-- `join` reaps an exited thread of the caller, and fails only if there is none.  A call that
sleeps scans the table again when one of the threads has exited, and must be right then. -/
def Joined.Right (L : Layout) (s : State) (c : Slot) : Joined → Prop
  | .panics => False
  | .returns pid stack s' => ∃ t, (s.procs t).pthread = some c ∧ (s.procs t).state = .zombie ∧
      pid = (s.procs t).pid ∧ stack = (s.procs t).ustack ∧
      (s'.procs t).state = .unused ∧ (s'.procs t).kstack = KSTACK t
  | .fails => NoExited s c
  | .sleeps => ∀ q, (s.procs q).pthread = some c → ∀ killed,
      join L (s.setProc q { s.procs q with state := .zombie }) c killed ≠ .panics

def ThreadOp (c : Slot) (s : State) : Op → Prop
  | .alloc d _ k => d = c ∧ k = .clone
  | .allocFails d _ => d = c
  | .cloneDone np _ => (s.procs np).state = .building c .clone
  | .exit d => (s.procs d).pthread = some c
  | .join d _ => d = c
  | _ => False

def Spare (s : State) : Op → Prop
  | .allocFails _ _ => s.free ≠ 1
  | _ => True

def pages (c : Slot) (p : Proc) : Nat :=
  if p.state = .building c .clone then 5 else if p.pthread = some c then 6 else 0

section Join
variable {L : Layout} {s s' : State} {c np : Slot}

theorem Slots.join_panics (h : Slots s) (hexited : ¬ NoExited s c) (killed : Bool) :
    join L s c killed = .panics := by
  unfold join
  cases hf : findThread s c with
  | some t => simp only [(h t).kstack, kfree_kstack]
  | none => exact absurd (findThread_none.mp hf) hexited

theorem Slots.zombie (h : Slots s) (q : Slot) :
    Slots (s.setProc q { s.procs q with state := .zombie }) :=
  h.set ⟨(h q).kstack, fun hne => ⟨((h q).pthread hne).1, .inr rfl⟩⟩

theorem Slots.join_right_iff (h : Slots s) :
    (∀ killed, (join L s c killed).Right L s c) ↔ ∀ q, (s.procs q).pthread ≠ some c := by
  constructor
  · intro hright q hq
    by_cases hno : NoExited s c
    · have hsleeps : join L s c false = .sleeps := by
        have hex : ∃ q, (s.procs q).pthread = some c := ⟨q, hq⟩
        simp only [join, findThread_none.mpr hno, hex, and_self, if_true]
      have hagain := hright false
      rw [hsleeps] at hagain
      -- once this thread is a zombie, the same call panics
      refine hagain q hq false ((h.zombie q).join_panics (fun hno' => ?_) false)
      exact hno' q (by simpa [State.setProc] using hq) (by simp [State.setProc])
    · have hnow := hright false
      rw [h.join_panics hno] at hnow
      exact hnow
  · intro hnone killed
    have hno : NoExited s c := fun q hq => absurd hq (hnone q)
    have hex : ¬ ∃ q, (s.procs q).pthread = some c := fun ⟨q, hq⟩ => hnone q hq
    simp only [join, findThread_none.mpr hno, hex, false_and, if_false]
    exact hno

def Balance (c : Slot) (total : Nat) (s : State) : Prop :=
  s.free + Tally.tally (pages c) s.procs = total

variable {total : Nat}

theorem Balance.set (h : Balance c total s) (hprocs : s'.procs = update s.procs q p)
    (hfree : s'.free + pages c p = s.free + pages c (s.procs q)) : Balance c total s' := by
  have hset := Tally.tally_update (pages c) s.procs q p
  unfold Balance at h ⊢
  rw [hprocs]
  omega

theorem Balance.reparent (h : Balance c total s) (d : Slot) : Balance c total (reparent s d) := by
  have hpages : ∀ q, pages c ((Threads.reparent s d).procs q) = pages c (s.procs q) := by
    intro q
    simp only [Threads.reparent]
    split <;> rfl
  unfold Balance at h ⊢
  rw [Tally.tally_congr hpages]
  exact h

theorem Balance.step (h : Balance c total s) (hslots : Slots s)
    (hop : ThreadOp c s op) (hspare : Spare s op) (hs : step L s op = some s') :
    Balance c total s' := by
  cases op with
  | alloc d np k =>
    obtain ⟨rfl, rfl⟩ := hop
    simp only [Threads.step, allocproc, ite_none_right_eq_some] at hs
    obtain ⟨⟨-, hu, hfree⟩, hs⟩ := hs
    cases hs
    have hnone := hslots.pthread_none (q := np) (by rw [hu]; simp) (by rw [hu]; simp)
    refine h.set rfl ?_
    simp only [pages, hu, hnone, if_true]
    simpa using Nat.sub_add_cancel hfree
  | allocFails d np =>
    obtain ⟨hu, p, hp⟩ := allocprocFails_spec hs
    refine h.set hp.procs ?_
    simp [pages, hu, hp.state, hp.pthread, hp.free hspare]
  | cloneDone np stack =>
    simp only [Threads.step, Threads.cloneDone, show (s.procs np).state = _ from hop] at hs
    split at hs
    · cases hs
    · next hfree =>
      cases hs
      refine h.set rfl ?_
      simp only [pages, show (s.procs np).state = _ from hop, if_true]
      simp only [reduceCtorEq, if_false]
      omega
  | exit d =>
    simp only [Threads.step, Threads.exit, ite_none_right_eq_some] at hs
    obtain ⟨hg, hs⟩ := hs
    cases hs
    have hlive : ((Threads.reparent s d).procs d).state = .live := by
      simp only [Threads.reparent]
      split <;> exact hg.1.1
    refine (h.reparent d).set rfl ?_
    simp [State.setProc, pages, hlive]
  | join d killed =>
    rw [hslots.join_unchanged hs]
    exact h
  | _ => exact hop.elim

theorem pages_zero_iff : Tally.tally (pages c) s.procs = 0 ↔ NoThreads s c := by
  rw [Tally.tally_eq_zero]
  refine forall_congr' fun q => ?_
  unfold pages
  split <;> rename_i hb
  · simp [hb]
  · split <;> simp_all

end Join

/-- In every run in which a process makes threads that exit, `join` is right exactly when the
process has no thread: with an exited one it panics.  Every kernel stack stays mapped, and the
free memory is what it was only as long as there is no thread, whose pages nothing gives back. -/
theorem join_right_iff_no_thread (L : Layout) (free : Nat) (s t : State) (c : Slot)
    (ops : List Op) (hreach : Reachable (step L) (userinit free) s)
    (hnone : NoThreads s c) (hops : Along (step L) (ThreadOp c) s ops)
    (hspare : Along (step L) Spare s ops) (hrun : run (step L) s ops = some t) :
    ((∀ killed, (join L t c killed).Right L t c) ↔ ∀ q, (t.procs q).pthread ≠ some c) ∧
      (¬ NoExited t c → ∀ killed, join L t c killed = .panics) ∧
      (∀ q, (t.procs q).kstack = KSTACK q) ∧ (t.free = s.free ↔ NoThreads t c) := by
  have hslots : Slots s :=
    reachable_invariant (slots_userinit free) (fun _ _ _ h hs => h.step hs) hreach
  have hstart : Balance c s.free s := by rw [Balance, pages_zero_iff.mpr hnone, add_zero]
  have hboth : Slots t ∧ Balance c s.free t :=
    along_invariant (I := fun t => Slots t ∧ Balance c s.free t)
      (fun _ _ _ hi hop hs => ⟨hi.1.step hs, hi.2.step hi.1 hop.1 hop.2 hs⟩) ops s t
      ⟨hslots, hstart⟩ (along_and ops s hops hspare) hrun
  refine ⟨hboth.1.join_right_iff, hboth.1.join_panics, fun q => (hboth.1 q).kstack, ?_⟩
  have hend := hboth.2
  rw [Balance] at hend
  rw [← pages_zero_iff]
  omega

instance (s : State) (c : Slot) : Decidable (NoThreads s c) := by
  dsimp only [NoThreads]
  infer_instance

instance (c : Slot) (s : State) (op : Op) : Decidable (ThreadOp c s op) := by
  cases op <;> dsimp only [ThreadOp] <;> infer_instance

instance (s : State) (op : Op) : Decidable (Spare s op) := by
  cases op <;> dsimp only [Spare] <;> infer_instance

def twoThreads : List Op :=
  [.alloc 0 1 .clone, .cloneDone 1 0x8000, .join 0 false, .alloc 0 2 .clone, .cloneDone 2 0x9000,
    .join 0 false, .exit 1]

theorem join_right_two_threads :
    ∃ t, run (step ⟨KERNBASE, Nat.le_refl _⟩) (userinit 100) twoThreads = some t ∧ t.free = 88 ∧
      ¬ (∀ killed, (join ⟨KERNBASE, Nat.le_refl _⟩ t 0 killed).Right
        ⟨KERNBASE, Nat.le_refl _⟩ t 0) ∧
      (∀ killed, join ⟨KERNBASE, Nat.le_refl _⟩ t 0 killed = .panics) ∧ ¬ NoThreads t 0 := by
  obtain ⟨t, hrun, hfree, hthread, hexited⟩ := run_test (step ⟨KERNBASE, Nat.le_refl _⟩)
    (userinit 100) twoThreads (fun t => t.free = 88 ∧ (t.procs 1).pthread = some 0 ∧
      (t.procs 1).state = .zombie) (by decide +kernel)
  obtain ⟨hright, hpanics, -, hpages⟩ := join_right_iff_no_thread _ 100 (userinit 100) t 0
    twoThreads ⟨[], rfl⟩ (by decide +kernel) (by decide +kernel) (by decide +kernel) hrun
  refine ⟨t, hrun, hfree, fun h => hright.mp h 1 hthread, ?_, fun h => ?_⟩
  · exact hpanics fun hno => hno 1 hthread hexited
  · have hsame := hpages.mpr h
    rw [hfree] at hsame
    cases hsame

theorem join_exited_thread_panics : ∃ t, run (step ⟨KERNBASE, Nat.le_refl _⟩) (userinit 100)
        [.alloc 0 1 .clone, .cloneDone 1 0x8000, .exit 1] = some t ∧
      (t.procs 1).pthread = some 0 ∧ (t.procs 1).state = .zombie ∧ t.free = 94 ∧
      join ⟨KERNBASE, Nat.le_refl _⟩ t 0 false = .panics := by
  obtain ⟨t, hrun, hthread, hexited, hfree, hfind, hstack⟩ := run_test
    (step ⟨KERNBASE, Nat.le_refl _⟩) (userinit 100)
    [.alloc 0 1 .clone, .cloneDone 1 0x8000, .exit 1]
    (fun t => (t.procs 1).pthread = some 0 ∧ (t.procs 1).state = .zombie ∧ t.free = 94 ∧
      findThread t 0 = some 1 ∧ (t.procs 1).kstack = KSTACK 1) (by decide +kernel)
  refine ⟨t, hrun, hthread, hexited, hfree, ?_⟩
  simp only [join, hfind, hstack, kfree_kstack]

end BirdOS.Threads
