import BirdOS.Mm.Kalloc

/-! # User address spaces with copy-on-write (`vm.c`, `kalloc.c`, `trap.c`)

A page table maps page numbers to entries; the three-level tree under it is not modelled,
and neither are the pages it takes: they belong to `kernel`, the pages that the rest of
the kernel holds, and whether `mappages` finds one while it builds the table of a child
is part of the label.  All processes share one allocator.

An operation ends with `ok`, or stops because no page is left (`oom`) or because the
address may not be used (`fault`), after having copied so many bytes.  `none` is a panic. -/

namespace BirdOS.Vm

open Kalloc Function

def MAXVA : Nat := 2 ^ 38

structure Flags where
  r : Bool
  w : Bool
  x : Bool
  u : Bool
  f : Bool
  deriving DecidableEq

structure Pte where
  pa : Nat
  flags : Flags

abbrev PageTable := Nat → Option Pte

structure State where
  kmem : Kmem
  pt : Slot → PageTable
  sz : Slot → Nat
  live : Slot → Bool
  kernel : Nat → Option Nat

inductive Outcome where
  | ok
  | oom (copied : Nat)
  | fault (copied : Nat)
  deriving DecidableEq

def State.setPte (s : State) (p : Slot) (v : Nat) (e : Option Pte) : State :=
  { s with pt := update s.pt p (update (s.pt p) v e) }

def patch (page : Nat → UInt8) (base va : Nat) (data : List UInt8) : Nat → UInt8 :=
  fun off =>
    if off < PGSIZE ∧ va ≤ base + off ∧ base + off < va + data.length then
      data.getD (base + off - va) 0
    else page off

def setPage (k : Kmem) (pa : Nat) (content : Nat → UInt8) : Kmem :=
  { k with mem := update k.mem pa content }

def walk (s : State) (p : Slot) (va : Nat) : Option Pte :=
  if va ≥ MAXVA then none else s.pt p (va / PGSIZE)

def walkaddr (s : State) (p : Slot) (va : Nat) : Option Nat :=
  match walk s p va with
  | none => none
  | some e => if e.flags.u then some e.pa else none

def uvmunmap (L : Layout) (id : Fin NCPU) (p : Slot) : Nat → Nat → State → Option State
  | 0, _, s => some s
  | n + 1, v, s =>
    match s.pt p v with
    | none => uvmunmap L id p n (v + 1) s
    | some e =>
      if e.flags = ⟨false, false, false, false, false⟩ then none
      else
        match kfree L s.kmem id e.pa with
        | none => none
        | some k => uvmunmap L id p n (v + 1) { s.setPte p v none with kmem := k }

def Flags.cow (fl : Flags) : Flags :=
  if fl.w then { fl with f := true, w := false } else fl

/-- It stops at page `fail`, where there is no page for the table of the child. -/
def uvmcopy (L : Layout) (fail : Option Nat) (p np : Slot) :
    Nat → Nat → State → Option (State × Option Nat)
  | 0, _, s => some (s, none)
  | n + 1, v, s =>
    match s.pt p v with
    | none => uvmcopy L fail p np n (v + 1) s
    | some e =>
      let s := s.setPte p v (some ⟨e.pa, e.flags.cow⟩)
      if fail = some v then some (s, some v)
      else if (s.pt np v).isSome then none
      else
        match kaddrefcnt L s.kmem e.pa with
        | none => none
        | some (k, _) =>
          uvmcopy L fail p np n (v + 1)
            { s.setPte np v (some ⟨e.pa, e.flags.cow⟩) with kmem := k }

def fork (L : Layout) (id : Fin NCPU) (s : State) (p np : Slot) (fail : Option Nat) :
    Option (State × Outcome) :=
  match uvmcopy L fail p np (pgroundup (s.sz p) / PGSIZE) 0 s with
  | none => none
  | some (s, none) =>
    some ({ s with sz := update s.sz np (s.sz p), live := update s.live np true },
      .ok)
  | some (s, some v) => (uvmunmap L id np v 0 s).map fun s => (s, .oom 0)

def cowpage (s : State) (p : Slot) (va : Nat) : Bool :=
  match walk s p va with
  | none => false
  | some e => e.flags.f

def cowalloc (L : Layout) (id : Fin NCPU) (s : State) (p : Slot) (va : Nat) :
    Option (State × Option Nat) :=
  match walk s p va with
  | none => some (s, none)
  | some e =>
    if ¬ e.flags.u then some (s, none)
    else if krefcnt s.kmem e.pa = 1 then
      some (s.setPte p (va / PGSIZE) (some ⟨e.pa, { e.flags with w := true, f := false }⟩),
        some e.pa)
    else
      match kalloc s.kmem id with
      | (_, none) => some (s, none)
      | (k, some mem) =>
        let k := setPage k mem (k.mem e.pa)
        (kfree L k id e.pa).map fun k =>
          ({ s.setPte p (va / PGSIZE) (some ⟨mem, { e.flags with w := true, f := false }⟩) with
              kmem := k }, some mem)

def exit (L : Layout) (id : Fin NCPU) (s : State) (p : Slot) : Option State :=
  (uvmunmap L id p (pgroundup (s.sz p) / PGSIZE) 0 s).map fun s =>
    { s with
      pt := update s.pt p fun _ => none
      sz := update s.sz p 0
      live := update s.live p false }

def writePage (s : State) (pa va : Nat) (data : List UInt8) : State :=
  { s with kmem := setPage s.kmem pa (patch (s.kmem.mem pa) (pgrounddown va) va data) }

/-- The hardware's check, or the first branch of the page-fault handler and the store again.
Lazy allocation and mapped files are not resolved here. -/
def store (L : Layout) (id : Fin NCPU) (s : State) (p : Slot) (va : Nat) (b : UInt8) :
    Option (State × Outcome) :=
  match walk s p va with
  | none => none
  | some e =>
    if e.flags.w ∧ e.flags.u then some (writePage s e.pa va [b], .ok)
    else if cowpage s p va then
      if va ≥ s.sz p then (exit L id s p).map fun s => (s, .fault 0)
      else
        match cowalloc L id s p (pgrounddown va) with
        | none => none
        | some (s', some pa) => some (writePage s' pa va [b], .ok)
        | some (s', none) =>
          (exit L id s' p).map fun s' => (s', if e.flags.u then .oom 0 else .fault 0)
    else none

def copyout (L : Layout) (id : Fin NCPU) (p : Slot) :
    Nat → State → Nat → List UInt8 → Nat → Option (State × Outcome)
  | _, s, _, [], _ => some (s, .ok)
  | 0, _, _, _ :: _, _ => none
  | f + 1, s, va, b :: data, copied =>
    let va0 := pgrounddown va
    let target :=
      if cowpage s p va0 then cowalloc L id s p va0 else some (s, walkaddr s p va0)
    match target with
    | none => none
    | some (s', none) =>
      some (s', if (walkaddr s p va0).isSome then .oom copied else .fault copied)
    | some (s', some pa) =>
      let n := min (PGSIZE - (va - va0)) (b :: data).length
      copyout L id p f (writePage s' pa va ((b :: data).take n)) (va0 + PGSIZE)
        ((b :: data).drop n) (copied + n)

/-- The bytes copied, and whether the loop reached the end. -/
def copyinLoop (s : State) (p : Slot) : Nat → Nat → Nat → List UInt8 × Bool
  | _, _, 0 => ([], true)
  | 0, _, _ + 1 => ([], false)
  | f + 1, va, len + 1 =>
    let va0 := pgrounddown va
    match walkaddr s p va0 with
    | none => ([], false)
    | some pa =>
      let n := min (PGSIZE - (va - va0)) (len + 1)
      let r := copyinLoop s p f (va0 + PGSIZE) (len + 1 - n)
      ((List.range n).map (fun j => s.kmem.mem pa (va - va0 + j)) ++ r.1, r.2)

def copyin (s : State) (p : Slot) (va len : Nat) : List UInt8 × Bool := copyinLoop s p len va len

/-- The bytes copied, the terminating zero among them, and `got_null`. -/
def scanStr (byte : Nat → UInt8) : Nat → Nat → List UInt8 × Bool
  | _, 0 => ([], false)
  | start, n + 1 =>
    if byte start = 0 then ([0], true)
    else
      let r := scanStr byte (start + 1) n
      (byte start :: r.1, r.2)

def copyinstrLoop (s : State) (p : Slot) : Nat → Nat → Nat → List UInt8 × Bool
  | _, _, 0 => ([], false)
  | 0, _, _ + 1 => ([], false)
  | f + 1, va, max + 1 =>
    let va0 := pgrounddown va
    match walkaddr s p va0 with
    | none => ([], false)
    | some pa =>
      let n := min (PGSIZE - (va - va0)) (max + 1)
      let c := scanStr (s.kmem.mem pa) (va - va0) n
      if c.2 then c
      else
        let r := copyinstrLoop s p f (va0 + PGSIZE) (max + 1 - n)
        (c.1 ++ r.1, r.2)

/-- `copyinstr`; it fails without a zero among the first `max` bytes. -/
def copyinstr (s : State) (p : Slot) (va max : Nat) : List UInt8 × Bool :=
  copyinstrLoop s p max va max

def shrink (L : Layout) (id : Fin NCPU) (s : State) (p : Slot) (newsz : Nat) : Option State :=
  (uvmunmap L id p ((pgroundup (s.sz p) - pgroundup newsz) / PGSIZE)
    (pgroundup newsz / PGSIZE) s).map
    fun s => { s with sz := update s.sz p newsz }

end BirdOS.Vm
