import BirdOS.Mm.Vm
import BirdOS.Mm.Sharemem

/-! # Address spaces of processes (`trap.c`, `syscall.c`, `sysproc.c`, `sysfile.c`, `exec.c`)

Page faults, `sbrk`, `mmap`, `munmap`, `shmgetat`, `fork`, `exec`, `exit` and `wait` over the
page tables and the allocator of `Vm`.  The two pages at `TRAPFRAME` are not entries of the
tables; `mappages` never succeeds there, and a range that is unmapped does not reach them.

Whether `walk` finds pages for the tree of a table is part of the label (`table`), and so are
the stack pointer of the caller and what the files contain after a write-back.  `exec` gives
the old pages back before it takes new ones: pages have no identity, and a call for which
memory does not suffice leaves everything as it was and is no step.  In `sharemem.c` and
`exec.c` the name `proc` stands for `proc[0]`.

`region` and `image` are read by no code: what `mmap` has returned for a VMA, and how many
programs a process has run.  `none` is a panic or a fault in the kernel. -/

namespace BirdOS.Space

open Kalloc Vm Function
open Shm (MAX_SHM_PGNUM throughInt proc0)

def NVMA : Nat := 16

abbrev Area := Fin NVMA

def TRAPFRAME : Nat := MAXVA - 2 * PGSIZE

def wrap (x : Int) : Nat := (x % 2 ^ 64).toNat

def pgroundup64 (a : Nat) : Nat := (a + PGSIZE - 1) % 2 ^ 64 / PGSIZE * PGSIZE

def MAP_SHARED : BitVec 32 := 1

structure File where
  readable : Bool
  writable : Bool
  ip : Option Nat
  deriving DecidableEq

structure Vma where
  used : Bool
  addr : Nat
  len : Int
  prot : BitVec 32
  flags : BitVec 32
  vfile : File
  offset : Int
  deriving DecidableEq

def zeroVma : Vma := ⟨false, 0, 0, 0, 0, ⟨false, false, none⟩, 0⟩

structure Region where
  start : Nat
  len : Int
  image : Nat
  deriving DecidableEq

structure State extends Vm.State where
  shm : Slot → Nat
  vma : Slot → Area → Vma
  killed : Slot → Bool
  /-- Called `exit`, but not yet reaped. -/
  exited : Slot → Bool
  /-- The bytes of the inodes. -/
  contents : Nat → List UInt8
  region : Slot → Area → Region
  image : Slot → Nat

def State.kill (s : State) (p : Slot) : State :=
  { s with killed := update s.killed p true }

def State.setVma (s : State) (p : Slot) (i : Area) (a : Vma) : State :=
  { s with vma := update s.vma p (update (s.vma p) i a) }

inductive Cause where
  | load
  | store
  deriving DecidableEq

def rwxu : Flags := ⟨true, true, true, true, false⟩

/-! ## New pages -/

def mappages (s : Vm.State) (p : Slot) (va pa : Nat) (flags : Flags) (table : Bool) :
    Option (Vm.State × Bool) :=
  if TRAPFRAME ≤ va ∨ (s.pt p (va / PGSIZE)).isSome then none
  else if table then some (s.setPte p (va / PGSIZE) (some ⟨pa, flags⟩), true)
  else some (s, false)

/-- The page `pa` gets its content and its entry, or goes back. -/
def install (L : Layout) (id : Fin NCPU) (s : Vm.State) (k : Kmem) (pa : Nat) (p : Slot) (va : Nat)
    (flags : Flags) (content : Nat → UInt8) (table : Bool) : Option (Vm.State × Bool) :=
  match mappages { s with kmem := setPage k pa content } p va pa flags table with
  | none => none
  | some (s, true) => some (s, true)
  | some (s, false) => (kfree L s.kmem id pa).map fun k => ({ s with kmem := k }, false)

def mapZero (L : Layout) (id : Fin NCPU) (s : Vm.State) (p : Slot) (va : Nat) (flags : Flags)
    (table : Bool) : Option (Vm.State × Bool) :=
  match kalloc s.kmem id with
  | (_, none) => some (s, false)
  | (k, some pa) => install L id s k pa p va flags (fun _ => 0) table

def aboveStack (sp va : Nat) : Prop := wrap (pgroundup64 sp - 1) < va

instance (sp va : Nat) : Decidable (aboveStack sp va) :=
  inferInstanceAs (Decidable (wrap (pgroundup64 sp - 1) < va))

/-- `argaddr`; `false` is the returned `-1`. -/
def argaddr (L : Layout) (id : Fin NCPU) (s : Vm.State) (p : Slot) (sp addr : Nat) (table : Bool) :
    Option (Vm.State × Bool) :=
  if (walkaddr s p addr).isSome then some (s, true)
  else if aboveStack sp addr ∧ addr < s.sz p then
    mapZero L id s p (pgrounddown addr) rwxu table
  else some (s, false)

/-! ## Page faults -/

def findVma (vma : Area → Vma) (w : Nat) : Option Area :=
  (List.finRange NVMA).find? fun i =>
    decide ((vma i).used = true ∧ (vma i).addr ≤ w ∧ w ≤ wrap ((vma i).addr + (vma i).len - 1))

def pteFlags (prot : BitVec 32) : Flags :=
  ⟨prot.getLsbD 0, prot.getLsbD 1, prot.getLsbD 2, true, false⟩

def readi (c : List UInt8) (off n : Nat) : List UInt8 :=
  if c.length < off ∨ (off + n) % 2 ^ 32 < off then [] else (c.drop off).take n

def fileOffset (a : Vma) (w : Nat) : Nat :=
  ((a.offset + pgrounddown (wrap (w - a.addr))) % 2 ^ 32).toNat

/-- `mmap_handler`, whose parameter is an `int`. -/
def mmap_handler (L : Layout) (id : Fin NCPU) (s : State) (p : Slot) (va : Nat) (cause : Cause)
    (table : Bool) : Option (State × Bool) :=
  let w := throughInt va
  match findVma (s.vma p) w with
  | none => some (s, false)
  | some i =>
    let a := s.vma p i
    if cause = .load ∧ a.vfile.readable = false then some (s, false)
    else if cause = .store ∧ a.vfile.writable = false then some (s, false)
    else
      match kalloc s.kmem id with
      | (_, none) => some (s, false)
      | (k, some pa) =>
        match a.vfile.ip with
        | none => none
        | some ip =>
          let bytes := readi (s.contents ip) (fileOffset a w) PGSIZE
          if bytes = [] then
            (kfree L (setPage k pa fun _ => 0) id pa).map fun k => ({ s with kmem := k }, false)
          else
            (install L id s.toState k pa p (pgrounddown w) (pteFlags a.prot)
              (fun off => bytes.getD off 0) table).map fun r => ({ s with toState := r.1 }, r.2)

def lazyMap (L : Layout) (id : Fin NCPU) (s : State) (p : Slot) (va : Nat) (table : Bool) :
    Option State :=
  (mapZero L id s.toState p (pgrounddown va) rwxu table).map fun r =>
    if r.2 then { s with toState := r.1 } else { s with toState := r.1 }.kill p

def lazyPage (L : Layout) (id : Fin NCPU) (s : State) (p : Slot) (sp va : Nat) (table : Bool) :
    Option State :=
  if aboveStack sp va ∧ va < s.sz p ∧ (kalloc s.kmem id).2.isSome then lazyMap L id s p va table
  else if aboveStack sp va ∧ va < s.shm p ∧ (kalloc s.kmem id).2.isSome then
    lazyMap L id s p va table
  else some (s.kill p)

def usertrap (L : Layout) (id : Fin NCPU) (s : State) (p : Slot) (sp va : Nat) (cause : Cause)
    (table : Bool) : Option State :=
  if cowpage s.toState p va then
    if s.sz p ≤ va then some (s.kill p)
    else
      (cowalloc L id s.toState p (pgrounddown va)).map fun r =>
        if r.2.isSome then { s with toState := r.1 } else { s with toState := r.1 }.kill p
  else if aboveStack sp va ∧ va < s.sz p then
    match mmap_handler L id s p va cause table with
    | none => none
    | some (s, true) => some s
    | some (s, false) => lazyPage L id s p sp va table
  else lazyPage L id s p sp va table

/-! ## Ranges -/

def unmapRange (L : Layout) (id : Fin NCPU) (s : Vm.State) (p : Slot) (va npages : Nat) :
    Option Vm.State :=
  if va % PGSIZE ≠ 0 then none
  else
    let last := (va + npages * PGSIZE) % 2 ^ 64
    if va < last ∧ TRAPFRAME < last then none
    else uvmunmap L id p ((last - va) / PGSIZE) (va / PGSIZE) s

/-- `proc_freepagetable`; mappings beyond the size go with the table. -/
def freepagetable (L : Layout) (id : Fin NCPU) (s : Vm.State) (p : Slot) : Option Vm.State :=
  if MAXVA < pgroundup64 (s.sz p) then none
  else
    (uvmunmap L id p (pgroundup64 (s.sz p) / PGSIZE) 0 s).map fun s =>
      { s with pt := update s.pt p fun _ => none }

def sbrk (L : Layout) (id : Fin NCPU) (s : State) (p : Slot) (n : Int) : Option State :=
  let sz := s.sz p
  let newsz := wrap (sz + n)
  if 0 < n then some { s with sz := update s.sz p newsz }
  else if newsz = 0 ∨ sz ≤ newsz then some s
  else
    (if pgroundup64 newsz < pgroundup64 sz then
      unmapRange L id s.toState p (pgroundup64 newsz)
        ((pgroundup64 sz - pgroundup64 newsz) / PGSIZE)
    else some s.toState).map fun t => { s with toState := { t with sz := update t.sz p newsz } }

def findFree (vma : Area → Vma) : Option Area :=
  (List.finRange NVMA).find? fun i => !(vma i).used

/-- The returned address, or nothing for `-1`. -/
def mmap (s : State) (p : Slot) (addr : Nat) (length : Int) (prot flags : BitVec 32) (vfile : File)
    (offset : Int) : State × Option Nat :=
  if addr ≠ 0 ∨ offset ≠ 0 ∨ length < 0 then (s, none)
  else if vfile.writable = false ∧ prot.getLsbD 1 = true ∧ flags = MAP_SHARED then (s, none)
  else if MAXVA < wrap (s.sz p + length) then (s, none)
  else
    match findFree (s.vma p) with
    | none => (s, none)
    | some i =>
      ({ s.setVma p i ⟨true, s.sz p, length, prot, flags, vfile, offset⟩ with
          sz := update s.sz p (wrap (s.sz p + length))
          region := update s.region p
            (update (s.region p) i ⟨s.sz p, length, s.image p⟩) },
        some (s.sz p))

def findUnmap (vma : Area → Vma) (addr : Nat) (length : Int) : Option Area :=
  (List.finRange NVMA).find? fun i =>
    decide ((vma i).used = true ∧ length ≤ (vma i).len ∧
      ((vma i).addr = addr ∨ wrap (addr + length) = wrap ((vma i).addr + (vma i).len)))

def cutVma (a : Vma) (addr : Nat) (length : Int) : Vma :=
  if a.addr = addr then
    { a with addr := wrap (a.addr + length), len := wrap32 (a.len - length) }
  else { a with len := wrap32 (a.len - length) }

def pageCount (length : Int) : Nat := wrap (Int.tdiv length PGSIZE)

def Vma.Shared (a : Vma) : Prop := a.flags = MAP_SHARED ∧ a.prot.getLsbD 1 = true

instance (a : Vma) : Decidable a.Shared :=
  inferInstanceAs (Decidable (a.flags = MAP_SHARED ∧ a.prot.getLsbD 1 = true))

/-- The `filewrite` of `munmap` and `exit` may store bytes of the mapping in the inode `ip`. -/
def WritesBack (a : Vma) (ip : Nat) : Prop :=
  a.Shared ∧ a.vfile.writable = true ∧ a.vfile.ip = some ip

instance (a : Vma) (ip : Nat) : Decidable (WritesBack a ip) :=
  inferInstanceAs (Decidable (a.Shared ∧ a.vfile.writable = true ∧ a.vfile.ip = some ip))

/-- `contents` is what `filewrite` leaves of the file, as in `munmapBack` of `MmapWrite`. -/
def munmap (L : Layout) (id : Fin NCPU) (s : State) (p : Slot) (addr : Nat) (length : Int)
    (contents : Nat → List UInt8) : Option State :=
  match findUnmap (s.vma p) addr length with
  | none => some s
  | some i =>
    let a := cutVma (s.vma p i) addr length
    (unmapRange L id s.toState p addr (pageCount length)).map fun t =>
      { s.setVma p i { a with used := decide (a.len ≠ 0) } with
        toState := t
        contents := fun ip => if WritesBack a ip then contents ip else s.contents ip }

def unmapVmas (L : Layout) (id : Fin NCPU) (p : Slot) (s : State) (i : Area) : Option State :=
  let a := s.vma p i
  if a.used then
    (unmapRange L id s.toState p a.addr (pageCount a.len)).map fun t =>
      { s.setVma p i { a with used := false } with toState := t }
  else some s

def exit (L : Layout) (id : Fin NCPU) (s : State) (p : Slot) (contents : Nat → List UInt8) :
    Option State :=
  ((List.finRange NVMA).foldlM (unmapVmas L id p) s).map fun t =>
    { t with
      contents := fun ip =>
        if ∃ i, (s.vma p i).used = true ∧ WritesBack (s.vma p i) ip then contents ip
        else s.contents ip
      exited := update t.exited p true }

/-- `freeproc` in `wait`; its `shmrelease` walks a null page table if anything is attached. -/
def reap (L : Layout) (id : Fin NCPU) (s : State) (p : Slot) : Option State :=
  if s.shm p < KERNBASE then none
  else
    (freepagetable L id s.toState p).map fun t =>
      { s with
        toState := { t with
          sz := update t.sz p 0
          live := update t.live p false }
        killed := update s.killed p false
        exited := update s.exited p false }

def loadPages (id : Fin NCPU) (p : Slot) :
    List (Flags × (Nat → UInt8)) → Nat → Vm.State → Option Vm.State
  | [], _, s => some s
  | (flags, content) :: rest, v, s =>
    match kalloc s.kmem id with
    | (_, none) => none
    | (k, some pa) =>
      loadPages id p rest (v + 1)
        { s.setPte p v (some ⟨pa, flags⟩) with kmem := setPage k pa content }

def programPages (program : List (Nat → UInt8)) (stack : Nat → UInt8) :
    List (Flags × (Nat → UInt8)) :=
  program.map (fun c => (rwxu, c)) ++ [({ rwxu with u := false }, fun _ => 0), (rwxu, stack)]

/-- The VMAs stay; `shmrelease` looks at the segments of `proc[0]`. -/
def exec (L : Layout) (id : Fin NCPU) (s : State) (p : Slot) (program : List (Nat → UInt8))
    (stack : Nat → UInt8) : Option State :=
  let newsz := (program.length + 2) * PGSIZE
  if TRAPFRAME < newsz then none
  else do
    let t ← uvmunmap L id p ((KERNBASE - s.shm proc0) / PGSIZE) (s.shm proc0 / PGSIZE) s.toState
    let t ← freepagetable L id t p
    let t ← loadPages id p (programPages program stack) 0 t
    some { s with
      toState := { t with sz := update t.sz p newsz }
      shm := update s.shm proc0 KERNBASE
      image := update s.image p (s.image p + 1) }

def fork (L : Layout) (id : Fin NCPU) (s : State) (p np : Slot) (fail : Option Nat) :
    Option State :=
  if TRAPFRAME < pgroundup (s.sz p) then none
  else
    match Vm.fork L id s.toState p np fail with
    | none => none
    | some (t, .ok) =>
      some { s with
        toState := t
        shm := update s.shm np (s.shm proc0)
        vma := update s.vma np fun i => if (s.vma p i).used then s.vma p i else zeroVma
        region := update s.region np (s.region p)
        image := update s.image np (s.image p) }
    | some (t, _) => some { s with toState := t }

def allocshmLoop (L : Layout) (id : Fin NCPU) (p : Slot) (table : Nat → Bool) :
    Nat → Nat → Vm.State → Option (Vm.State × Bool)
  | 0, _, s => some (s, true)
  | n + 1, v, s =>
    match mapZero L id s p (v * PGSIZE) ⟨false, true, false, true, false⟩ (table v) with
    | none => none
    | some (s, false) => some (s, false)
    | some (s, true) => allocshmLoop L id p table n (v + 1) s

/-- A segment of `num` pages, created unless it exists; one that exists maps an empty range. -/
def shmgetat (L : Layout) (id : Fin NCPU) (s : State) (num : Nat) (create : Bool)
    (table : Nat → Bool) : Option State :=
  let old := s.shm proc0
  let new := wrap (old - num * PGSIZE)
  if create = false ∨ MAX_SHM_PGNUM < num ∨ old % PGSIZE ≠ 0 ∨ KERNBASE < old ∨ new < s.sz proc0
  then some s
  else
    match allocshmLoop L id proc0 table ((old - new) / PGSIZE) (new / PGSIZE) s.toState with
    | none => none
    | some (t, true) =>
      some { s with toState := t, shm := update s.shm proc0 (throughInt new % 2 ^ 32) }
    | some (t, false) =>
      (uvmunmap L id proc0 ((old - new) / PGSIZE) (new / PGSIZE) t).map fun t =>
        { s with toState := t }

/-! ## The system -/

inductive Op where
  | exec (id : Fin NCPU) (p : Slot) (program : List (Nat → UInt8)) (stack : Nat → UInt8)
  | sbrk (id : Fin NCPU) (p : Slot) (n : BitVec 32)
  | mmap (id : Fin NCPU) (p : Slot) (sp addr : Nat) (table : Bool) (length prot flags : BitVec 32)
      (vfile : File) (offset : BitVec 32)
  | munmap (id : Fin NCPU) (p : Slot) (sp addr : Nat) (table : Bool) (length : BitVec 32)
      (contents : Nat → List UInt8)
  /-- Any other system call with an address. -/
  | argaddr (id : Fin NCPU) (p : Slot) (sp addr : Nat) (table : Bool)
  | copyout (id : Fin NCPU) (p : Slot) (va : Nat) (data : List UInt8)
  | fault (id : Fin NCPU) (p : Slot) (sp va : Nat) (cause : Cause) (table : Bool)
  | fork (id : Fin NCPU) (p np : Slot) (fail : Option Nat)
  | shmgetat (id : Fin NCPU) (p : Slot) (num : Nat) (create : Bool) (table : Nat → Bool)
  | exit (id : Fin NCPU) (p : Slot) (contents : Nat → List UInt8)
  | reap (id : Fin NCPU) (p : Slot)
  | store (p : Slot) (va : Nat) (b : UInt8)
  | kill (p : Slot)
  /-- Writes to files, and pages that the rest of the kernel takes or gives back. -/
  | filewrite (contents : Nat → List UInt8)
  | kalloc (id : Fin NCPU) (handle : Nat)
  | kfree (id : Fin NCPU) (handle : Nat)

def Runs (s : State) (p : Slot) : Prop :=
  s.live p = true ∧ s.exited p = false ∧ s.killed p = false

instance (s : State) (p : Slot) : Decidable (Runs s p) :=
  inferInstanceAs (Decidable (s.live p = true ∧ s.exited p = false ∧ s.killed p = false))

/-- An entry with `PTE_W` and without `PTE_R` allows no access. -/
def Faults (s : Vm.State) (p : Slot) (va : Nat) : Cause → Prop
  | .load => ∀ e ∈ walk s p va, ¬ (e.flags.u = true ∧ e.flags.r = true)
  | .store => ∀ e ∈ walk s p va, ¬ (e.flags.u = true ∧ e.flags.r = true ∧ e.flags.w = true)

instance (s : Vm.State) (p : Slot) (va : Nat) : (cause : Cause) → Decidable (Faults s p va cause)
  | .load => inferInstanceAs
      (Decidable (∀ e ∈ walk s p va, ¬ (e.flags.u = true ∧ e.flags.r = true)))
  | .store => inferInstanceAs
      (Decidable (∀ e ∈ walk s p va, ¬ (e.flags.u = true ∧ e.flags.r = true ∧ e.flags.w = true)))

def afterArgaddr (L : Layout) (id : Fin NCPU) (s : State) (p : Slot) (sp addr : Nat) (table : Bool)
    (rest : State → Option State) : Option State :=
  match argaddr L id s.toState p sp addr table with
  | none => none
  | some (t, true) => rest { s with toState := t }
  | some (t, false) => some { s with toState := t }

def step (L : Layout) (s : State) : Op → Option State
  | .exec id p program stack => if Runs s p then exec L id s p program stack else none
  | .sbrk id p n => if Runs s p then sbrk L id s p n.toInt else none
  | .mmap id p sp addr table length prot flags vfile offset =>
    if Runs s p then
      afterArgaddr L id s p sp addr table fun s =>
        some (mmap s p addr length.toInt prot flags vfile offset.toInt).1
    else none
  | .munmap id p sp addr table length contents =>
    if Runs s p then
      afterArgaddr L id s p sp addr table fun s => munmap L id s p addr length.toInt contents
    else none
  | .argaddr id p sp addr table =>
    if Runs s p then afterArgaddr L id s p sp addr table some else none
  | .copyout id p va data =>
    if Runs s p then
      (Vm.copyout L id p data.length s.toState va data 0).map fun r => { s with toState := r.1 }
    else none
  | .fault id p sp va cause table =>
    if Runs s p ∧ Faults s.toState p va cause then usertrap L id s p sp va cause table else none
  | .fork id p np fail =>
    if Runs s p ∧ s.live np = false then fork L id s p np fail else none
  | .shmgetat id p num create table =>
    if Runs s p then shmgetat L id s num create table else none
  | .exit id p contents =>
    if s.live p = true ∧ s.exited p = false ∧ p ≠ proc0 then exit L id s p contents else none
  | .reap id p => if s.exited p = true then reap L id s p else none
  | .store p va b =>
    match walk s.toState p va with
    | none => none
    | some e =>
      if Runs s p ∧ ¬ Faults s.toState p va .store then
        some { s with toState := writePage s.toState e.pa va [b] }
      else none
  | .kill p => if s.live p then some (s.kill p) else none
  | .filewrite contents => some { s with contents := contents }
  | .kalloc id handle =>
    match s.kernel handle, Kalloc.kalloc s.kmem id with
    | none, (k, some pa) =>
      some { s with kmem := k, kernel := update s.kernel handle (some pa) }
    | _, _ => some s
  | .kfree id handle =>
    match s.kernel handle with
    | none => some s
    | some pa =>
      (Kalloc.kfree L s.kmem id pa).map fun k =>
        { s with kmem := k, kernel := update s.kernel handle none }

def boot (k : Kmem) (contents : Nat → List UInt8) : State where
  kmem := k
  pt := fun _ _ => none
  sz := fun _ => 0
  live := fun q => q = proc0
  kernel := fun _ => none
  shm := fun _ => KERNBASE
  vma := fun _ _ => zeroVma
  killed := fun _ => false
  exited := fun _ => false
  contents := contents
  region := fun _ _ => ⟨0, 0, 0⟩
  image := fun _ => 0

end BirdOS.Space
