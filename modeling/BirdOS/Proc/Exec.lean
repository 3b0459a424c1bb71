import BirdOS.Lib.ByteMem
import BirdOS.Mm.Image
import BirdOS.Mm.Sharemem
import BirdOS.Proc.MqRefs

/-! # `exec` (`exec.c`)

The new image is built beside the old one: a page table, the segments of the file, a guard page
and a stack page with the arguments.  A failure at any point gives back what was taken, and
nothing of the process has changed by then.

The file that `namei` finds is its bytes.  The branch of `copyout` for copy-on-write pages is not
modelled: the new table has none. -/

namespace BirdOS.Exec

open Image Outcome Function List
open Kalloc (Layout IsPage)
open Vm (Flags Pte MAXVA)

def MAXARG : Nat := 32
def ELF_MAGIC : Nat := 0x464C457F
def ELF_PROG_LOAD : Nat := 1

def elfSize : Nat := 64

def phSize : Nat := 56

def maxBytes : Nat := (11 + 256 + 256 * 256) * 1024

structure Executable where
  bytes : List UInt8
  length_le : bytes.length ≤ maxBytes

def readi (file : List UInt8) (off n : Nat) : List UInt8 :=
  if file.length < off ∨ 2 ^ 32 ≤ off + n then [] else (file.drop off).take n

def field (bs : List UInt8) (off n : Nat) : Nat := ByteMem.load (fun x => bs.getD x 0) off n

def walkaddr (t : Table) (va : Nat) : Option Nat :=
  if MAXVA ≤ va then none
  else
    match t.pte (va / PGSIZE) with
    | none => none
    | some e => if e.flags.u then some e.pa else none

inductive Stop where
  | panic (why : Panic)
  /-- `i` wraps around in `loadseg`, which does not end. -/
  | endless
  /-- `shmrm` reads an address that the kernel does not map. -/
  | fault
  deriving DecidableEq

def lift {α : Type} : Except Panic α → Except Stop α
  | .ok a => .ok a
  | .error e => .error (.panic e)

def loadLoop (file : List UInt8) (va offset sz : Nat) (t : Table) :
    Nat → Nat → Mem → Except Stop (Bool × Mem)
  | 0, i, m => if i % 2 ^ 32 < sz then .error .endless else .ok (true, m)
  | turns + 1, i, m =>
    match walkaddr t (va + i) with
    | none => .error (.panic .notMapped)
    | some pa =>
      let n := min (sz - i) PGSIZE
      let bs := readi file ((offset + i) % 2 ^ 32) n
      let m := m.setPage pa (ByteMem.put (m.data pa) 0 bs)
      if bs.length = n then loadLoop file va offset sz t turns (i + PGSIZE) m else .ok (false, m)

/-- `loadseg`, whose `offset` and `sz` have 32 bits. -/
def loadseg (file : List UInt8) (va offset sz : Nat) (t : Table) (m : Mem) :
    Except Stop (Bool × Mem) :=
  if va % PGSIZE ≠ 0 then .error (.panic .notAligned)
  else loadLoop file va offset sz t ((sz + PGSIZE - 1) / PGSIZE) 0 m

structure Proghdr where
  type : Nat
  off : Nat
  vaddr : Nat
  filesz : Nat
  memsz : Nat
  memsz_lt : memsz < 2 ^ 64

def proghdr (bs : List UInt8) : Proghdr :=
  ⟨field bs 0 4, field bs 8 8, field bs 16 8, field bs 32 8, field bs 40 8, ByteMem.load_lt ..⟩

def loadSegment (L : Layout) (file : List UInt8) (ph : Proghdr) (sz : Nat) (t : Table) (m : Mem) :
    Except Stop (Bool × Nat × Table × Mem) :=
  if ph.memsz < ph.filesz then .ok (false, sz, t, m)
  else if (ph.vaddr + ph.memsz) % 2 ^ 64 < ph.vaddr then .ok (false, sz, t, m)
  else do
    let (sz1, t, m) ← lift (uvmalloc L sz ((ph.vaddr + ph.memsz) % 2 ^ 64) t m)
    if sz1 = 0 then return (false, sz, t, m)
    else if ph.vaddr % PGSIZE ≠ 0 then return (false, sz1, t, m)
    else do
      let (done, m) ← loadseg file ph.vaddr (ph.off % 2 ^ 32) (ph.filesz % 2 ^ 32) t m
      return (done, sz1, t, m)

def loadHeaders (L : Layout) (file : List UInt8) :
    Nat → Nat → Nat → Table → Mem → Except Stop (Bool × Nat × Table × Mem)
  | 0, _, sz, t, m => .ok (true, sz, t, m)
  | left + 1, off, sz, t, m =>
    if (readi file off phSize).length ≠ phSize then .ok (false, sz, t, m)
    else if (proghdr (readi file off phSize)).type ≠ ELF_PROG_LOAD then
      loadHeaders L file left ((off + phSize) % 2 ^ 32) sz t m
    else do
      let (done, sz, t, m) ← loadSegment L file (proghdr (readi file off phSize)) sz t m
      if done then loadHeaders L file left ((off + phSize) % 2 ^ 32) sz t m
      else return (false, sz, t, m)

/-- From the check of the header to the end of the loop. -/
def loadFile (L : Layout) (trampoline trapframe : Nat) (file : List UInt8) (m : Mem) :
    Except Stop (Bool × Option (Nat × Table) × Mem) :=
  let elf := readi file 0 elfSize
  if elf.length ≠ elfSize then .ok (false, none, m)
  else if field elf 0 4 ≠ ELF_MAGIC then .ok (false, none, m)
  else do
    let (t, m) ← lift (procPagetable L trampoline trapframe m)
    match t with
    | none => return (false, none, m)
    | some t => do
      let (done, sz, t, m) ←
        loadHeaders L file (field elf 56 2) (field elf 32 8 % 2 ^ 32) 0 t m
      return (done, some (sz, t), m)

def uvmclear (n : Nat) (t : Table) : Except Panic Table :=
  if maxPage ≤ n then .error .walk
  else
    match t.pte n with
    | none => .error .uvmclear
    | some e => .ok { t with pte := update t.pte n (some ⟨e.pa, { e.flags with u := false }⟩) }

def addStack (L : Layout) (sz : Nat) (t : Table) (m : Mem) :
    Except Panic (Nat × Table × Mem) := do
  let (sz1, t, m) ← uvmalloc L (pgroundup sz) (pgroundup sz + 2 * PGSIZE) t m
  if sz1 = 0 then return (0, t, m)
  else do
    let t ← uvmclear (sz1 / PGSIZE - 2) t
    return (sz1, t, m)

def copyout (t : Table) : Nat → Nat → List UInt8 → Mem → Bool × Mem
  | _, _, [], m => (true, m)
  | 0, _, _ :: _, m => (false, m)
  | fuel + 1, va, b :: bs, m =>
    match walkaddr t (pgrounddown va) with
    | none => (false, m)
    | some pa =>
      let n := min (PGSIZE - (va - pgrounddown va)) (b :: bs).length
      copyout t fuel (pgrounddown va + PGSIZE) ((b :: bs).drop n)
        (m.setPage pa (ByteMem.put (m.data pa) (va - pgrounddown va) ((b :: bs).take n)))

@[irreducible] def lower (sp n : Nat) : Nat :=
  (sp + 2 ^ 64 - n) % 2 ^ 64 - (sp + 2 ^ 64 - n) % 2 ^ 64 % 16

def pushStrings (t : Table) (stackbase : Nat) :
    List (List UInt8) → Nat → List Nat → Mem → Option (Nat × List Nat) × Mem
  | [], sp, ustack, m => (some (sp, ustack), m)
  | arg :: rest, sp, ustack, m =>
    if MAXARG ≤ ustack.length ∨ lower sp (arg.length + 1) < stackbase then (none, m)
    else
      match copyout t (arg.length + 1) (lower sp (arg.length + 1)) (arg ++ [0]) m with
      | (false, m) => (none, m)
      | (true, m) =>
        pushStrings t stackbase rest (lower sp (arg.length + 1))
          (ustack ++ [lower sp (arg.length + 1)]) m

def leBytes (n w : Nat) : List UInt8 := (List.range n).map fun i => UInt8.ofNat (w / 256 ^ i)

def pushArray (t : Table) (stackbase sp : Nat) (ustack : List Nat) (m : Mem) : Option Nat × Mem :=
  if sp < stackbase then (none, m)
  else
    match copyout t ((ustack.length + 1) * 8) sp ((ustack ++ [0]).flatMap (leBytes 8)) m with
    | (false, m) => (none, m)
    | (true, m) => (some sp, m)

/-- The arguments and their pointers: `sp`, or nothing after `goto bad`. -/
def pushArgs (t : Table) (sz : Nat) (argv : List (List UInt8)) (m : Mem) : Option Nat × Mem :=
  match pushStrings t (sz - PGSIZE) argv sz [] m with
  | (none, m) => (none, m)
  | (some (sp, ustack), m) =>
    pushArray t (sz - PGSIZE) (lower sp ((ustack.length + 1) * 8)) ustack m

structure Proc (α : Type) where
  pagetable : Table
  sz : Nat
  trapframe : Nat
  epc : Nat
  sp : Nat
  a1 : Nat
  name : List UInt8
  mqmask : BitVec 32
  vma : α

/-- Transactions begun, references to the inode, inode locks held, the attachments of
`proc[0]`, for which `proc` stands, and the tables of segments and queues. -/
structure Sys where
  ops : Nat
  ref : Nat
  locks : Nat
  shm : Nat
  shmkeymask : BitVec 32
  shmtab : Shm.Key → Shm.Sharemem
  queues : MqRefs.Queues

def Sys.hold (s : Sys) : Sys := { s with ops := s.ops + 1, ref := s.ref + 1, locks := s.locks + 1 }

def Sys.letGo (s : Sys) : Sys := { s with ops := s.ops - 1, ref := s.ref - 1, locks := s.locks - 1 }

def lastElement (path : List UInt8) : List UInt8 :=
  ((path.reverse.takeWhile (· ≠ 47)).reverse).take 15

def cleanup (L : Layout) (image : Option (Nat × Table)) (m : Mem) : Except Stop Mem :=
  match image with
  | none => .ok m
  | some (sz, t) => lift (procFreepagetable L sz t m)

/-- The loop of `deallocshm` below page `n`; with `shm` 0 the address wraps around. -/
def deallocLoop (L : Layout) (shm : Nat) : Nat → Table → Mem → Except Panic (Table × Mem)
  | 0, t, m => if shm = 0 then .error .walk else .ok (t, m)
  | n + 1, t, m =>
    if n * PGSIZE < shm then .ok (t, m)
    else
      match t.pte n with
      | none => deallocLoop L shm n t m
      | some e =>
        if e.pa = 0 then .error .nullPage
        else do
          let m ← kfree L m e.pa
          deallocLoop L shm n { t with pte := update t.pte n none } m

def deallocshm (L : Layout) (t : Table) (oldshm newshm : Nat) (m : Mem) :
    Except Panic (Table × Mem) :=
  if newshm ≤ oldshm then .ok (t, m)
  else deallocLoop L oldshm ((newshm - PGSIZE) / PGSIZE + 1) t m

def shmrelease (L : Layout) (t : Table) (s : Sys) (m : Mem) :
    Except Stop (Table × Mem × (Shm.Key → Shm.Sharemem)) := do
  let (t, m) ← lift (deallocshm L t s.shm KERNBASE m)
  match Shm.shmrelease s.shmtab (some fun n => (t.pte n).map Pte.pa) s.shm s.shmkeymask with
  | none => throw .fault
  | some tab => return (t, m, tab)

/-- The page of the queue with this key, when its last reference goes. -/
def lastPage (q : MqRefs.Queues) (key : BitVec 32) : Option Nat :=
  (MqRefs.findkey q.mqs key).bind fun i =>
    if (q.mqs i).refcount = 1 then some ((q.mqs i).msgs.getD 0) else none

def releasemq (L : Layout) (q : MqRefs.Queues) (key : BitVec 32) (m : Mem) :
    Except Panic (MqRefs.Queues × Mem) := do
  let m ← (lastPage q key).elim (.ok m) (kfree L m)
  return (MqRefs.releasemq q key, m)

/-- What `exec` gives back of the old image. -/
def release {α : Type} (L : Layout) (p : Proc α) (s : Sys) (m : Mem) : Except Stop (Sys × Mem) := do
  let (t, m, tab) ← shmrelease L p.pagetable s m
  let m ← lift (procFreepagetable L p.sz t m)
  let (queues, m) ← lift (releasemq L s.queues p.mqmask m)
  return ({ s with shm := KERNBASE, shmkeymask := 0, shmtab := tab, queues := queues }, m)

def finish {α : Type} (L : Layout) (path file : List UInt8) (argv : List (List UInt8)) (p : Proc α)
    (s : Sys) (sz : Nat) (t : Table) (m : Mem) : Except Stop (Option Nat × Proc α × Sys × Mem) :=
  match pushArgs t sz argv m with
  | (none, m) => do
    let m ← cleanup L (some (sz, t)) m
    return (none, p, s, m)
  | (some sp, m) => do
    let (s, m) ← release L p s m
    return (some argv.length,
      { p with pagetable := t, sz := sz, sp := sp, a1 := sp, mqmask := 0
               epc := field (readi file 0 elfSize) 24 8, name := lastElement path }, s, m)

/-- The number of arguments, or nothing for `-1`. -/
def exec {α : Type} (L : Layout) (trampoline : Nat) (path : List UInt8)
    (file : Option Executable) (argv : List (List UInt8)) (p : Proc α) (s : Sys) (m : Mem) :
    Except Stop (Option Nat × Proc α × Sys × Mem) :=
  match file with
  | none => .ok (none, p, s, m)
  | some file => do
    let (done, image, m) ← loadFile L trampoline p.trapframe file.bytes m
    match done, image with
    | true, some (sz, t) => do
      let (sz1, t, m) ← lift (addStack L sz t m)
      if sz1 = 0 then do
        let m ← cleanup L (some (pgroundup sz, t)) m
        return (none, p, s.hold.letGo, m)
      else finish L path file.bytes argv p s.hold.letGo sz1 t m
    | _, image => do
      let m ← cleanup L image m
      return (none, p, s.hold.letGo, m)

/-! ## What a run takes and gives back -/

section Specs
variable {L : Layout} {m₀ m m' : Mem} {t : Table} {ps bs : List Nat} {sz trampoline trapframe : Nat}
  {file : List UInt8}

theorem lift_ends {α : Type} {P : α → Prop} {x : Except Panic α} (h : Ends P (fun _ => False) x) :
    Ends P (fun _ => False) (lift x) := by
  cases x with
  | ok a => exact h
  | error e => exact h.elim

structure Touches (bs : List Nat) (m m' : Mem) : Prop where
  free : m'.free = m.free
  cnt : m'.cnt = m.cnt
  data : ∀ b, b ∉ bs → m'.data b = m.data b

theorem Touches.refl (bs : List Nat) (m : Mem) : Touches bs m m := ⟨rfl, rfl, fun _ _ => rfl⟩

theorem Touches.trans {m2 : Mem} (h : Touches bs m m') (h' : Touches bs m' m2) : Touches bs m m2 :=
  ⟨h'.free.trans h.free, h'.cnt.trans h.cnt, fun b hb => (h'.data b hb).trans (h.data b hb)⟩

theorem touches_setPage {pa : Nat} (hpa : pa ∈ bs) (content : Nat → UInt8) :
    Touches bs m (m.setPage pa content) :=
  ⟨rfl, rfl, fun b hb => update_of_ne (fun he : b = pa => hb (he ▸ hpa)) _ _⟩

theorem takes_touch {xs : List Nat} (h : Takes m₀ m xs) (ht : Touches bs m m')
    (hsub : ∀ b ∈ bs, b ∈ xs) : Takes m₀ m' xs := by
  refine ⟨ht.free ▸ h.free, fun b => ht.cnt ▸ h.cnt b, fun b hb => ?_⟩
  rw [ht.data b fun hmem => hb (h.mem (hsub b hmem))]
  exact h.data b hb

/-! ### Segments -/

variable {top : Nat → Option Pte}

theorem walkaddr_of_grown (h : Grown top m₀ sz t m ps)
    (hlen : ps.length < trapframePage) {va : Nat} (hva : va < sz) :
    ∃ pa ∈ ps, walkaddr t va = some pa := by
  have hpage : va / PGSIZE < ps.length := by
    have hlen' := h.length
    simp only [pgroundup, PGSIZE] at hlen' ⊢
    omega
  have hmax : ¬ MAXVA ≤ va := by
    simp only [trapframePage, maxPage, MAXVA, PGSIZE] at hlen hpage ⊢
    omega
  refine ⟨ps[va / PGSIZE], getElem_mem hpage, ?_⟩
  rw [walkaddr, if_neg hmax, h.pte, fill, if_pos ⟨zero_le, by omega⟩, Nat.sub_zero,
    getElem?_eq_getElem hpage]
  rfl

theorem length_readi_le {off n : Nat} (h : (readi file off n).length = n) (hn : 0 < n) :
    off ≤ file.length := by
  rw [readi] at h
  split at h
  · simp only [length_nil] at h
    omega
  · next hin => omega

variable {k : Nat}

theorem reads_end {offset : Nat} (hfile : file.length ≤ maxBytes) (hoff : offset < 2 ^ 32)
    (hread : ∀ j, j < k → (offset + j * PGSIZE) % 2 ^ 32 ≤ file.length) : k * PGSIZE < 2 ^ 32 := by
  by_contra hbig
  have hj := hread ((2 ^ 32 - 1 - offset) / PGSIZE) (by simp only [PGSIZE] at hbig ⊢; omega)
  simp only [maxBytes, PGSIZE] at hfile hj
  omega

theorem loadLoop_spec {va offset seg : Nat} (hfile : file.length ≤ maxBytes)
    (hoff : offset < 2 ^ 32) (hseg : seg < 2 ^ 32)
    (hmap : ∀ i, i < seg → ∃ pa ∈ bs, walkaddr t (va + i) = some pa) (turns : Nat) :
    ∀ (k : Nat) (m : Mem), turns + k = (seg + PGSIZE - 1) / PGSIZE →
      (∀ j, j < k → (offset + j * PGSIZE) % 2 ^ 32 ≤ file.length) →
      Ends (fun r => Touches bs m r.2) (fun _ => False)
        (loadLoop file va offset seg t turns (k * PGSIZE) m) := by
  induction turns with
  | zero =>
    intro k m hk hread
    have hwrap := reads_end hfile hoff hread
    have hdone : ¬ k * PGSIZE % 2 ^ 32 < seg := by
      rw [Nat.mod_eq_of_lt hwrap]
      simp only [PGSIZE] at hk ⊢
      omega
    rw [loadLoop, if_neg hdone]
    exact Touches.refl bs m
  | succ turns ih =>
    intro k m hk hread
    have hlt : k * PGSIZE < seg := by
      simp only [PGSIZE] at hk ⊢
      omega
    obtain ⟨pa, hpa, hwalk⟩ := hmap (k * PGSIZE) hlt
    rw [loadLoop, hwalk]
    simp only
    split
    · next hall =>
      have hhere := length_readi_le hall (by simp only [PGSIZE] at hlt ⊢; omega)
      have hnext : k * PGSIZE + PGSIZE = (k + 1) * PGSIZE := by ring
      rw [hnext]
      refine (ih (k + 1) _ (by omega) fun j hj => ?_).mono
        (fun r hr => (touches_setPage hpa _).trans hr) fun _ he => he
      rcases Nat.lt_succ_iff_lt_or_eq.mp hj with hlow | rfl
      · exact hread j hlow
      · exact hhere
    · exact touches_setPage hpa _

theorem loadSegment_spec (h0 : Fair L m₀)
    (htop : ∀ k, k < trapframePage → top k = none) (hfile : file.length ≤ maxBytes) (ph : Proghdr)
    (h : Grown top m₀ sz t m ps) :
    Ends (fun r => ∃ ps', Grown top m₀ r.2.1 r.2.2.1 r.2.2.2 ps') (fun _ => False)
      (loadSegment L file ph sz t m) := by
  rw [loadSegment]
  by_cases hsize : ph.memsz < ph.filesz
  · rw [if_pos hsize]
    exact ⟨ps, h⟩
  rw [if_neg hsize]
  by_cases hwrap : (ph.vaddr + ph.memsz) % 2 ^ 64 < ph.vaddr
  · rw [if_pos hwrap]
    exact ⟨ps, h⟩
  rw [if_neg hwrap]
  refine .bind (lift_ends (h.uvmalloc h0 htop _)) fun ⟨sz1, t1, m1⟩ hr => ?_
  by_cases hz : sz1 = 0
  · simp only [hz, if_true]
    exact ⟨ps, hr.1 hz⟩
  obtain ⟨hmax, ps1, h1⟩ := hr.2 hz
  simp only [if_neg hz]
  by_cases halign : ph.vaddr % PGSIZE ≠ 0
  · rw [if_pos halign]
    exact ⟨ps1, h1⟩
  have hmap : ∀ i, i < ph.filesz % 2 ^ 32 → ∃ pa ∈ ps1,
      walkaddr t1 (ph.vaddr + i) = some pa := by
    intro i hi
    refine walkaddr_of_grown h1 (h1.length_lt h0) ?_
    -- the end of the segment in memory does not wrap
    have hmem := ph.memsz_lt
    simp only at hmax ⊢
    omega
  have hload := loadLoop_spec hfile (Nat.mod_lt ph.off (by decide))
    (Nat.mod_lt ph.filesz (by decide)) hmap _ 0 m1 (add_zero _)
    (fun j hj => absurd hj (Nat.not_lt_zero j))
  rw [Nat.zero_mul] at hload
  rw [if_neg halign, loadseg, if_neg halign]
  refine .bind hload fun ⟨done, m2⟩ htouch => ?_
  exact ⟨ps1, h1.pte, h1.length, takes_touch h1.takes htouch fun b hb =>
    mem_append_right _ hb⟩

theorem loadHeaders_spec (h0 : Fair L m₀)
    (htop : ∀ k, k < trapframePage → top k = none) (hfile : file.length ≤ maxBytes) (left : Nat) :
    ∀ (off sz : Nat) (t : Table) (m : Mem) (ps : List Nat), Grown top m₀ sz t m ps →
      Ends (fun r => ∃ ps', Grown top m₀ r.2.1 r.2.2.1 r.2.2.2 ps') (fun _ => False)
        (loadHeaders L file left off sz t m) := by
  induction left with
  | zero => exact fun off sz t m ps h => ⟨ps, h⟩
  | succ left ih =>
    intro off sz t m ps h
    rw [loadHeaders]
    generalize proghdr (readi file off phSize) = ph
    split
    · exact ⟨ps, h⟩
    split
    · exact ih ((off + phSize) % 2 ^ 32) sz t m ps h
    refine .bind (loadSegment_spec h0 htop hfile ph h) fun ⟨done, sz', t', m'⟩ hr => ?_
    cases done with
    | true =>
      obtain ⟨ps', h'⟩ := hr
      exact ih ((off + phSize) % 2 ^ 32) sz' t' m' ps' h'
    | false => exact hr

/-- The pages of an image of size `sz`, which `procFreepagetable` gives back. -/
structure Whole (m₀ : Mem) (sz : Nat) (t : Table) (m : Mem) : Prop where
  flags : ∀ k e, t.pte k = some e → e.flags ≠ noFlags
  small : pgroundup sz / PGSIZE ≤ trapframePage
  takes : Takes m₀ m (t.pages ++ leaves t.pte 0 (pgroundup sz / PGSIZE))

theorem Whole.free (h : Whole m₀ sz t m) (h0 : Fair L m₀) :
    Ends (fun m' => Takes m₀ m' []) (fun _ => False) (lift (procFreepagetable L sz t m)) := by
  refine lift_ends (procFreepagetable_spec h0 h.flags h.small ?_)
  rw [append_nil]
  exact h.takes

theorem whole_of_grown (h : Grown (tops trampoline trapframe) m₀ sz t m ps) (h0 : Fair L m₀) :
    Whole m₀ sz t m := by
  refine ⟨fun k e he => ?_, ?_, ?_⟩
  · rw [h.pte] at he
    by_cases hk : 0 ≤ k ∧ k < 0 + ps.length
    · rw [fill_flags hk he]
      decide
    · rw [fill, if_neg hk] at he
      exact tops_flags he
  · rw [← h.length]
    exact le_of_lt (h.length_lt h0)
  · rw [← h.length, h.pte, leaves_fill]
    exact h.takes

theorem loadFile_spec (h0 : Fair L m₀) (hfile : file.length ≤ maxBytes)
    (trampoline trapframe : Nat) : Ends (fun r => (r.2.1 = none → r.1 = false ∧ Takes m₀ r.2.2 []) ∧
        ∀ sz t, r.2.1 = some (sz, t) → ∃ ps, Grown (tops trampoline trapframe) m₀ sz t r.2.2 ps)
      (fun _ => False) (loadFile L trampoline trapframe file m₀) := by
  rw [loadFile]
  simp only
  split
  · exact ⟨fun _ => ⟨rfl, Takes.refl m₀⟩, fun _ _ h => by cases h⟩
  split
  · exact ⟨fun _ => ⟨rfl, Takes.refl m₀⟩, fun _ _ h => by cases h⟩
  apply Ends.bind (lift_ends (procPagetable_spec h0 (Takes.refl m₀) trampoline trapframe))
  rintro ⟨t, m⟩ hr
  cases t with
  | none => exact ⟨fun _ => ⟨rfl, hr.1 rfl⟩, fun _ _ h => by cases h⟩
  | some t =>
    obtain ⟨hpte, htakes⟩ := hr.2 t rfl
    have hgrown : Grown (tops trampoline trapframe) m₀ 0 t m [] := by
      refine ⟨?_, rfl, htakes⟩
      rw [hpte]
      funext k
      rw [fill, if_neg (by simp)]
    apply Ends.bind (loadHeaders_spec h0 (fun k hk => tops_below hk) hfile _ _ 0 t m [] hgrown)
    rintro ⟨done, sz, t', m'⟩ hl
    refine ⟨by simp, fun sz' t'' he => ?_⟩
    cases he
    exact hl

/-! ### The stack -/

/-- The stack page `pa` is the last page below `sz`. -/
structure Stacked (m₀ : Mem) (sz : Nat) (t : Table) (m : Mem) (pa : Nat) : Prop where
  whole : Whole m₀ sz t m
  aligned : sz % PGSIZE = 0
  room : 2 * PGSIZE ≤ sz
  below : sz < MAXVA
  stack : t.pte (sz / PGSIZE - 1) = some ⟨pa, wxru⟩
  user : ∀ va pa, walkaddr t va = some pa → pa ∈ leaves t.pte 0 (pgroundup sz / PGSIZE)

variable {e : Pte}

theorem mem_leaves {pte : Nat → Option Pte} {c : Nat} (hk : k < c) (he : pte k = some e) :
    e.pa ∈ leaves pte 0 c := by
  refine mem_filterMap.mpr ⟨k, mem_range'.mpr ⟨k, hk, by omega⟩, ?_⟩
  rw [he]
  rfl

theorem tops_user (h : tops trampoline trapframe k = some e) :
    e.flags.u = false := by
  simp only [tops, update_apply] at h
  split at h
  · cases h
    rfl
  split at h
  · cases h
    rfl
  · cases h

theorem uvmclear_eq {n : Nat} (hn : n < maxPage) (he : t.pte n = some e) : uvmclear n t =
      .ok { t with pte := update t.pte n (some ⟨e.pa, { e.flags with u := false }⟩) } := by
  rw [uvmclear, if_neg (not_le.mpr hn), he]

theorem addStack_spec (h0 : Fair L m₀) (h : Grown (tops trampoline trapframe) m₀ sz t m ps) :
    Ends (fun r => (r.1 = 0 → Whole m₀ (pgroundup sz) r.2.1 r.2.2) ∧
        (r.1 ≠ 0 → ∃ pa, Stacked m₀ r.1 r.2.1 r.2.2 pa)) (fun _ => False) (addStack L sz t m) := by
  have hround : Grown (tops trampoline trapframe) m₀ (pgroundup sz) t m ps := by
    refine ⟨h.pte, ?_, h.takes⟩
    rw [show pgroundup (pgroundup sz) = pgroundup sz from pgroundup_mul _]
    exact h.length
  refine .bind (hround.uvmalloc h0 (fun k hk => tops_below hk) _) fun ⟨sz1, t1, m1⟩ hr => ?_
  by_cases hz : sz1 = 0
  · simp only [hz, if_true]
    exact ⟨fun _ => whole_of_grown (hr.1 hz) h0, fun hne => absurd rfl hne⟩
  obtain ⟨hmax, ps1, h1⟩ := hr.2 hz
  simp only at hmax h1
  have hsz : sz1 = pgroundup sz + 2 * PGSIZE := by
    simp only [PGSIZE] at hmax ⊢
    omega
  have haligned : sz1 % PGSIZE = 0 := by
    rw [hsz]
    simp only [pgroundup, PGSIZE]
    omega
  have hlen : ps1.length = sz1 / PGSIZE := by
    rw [h1.length]
    simp only [pgroundup, PGSIZE] at haligned ⊢
    omega
  have htwo : 2 ≤ ps1.length := by
    rw [hlen, hsz]
    simp only [PGSIZE]
    omega
  have hlt := h1.length_lt h0
  have hentry : ∀ k (hk : k < ps1.length), t1.pte k = some ⟨ps1[k], wxru⟩ := by
    intro k hk
    rw [h1.pte, fill, if_pos ⟨zero_le, by omega⟩, Nat.sub_zero, getElem?_eq_getElem hk]
    rfl
  have hguard := hentry (sz1 / PGSIZE - 2) (by omega)
  have hpages : pgroundup sz1 / PGSIZE = ps1.length := h1.length.symm
  have hbelow : trapframePage < maxPage := by decide
  have hroom : 2 * PGSIZE ≤ sz1 := hsz ▸ Nat.le_add_left ..
  have hmaxva : sz1 < MAXVA := by
    simp only [trapframePage, maxPage, MAXVA, PGSIZE] at hlt hlen haligned ⊢
    omega
  obtain ⟨t2, hclear, hnodes, hpte⟩ : ∃ t2, uvmclear (sz1 / PGSIZE - 2) t1 = .ok t2 ∧
      t2.pages = t1.pages ∧ t2.pte = update t1.pte (sz1 / PGSIZE - 2)
        (some ⟨ps1[sz1 / PGSIZE - 2], { wxru with u := false }⟩) :=
    ⟨_, uvmclear_eq (by omega) hguard, rfl, rfl⟩
  -- the guard page keeps its place among the leaves
  have hleaves : leaves t2.pte 0 (pgroundup sz1 / PGSIZE) =
      leaves t1.pte 0 (pgroundup sz1 / PGSIZE) := by
    refine filterMap_congr fun k _ => ?_
    rw [hpte]
    by_cases hk : k = sz1 / PGSIZE - 2
    · rw [hk, update_self, hguard]
      rfl
    · rw [update_of_ne hk]
  have hw := whole_of_grown h1 h0
  have hflags : ∀ k e, t2.pte k = some e → e.flags ≠ noFlags := by
    intro k e he
    rw [hpte] at he
    by_cases hk : k = sz1 / PGSIZE - 2
    · rw [hk, update_self] at he
      cases he
      show ({ wxru with u := false } : Flags) ≠ noFlags
      decide
    · rw [update_of_ne hk] at he
      exact hw.flags k e he
  have huser : ∀ va pa, walkaddr t2 va = some pa →
      pa ∈ leaves t2.pte 0 (pgroundup sz1 / PGSIZE) := by
    intro va pa hwalk
    rw [walkaddr] at hwalk
    split at hwalk
    · cases hwalk
    split at hwalk
    · cases hwalk
    · next e he =>
      obtain ⟨hu, ⟨⟩⟩ := Option.ite_none_right_eq_some.mp hwalk
      by_cases hk : va / PGSIZE < ps1.length
      · exact mem_leaves (hpages ▸ hk) he
      rw [hpte, update_of_ne (by omega), h1.pte, fill, if_neg (by omega)] at he
      rw [tops_user he] at hu
      cases hu
  have hstack : t2.pte (sz1 / PGSIZE - 1) = some ⟨ps1[sz1 / PGSIZE - 1], wxru⟩ := by
    rw [hpte, update_of_ne (by omega)]
    exact hentry _ (by omega)
  simp only [if_neg hz]
  rw [hclear, ok_bind]
  refine ⟨fun he => absurd he hz, fun _ => ⟨_, ⟨hflags, hw.small, ?_⟩, haligned, hroom, hmaxva,
    hstack, huser⟩⟩
  rw [hnodes, hleaves]
  exact hw.takes

section
variable (hu : ∀ va pa, walkaddr t va = some pa → pa ∈ bs)
include hu

theorem copyout_touches (fuel : Nat) :
    ∀ (va : Nat) (xs : List UInt8) (m : Mem), Touches bs m (copyout t fuel va xs m).2 := by
  induction fuel with
  | zero =>
    intro va xs m
    cases xs <;> exact Touches.refl bs m
  | succ fuel ih =>
    intro va xs m
    cases xs with
    | nil => exact Touches.refl bs m
    | cons x xs =>
      rw [copyout]
      split
      · exact Touches.refl bs m
      · next pa hwalk => exact (touches_setPage (hu _ pa hwalk) _).trans (ih _ _ _)

theorem pushStrings_touches (base : Nat)
    (argv : List (List UInt8)) : ∀ (sp : Nat) (ustack : List Nat) (m : Mem),
      Touches bs m (pushStrings t base argv sp ustack m).2 := by
  induction argv with
  | nil => exact fun sp ustack m => Touches.refl bs m
  | cons arg rest ih =>
    intro sp ustack m
    rw [pushStrings]
    split
    · exact Touches.refl bs m
    have hout := copyout_touches hu (arg.length + 1) (lower sp (arg.length + 1)) (arg ++ [0]) m
    rcases hc : copyout t (arg.length + 1) (lower sp (arg.length + 1)) (arg ++ [0]) m with
      ⟨_ | _, m1⟩
    · rw [hc] at hout
      exact hout
    · rw [hc] at hout
      exact hout.trans (ih _ _ m1)

theorem pushArgs_touches (sz : Nat)
    (argv : List (List UInt8)) (m : Mem) : Touches bs m (pushArgs t sz argv m).2 := by
  have harray : ∀ sp ustack m, Touches bs m (pushArray t (sz - PGSIZE) sp ustack m).2 := by
    intro sp ustack m
    have hout := copyout_touches hu ((ustack.length + 1) * 8) sp
      ((ustack ++ [0]).flatMap (leBytes 8)) m
    rw [pushArray]
    split
    · exact Touches.refl bs m
    split
    all_goals
      next m1 hc =>
      rw [hc] at hout
      exact hout
  have hpush := pushStrings_touches hu (sz - PGSIZE) argv sz [] m
  rw [pushArgs]
  rcases hp : pushStrings t (sz - PGSIZE) argv sz [] m with ⟨_ | ⟨sp, ustack⟩, m1⟩
  · rw [hp] at hpush
    exact hpush
  · rw [hp] at hpush
    exact hpush.trans (harray _ ustack m1)

end

/-! ### `exec` -/

/-- `exec` frees the page behind the entry `k` of the old page table. -/
def Gone {α : Type} (p : Proc α) (s : Sys) (k : Nat) : Prop :=
  k < pgroundup p.sz / PGSIZE ∨ s.shm ≤ k * PGSIZE ∧ k * PGSIZE < KERNBASE

/-- The old image ends below the trapframe, its entries and the queue to be freed are pages, and
no segment loses its last reference. -/
structure Releasable {α : Type} (L : Layout) (p : Proc α) (s : Sys) : Prop where
  size : pgroundup p.sz / PGSIZE ≤ trapframePage
  flags : ∀ k e, p.pagetable.pte k = some e → e.flags ≠ noFlags
  leaf : ∀ k e, Gone p s k → p.pagetable.pte k = some e → IsPage L e.pa
  node : ∀ b ∈ p.pagetable.pages, IsPage L b
  shm : s.shm ≠ 0
  held : ∀ k, Shm.shmkeyused k s.shmkeymask = true →
    (s.shmtab k).refcount = 1 → (s.shmtab k).pagenum = 0
  queue : ∀ b ∈ lastPage s.queues p.mqmask, IsPage L b

/-- A page that is neither behind an entry, nor of the page table, nor of the queue. -/
def Foreign {α : Type} (p : Proc α) (s : Sys) (b : Nat) : Prop :=
  (∀ k e, Gone p s k → p.pagetable.pte k = some e → e.pa ≠ b) ∧ b ∉ p.pagetable.pages ∧
    b ∉ lastPage s.queues p.mqmask

theorem deallocLoop_spec {shm : Nat} (hshm : shm ≠ 0) (n : Nat) : ∀ (t : Table) (m : Mem),
    (∀ k e, shm ≤ k * PGSIZE → k < n → t.pte k = some e → IsPage L e.pa) →
    Ends (fun r => r.1.pages = t.pages ∧ (∀ k e, r.1.pte k = some e → t.pte k = some e) ∧
        ∀ b, (∀ k e, shm ≤ k * PGSIZE → k < n → t.pte k = some e → e.pa ≠ b) →
          r.2.data b = m.data b)
      (fun _ => False) (deallocLoop L shm n t m) := by
  induction n with
  | zero =>
    intro t m _
    rw [deallocLoop, if_neg hshm]
    exact ⟨rfl, fun _ _ he => he, fun _ _ => rfl⟩
  | succ n ih =>
    intro t m hpage
    rw [deallocLoop]
    split
    · exact ⟨rfl, fun _ _ he => he, fun _ _ => rfl⟩
    next hn =>
    cases hp : t.pte n with
    | none =>
      refine (ih t m fun k e hs hk => hpage k e hs (by omega)).mono (fun r hr => ?_) fun _ he => he
      exact ⟨hr.1, hr.2.1, fun b hb => hr.2.2 b fun k e hs hk => hb k e hs (by omega)⟩
    | some e =>
      have hpa := hpage n e (not_lt.mp hn) (Nat.lt_succ_self n) hp
      have hnull : e.pa ≠ 0 := by
        intro hz
        have hend := L.kend_ge.trans hpa.2.1
        rw [hz] at hend
        exact absurd hend (by decide)
      have hkeep : ∀ k e', update t.pte n none k = some e' → t.pte k = some e' := by
        intro k e' he
        rw [update_apply] at he
        split at he
        · cases he
        · exact he
      simp only [if_neg hnull]
      refine .bind (kfree_spec m hpa) fun m1 h1 => (ih _ m1 fun k e' hs hk he =>
        hpage k e' hs (by omega) (hkeep k e' he)).mono (fun r hr => ?_) fun _ he => he
      refine ⟨hr.1, fun k e' he => hkeep k e' (hr.2.1 k e' he), fun b hb => ?_⟩
      rw [hr.2.2 b fun k e' hs hk he => hb k e' hs (by omega) (hkeep k e' he),
        h1 b (hb n e (not_lt.mp hn) (Nat.lt_succ_self n) hp).symm]

theorem deallocshm_spec {shm : Nat} (hshm : shm ≠ 0) {t : Table} (m : Mem)
    (hpage : ∀ k e, shm ≤ k * PGSIZE → k * PGSIZE < KERNBASE → t.pte k = some e → IsPage L e.pa) :
    Ends (fun r => r.1.pages = t.pages ∧ (∀ k e, r.1.pte k = some e → t.pte k = some e) ∧
        ∀ b, (∀ k e, shm ≤ k * PGSIZE → k * PGSIZE < KERNBASE → t.pte k = some e → e.pa ≠ b) →
          r.2.data b = m.data b)
      (fun _ => False) (deallocshm L t shm KERNBASE m) := by
  have hbound : ∀ k, k < (KERNBASE - PGSIZE) / PGSIZE + 1 → k * PGSIZE < KERNBASE := by
    intro k hk
    simp only [KERNBASE, PGSIZE] at *
    omega
  unfold deallocshm
  split
  · exact ⟨rfl, fun _ _ he => he, fun _ _ => rfl⟩
  · refine (deallocLoop_spec hshm _ t m fun k e hs hk => hpage k e hs (hbound k hk)).mono
      (fun r hr => ⟨hr.1, hr.2.1, fun b hb => ?_⟩) fun _ he => he
    exact hr.2.2 b fun k e hs hk => hb k e hs (hbound k hk)

theorem releaseKeys_some {mask : BitVec 32} (ks : List Shm.Key) : ∀ tab : Shm.Key → Shm.Sharemem,
    ks.Nodup → (∀ k ∈ ks, Shm.shmkeyused k mask = true → (tab k).refcount = 1 →
      (tab k).pagenum = 0) → (ks.foldlM (Shm.releaseKey mask) tab).isSome := by
  induction ks with
  | nil => exact fun _ _ _ => rfl
  | cons k ks ih =>
    intro tab hnodup hheld
    obtain ⟨hk, hnodup⟩ := nodup_cons.mp hnodup
    have hrest : ∀ m, (ks.foldlM (Shm.releaseKey mask) (update tab k m)).isSome := by
      intro m
      refine ih _ hnodup fun j hj => ?_
      have hne : j ≠ k := by
        rintro rfl
        exact hk hj
      rw [update_of_ne hne]
      exact hheld j (mem_cons_of_mem k hj)
    rw [foldlM_cons, Shm.releaseKey]
    split
    · next hused =>
      simp only
      split
      · next hone =>
        have hnone := hheld k (mem_cons_self ..) hused (by omega)
        rw [Shm.shmrm, update_self, if_neg (by simp [hnone]), update_idem]
        exact hrest _
      · exact hrest _
    · have hsame := hrest (tab k)
      rwa [update_eq_self] at hsame

theorem Releasable.free {α : Type} {p : Proc α} {s : Sys} (h : Releasable L p s) (m : Mem) :
    Ends (fun r => ∀ b, Foreign p s b → r.2.data b = m.data b) (fun _ => False)
      (release L p s m) := by
  refine .bind (P := fun r => r.1.pages = p.pagetable.pages ∧
    (∀ k e, r.1.pte k = some e → p.pagetable.pte k = some e) ∧
      ∀ b, Foreign p s b → r.2.1.data b = m.data b) ?_ ?_
  · refine .bind (lift_ends (deallocshm_spec h.shm m fun k e hs hk => h.leaf k e (.inr ⟨hs, hk⟩)))
      fun ⟨t, m1⟩ hr => ?_
    obtain ⟨tab, htab⟩ := Option.isSome_iff_exists.mp
      (releaseKeys_some (finRange 8) s.shmtab (nodup_finRange 8) fun k _ => h.held k)
    simp only [Shm.shmrelease, Option.isNone_some, Bool.false_eq_true, false_and, if_false, htab]
    exact ⟨hr.1, hr.2.1, fun b hb => hr.2.2 b fun k e hs hk => hb.1 k e (.inr ⟨hs, hk⟩)⟩
  rintro ⟨t, m1, tab⟩ ⟨hpages, hpte, hdata⟩
  simp only at hpages hpte hdata
  have hleaf : ∀ b ∈ leaves t.pte 0 (pgroundup p.sz / PGSIZE), ∃ k e, Gone p s k ∧
      p.pagetable.pte k = some e ∧ e.pa = b := by
    intro b hb
    obtain ⟨k, hk, hb⟩ := mem_filterMap.mp hb
    obtain ⟨e, he, rfl⟩ := Option.map_eq_some_iff.mp hb
    obtain ⟨i, hi, rfl⟩ := mem_range'.mp hk
    exact ⟨_, e, .inl (by omega), hpte _ e he, rfl⟩
  have hnode : ∀ b ∈ t.nodes.map Prod.snd ++ [t.root], b ∈ p.pagetable.pages := by
    intro b hb
    rw [← hpages]
    exact (perm_append_singleton _ _).mem_iff.mp hb
  refine .bind (P := fun m2 => ∀ b, Foreign p s b → m2.data b = m.data b) (lift_ends ?_) ?_
  · rw [procFreepagetable_eq (fun k e he => h.flags k e (hpte k e he)) h.size]
    refine .bind (kfrees_spec _ m1 fun b hb => ?_) fun m2 h2 =>
      (kfrees_spec _ m2 fun b hb => h.node b (hnode b hb)).mono
        (fun m3 h3 b hb => ?_) fun _ he => he
    · obtain ⟨k, e, hk, he, rfl⟩ := hleaf b hb
      exact h.leaf k e hk he
    · rw [h3 b fun hin => hb.2.1 (hnode b hin), h2 b, hdata b hb]
      intro hin
      obtain ⟨k, e, hk, he, heq⟩ := hleaf b hin
      exact hb.1 k e hk he heq
  · intro m2 h2
    refine .bind (P := fun r : MqRefs.Queues × Mem => ∀ b, Foreign p s b → r.2.data b = m.data b)
      (lift_ends ?_) fun ⟨_, _⟩ hr => hr
    rw [releasemq]
    have hqueue := h.queue
    cases hq : lastPage s.queues p.mqmask with
    | none => exact h2
    | some pa =>
      rw [hq] at hqueue
      refine .bind (kfree_spec m2 (hqueue pa rfl)) fun m3 h3 b hb => ?_
      rw [← h2 b hb]
      exact h3 b fun he => hb.2.2 (by rw [hq, he]; rfl)

theorem letGo_hold (s : Sys) : s.hold.letGo = s := rfl

theorem exec_spec {α : Type} (h0 : Fair L m) (trampoline : Nat) (path : List UInt8)
    (file : Option Executable) (argv : List (List UInt8)) (p : Proc α) (s : Sys) :
    Ends (fun r => (r.1 = none → r.2.1 = p ∧ r.2.2.1 = s ∧ Takes m r.2.2.2 []) ∧
        (r.1 = none ∨ r.1 = some argv.length))
      (fun _ => ¬ Releasable L p s) (exec L trampoline path file argv p s m) := by
  have hbad : ∀ (sz : Nat) (t : Table) (m1 : Mem), Whole m sz t m1 →
      Ends (fun m' => Takes m m' []) (fun _ => ¬ Releasable L p s)
        (cleanup L (some (sz, t)) m1) := fun sz t m1 h => (h.free h0).of_returns
  cases file with
  | none => exact ⟨fun _ => ⟨rfl, rfl, Takes.refl m⟩, .inl rfl⟩
  | some file =>
    refine .bind (loadFile_spec h0 file.length_le trampoline p.trapframe).of_returns
      fun ⟨done, image, m1⟩ hr => ?_
    cases image with
    | none =>
      obtain ⟨hdone, h1⟩ := hr.1 rfl
      have hdone' : done = false := hdone
      subst hdone'
      exact ⟨fun _ => ⟨rfl, letGo_hold s, h1⟩, .inl rfl⟩
    | some image =>
      obtain ⟨sz, t⟩ := image
      obtain ⟨ps, hgrown⟩ := hr.2 sz t rfl
      cases done with
      | false =>
        exact .bind (hbad sz t m1 (whole_of_grown hgrown h0)) fun m2 h2 =>
          ⟨fun _ => ⟨rfl, letGo_hold s, h2⟩, .inl rfl⟩
      | true =>
        refine .bind (lift_ends (addStack_spec h0 hgrown)).of_returns
          fun ⟨sz1, t1, m2⟩ hs => ?_
        by_cases hz : sz1 = 0
        · simp only [if_pos hz]
          exact .bind (hbad _ t1 m2 (hs.1 hz)) fun m3 h3 =>
            ⟨fun _ => ⟨rfl, letGo_hold s, h3⟩, .inl rfl⟩
        obtain ⟨pa, hstack⟩ := hs.2 hz
        have htouch := pushArgs_touches hstack.user sz1 argv m2
        simp only [if_neg hz]
        rw [finish]
        rcases hp : pushArgs t1 sz1 argv m2 with ⟨_ | sp, m3⟩
        · rw [hp] at htouch
          have hwhole : Whole m sz1 t1 m3 := ⟨hstack.whole.flags, hstack.whole.small,
            takes_touch hstack.whole.takes htouch fun b hb => mem_append_right _ hb⟩
          exact .bind (hbad sz1 t1 m3 hwhole) fun m4 h4 =>
            ⟨fun _ => ⟨rfl, letGo_hold s, h4⟩, .inl rfl⟩
        by_cases hrel : Releasable L p s
        · exact .bind (hrel.free m3).of_returns fun _ _ => ⟨nofun, .inr rfl⟩
        refine .bind (P := fun _ => True) ?_ fun _ _ => ⟨nofun, .inr rfl⟩
        rw [letGo_hold]
        cases release L p s m3 with
        | ok _ => trivial
        | error _ => exact hrel

end Specs

section Results
variable {α : Type} (L : Layout) (trampoline : Nat) (path : List UInt8) (file : Option Executable)
  (argv : List (List UInt8)) (p : Proc α) (s : Sys) (m : Mem)

/-- When `exec` returns `-1`, the process, the inode and the log are as they were, and so are the
free pages: each one that was taken has been freed once. -/
theorem failed_exec_gives_back (hm : Fair L m) (p' : Proc α) (s' : Sys) (m' : Mem)
    (h : exec L trampoline path file argv p s m = .ok (none, p', s', m')) :
    p' = p ∧ s' = s ∧ m'.free.Perm m.free ∧ (∀ b, m'.cnt b = m.cnt b) ∧
      ∀ b, b ∉ m.free → m'.data b = m.data b := by
  have hspec := exec_spec hm trampoline path file argv p s
  rw [h] at hspec
  obtain ⟨hp, hs, htakes⟩ := hspec.1 rfl
  refine ⟨hp, hs, ?_, fun b => ?_, htakes.data⟩
  · have hfree := htakes.free
    rw [List.append_nil] at hfree
    exact hfree
  · rw [htakes.cnt b]
    simp

def smallFile : Executable where
  bytes := leBytes 4 ELF_MAGIC ++ List.replicate 28 0 ++ leBytes 8 64 ++ List.replicate 16 0 ++
    leBytes 8 1 ++ (leBytes 8 1 ++ List.replicate 24 0 ++ leBytes 8 16 ++ leBytes 8 4096 ++
    List.replicate 8 0)
  length_le := by decide

def freePages (n : Nat) : Mem :=
  ⟨fun _ _ => 0, (List.range n).map fun i => KERNBASE + i * PGSIZE, fun _ => 0⟩

def bareProc : Proc Unit := ⟨⟨KERNBASE, [], fun _ => none⟩, 0, 0, 0, 0, 0, [], 0, ()⟩

def noSys : Sys where
  ops := 0
  ref := 0
  locks := 0
  shm := KERNBASE
  shmkeymask := 0
  shmtab := fun _ => ⟨0, 0, fun _ => 0⟩
  queues := ⟨fun _ => ⟨0, false, none, 0⟩, fun _ => false⟩

theorem freePages_fair : Fair noKernel (freePages 7) ∧ Fair noKernel (freePages 8) := by
  refine ⟨⟨?_, ?_, fun _ _ => rfl⟩, ?_, ?_, fun _ _ => rfl⟩ <;> decide +kernel

theorem failed_of_ends {α : Type} {x : Except Stop (Option Nat × Proc α × Sys × Mem)}
    (h : Ends (fun r => r.1 = none) (fun _ => False) x) : ∃ p s m, x = .ok (none, p, s, m) := by
  obtain ⟨⟨r, p, s, m⟩, rfl, hr⟩ := h.returns
  cases hr
  exact ⟨p, s, m, rfl⟩

theorem failed_exec_gives_back_seven : ∃ p' s' m',
    exec noKernel 0 [] (some smallFile) [] bareProc noSys (freePages 7) = .ok (none, p', s', m') ∧
    p' = bareProc ∧ s' = noSys ∧ m'.free.Perm (freePages 7).free := by
  obtain ⟨p', s', m', heq⟩ := failed_of_ends
    (x := exec noKernel 0 [] (some smallFile) [] bareProc noSys (freePages 7)) (by decide +kernel)
  obtain ⟨hp, hs, hfree, -⟩ :=
    failed_exec_gives_back _ _ _ _ _ _ _ _ freePages_fair.1 p' s' m' heq
  exact ⟨p', s', m', heq, hp, hs, hfree⟩

end Results

end BirdOS.Exec
