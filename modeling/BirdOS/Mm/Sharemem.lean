import BirdOS.Lib.Machine
import BirdOS.Lib.Tally
import BirdOS.Param

/-! # Shared memory segments (`sharemem.c`)

`shmgetat` and what `fork`, `exec` and `freeproc` do to the segments.  In `sharemem.c`
the name `proc` is the process table, so `proc->shm` is a field of `proc[0]`, whoever
calls; `fork` and `exec` read and reset the same slot.

A page table maps page numbers to physical addresses.  The answers of `kalloc` and of
`mappages` (a page-table page may be missing) are part of the label.  `none` is a panic
or a fault in the kernel. -/

namespace BirdOS.Shm

open Machine Tally Function List Option

def MAX_SHM_PGNUM : Nat := 4

abbrev Key := Fin 8

abbrev PageTable := Nat → Option Nat

structure Sharemem where
  refcount : Int
  pagenum : Nat
  physaddr : Nat → Nat

structure Proc where
  pagetable : PageTable
  sz : Nat
  shm : Nat
  shmkeymask : BitVec 32
  shmva : Key → Nat

/-- `held c k`, which no code reads, lists the addresses returned to `c` for its segments. -/
structure State where
  procs : Slot → Proc
  shmtab : Key → Sharemem
  held : Slot → Key → List Nat

def proc0 : Slot := 0

def FAILED : Nat := 2 ^ 64 - 1

/-- An address returned through an `int` and widened to `uint64`. -/
def throughInt (x : Nat) : Nat := (Int.bmod x (2 ^ 32) % 2 ^ 64).toNat

def sub64 (x y : Nat) : Nat := (x + 2 ^ 64 - y) % 2 ^ 64

def shmkeyused (key : Key) (mask : BitVec 32) : Bool := mask.getLsbD key

inductive Answer where
  | page (pa : Nat)
  | noPage
  | noTable

def deallocPages (pt : PageTable) (v : Nat) : Nat → PageTable
  | 0 => pt
  | k + 1 => deallocPages (update pt (v + k) none) v k

def deallocshm (pt : PageTable) (oldshm newshm : Nat) : PageTable :=
  if newshm ≤ oldshm then pt
  else deallocPages pt (oldshm / PGSIZE) ((newshm - oldshm) / PGSIZE)

/-- The loop of `allocshm` over `k` pages; `mappages` panics on a page in use. -/
def allocPages (ans : Nat → Answer) (pt : PageTable) (v i : Nat) :
    Nat → Option (PageTable × Option (List Nat))
  | 0 => some (pt, some [])
  | k + 1 =>
    match ans i with
    | .noPage | .noTable => some (pt, none)
    | .page pa =>
      if (pt v).isSome then none
      else (allocPages ans (update pt v (some pa)) (v + 1) (i + 1) k).map
        fun r => (r.1, r.2.map (pa :: ·))

def allocshm (ans : Nat → Answer) (pt : PageTable) (oldshm newshm sz : Nat) :
    Option (PageTable × Nat × List Nat) :=
  if oldshm % PGSIZE ≠ 0 ∨ newshm % PGSIZE ≠ 0 ∨ oldshm > KERNBASE ∨ newshm < sz then
    some (pt, 0, [])
  else
    match allocPages ans pt (newshm / PGSIZE) 0 ((oldshm - newshm) / PGSIZE) with
    | none => none
    | some (pt', none) => some (deallocshm pt' newshm oldshm, 0, [])
    | some (pt', some phys) => some (pt', throughInt newshm, phys)

def mapPages (ans : Nat → Answer) (physaddr : Nat → Nat) (pt : PageTable) (v i : Nat) :
    Nat → Option (PageTable × Bool)
  | 0 => some (pt, true)
  | k + 1 =>
    match ans i with
    | .noTable => some (pt, false)
    | _ =>
      if (pt v).isSome then none
      else mapPages ans physaddr (update pt v (some (physaddr i))) (v + 1) (i + 1) k

def mapshm (ans : Nat → Answer) (pt : PageTable) (oldshm newshm sz : Nat) (physaddr : Nat → Nat) :
    Option (PageTable × Nat) :=
  if oldshm % PGSIZE ≠ 0 ∨ newshm % PGSIZE ≠ 0 ∨ oldshm > KERNBASE ∨ newshm < sz then some (pt, 0)
  else
    match mapPages ans physaddr pt (newshm / PGSIZE) 0 ((oldshm - newshm) / PGSIZE) with
    | none => none
    | some (pt', false) => some (pt', 0)
    | some (pt', true) => some (pt', throughInt newshm)

def shmadd (tab : Key → Sharemem) (key : Key) (pagenum : Nat) (phys : List Nat) : Key → Sharemem :=
  if pagenum = 0 ∨ pagenum > MAX_SHM_PGNUM then tab
  else update tab key
    { refcount := 1, pagenum := pagenum
      physaddr := fun i => if i < pagenum then phys.getD i 0 else (tab key).physaddr i }

def State.setProc (s : State) (c : Slot) (p : Proc) : State :=
  { s with procs := update s.procs c p }

def attach (s : State) (pt : PageTable) (key : Key) (shm : Nat) : State :=
  s.setProc proc0
    { s.procs proc0 with
      pagetable := pt
      shmva := update (s.procs proc0).shmva key shm
      shm := shm % 2 ^ 32
      shmkeymask := (s.procs proc0).shmkeymask ||| BitVec.twoPow 32 key }

/-- `shmgetat`; the test for a key that is held already has an empty body. -/
def shmgetat (s : State) (ans : Nat → Answer) (key num : Nat) : Option (State × Nat) :=
  if h : key < 8 ∧ num ≤ MAX_SHM_PGNUM then
    let k : Key := ⟨key, h.1⟩
    let p := s.procs proc0
    if (s.shmtab k).refcount = 0 then
      match allocshm ans p.pagetable p.shm (sub64 p.shm (num * PGSIZE)) p.sz with
      | none => none
      | some (pt, shm, phys) =>
        if shm = 0 then some (s.setProc proc0 { p with pagetable := pt }, FAILED)
        else some ({ attach s pt k shm with shmtab := shmadd s.shmtab k num phys }, shm)
    else
      match mapshm ans p.pagetable p.shm p.shm p.sz
        (fun i => if i < num then (s.shmtab k).physaddr i else 0) with
      | none => none
      | some (pt, shm) =>
        if shm = 0 then some (s.setProc proc0 { p with pagetable := pt }, FAILED)
        else some
          ({ attach s pt k shm with
              shmtab := update s.shmtab k
                { s.shmtab k with refcount := wrap32 ((s.shmtab k).refcount + 1) } }, shm)
  else some (s, FAILED)

/-- `shmrm` reads through `PA2PTE(physaddr[i])`, which is not mapped in the kernel. -/
def shmrm (tab : Key → Sharemem) (key : Key) : Option (Key → Sharemem) :=
  if (tab key).pagenum > 0 then none
  else some (update tab key { tab key with refcount := 0 })

def releaseKey (mask : BitVec 32) (tab : Key → Sharemem) (key : Key) : Option (Key → Sharemem) :=
  if shmkeyused key mask then
    let tab' := update tab key { tab key with refcount := (tab key).refcount - 1 }
    if (tab key).refcount - 1 = 0 then shmrm tab' key else some tab'
  else some tab

/-- Walking a null page table faults. -/
def shmrelease (tab : Key → Sharemem) (pagetable : Option PageTable) (shm : Nat)
    (mask : BitVec 32) : Option (Key → Sharemem) :=
  if pagetable.isNone ∧ shm < KERNBASE then none
  else (List.finRange 8).foldlM (releaseKey mask) tab

def shmaddcount (tab : Key → Sharemem) (mask : BitVec 32) : Key → Sharemem := fun k =>
  if shmkeyused k mask then { tab k with refcount := wrap32 ((tab k).refcount + 1) } else tab k

inductive Op where
  | shmgetat (c : Slot) (key num : Nat) (ans : Nat → Answer)
  /-- `fork` into a free slot, with the page table that `uvmcopy` built. -/
  | fork (np : Slot) (pagetable : PageTable) (sz : Nat)
  | exec (c : Slot) (pagetable : PageTable) (sz : Nat)
  | freeproc (c : Slot)
  /-- Any other change of a process's memory: `sbrk`, page faults, `mmap`. -/
  | memory (c : Slot) (pagetable : PageTable) (sz : Nat)

/-- A call that the process or an earlier holder made for at least one page. -/
def record (s : State) (c : Slot) (key num : Nat) (r : Nat) : Slot → Key → List Nat :=
  if h : key < 8 then
    if r ≠ FAILED ∧ (1 ≤ num ∨ ∃ c', s.held c' ⟨key, h⟩ ≠ []) then
      update s.held c
        (update (s.held c) ⟨key, h⟩ (r :: s.held c ⟨key, h⟩))
    else s.held
  else s.held

def fork (s : State) (np : Slot) (pagetable : PageTable) (sz : Nat) : State :=
  let p := s.procs proc0
  { s.setProc np
      { pagetable := pagetable, sz := sz, shm := p.shm, shmkeymask := p.shmkeymask
        shmva := fun k => if shmkeyused k p.shmkeymask then p.shmva k else (s.procs np).shmva k }
    with shmtab := shmaddcount s.shmtab p.shmkeymask }

def exec (s : State) (c : Slot) (pagetable : PageTable) (sz : Nat) : Option State :=
  let p := s.procs proc0
  (shmrelease s.shmtab (some (s.procs c).pagetable) p.shm p.shmkeymask).map fun tab =>
    let s₁ := s.setProc c { s.procs c with pagetable := pagetable, sz := sz }
    { s₁.setProc proc0 { s₁.procs proc0 with shm := KERNBASE, shmkeymask := 0 } with
      shmtab := tab
      held := update s.held c fun _ => [] }

/-- `freeproc` clears `p->pagetable` before it calls `shmrelease`. -/
def freeproc (s : State) (c : Slot) : Option State :=
  let p := s.procs c
  (shmrelease s.shmtab none p.shm p.shmkeymask).map fun tab =>
    { s.setProc c { p with pagetable := fun _ => none, sz := 0, shm := KERNBASE, shmkeymask := 0 }
      with shmtab := tab, held := update s.held c fun _ => [] }

/-- The first process never exits, so its slot is neither reused nor freed. -/
def step (s : State) : Op → Option State
  | .shmgetat c key num ans =>
    (shmgetat s ans key num).map fun r => { r.1 with held := record s c key num r.2 }
  | .fork np pagetable sz => if np = proc0 then none else some (fork s np pagetable sz)
  | .exec c pagetable sz => exec s c pagetable sz
  | .freeproc c => if c = proc0 then none else freeproc s c
  | .memory c pagetable sz =>
    some (s.setProc c { s.procs c with pagetable := pagetable, sz := sz })

def sharememinit : State where
  procs := fun _ =>
    { pagetable := fun _ => none, sz := 0, shm := KERNBASE, shmkeymask := 0, shmva := fun _ => 0 }
  shmtab := fun _ => { refcount := 0, pagenum := 0, physaddr := fun _ => 0 }
  held := fun _ _ => []

/-! ## The page loops -/

theorem deallocPages_other : ∀ (k : Nat) (pt : PageTable) (v w : Nat), w < v ∨ v + k ≤ w →
    deallocPages pt v k w = pt w := by
  intro k
  induction k with
  | zero => exact fun _ _ _ _ => rfl
  | succ k ih =>
    intro pt v w hw
    have hne : w ≠ v + k := by omega
    rw [deallocPages, ih _ v w (by omega), update_of_ne hne]

variable {pt : PageTable}

theorem deallocshm_above {oldshm newshm w : Nat} (hold : oldshm % PGSIZE = 0)
    (hnew : newshm % PGSIZE = 0) (hw : newshm / PGSIZE ≤ w) : deallocshm pt oldshm newshm w =
      pt w := by
  unfold deallocshm
  split
  · rfl
  apply deallocPages_other
  right
  simp only [PGSIZE] at *
  omega

theorem allocPages_spec (ans : Nat → Answer) :
    ∀ (k : Nat) (pt : PageTable) (v i : Nat) (pt' : PageTable) (phys : Option (List Nat)),
      allocPages ans pt v i k = some (pt', phys) → (∀ w, w < v ∨ v + k ≤ w → pt' w = pt w) ∧
      (∀ l, phys = some l → ∀ j, j < k → pt' (v + j) = some (l.getD j 0)) := by
  intro k
  induction k with
  | zero =>
    intro pt v i pt' phys h
    cases h
    exact ⟨fun _ _ => rfl, fun _ _ j hj => absurd hj (Nat.not_lt_zero j)⟩
  | succ k ih =>
    intro pt v i pt' phys h
    rw [allocPages] at h
    cases ha : ans i with
    | noPage | noTable =>
      rw [ha] at h
      cases h
      exact ⟨fun _ _ => rfl, fun l hl => by simp at hl⟩
    | page pa =>
      rw [ha] at h
      simp only at h
      split at h
      · simp at h
      obtain ⟨⟨pt1, phys1⟩, hrec, heq⟩ := map_eq_some_iff.mp h
      obtain ⟨rfl, rfl⟩ := Prod.mk.inj heq
      obtain ⟨hother, hmap⟩ := ih _ _ _ _ _ hrec
      simp only
      constructor
      · intro w hw
        have hne : w ≠ v := by omega
        rw [hother w (by omega), update_of_ne hne]
      · intro l hl j hj
        obtain ⟨l1, hl1, hcons⟩ := map_eq_some_iff.mp hl
        subst hcons
        cases j with
        | zero =>
          rw [add_zero, hother v (by omega), update_self]
          rfl
        | succ j =>
          have := hmap l1 hl1 j (by omega)
          rw [show v + (j + 1) = v + 1 + j by omega, this]
          rfl

theorem throughInt_eq {x : Nat} (h : x < 2 ^ 31) : throughInt x = x := by
  have hbmod : Int.bmod x (2 ^ 32) = x := by
    simp only [Int.bmod]
    split <;> omega
  unfold throughInt
  rw [hbmod]
  omega

/-! ## The invariant -/

structure Attached (s : State) (c : Slot) (key : Key) (a : Nat) : Prop where
  aligned : a % PGSIZE = 0
  below : a < KERNBASE
  mapped : ∀ i, i < (s.shmtab key).pagenum →
    (s.procs c).pagetable (a / PGSIZE + i) = some ((s.shmtab key).physaddr i)

def created (m : Sharemem) : Nat := if m.pagenum = 0 then 0 else 1

/-- A created segment is never given up: its release faults in `shmrm`. -/
structure TabInv (tab : Key → Sharemem) : Prop where
  live : ∀ k, (tab k).pagenum ≠ 0 → 1 ≤ (tab k).refcount

structure Inv (s : State) : Prop where
  alone : ∀ c k, c ≠ proc0 → s.held c k = []
  tab : TabInv s.shmtab
  aligned : (s.procs proc0).shm % PGSIZE = 0
  below : (s.procs proc0).shm ≤ KERNBASE
  room : KERNBASE ≤ (s.procs proc0).shm + MAX_SHM_PGNUM * PGSIZE * tally created s.shmtab
  segment : ∀ k, shmkeyused k (s.procs proc0).shmkeymask = true →
    (s.shmtab k).pagenum ≠ 0 ∧ (s.procs proc0).shm ≤ (s.procs proc0).shmva k ∧
      Attached s proc0 k ((s.procs proc0).shmva k)
  held : ∀ k a, a ∈ s.held proc0 k →
    shmkeyused k (s.procs proc0).shmkeymask = true ∧ a = (s.procs proc0).shmva k

theorem sharememinit_inv : Inv sharememinit where
  alone := fun _ _ _ => rfl
  tab := ⟨fun k h => absurd rfl h⟩
  aligned := by decide
  below := le_rfl
  room := Nat.le_add_right _ _
  segment := fun k h => by simp [sharememinit, shmkeyused] at h
  held := fun k a h => absurd h not_mem_nil

theorem tally_created_le (tab : Key → Sharemem) : tally created tab ≤ 8 := by
  apply tally_le_card
  intro m
  unfold created
  split <;> omega

structure SameSegments (tab tab' : Key → Sharemem) : Prop where
  pagenum : ∀ k, (tab' k).pagenum = (tab k).pagenum
  physaddr : ∀ k, (tab' k).physaddr = (tab k).physaddr
  live : TabInv tab → TabInv tab'

theorem SameSegments.refl (tab : Key → Sharemem) : SameSegments tab tab :=
  ⟨fun _ => rfl, fun _ => rfl, id⟩

theorem SameSegments.trans {t1 t2 t3 : Key → Sharemem} (h : SameSegments t1 t2)
    (h' : SameSegments t2 t3) : SameSegments t1 t3 :=
  ⟨fun k => (h'.pagenum k).trans (h.pagenum k), fun k => (h'.physaddr k).trans (h.physaddr k),
    h'.live ∘ h.live⟩

variable {tab tab' : Key → Sharemem}

theorem SameSegments.tally_created (h : SameSegments tab tab') :
    tally created tab' = tally created tab := by
  simp only [tally, created, h.pagenum]

variable {k : Key}

theorem setRefcount_same {n : Int} (hn : (tab k).pagenum ≠ 0 → 1 ≤ (tab k).refcount → 1 ≤ n) :
    SameSegments tab (update tab k { tab k with refcount := n }) := by
  refine ⟨?_, ?_, ?_⟩
  · intro j
    obtain rfl | hj := eq_or_ne j k
    · simp
    · simp [hj]
  · intro j
    obtain rfl | hj := eq_or_ne j k
    · simp
    · simp [hj]
  · intro h
    refine ⟨?_⟩
    intro j hp
    obtain rfl | hj := eq_or_ne j k
    · simp only [update_self] at hp ⊢
      exact hn hp (h.live j hp)
    · simp only [update_of_ne hj] at hp ⊢
      exact h.live j hp

variable {mask : BitVec 32}

theorem releaseKey_same
    (h : releaseKey mask tab k = some tab') : SameSegments tab tab' := by
  unfold releaseKey at h
  split at h
  · simp only at h
    split at h
    · unfold shmrm at h
      split at h
      · simp at h
      · rename_i hzero hpages
        simp only [update_self, not_lt, Nat.le_zero] at hpages
        cases h
        simp only [update_self, update_idem]
        exact setRefcount_same fun hp => absurd hpages hp
    · rename_i hne
      cases h
      exact setRefcount_same fun _ hr => by omega
  · cases h
    exact SameSegments.refl tab

theorem foldlM_same {f : (Key → Sharemem) → Key → Option (Key → Sharemem)}
    (hf : ∀ t k t', f t k = some t' → SameSegments t t') :
    ∀ (ks : List Key) (t t' : Key → Sharemem), ks.foldlM f t = some t' → SameSegments t t' := by
  intro ks
  induction ks with
  | nil =>
    intro t t' h
    cases h
    exact SameSegments.refl t
  | cons k ks ih =>
    intro t t' h
    rw [foldlM_cons] at h
    obtain ⟨t1, h1, h2⟩ := bind_eq_some_iff.mp h
    exact (hf t k t1 h1).trans (ih t1 t' h2)

theorem shmrelease_same {pt : Option PageTable} {shm : Nat}
    (h : shmrelease tab pt shm mask = some tab') : SameSegments tab tab' := by
  unfold shmrelease at h
  split at h
  · simp at h
  · exact foldlM_same (fun _ _ _ => releaseKey_same) _ _ _ h

theorem wrap32_succ {n : Int} (h : 1 ≤ n) (hmax : n < INT_MAX) : wrap32 (n + 1) = n + 1 :=
  wrap32_eq (by unfold INT_MAX at hmax; omega)

theorem shmaddcount_same (hmax : ∀ k, (tab k).refcount < INT_MAX) :
    SameSegments tab (shmaddcount tab mask) := by
  have hset : ∀ k, shmaddcount tab mask k =
      { tab k with refcount := (shmaddcount tab mask k).refcount } := by
    intro k
    unfold shmaddcount
    split <;> rfl
  refine ⟨fun k => by rw [hset], fun k => by rw [hset], fun h => ⟨fun k hp => ?_⟩⟩
  rw [hset] at hp
  have hlive := h.live k hp
  unfold shmaddcount
  split
  · simp only [wrap32_succ hlive (hmax k)]
    omega
  · exact hlive

variable {s s' : State}

theorem Attached.congr {c : Slot} {a : Nat} (h : Attached s c k a)
    (hnum : (s'.shmtab k).pagenum = (s.shmtab k).pagenum)
    (hphys : (s'.shmtab k).physaddr = (s.shmtab k).physaddr)
    (hpages : ∀ w, a / PGSIZE ≤ w → (s'.procs c).pagetable w = (s.procs c).pagetable w) :
    Attached s' c k a := by
  refine ⟨h.aligned, h.below, ?_⟩
  intro i hi
  rw [hnum] at hi
  rw [hpages _ (Nat.le_add_right _ _), hphys]
  exact h.mapped i hi

theorem Inv.congr (h : Inv s) (hproc : s'.procs proc0 = s.procs proc0)
    (htab : SameSegments s.shmtab s'.shmtab) (hheld : s'.held proc0 = s.held proc0)
    (halone : ∀ c k, c ≠ proc0 → s'.held c k = []) : Inv s' where
  alone := halone
  tab := htab.live h.tab
  aligned := by rw [hproc]; exact h.aligned
  below := by rw [hproc]; exact h.below
  room := by rw [hproc, htab.tally_created]; exact h.room
  segment := by
    intro k hk
    rw [hproc] at hk ⊢
    obtain ⟨hnum, hle, hat⟩ := h.segment k hk
    refine ⟨by rw [htab.pagenum]; exact hnum, hle, ?_⟩
    exact hat.congr (htab.pagenum k) (htab.physaddr k) fun w _ => by rw [hproc]
  held := by
    intro k a ha
    rw [hheld] at ha
    rw [hproc]
    exact h.held k a ha

theorem Inv.setPages (h : Inv s) (pt : PageTable) (sz : Nat)
    (hpages : ∀ w, (s.procs proc0).shm / PGSIZE ≤ w → pt w = (s.procs proc0).pagetable w) :
    Inv (s.setProc proc0 { s.procs proc0 with pagetable := pt, sz := sz }) := by
  have hp : (s.setProc proc0 { s.procs proc0 with pagetable := pt, sz := sz }).procs proc0 =
      { s.procs proc0 with pagetable := pt, sz := sz } := by
    simp only [State.setProc, update_self]
  refine ⟨h.alone, h.tab, ?_, ?_, ?_, ?_, ?_⟩
  · rw [hp]
    exact h.aligned
  · rw [hp]
    exact h.below
  · rw [hp]
    exact h.room
  · intro k hk
    rw [hp] at hk ⊢
    obtain ⟨hnum, hle, hat⟩ := h.segment k hk
    refine ⟨hnum, hle, hat.congr rfl rfl ?_⟩
    intro w hw
    rw [hp]
    exact hpages w (le_trans (Nat.div_le_div_right hle) hw)
  · intro k a ha
    rw [hp]
    exact h.held k a ha

/-! ## `shmgetat` by the first process -/

theorem Inv.shm_large (h : Inv s) : 4 * PGSIZE < (s.procs proc0).shm := by
  have hroom := h.room
  have htally := tally_created_le s.shmtab
  simp only [KERNBASE, MAX_SHM_PGNUM, PGSIZE] at *
  omega

theorem sub64_eq {x y : Nat} (hx : x < 2 ^ 64) (h : y ≤ x) : sub64 x y = x - y := by
  unfold sub64
  omega

variable {r : Nat}

theorem allocshm_spec {ans : Nat → Answer} {pt' : PageTable} {old new sz : Nat}
    {phys : List Nat} (hle : new ≤ old) (hlt : new < 2 ^ 31)
    (h : allocshm ans pt old new sz = some (pt', r, phys)) :
    (∀ w, old / PGSIZE ≤ w → old % PGSIZE = 0 → pt' w = pt w) ∧
    (r ≠ 0 → r = new ∧ old % PGSIZE = 0 ∧ new % PGSIZE = 0 ∧
      ∀ j, j < (old - new) / PGSIZE → pt' (new / PGSIZE + j) = some (phys.getD j 0)) := by
  unfold allocshm at h
  split at h
  · cases h
    exact ⟨fun _ _ _ => rfl, fun hr => absurd rfl hr⟩
  rename_i hguard
  simp only [not_or, not_not] at hguard
  obtain ⟨hold, hnew, _, _⟩ := hguard
  have hend : ∀ w, old / PGSIZE ≤ w → new / PGSIZE + (old - new) / PGSIZE ≤ w := by
    intro w hw
    simp only [PGSIZE] at *
    omega
  split at h
  · simp at h
  · rename_i pt1 hrun
    cases h
    refine ⟨?_, fun hr => absurd rfl hr⟩
    intro w hw _
    rw [deallocshm_above hnew hold hw]
    exact (allocPages_spec ans _ _ _ _ _ _ hrun).1 w (.inr (hend w hw))
  · rename_i pt1 phys1 hrun
    simp only [Option.some.injEq, Prod.mk.injEq] at h
    obtain ⟨rfl, rfl, rfl⟩ := h
    obtain ⟨hother, hmap⟩ := allocPages_spec ans _ _ _ _ _ _ hrun
    refine ⟨fun w hw _ => hother w (.inr (hend w hw)), ?_⟩
    intro _
    exact ⟨throughInt_eq hlt, hold, hnew, hmap phys1 rfl⟩

theorem shmkeyused_set (k j : Key) (mask : BitVec 32) :
    shmkeyused j (mask ||| BitVec.twoPow 32 k) = (shmkeyused j mask || decide (j = k)) := by
  have hj : j.val < 32 := by omega
  have hk : k.val < 32 := by omega
  simp only [shmkeyused, BitVec.getLsbD_or, BitVec.getLsbD_twoPow, hk, decide_true, Bool.true_and]
  congr 1
  by_cases h : j = k
  · simp [h]
  · have hval : k.val ≠ j.val := fun e => h (Fin.ext e.symm)
    simp [h, hval]

theorem attach_proc0 (s : State) (pt : PageTable) (k : Key) (shm : Nat) :
    (attach s pt k shm).procs proc0 =
      { s.procs proc0 with
        pagetable := pt
        shmva := update (s.procs proc0).shmva k shm
        shm := shm % 2 ^ 32
        shmkeymask := (s.procs proc0).shmkeymask ||| BitVec.twoPow 32 k } := by
  simp only [attach, State.setProc, update_self]

def Returned (s s' : State) (k : Key) (r : Nat) : Prop :=
  Inv s' ∧ s'.held = s.held ∧ shmkeyused k (s'.procs proc0).shmkeymask = true ∧
    r = (s'.procs proc0).shmva k

variable {num : Nat}

theorem create_inv {new : Nat} {phys : List Nat}
    (h : Inv s) (hfree : (s.shmtab k).refcount = 0) (hnum : 1 ≤ num) (hmax : num ≤ MAX_SHM_PGNUM)
    (hnew : new + num * PGSIZE = (s.procs proc0).shm) (haligned : new % PGSIZE = 0)
    (habove : ∀ w, (s.procs proc0).shm / PGSIZE ≤ w → pt w = (s.procs proc0).pagetable w)
    (hmap : ∀ j, j < num → pt (new / PGSIZE + j) = some (phys.getD j 0)) :
    Returned s { attach s pt k new with shmtab := shmadd s.shmtab k num phys } k new := by
  have hold : (s.shmtab k).pagenum = 0 := by
    by_contra hp
    have := h.tab.live k hp
    omega
  have hnone : ¬ shmkeyused k (s.procs proc0).shmkeymask = true := fun hk => (h.segment k hk).1 hold
  have htab : shmadd s.shmtab k num phys = update s.shmtab k
      { refcount := 1, pagenum := num
        physaddr := fun i => if i < num then phys.getD i 0 else (s.shmtab k).physaddr i } := by
    unfold shmadd
    rw [if_neg (by omega)]
  have hbelow := h.below
  have hsmall : new < 2 ^ 31 := by
    simp only [KERNBASE, PGSIZE] at *
    omega
  have hmod : new % 2 ^ 32 = new := Nat.mod_eq_of_lt (by omega)
  have hbit : ∀ j, shmkeyused j ((s.procs proc0).shmkeymask ||| BitVec.twoPow 32 k) = true →
      j = k ∨ (j ≠ k ∧ shmkeyused j (s.procs proc0).shmkeymask = true) := by
    intro j hj
    by_cases hjk : j = k
    · exact .inl hjk
    rw [shmkeyused_set] at hj
    simp only [hjk, decide_false, Bool.or_false] at hj
    exact .inr ⟨hjk, hj⟩
  refine ⟨⟨h.alone, ?_, ?_, ?_, ?_, ?_, ?_⟩, rfl, ?_, ?_⟩
  · refine ⟨?_⟩
    intro j hj
    rw [htab] at hj ⊢
    obtain rfl | hjk := eq_or_ne j k
    · simp
    · simp only [update_of_ne hjk] at hj ⊢
      exact h.tab.live j hj
  · simp only [attach_proc0, hmod]
    exact haligned
  · simp only [attach_proc0, hmod]
    omega
  · simp only [attach_proc0, hmod]
    rw [htab]
    have hroom := h.room
    have hcount := tally_update created s.shmtab k
      { refcount := 1, pagenum := num
        physaddr := fun i => if i < num then phys.getD i 0 else (s.shmtab k).physaddr i }
    have hne : num ≠ 0 := by omega
    simp only [created, hold, hne, if_true, if_false, add_zero] at hcount
    rw [show tally created (update s.shmtab k
      { refcount := 1, pagenum := num
        physaddr := fun i => if i < num then phys.getD i 0 else (s.shmtab k).physaddr i }) =
        tally created s.shmtab + 1 from hcount]
    simp only [MAX_SHM_PGNUM, PGSIZE] at *
    omega
  · intro j hj
    simp only [attach_proc0, hmod] at hj ⊢
    rcases hbit j hj with rfl | ⟨hjk, hj⟩
    · rw [htab]
      simp only [update_self]
      refine ⟨by omega, le_rfl, haligned, by simp only [KERNBASE]; omega, ?_⟩
      intro i hi
      simp only [update_self] at hi ⊢
      simp only [attach_proc0, hi, if_true]
      exact hmap i hi
    · obtain ⟨hpages, hle, hat⟩ := h.segment j hj
      rw [htab]
      simp only [update_of_ne hjk]
      refine ⟨hpages, by omega, hat.congr ?_ ?_ ?_⟩
      · simp only [update_of_ne hjk]
      · simp only [update_of_ne hjk]
      · intro w hw
        simp only [attach_proc0]
        exact habove w (le_trans (Nat.div_le_div_right hle) hw)
  · intro j a ha
    obtain ⟨hj, hva⟩ := h.held j a ha
    have hjk : j ≠ k := fun e => hnone (e ▸ hj)
    simp only [attach_proc0, shmkeyused_set, hj, Bool.true_or, true_and, update_of_ne hjk]
    exact hva
  · simp only [attach_proc0, shmkeyused_set, decide_true, Bool.or_true]
  · simp only [attach_proc0, update_self]

theorem again_inv (h : Inv s) (hused : shmkeyused k (s.procs proc0).shmkeymask = true)
    (hlow : (s.procs proc0).shm = (s.procs proc0).shmva k) (n : Int)
      (hn : (s.shmtab k).refcount ≤ n) :
    Returned s
      { attach s (s.procs proc0).pagetable k (s.procs proc0).shm with
        shmtab := update s.shmtab k { s.shmtab k with refcount := n } } k
      (s.procs proc0).shm := by
  have hbelow := h.below
  have hmod : (s.procs proc0).shm % 2 ^ 32 = (s.procs proc0).shm :=
    Nat.mod_eq_of_lt (by simp only [KERNBASE] at hbelow; omega)
  have hmask : (s.procs proc0).shmkeymask ||| BitVec.twoPow 32 k = (s.procs proc0).shmkeymask := by
    apply BitVec.eq_of_getLsbD_eq
    intro i hi
    simp only [BitVec.getLsbD_or, BitVec.getLsbD_twoPow]
    by_cases hik : k.val = i
    · subst hik
      have := hused
      unfold shmkeyused at this
      simp [this]
    · simp [hik]
  have hva : update (s.procs proc0).shmva k (s.procs proc0).shm = (s.procs proc0).shmva := by
    rw [hlow, update_eq_self]
  have hproc : (attach s (s.procs proc0).pagetable k (s.procs proc0).shm).procs proc0 =
      s.procs proc0 := by
    rw [attach_proc0, hmod, hmask, hva]
  refine ⟨?_, rfl, ?_, ?_⟩
  · apply h.congr
    · exact hproc
    · exact setRefcount_same fun _ hr => by omega
    · rfl
    · exact h.alone
  · rw [hproc]
    exact hused
  · rw [hproc]
    exact hlow

/-- The first process creates a segment, or asks again for the last one; nobody else calls `exec`
while it holds a key, it leaves the pages of its segments alone, and no count overflows. -/
def Sole (s : State) : Op → Prop
  | .shmgetat c key num _ =>
    c = proc0 ∧ ∀ h : key < 8,
      if (s.shmtab ⟨key, h⟩).refcount = 0 then 1 ≤ num
      else shmkeyused ⟨key, h⟩ (s.procs proc0).shmkeymask = true ∧
        (s.procs proc0).shm = (s.procs proc0).shmva ⟨key, h⟩ ∧
        (s.shmtab ⟨key, h⟩).refcount < INT_MAX
  | .fork .. => ∀ k, (s.shmtab k).refcount < INT_MAX
  | .exec c _ _ => c = proc0 ∨ (s.procs proc0).shmkeymask = 0
  | .memory c pagetable _ =>
    c = proc0 → ∀ w, (s.procs proc0).shm / PGSIZE ≤ w →
      pagetable w = (s.procs proc0).pagetable w
  | _ => True

theorem shmgetat_spec {ans : Nat → Answer} {key : Nat} (h : Inv s)
    (hsole : Sole s (.shmgetat proc0 key num ans)) (hk : shmgetat s ans key num = some (s', r)) :
    (r = FAILED ∧ Inv s' ∧ s'.held = s.held) ∨ ∃ hkey : key < 8, Returned s s' ⟨key, hkey⟩ r := by
  unfold shmgetat at hk
  split at hk
  · rename_i harg
    have hcall := hsole.2 harg.1
    simp only at hk
    split at hk
    · rename_i hfree
      rw [if_pos hfree] at hcall
      have hlarge := h.shm_large
      have hbelow := h.below
      have hsub : num * PGSIZE ≤ 4 * PGSIZE := Nat.mul_le_mul_right _ harg.2
      have hpos : 0 < num * PGSIZE := Nat.mul_pos hcall (by decide)
      have hnew : sub64 (s.procs proc0).shm (num * PGSIZE) =
          (s.procs proc0).shm - num * PGSIZE := by
        apply sub64_eq
        · simp only [KERNBASE] at hbelow
          omega
        · omega
      rw [hnew] at hk
      split at hk
      · simp at hk
      rename_i pt shm phys halloc
      have hspec := allocshm_spec (Nat.sub_le _ _) (by simp only [KERNBASE] at hbelow; omega) halloc
      have habove : ∀ w, (s.procs proc0).shm / PGSIZE ≤ w →
          pt w = (s.procs proc0).pagetable w := fun w hw => hspec.1 w hw h.aligned
      split at hk
      · cases hk
        exact .inl ⟨rfl, h.setPages pt _ habove, rfl⟩
      · rename_i hshm
        cases hk
        obtain ⟨rfl, _, haligned, hmap⟩ := hspec.2 hshm
        refine .inr ⟨harg.1, create_inv h hfree hcall harg.2 (by omega) haligned habove ?_⟩
        intro j hj
        apply hmap
        rw [Nat.sub_sub_self (by omega), Nat.mul_div_cancel _ (by decide)]
        exact hj
    · rename_i hused
      rw [if_neg hused] at hcall
      obtain ⟨hbit, hlow, hmax⟩ := hcall
      have hshort : (s.procs proc0).shm < 2 ^ 31 := by
        have := (h.segment _ hbit).2.2.below
        rw [← hlow] at this
        simp only [KERNBASE] at this
        omega
      unfold mapshm at hk
      rw [Nat.sub_self, Nat.zero_div, mapPages] at hk
      split at hk
      · simp at hk
      rename_i pt shm hmap
      split at hmap
      · cases hmap
        rw [if_pos rfl] at hk
        cases hk
        exact .inl ⟨rfl, h.setPages _ _ fun _ _ => rfl, rfl⟩
      cases hmap
      rw [throughInt_eq hshort] at hk
      have hlarge := h.shm_large
      rw [if_neg (by omega)] at hk
      cases hk
      have hlive := h.tab.live _ (h.segment _ hbit).1
      refine .inr ⟨harg.1, again_inv h hbit hlow _ ?_⟩
      rw [wrap32_succ hlive hmax]
      omega
  · cases hk
    exact .inl ⟨rfl, h, rfl⟩

theorem record_inv {key : Nat} {hkey : key < 8}
    (h : Returned s s' ⟨key, hkey⟩ r) : Inv { s' with held := record s proc0 key num r } := by
  obtain ⟨hinv, hheld, hused, hr⟩ := h
  unfold record
  rw [dif_pos hkey]
  split
  · refine ⟨?_, hinv.tab, hinv.aligned, hinv.below, hinv.room, ?_, ?_⟩
    · intro c k hc
      simp only [update_of_ne hc]
      rw [← hheld]
      exact hinv.alone c k hc
    · exact fun k hk => ⟨(hinv.segment k hk).1, (hinv.segment k hk).2.1,
        (hinv.segment k hk).2.2.congr rfl rfl fun _ _ => rfl⟩
    · intro k a ha
      by_cases hk : k = ⟨key, hkey⟩
      · subst hk
        simp only [update_self, mem_cons] at ha
        rcases ha with rfl | ha
        · exact ⟨hused, hr⟩
        · exact hinv.held _ a (by rw [hheld]; exact ha)
      · simp only [update_self, update_of_ne hk] at ha
        exact hinv.held k a (by rw [hheld]; exact ha)
  · rw [← hheld]
    exact hinv

theorem record_failed (s : State) (key num : Nat) : record s proc0 key num FAILED = s.held := by
  simp [record]

theorem exec_inv {c : Slot} {sz : Nat} (h : Inv s)
    (hsole : c = proc0 ∨ (s.procs proc0).shmkeymask = 0) (hk : exec s c pt sz = some s') :
    Inv s' := by
  obtain ⟨tab, htab, rfl⟩ := map_eq_some_iff.mp hk
  have hsame := shmrelease_same htab
  -- afterwards the first process holds nothing
  have hempty : ∀ k, update s.held c (fun _ => []) proc0 k = [] := by
    intro k
    obtain rfl | hc := eq_or_ne proc0 c
    · simp
    rw [update_of_ne hc]
    have hmask := hsole.resolve_left fun e => hc e.symm
    cases hl : s.held proc0 k with
    | nil => rfl
    | cons a l =>
      have hused := (h.held k a (by rw [hl]; simp)).1
      rw [hmask] at hused
      simp [shmkeyused] at hused
  refine ⟨?_, hsame.live h.tab, ?_, ?_, ?_, ?_, ?_⟩
  · intro d k hd
    simp only
    obtain rfl | hdc := eq_or_ne d c
    · simp
    · rw [update_of_ne hdc]
      exact h.alone d k hd
  · simp only [State.setProc, update_self]
    decide
  · simp only [State.setProc, update_self, Nat.le_refl]
  · simp only [State.setProc, update_self, Nat.le_add_right]
  · intro k hused
    simp [State.setProc, shmkeyused] at hused
  · intro k a ha
    simp only [hempty] at ha
    exact absurd ha not_mem_nil

theorem step_inv {o : Op} (h : Inv s) (hsole : Sole s o) (hk : step s o = some s') : Inv s' := by
  cases o with
  | shmgetat c key num ans =>
    obtain ⟨rfl, _⟩ := id hsole
    obtain ⟨⟨s1, r⟩, hcall, rfl⟩ := map_eq_some_iff.mp hk
    rcases shmgetat_spec h hsole hcall with ⟨rfl, hinv, hheld⟩ | ⟨hkey, hret⟩
    · rw [record_failed, ← hheld]
      exact hinv
    · exact record_inv hret
  | fork np pt sz =>
    simp only [step] at hk
    split at hk
    · simp at hk
    rename_i hnp
    cases hk
    apply h.congr
    · simp only [fork, State.setProc, update_of_ne (Ne.symm hnp)]
    · exact shmaddcount_same hsole
    · rfl
    · exact h.alone
  | exec c pt sz => exact exec_inv h hsole hk
  | freeproc c =>
    simp only [step] at hk
    split at hk
    · simp at hk
    rename_i hc
    obtain ⟨tab, htab, rfl⟩ := map_eq_some_iff.mp hk
    apply h.congr
    · simp only [State.setProc, update_of_ne (Ne.symm hc)]
    · exact shmrelease_same htab
    · simp only [update_of_ne (Ne.symm hc)]
    intro d k hd
    obtain rfl | hdc := eq_or_ne d c
    · simp
    · simp only [update_of_ne hdc]
      exact h.alone d k hd
  | memory c pt sz =>
    cases hk
    obtain rfl | hc := eq_or_ne c proc0
    · exact h.setPages pt sz (hsole rfl)
    apply h.congr
    · simp only [State.setProc, update_of_ne (Ne.symm hc)]
    · exact SameSegments.refl _
    · rfl
    · exact h.alone

/-- Every address that is held for a key shows its segment, and repeated calls gave one address. -/
def Shared (s : State) : Prop :=
  ∀ c k a, a ∈ s.held c k → Attached s c k a ∧ ∀ b ∈ s.held c k, b = a

theorem Inv.shared (h : Inv s) : Shared s := by
  intro c k a ha
  obtain rfl | hc := eq_or_ne c proc0
  · obtain ⟨hused, rfl⟩ := h.held k a ha
    exact ⟨(h.segment k hused).2.2, fun b hb => (h.held k b hb).2⟩
  · rw [h.alone c k hc] at ha
    exact absurd ha not_mem_nil

theorem shared_memory_is_shared (os : List Op) (s : State)
    (hrun : run step sharememinit os = some s)
    (hsole : Along step Sole sharememinit os) : Shared s := by
  have hinv : Inv s :=
    along_invariant (I := Inv) (fun _ _ _ h hgood hk => step_inv h hgood hk) os
      sharememinit s sharememinit_inv hsole hrun
  exact hinv.shared

def pages (i : Nat) : Answer := .page (0x87000000 + i * PGSIZE)

theorem shared_memory_first_process : ∃ s, run step sharememinit
    [.shmgetat proc0 1 2 pages, .shmgetat proc0 1 2 pages] = some s ∧
    s.held proc0 1 = [0x7fffe000, 0x7fffe000] ∧ Shared s := by
  obtain ⟨s, hrun, hheld⟩ := run_test step sharememinit
    [.shmgetat proc0 1 2 pages, .shmgetat proc0 1 2 pages]
    (fun s => s.held proc0 1 = [0x7fffe000, 0x7fffe000]) (by decide +kernel)
  refine ⟨s, hrun, hheld, shared_memory_is_shared _ s hrun ⟨⟨rfl, ?_⟩, ?_⟩⟩
  · decide
  · intro s₁ hs₁
    obtain ⟨t, ht, hcall⟩ := run_test step sharememinit [.shmgetat proc0 1 2 pages]
      (fun s => if (s.shmtab 1).refcount = 0 then 1 ≤ 2 else
        shmkeyused 1 (s.procs proc0).shmkeymask = true ∧
          (s.procs proc0).shm = (s.procs proc0).shmva 1 ∧ (s.shmtab 1).refcount < INT_MAX)
      (by decide +kernel)
    have heq : t = s₁ := by
      rw [run_cons, hs₁] at ht
      exact (Option.some.inj ht).symm
    subst heq
    exact ⟨⟨rfl, fun _ => hcall⟩, fun _ _ => trivial⟩

/-- Parent and child of a program that is not the first process: both calls succeed and
neither gets a mapping. -/
theorem shared_memory_not_mapped : ∃ s, run step sharememinit
    [.fork 3 (fun _ => none) PGSIZE, .fork 4 (fun _ => none) PGSIZE, .shmgetat 3 1 2 pages,
      .shmgetat 4 1 2 pages] = some s ∧ s.held 3 1 = [0x7fffe000] ∧ s.held 4 1 = [0x7fffe000] ∧
    ¬ Attached s 3 1 0x7fffe000 ∧ ¬ Attached s 4 1 0x7fffe000 := by
  obtain ⟨s, hrun, h3, h4, hnum, hp3, hp4⟩ := run_test step sharememinit
    [.fork 3 (fun _ => none) PGSIZE, .fork 4 (fun _ => none) PGSIZE, .shmgetat 3 1 2 pages,
      .shmgetat 4 1 2 pages]
    (fun s => s.held 3 1 = [0x7fffe000] ∧ s.held 4 1 = [0x7fffe000] ∧ (s.shmtab 1).pagenum = 2 ∧
      (s.procs 3).pagetable (0x7fffe000 / PGSIZE) = none ∧
      (s.procs 4).pagetable (0x7fffe000 / PGSIZE) = none) (by decide +kernel)
  refine ⟨s, hrun, h3, h4, ?_, ?_⟩
  · intro hat
    have := hat.mapped 0 (by omega)
    rw [add_zero, hp3] at this
    exact absurd this (by simp)
  · intro hat
    have := hat.mapped 0 (by omega)
    rw [add_zero, hp4] at this
    exact absurd this (by simp)

end BirdOS.Shm
