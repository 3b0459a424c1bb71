import Mathlib.Algebra.BigOperators.Fin
import Mathlib.Tactic.Ring
import BirdOS.Lib.LinkedList
import BirdOS.Lib.Machine
import BirdOS.Param

/-! # The physical page allocator (`kalloc.c`)

Every CPU has a free list of pages, threaded through the first word of the free
pages themselves; `ref.cnt` counts the references to every page.  `kalloc` takes a
page from the list of its own CPU and steals from the others when that list is
empty; `kfree` only drops a reference until the last one goes.

`end` is chosen by the linker and is a parameter.  A null pointer is `none`, and a
panic of `kfree` is `none` as well.  `cnt` is a C `int`: its overflow in
`kaddrefcnt` is undefined, so the model has no such step. -/

namespace BirdOS.Kalloc

open LinkedList Function List Finset Option

structure Layout where
  kend : Nat
  kend_ge : KERNBASE ≤ kend

/-- `ref.cnt`, `kmem[i].freelist`, the `next` words and the bytes of the pages. -/
structure Kmem where
  cnt : Nat → Int
  freelist : Fin NCPU → Option Nat
  next : Nat → Option Nat
  mem : Nat → Nat → UInt8

def IsPage (L : Layout) (pa : Nat) : Prop := pa % PGSIZE = 0 ∧ L.kend ≤ pa ∧ pa < PHYSTOP

instance (L : Layout) (pa : Nat) : Decidable (IsPage L pa) :=
  inferInstanceAs (Decidable (pa % PGSIZE = 0 ∧ L.kend ≤ pa ∧ pa < PHYSTOP))

def krefcnt (k : Kmem) (pa : Nat) : Int := k.cnt (pa / PGSIZE)

def setCnt (k : Kmem) (pa : Nat) (c : Int) : Kmem :=
  { k with cnt := update k.cnt (pa / PGSIZE) c }

def memset (k : Kmem) (pa : Nat) (c : UInt8) : Kmem :=
  { k with mem := update k.mem pa fun _ => c }

def push (k : Kmem) (id : Fin NCPU) (r : Nat) : Kmem :=
  { k with
    next := update k.next r (k.freelist id)
    freelist := update k.freelist id (some r) }

def kfree (L : Layout) (k : Kmem) (id : Fin NCPU) (pa : Nat) : Option Kmem :=
  if pa % PGSIZE ≠ 0 ∨ pa < L.kend ∨ PHYSTOP ≤ pa then none
  else
    let c := krefcnt k pa - 1
    let k := setCnt k pa c
    if c = 0 then some (push (memset k pa 1) id pa) else some k

def take (k : Kmem) (id : Fin NCPU) (r : Nat) : Kmem :=
  setCnt { k with freelist := update k.freelist id (k.next r) } r 1

def steal (k : Kmem) (id : Fin NCPU) : List (Fin NCPU) → Kmem × Option Nat
  | [] => (k, none)
  | antid :: rest =>
    if antid = id then steal k id rest
    else
      match k.freelist antid with
      | some r => (take k antid r, some r)
      | none => steal k id rest

def kalloc (k : Kmem) (id : Fin NCPU) : Kmem × Option Nat :=
  let found :=
    match k.freelist id with
    | some r => (take k id r, some r)
    | none => steal k id (List.finRange NCPU)
  match found with
  | (k, some r) => (memset k r 5, some r)
  | (k, none) => (k, none)

/-- The returned `0` or `-1`; `none` where `++` would overflow. -/
def kaddrefcnt (L : Layout) (k : Kmem) (pa : Nat) : Option (Kmem × Int) :=
  if pa % PGSIZE ≠ 0 ∨ pa < L.kend ∨ PHYSTOP ≤ pa then some (k, -1)
  else if krefcnt k pa = INT_MAX then none
  else some (setCnt k pa (krefcnt k pa + 1), 0)

def freePages (L : Layout) (id : Fin NCPU) : Nat → Nat → Kmem → Option Kmem
  | 0, _, k => some k
  | n + 1, p, k => do
    let k ← kfree L (setCnt k p 1) id p
    freePages L id n (p + PGSIZE) k

def freerange (L : Layout) (k : Kmem) (id : Fin NCPU) (paStart paEnd : Nat) : Option Kmem :=
  freePages L id ((paEnd - pgroundup paStart) / PGSIZE) (pgroundup paStart) k

def boot (mem : Nat → Nat → UInt8) : Kmem := ⟨fun _ => 0, fun _ => none, fun _ => none, mem⟩

def hart0 : Fin NCPU := ⟨0, by decide⟩

def kinit (L : Layout) (mem : Nat → Nat → UInt8) : Option Kmem :=
  freerange L (boot mem) hart0 L.kend PHYSTOP

inductive Op where
  | kalloc (id : Fin NCPU)
  | kaddrefcnt (pa : Nat)
  | kfree (id : Fin NCPU) (pa : Nat)

/-- One call; `kaddrefcnt` and `kfree` are only made on pages in use. -/
def step (L : Layout) (k : Kmem) : Op → Option Kmem
  | .kalloc id => some (Kalloc.kalloc k id).1
  | .kaddrefcnt pa =>
    if IsPage L pa ∧ 0 < krefcnt k pa then (Kalloc.kaddrefcnt L k pa).map Prod.fst else none
  | .kfree id pa => if IsPage L pa ∧ 0 < krefcnt k pa then Kalloc.kfree L k id pa else none

/-! ## Ownership invariant

`Inv S k lists`: the pages of `S` are managed, `lists i` is what CPU `i`'s free
list holds, and the lists together are the managed pages of count zero. -/

structure Inv (S : Nat → Prop) (k : Kmem) (lists : Fin NCPU → List Nat) : Prop where
  chain : ∀ i, Chain k.next (k.freelist i) (lists i)
  disjoint : ∀ i j, i ≠ j → List.Disjoint (lists i) (lists j)
  managed : ∀ i, ∀ pa ∈ lists i, S pa
  aligned : ∀ pa, S pa → pa % PGSIZE = 0
  free_iff : ∀ pa, S pa → ((∃ i, pa ∈ lists i) ↔ krefcnt k pa = 0)
  nonneg : ∀ pa, S pa → 0 ≤ krefcnt k pa

variable {pa : Nat}

theorem aligned_div_inj {pb : Nat} (ha : pa % PGSIZE = 0) (hb : pb % PGSIZE = 0)
    (h : pa / PGSIZE = pb / PGSIZE) : pa = pb := by
  simp only [PGSIZE] at ha hb h
  omega

@[simp] theorem krefcnt_setCnt_self (k : Kmem) (pa : Nat) (c : Int) :
    krefcnt (setCnt k pa c) pa = c := by
  simp [krefcnt, setCnt]

theorem krefcnt_setCnt_other (k : Kmem) {pb : Nat} (c : Int) (ha : pa % PGSIZE = 0)
    (hb : pb % PGSIZE = 0) (hne : pb ≠ pa) : krefcnt (setCnt k pa c) pb = krefcnt k pb := by
  have hdiv : pb / PGSIZE ≠ pa / PGSIZE := fun h => hne (aligned_div_inj hb ha h)
  simp [krefcnt, setCnt, hdiv]

@[simp] theorem krefcnt_memset (k : Kmem) (pa pb : Nat) (c : UInt8) :
    krefcnt (memset k pa c) pb = krefcnt k pb := rfl

@[simp] theorem krefcnt_push (k : Kmem) (id : Fin NCPU) (r pa : Nat) :
    krefcnt (push k id r) pa = krefcnt k pa := rfl

variable {r : Nat}

section Steps
variable {S : Nat → Prop} {k : Kmem} {lists : Fin NCPU → List Nat}

section
variable (h : Inv S k lists)
include h

theorem Inv.memset (pa : Nat) (c : UInt8) : Inv S (memset k pa c) lists :=
  { h with }

theorem Inv.setCnt_pos (hS : S pa) (hpos : 0 < krefcnt k pa)
    {c : Int} (hc : 0 < c) : Inv S (setCnt k pa c) lists where
  chain := h.chain
  disjoint := h.disjoint
  managed := h.managed
  aligned := h.aligned
  free_iff := by
    intro pb hb
    obtain rfl | hab := eq_or_ne pb pa
    · rw [h.free_iff pb hb, krefcnt_setCnt_self]
      omega
    · rw [krefcnt_setCnt_other k c (h.aligned pa hS) (h.aligned pb hb) hab]
      exact h.free_iff pb hb
  nonneg := by
    intro pb hb
    obtain rfl | hab := eq_or_ne pb pa
    · rw [krefcnt_setCnt_self]
      omega
    · rw [krefcnt_setCnt_other k c (h.aligned pa hS) (h.aligned pb hb) hab]
      exact h.nonneg pb hb

theorem Inv.release (id : Fin NCPU) (hS : S pa) (hpos : 0 < krefcnt k pa) :
    Inv S (push (Kalloc.memset (setCnt k pa 0) pa 1) id pa) (update lists id (pa :: lists id)) := by
  have hfree : ∀ i, pa ∉ lists i := by
    intro i hi
    have := (h.free_iff pa hS).mp ⟨i, hi⟩
    omega
  have hmem : ∀ i pb, pb ∈ update lists id (pa :: lists id) i ↔
      pb ∈ lists i ∨ (i = id ∧ pb = pa) := by
    intro i pb
    obtain rfl | hi := eq_or_ne i id
    · rw [update_self, List.mem_cons]
      tauto
    · rw [update_of_ne hi]
      tauto
  refine ⟨?_, ?_, ?_, h.aligned, ?_, ?_⟩
  · intro i
    simp only [push, Kalloc.memset, setCnt]
    obtain rfl | hi := eq_or_ne i id
    · rw [update_self, update_self]
      exact chain_push (h.chain i) (hfree i)
    · rw [update_of_ne hi, update_of_ne hi]
      exact (chain_update pa _ (lists i) _ (hfree i)).mpr (h.chain i)
  · intro i j hij pb hi hj
    rw [hmem] at hi hj
    rcases hi with hi | ⟨hi, rfl⟩
    · rcases hj with hj | ⟨_, rfl⟩
      · exact h.disjoint i j hij hi hj
      · exact hfree i hi
    rcases hj with hj | ⟨hj, _⟩
    · exact hfree j hj
    · exact hij (hi.trans hj.symm)
  · intro i pb hi
    rcases (hmem i pb).mp hi with hi | ⟨_, rfl⟩
    · exact h.managed i pb hi
    · exact hS
  · intro pb hb
    simp only [hmem, krefcnt_push, krefcnt_memset]
    obtain rfl | hab := eq_or_ne pb pa
    · rw [krefcnt_setCnt_self]
      simp
    · rw [krefcnt_setCnt_other k 0 (h.aligned pa hS) (h.aligned pb hb) hab, ← h.free_iff pb hb]
      simp [hab]
  · intro pb hb
    simp only [krefcnt_push, krefcnt_memset]
    obtain rfl | hab := eq_or_ne pb pa
    · rw [krefcnt_setCnt_self]
    · rw [krefcnt_setCnt_other k 0 (h.aligned pa hS) (h.aligned pb hb) hab]
      exact h.nonneg pb hb

theorem Inv.take (id : Fin NCPU) {rest : List Nat}
    (hl : lists id = r :: rest) : Inv S (take k id r) (update lists id rest) := by
  have hr : r ∈ lists id := by rw [hl]; exact List.mem_cons_self ..
  have hS : S r := h.managed id r hr
  have hchain : Chain k.next (k.freelist id) (r :: rest) := hl ▸ h.chain id
  have hnodup : r ∉ rest := (List.nodup_cons.mp (chain_nodup _ _ hchain)).1
  have hmem : ∀ i pb, pb ∈ update lists id rest i ↔ pb ∈ lists i ∧ pb ≠ r := by
    intro i pb
    obtain rfl | hi := eq_or_ne i id
    · rw [update_self, hl, List.mem_cons]
      constructor
      · intro hb
        exact ⟨.inr hb, fun e => hnodup (e ▸ hb)⟩
      · rintro ⟨hb, hne⟩
        exact hb.resolve_left hne
    rw [update_of_ne hi]
    constructor
    · intro hb
      exact ⟨hb, fun e => h.disjoint i id hi hb (e ▸ hr)⟩
    · exact fun hb => hb.1
  refine ⟨?_, ?_, ?_, h.aligned, ?_, ?_⟩
  · intro i
    simp only [Kalloc.take, setCnt]
    obtain rfl | hi := eq_or_ne i id
    · rw [update_self, update_self]
      exact hchain.2
    · rw [update_of_ne hi, update_of_ne hi]
      exact h.chain i
  · intro i j hij pb hi hj
    exact h.disjoint i j hij ((hmem i pb).mp hi).1 ((hmem j pb).mp hj).1
  · intro i pb hi
    exact h.managed i pb ((hmem i pb).mp hi).1
  · intro pb hb
    simp only [hmem, Kalloc.take]
    obtain rfl | hab := eq_or_ne pb r
    · rw [krefcnt_setCnt_self]
      simp
    rw [krefcnt_setCnt_other _ 1 (h.aligned r hS) (h.aligned pb hb) hab]
    have := h.free_iff pb hb
    simp only [ne_eq, hab, not_false_eq_true, and_true]
    exact this
  · intro pb hb
    simp only [Kalloc.take]
    obtain rfl | hab := eq_or_ne pb r
    · rw [krefcnt_setCnt_self]
      omega
    · rw [krefcnt_setCnt_other _ 1 (h.aligned r hS) (h.aligned pb hb) hab]
      exact h.nonneg pb hb

theorem Inv.adopt {p : Nat} (hp : p % PGSIZE = 0) (hS : ¬ S p) :
    Inv (fun pa => S pa ∨ pa = p) (setCnt k p 1) lists where
  chain := h.chain
  disjoint := h.disjoint
  managed := fun i pa hi => .inl (h.managed i pa hi)
  aligned := by
    rintro pa (ha | rfl)
    · exact h.aligned pa ha
    · exact hp
  free_iff := by
    rintro pa (ha | rfl)
    · have hne : pa ≠ p := fun e => hS (e ▸ ha)
      rw [krefcnt_setCnt_other k 1 hp (h.aligned pa ha) hne]
      exact h.free_iff pa ha
    · rw [krefcnt_setCnt_self]
      constructor
      · rintro ⟨i, hi⟩
        exact absurd (h.managed i pa hi) hS
      · intro h1
        omega
  nonneg := by
    rintro pa (ha | rfl)
    · have hne : pa ≠ p := fun e => hS (e ▸ ha)
      rw [krefcnt_setCnt_other k 1 hp (h.aligned pa ha) hne]
      exact h.nonneg pa ha
    · rw [krefcnt_setCnt_self]
      omega

end

end Steps

/-! ## What each call does -/

theorem kfree_eq (L : Layout) (k : Kmem) (id : Fin NCPU) (hp : IsPage L pa) : kfree L k id pa =
      if krefcnt k pa = 1 then some (push (memset (setCnt k pa 0) pa 1) id pa)
      else some (setCnt k pa (krefcnt k pa - 1)) := by
  obtain ⟨h1, h2, h3⟩ := hp
  have hguard : ¬ (pa % PGSIZE ≠ 0 ∨ pa < L.kend ∨ PHYSTOP ≤ pa) := by omega
  unfold kfree
  rw [if_neg hguard]
  by_cases hc : krefcnt k pa = 1
  · simp [hc]
  · have hc' : krefcnt k pa - 1 ≠ 0 := by omega
    simp only [hc, hc', if_false]

theorem steal_cases (k : Kmem) (id : Fin NCPU) : ∀ ids : List (Fin NCPU),
    (steal k id ids = (k, none) ∧ ∀ i ∈ ids, i ≠ id → k.freelist i = none) ∨
    ∃ j r, k.freelist j = some r ∧ steal k id ids = (take k j r, some r) := by
  intro ids
  induction ids with
  | nil => exact .inl ⟨rfl, by simp⟩
  | cons a ids ih =>
    simp only [steal]
    by_cases ha : a = id
    · rw [if_pos ha]
      rcases ih with ⟨hs, hnone⟩ | hsome
      · refine .inl ⟨hs, ?_⟩
        intro i hi hne
        rcases mem_cons.mp hi with rfl | hi
        · exact absurd ha hne
        · exact hnone i hi hne
      · exact .inr hsome
    · rw [if_neg ha]
      cases hf : k.freelist a with
      | some r => exact .inr ⟨a, r, hf, rfl⟩
      | none =>
        rcases ih with ⟨hs, hnone⟩ | hsome
        · refine .inl ⟨hs, ?_⟩
          intro i hi hne
          rcases mem_cons.mp hi with rfl | hi
          · exact hf
          · exact hnone i hi hne
        · exact .inr hsome

theorem kalloc_cases (k : Kmem) (id : Fin NCPU) :
    (kalloc k id = (k, none) ∧ ∀ i, k.freelist i = none) ∨
    ∃ j r, k.freelist j = some r ∧ kalloc k id = (memset (take k j r) r 5, some r) := by
  unfold kalloc
  cases hf : k.freelist id with
  | some r => exact .inr ⟨id, r, hf, rfl⟩
  | none =>
    rcases steal_cases k id (finRange NCPU) with ⟨hs, hnone⟩ | ⟨j, r, hj, hs⟩
    · refine .inl ⟨by simp only [hs], ?_⟩
      intro i
      by_cases hi : i = id
      · rw [hi]
        exact hf
      · exact hnone i (mem_finRange i) hi
    · exact .inr ⟨j, r, hj, by simp only [hs]⟩

theorem Inv.kalloc {S : Nat → Prop} {k : Kmem} {lists : Fin NCPU → List Nat}
    (h : Inv S k lists) (id : Fin NCPU) : ∃ lists', Inv S (Kalloc.kalloc k id).1 lists' := by
  rcases kalloc_cases k id with ⟨hk, _⟩ | ⟨j, r, hj, hk⟩
  · exact ⟨lists, by rw [hk]; exact h⟩
  have hchain := h.chain j
  rw [hj] at hchain
  obtain ⟨rest, hl, _⟩ := chain_some hchain
  refine ⟨update lists j rest, ?_⟩
  rw [hk]
  exact (h.take j hl).memset r 5

theorem Inv.kfree {L : Layout} {S : Nat → Prop} {k k' : Kmem} {lists : Fin NCPU → List Nat}
    (h : Inv S k lists) (id : Fin NCPU) (hS : S pa) (hp : IsPage L pa)
    (hpos : 0 < krefcnt k pa) (hk : Kalloc.kfree L k id pa = some k') :
    Inv S k' (if krefcnt k pa = 1 then update lists id (pa :: lists id) else lists) := by
  rw [kfree_eq L k id hp] at hk
  split at hk
  · rename_i hc
    rw [if_pos hc]
    cases hk
    exact h.release id hS hpos
  · rename_i hc
    rw [if_neg hc]
    cases hk
    exact h.setCnt_pos hS hpos (by omega)

theorem Inv.step {L : Layout} {k k' : Kmem} {lists : Fin NCPU → List Nat}
    (h : Inv (IsPage L) k lists) (o : Op) (hk : Kalloc.step L k o = some k') :
    ∃ lists', Inv (IsPage L) k' lists' := by
  cases o with
  | kalloc id =>
    cases hk
    exact h.kalloc id
  | kaddrefcnt pa =>
    simp only [Kalloc.step] at hk
    split at hk
    · rename_i hg
      obtain ⟨h1, h2, h3⟩ := hg.1
      have hguard : ¬ (pa % PGSIZE ≠ 0 ∨ pa < L.kend ∨ PHYSTOP ≤ pa) := by omega
      simp only [Kalloc.kaddrefcnt, if_neg hguard] at hk
      split at hk
      · simp at hk
      · cases hk
        exact ⟨lists, h.setCnt_pos hg.1 hg.2 (by omega)⟩
    · simp at hk
  | kfree id pa =>
    simp only [Kalloc.step] at hk
    split at hk
    · rename_i hg
      exact ⟨_, h.kfree id hg.1 hg.1 hg.2 hk⟩
    · simp at hk

section Calls
variable {L : Layout} {k k' : Kmem} {lists : Fin NCPU → List Nat} {id : Fin NCPU}

theorem Inv.kalloc_some (h : Inv (IsPage L) k lists) (hk : Kalloc.kalloc k id = (k', some r)) :
    (∃ lists', Inv (IsPage L) k' lists') ∧ IsPage L r ∧ krefcnt k r = 0 ∧ krefcnt k' r = 1 ∧
      (∀ pa, IsPage L pa → pa ≠ r → krefcnt k' pa = krefcnt k pa) ∧
      ∀ pa, pa ≠ r → k'.mem pa = k.mem pa := by
  have hinv := h.kalloc id
  rw [hk] at hinv
  refine ⟨hinv, ?_⟩
  rcases kalloc_cases k id with ⟨hnone, _⟩ | ⟨j, r', hj, hsome⟩
  · rw [hnone] at hk
    simp at hk
  rw [hsome] at hk
  obtain ⟨rfl, hr⟩ := Prod.mk.inj hk
  cases hr
  have hchain := h.chain j
  rw [hj] at hchain
  obtain ⟨rest, hl, _⟩ := chain_some hchain
  have hmem : r ∈ lists j := by rw [hl]; exact mem_cons_self ..
  have hpage := h.managed j r hmem
  refine ⟨hpage, (h.free_iff r hpage).mp ⟨j, hmem⟩, ?_, ?_, ?_⟩
  · rw [krefcnt_memset, Kalloc.take, krefcnt_setCnt_self]
  · intro pa hpa hne
    rw [krefcnt_memset, Kalloc.take, krefcnt_setCnt_other _ _ hpage.1 hpa.1 hne]
    rfl
  · intro pa hne
    simp only [Kalloc.memset, Kalloc.take, setCnt, update_of_ne hne]

theorem kalloc_none (hk : kalloc k id = (k', none)) : ∀ i, k.freelist i = none := by
  rcases kalloc_cases k id with ⟨_, hnone⟩ | ⟨j, r, _, hsome⟩
  · exact hnone
  · rw [hsome] at hk
    simp at hk

theorem Inv.kfree_some (h : Inv (IsPage L) k lists) (hp : IsPage L pa)
    (hpos : 0 < krefcnt k pa) (hk : Kalloc.kfree L k id pa = some k') :
    (∃ lists', Inv (IsPage L) k' lists') ∧ krefcnt k' pa = krefcnt k pa - 1 ∧
      (∀ pb, IsPage L pb → pb ≠ pa → krefcnt k' pb = krefcnt k pb) ∧
      ∀ pb, pb ≠ pa ∨ 1 < krefcnt k pa → k'.mem pb = k.mem pb := by
  refine ⟨⟨_, h.kfree id hp hp hpos hk⟩, ?_⟩
  rw [kfree_eq L k id hp] at hk
  split at hk
  · rename_i hone
    cases hk
    refine ⟨?_, ?_, ?_⟩
    · rw [krefcnt_push, krefcnt_memset, krefcnt_setCnt_self, hone]
      rfl
    · intro pb hb hne
      rw [krefcnt_push, krefcnt_memset, krefcnt_setCnt_other _ _ hp.1 hb.1 hne]
    · intro pb hb
      have hne : pb ≠ pa := hb.resolve_right (by omega)
      simp only [push, Kalloc.memset, setCnt, update_of_ne hne]
  · cases hk
    refine ⟨krefcnt_setCnt_self .., ?_, fun _ _ => rfl⟩
    intro pb hb hne
    exact krefcnt_setCnt_other _ _ hp.1 hb.1 hne

theorem Inv.kaddrefcnt_some (h : Inv (IsPage L) k lists) {r : Int} (hp : IsPage L pa)
    (hpos : 0 < krefcnt k pa) (hk : Kalloc.kaddrefcnt L k pa = some (k', r)) :
    (∃ lists', Inv (IsPage L) k' lists') ∧ krefcnt k' pa = krefcnt k pa + 1 ∧
      (∀ pb, IsPage L pb → pb ≠ pa → krefcnt k' pb = krefcnt k pb) ∧ k'.mem = k.mem := by
  obtain ⟨h1, h2, h3⟩ := id hp
  unfold Kalloc.kaddrefcnt at hk
  rw [if_neg (by omega)] at hk
  split at hk
  · simp at hk
  obtain ⟨rfl, _⟩ := Prod.mk.inj (some.inj hk)
  refine ⟨⟨lists, h.setCnt_pos hp hpos (by omega)⟩, krefcnt_setCnt_self .., ?_, rfl⟩
  intro pb hb hne
  exact krefcnt_setCnt_other _ _ hp.1 hb.1 hne

end Calls

/-! ## `kinit` -/

theorem boot_inv (mem : Nat → Nat → UInt8) : Inv (fun _ => False) (boot mem) fun _ => [] where
  chain := fun _ => rfl
  disjoint := fun _ _ _ => disjoint_nil_left _
  managed := fun _ _ hi => absurd hi not_mem_nil
  aligned := fun _ h => h.elim
  free_iff := fun _ h => h.elim
  nonneg := fun _ h => h.elim

theorem Inv.congr {S T : Nat → Prop} {k : Kmem} {lists : Fin NCPU → List Nat}
    (h : Inv S k lists) (hST : ∀ pa, S pa ↔ T pa) : Inv T k lists := by
  have : S = T := funext fun pa => propext (hST pa)
  exact this ▸ h

def Extended (S : Nat → Prop) (p n pa : Nat) : Prop :=
  S pa ∨ (pa % PGSIZE = 0 ∧ p ≤ pa ∧ pa < p + n * PGSIZE)

theorem freePages_inv (L : Layout) (id : Fin NCPU) : ∀ (n p : Nat) (k : Kmem) (S : Nat → Prop)
    (lists : Fin NCPU → List Nat), Inv S k lists → p % PGSIZE = 0 → L.kend ≤ p →
    p + n * PGSIZE ≤ PHYSTOP → (∀ pa, S pa → pa < p ∧ krefcnt k pa = 0) →
    ∃ k' lists', freePages L id n p k = some k' ∧ Inv (Extended S p n) k' lists' ∧
      ∀ pa, Extended S p n pa → krefcnt k' pa = 0 := by
  intro n
  induction n with
  | zero =>
    intro p k S lists h _ _ _ hS
    have hext : ∀ pa, S pa ↔ Extended S p 0 pa := by
      intro pa
      refine ⟨.inl, ?_⟩
      rintro (ha | ha)
      · exact ha
      · omega
    exact ⟨k, lists, rfl, h.congr hext, fun pa ha => (hS pa ((hext pa).mpr ha)).2⟩
  | succ n ih =>
    intro p k S lists h hp hk hend hS
    simp only [PGSIZE] at hp hend
    have hpage : IsPage L p := ⟨hp, hk, by omega⟩
    have hadopt := h.adopt hp fun hSp => absurd (hS p hSp).1 (lt_irrefl p)
    have hfree : kfree L (setCnt k p 1) id p =
        some (push (memset (setCnt (setCnt k p 1) p 0) p 1) id p) := by
      rw [kfree_eq L _ id hpage, if_pos (krefcnt_setCnt_self k p 1)]
    have hrel := hadopt.kfree id (.inr rfl) hpage (by rw [krefcnt_setCnt_self]; omega) hfree
    have hzero : ∀ pa, S pa ∨ pa = p →
        krefcnt (push (memset (setCnt (setCnt k p 1) p 0) p 1) id p) pa = 0 := by
      rintro pa (ha | rfl)
      · have hne : pa ≠ p := by
          have := (hS pa ha).1
          omega
        rw [krefcnt_push, krefcnt_memset, krefcnt_setCnt_other _ _ hp (h.aligned pa ha) hne,
          krefcnt_setCnt_other _ _ hp (h.aligned pa ha) hne]
        exact (hS pa ha).2
      · rw [krefcnt_push, krefcnt_memset, krefcnt_setCnt_self]
    obtain ⟨k', lists', hrun, hinv, hcnt⟩ := ih (p + PGSIZE) _ _ _ hrel
      (by simp only [PGSIZE]; omega) (by omega) (by simp only [PGSIZE]; omega) (by
        intro pa ha
        refine ⟨?_, hzero pa ha⟩
        rcases ha with ha | rfl
        · have := (hS pa ha).1
          omega
        · simp only [PGSIZE]; omega)
    have hext : ∀ pa, Extended (fun pa => S pa ∨ pa = p) (p + PGSIZE) n pa ↔
        Extended S p (n + 1) pa := by
      intro pa
      simp only [Extended, PGSIZE]
      constructor
      · rintro ((ha | rfl) | ha)
        · exact .inl ha
        all_goals exact .inr (by omega)
      · rintro (ha | ha)
        · exact .inl (.inl ha)
        · by_cases hpa : pa = p
          · exact .inl (.inr hpa)
          · exact .inr (by omega)
    refine ⟨k', lists', ?_, hinv.congr hext, fun pa ha => hcnt pa ((hext pa).mpr ha)⟩
    simp only [freePages, hfree, bind_eq_bind, bind_some]
    exact hrun

theorem PHYSTOP_aligned : PHYSTOP % 4096 = 0 := by decide

theorem kinit_inv (L : Layout) (mem : Nat → Nat → UInt8) :
    ∃ k lists, kinit L mem = some k ∧ Inv (IsPage L) k lists ∧
      ∀ pa, IsPage L pa → krefcnt k pa = 0 := by
  have hal := PHYSTOP_aligned
  have hup : pgroundup L.kend % PGSIZE = 0 ∧ L.kend ≤ pgroundup L.kend ∧
      pgroundup L.kend < L.kend + PGSIZE := by
    simp only [pgroundup, PGSIZE]
    omega
  rw [kinit, freerange]
  generalize pgroundup L.kend = p at hup ⊢
  simp only [PGSIZE] at hup
  by_cases hend : p ≤ PHYSTOP
  · obtain ⟨k, lists, hrun, hinv, hcnt⟩ := freePages_inv L hart0 ((PHYSTOP - p) / PGSIZE) p
      (boot mem) _ _ (boot_inv mem) hup.1 hup.2.1 (by simp only [PGSIZE]; omega)
      (fun pa h => h.elim)
    have hext : ∀ pa, Extended (fun _ => False) p ((PHYSTOP - p) / PGSIZE) pa ↔ IsPage L pa := by
      intro pa
      simp only [Extended, IsPage, PGSIZE, false_or]
      omega
    exact ⟨k, lists, hrun, hinv.congr hext, fun pa ha => hcnt pa ((hext pa).mpr ha)⟩
  · have hnone : ∀ pa, ¬ IsPage L pa := by
      intro pa
      simp only [IsPage, PGSIZE]
      omega
    have hz : PHYSTOP - p = 0 := by omega
    refine ⟨boot mem, _, by rw [hz, Nat.zero_div, freePages], (boot_inv mem).congr fun pa => ?_,
      fun pa ha => absurd ha (hnone pa)⟩
    simp only [false_iff]
    exact hnone pa

/-! ## The allocator from `kinit` on -/

def pageSet (L : Layout) : Finset Nat := (Finset.range PHYSTOP).filter (IsPage L)

theorem mem_pageSet (L : Layout) (pa : Nat) : pa ∈ pageSet L ↔ IsPage L pa := by
  rw [pageSet, Finset.mem_filter, Finset.mem_range]
  exact ⟨fun h => h.2, fun h => ⟨h.2.2, h⟩⟩

theorem sum_length_eq_card {L : Layout} {k : Kmem} {lists : Fin NCPU → List Nat}
    (h : Inv (IsPage L) k lists) :
    ∑ i, (lists i).length = ((pageSet L).filter fun pa => krefcnt k pa = 0).card := by
  have hunion : (pageSet L).filter (fun pa => krefcnt k pa = 0) =
      Finset.univ.biUnion fun i => (lists i).toFinset := by
    ext pa
    simp only [Finset.mem_filter, mem_pageSet, Finset.mem_biUnion, Finset.mem_univ, true_and,
      List.mem_toFinset]
    constructor
    · rintro ⟨hp, hc⟩
      exact (h.free_iff pa hp).mpr hc
    · rintro ⟨i, hi⟩
      exact ⟨h.managed i pa hi, (h.free_iff pa (h.managed i pa hi)).mp ⟨i, hi⟩⟩
  rw [hunion, Finset.card_biUnion]
  · refine Finset.sum_congr rfl fun i _ => ?_
    rw [List.toFinset_card_of_nodup (chain_nodup _ _ (h.chain i))]
  · intro i _ j _ hij
    exact List.disjoint_toFinset_iff_disjoint.mpr (h.disjoint i j hij)

theorem conserved {L : Layout} {k : Kmem} {lists : Fin NCPU → List Nat}
    (h : Inv (IsPage L) k lists) :
    ∑ i, (lists i).length + ((pageSet L).filter fun pa => 0 < krefcnt k pa).card =
      (pageSet L).card := by
  have hpos : ((pageSet L).filter fun pa => 0 < krefcnt k pa) =
      (pageSet L).filter fun pa => ¬ krefcnt k pa = 0 := by
    refine filter_congr fun pa hpa => ?_
    have := h.nonneg pa ((mem_pageSet L pa).mp hpa)
    omega
  rw [sum_length_eq_card h, hpos]
  exact card_filter_add_card_filter_not _

/-- Only the count of `pa` changes, to `n`. -/
def Recounts (L : Layout) (k k' : Kmem) (pa : Nat) (n : Int) : Prop :=
  krefcnt k' pa = n ∧ ∀ pb, IsPage L pb → pb ≠ pa → krefcnt k' pb = krefcnt k pb

structure Sound (L : Layout) (total : Nat) (k : Kmem) (lists : Fin NCPU → List Nat) : Prop where
  chain : ∀ i, Chain k.next (k.freelist i) (lists i)
  nodup : ∀ i, (lists i).Nodup
  disjoint : ∀ i j, i ≠ j → List.Disjoint (lists i) (lists j)
  free_iff : ∀ pa, IsPage L pa → ((∃ i, pa ∈ lists i) ↔ krefcnt k pa = 0)
  conserved : ∑ i, (lists i).length + ((pageSet L).filter fun pa => 0 < krefcnt k pa).card = total
  kalloc_fresh : ∀ id r, (kalloc k id).2 = some r →
    IsPage L r ∧ krefcnt k r = 0 ∧ Recounts L k (kalloc k id).1 r 1
  kaddrefcnt_counts : ∀ pa, IsPage L pa → 0 < krefcnt k pa → krefcnt k pa < INT_MAX →
    ∃ k', kaddrefcnt L k pa = some (k', 0) ∧ Recounts L k k' pa (krefcnt k pa + 1)
  kfree_last : ∀ id pa, IsPage L pa → 0 < krefcnt k pa →
    ∃ k', ∃ lists' : Fin NCPU → List Nat, kfree L k id pa = some k' ∧
    (∀ i, Chain k'.next (k'.freelist i) (lists' i)) ∧
    ((∃ i, pa ∈ lists' i) ↔ krefcnt k pa = 1) ∧ Recounts L k k' pa (krefcnt k pa - 1)
  kalloc_none_iff : ∀ id, (kalloc k id).2 = none ↔ ∀ i, lists i = []

theorem kalloc_none_iff_of_inv {L : Layout} {k : Kmem} {lists : Fin NCPU → List Nat}
    (h : Inv (IsPage L) k lists) (id : Fin NCPU) : (kalloc k id).2 = none ↔ ∀ i, lists i = [] := by
  have hempty : (∀ i, lists i = []) ↔ ∀ i, k.freelist i = none :=
    forall_congr' fun i => chain_eq_nil_iff (h.chain i)
  rw [hempty]
  rcases kalloc_cases k id with ⟨hk, hnone⟩ | ⟨j, r, hj, hk⟩
  · simp [hk, hnone]
  rw [hk]
  constructor
  · intro h'
    simp at h'
  · intro hall
    rw [hall j] at hj
    simp at hj

theorem kfree_last_of_inv {L : Layout} {k : Kmem} {lists : Fin NCPU → List Nat}
    (h : Inv (IsPage L) k lists) (id : Fin NCPU) (hp : IsPage L pa) (hpos : 0 < krefcnt k pa) :
    ∃ k', ∃ lists' : Fin NCPU → List Nat, kfree L k id pa = some k' ∧
      (∀ i, Chain k'.next (k'.freelist i) (lists' i)) ∧
      ((∃ i, pa ∈ lists' i) ↔ krefcnt k pa = 1) ∧ Recounts L k k' pa (krefcnt k pa - 1) := by
  have hsome : ∃ k', kfree L k id pa = some k' := by
    rw [kfree_eq L k id hp]
    split
    · exact ⟨_, rfl⟩
    · exact ⟨_, rfl⟩
  obtain ⟨k', hk⟩ := hsome
  have hinv := h.kfree id hp hp hpos hk
  obtain ⟨-, hself, hother, -⟩ := h.kfree_some hp hpos hk
  refine ⟨k', _, hk, hinv.chain, ?_, hself, hother⟩
  split
  · rename_i hc
    exact ⟨fun _ => hc, fun _ => ⟨id, by rw [update_self]; exact mem_cons_self ..⟩⟩
  · rename_i hc
    refine ⟨fun hi => ?_, fun hc' => absurd hc' hc⟩
    have := (h.free_iff pa hp).mp hi
    omega

theorem Inv.sound {L : Layout} {k : Kmem} {lists : Fin NCPU → List Nat}
    (h : Inv (IsPage L) k lists) : Sound L (pageSet L).card k lists where
  chain := h.chain
  nodup := fun i => chain_nodup _ _ (h.chain i)
  disjoint := h.disjoint
  free_iff := h.free_iff
  conserved := Kalloc.conserved h
  kalloc_fresh := by
    intro id r hr
    obtain ⟨-, hpage, hzero, hone, hother, -⟩ := h.kalloc_some (Prod.ext rfl hr)
    exact ⟨hpage, hzero, hone, hother⟩
  kaddrefcnt_counts := by
    intro pa hp hpos hmax
    have hk : kaddrefcnt L k pa = some (setCnt k pa (krefcnt k pa + 1), 0) := by
      obtain ⟨h1, h2, h3⟩ := hp
      rw [kaddrefcnt, if_neg (by omega), if_neg (by omega)]
    obtain ⟨-, hself, hother, -⟩ := h.kaddrefcnt_some hp hpos hk
    exact ⟨_, hk, hself, hother⟩
  kfree_last := fun id _ hp hpos => kfree_last_of_inv h id hp hpos
  kalloc_none_iff := kalloc_none_iff_of_inv h

/-- `kinit` puts every page on a free list, and after any sequence of calls the
lists and the counts still describe one partition of those pages. -/
theorem page_allocator_invariant (L : Layout) (mem : Nat → Nat → UInt8) :
    ∃ k₀, ∃ lists₀ : Fin NCPU → List Nat, kinit L mem = some k₀ ∧
      (∀ i, Chain k₀.next (k₀.freelist i) (lists₀ i)) ∧ (∀ pa, IsPage L pa → ∃ i, pa ∈ lists₀ i) ∧
      ∀ ops k, Machine.run (step L) k₀ ops = some k →
        ∃ lists, Sound L (∑ i, (lists₀ i).length) k lists := by
  obtain ⟨k₀, lists₀, hinit, hinv, hzero⟩ := kinit_inv L mem
  have htotal : ∑ i, (lists₀ i).length = (pageSet L).card := by
    rw [sum_length_eq_card hinv, Finset.filter_true_of_mem]
    exact fun pa hpa => hzero pa ((mem_pageSet L pa).mp hpa)
  refine ⟨k₀, lists₀, hinit, hinv.chain, fun pa hp => (hinv.free_iff pa hp).mpr (hzero pa hp), ?_⟩
  intro ops k hrun
  obtain ⟨lists, h⟩ := Machine.run_invariant (I := fun k => ∃ lists, Inv (IsPage L) k lists)
    (fun k o k' hI hk => by
      obtain ⟨lists, h⟩ := hI
      exact h.step o hk) ops k₀ k ⟨lists₀, hinv⟩ hrun
  refine ⟨lists, ?_⟩
  rw [htotal]
  exact h.sound

def twoPages : Layout := ⟨PHYSTOP - 2 * PGSIZE, by decide⟩

def twoPagesOps : List Op :=
  [.kalloc ⟨3, by decide⟩, .kaddrefcnt (PHYSTOP - PGSIZE), .kfree hart0 (PHYSTOP - PGSIZE),
    .kfree ⟨5, by decide⟩ (PHYSTOP - PGSIZE), .kalloc hart0]

theorem page_allocator_invariant_two_pages :
    ∃ k₀ k total lists, kinit twoPages (fun _ _ => 0) = some k₀ ∧
      Machine.run (step twoPages) k₀ twoPagesOps = some k ∧ Sound twoPages total k lists := by
  obtain ⟨k₀, lists₀, hinit, _, _, hall⟩ := page_allocator_invariant twoPages fun _ _ => 0
  have hsome : ((kinit twoPages fun _ _ => 0).bind fun k =>
      Machine.run (step twoPages) k twoPagesOps).isSome = true := by decide
  rw [hinit, bind_some] at hsome
  obtain ⟨k, hk⟩ := isSome_iff_exists.mp hsome
  obtain ⟨lists, hs⟩ := hall twoPagesOps k hk
  exact ⟨k₀, k, _, lists, hinit, hk, hs⟩

end BirdOS.Kalloc
