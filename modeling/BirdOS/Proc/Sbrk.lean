import Mathlib.Data.BitVec
import BirdOS.Proc.Fork

/-! # `sbrk` (`sysproc.c`)

The size is a `uint64`, the argument and the variable for the result are `int`. -/

namespace BirdOS.Sbrk

open Image Outcome Function
open Kalloc (Layout IsPage)
open Vm (Pte)

def TRAPFRAME : Nat := trapframePage * PGSIZE

structure State where
  sz : Nat
  pagetable : Table
  mem : Mem

/-- `sz + n` in 64 bits. -/
def newSize (sz : Nat) (n : BitVec 32) : Nat := ((sz + n.toInt : Int) % 2 ^ 64).toNat

/-- `return addr`, where `addr` is an `int`. -/
def returned (sz : Nat) : BitVec 64 := (BitVec.ofNat 32 sz).signExtend 64

def sysSbrk (L : Layout) (s : State) (n : BitVec 32) : Except Panic (BitVec 64 × State) :=
  if 0 < n.toInt then .ok (returned s.sz, { s with sz := newSize s.sz n })
  else if 0 < newSize s.sz n then do
    let (t, m) ← uvmdealloc L s.sz (newSize s.sz n) s.pagetable s.mem
    return (returned s.sz, ⟨if s.sz ≤ newSize s.sz n then s.sz else newSize s.sz n, t, m⟩)
  else .ok (-1, s)

def above (s : State) (sz : Nat) : Nat × Nat :=
  (pgroundup sz / PGSIZE, pgroundup s.sz / PGSIZE - pgroundup sz / PGSIZE)

/-- The new size, with the old one as the address, or `-1` and nothing changed. -/
def Contract (L : Layout) (s : State) (n : BitVec 32) (r : BitVec 64) (s' : State) : Prop :=
  (0 ≤ s.sz + n.toInt ∧ s.sz + n.toInt ≤ TRAPFRAME ∧ r.toNat = s.sz ∧
    (s'.sz : Int) = s.sz + n.toInt ∧
    s'.pagetable = { s.pagetable with
      pte := clear s.pagetable.pte (above s s'.sz).1 (above s s'.sz).2 } ∧
    kfrees L (leaves s.pagetable.pte (above s s'.sz).1 (above s s'.sz).2) s.mem = .ok s'.mem) ∨
  (r = -1 ∧ s' = s)

/-- In the second case the answer is the failure; in the third the old size reads as `-1`. -/
def Kept (s : State) (n : BitVec 32) : Prop :=
  (0 < s.sz + n.toInt ∧ s.sz + n.toInt ≤ TRAPFRAME ∧ s.sz < 2 ^ 31) ∨
    s.sz + n.toInt = 0 ∨ (n.toInt = 0 ∧ s.sz % 2 ^ 32 = 2 ^ 32 - 1)

structure Mapped (L : Layout) (t : Table) : Prop where
  flags : ∀ k e, t.pte k = some e → e.flags ≠ noFlags
  page : ∀ k e, t.pte k = some e → k < trapframePage → IsPage L e.pa

def step (L : Layout) (s : State) (n : BitVec 32) : Option State :=
  match sysSbrk L s n with
  | .ok (_, s') => some s'
  | .error _ => none

section Contract
variable {L : Layout} {s : State} {n : BitVec 32}

theorem returned_cases (sz : Nat) : (sz % 2 ^ 32 < 2 ^ 31 ∧ (returned sz).toNat = sz % 2 ^ 32) ∨
      (2 ^ 31 ≤ sz % 2 ^ 32 ∧ (returned sz).toNat = sz % 2 ^ 32 + (2 ^ 64 - 2 ^ 32)) := by
  have hlt : sz % 2 ^ 32 < 2 ^ 64 := Nat.lt_trans (Nat.mod_lt _ (by decide)) (by decide)
  rw [returned, BitVec.toNat_signExtend, BitVec.toNat_setWidth, BitVec.toNat_ofNat,
    Nat.mod_eq_of_lt hlt, BitVec.msb_eq_decide, BitVec.toNat_ofNat]
  by_cases h : sz % 2 ^ 32 < 2 ^ 31
  · left
    rw [show 32 - 1 = 31 from rfl, decide_eq_false (not_le.mpr h)]
    exact ⟨h, rfl⟩
  right
  rw [show 32 - 1 = 31 from rfl, decide_eq_true (not_lt.mp h)]
  exact ⟨not_lt.mp h, rfl⟩

theorem toInt_bounds (n : BitVec 32) : -2 ^ 31 ≤ n.toInt ∧ n.toInt < 2 ^ 31 :=
  ⟨BitVec.le_toInt n, BitVec.toInt_lt⟩

theorem newSize_cases (sz : Nat) (n : BitVec 32) (hsz : sz < 2 ^ 64) :
    (0 ≤ sz + n.toInt ∧ sz + n.toInt < 2 ^ 64 ∧ (newSize sz n : Int) = sz + n.toInt) ∨
      (sz + n.toInt < 0 ∧ (newSize sz n : Int) = sz + n.toInt + 2 ^ 64) ∨
      (2 ^ 64 ≤ sz + n.toInt ∧ (newSize sz n : Int) = sz + n.toInt - 2 ^ 64) := by
  obtain ⟨hlow, hhigh⟩ := toInt_bounds n
  rw [newSize]
  omega

theorem TRAPFRAME_eq : TRAPFRAME = 2 ^ 38 - 8192 := by decide

theorem uvmdealloc_above {new : Nat} (hle : new ≤ s.sz) : uvmdealloc L s.sz new s.pagetable s.mem =
      uvmunmap L true (above s new).2 (above s new).1 s.pagetable s.mem := by
  have hcount : (pgroundup s.sz - pgroundup new) / PGSIZE = (above s new).2 := by
    simp only [above, pgroundup, PGSIZE]
    omega
  rw [uvmdealloc]
  by_cases hlt : pgroundup new < pgroundup s.sz
  · have hless : ¬ s.sz ≤ new := fun hge =>
      absurd (congrArg pgroundup (le_antisymm hge hle)) (Nat.ne_of_gt hlt)
    rw [if_neg hless, if_pos hlt, hcount]
    rfl
  have hzero : (above s new).2 = 0 := by
    rw [← hcount, Nat.sub_eq_zero_of_le (not_lt.mp hlt), Nat.zero_div]
  rw [if_neg hlt, ite_self, hzero, uvmunmap]

theorem contract_of_small (h : Mapped L s.pagetable) (hpos : 0 < s.sz + n.toInt)
    (hmax : s.sz + n.toInt ≤ TRAPFRAME) (hsz : s.sz < 2 ^ 31) :
    ∃ r s', sysSbrk L s n = .ok (r, s') ∧ Contract L s n r s' := by
  have htrap := TRAPFRAME_eq
  have hr : (returned s.sz).toNat = s.sz := by
    have := returned_cases s.sz
    omega
  have hcases := newSize_cases s.sz n (by omega)
  rw [sysSbrk]
  generalize newSize s.sz n = new at hcases ⊢
  have hnew : (new : Int) = s.sz + n.toInt := by omega
  by_cases hn : 0 < n.toInt
  · have hnone : (above s new).2 = 0 := by
      simp only [above, pgroundup, PGSIZE]
      omega
    refine ⟨_, _, if_pos hn, .inl ⟨by omega, hmax, hr, hnew, ?_, ?_⟩⟩
    · simp only [hnone]
      rw [clear_none (by omega)]
    · simp only [hnone]
      rfl
  · have hle : new ≤ s.sz := by omega
    have hend : (above s new).1 + (above s new).2 < trapframePage := by
      simp only [above, pgroundup, PGSIZE, trapframePage, maxPage, Vm.MAXVA]
      omega
    have hlast : trapframePage ≤ maxPage := by decide
    have hpages : ∀ b ∈ leaves s.pagetable.pte (above s new).1 (above s new).2, IsPage L b := by
      intro b hb
      obtain ⟨k, hk, hk'⟩ := List.mem_filterMap.mp hb
      obtain ⟨i, hi, rfl⟩ := List.mem_range'.mp hk
      obtain ⟨e, he, rfl⟩ := Option.map_eq_some_iff.mp hk'
      exact h.page _ e he (by omega)
    obtain ⟨m', hfree, -⟩ := (kfrees_spec _ s.mem hpages).returns
    have hsz' : (if s.sz ≤ new then s.sz else new) = new := by
      split
      · omega
      · rfl
    rw [if_neg hn, if_pos (by omega), uvmdealloc_above hle,
      uvmunmap_eq _ _ _ _ (by omega) fun k e _ _ => h.flags k e, hfree, hsz']
    exact ⟨_, _, rfl, .inl ⟨by omega, hmax, hr, hnew, rfl, hfree⟩⟩

theorem contract_of_empty (hlt : s.sz < 2 ^ 64) (hzero : s.sz + n.toInt = 0) :
    ∃ r s', sysSbrk L s n = .ok (r, s') ∧ Contract L s n r s' := by
  have hcases := newSize_cases s.sz n hlt
  have hnew : newSize s.sz n = 0 := by omega
  refine ⟨-1, s, ?_, .inr ⟨rfl, rfl⟩⟩
  rw [sysSbrk, if_neg (by omega), hnew, if_neg (lt_irrefl 0)]

theorem contract_of_accident (hlt : s.sz < 2 ^ 64) (hn : n.toInt = 0)
    (hlow : s.sz % 2 ^ 32 = 2 ^ 32 - 1) :
    ∃ r s', sysSbrk L s n = .ok (r, s') ∧ Contract L s n r s' := by
  have hcases := newSize_cases s.sz n hlt
  have hnew : newSize s.sz n = s.sz := by omega
  have hpos : 0 < s.sz := by omega
  refine ⟨returned s.sz, s, ?_, .inr ⟨BitVec.eq_of_toNat_eq ?_, rfl⟩⟩
  · rw [sysSbrk, if_neg (by omega), hnew, if_pos hpos, uvmdealloc, if_pos le_rfl, ok_bind,
      if_pos le_rfl]
    rfl
  · have hret := returned_cases s.sz
    have hminus : (-1 : BitVec 64).toNat = 2 ^ 64 - 1 := by decide
    omega

theorem sysSbrk_cases {r : BitVec 64} {s' : State} (hrun : sysSbrk L s n = .ok (r, s')) :
    (0 < n.toInt ∧ r = returned s.sz ∧ s'.sz = newSize s.sz n) ∨
    (n.toInt ≤ 0 ∧ 0 < newSize s.sz n ∧ r = returned s.sz ∧ s'.sz = min s.sz (newSize s.sz n)) ∨
    (n.toInt ≤ 0 ∧ newSize s.sz n = 0 ∧ s' = s) := by
  rw [sysSbrk] at hrun
  generalize newSize s.sz n = new at hrun ⊢
  by_cases hn : 0 < n.toInt
  · rw [if_pos hn] at hrun
    cases hrun
    exact .inl ⟨hn, rfl, rfl⟩
  rw [if_neg hn] at hrun
  by_cases hz : 0 < new
  · rw [if_pos hz] at hrun
    cases hd : uvmdealloc L s.sz new s.pagetable s.mem with
    | error e =>
      rw [hd] at hrun
      cases hrun
    | ok x =>
      rw [hd] at hrun
      cases hrun
      exact .inr (.inl ⟨not_lt.mp hn, hz, rfl, Nat.min_def.symm⟩)
  · rw [if_neg hz] at hrun
    cases hrun
    exact .inr (.inr ⟨not_lt.mp hn, Nat.eq_zero_of_not_pos hz, rfl⟩)

theorem kept_of_contract (hlt : s.sz < 2 ^ 64) {r : BitVec 64} {s' : State}
    (hrun : sysSbrk L s n = .ok (r, s')) (h : Contract L s n r s') : Kept s n := by
  have htrap := TRAPFRAME_eq
  obtain ⟨hlow, hhigh⟩ := toInt_bounds n
  have hret := returned_cases s.sz
  have hcases := newSize_cases s.sz n hlt
  have hminus : (-1 : BitVec 64).toNat = 2 ^ 64 - 1 := by decide
  have hdone := sysSbrk_cases hrun
  generalize newSize s.sz n = new at hcases hdone
  rw [Kept]
  rcases hdone with ⟨hn, rfl, hsz⟩ | ⟨hn, hz, rfl, hsz⟩ | ⟨hn, hz, -⟩
  · rcases h with ⟨-, hmax, hr, -⟩ | ⟨-, rfl⟩ <;> omega
  · rcases h with ⟨hpos, hmax, hr, -⟩ | ⟨hr, rfl⟩
    · omega
    · have hr' := congrArg BitVec.toNat hr
      omega
  · omega

theorem size_step {s' : State} (hs : s.sz ≤ TRAPFRAME) (hkept : Kept s n)
    (hstep : step L s n = some s') : s'.sz ≤ TRAPFRAME := by
  have htrap := TRAPFRAME_eq
  have hcases := newSize_cases s.sz n (by omega)
  have hmax : s.sz + n.toInt ≤ TRAPFRAME := by
    rcases hkept with h | h | h <;> omega
  rw [step] at hstep
  cases hrun : sysSbrk L s n with
  | error e =>
    rw [hrun] at hstep
    cases hstep
  | ok x =>
    rw [hrun] at hstep
    cases hstep
    rcases sysSbrk_cases hrun with ⟨hn, -, hsz⟩ | ⟨-, -, -, hsz⟩ | ⟨-, -, hsame⟩
    · omega
    · omega
    · rw [hsame]
      exact hs

end Contract

/-! ## No walk beyond `MAXVA` -/

section Walk
variable {L : Layout}

def NoWalk {α : Type} (x : Except Panic α) : Prop := Ends (fun _ => True) (fun e => e ≠ .walk) x

theorem kfree_no_walk (m : Mem) (b : Nat) : NoWalk (kfree L m b) := by
  rw [kfree]
  split
  · split <;> trivial
  · intro h
    cases h

theorem kfrees_no_walk (bs : List Nat) : ∀ m : Mem,
    NoWalk (kfrees L bs m) := by
  induction bs with
  | nil => exact fun _ => trivial
  | cons b bs ih =>
    intro m
    rw [kfrees, List.foldlM_cons]
    exact .bind (kfree_no_walk m b) fun m' _ => ih m'

theorem uvmunmap_no_walk (do_free : Bool) (c : Nat) : ∀ (n : Nat) (t : Table) (m : Mem),
    n + c ≤ maxPage → NoWalk (uvmunmap L do_free c n t m) := by
  induction c with
  | zero => exact fun _ _ _ _ => trivial
  | succ c ih =>
    intro n t m hn
    rw [uvmunmap, if_neg (by omega)]
    cases t.pte n with
    | none => exact ih (n + 1) t m (by omega)
    | some e =>
      simp only
      split
      · intro h
        cases h
      cases do_free with
      | true => exact .bind (kfree_no_walk m e.pa) fun m' _ => ih (n + 1) _ m' (by omega)
      | false => exact ih (n + 1) _ m (by omega)

theorem pages_le {sz : Nat} (hsz : sz ≤ TRAPFRAME) : 0 + pgroundup sz / PGSIZE ≤ maxPage := by
  have htrap := TRAPFRAME_eq
  simp only [pgroundup, PGSIZE, maxPage, Vm.MAXVA]
  omega

theorem uvmfree_no_walk {sz : Nat} (hsz : sz ≤ TRAPFRAME) (t : Table) (m : Mem) :
    NoWalk (uvmfree L sz t m) := by
  rw [uvmfree]
  split
  · exact .bind (uvmunmap_no_walk true _ 0 t m (pages_le hsz)) fun x _ => kfrees_no_walk _ x.2
  · exact kfrees_no_walk _ m

theorem procFreepagetable_no_walk {sz : Nat} (hsz : sz ≤ TRAPFRAME) (t : Table) (m : Mem) :
    NoWalk (procFreepagetable L sz t m) := by
  apply Ends.bind (uvmunmap_no_walk false 1 _ t m (by decide))
  intro x _
  apply Ends.bind (uvmunmap_no_walk false 1 _ x.1 x.2 (by decide))
  intro y _
  exact uvmfree_no_walk hsz y.1 y.2

theorem mappages_no_walk {n : Nat} (hn : n < maxPage) (e : Pte) (t : Table) (m : Mem) :
    NoWalk (mappages n e t m) := by
  refine .bind (P := fun _ => True) ?_ ?_
  · rw [walk, if_neg (by omega)]
    rcases descend (2, n / 2 ^ 18) t m with ⟨_ | _, t, m'⟩ <;> trivial
  rintro ⟨found, t, m'⟩ -
  cases found with
  | false => trivial
  | true =>
    simp only [Bool.true_eq_false, if_false]
    split
    · intro h
      cases h
    · trivial

theorem procPagetable_no_walk (trampoline trapframe : Nat) (m : Mem) :
    NoWalk (procPagetable L trampoline trapframe m) := by
  rw [procPagetable]
  cases kalloc m with
  | none => trivial
  | some r =>
    apply Ends.bind (mappages_no_walk (by decide) _ _ _)
    rintro ⟨done, t, m1⟩ -
    cases done with
    | false => exact .bind (uvmfree_no_walk zero_le t m1) fun _ _ => trivial
    | true =>
      apply Ends.bind (mappages_no_walk (by decide) _ t m1)
      rintro ⟨done, t, m2⟩ -
      cases done with
      | false =>
        apply Ends.bind (uvmunmap_no_walk false 1 _ t m2 (by decide))
        intro x _
        exact .bind (uvmfree_no_walk zero_le x.1 x.2) fun _ _ => trivial
      | true => trivial

theorem freeproc_no_walk (trapframe : Nat) (t : Option Table) (alarm_trapframe : Nat) (m : Mem) :
    NoWalk (Fork.freeproc L trapframe t alarm_trapframe m) := by
  apply Ends.bind (kfree_no_walk m trapframe)
  intro m1 _
  cases t with
  | none => exact kfree_no_walk m1 alarm_trapframe
  | some t =>
    exact .bind (procFreepagetable_no_walk zero_le t m1) fun m2 _ =>
      kfree_no_walk m2 alarm_trapframe

theorem allocproc_no_walk (trampoline : Nat) (m : Mem) :
    NoWalk (Fork.allocproc L trampoline m) := by
  rw [Fork.allocproc]
  cases kalloc m with
  | none => trivial
  | some x =>
    simp only
    cases kalloc x.2 with
    | none => trivial
    | some y =>
      apply Ends.bind (procPagetable_no_walk trampoline x.1 y.2)
      rintro ⟨t, m1⟩ -
      cases t with
      | none => exact .bind (freeproc_no_walk x.1 none y.1 m1) fun _ _ => trivial
      | some t => trivial

theorem uvmcopy_no_walk (left : Nat) : ∀ (n : Nat) (old new : Table) (m : Mem), n + left ≤ maxPage →
    NoWalk (Fork.uvmcopy L left n old new m) := by
  induction left with
  | zero => exact fun _ _ _ _ _ => trivial
  | succ left ih =>
    intro n old new m hn
    rw [Fork.uvmcopy, if_neg (by omega)]
    cases old.pte n with
    | none => exact ih (n + 1) old new m (by omega)
    | some e =>
      apply Ends.bind (mappages_no_walk (by omega) (Fork.cowPte e) new m)
      rintro ⟨done, new', m'⟩ -
      cases done with
      | true => exact ih (n + 1) _ new' _ (by omega)
      | false => exact .bind (uvmunmap_no_walk true n 0 new' m' (by omega)) fun _ _ => trivial

theorem fork_no_walk {R : Type} [DecidableEq R] (trampoline : Nat) (k : Fork.State R)
    {p : Fork.Parent R} (hsz : p.sz ≤ TRAPFRAME) : NoWalk (Fork.fork L trampoline k p) := by
  rw [Fork.fork]
  cases (List.finRange NPROC).find? fun i => !k.used i with
  | none => trivial
  | some np =>
    apply Ends.bind (allocproc_no_walk trampoline k.mem)
    rintro ⟨child, m⟩ -
    cases child with
    | none => trivial
    | some c =>
      apply Ends.bind (uvmcopy_no_walk _ 0 p.pagetable c.2.2 m (pages_le hsz))
      rintro ⟨done, old, new, m'⟩ -
      cases done with
      | true => trivial
      | false => exact .bind (freeproc_no_walk c.1 (some new) c.2.1 m') fun _ _ => trivial

theorem ne_walk_of_no_walk {α : Type} {x : Except Panic α} (h : NoWalk x) : x ≠ .error .walk := by
  rintro rfl
  exact h rfl

end Walk

/-- The contract of `sbrk` is kept exactly by the calls of `Kept`: the bounds are not tested and the
old size passes through an `int`.  As long as every call is one of these, neither `fork` nor `exit`
reaches the panic of `walk`. -/
theorem sbrk_contract_iff {R : Type} [DecidableEq R] (L : Layout) :
    (∀ (s : State) (n : BitVec 32), s.sz < 2 ^ 64 → Mapped L s.pagetable →
      ((∃ r s', sysSbrk L s n = .ok (r, s') ∧ Contract L s n r s') ↔ Kept s n)) ∧
    ∀ (s : State) (ns : List (BitVec 32)) (s' : State), s.sz ≤ TRAPFRAME →
      Machine.run (step L) s ns = some s' → Machine.Along (step L) Kept s ns →
      s'.sz ≤ TRAPFRAME ∧ procFreepagetable L s'.sz s'.pagetable s'.mem ≠ .error .walk ∧
        ∀ (trampoline : Nat) (k : Fork.State R) (p : Fork.Parent R), p.sz = s'.sz →
          Fork.fork L trampoline k p ≠ .error .walk := by
  refine ⟨fun s n hlt hmap => ⟨?_, ?_⟩, fun s ns s' hs hrun halong => ?_⟩
  · rintro ⟨r, s', hrun, hc⟩
    exact kept_of_contract hlt hrun hc
  · rintro (⟨hpos, hmax, hsz⟩ | hzero | ⟨hn, hlow⟩)
    · exact contract_of_small hmap hpos hmax hsz
    · exact contract_of_empty hlt hzero
    · exact contract_of_accident hlt hn hlow
  · have hsize : s'.sz ≤ TRAPFRAME :=
      Machine.along_invariant (I := fun s : State => s.sz ≤ TRAPFRAME)
        (fun _ _ _ => size_step) ns s s' hs halong hrun
    refine ⟨hsize, ne_walk_of_no_walk (procFreepagetable_no_walk hsize _ _), ?_⟩
    intro trampoline k p hp
    exact ne_walk_of_no_walk (fork_no_walk trampoline k (hp ▸ hsize))

def page : State := ⟨PGSIZE, ⟨0, [], fun _ => none⟩, ⟨fun _ _ => 0, [], fun _ => 0⟩⟩

theorem sbrk_contract_iff_grow : ∃ r s',
    sysSbrk noKernel page 1 = .ok (r, s') ∧ Contract noKernel page 1 r s' := by
  refine ((sbrk_contract_iff (R := Unit) noKernel).1 page 1 (by decide) ⟨?_, ?_⟩).mpr ?_
  · exact nofun
  · exact nofun
  · exact .inl (by decide)

theorem sbrk_below_zero : ∃ r s', sysSbrk noKernel page (-5000) = .ok (r, s') ∧
    r = 4096 ∧ s' = page ∧ ¬ Contract noKernel page (-5000) r s' := by
  refine ⟨_, _, rfl, by decide, rfl, ?_⟩
  rintro (⟨hpos, -⟩ | ⟨hr, -⟩)
  · exact absurd hpos (by decide)
  · exact absurd hr (by decide)

end BirdOS.Sbrk
