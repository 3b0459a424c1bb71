import BirdOS.Mm.SpaceInvariant

/-! # System calls on a heap that is allocated lazily

`sbrk` only moves the end of the heap.  The pages come with the first access of the user,
or with `argaddr` when a system call is given an address.  A copy through the page table
finds zeros where nothing was allocated yet only if the pages would have been there from
the start, so `heapByte` is what an eager `sbrk` would let it find. -/

namespace BirdOS.Space

open Kalloc Vm List Option
open Shm (proc0)

def heapByte (s : Vm.State) (p : Slot) (va : Nat) : UInt8 :=
  match walkaddr s p va with
  | none => 0
  | some pa => s.kmem.mem pa (va % PGSIZE)

def Present (s : Vm.State) (p : Slot) (va n : Nat) : Prop :=
  ∀ i < n, (walkaddr s p (va + i)).isSome = true

instance (s : Vm.State) (p : Slot) (va n : Nat) : Decidable (Present s p va n) := by
  dsimp only [Present]
  infer_instance

/-! ## Copying from the user -/

section Copyin
variable {s : Vm.State} {p : Slot} {va vb pa : Nat}

theorem walkaddr_same_page (h : va / PGSIZE = vb / PGSIZE) : walkaddr s p va = walkaddr s p vb := by
  have hiff : va ≥ MAXVA ↔ vb ≥ MAXVA := by
    simp only [PGSIZE] at h
    simp only [MAXVA]
    omega
  simp only [walkaddr, walk, hiff, h]

theorem walkaddr_pgrounddown (s : Vm.State) (p : Slot) (va : Nat) :
    walkaddr s p (pgrounddown va) = walkaddr s p va :=
  walkaddr_same_page (pgrounddown_div va)

theorem heapByte_none (h : walkaddr s p va = none) : heapByte s p va = 0 := by
  simp [heapByte, h]

theorem heapByte_chunk {len n : Nat} (hn : min (PGSIZE - (va - pgrounddown va)) len = n)
    (hpa : walkaddr s p va = some pa) {i : Nat} (hi : i < n) :
    heapByte s p (va + i) = s.kmem.mem pa (va - pgrounddown va + i) := by
  obtain ⟨-, hfit, hpage, -⟩ := chunk_arith hn
  have hoff : (va + i) % PGSIZE = va - pgrounddown va + i := by
    simp only [pgrounddown, PGSIZE] at hfit ⊢
    omega
  simp only [heapByte, walkaddr_same_page (hpage i hi), hpa, hoff]

theorem present_add {n m : Nat} :
    Present s p va (n + m) ↔ Present s p va n ∧ Present s p (va + n) m := by
  refine ⟨fun h => ⟨fun i hi => h i (by omega), fun i hi => ?_⟩, fun h i hi => ?_⟩
  · rw [add_assoc]
    exact h (n + i) (by omega)
  · by_cases hin : i < n
    · exact h.1 i hin
    · have hrest := h.2 (i - n) (by omega)
      rwa [add_assoc, Nat.add_sub_cancel' (by omega)] at hrest

theorem present_chunk {len n : Nat} (hn : min (PGSIZE - (va - pgrounddown va)) len = n)
    (hpa : walkaddr s p va = some pa) : Present s p va n := by
  intro i hi
  rw [walkaddr_same_page ((chunk_arith hn).2.2.1 i hi), hpa]
  rfl

theorem not_present (hpa : walkaddr s p va = none) {n : Nat} (hn : 0 < n) : ¬ Present s p va n := by
  intro h
  have hfirst := h 0 hn
  rw [add_zero, hpa] at hfirst
  cases hfirst

theorem chunk_rest {len n : Nat} (hn : min (PGSIZE - (va - pgrounddown va)) (len + 1) = n) :
    0 < n ∧ ∃ m, len + 1 = n + m ∧ ∀ {α : Type} (loop : Nat → Nat → α),
      (∀ a b, loop a 0 = loop b 0) →
      loop (pgrounddown va + PGSIZE) m = loop (va + n) m := by
  obtain ⟨hle, -, -, hnext⟩ := chunk_arith hn
  refine ⟨?_, len + 1 - n, by omega, fun loop hzero => ?_⟩
  · simp only [pgrounddown, PGSIZE] at hn
    omega
  rcases hnext with hlast | hnext
  · rw [show len + 1 - n = 0 by omega]
    exact hzero _ _
  · rw [hnext]

theorem copyinLoop_zero (fuel : Nat) : copyinLoop s p fuel va 0 = ([], true) := by
  cases fuel <;> rfl

def heapBytes (s : Vm.State) (p : Slot) (va n : Nat) : List UInt8 :=
  (List.range n).map fun i => heapByte s p (va + i)

theorem heapBytes_add (n m : Nat) :
    heapBytes s p va (n + m) = heapBytes s p va n ++ heapBytes s p (va + n) m := by
  simp only [heapBytes, List.range_add, List.map_append, List.map_map, Function.comp_def,
    add_assoc]

theorem copyinLoop_eq_iff (fuel : Nat) : ∀ va len, len ≤ fuel →
    (copyinLoop s p fuel va len = (heapBytes s p va len, true) ↔ Present s p va len) := by
  induction fuel with
  | zero =>
    intro va len hlen
    obtain rfl : len = 0 := by omega
    exact iff_of_true (copyinLoop_zero 0) fun i hi => absurd hi (Nat.not_lt_zero i)
  | succ fuel ih =>
    intro va len hlen
    cases len with
    | zero => exact iff_of_true (copyinLoop_zero _) fun i hi => absurd hi (Nat.not_lt_zero i)
    | succ len =>
      simp only [copyinLoop, walkaddr_pgrounddown]
      cases hpa : walkaddr s p va with
      | none =>
        exact iff_of_false (by simp) (not_present hpa (by omega))
      | some pa =>
        simp only
        generalize hn : min (PGSIZE - (va - pgrounddown va)) (len + 1) = n
        obtain ⟨hpos, m, hm, hloop⟩ := chunk_rest hn
        have hrest := hloop (copyinLoop s p fuel) fun _ _ =>
          by rw [copyinLoop_zero, copyinLoop_zero]
        have hchunk : (range n).map (fun j => s.kmem.mem pa (va - pgrounddown va + j)) =
            heapBytes s p va n :=
          map_congr_left fun i hi =>
            (heapByte_chunk hn hpa (mem_range.mp hi)).symm
        rw [hm, Nat.add_sub_cancel_left, hrest, hchunk, heapBytes_add, present_add,
          and_iff_right (present_chunk hn hpa), ← ih (va + n) m (by omega), Prod.mk.injEq,
          append_cancel_left_eq, ← Prod.mk.injEq]

theorem copyin_eq_iff (va len : Nat) :
    copyin s p va len = (heapBytes s p va len, true) ↔ Present s p va len :=
  copyinLoop_eq_iff len va len le_rfl

theorem scanStr_congr {byte byte' : Nat → UInt8} (n : Nat) : ∀ {a b : Nat},
    (∀ i < n, byte (a + i) = byte' (b + i)) → scanStr byte a n = scanStr byte' b n := by
  induction n with
  | zero => exact fun _ => rfl
  | succ n ih =>
    intro a b h
    have hfirst := h 0 (by omega)
    have hrest : scanStr byte (a + 1) n = scanStr byte' (b + 1) n := by
      apply ih
      intro i hi
      have hnext := h (i + 1) (by omega)
      rwa [← add_assoc, ← add_assoc, add_right_comm a, add_right_comm b] at hnext
    rw [add_zero, add_zero] at hfirst
    simp only [scanStr, hfirst, hrest]

theorem scanStr_length_le (byte : Nat → UInt8) (n : Nat) : ∀ a,
    (scanStr byte a n).1.length ≤ n := by
  induction n with
  | zero => exact fun _ => Nat.le_refl 0
  | succ n ih =>
    intro a
    have hrest := ih (a + 1)
    unfold scanStr
    split
    · simp
    · simpa using hrest

theorem scanStr_length (byte : Nat → UInt8) (n : Nat) : ∀ a, (scanStr byte a n).2 = false →
    (scanStr byte a n).1.length = n := by
  induction n with
  | zero => exact fun _ _ => rfl
  | succ n ih =>
    intro a h
    unfold scanStr at h ⊢
    split at h
    · cases h
    · next hne =>
      rw [if_neg hne]
      exact congrArg Nat.succ (ih (a + 1) h)

theorem scanStr_add (byte : Nat → UInt8) (n m : Nat) : ∀ a, scanStr byte a (n + m) =
      if (scanStr byte a n).2 then scanStr byte a n
      else ((scanStr byte a n).1 ++ (scanStr byte (a + n) m).1, (scanStr byte (a + n) m).2) := by
  induction n with
  | zero => intro a; simp [scanStr]
  | succ n ih =>
    intro a
    rw [add_right_comm]
    by_cases hzero : byte a = 0
    · simp [scanStr, hzero]
    · simp only [scanStr, if_neg hzero, ih (a + 1), add_assoc, add_comm 1 n]
      split <;> rfl

theorem copyinstrLoop_zero (fuel : Nat) : copyinstrLoop s p fuel va 0 = ([], false) := by
  cases fuel <;> rfl

def heapStr (s : Vm.State) (p : Slot) (va max : Nat) : List UInt8 × Bool :=
  scanStr (heapByte s p) va max

theorem heapStr_add (n m : Nat) : heapStr s p va (n + m) =
      if (heapStr s p va n).2 then heapStr s p va n
      else ((heapStr s p va n).1 ++ (heapStr s p (va + n) m).1, (heapStr s p (va + n) m).2) :=
  scanStr_add (heapByte s p) n m va

theorem copyinstrLoop_eq_iff (fuel : Nat) : ∀ va max, max ≤ fuel →
    (copyinstrLoop s p fuel va max = heapStr s p va max ↔
      Present s p va (heapStr s p va max).1.length) := by
  induction fuel with
  | zero =>
    intro va max hmax
    obtain rfl : max = 0 := by omega
    exact iff_of_true (copyinstrLoop_zero 0) fun i hi => absurd hi (Nat.not_lt_zero i)
  | succ fuel ih =>
    intro va max hmax
    cases max with
    | zero => exact iff_of_true (copyinstrLoop_zero _) fun i hi => absurd hi (Nat.not_lt_zero i)
    | succ max =>
      simp only [copyinstrLoop, walkaddr_pgrounddown]
      cases hpa : walkaddr s p va with
      | none =>
        -- an eager heap has a zero here, so the string ends at this very byte
        have hstr : heapStr s p va (max + 1) = ([0], true) := by
          simp [heapStr, scanStr, heapByte_none hpa]
        rw [hstr]
        exact iff_of_false (by simp) (not_present hpa (by simp))
      | some pa =>
        simp only
        generalize hn : min (PGSIZE - (va - pgrounddown va)) (max + 1) = n
        obtain ⟨hpos, m, hm, hloop⟩ := chunk_rest hn
        have hrest := hloop (copyinstrLoop s p fuel) fun _ _ => by
          rw [copyinstrLoop_zero, copyinstrLoop_zero]
        have hchunk : scanStr (s.kmem.mem pa) (va - pgrounddown va) n = heapStr s p va n :=
          scanStr_congr n fun i hi => (heapByte_chunk hn hpa hi).symm
        rw [hm, Nat.add_sub_cancel_left, hrest, hchunk, heapStr_add]
        by_cases hnul : (heapStr s p va n).2 = true
        · simp only [if_pos hnul]
          refine iff_of_true trivial fun i hi => present_chunk hn hpa i ?_
          exact lt_of_lt_of_le hi (scanStr_length_le _ n va)
        have hall : (heapStr s p va n).1.length = n :=
          scanStr_length _ n va (Bool.eq_false_iff.mpr hnul)
        simp only [if_neg hnul, length_append, hall]
        rw [present_add, and_iff_right (present_chunk hn hpa), ← ih (va + n) m (by omega),
          Prod.mk.injEq, append_cancel_left_eq, ← Prod.mk.injEq]

theorem copyinstr_eq_iff (va max : Nat) : copyinstr s p va max = heapStr s p va max ↔
      Present s p va (heapStr s p va max).1.length :=
  copyinstrLoop_eq_iff max va max le_rfl

end Copyin

/-! ## Copying to the user -/

section Copyout
variable {L : Layout} {id : Fin NCPU} {s s' : Vm.State} {p : Slot} {va : Nat} {data : List UInt8}

def pageByte (g : Option Page) (off : Nat) : UInt8 :=
  match g with
  | none => 0
  | some g => if g.flags.u then g.content off else 0

theorem heapByte_abs (s : Vm.State) (p : Slot) (va : Nat) : heapByte s p va =
      if va < MAXVA then pageByte ((Vm.abs s).pages p (va / PGSIZE)) (va % PGSIZE) else 0 := by
  unfold heapByte walkaddr walk
  by_cases hva : va < MAXVA
  · rw [if_neg (by omega), if_pos hva]
    simp only [Vm.abs]
    cases s.pt p (va / PGSIZE) with
    | none => rfl
    | some e =>
      simp only [map_some, pageByte, Flags.own]
      by_cases hu : e.flags.u = true
      · simp only [if_pos hu]
      · simp only [if_neg hu]
  · rw [if_pos (by omega), if_neg hva]

theorem walkaddr_isSome_abs (s : Vm.State) (p : Slot) (va : Nat) : (walkaddr s p va).isSome = true ↔
      va < MAXVA ∧ ∃ g, (Vm.abs s).pages p (va / PGSIZE) = some g ∧ g.flags.u = true := by
  unfold walkaddr walk
  by_cases hva : va ≥ MAXVA
  · rw [if_pos hva]
    exact iff_of_false (by simp) fun h => absurd h.1 (by omega)
  rw [if_neg hva]
  simp only [Vm.abs]
  cases s.pt p (va / PGSIZE) with
  | none => simp
  | some e => simp [Flags.own, show va < MAXVA by omega]

theorem copyout_ends (id : Fin NCPU) (fuel : Nat) : ∀ (s : Vm.State) (va : Nat) (data : List UInt8)
    (copied : Nat),
    Good L s → (Vm.abs s).MayWrite p va data.length → data.length ≤ fuel →
    ∃ s' o, copyout L id p fuel s va data copied = some (s', o) ∧
      ∀ n, o = .fault n → n < copied + data.length := by
  induction fuel with
  | zero =>
    intro s va data copied _ _ hlen
    obtain rfl : data = [] := length_eq_zero_iff.mp (by omega)
    exact ⟨s, .ok, copyout_nil 0 copied, fun n hn => by cases hn⟩
  | succ fuel ih =>
    intro s va data copied hg hmay hlen
    cases data with
    | nil => exact ⟨s, .ok, copyout_nil _ copied, fun n hn => by cases hn⟩
    | cons b data =>
      have hpos : 0 < (b :: data).length := by simp
      rw [copyout]
      simp only
      generalize b :: data = data at hlen hmay hpos ⊢
      obtain ⟨⟨s₁, r⟩, ht⟩ : ∃ r, (if cowpage s p (pgrounddown va) then
          cowalloc L id s p (pgrounddown va)
          else some (s, walkaddr s p (pgrounddown va))) = some r := by
        split
        · exact cowalloc_isSome hg id p (pgrounddown va)
        · exact ⟨_, rfl⟩
      obtain ⟨hg1, habs1, hr⟩ := hg.target (hmay.walk hpos) ht
      rw [ht]
      cases r with
      | none =>
        refine ⟨s₁, _, rfl, fun n hn => ?_⟩
        split at hn
        · cases hn
        · cases hn
          omega
      | some pa =>
        obtain ⟨-, fl, hfl, hpt⟩ := hr pa rfl
        simp only
        generalize hn : min (PGSIZE - (va - pgrounddown va)) data.length = n
        obtain ⟨hle, hfit, -, hnext⟩ := chunk_arith hn
        have hfirst : 0 < n := by
          simp only [pgrounddown, PGSIZE] at hn
          omega
        have htake : (data.take n).length = n := by
          rw [length_take]
          omega
        have hdrop : (data.drop n).length = data.length - n := length_drop
        obtain ⟨hg2, habs2⟩ := hg1.writePage hpt hfl (by rw [htake]; exact hfit)
        rw [habs1] at habs2
        rcases hnext with hlast | hnext
        · rw [drop_eq_nil_iff.mpr (by omega), copyout_nil]
          exact ⟨_, .ok, rfl, fun m hm => by cases hm⟩
        rw [hnext]
        have hmay2 := hmay.rest hle (data.take n)
        rw [← habs2] at hmay2
        obtain ⟨s', o, hs, ho⟩ := ih _ (va + n) (data.drop n) (copied + n) hg2 hmay2 (by omega)
        refine ⟨s', o, hs, fun m hm => ?_⟩
        have hlt := ho m hm
        omega

def Wrote (s s' : Vm.State) (p : Slot) (va : Nat) (data : List UInt8) : Prop :=
  ∀ q u, heapByte s' q u =
    if q = p ∧ va ≤ u ∧ u < va + data.length then data.getD (u - va) 0 else heapByte s q u

theorem wrote_of_write (h : Vm.abs s' = (Vm.abs s).write p va data)
    (hpresent : Present s p va data.length) : Wrote s s' p va data := by
  intro q u
  rw [heapByte_abs s', h, heapByte_abs s, Spaces.write, Spaces.setTable_pages]
  obtain rfl | hq := eq_or_ne q p
  · rw [if_pos rfl]
    have hu : u / PGSIZE * PGSIZE + u % PGSIZE = u := Nat.div_add_mod' u PGSIZE
    have hoff : u % PGSIZE < PGSIZE := Nat.mod_lt _ (by decide)
    by_cases hin : va ≤ u ∧ u < va + data.length
    · have hmapped := hpresent (u - va) (by omega)
      rw [Nat.add_sub_cancel' hin.1, walkaddr_isSome_abs] at hmapped
      obtain ⟨hmax, g, hg, hacc⟩ := hmapped
      rw [if_pos hmax, if_pos ⟨rfl, hin⟩, hg]
      simp only [map_some, pageByte, if_pos hacc, patch, hu]
      rw [if_pos ⟨hoff, hin⟩]
    have hout : ¬ (q = q ∧ va ≤ u ∧ u < va + data.length) := fun h => hin h.2
    rw [if_neg hout]
    cases (Vm.abs s).pages q (u / PGSIZE) with
    | none => rfl
    | some g =>
      simp only [map_some, pageByte, patch, hu]
      rw [if_neg (show ¬ (u % PGSIZE < PGSIZE ∧ va ≤ u ∧ u < va + data.length) from
        fun h => hin h.2)]
  · have hother : ¬ (q = p ∧ va ≤ u ∧ u < va + data.length) := fun h => hq h.1
    rw [if_neg hq, if_neg hother]

theorem writable_of_mapped (hmay : (Vm.abs s).MayWrite p va data.length) {i : Nat}
    (hi : i < data.length) :
    (Vm.abs s).writable p (va + i) = true ↔ (walkaddr s p (va + i)).isSome = true := by
  rw [walkaddr_isSome_abs, Spaces.writable, Bool.and_eq_true, decide_eq_true_eq]
  refine and_congr_right fun _ => ?_
  cases hg : (Vm.abs s).pages p ((va + i) / PGSIZE) with
  | none => simp
  | some g =>
    simp only [Bool.and_eq_true, Option.some.injEq, exists_eq_left']
    exact ⟨fun h => h.2, fun h => ⟨hmay i hi g hg h, h⟩⟩

theorem copyout_ok_iff (hg : Good L s) (hmay : (Vm.abs s).MayWrite p va data.length)
    (hmem : ∀ s' n, copyout L id p data.length s va data 0 ≠ some (s', .oom n)) :
    (∃ s', copyout L id p data.length s va data 0 = some (s', .ok) ∧ Wrote s s' p va data) ↔
      Present s p va data.length := by
  obtain ⟨s', o, hs, hfault⟩ :=
    copyout_ends id data.length s va data 0 hg hmay le_rfl
  obtain ⟨-, n, hn, habs, hwr, ho⟩ := hg.copyout data.length s s' va data 0 o hmay hs
  constructor
  · rintro ⟨t, ht, -⟩
    rw [hs] at ht
    cases ht
    rcases ho with ⟨-, rfl⟩ | ho | ⟨ho, -⟩
    · exact fun i hi => (writable_of_mapped hmay hi).mp (hwr i hi)
    · cases ho
    · cases ho
  · intro hpresent
    rcases ho with ⟨rfl, rfl⟩ | rfl | ⟨rfl, hno⟩
    · rw [take_length] at habs
      exact ⟨s', hs, wrote_of_write habs hpresent⟩
    · exact absurd hs (hmem s' _)
    have hlt := hfault _ rfl
    rw [zero_add, zero_add] at hlt
    rw [(writable_of_mapped hmay hlt).mpr (hpresent n hlt)] at hno
    cases hno

end Copyout

/-! ## The two places where pages are allocated -/

structure InHeap (s : Vm.State) (p : Slot) (sp addr n : Nat) : Prop where
  pos : 0 < n
  above : aboveStack sp addr
  below : addr + n ≤ s.sz p
  entries : ∀ i < n, ∀ e ∈ s.pt p ((addr + i) / PGSIZE),
    e.flags.u = true ∧ (e.flags.w = true ∨ e.flags.f = true)

structure Touched (s : Vm.State) (p : Slot) (addr n : Nat) : Prop where
  first : (walkaddr s p addr).isSome = true ∨ addr < TRAPFRAME
  rest : ∀ i < n, (addr + i) / PGSIZE = addr / PGSIZE ∨ (walkaddr s p (addr + i)).isSome = true

section Argaddr
variable {L : Layout} {id : Fin NCPU} {s s₁ : Vm.State} {p : Slot} {sp addr n m : Nat}

theorem InHeap.mayWrite (h : InHeap s p sp addr n) : (Vm.abs s).MayWrite p addr n := by
  intro i hi g hg _
  obtain ⟨e, he, rfl⟩ := map_eq_some_iff.mp hg
  simpa [Flags.own] using (h.entries i hi e he).2

theorem InHeap.no_entry (h : InHeap s p sp addr n) (hnone : ¬ (walkaddr s p addr).isSome = true)
    (hlt : addr < TRAPFRAME) : s.pt p (addr / PGSIZE) = none := by
  cases he : s.pt p (addr / PGSIZE) with
  | none => rfl
  | some e =>
    have hu := (h.entries 0 h.pos e he).1
    have hmax : ¬ addr ≥ MAXVA := by
      simp only [TRAPFRAME] at hlt
      omega
    simp [walkaddr, walk, hmax, he, hu] at hnone

theorem argaddr_heap_iff (hg : Good L s) (h : InHeap s p sp addr n)
    (hpage : (walkaddr s p addr).isSome = true ∨ HasPage s id) :
    (∃ s₁, argaddr L id s p sp addr true = some (s₁, true)) ↔
      (walkaddr s p addr).isSome = true ∨ addr < TRAPFRAME := by
  have hlt : addr < s.sz p := by
    have hpos := h.pos
    have hbelow := h.below
    omega
  unfold argaddr
  by_cases hmapped : (walkaddr s p addr).isSome = true
  · rw [if_pos hmapped]
    exact iff_of_true ⟨s, rfl⟩ (.inl hmapped)
  have hhas := hpage.resolve_left hmapped
  rw [if_neg hmapped, if_pos ⟨h.above, hlt⟩, or_iff_right hmapped]
  obtain ⟨hpanic, hsome⟩ :=
    mapZero_spec hg id p (pgrounddown addr) true (show rwxu.f = false from rfl)
  rw [taken_pgrounddown] at hpanic
  constructor
  · rintro ⟨s₁, hs⟩
    by_contra hge
    rw [hpanic.mpr ⟨hhas, .inl (not_lt.mp hge)⟩] at hs
    cases hs
  · intro htrap
    have hfree : ¬ Taken s p addr := by
      rintro (hge | htaken)
      · omega
      · rw [h.no_entry hmapped htrap] at htaken
        cases htaken
    cases hz : mapZero L id s p (pgrounddown addr) rwxu true with
    | none => exact absurd (hpanic.mp hz).2 hfree
    | some r =>
      obtain ⟨s₁, b⟩ := r
      rcases hsome s₁ b hz with ⟨rfl, -⟩ | ⟨-, hno, -⟩
      · exact ⟨s₁, rfl⟩
      · cases hno hhas

theorem argaddr_new (hg : Good L s) (hnone : ¬ (walkaddr s p addr).isSome = true)
    (hs : argaddr L id s p sp addr true = some (s₁, true)) : ¬ Taken s p addr ∧ Becomes L s s₁
      ((Vm.abs s).setPage p (addr / PGSIZE) (some ⟨rwxu.own, fun _ => 0⟩)) := by
  unfold argaddr at hs
  rw [if_neg hnone] at hs
  split at hs
  · obtain ⟨-, hsome⟩ :=
      mapZero_spec hg id p (pgrounddown addr) true (show rwxu.f = false from rfl)
    rw [taken_pgrounddown, pgrounddown_div] at hsome
    rcases hsome s₁ true hs with ⟨-, -, hfree, hbec⟩ | ⟨hb, -⟩
    · exact ⟨hfree, hbec⟩
    · cases hb
  · cases hs

structure Allocated (s s₁ : Vm.State) (p : Slot) (addr n : Nat) : Prop where
  mayWrite : (Vm.abs s₁).MayWrite p addr n
  bytes : ∀ q u, heapByte s₁ q u = heapByte s q u
  present : ∀ m, Present s₁ p addr m ↔ Touched s p addr m

theorem allocated_mapped (h : InHeap s p sp addr n) (hmapped : (walkaddr s p addr).isSome = true) :
    Allocated s s p addr n := by
  refine ⟨h.mayWrite, fun _ _ => rfl,
    fun m => ⟨fun hp => ⟨.inl hmapped, fun i hi => .inr (hp i hi)⟩,
    fun ht i hi => ?_⟩⟩
  rcases ht.rest i hi with hsame | hmap
  · rw [walkaddr_same_page hsame]
    exact hmapped
  · exact hmap

theorem allocated_new (h : InHeap s p sp addr n) (hfree : ¬ Taken s p addr) (habs : Vm.abs s₁ =
      (Vm.abs s).setPage p (addr / PGSIZE) (some ⟨rwxu.own, fun _ => 0⟩)) :
    Allocated s s₁ p addr n := by
  obtain ⟨htrap, hpt⟩ := not_taken hfree
  have hold : (Vm.abs s).pages p (addr / PGSIZE) = none := (pages_none s p _).mpr hpt
  refine ⟨?_, fun q u => ?_, fun m => ?_⟩
  · intro i hi g hg hu
    rw [habs, Spaces.setPage_pages] at hg
    split at hg
    · cases hg
      rfl
    · exact h.mayWrite i hi g hg hu
  · rw [heapByte_abs, heapByte_abs, habs, Spaces.setPage_pages]
    by_cases hat : q = p ∧ u / PGSIZE = addr / PGSIZE
    · rw [if_pos hat, hat.1, hat.2, hold]
      rfl
    · rw [if_neg hat]
  · have hmapped : ∀ i, (walkaddr s₁ p (addr + i)).isSome = true ↔
        (addr + i) / PGSIZE = addr / PGSIZE ∨ (walkaddr s p (addr + i)).isSome = true := by
      intro i
      rw [walkaddr_isSome_abs, walkaddr_isSome_abs, habs, Spaces.setPage_pages]
      by_cases hsame : (addr + i) / PGSIZE = addr / PGSIZE
      · have hmax : addr + i < MAXVA := by
          simp only [TRAPFRAME, MAXVA, PGSIZE] at htrap hsame ⊢
          omega
        rw [if_pos ⟨rfl, hsame⟩]
        exact iff_of_true ⟨hmax, _, rfl, rfl⟩ (.inl hsame)
      · have hother : ¬ (p = p ∧ (addr + i) / PGSIZE = addr / PGSIZE) := fun h => hsame h.2
        rw [if_neg hother, or_iff_right hsame]
    exact ⟨fun hp => ⟨.inr htrap, fun i hi => (hmapped i).mp (hp i hi)⟩,
      fun ht i hi => (hmapped i).mpr (ht.rest i hi)⟩

theorem argaddr_allocated (hg : Good L s) (h : InHeap s p sp addr n)
    (hs : argaddr L id s p sp addr true = some (s₁, true)) :
    Good L s₁ ∧ Allocated s s₁ p addr n := by
  by_cases hmapped : (walkaddr s p addr).isSome = true
  · rw [argaddr, if_pos hmapped] at hs
    cases hs
    exact ⟨hg, allocated_mapped h hmapped⟩
  · obtain ⟨hfree, hbec⟩ := argaddr_new hg hmapped hs
    exact ⟨hbec.good, allocated_new h hfree hbec.abs_eq⟩

theorem after_argaddr_iff (hg : Good L s) (h : InHeap s p sp addr n)
    (hpage : (walkaddr s p addr).isSome = true ∨ HasPage s id) {Copies : Vm.State → Prop}
    (hcopies : ∀ s₁, Good L s₁ → Allocated s s₁ p addr n →
      argaddr L id s p sp addr true = some (s₁, true) → (Copies s₁ ↔ Present s₁ p addr m)) :
    (∃ s₁, argaddr L id s p sp addr true = some (s₁, true) ∧ Copies s₁) ↔ Touched s p addr m := by
  constructor
  · rintro ⟨s₁, hs, hc⟩
    obtain ⟨hg1, hall⟩ := argaddr_allocated hg h hs
    exact (hall.present m).mp ((hcopies s₁ hg1 hall hs).mp hc)
  · intro ht
    obtain ⟨s₁, hs⟩ := (argaddr_heap_iff hg h hpage).mpr ht.first
    obtain ⟨hg1, hall⟩ := argaddr_allocated hg h hs
    exact ⟨s₁, hs, (hcopies s₁ hg1 hall hs).mpr ((hall.present m).mpr ht)⟩

end Argaddr

theorem heapBytes_congr {s s₁ : Vm.State} {p : Slot} (h : ∀ q u, heapByte s₁ q u = heapByte s q u)
    (addr n : Nat) : heapBytes s₁ p addr n = heapBytes s p addr n := by
  simp only [heapBytes, h]

theorem heapStr_congr {s s₁ : Vm.State} {p : Slot} (h : ∀ q u, heapByte s₁ q u = heapByte s q u)
    (addr n : Nat) : heapStr s₁ p addr n = heapStr s p addr n := by
  simp only [heapStr, show heapByte s₁ p = heapByte s p from funext (h p)]

/-- Which copies of a system call see the heap as if `sbrk` had allocated it.  After
`argaddr` the pages of the buffer besides the first have to be there already; a copy of an
address that the kernel itself found in memory, as in `exec`, needs the first one too. -/
theorem lazy_heap_copies_iff (L : Layout) (mem : Nat → Nat → UInt8) (k : Kmem)
    (hk : kinit L mem = some k) (contents : Nat → List UInt8) (s : State)
    (hs : Machine.Reachable (step L) (boot k contents) s) (id : Fin NCPU) (p : Slot)
    (sp addr n : Nat) (hheap : InHeap s.toState p sp addr n)
    (hpage : (walkaddr s.toState p addr).isSome = true ∨ HasPage s.toState id) :
    ((∃ s₁, argaddr L id s.toState p sp addr true = some (s₁, true) ∧
        copyin s₁ p addr n = (heapBytes s.toState p addr n, true)) ↔ Touched s.toState p addr n) ∧
    ((∃ s₁, argaddr L id s.toState p sp addr true = some (s₁, true) ∧
        copyinstr s₁ p addr n = heapStr s.toState p addr n) ↔
      Touched s.toState p addr (heapStr s.toState p addr n).1.length) ∧
    (∀ data : List UInt8, data.length = n →
      (∀ s₁ s' m, argaddr L id s.toState p sp addr true = some (s₁, true) →
        copyout L id p n s₁ addr data 0 ≠ some (s', .oom m)) →
      ((∃ s₁, argaddr L id s.toState p sp addr true = some (s₁, true) ∧
          ∃ s', copyout L id p n s₁ addr data 0 = some (s', .ok) ∧ Wrote s.toState s' p addr data) ↔
        Touched s.toState p addr n)) ∧
    (copyin s.toState p addr n = (heapBytes s.toState p addr n, true) ↔
      Present s.toState p addr n) ∧ (copyinstr s.toState p addr n = heapStr s.toState p addr n ↔
      Present s.toState p addr (heapStr s.toState p addr n).1.length) := by
  have hg := (sound_reachable hk hs).good
  refine ⟨?_, ?_, ?_, copyin_eq_iff addr n, copyinstr_eq_iff addr n⟩
  · refine after_argaddr_iff hg hheap hpage fun s₁ _ hall _ => ?_
    rw [← heapBytes_congr hall.bytes]
    exact copyin_eq_iff addr n
  · refine after_argaddr_iff hg hheap hpage fun s₁ _ hall _ => ?_
    rw [← heapStr_congr hall.bytes]
    exact copyinstr_eq_iff addr n
  · rintro data rfl hmem
    refine after_argaddr_iff hg hheap hpage fun s₁ hg₁ hall hs₁ => ?_
    rw [← copyout_ok_iff hg₁ hall.mayWrite fun s' m => hmem s₁ s' m hs₁]
    simp only [Wrote, hall.bytes]

theorem lazy_heap_copies_iff_page : ∃ k s, kinit fivePages (fun _ _ => 0) = some k ∧
      Machine.run (step fivePages) (boot k fun _ => []) growOps = some s ∧
      walkaddr s.toState proc0 12288 = none ∧
      ∃ s₁, argaddr fivePages hart0 s.toState proc0 12000 12288 true = some (s₁, true) ∧
        copyin s₁ proc0 12288 3 = (heapBytes s.toState proc0 12288 3, true) := by
  have hrun : ∃ k s, kinit fivePages (fun _ _ => 0) = some k ∧
      Machine.run (step fivePages) (boot k fun _ => []) growOps = some s ∧
      walkaddr s.toState proc0 12288 = none ∧ aboveStack 12000 12288 ∧
      12288 + 3 ≤ s.sz proc0 ∧ (∀ i < 3, (s.pt proc0 ((12288 + i) / PGSIZE)).isNone) ∧
      HasPage s.toState hart0 := boot_test (by decide +kernel)
  obtain ⟨k, s, hk, hs, hnone, habove, hbelow, hentries, hhas⟩ := hrun
  have hheap : InHeap s.toState proc0 12000 12288 3 := by
    refine ⟨by decide, habove, hbelow, fun i hi e he => ?_⟩
    have hno := hentries i hi
    rw [Option.mem_def.mp he] at hno
    cases hno
  refine ⟨k, s, hk, hs, hnone, ?_⟩
  refine (lazy_heap_copies_iff fivePages _ k hk _ s ⟨_, hs⟩ hart0 proc0 12000 12288 3 hheap
    (.inr hhas)).1.mpr ⟨.inr (by decide), fun i hi => .inl ?_⟩
  simp only [PGSIZE]
  omega

def growTwoOps : List Op :=
  [.exec hart0 proc0 [fun _ => 0] (fun _ => 0), .sbrk hart0 proc0 8192]

-- the search for the instance of the whole statement is too large without this part
instance outcomeDecEq : DecidableEq (Option (Bool × Bool × List UInt8 × Bool)) := inferInstance

theorem copy_across_untouched_pages_fails : ∃ k s, kinit fivePages (fun _ _ => 0) = some k ∧
      Machine.run (step fivePages) (boot k fun _ => []) growTwoOps = some s ∧
      Runs s proc0 ∧ aboveStack 12000 16383 ∧ 16383 + 2 ≤ s.sz proc0 ∧
      heapBytes s.toState proc0 16383 2 = [0, 0] ∧
      ((argaddr fivePages hart0 s.toState proc0 12000 16383 true).map fun r =>
        (r.2, decide (HasPage r.1 hart0), copyin r.1 proc0 16383 2)) =
        some (true, true, ([0], false)) ∧
      ((argaddr fivePages hart0 s.toState proc0 12000 16383 true).bind fun r =>
        (copyout fivePages hart0 proc0 2 r.1 16383 [1, 2] 0).map Prod.snd) = some (.fault 1) :=
  boot_test (by decide +kernel)

end BirdOS.Space
