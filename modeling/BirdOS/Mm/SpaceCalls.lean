import BirdOS.Mm.SpaceFaults

/-! # What the system calls do to address spaces

One lemma for each system call of `Space`, over `Becomes`.  Reference counts stay exact in
every operation that does not drop a table with pages that it has not unmapped. -/

namespace BirdOS.Space

open Kalloc Vm SharedCells Function List Option
open Shm (proc0 throughInt)

/-! ## Ranges of pages -/

section Ranges
variable {L : Layout} {id : Fin NCPU} {s s' : Vm.State} {p : Slot} {va n sp addr : Nat}

theorem becomes_uvmunmap (hg : Good L s) {v : Nat} (h : uvmunmap L id p n v s = some s') :
    Becomes L s s' ((Vm.abs s).unmap p v n) := by
  obtain ⟨hgood, habs⟩ := hg.uvmunmap n v s s' h
  exact ⟨hgood, habs, fun hc => Counted.uvmunmap n v s s' hg hc h⟩

theorem becomes_unmapRange (hg : Good L s) (h : unmapRange L id s p va n = some s') :
    va % PGSIZE = 0 ∧ Becomes L s s'
      ((Vm.abs s).unmap p (va / PGSIZE) (((va + n * PGSIZE) % 2 ^ 64 - va) / PGSIZE)) := by
  simp only [unmapRange] at h
  split at h
  · cases h
  · next hal =>
    split at h
    · cases h
    · exact ⟨by simpa using hal, becomes_uvmunmap hg h⟩

theorem argaddr_spec (hg : Good L s) (table : Bool) :
    (argaddr L id s p sp addr table = none ↔ walkaddr s p addr = none ∧ aboveStack sp addr ∧
      addr < s.sz p ∧ HasPage s id ∧ Taken s p addr) ∧
    ∀ s' b, argaddr L id s p sp addr table = some (s', b) → (Becomes L s s' (Vm.abs s)) ∨
      (¬ Taken s p addr ∧ addr < s.sz p ∧ aboveStack sp addr ∧ b = true ∧ Becomes L s s'
          ((Vm.abs s).setPage p (addr / PGSIZE) (some ⟨rwxu.own, fun _ => 0⟩))) := by
  unfold argaddr
  by_cases hmapped : (walkaddr s p addr).isSome = true
  · rw [if_pos hmapped]
    refine ⟨iff_of_false (by simp) fun h => ?_, fun s' b h => .inl ?_⟩
    · rw [h.1] at hmapped
      cases hmapped
    · cases h
      exact Becomes.refl hg
  rw [if_neg hmapped]
  have hnone : walkaddr s p addr = none := by simpa using hmapped
  by_cases hin : aboveStack sp addr ∧ addr < s.sz p
  · rw [if_pos hin]
    obtain ⟨hpanic, hsome⟩ := mapZero_spec hg id p (pgrounddown addr) table
      (show rwxu.f = false from rfl)
    rw [taken_pgrounddown] at hpanic hsome
    rw [pgrounddown_div] at hsome
    refine ⟨hpanic.trans ?_, fun s' b h => ?_⟩
    · exact ⟨fun h => ⟨hnone, hin.1, hin.2, h⟩, fun h => h.2.2.2⟩
    · rcases hsome s' b h with ⟨hb, -, hfree, hbec⟩ | ⟨-, -, hbec⟩
      · exact .inr ⟨hfree, hin.2, hin.1, hb, hbec⟩
      · exact .inl hbec
  · rw [if_neg hin]
    refine ⟨iff_of_false (by simp) fun h => hin ⟨h.2.1, h.2.2.1⟩, fun s' b h => .inl ?_⟩
    cases h
    exact Becomes.refl hg

theorem argaddr_true {table : Bool} (h : argaddr L id s p sp addr table = some (s', true)) :
    addr < MAXVA ∨ addr < s.sz p := by
  unfold argaddr at h
  split at h
  · next hmapped =>
    obtain ⟨pa, hpa⟩ := isSome_iff_exists.mp hmapped
    left
    by_contra hle
    simp [walkaddr, walk, not_lt.mp hle] at hpa
  split at h
  · next hin => exact .inr hin.2
  · cases h

structure SameShape (a a' : Spaces) : Prop where
  sz : a'.sz = a.sz
  live : a'.live = a.live
  flags : ∀ q u, (a'.pages q u).map Page.flags = (a.pages q u).map Page.flags

theorem SameShape.refl (a : Spaces) : SameShape a a := ⟨rfl, rfl, fun _ _ => rfl⟩

theorem SameShape.trans {a b c : Spaces} (h : SameShape a b) (h' : SameShape b c) : SameShape a c :=
  ⟨h'.sz.trans h.sz, h'.live.trans h.live, fun q u => (h'.flags q u).trans (h.flags q u)⟩

theorem becomes_writePage (hg : Good L s) (pa va : Nat) (data : List UInt8) :
    ∃ a, Becomes L s (writePage s pa va data) a ∧ SameShape (Vm.abs s) a := by
  obtain ⟨lists, hinv⟩ := hg.kmem
  refine ⟨_, ⟨⟨⟨lists, inv_setPage hinv _ _⟩, hg.page, ⟨hg.cells.counted, hg.cells.sole⟩,
    hg.marked⟩, rfl, fun hc => hc.congr rfl fun _ _ => rfl⟩, rfl, rfl, fun q u => ?_⟩
  simp [Vm.abs, writePage, Function.comp_def]

theorem becomes_target (hg : Good L s) {r : Option Nat}
    (h : (if cowpage s p va then cowalloc L id s p va else some (s, walkaddr s p va)) =
      some (s', r)) : Becomes L s s' (Vm.abs s) := by
  split at h
  · next hcow =>
    obtain ⟨e, he, hf⟩ := cowpage_entry hcow
    obtain ⟨hgood, habs, -⟩ := hg.cowalloc he hf h
    exact ⟨hgood, habs, fun hc => hc.cowalloc hg he h⟩
  · cases h
    exact Becomes.refl hg

theorem becomes_copyout (fuel : Nat) : ∀ (s : Vm.State) (va : Nat) (data : List UInt8)
    (copied : Nat) (s' : Vm.State) (o : Outcome), Good L s →
    copyout L id p fuel s va data copied = some (s', o) →
    ∃ a, Becomes L s s' a ∧ SameShape (Vm.abs s) a := by
  induction fuel with
  | zero =>
    intro s va data copied s' o hg h
    cases data with
    | nil =>
      cases h
      exact ⟨_, Becomes.refl hg, SameShape.refl _⟩
    | cons b data => cases h
  | succ fuel ih =>
    intro s va data copied s' o hg h
    cases data with
    | nil =>
      cases h
      exact ⟨_, Becomes.refl hg, SameShape.refl _⟩
    | cons b data =>
      simp only [copyout] at h
      split at h
      · cases h
      · next s1 htarget =>
        cases h
        exact ⟨_, becomes_target hg htarget, SameShape.refl _⟩
      · next s1 pa htarget =>
        have hbec := becomes_target hg htarget
        obtain ⟨a2, hbec2, hshape2⟩ := becomes_writePage hbec.good pa va
          ((b :: data).take (min (PGSIZE - (va - pgrounddown va)) (b :: data).length))
        obtain ⟨a3, hbec3, hshape3⟩ := ih _ _ _ _ s' o hbec2.good h
        rw [hbec.abs_eq] at hshape2
        rw [hbec2.abs_eq] at hshape3
        exact ⟨a3, (hbec.trans hbec2).trans hbec3, hshape2.trans hshape3⟩

theorem freepagetable_spec (hg : Good L s) (h : freepagetable L id s p = some s') :
    Good L s' ∧ Vm.abs s' = (Vm.abs s).setTable p (fun _ => none) ∧
      (Counted L s → (∀ u, pgroundup64 (s.sz p) / PGSIZE ≤ u → s.pt p u = none) →
        Counted L s') := by
  unfold freepagetable at h
  split at h
  · cases h
  obtain ⟨s1, hs1, rfl⟩ := map_eq_some_iff.mp h
  have hbec := becomes_uvmunmap hg hs1
  obtain ⟨hgood, habs⟩ := hbec.good.dropTable p
  rw [hbec.abs_eq, Spaces.unmap, Spaces.setTable_setTable] at habs
  refine ⟨hgood, habs, ?_⟩
  intro hc hbeyond
  refine (hbec.counted hc).congr ?_ fun _ _ => rfl
  -- nothing is left in the table that is dropped
  have hempty : ∀ u, s1.pt p u = none := by
    intro u
    rw [← pages_none, hbec.abs_eq, Spaces.unmap, Spaces.setTable_pages, if_pos rfl]
    split
    · rfl
    · exact (pages_none s p u).mpr (hbeyond u (by omega))
  funext x
  cases x with
  | inl qu =>
    obtain ⟨q, u⟩ := qu
    obtain rfl | hq := eq_or_ne q p
    · simp [heap, hempty u]
    · simp [heap, hq]
  | inr handle => rfl

theorem becomes_loadPages (pages : List (Flags × (Nat → UInt8))) :
    ∀ (v : Nat) (s s' : Vm.State), Good L s → (∀ fl ∈ pages, fl.1.f = false) →
      (∀ u, v ≤ u → s.pt p u = none) → loadPages id p pages v s = some s' →
      ∃ a, Becomes L s s' a ∧ a.sz = s.sz ∧ a.live = s.live ∧ ∀ q u, a.pages q u =
          if q = p ∧ v ≤ u ∧ u < v + pages.length then
            (pages[u - v]?).map fun fl => ⟨fl.1.own, fl.2⟩
          else (Vm.abs s).pages q u := by
  induction pages with
  | nil =>
    intro v s s' hg _ _ h
    cases h
    refine ⟨_, Becomes.refl hg, rfl, rfl, fun q u => ?_⟩
    rw [if_neg (by simp only [length_nil]; omega)]
  | cons page rest ih =>
    intro v s s' hg hf hfree h
    obtain ⟨flags, content⟩ := page
    unfold loadPages at h
    rcases hasPage_cases s id with ⟨-, k, pa, hk⟩ | ⟨-, k, hk⟩
    · rw [hk] at h
      simp only at h
      have hff : flags.f = false := hf _ mem_cons_self
      obtain ⟨hgood, habs⟩ := hg.touch p v content hff hk
      obtain ⟨a, hbec, hsz, hlive, hpages⟩ := ih (v + 1) _ s' hgood
        (fun fl hfl => hf fl (mem_cons_of_mem _ hfl)) (fun u hu => by
          show (s.setPte p v _).pt p u = none
          rw [setPte_pt, if_neg (by omega)]
          exact hfree u (by omega)) h
      have hfirst : Becomes L s { s.setPte p v (some ⟨pa, flags⟩) with
          kmem := setPage k pa content } _ :=
        ⟨hgood, habs, fun hc => hc.touch hg (hfree v le_rfl) hk⟩
      refine ⟨a, hfirst.trans hbec, hsz, hlive, fun q u => ?_⟩
      rw [hpages q u, habs, Spaces.setPage_pages]
      simp only [length_cons]
      by_cases hq : q = p
      · obtain rfl | hu := eq_or_ne u v
        · rw [if_neg (by omega), if_pos ⟨hq, rfl⟩, if_pos ⟨hq, by omega, by omega⟩, Nat.sub_self]
          rfl
        by_cases hin : v ≤ u ∧ u < v + (rest.length + 1)
        · obtain ⟨j, rfl⟩ : ∃ j, u = v + 1 + j := ⟨u - (v + 1), by omega⟩
          rw [if_pos ⟨hq, by omega, by omega⟩, if_pos ⟨hq, hin.1, hin.2⟩,
            show v + 1 + j - (v + 1) = j by omega, show v + 1 + j - v = j + 1 by omega]
          rfl
        · rw [if_neg (by omega), if_neg (by omega), if_neg (by omega)]
      · rw [if_neg (fun hc => hq hc.1), if_neg (fun hc => hq hc.1), if_neg (fun hc => hq hc.1)]
    · rw [hk] at h
      cases h

theorem becomes_allocshmLoop {table : Nat → Bool} (n : Nat) : ∀ (v : Nat) (s s' : Vm.State)
    (b : Bool),
    Good L s → allocshmLoop L id p table n v s = some (s', b) →
    ∃ a, Becomes L s s' a ∧ a.sz = s.sz ∧ a.live = s.live ∧
      (∀ q u, ¬ (q = p ∧ v ≤ u ∧ u < v + n) → a.pages q u = (Vm.abs s).pages q u) ∧
      ∀ u g, v ≤ u → u < v + n → a.pages p u = some g →
        (Vm.abs s).pages p u = some g ∨ g.flags.u = true := by
  induction n with
  | zero =>
    intro v s s' b hg h
    cases h
    exact ⟨_, Becomes.refl hg, rfl, rfl, fun _ _ _ => rfl, fun u g hu hu' => by omega⟩
  | succ n ih =>
    intro v s s' b hg h
    unfold allocshmLoop at h
    obtain ⟨-, hsome⟩ := mapZero_spec hg id p (v * PGSIZE) (table v)
      (show (⟨false, true, false, true, false⟩ : Flags).f = false from rfl)
    rw [Nat.mul_div_cancel v (by decide)] at hsome
    split at h
    · cases h
    · next s1 hm =>
      cases h
      rcases hsome _ false hm with ⟨hb, -⟩ | ⟨-, -, hbec⟩
      · cases hb
      · exact ⟨_, hbec, rfl, rfl, fun _ _ _ => rfl, fun u g _ _ hpage => .inl hpage⟩
    · next s1 hm =>
      rcases hsome s1 true hm with ⟨-, -, -, hbec⟩ | ⟨hb, -⟩
      · obtain ⟨a, hbec', hsz, hlive, hother, hnew⟩ := ih (v + 1) s1 s' b hbec.good h
        refine ⟨a, hbec.trans hbec', hsz.trans hbec.sz, hlive.trans hbec.live, ?_, ?_⟩
        · intro q u hout
          rw [hother q u (fun hc => hout ⟨hc.1, by omega, by omega⟩), hbec.abs_eq,
            Spaces.setPage_pages, if_neg (fun hc => hout ⟨hc.1, by omega, by omega⟩)]
        · intro u g hu hu' hpage
          obtain rfl | huv := eq_or_ne u v
          · rw [hother p u (by omega), hbec.abs_eq, Spaces.setPage_pages,
              if_pos ⟨rfl, rfl⟩] at hpage
            cases hpage
            exact .inr rfl
          rcases hnew u g (by omega) (by omega) hpage with hold | hu
          · rw [hbec.abs_eq, Spaces.setPage_pages, if_neg (fun hc => huv hc.2)] at hold
            exact .inl hold
          · exact .inr hu
      · cases hb

end Ranges

/-! ## The system calls -/

section Calls
variable {L : Layout} {id : Fin NCPU} {s s' : State} {p np : Slot}

theorem pgroundup64_dvd (a : Nat) : PGSIZE ∣ pgroundup64 a := ⟨_, mul_comm _ _⟩

theorem pgroundup64_lt (a : Nat) : pgroundup64 a < 2 ^ 64 := by
  have := Nat.div_mul_le_self ((a + PGSIZE - 1) % 2 ^ 64) PGSIZE
  have := Nat.mod_lt (a + PGSIZE - 1) (show 0 < 2 ^ 64 by decide)
  unfold pgroundup64
  omega

theorem sbrk_spec (hg : Good L s.toState) {n : Int} (h : sbrk L id s p n = some s') :
    (0 < n ∧ s' = { s with sz := update s.sz p (wrap (s.sz p + n)) }) ∨ s' = s ∨
    (n ≤ 0 ∧ 0 < wrap (s.sz p + n) ∧ wrap (s.sz p + n) < s.sz p ∧ ∃ t,
      s' = { s with toState := { t with sz := update t.sz p (wrap (s.sz p + n)) } } ∧
      Becomes L s.toState t ((Vm.abs s.toState).unmap p (pgroundup64 (wrap (s.sz p + n)) / PGSIZE)
        ((pgroundup64 (s.sz p) - pgroundup64 (wrap (s.sz p + n))) / PGSIZE))) := by
  simp only [sbrk] at h
  split at h
  · next hpos =>
    cases h
    exact .inl ⟨hpos, rfl⟩
  · next hneg =>
    split at h
    · cases h
      exact .inr (.inl rfl)
    · next hless =>
      push Not at hless
      obtain ⟨t, ht, rfl⟩ := map_eq_some_iff.mp h
      refine .inr (.inr ⟨not_lt.mp hneg, pos_of_ne_zero hless.1, hless.2, t, rfl, ?_⟩)
      split at ht
      · next hlt =>
        obtain ⟨-, hbec⟩ := becomes_unmapRange hg ht
        obtain ⟨x, hx⟩ := pgroundup64_dvd (s.sz p)
        obtain ⟨y, hy⟩ := pgroundup64_dvd (wrap (s.sz p + n))
        have hlast := pgroundup64_lt (s.sz p)
        have hrange : (pgroundup64 (wrap (s.sz p + n)) + (pgroundup64 (s.sz p) -
            pgroundup64 (wrap (s.sz p + n))) / PGSIZE * PGSIZE) % 2 ^ 64 =
            pgroundup64 (s.sz p) := by
          rw [Nat.div_mul_cancel (Nat.dvd_sub (pgroundup64_dvd _) (pgroundup64_dvd _)),
            Nat.add_sub_cancel' (le_of_lt hlt), Nat.mod_eq_of_lt hlast]
        rw [hrange] at hbec
        exact hbec
      · next hge =>
        cases ht
        rw [show (pgroundup64 (s.sz p) - pgroundup64 (wrap (s.sz p + n))) / PGSIZE = 0 by
          rw [Nat.sub_eq_zero_of_le (not_lt.mp hge), Nat.zero_div], Spaces.unmap_zero]
        exact Becomes.refl hg

variable {contents : Nat → List UInt8}

section
variable (hg : Good L s.toState)
include hg

theorem munmap_spec {addr : Nat} {length : Int}
    (h : munmap L id s p addr length contents = some s') :
    (findUnmap (s.vma p) addr length = none ∧ s' = s) ∨
    ∃ i t c, findUnmap (s.vma p) addr length = some i ∧ addr % PGSIZE = 0 ∧
      s' = { s.setVma p i { cutVma (s.vma p i) addr length with
          used := decide ((cutVma (s.vma p i) addr length).len ≠ 0) } with
        toState := t, contents := c } ∧
      Becomes L s.toState t ((Vm.abs s.toState).unmap p (addr / PGSIZE)
        (((addr + pageCount length * PGSIZE) % 2 ^ 64 - addr) / PGSIZE)) := by
  unfold munmap at h
  cases hf : findUnmap (s.vma p) addr length with
  | none =>
    rw [hf] at h
    cases h
    exact .inl ⟨rfl, rfl⟩
  | some i =>
    simp only [hf] at h
    obtain ⟨t, ht, rfl⟩ := map_eq_some_iff.mp h
    obtain ⟨hal, hbec⟩ := becomes_unmapRange hg ht
    exact .inr ⟨i, t, _, rfl, hal, rfl, hbec⟩

theorem exec_spec {program : List (Nat → UInt8)} {stack : Nat → UInt8}
    (h : exec L id s p program stack = some s') :
    (program.length + 2) * PGSIZE ≤ TRAPFRAME ∧ ∃ t, s' = { s with
        toState := { t with sz := update t.sz p ((program.length + 2) * PGSIZE) }
        shm := update s.shm proc0 KERNBASE
        image := update s.image p (s.image p + 1) } ∧
      Good L t ∧ t.sz = s.sz ∧ t.live = s.live ∧
      (∀ q u, q ≠ p → (Vm.abs t).pages q u = (Vm.abs s.toState).pages q u) ∧
      (∀ u, (Vm.abs t).pages p u =
        ((programPages program stack)[u]?).map fun fl => ⟨fl.1.own, fl.2⟩) ∧
      (Counted L s.toState → (∀ u, pgroundup64 (s.sz p) / PGSIZE ≤ u →
        ¬ (s.shm proc0 / PGSIZE ≤ u ∧ u < s.shm proc0 / PGSIZE +
          (KERNBASE - s.shm proc0) / PGSIZE) →
        s.pt p u = none) → Counted L t) := by
  simp only [exec] at h
  split at h
  · cases h
  · next hfits =>
    obtain ⟨t1, ht1, h⟩ := bind_eq_some_iff.mp h
    obtain ⟨t2, ht2, h⟩ := bind_eq_some_iff.mp h
    obtain ⟨t3, ht3, h⟩ := bind_eq_some_iff.mp h
    cases h
    have hbec1 := becomes_uvmunmap hg ht1
    obtain ⟨hgood2, habs2, hcounted2⟩ := freepagetable_spec hbec1.good ht2
    have hfree2 : ∀ u, 0 ≤ u → t2.pt p u = none := by
      intro u _
      rw [← pages_none, habs2, Spaces.setTable_pages_self]
    have hmarks : ∀ fl ∈ programPages program stack, fl.1.f = false := by
      intro fl hfl
      simp only [programPages, List.mem_append, List.mem_map, List.mem_cons, List.not_mem_nil,
        or_false] at hfl
      rcases hfl with ⟨c, -, rfl⟩ | rfl | rfl <;> rfl
    obtain ⟨a, hbec3, hsz3, hlive3, hpages3⟩ :=
      becomes_loadPages _ 0 t2 t3 hgood2 hmarks hfree2 ht3
    have hsz2 : t2.sz = s.sz := (congrArg Spaces.sz habs2).trans hbec1.sz
    have hlive2 : t2.live = s.live := (congrArg Spaces.live habs2).trans hbec1.live
    refine ⟨not_lt.mp hfits, t3, rfl, hbec3.good, (hbec3.sz.trans hsz3).trans hsz2,
      (hbec3.live.trans hlive3).trans hlive2, ?_, ?_, ?_⟩
    · intro q u hq
      rw [hbec3.abs_eq, hpages3, if_neg (fun hc => hq hc.1), habs2, Spaces.setTable_pages,
        if_neg hq, hbec1.abs_eq, Spaces.unmap, Spaces.setTable_pages, if_neg hq]
    · intro u
      rw [hbec3.abs_eq, hpages3, habs2, Spaces.setTable_pages_self]
      by_cases hu : u < (programPages program stack).length
      · rw [if_pos ⟨rfl, zero_le, by omega⟩, Nat.sub_zero]
      · rw [if_neg (by omega), List.getElem?_eq_none (by omega)]
        rfl
    · intro hc hbeyond
      refine hbec3.counted (hcounted2 (hbec1.counted hc) fun u hu => ?_)
      rw [hbec1.sz] at hu
      rw [← pages_none, hbec1.abs_eq, Spaces.unmap, Spaces.setTable_pages, if_pos rfl]
      split
      · rfl
      · next hout => exact (pages_none s.toState p u).mpr (hbeyond u hu hout)

theorem fork_spec {fail : Option Nat} (hne : p ≠ np)
    (hnp : ∀ u, s.pt np u = none) (h : fork L id s p np fail = some s') :
    ∃ t, Good L t ∧ (Counted L s.toState → Counted L t) ∧
      ((s' = { s with toState := t } ∧ Vm.abs t = Vm.abs s.toState) ∨
      (pgroundup (s.sz p) ≤ TRAPFRAME ∧ s' = { s with
          toState := t
          shm := update s.shm np (s.shm proc0)
          vma := update s.vma np fun i => if (s.vma p i).used then s.vma p i else zeroVma
          region := update s.region np (s.region p)
          image := update s.image np (s.image p) } ∧
        t.sz = update s.sz np (s.sz p) ∧ t.live = update s.live np true ∧
        ∀ q u, (Vm.abs t).pages q u =
          if q = np ∧ u < pgroundup (s.sz p) / PGSIZE then (Vm.abs s.toState).pages p u
          else (Vm.abs s.toState).pages q u)) := by
  unfold fork at h
  split at h
  · cases h
  · next hfits =>
    cases hf : Vm.fork L id s.toState p np fail with
    | none =>
      rw [hf] at h
      cases h
    | some r =>
      obtain ⟨t, o⟩ := r
      rw [hf] at h
      have habs : ∀ u, (Vm.abs s.toState).pages np u = none := fun u =>
        (pages_none s.toState np u).mpr (hnp u)
      obtain ⟨hgood, heager⟩ := hg.fork hne habs hf
      have hcounted := fun hc : Counted L s.toState => hc.fork hg hne hnp hf
      cases o with
      | ok =>
        cases h
        refine ⟨t, hgood, hcounted, .inr ⟨not_lt.mp hfits, rfl, ?_⟩⟩
        simp only [eagerStep, some.injEq] at heager
        refine ⟨(congrArg Spaces.sz heager).symm, (congrArg Spaces.live heager).symm, ?_⟩
        intro q u
        rw [← heager]
        show ((Vm.abs s.toState).copy p np 0 (pgroundup (s.sz p) / PGSIZE)).pages q u = _
        rw [Spaces.copy, Spaces.setTable_pages, zero_add]
        obtain rfl | hq := eq_or_ne q np
        · rw [if_pos rfl]
          by_cases hu : u < pgroundup (s.sz p) / PGSIZE
          · rw [if_pos ⟨zero_le, hu⟩, if_pos ⟨rfl, hu⟩]
          · rw [if_neg (fun hc => hu hc.2), if_neg (fun hc => hu hc.2)]
        · rw [if_neg hq, if_neg (fun hc => hq hc.1)]
      | oom n =>
        cases h
        simp only [eagerStep, some.injEq] at heager
        exact ⟨t, hgood, hcounted, .inl ⟨rfl, heager.symm⟩⟩
      | fault n => cases heager

theorem unmapVmas_spec {i : Area} (h : unmapVmas L id p s i = some s') :
    ((s.vma p i).used = false ∧ s' = s) ∨
    ((s.vma p i).used = true ∧ (s.vma p i).addr % PGSIZE = 0 ∧ ∃ t,
      s' = { s.setVma p i { s.vma p i with used := false } with toState := t } ∧
      Becomes L s.toState t ((Vm.abs s.toState).unmap p ((s.vma p i).addr / PGSIZE)
        ((((s.vma p i).addr + pageCount (s.vma p i).len * PGSIZE) % 2 ^ 64 - (s.vma p i).addr) /
          PGSIZE))) := by
  simp only [unmapVmas] at h
  split at h
  · next hused =>
    obtain ⟨t, ht, rfl⟩ := map_eq_some_iff.mp h
    obtain ⟨hal, hbec⟩ := becomes_unmapRange hg ht
    exact .inr ⟨hused, hal, t, rfl, hbec⟩
  · next hused =>
    cases h
    exact .inl ⟨by simpa using hused, rfl⟩

end

def InRange (va n u : Nat) : Prop :=
  va / PGSIZE ≤ u ∧ u < va / PGSIZE + ((va + n * PGSIZE) % 2 ^ 64 - va) / PGSIZE

theorem unmap_pages (a : Spaces) (v n : Nat) (q : Slot) (u : Nat) :
    (a.unmap p v n).pages q u = if q = p ∧ v ≤ u ∧ u < v + n then none else a.pages q u := by
  rw [Spaces.unmap, Spaces.setTable_pages]
  obtain rfl | hq := eq_or_ne q p
  · simp
  · simp [hq]

theorem unmap_removed {t t' : Vm.State} {va n u : Nat} {q : Slot}
    (hb : Becomes L t t' ((Vm.abs t).unmap p (va / PGSIZE)
      (((va + n * PGSIZE) % 2 ^ 64 - va) / PGSIZE)))
    (hold : t.pt q u ≠ none) (hnew : t'.pt q u = none) : q = p ∧ InRange va n u := by
  rw [← pages_none, hb.abs_eq, unmap_pages] at hnew
  split at hnew
  · next hin => exact hin
  · exact absurd ((pages_none t q u).mp hnew) hold

theorem exit_invariant {I : State → Prop}
    (hstep : ∀ s i s', I s → unmapVmas L id p s i = some s' → I s')
    (hi : I s) (h : exit L id s p contents = some s') : ∃ t c, I t ∧
      s' = { t with contents := c, exited := update t.exited p true } := by
  obtain ⟨t, ht, rfl⟩ := map_eq_some_iff.mp h
  exact ⟨t, _, Machine.run_invariant hstep (finRange NVMA) s t hi ht, rfl⟩

section
variable (hg : Good L s.toState)
include hg

theorem exit_spec (h : exit L id s p contents = some s') :
    Good L s'.toState ∧ s'.sz = s.sz ∧ s'.live = s.live ∧ s'.shm = s.shm ∧ s'.region = s.region ∧
      s'.image = s.image ∧
      (∀ q i, s'.vma q i = s.vma q i ∨ s'.vma q i = { s.vma q i with used := false }) ∧
      ((Counted L s.toState → Counted L s'.toState) ∧ ∀ q u, (Vm.abs s'.toState).pages q u = none ∨
          (Vm.abs s'.toState).pages q u = (Vm.abs s.toState).pages q u) ∧
      ∀ q u, s.pt q u ≠ none → s'.pt q u = none → q = p ∧ ∃ i, (s.vma p i).used = true ∧
        InRange (s.vma p i).addr (pageCount (s.vma p i).len) u := by
  obtain ⟨t, c, ht, rfl⟩ := exit_invariant (I := fun t => Good L t.toState ∧
      t.sz = s.sz ∧ t.live = s.live ∧ t.shm = s.shm ∧ t.region = s.region ∧ t.image = s.image ∧
      (∀ q i, t.vma q i = s.vma q i ∨ t.vma q i = { s.vma q i with used := false }) ∧
      ((Counted L s.toState → Counted L t.toState) ∧ ∀ q u, (Vm.abs t.toState).pages q u = none ∨
          (Vm.abs t.toState).pages q u = (Vm.abs s.toState).pages q u) ∧
      ∀ q u, s.pt q u ≠ none → t.pt q u = none → q = p ∧ ∃ i, (s.vma p i).used = true ∧
        InRange (s.vma p i).addr (pageCount (s.vma p i).len) u)
    (fun t i t' hi ht => by
      obtain ⟨hgood, hsz, hlive, hshm, hregion, himage, hvma, ⟨hcount, hsub⟩, hpages⟩ := hi
      rcases unmapVmas_spec hgood ht with ⟨-, rfl⟩ | ⟨hused, -, w, rfl, hbec⟩
      · exact ⟨hgood, hsz, hlive, hshm, hregion, himage, hvma, ⟨hcount, hsub⟩, hpages⟩
      refine ⟨hbec.good, hbec.sz.trans hsz, hbec.live.trans hlive, hshm, hregion, himage, ?_,
        ⟨fun hc => hbec.counted (hcount hc), ?_⟩, ?_⟩
      · intro q j
        obtain rfl | hq := eq_or_ne q p
        · by_cases hj : j = i
          · subst hj
            simp only [State.setVma, update_self]
            rcases hvma q j with heq | heq
            all_goals exact .inr (by rw [heq])
          · simp only [State.setVma, update_self, update_of_ne hj]
            exact hvma q j
        · simp only [State.setVma, update_of_ne hq]
          exact hvma q j
      · intro q u
        rw [hbec.abs_eq, unmap_pages]
        split
        · exact .inl rfl
        · exact hsub q u
      · intro q u hold hnew
        by_cases hmid : t.pt q u = none
        · exact hpages q u hold hmid
        have hsame : t.vma p i = s.vma p i := by
          rcases hvma p i with heq | heq
          · exact heq
          · rw [heq] at hused
            cases hused
        rw [hsame] at hbec hused
        obtain ⟨hq, hin⟩ := unmap_removed hbec hmid hnew
        exact ⟨hq, i, hused, hin⟩)
    ⟨hg, rfl, rfl, rfl, rfl, rfl, fun q i => .inl rfl, ⟨fun hc => hc, fun q u => .inr rfl⟩,
      fun q u hold hnew => absurd hnew hold⟩ h
  exact ht

theorem reap_spec (h : reap L id s p = some s') :
    KERNBASE ≤ s.shm p ∧ ∃ t, s' = { s with
        toState := { t with
          sz := update t.sz p 0
          live := update t.live p false }
        killed := update s.killed p false
        exited := update s.exited p false } ∧
      Good L t ∧ Vm.abs t = (Vm.abs s.toState).setTable p (fun _ => none) ∧
      (Counted L s.toState → (∀ u, pgroundup64 (s.sz p) / PGSIZE ≤ u → s.pt p u = none) →
        Counted L t) := by
  unfold reap at h
  split at h
  · cases h
  · next hshm =>
    obtain ⟨t, ht, rfl⟩ := map_eq_some_iff.mp h
    exact ⟨not_lt.mp hshm, t, rfl, freepagetable_spec hg ht⟩

theorem shmgetat_spec {num : Nat} {create : Bool} {table : Nat → Bool}
    (h : shmgetat L id s num create table = some s') :
    s' = s ∨ ∃ t a, Becomes L s.toState t a ∧ a.sz = s.sz ∧ a.live = s.live ∧
      s.shm proc0 ≤ KERNBASE ∧ s.shm proc0 % PGSIZE = 0 ∧
      ((s' = { s with toState := t } ∧
        ∀ q u, a.pages q u = none ∨ a.pages q u = (Vm.abs s.toState).pages q u) ∨
      (s' = { s with
          toState := t
          shm := update s.shm proc0
            (throughInt (wrap (s.shm proc0 - num * PGSIZE)) % 2 ^ 32) } ∧
        (∀ q u, ¬ (q = proc0 ∧ wrap (s.shm proc0 - num * PGSIZE) / PGSIZE ≤ u ∧
            u < wrap (s.shm proc0 - num * PGSIZE) / PGSIZE +
              (s.shm proc0 - wrap (s.shm proc0 - num * PGSIZE)) / PGSIZE) →
          a.pages q u = (Vm.abs s.toState).pages q u) ∧ ∀ u g, a.pages proc0 u = some g →
          (Vm.abs s.toState).pages proc0 u = some g ∨ g.flags.u = true)) := by
  simp only [shmgetat] at h
  split at h
  · cases h
    exact .inl rfl
  · next hchecks =>
    push Not at hchecks
    obtain ⟨-, -, hal, hbase, -⟩ := hchecks
    split at h
    · cases h
    · next t hloop =>
      cases h
      obtain ⟨a, hbec, hsz, hlive, hother, hnew⟩ := becomes_allocshmLoop _ _ _ _ _ hg hloop
      refine .inr ⟨t, a, hbec, hsz, hlive, hbase, hal, .inr ⟨rfl, hother, ?_⟩⟩
      intro u g hpage
      by_cases hin : wrap (s.shm proc0 - num * PGSIZE) / PGSIZE ≤ u ∧
          u < wrap (s.shm proc0 - num * PGSIZE) / PGSIZE +
            (s.shm proc0 - wrap (s.shm proc0 - num * PGSIZE)) / PGSIZE
      · exact hnew u g hin.1 hin.2 hpage
      · rw [hother proc0 u (fun hc => hin hc.2)] at hpage
        exact .inl hpage
    · next t hloop =>
      obtain ⟨t', ht', rfl⟩ := map_eq_some_iff.mp h
      obtain ⟨a, hbec, hsz, hlive, hother, hnew⟩ := becomes_allocshmLoop _ _ _ _ _ hg hloop
      have hbec' := becomes_uvmunmap hbec.good ht'
      refine .inr ⟨t', _, hbec.trans hbec', ?_, ?_, hbase, hal, .inl ⟨rfl, fun q u => ?_⟩⟩
      · exact hbec.sz.trans hsz
      · exact hbec.live.trans hlive
      · rw [hbec.abs_eq, Spaces.unmap, Spaces.setTable_pages]
        by_cases hq : q = proc0
        · rw [if_pos hq]
          split
          · exact .inl rfl
          · next hout =>
            rw [hq]
            exact .inr (hother proc0 u fun hc => hout hc.2)
        · rw [if_neg hq]
          exact .inr (hother q u fun hc => hq hc.1)

theorem afterArgaddr_spec {sp addr : Nat} {table : Bool}
    {rest : State → Option State} (h : afterArgaddr L id s p sp addr table rest = some s') :
    ∃ s1, (Only L s s1 (Vm.abs s.toState) ∨
        (¬ Taken s.toState p addr ∧ addr < s.sz p ∧ aboveStack sp addr ∧ Only L s s1
          ((Vm.abs s.toState).setPage p (addr / PGSIZE) (some ⟨rwxu.own, fun _ => 0⟩)))) ∧
      s1.killed = s.killed ∧ (s' = s1 ∨
        (∃ t, argaddr L id s.toState p sp addr table = some (t, true)) ∧
        rest s1 = some s') := by
  unfold afterArgaddr at h
  cases ha : argaddr L id s.toState p sp addr table with
  | none =>
    rw [ha] at h
    cases h
  | some r =>
    obtain ⟨t, b⟩ := r
    rw [ha] at h
    refine ⟨{ s with toState := t }, ?_, rfl, ?_⟩
    · rcases (argaddr_spec hg table).2 t b ha with hbec | ⟨hfree, hsz, habove, -, hbec⟩
      · exact .inl (Only.of_becomes hbec)
      · exact .inr ⟨hfree, hsz, habove, Only.of_becomes hbec⟩
    · cases b with
      | true => exact .inr ⟨⟨t, rfl⟩, h⟩
      | false => exact .inl (some.inj h).symm

end

end Calls

end BirdOS.Space
