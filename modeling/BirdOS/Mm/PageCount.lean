import BirdOS.Mm.CowEager

/-! # No page is lost

`Good` lets the count of a page be larger than the number of its references, as it is for a
page that was lost.  `Counted` says that the two agree; the functions of `vm.c` keep it. -/

namespace BirdOS.Vm

open Kalloc SharedCells Function Option

def Counted (L : Layout) (s : State) : Prop := Exact (IsPage L) (heap s)

section Primitives
variable {L : Layout} {s : State} {p : Slot} {v : Nat} {e : Pte} {k : Kmem} {id : Fin NCPU}

theorem Counted.setPte (h : Counted L s) {r : Option Pte}
    (hk : ∀ pa, IsPage L pa → krefcnt k pa = krefcnt s.kmem pa -
      weight ((s.pt p v).map fun e => (e.pa, e.flags.w)) pa +
      weight (r.map fun e => (e.pa, e.flags.w)) pa) :
    Counted L { s.setPte p v r with kmem := k } :=
  h.assign (heap_setPte s p v r k) hk

theorem Counted.unmap (h : Counted L s) (hg : Good L s) (he : s.pt p v = some e)
    (hk : kfree L s.kmem id e.pa = some k) : Counted L { s.setPte p v none with kmem := k } := by
  obtain ⟨lists, hinv⟩ := hg.kmem
  obtain ⟨-, hdrop, hkeep, -⟩ := hinv.kfree_some (hg.isPage he) (hg.pos he) hk
  refine h.setPte fun pa hpa => ?_
  simp only [he, map_some, map_none, weight_some, weight_none]
  obtain rfl | hne := eq_or_ne pa e.pa
  · rw [if_pos rfl, hdrop, add_zero]
  · rw [if_neg (Ne.symm hne), hkeep pa hpa hne]
    omega

theorem Counted.retag (h : Counted L s) (he : s.pt p v = some e) (fl : Flags) :
    Counted L (s.setPte p v (some ⟨e.pa, fl⟩)) := by
  refine h.setPte (k := s.kmem) fun pa _ => ?_
  simp only [he, map_some, weight_some]
  omega

theorem Counted.share (h : Counted L s) (hg : Good L s) {np : Slot} {r : Int}
    (he : s.pt p v = some e) (hnp : s.pt np v = none)
    (hk : kaddrefcnt L s.kmem e.pa = some (k, r)) :
    Counted L { s.setPte np v (some e) with kmem := k } := by
  obtain ⟨lists, hinv⟩ := hg.kmem
  obtain ⟨-, hadd, hkeep, -⟩ := hinv.kaddrefcnt_some (hg.isPage he) (hg.pos he) hk
  refine h.setPte fun pa hpa => ?_
  simp only [hnp, map_some, map_none, weight_some, weight_none]
  obtain rfl | hne := eq_or_ne pa e.pa
  · rw [if_pos rfl, hadd]
    omega
  · rw [if_neg (Ne.symm hne), hkeep pa hpa hne]
    omega

theorem krefcnt_setPage (k : Kmem) (pa : Nat) (content : Nat → UInt8) (pb : Nat) :
    krefcnt (setPage k pa content) pb = krefcnt k pb := rfl

theorem Counted.touch (h : Counted L s) (hg : Good L s) {mem : Nat} {fl : Flags}
    {content : Nat → UInt8} (hnone : s.pt p v = none)
    (hk : Kalloc.kalloc s.kmem id = (k, some mem)) :
    Counted L { s.setPte p v (some ⟨mem, fl⟩) with kmem := setPage k mem content } := by
  obtain ⟨lists, hinv⟩ := hg.kmem
  obtain ⟨-, -, hzero, hone, hkeep, -⟩ := hinv.kalloc_some hk
  refine h.setPte fun pa hpa => ?_
  simp only [hnone, map_some, map_none, weight_some, weight_none, krefcnt_setPage]
  obtain rfl | hne := eq_or_ne pa mem
  · rw [if_pos rfl, hone, hzero]
    rfl
  · rw [if_neg (Ne.symm hne), hkeep pa hpa hne]
    omega

theorem Counted.copy (h : Counted L s) (hg : Good L s) (he : s.pt p v = some e) {r : Nat}
    {k1 k2 : Kmem} {fl : Flags} (hk1 : Kalloc.kalloc s.kmem id = (k1, some r))
    (hk2 : kfree L (setPage k1 r (k1.mem e.pa)) id e.pa = some k2) :
    Counted L { s.setPte p v (some ⟨r, fl⟩) with kmem := k2 } := by
  obtain ⟨lists, hinv⟩ := hg.kmem
  obtain ⟨-, hpage, hzero, hone, hkeep, -⟩ := hinv.kalloc_some hk1
  obtain ⟨hg1, -, -, -, hfresh⟩ := hg.kalloc hk1 (k1.mem e.pa)
  have he1 : ({ s with kmem := setPage k1 r (k1.mem e.pa) } : State).pt p v = some e := he
  obtain ⟨lists1, hinv1⟩ := hg1.kmem
  obtain ⟨-, hdrop, hkeep2, -⟩ := hinv1.kfree_some (hg1.isPage he1) (hg1.pos he1) hk2
  have hne : e.pa ≠ r := fun hpa => hfresh _ (hpa ▸ points_of_pte he)
  refine h.setPte fun pa hpa => ?_
  simp only [he, map_some, weight_some]
  obtain rfl | hold := eq_or_ne pa e.pa
  · rw [if_pos rfl, if_neg (Ne.symm hne), hdrop]
    simp only [krefcnt_setPage, hkeep e.pa hpa hne]
    omega
  rw [if_neg (Ne.symm hold), hkeep2 pa hpa hold]
  simp only [krefcnt_setPage]
  obtain rfl | hnew := eq_or_ne pa r
  · rw [if_pos rfl, hone, hzero]
    rfl
  · rw [if_neg (Ne.symm hnew), hkeep pa hpa hnew]
    omega

theorem Good.giveBack (hg : Good L s) {mem : Nat} {k1 k2 : Kmem} {content : Nat → UInt8}
    (hk1 : Kalloc.kalloc s.kmem id = (k1, some mem))
    (hk2 : kfree L (setPage k1 mem content) id mem = some k2) :
    Good L { s with kmem := k2 } ∧ abs { s with kmem := k2 } = abs s ∧
      (Counted L s → Counted L { s with kmem := k2 }) := by
  obtain ⟨lists, hinv⟩ := hg.kmem
  obtain ⟨-, hpage, hzero, hone, hkeep, hmem⟩ := hinv.kalloc_some hk1
  obtain ⟨hg1, habs1, -, -, hfresh⟩ := hg.kalloc hk1 content
  obtain ⟨lists1, hinv1⟩ := hg1.kmem
  have hpos : 0 < krefcnt (setPage k1 mem content) mem := by
    rw [krefcnt_setPage, hone]
    exact Int.one_pos
  obtain ⟨hinv2, hdrop, hkeep2, hmem2⟩ := hinv1.kfree_some hpage hpos hk2
  have hcnt : ∀ pa, IsPage L pa → krefcnt k2 pa = krefcnt s.kmem pa := by
    intro pa hpa
    obtain rfl | hne := eq_or_ne pa mem
    · rw [hdrop, krefcnt_setPage, hone, hzero]
      rfl
    · rw [hkeep2 pa hpa hne, krefcnt_setPage, hkeep pa hpa hne]
  refine ⟨⟨hinv2, hg.page, ?_, hg.marked⟩, ?_, fun hc => hc.congr rfl hcnt⟩
  · refine hg.cells.mono (fun _ _ _ hx => hx) fun d z hz => ?_
    exact le_of_eq (hcnt d (hg.page z d hz)).symm
  · refine abs_kmem fun q u e' he' => ?_
    have hne : e'.pa ≠ mem := fun hpa => hfresh _ (hpa ▸ points_of_pte he')
    rw [hmem2 _ (.inl hne)]
    simp only [setPage, update_of_ne hne, hmem _ hne]

theorem Counted.setKernel (h : Counted L s) {handle : Nat} {r : Option Nat}
    (hk : ∀ pa, IsPage L pa → krefcnt k pa = krefcnt s.kmem pa -
      weight ((s.kernel handle).map fun pa => (pa, false)) pa +
      weight (r.map fun pa => (pa, false)) pa) :
    Counted L { s with kmem := k, kernel := update s.kernel handle r } :=
  h.assign (heap_setKernel s k handle r) hk

theorem Counted.kernelAlloc (h : Counted L s) (hg : Good L s) {handle mem : Nat}
    (hnone : s.kernel handle = none) (hk : Kalloc.kalloc s.kmem id = (k, some mem)) :
    Counted L { s with kmem := k, kernel := update s.kernel handle (some mem) } := by
  obtain ⟨lists, hinv⟩ := hg.kmem
  obtain ⟨-, -, hzero, hone, hkeep, -⟩ := hinv.kalloc_some hk
  refine h.setKernel fun pa hpa => ?_
  simp only [hnone, map_some, map_none, weight_some, weight_none]
  obtain rfl | hne := eq_or_ne pa mem
  · rw [if_pos rfl, hone, hzero]
    rfl
  · rw [if_neg (Ne.symm hne), hkeep pa hpa hne]
    omega

theorem Counted.kernelFree (h : Counted L s) (hg : Good L s) {handle mem : Nat}
    (hh : s.kernel handle = some mem) (hk : kfree L s.kmem id mem = some k) :
    Counted L { s with kmem := k, kernel := update s.kernel handle none } := by
  have href : (heap s).ref (.inr handle) = some (mem, false) := by simp [heap, hh]
  obtain ⟨lists, hinv⟩ := hg.kmem
  obtain ⟨-, hdrop, hkeep, -⟩ :=
    hinv.kfree_some (hg.page _ _ ⟨false, href⟩) (hg.cells.pos ⟨false, href⟩) hk
  refine h.setKernel fun pa hpa => ?_
  simp only [hh, map_some, map_none, weight_some, weight_none]
  obtain rfl | hne := eq_or_ne pa mem
  · rw [if_pos rfl, hdrop, add_zero]
  · rw [if_neg (Ne.symm hne), hkeep pa hpa hne]
    omega

theorem Counted.free (h : Counted L s) (hg : Good L s) :
    ∃ lists : Fin NCPU → List Nat,
      (∀ i, LinkedList.Chain s.kmem.next (s.kmem.freelist i) (lists i)) ∧
      ∀ pa, IsPage L pa → (∃ i, pa ∈ lists i) ∨ ∃ x, Points (heap s) x pa := by
  obtain ⟨lists, hinv⟩ := hg.kmem
  refine ⟨lists, hinv.chain, fun pa hpa => ?_⟩
  by_cases hx : ∃ x, Points (heap s) x pa
  · exact .inr hx
  · have hzero : krefcnt s.kmem pa = 0 := h.unreferenced hpa fun x hp => hx ⟨x, hp⟩
    exact .inl ((hinv.free_iff pa hpa).mpr hzero)

end Primitives

/-! ## The functions -/

section Functions
variable {L : Layout} {p np : Slot} {id : Fin NCPU}

theorem Counted.uvmunmap (n : Nat) : ∀ (v : Nat) (s s' : State), Good L s → Counted L s →
    Vm.uvmunmap L id p n v s = some s' → Counted L s' := by
  induction n with
  | zero =>
    intro v s s' _ h hs
    cases hs
    exact h
  | succ n ih =>
    intro v s s' hg h hs
    unfold Vm.uvmunmap at hs
    cases he : s.pt p v with
    | none =>
      rw [he] at hs
      exact ih (v + 1) s s' hg h hs
    | some e =>
      simp only [he] at hs
      split at hs
      · cases hs
      cases hk : kfree L s.kmem id e.pa with
      | none =>
        rw [hk] at hs
        cases hs
      | some k =>
        rw [hk] at hs
        exact ih (v + 1) _ s' (hg.unmap he hk).1 (h.unmap hg he hk) hs

theorem Counted.cowalloc {s s' : State} {va : Nat} {e : Pte} {r : Option Nat} (h : Counted L s)
    (hg : Good L s) (he : walk s p va = some e) (hs : Vm.cowalloc L id s p va = some (s', r)) :
    Counted L s' := by
  obtain ⟨-, hpt⟩ := walk_some he
  unfold Vm.cowalloc at hs
  simp only [he] at hs
  split at hs
  · cases hs
    exact h
  split at hs
  · cases hs
    exact h.retag hpt _
  cases hk : Kalloc.kalloc s.kmem id with
  | mk k1 found =>
    rw [hk] at hs
    cases found with
    | none =>
      cases hs
      exact h
    | some mem =>
      obtain ⟨k2, hk2, heq⟩ := map_eq_some_iff.mp hs
      cases heq
      exact h.copy hg hpt hk hk2

theorem Counted.uvmcopy {fail : Option Nat} (hne : p ≠ np) (n : Nat) :
    ∀ (v : Nat) (s s' : State) (r : Option Nat), Good L s → Counted L s →
      (∀ u, v ≤ u → s.pt np u = none) → Vm.uvmcopy L fail p np n v s = some (s', r) →
      Counted L s' := by
  induction n with
  | zero =>
    intro v s s' r _ h _ hs
    cases hs
    exact h
  | succ n ih =>
    intro v s s' r hg h hnp hs
    unfold Vm.uvmcopy at hs
    cases he : s.pt p v with
    | none =>
      rw [he] at hs
      exact ih (v + 1) s s' r hg h (fun u hu => hnp u (by omega)) hs
    | some e =>
      have hg1 := (hg.mark he).1
      have h1 := h.retag he e.flags.cow
      simp only [he] at hs
      generalize hs1 : s.setPte p v (some ⟨e.pa, e.flags.cow⟩) = s1 at hg1 h1 hs
      have he1 : s1.pt p v = some ⟨e.pa, e.flags.cow⟩ := by
        rw [← hs1, setPte_pt, if_pos ⟨rfl, rfl⟩]
      have hnp1 : ∀ u, v ≤ u → s1.pt np u = none := by
        intro u hu
        rw [← hs1, setPte_pt, if_neg (fun hx => hne hx.1.symm)]
        exact hnp u hu
      split at hs
      · cases hs
        exact h1
      rw [hnp1 v le_rfl, if_neg (by simp)] at hs
      cases hk : kaddrefcnt L s1.kmem e.pa with
      | none =>
        rw [hk] at hs
        cases hs
      | some kr =>
        obtain ⟨k, c⟩ := kr
        rw [hk] at hs
        refine ih (v + 1) _ s' r (hg1.share he1 (cow_w e.flags) (hnp1 v le_rfl) hk).1
          (h1.share hg1 he1 (hnp1 v le_rfl) hk) ?_ hs
        intro u hu
        show ({ s1.setPte np v _ with kmem := k } : State).pt np u = none
        simp only [setPte_pt]
        rw [if_neg (by omega)]
        exact hnp1 u (by omega)

theorem Counted.fork {s s' : State} {fail : Option Nat} {o : Outcome} (h : Counted L s)
    (hg : Good L s) (hne : p ≠ np) (hnp : ∀ u, s.pt np u = none)
    (hs : Vm.fork L id s p np fail = some (s', o)) : Counted L s' := by
  unfold Vm.fork at hs
  cases hc : Vm.uvmcopy L fail p np (pgroundup (s.sz p) / PGSIZE) 0 s with
  | none =>
    rw [hc] at hs
    cases hs
  | some sr =>
    obtain ⟨s1, r⟩ := sr
    rw [hc] at hs
    have habs : ∀ u, 0 ≤ u → (abs s).pages np u = none := fun u _ => by simp [abs, hnp u]
    have hg1 := (Good.uvmcopy hne _ 0 s s1 r hg habs hc).1
    have h1 := Counted.uvmcopy hne _ 0 s s1 r hg h (fun u _ => hnp u) hc
    cases r with
    | none =>
      cases hs
      exact h1.congr rfl fun _ _ => rfl
    | some w =>
      obtain ⟨s2, hs2, heq⟩ := map_eq_some_iff.mp hs
      cases heq
      exact Counted.uvmunmap _ _ _ _ hg1 h1 hs2

end Functions

end BirdOS.Vm
