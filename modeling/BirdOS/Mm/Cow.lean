import Mathlib.Data.List.GetD
import BirdOS.Lib.SharedCells
import BirdOS.Mm.Vm

/-! # Copy-on-write against eager copying

`Spaces` is what the processes of an operating system see that copies every page at
`fork`: a page of a process has contents of its own.  `abs` reads the spaces of a state
of the kernel off its page tables and memory, and every operation of the kernel does to
them what the eager system does. -/

namespace BirdOS.Vm

open Kalloc SharedCells Function Option

structure Page where
  flags : Flags
  content : Nat → UInt8

structure Spaces where
  pages : Slot → Nat → Option Page
  sz : Slot → Nat
  live : Slot → Bool

def Spaces.setTable (a : Spaces) (p : Slot) (t : Nat → Option Page) : Spaces :=
  { a with pages := update a.pages p t }

attribute [local simp] State.setPte Spaces.setTable

@[simp] theorem Spaces.setTable_pages_self (a : Spaces) (p : Slot) (t : Nat → Option Page) :
    (a.setTable p t).pages p = t := by
  simp

@[simp] theorem Spaces.setTable_setTable (a : Spaces) (p : Slot) (t t' : Nat → Option Page) :
    (a.setTable p t).setTable p t' = a.setTable p t' := by
  simp

theorem Spaces.setTable_eq_self {a : Spaces} {p : Slot} {t : Nat → Option Page}
    (h : a.pages p = t) : a.setTable p t = a := by
  subst h
  simp

theorem Spaces.setTable_pages (a : Spaces) (p : Slot) (t : Nat → Option Page) (q : Slot) (u : Nat) :
    (a.setTable p t).pages q u = if q = p then t u else a.pages q u := by
  obtain rfl | hq := eq_or_ne q p
  · simp
  · simp [hq]

def Spaces.setPage (a : Spaces) (p : Slot) (v : Nat) (g : Option Page) : Spaces :=
  a.setTable p (update (a.pages p) v g)

def Spaces.write (a : Spaces) (p : Slot) (va : Nat) (data : List UInt8) : Spaces :=
  a.setTable p fun u =>
    (a.pages p u).map fun g => { g with content := patch g.content (u * PGSIZE) va data }

def Spaces.unmap (a : Spaces) (p : Slot) (v n : Nat) : Spaces :=
  a.setTable p fun u => if v ≤ u ∧ u < v + n then none else a.pages p u

def Spaces.copy (a : Spaces) (p np : Slot) (v n : Nat) : Spaces :=
  a.setTable np fun u => if v ≤ u ∧ u < v + n then a.pages p u else a.pages np u

def Flags.own (fl : Flags) : Flags := { fl with w := fl.w || fl.f, f := false }

def abs (s : State) : Spaces where
  pages := fun p v => (s.pt p v).map fun e => ⟨e.flags.own, s.kmem.mem e.pa⟩
  sz := s.sz
  live := s.live

/-! ## References to pages -/

abbrev Ref := (Slot × Nat) ⊕ Nat

def heap (s : State) : Heap Ref Nat where
  ref := fun
    | .inl (p, v) => (s.pt p v).map fun e => (e.pa, e.flags.w)
    | .inr h => (s.kernel h).map fun pa => (pa, false)
  cnt := krefcnt s.kmem

structure Good (L : Layout) (s : State) : Prop where
  kmem : ∃ lists, Kalloc.Inv (IsPage L) s.kmem lists
  page : ∀ x pa, Points (heap s) x pa → IsPage L pa
  cells : SharedCells.Ok (heap s)
  marked : ∀ p v e, s.pt p v = some e → e.flags.w = true → e.flags.f = false

section Good
variable {L : Layout} {s : State} {p : Slot} {v : Nat} {e : Pte} {k : Kmem} {id : Fin NCPU}

theorem points_of_pte (h : s.pt p v = some e) : Points (heap s) (.inl (p, v)) e.pa :=
  ⟨e.flags.w, by simp [heap, h]⟩

theorem heap_ref_pte (h : s.pt p v = some e) :
    (heap s).ref (.inl (p, v)) = some (e.pa, e.flags.w) := by
  simp [heap, h]

theorem setPte_pt (s : State) (p : Slot) (v : Nat) (e : Option Pte) (q : Slot) (u : Nat) :
    (s.setPte p v e).pt q u = if q = p ∧ u = v then e else s.pt q u := by
  obtain rfl | hq := eq_or_ne q p
  · by_cases hu : u = v
    · subst hu
      simp
    · simp [hu]
  · simp [hq]

theorem heap_setPte (s : State) (p : Slot) (v : Nat) (e : Option Pte) (k : Kmem) :
    (heap { s.setPte p v e with kmem := k }).ref =
      update (heap s).ref (.inl (p, v)) (e.map fun e => (e.pa, e.flags.w)) := by
  funext x
  cases x with
  | inl qu =>
    obtain ⟨q, u⟩ := qu
    have hpt := setPte_pt s p v e q u
    by_cases hx : q = p ∧ u = v
    · obtain ⟨rfl, rfl⟩ := hx
      simp only [heap, update_self]
      rw [hpt, if_pos ⟨rfl, rfl⟩]
    have hne : (Sum.inl (q, u) : Ref) ≠ .inl (p, v) := by
      intro he
      obtain ⟨rfl, rfl⟩ := Prod.mk.inj (Sum.inl.inj he)
      exact hx ⟨rfl, rfl⟩
    rw [update_of_ne hne]
    simp only [heap]
    rw [hpt, if_neg hx]
  | inr h =>
    rw [update_of_ne (by simp)]
    rfl

theorem Good.setPte (h : Good L s) {r : Option Pte} (hk : ∃ lists, Kalloc.Inv (IsPage L) k lists)
    (hcells : SharedCells.Ok (heap { s.setPte p v r with kmem := k }))
    (hpage : ∀ e, r = some e → IsPage L e.pa ∧ (e.flags.w = true → e.flags.f = false)) :
    Good L { s.setPte p v r with kmem := k } := by
  refine ⟨hk, ?_, hcells, ?_⟩
  · intro x pa hx
    by_cases hxv : x = .inl (p, v)
    · subst hxv
      obtain ⟨w, hw⟩ := hx
      rw [heap_setPte, update_self] at hw
      obtain ⟨e, he, heq⟩ := map_eq_some_iff.mp hw
      cases heq
      exact (hpage e he).1
    · exact h.page x pa ((points_update (heap_setPte s p v r k) hxv).mp hx)
  · intro q u e he hw
    rw [setPte_pt] at he
    split at he
    · exact (hpage e he).2 hw
    · exact h.marked q u e he hw

theorem Good.pos (h : Good L s) (he : s.pt p v = some e) : 0 < krefcnt s.kmem e.pa := by
  have := h.cells.pos (points_of_pte he)
  exact this

theorem Good.isPage (h : Good L s) (he : s.pt p v = some e) : IsPage L e.pa :=
  h.page _ _ (points_of_pte he)

theorem Spaces.setPage_pages (a : Spaces) (p : Slot) (v : Nat) (g : Option Page) (q : Slot)
    (u : Nat) :
    (a.setPage p v g).pages q u = if q = p ∧ u = v then g else a.pages q u := by
  rw [Spaces.setPage, Spaces.setTable_pages]
  obtain rfl | hq := eq_or_ne q p
  · simp [update_apply]
  · simp [hq]

theorem abs_setPte {r : Option Pte} {g : Option Page}
    (hg : (r.map fun e => (⟨e.flags.own, k.mem e.pa⟩ : Page)) = g)
    (hother : ∀ q u e, ¬ (q = p ∧ u = v) → s.pt q u = some e → k.mem e.pa = s.kmem.mem e.pa) :
    abs { s.setPte p v r with kmem := k } = (abs s).setPage p v g := by
  have hpages : (abs { s.setPte p v r with kmem := k }).pages = ((abs s).setPage p v g).pages := by
    funext q u
    rw [Spaces.setPage_pages]
    simp only [abs]
    rw [setPte_pt]
    split
    · exact hg
    · rename_i hne
      cases he : s.pt q u with
      | none => rfl
      | some e => simp only [map_some, hother q u e hne he]
  exact congrArg (fun f => (⟨f, s.sz, s.live⟩ : Spaces)) hpages

theorem abs_kmem {f : Nat → Option Nat}
    (hmem : ∀ q u e, s.pt q u = some e → k.mem e.pa = s.kmem.mem e.pa) :
    abs { s with kmem := k, kernel := f } = abs s := by
  have hpages : (abs { s with kmem := k, kernel := f }).pages = (abs s).pages := by
    funext q u
    simp only [abs]
    cases he : s.pt q u with
    | none => rfl
    | some e => simp only [map_some, hmem q u e he]
  exact congrArg (fun f => (⟨f, s.sz, s.live⟩ : Spaces)) hpages

theorem Spaces.setPage_same {a : Spaces} {g : Option Page} (h : a.pages p v = g) :
    a.setPage p v g = a := by
  apply Spaces.setTable_eq_self
  rw [← h, update_eq_self]

theorem ref_ne {q : Slot} {u : Nat} (h : ¬ (q = p ∧ u = v)) :
    (Sum.inl (q, u) : Ref) ≠ .inl (p, v) := by
  intro he
  obtain ⟨rfl, rfl⟩ := Prod.mk.inj (Sum.inl.inj he)
  exact h ⟨rfl, rfl⟩

theorem Good.unmap (h : Good L s) (he : s.pt p v = some e) (hk : kfree L s.kmem id e.pa = some k) :
    Good L { s.setPte p v none with kmem := k } ∧
      abs { s.setPte p v none with kmem := k } = (abs s).setPage p v none := by
  obtain ⟨lists, hinv⟩ := h.kmem
  obtain ⟨hinv', hdrop, hkeep, hmem⟩ := hinv.kfree_some (h.isPage he) (h.pos he) hk
  constructor
  · apply h.setPte hinv'
    · apply h.cells.drop (heap_ref_pte he) (heap_setPte s p v none k)
      · exact le_of_eq hdrop.symm
      · intro d z hd hz
        exact le_of_eq (hkeep d (h.page z d hz) hd).symm
    · intro e' he'
      simp at he'
  · apply abs_setPte rfl
    intro q u e' hne he'
    apply hmem
    by_cases hpa : e'.pa = e.pa
    · right
      apply h.cells.two (points_of_pte he) _ (ref_ne hne)
      rw [← hpa]
      exact points_of_pte he'
    · exact .inl hpa

theorem own_cow {fl : Flags} (h : fl.w = true → fl.f = false) : fl.cow.own = fl.own := by
  obtain ⟨r, w, x, u, f⟩ := fl
  cases w <;> cases f <;> simp_all [Flags.cow, Flags.own]

theorem cow_w (fl : Flags) : fl.cow.w = false := by
  obtain ⟨r, w, x, u, f⟩ := fl
  cases w <;> simp [Flags.cow]

theorem Good.mark (h : Good L s) (he : s.pt p v = some e) :
    Good L (s.setPte p v (some ⟨e.pa, e.flags.cow⟩)) ∧
      abs (s.setPte p v (some ⟨e.pa, e.flags.cow⟩)) = abs s := by
  constructor
  · apply h.setPte (k := s.kmem) h.kmem
    · apply h.cells.retag (heap_ref_pte he) (heap_setPte s p v _ s.kmem)
      · exact fun _ _ _ => Int.le_refl _
      · intro hw
        simp [cow_w] at hw
    intro e' he'
    cases he'
    have hpage : IsPage L e.pa := h.isPage he
    refine ⟨hpage, ?_⟩
    intro hw
    rw [cow_w] at hw
    exact absurd hw (by simp)
  · have hsame := abs_setPte (s := s) (p := p) (v := v) (k := s.kmem)
      (r := some ⟨e.pa, e.flags.cow⟩) rfl fun _ _ _ _ _ => rfl
    rw [Spaces.setPage_same] at hsame
    · exact hsame
    · simp only [abs, he, map_some, own_cow (h.marked p v e he)]

theorem Good.share (h : Good L s) {np : Slot} {r : Int} (he : s.pt p v = some e)
    (hw : e.flags.w = false) (hnp : s.pt np v = none)
    (hk : kaddrefcnt L s.kmem e.pa = some (k, r)) :
    Good L { s.setPte np v (some e) with kmem := k } ∧
      abs { s.setPte np v (some e) with kmem := k } =
        (abs s).setPage np v ((abs s).pages p v) := by
  obtain ⟨lists, hinv⟩ := h.kmem
  obtain ⟨hinv', hadd, hkeep, hmem⟩ := hinv.kaddrefcnt_some (h.isPage he) (h.pos he) hk
  have href : (heap s).ref (.inl (p, v)) = some (e.pa, false) := by
    rw [heap_ref_pte he, hw]
  have hfree : (heap s).ref (.inl (np, v)) = none := by
    simp [heap, hnp]
  constructor
  · apply h.setPte hinv'
    · apply h.cells.share href hfree
      · rw [heap_setPte, map_some, hw]
      · exact le_of_eq hadd.symm
      · intro d z hd hz
        exact le_of_eq (hkeep d (h.page z d hz) hd).symm
    intro e' he'
    cases he'
    exact ⟨h.isPage he, h.marked p v e he⟩
  · apply abs_setPte
    · simp only [abs, he, map_some, hmem]
    · intro q u e' _ _
      rw [hmem]

theorem inv_setPage {S : Nat → Prop} {lists : Fin NCPU → List Nat} (h : Kalloc.Inv S k lists)
    (pa : Nat) (content : Nat → UInt8) : Kalloc.Inv S (setPage k pa content) lists :=
  { h with }

theorem Good.kalloc (h : Good L s) {r : Nat} (hk : Kalloc.kalloc s.kmem id = (k, some r))
    (content : Nat → UInt8) :
    Good L { s with kmem := setPage k r content } ∧
      abs { s with kmem := setPage k r content } = abs s ∧
      IsPage L r ∧ krefcnt k r = 1 ∧ ∀ x, ¬ Points (heap s) x r := by
  obtain ⟨lists, hinv⟩ := h.kmem
  obtain ⟨hinv', hr, hzero, hone, hkeep, hmem⟩ := hinv.kalloc_some hk
  have hnone : ∀ x, ¬ Points (heap s) x r := fun x => h.cells.not_points (le_of_eq hzero)
  have hne : ∀ {x pa}, Points (heap s) x pa → pa ≠ r := by
    intro x pa hx e
    rw [e] at hx
    exact hnone x hx
  refine ⟨⟨?_, h.page, ?_, h.marked⟩, ?_, hr, hone, hnone⟩
  · obtain ⟨lists', hinv'⟩ := hinv'
    exact ⟨lists', inv_setPage hinv' r content⟩
  · apply h.cells.mono
    · exact fun _ _ _ hx => hx
    · intro d z hz
      exact le_of_eq (hkeep d (h.page z d hz) (hne hz)).symm
  · apply abs_kmem
    intro q u e he
    have hea := hne (points_of_pte he)
    simp only [setPage, update_of_ne hea, hmem e.pa hea]

theorem Good.map (h : Good L s) {r : Nat} (fl : Flags) (hr : IsPage L r)
    (hone : krefcnt s.kmem r = 1) (hnone : ∀ x, ¬ Points (heap s) x r)
    (hfl : fl.w = true → fl.f = false) : Good L (s.setPte p v (some ⟨r, fl⟩)) ∧
      abs (s.setPte p v (some ⟨r, fl⟩)) =
        (abs s).setPage p v (some ⟨fl.own, s.kmem.mem r⟩) := by
  constructor
  · apply h.setPte (k := s.kmem) h.kmem
    · apply h.cells.fresh hnone (heap_setPte s p v (some ⟨r, fl⟩) s.kmem)
      · exact le_of_eq hone.symm
      · exact fun _ _ _ _ => Int.le_refl _
    intro e he
    cases he
    exact ⟨hr, hfl⟩
  · exact abs_setPte (k := s.kmem) rfl fun _ _ _ _ _ => rfl

theorem walk_some {va : Nat} (h : walk s p va = some e) :
    va < MAXVA ∧ s.pt p (va / PGSIZE) = some e := by
  unfold walk at h
  split at h
  · simp at h
  · exact ⟨by omega, h⟩

def Flags.taken (fl : Flags) : Flags := { fl with w := true, f := false }

theorem own_taken {fl : Flags} (h : fl.f = true) : fl.taken.own = fl.own := by
  simp [Flags.taken, Flags.own, h]

theorem Good.take (h : Good L s) (he : s.pt p v = some e) (hf : e.flags.f = true)
    (hone : krefcnt s.kmem e.pa = 1) : Good L (s.setPte p v (some ⟨e.pa, e.flags.taken⟩)) ∧
      abs (s.setPte p v (some ⟨e.pa, e.flags.taken⟩)) = abs s := by
  have hpage : IsPage L e.pa := h.isPage he
  constructor
  · apply h.setPte (k := s.kmem) h.kmem
    · apply h.cells.retag (heap_ref_pte he) (heap_setPte s p v _ s.kmem)
      · exact fun _ _ _ => Int.le_refl _
      · intro _ z hz
        exact h.cells.unique (le_of_eq hone) (points_of_pte he) hz
    intro e' he'
    cases he'
    exact ⟨hpage, fun _ => rfl⟩
  · have hsame := abs_setPte (s := s) (p := p) (v := v) (k := s.kmem)
      (r := some ⟨e.pa, e.flags.taken⟩) rfl fun _ _ _ _ _ => rfl
    rw [Spaces.setPage_same] at hsame
    · exact hsame
    · simp only [abs, he, map_some, own_taken hf]

theorem Spaces.setPage_setPage (a : Spaces) (g g' : Option Page) :
    (a.setPage p v g).setPage p v g' = a.setPage p v g' := by
  simp [Spaces.setPage]

theorem Good.copy (h : Good L s) (he : s.pt p v = some e) (hf : e.flags.f = true) {r : Nat}
    {k1 k2 : Kmem} (hk1 : Kalloc.kalloc s.kmem id = (k1, some r))
    (hk2 : kfree L (setPage k1 r (k1.mem e.pa)) id e.pa = some k2) :
    Good L { s.setPte p v (some ⟨r, e.flags.taken⟩) with kmem := k2 } ∧
      abs { s.setPte p v (some ⟨r, e.flags.taken⟩) with kmem := k2 } = abs s := by
  obtain ⟨lists, hinv⟩ := h.kmem
  obtain ⟨_, _, _, _, _, hmem1⟩ := hinv.kalloc_some hk1
  obtain ⟨h1, habs1, hr, hone, hnone⟩ := h.kalloc hk1 (k1.mem e.pa)
  have hne : e.pa ≠ r := by
    intro hpa
    exact hnone _ (hpa ▸ points_of_pte he)
  have he1 : ({ s with kmem := setPage k1 r (k1.mem e.pa) } : State).pt p v = some e := he
  obtain ⟨h2, habs2⟩ := h1.unmap he1 hk2
  obtain ⟨lists1, hinv1⟩ := h1.kmem
  obtain ⟨_, _, hkeep2, hmem2⟩ := hinv1.kfree_some (h1.isPage he1) (h1.pos he1) hk2
  have hone2 : krefcnt k2 r = 1 := by
    rw [hkeep2 r hr hne.symm]
    exact hone
  have hcopy : k2.mem r = s.kmem.mem e.pa := by
    rw [hmem2 r (.inl hne.symm), ← hmem1 e.pa hne]
    simp [setPage]
  -- the page is unmapped first, so the new entry is the only reference that is added
  have hmap := h2.map (p := p) (v := v) e.flags.taken hr hone2 (by
    intro x hx
    by_cases hxv : x = .inl (p, v)
    · subst hxv
      obtain ⟨w, hw⟩ := hx
      rw [heap_setPte, update_self] at hw
      simp at hw
    · exact hnone x ((points_update (heap_setPte _ p v none k2) hxv).mp hx)) fun _ => rfl
  have hstate : ({ ({ s with kmem := setPage k1 r (k1.mem e.pa) } : State).setPte p v none with
      kmem := k2 } : State).setPte p v (some ⟨r, e.flags.taken⟩) =
      { s.setPte p v (some ⟨r, e.flags.taken⟩) with kmem := k2 } := by
    simp
  rw [hstate, habs2, habs1, Spaces.setPage_setPage] at hmap
  refine ⟨hmap.1, hmap.2.trans (Spaces.setPage_same ?_)⟩
  simp only [abs, he, map_some, own_taken hf, hcopy]

theorem Good.cowalloc (h : Good L s) {va : Nat} {s' : State} {r : Option Nat}
    (he : walk s p va = some e) (hf : e.flags.f = true)
    (hs : Vm.cowalloc L id s p va = some (s', r)) : Good L s' ∧ abs s' = abs s ∧
      (∀ pa, r = some pa → e.flags.u = true ∧ s'.pt p (va / PGSIZE) =
        some ⟨pa, e.flags.taken⟩) := by
  obtain ⟨_, hpt⟩ := walk_some he
  unfold Vm.cowalloc at hs
  rw [he] at hs
  simp only at hs
  by_cases hu : e.flags.u = true
  · rw [if_neg (by simp [hu])] at hs
    by_cases hone : krefcnt s.kmem e.pa = 1
    · rw [if_pos hone] at hs
      cases hs
      obtain ⟨hgood, habs⟩ := h.take hpt hf hone
      refine ⟨hgood, habs, fun pa hpa => ⟨hu, ?_⟩⟩
      cases hpa
      simp [Flags.taken]
    rw [if_neg hone] at hs
    cases hk : Kalloc.kalloc s.kmem id with
    | mk k1 found =>
      rw [hk] at hs
      cases found with
      | none =>
        cases hs
        exact ⟨h, rfl, fun _ hpa => by simp at hpa⟩
      | some mem =>
        obtain ⟨k2, hk2, heq⟩ := map_eq_some_iff.mp hs
        obtain ⟨rfl, rfl⟩ := Prod.mk.inj heq
        obtain ⟨hgood, habs⟩ := h.copy hpt hf hk hk2
        refine ⟨hgood, habs, fun pa hpa => ⟨hu, ?_⟩⟩
        cases hpa
        simp [Flags.taken]
  · rw [if_pos hu] at hs
    cases hs
    exact ⟨h, rfl, fun _ hpa => by simp at hpa⟩

end Good

/-! ## Writing -/

theorem patch_nil (page : Nat → UInt8) (base va : Nat) : patch page base va [] = page := by
  funext off
  unfold patch
  rw [if_neg (by simp only [List.length_nil]; omega)]

theorem patch_append (page : Nat → UInt8) (base va : Nat) (d1 d2 : List UInt8) :
    patch (patch page base va d1) base (va + d1.length) d2 = patch page base va (d1 ++ d2) := by
  funext off
  simp only [patch, List.length_append]
  by_cases h1 : base + off < va + d1.length
  · rw [if_neg (by omega)]
    by_cases h : off < PGSIZE ∧ va ≤ base + off
    · rw [if_pos ⟨h.1, h.2, h1⟩, if_pos ⟨h.1, h.2, by omega⟩, List.getD_append _ _ _ _ (by omega)]
    · rw [if_neg (by omega), if_neg (by omega)]
  rw [if_neg (c := off < PGSIZE ∧ va ≤ base + off ∧ base + off < va + d1.length) (by omega)]
  by_cases h : off < PGSIZE ∧ base + off < va + (d1.length + d2.length)
  · rw [if_pos ⟨h.1, by omega, by omega⟩, if_pos ⟨h.1, by omega, h.2⟩,
      List.getD_append_right _ _ _ _ (by omega)]
    congr 1
    omega
  · rw [if_neg (by omega), if_neg (by omega)]

theorem patch_outside (page : Nat → UInt8) {u va : Nat} {data : List UInt8}
    (hfit : va % PGSIZE + data.length ≤ PGSIZE) (hu : u ≠ va / PGSIZE) :
    patch page (u * PGSIZE) va data = page := by
  funext off
  unfold patch
  rw [if_neg]
  simp only [PGSIZE] at hfit hu ⊢
  omega

theorem Spaces.write_nil (a : Spaces) (p : Slot) (va : Nat) : a.write p va [] = a := by
  apply Spaces.setTable_eq_self
  funext u
  simp only [patch_nil]
  exact map_id'.symm

theorem Spaces.write_append (a : Spaces) (p : Slot) (va : Nat) (d1 d2 : List UInt8) :
    (a.write p va d1).write p (va + d1.length) d2 = a.write p va (d1 ++ d2) := by
  simp only [Spaces.write, Spaces.setTable_setTable, Spaces.setTable_pages_self, map_map]
  congr 1
  funext u
  congr 1
  funext g
  simp only [Function.comp, patch_append]

section Write
variable {L : Layout} {s : State} {p : Slot} {v : Nat} {e : Pte} {k : Kmem} {id : Fin NCPU}

theorem Good.writePage (h : Good L s) {va : Nat} {data : List UInt8}
    (he : s.pt p (va / PGSIZE) = some e) (hw : e.flags.w = true)
    (hfit : va % PGSIZE + data.length ≤ PGSIZE) : Good L (Vm.writePage s e.pa va data) ∧
      abs (Vm.writePage s e.pa va data) = (abs s).write p va data := by
  obtain ⟨lists, hinv⟩ := h.kmem
  have hsole : ∀ q u e', s.pt q u = some e' → e'.pa = e.pa → q = p ∧ u = va / PGSIZE := by
    intro q u e' he' hpa
    have href := heap_ref_pte he
    rw [hw] at href
    have hx := h.cells.sole _ (.inl (q, u)) _ href (hpa ▸ points_of_pte he')
    obtain ⟨rfl, rfl⟩ := Prod.mk.inj (Sum.inl.inj hx)
    exact ⟨rfl, rfl⟩
  refine ⟨⟨⟨lists, inv_setPage hinv _ _⟩, h.page, ⟨h.cells.counted, h.cells.sole⟩, h.marked⟩, ?_⟩
  have hpages : (abs (Vm.writePage s e.pa va data)).pages = ((abs s).write p va data).pages := by
    funext q u
    rw [Spaces.write, Spaces.setTable_pages]
    simp only [abs, Vm.writePage]
    cases he' : s.pt q u with
    | none =>
      split
      · rename_i hq
        subst hq
        simp [he']
      · rfl
    | some e' =>
      by_cases hpa : e'.pa = e.pa
      · obtain ⟨rfl, rfl⟩ := hsole q u e' he' hpa
        rw [he] at he'
        cases he'
        simp [setPage, he, pgrounddown]
      simp only [map_some, setPage, update_of_ne hpa]
      split
      · rename_i hq
        subst hq
        have hu : u ≠ va / PGSIZE := by
          intro hu
          subst hu
          rw [he] at he'
          cases he'
          exact hpa rfl
        simp only [he', map_some, patch_outside _ hfit hu]
      · rfl
  exact congrArg (fun f => (⟨f, s.sz, s.live⟩ : Spaces)) hpages

end Write

/-! ## The loops -/

section Loops
variable {L : Layout} {p np : Slot} {id : Fin NCPU}

theorem Spaces.unmap_zero (a : Spaces) (v : Nat) : a.unmap p v 0 = a := by
  apply Spaces.setTable_eq_self
  funext u
  rw [if_neg (by omega)]

theorem Spaces.unmap_succ (a : Spaces) (v n : Nat) :
    (a.setPage p v none).unmap p (v + 1) n = a.unmap p v (n + 1) := by
  simp only [Spaces.unmap, Spaces.setPage, Spaces.setTable_setTable, Spaces.setTable_pages_self]
  congr 1
  funext u
  obtain rfl | hu := eq_or_ne u v
  · simp
  rw [update_of_ne hu]
  congr 1
  simp only [eq_iff_iff]
  omega

theorem Good.uvmunmap (n : Nat) : ∀ (v : Nat) (s s' : State), Good L s →
    Vm.uvmunmap L id p n v s = some s' → Good L s' ∧ abs s' = (abs s).unmap p v n := by
  induction n with
  | zero =>
    intro v s s' h hs
    cases hs
    exact ⟨h, (Spaces.unmap_zero _ v).symm⟩
  | succ n ih =>
    intro v s s' h hs
    unfold Vm.uvmunmap at hs
    cases he : s.pt p v with
    | none =>
      rw [he] at hs
      obtain ⟨hgood, habs⟩ := ih (v + 1) s s' h hs
      have hnone : (abs s).pages p v = none := by simp [abs, he]
      refine ⟨hgood, ?_⟩
      rw [habs, ← Spaces.unmap_succ, Spaces.setPage_same hnone]
    | some e =>
      rw [he] at hs
      simp only at hs
      split at hs
      · simp at hs
      cases hk : kfree L s.kmem id e.pa with
      | none =>
        rw [hk] at hs
        simp at hs
      | some k =>
        rw [hk] at hs
        obtain ⟨h1, habs1⟩ := h.unmap he hk
        obtain ⟨hgood, habs⟩ := ih (v + 1) _ s' h1 hs
        exact ⟨hgood, by rw [habs, habs1, Spaces.unmap_succ]⟩

theorem Spaces.copy_zero (a : Spaces) (v : Nat) : a.copy p np v 0 = a := by
  apply Spaces.setTable_eq_self
  funext u
  rw [if_neg (by omega)]

theorem Spaces.copy_succ (a : Spaces) (hne : p ≠ np) (v n : Nat) :
    (a.setPage np v (a.pages p v)).copy p np (v + 1) n = a.copy p np v (n + 1) := by
  simp only [Spaces.copy, Spaces.setPage, Spaces.setTable_setTable, Spaces.setTable_pages_self]
  congr 1
  funext u
  rw [Spaces.setTable_pages, if_neg hne]
  obtain rfl | hu := eq_or_ne u v
  · simp
  rw [update_of_ne hu]
  congr 1
  simp only [eq_iff_iff]
  omega

theorem Good.uvmcopy {fail : Option Nat} (hne : p ≠ np) (n : Nat) :
    ∀ (v : Nat) (s s' : State) (r : Option Nat), Good L s →
      (∀ u, v ≤ u → (abs s).pages np u = none) → Vm.uvmcopy L fail p np n v s = some (s', r) →
      Good L s' ∧ ∃ m, abs s' = (abs s).copy p np v m ∧
        (r = none → m = n) ∧ ∀ w, r = some w → w = v + m := by
  induction n with
  | zero =>
    intro v s s' r h _ hs
    cases hs
    exact ⟨h, 0, (Spaces.copy_zero _ v).symm, fun _ => rfl, fun w hw => by simp at hw⟩
  | succ n ih =>
    intro v s s' r h hnp hs
    unfold Vm.uvmcopy at hs
    cases he : s.pt p v with
    | none =>
      rw [he] at hs
      obtain ⟨hgood, m, habs, hnone, hsome⟩ := ih (v + 1) s s' r h (fun u hu => hnp u (by omega)) hs
      have hsame : (abs s).pages np v = (abs s).pages p v := by
        rw [hnp v (by omega)]
        simp [abs, he]
      refine ⟨hgood, m + 1, ?_, fun hr => congrArg (· + 1) (hnone hr),
        fun w hr => (hsome w hr).trans (by omega)⟩
      rw [habs, ← Spaces.copy_succ _ hne, Spaces.setPage_same hsame]
    | some e =>
      rw [he] at hs
      obtain ⟨h1, habs1⟩ := h.mark he
      simp only at hs
      generalize hs1 : s.setPte p v (some ⟨e.pa, e.flags.cow⟩) = s1 at h1 habs1 hs
      have he1 : s1.pt p v = some ⟨e.pa, e.flags.cow⟩ := by
        rw [← hs1, setPte_pt, if_pos ⟨rfl, rfl⟩]
      have hnp1 : s1.pt np v = none := by
        have := hnp v (by omega)
        rw [← habs1] at this
        simpa [abs] using this
      by_cases hfail : fail = some v
      · rw [if_pos hfail] at hs
        cases hs
        refine ⟨h1, 0, ?_, fun hr => by simp at hr, fun w hr => (Option.some.inj hr).symm⟩
        rw [habs1, Spaces.copy_zero]
      rw [if_neg hfail, hnp1, if_neg (by simp)] at hs
      cases hk : kaddrefcnt L s1.kmem e.pa with
      | none =>
        rw [hk] at hs
        simp at hs
      | some kr =>
        obtain ⟨k, c⟩ := kr
        rw [hk] at hs
        obtain ⟨h2, habs2⟩ := h1.share he1 (cow_w e.flags) hnp1 hk
        rw [habs1] at habs2
        obtain ⟨hgood, m, habs, hnone, hsome⟩ := ih (v + 1) _ s' r h2 (by
          intro u hu
          rw [habs2, Spaces.setPage_pages, if_neg (by omega)]
          exact hnp u (by omega)) hs
        refine ⟨hgood, m + 1, ?_, fun hr => congrArg (· + 1) (hnone hr),
          fun w hr => (hsome w hr).trans (by omega)⟩
        rw [habs, habs2, Spaces.copy_succ _ hne]

end Loops

end BirdOS.Vm
