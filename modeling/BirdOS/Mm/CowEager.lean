import BirdOS.Mm.Cow

/-! # Copy-on-write is not observable

The machine `step` runs the processes of a fork tree over the kernel's page tables, and
`eagerStep` over private copies.  The kernel may end an operation for want of a page,
which the eager system never has to; the outcome is therefore part of the label.  With
the same labels both show every process the same bytes. -/

namespace BirdOS.Vm

open Machine Kalloc SharedCells Function List Option

inductive Op where
  | grow (p : Slot) (n : Nat)
  | touch (id : Fin NCPU) (p : Slot) (v : Nat) (flags : Flags) (content : Nat → UInt8)
  | fork (id : Fin NCPU) (p np : Slot) (fail : Option Nat)
  | store (id : Fin NCPU) (p : Slot) (va : Nat) (b : UInt8)
  | copyout (id : Fin NCPU) (p : Slot) (va : Nat) (data : List UInt8)
  | shrink (id : Fin NCPU) (p : Slot) (newsz : Nat)
  | exit (id : Fin NCPU) (p : Slot)
  | kalloc (id : Fin NCPU) (handle : Nat)
  | kfree (id : Fin NCPU) (handle : Nat)

/-- The user's pages in this range have `PTE_W` or `PTE_F`. -/
def mayWrite (s : State) (p : Slot) (va n : Nat) : Bool :=
  decide (∀ i < n, ∀ e ∈ s.pt p ((va + i) / PGSIZE), e.flags.u = true →
    e.flags.w = true ∨ e.flags.f = true)

/-- `touch` allocates a page on first use; `kalloc` and `kfree` come from elsewhere. -/
def exec (L : Layout) (s : State) : Op → Option (State × Outcome)
  | .grow p n =>
    if s.live p then some ({ s with sz := update s.sz p (s.sz p + n) }, .ok) else none
  | .touch id p v flags content =>
    if s.live p ∧ v * PGSIZE < s.sz p ∧ v * PGSIZE < MAXVA ∧ (s.pt p v).isNone ∧ ¬ flags.f then
      match Kalloc.kalloc s.kmem id with
      | (_, none) => some (s, .oom 0)
      | (k, some mem) =>
        some ({ s.setPte p v (some ⟨mem, flags⟩) with kmem := setPage k mem content }, .ok)
    else none
  | .fork id p np fail => if s.live p ∧ ¬ s.live np then Vm.fork L id s p np fail else none
  | .store id p va b => if s.live p then Vm.store L id s p va b else none
  | .copyout id p va data =>
    if s.live p ∧ mayWrite s p va data.length then Vm.copyout L id p data.length s va data 0
    else none
  | .shrink id p newsz =>
    if s.live p ∧ 0 < newsz ∧ newsz < s.sz p then
      (Vm.shrink L id s p newsz).map fun s => (s, .ok)
    else none
  | .exit id p => if s.live p then (Vm.exit L id s p).map fun s => (s, .ok) else none
  | .kalloc id handle =>
    match s.kernel handle, Kalloc.kalloc s.kmem id with
    | some _, _ => none
    | none, (_, none) => some (s, .oom 0)
    | none, (k, some pa) =>
      some ({ s with kmem := k, kernel := update s.kernel handle (some pa) }, .ok)
  | .kfree id handle =>
    match s.kernel handle with
    | none => none
    | some pa =>
      (Kalloc.kfree L s.kmem id pa).map fun k =>
        ({ s with kmem := k, kernel := update s.kernel handle none }, .ok)

def step (L : Layout) (s : State) (l : Op × Outcome) : Option State :=
  match exec L s l.1 with
  | none => none
  | some (s', o) => if o = l.2 then some s' else none

def boot (k : Kmem) (p : Slot) : State :=
  ⟨k, fun _ _ => none, fun _ => 0, fun q => q = p, fun _ => none⟩

def readByte (s : State) (p : Slot) (va : Nat) : Option UInt8 :=
  (walk s p va).map fun e => s.kmem.mem e.pa (va % PGSIZE)

/-! ## The eager system -/

def Spaces.readByte (a : Spaces) (p : Slot) (va : Nat) : Option UInt8 :=
  if va ≥ MAXVA then none else (a.pages p (va / PGSIZE)).map fun g => g.content (va % PGSIZE)

def Spaces.writable (a : Spaces) (p : Slot) (va : Nat) : Bool :=
  decide (va < MAXVA) &&
    match a.pages p (va / PGSIZE) with
    | none => false
    | some g => g.flags.w && g.flags.u

def Spaces.kill (a : Spaces) (p : Slot) : Spaces where
  pages := update a.pages p fun _ => none
  sz := update a.sz p 0
  live := update a.live p false

/-- A store or `copyout` fails where the process may not write, or for want of a page. -/
def eagerStep (a : Spaces) (l : Op × Outcome) : Option Spaces :=
  match l.1, l.2 with
  | .grow p n, .ok => some { a with sz := update a.sz p (a.sz p + n) }
  | .touch _ p v flags content, .ok =>
    if a.live p then some (a.setPage p v (some ⟨flags.own, content⟩)) else none
  | .touch .., .oom _ => some a
  | .fork _ p np _, .ok =>
    some { a.copy p np 0 (pgroundup (a.sz p) / PGSIZE) with
      sz := update a.sz np (a.sz p)
      live := update a.live np true }
  | .fork .., .oom _ => some a
  | .store _ p va b, .ok => if a.writable p va then some (a.write p va [b]) else none
  | .store _ p _ _, .oom _ => some (a.kill p)
  | .store _ p va _, .fault _ =>
    if a.writable p va ∧ va < a.sz p then none else some (a.kill p)
  | .copyout _ p va data, .ok =>
    if ∀ i < data.length, a.writable p (va + i) then some (a.write p va data) else none
  | .copyout _ p va data, .oom n => some (a.write p va (data.take n))
  | .copyout _ p va data, .fault n =>
    if a.writable p (va + n) then none else some (a.write p va (data.take n))
  | .shrink _ p newsz, .ok =>
    some { a.unmap p (pgroundup newsz / PGSIZE) ((pgroundup (a.sz p) - pgroundup newsz) / PGSIZE)
      with sz := update a.sz p newsz }
  | .exit _ p, .ok => some (a.kill p)
  | .kalloc .., .ok => some a
  | .kalloc .., .oom _ => some a
  | .kfree .., .ok => some a
  | _, _ => none

def eagerBoot (p : Slot) : Spaces := ⟨fun _ _ => none, fun _ => 0, fun q => q = p⟩

/-! ## One operation -/

section Operations
variable {L : Layout} {s s' : State} {p : Slot} {e : Pte} {id : Fin NCPU} {va : Nat}

theorem pgrounddown_div (va : Nat) : pgrounddown va / PGSIZE = va / PGSIZE :=
  Nat.mul_div_cancel _ (by decide)

theorem walk_pgrounddown (s : State) (p : Slot) (va : Nat) :
    walk s p (pgrounddown va) = walk s p va := by
  have hiff : pgrounddown va ≥ MAXVA ↔ va ≥ MAXVA := by
    simp only [pgrounddown, PGSIZE, MAXVA]
    omega
  simp only [walk, hiff, pgrounddown_div]

theorem writable_iff (s : State) (p : Slot) (va : Nat) : (abs s).writable p va = true ↔
      ∃ e, walk s p va = some e ∧ e.flags.u = true ∧ (e.flags.w = true ∨ e.flags.f = true) := by
  unfold Spaces.writable walk
  by_cases hva : va < MAXVA
  · rw [if_neg (by omega)]
    simp only [abs, hva, decide_true, Bool.true_and]
    cases he : s.pt p (va / PGSIZE) with
    | none => simp
    | some e =>
      simp only [map_some, Flags.own, Bool.and_eq_true, Bool.or_eq_true, some.injEq,
        exists_eq_left']
      exact and_comm
  · rw [if_pos (by omega)]
    simp [hva]

theorem Good.dropTable (h : Good L s) (p : Slot) :
    Good L { s with pt := update s.pt p fun _ => none } ∧
      abs { s with pt := update s.pt p fun _ => none } =
        (abs s).setTable p fun _ => none := by
  have href : ∀ x c w, (heap { s with pt := update s.pt p fun _ => none }).ref x =
      some (c, w) → (heap s).ref x = some (c, w) := by
    intro x c w hx
    cases x with
    | inl qu =>
      by_cases hq : qu.1 = p
      · simp [heap, hq] at hx
      · simpa [heap, hq] using hx
    | inr handle => exact hx
  refine ⟨⟨h.kmem, ?_, ?_, ?_⟩, ?_⟩
  · intro x pa hx
    obtain ⟨w, hw⟩ := hx
    exact h.page x pa ⟨w, href x pa w hw⟩
  · apply h.cells.mono href
    exact fun _ _ _ => Int.le_refl _
  · intro q u e he
    obtain rfl | hq := eq_or_ne q p
    · simp at he
    · simp only [update_of_ne hq] at he
      exact h.marked q u e he
  · simp only [abs, Spaces.setTable, Spaces.mk.injEq, and_true]
    funext q
    obtain rfl | hq := eq_or_ne q p
    · simp
    · simp only [update_of_ne hq]

theorem Good.exit (h : Good L s) (hs : Vm.exit L id s p = some s') :
    Good L s' ∧ abs s' = (abs s).kill p := by
  obtain ⟨s1, hs1, rfl⟩ := map_eq_some_iff.mp hs
  obtain ⟨h1, habs1⟩ := h.uvmunmap _ _ _ _ hs1
  obtain ⟨h2, habs2⟩ := h1.dropTable p
  refine ⟨{ h2 with }, ?_⟩
  have hsz : s1.sz = s.sz := congrArg Spaces.sz habs1
  have hlive : s1.live = s.live := congrArg Spaces.live habs1
  have hpages := congrArg Spaces.pages habs2
  rw [habs1, Spaces.unmap, Spaces.setTable_setTable] at hpages
  simp only [Spaces.kill, Spaces.setTable, abs, hsz, hlive, Spaces.mk.injEq, and_true] at hpages ⊢
  exact hpages

theorem Good.fork (h : Good L s) {np : Slot} {fail : Option Nat} {o : Outcome} (hne : p ≠ np)
    (hnp : ∀ u, (abs s).pages np u = none) (hs : Vm.fork L id s p np fail = some (s', o)) :
    Good L s' ∧ eagerStep (abs s) (.fork id p np fail, o) = some (abs s') := by
  unfold Vm.fork at hs
  cases hc : Vm.uvmcopy L fail p np (pgroundup (s.sz p) / PGSIZE) 0 s with
  | none =>
    rw [hc] at hs
    simp at hs
  | some sr =>
    obtain ⟨s1, r⟩ := sr
    rw [hc] at hs
    obtain ⟨h1, m, habs1, hnone, hsome⟩ := Good.uvmcopy hne _ 0 s s1 r h (fun u _ => hnp u) hc
    cases r with
    | none =>
      cases hs
      rw [hnone rfl] at habs1
      have habs2 := congrArg (fun a : Spaces => some { a with
        sz := update a.sz np (a.sz p), live := update a.live np true }) habs1.symm
      exact ⟨{ h1 with cells := ⟨h1.cells.counted, h1.cells.sole⟩ }, habs2⟩
    | some w =>
      obtain ⟨s2, hs2, heq⟩ := map_eq_some_iff.mp hs
      obtain ⟨rfl, rfl⟩ := Prod.mk.inj heq
      obtain ⟨h2, habs2⟩ := h1.uvmunmap _ _ _ _ hs2
      refine ⟨h2, congrArg some ?_⟩
      -- what the child had got is unmapped again
      rw [habs2, habs1, hsome w rfl]
      simp only [Spaces.unmap, Spaces.copy, Spaces.setTable_setTable, Spaces.setTable_pages_self]
      symm
      apply Spaces.setTable_eq_self
      funext u
      rw [hnp u]
      split
      · rfl
      · rw [if_neg (by omega)]

theorem Good.store (h : Good L s) {b : UInt8} {o : Outcome}
    (hs : Vm.store L id s p va b = some (s', o)) :
    Good L s' ∧ eagerStep (abs s) (.store id p va b, o) = some (abs s') := by
  have hfit : va % PGSIZE + [b].length ≤ PGSIZE := by
    simp only [PGSIZE, length_cons, length_nil]
    omega
  unfold Vm.store at hs
  cases he : walk s p va with
  | none =>
    rw [he] at hs
    simp at hs
  | some e =>
    obtain ⟨_, hpt⟩ := walk_some he
    rw [he] at hs
    simp only at hs
    by_cases hwu : e.flags.w = true ∧ e.flags.u = true
    · rw [if_pos hwu] at hs
      cases hs
      obtain ⟨hgood, habs⟩ := h.writePage hpt hwu.1 hfit
      have hw : (abs s).writable p va = true :=
        (writable_iff s p va).mpr ⟨e, he, hwu.2, .inl hwu.1⟩
      refine ⟨hgood, ?_⟩
      simp only [eagerStep, hw, habs, if_true]
    · rw [if_neg hwu] at hs
      by_cases hf : e.flags.f = true
      · rw [if_pos (by simp [cowpage, he, hf])] at hs
        by_cases hsz : va ≥ s.sz p
        · rw [if_pos hsz] at hs
          obtain ⟨s1, hs1, heq⟩ := map_eq_some_iff.mp hs
          obtain ⟨rfl, rfl⟩ := Prod.mk.inj heq
          obtain ⟨hgood, habs⟩ := h.exit hs1
          refine ⟨hgood, ?_⟩
          have hlt : ¬ va < (abs s).sz p := not_lt.mpr hsz
          simp only [eagerStep, hlt, and_false, if_false, habs]
        · rw [if_neg hsz] at hs
          cases hc : Vm.cowalloc L id s p (pgrounddown va) with
          | none =>
            rw [hc] at hs
            simp at hs
          | some sr =>
            obtain ⟨s1, r⟩ := sr
            obtain ⟨h1, habs1, hr⟩ :=
              h.cowalloc ((walk_pgrounddown s p va).trans he) hf hc
            rw [hc] at hs
            cases r with
            | some pa =>
              cases hs
              obtain ⟨hu, hpt1⟩ := hr pa rfl
              rw [pgrounddown_div] at hpt1
              obtain ⟨hgood, habs⟩ := h1.writePage hpt1 rfl hfit
              have hw : (abs s).writable p va = true :=
                (writable_iff s p va).mpr ⟨e, he, hu, .inr hf⟩
              refine ⟨hgood, ?_⟩
              rw [habs1] at habs
              simp only [eagerStep, hw, habs, if_true]
            | none =>
              obtain ⟨s2, hs2, heq⟩ := map_eq_some_iff.mp hs
              obtain ⟨rfl, rfl⟩ := Prod.mk.inj heq
              obtain ⟨hgood, habs⟩ := h1.exit hs2
              rw [habs1] at habs
              refine ⟨hgood, ?_⟩
              cases hu : e.flags.u with
              | true => simp only [eagerStep, habs, if_true]
              | false =>
                have hw : ¬ (abs s).writable p va = true := by
                  rw [writable_iff, he]
                  simp [hu]
                simp only [eagerStep, habs, hw, Bool.false_eq_true, if_false, false_and]
      · rw [if_neg (by simp [cowpage, he, hf])] at hs
        simp at hs

theorem Good.target (h : Good L s) {r : Option Nat}
    (hmay : ∀ e, walk s p va = some e → e.flags.u = true → e.flags.w = true ∨ e.flags.f = true)
    (hs : (if cowpage s p (pgrounddown va) then Vm.cowalloc L id s p (pgrounddown va)
      else some (s, walkaddr s p (pgrounddown va))) = some (s', r)) : Good L s' ∧ abs s' = abs s ∧
      (∀ pa, r = some pa → (abs s).writable p va = true ∧
        ∃ fl : Flags, fl.w = true ∧ s'.pt p (va / PGSIZE) = some ⟨pa, fl⟩) := by
  unfold cowpage walkaddr at hs
  rw [walk_pgrounddown] at hs
  cases he : walk s p va with
  | none =>
    rw [he] at hs
    cases hs
    exact ⟨h, rfl, fun _ hpa => by simp at hpa⟩
  | some e =>
    obtain ⟨_, hpt⟩ := walk_some he
    rw [he] at hs
    simp only at hs
    by_cases hf : e.flags.f = true
    · rw [if_pos hf] at hs
      obtain ⟨h1, habs1, hr⟩ := h.cowalloc ((walk_pgrounddown s p va).trans he) hf hs
      refine ⟨h1, habs1, fun pa hpa => ?_⟩
      obtain ⟨hu, hpt1⟩ := hr pa hpa
      rw [pgrounddown_div] at hpt1
      exact ⟨(writable_iff s p va).mpr ⟨e, he, hu, .inr hf⟩, e.flags.taken, rfl, hpt1⟩
    rw [if_neg hf] at hs
    cases hs
    refine ⟨h, rfl, fun pa hpa => ?_⟩
    obtain ⟨hu, ⟨⟩⟩ := ite_none_right_eq_some.mp hpa
    have hw := (hmay e he hu).resolve_right hf
    exact ⟨(writable_iff s p va).mpr ⟨e, he, hu, .inl hw⟩, e.flags, hw, hpt⟩

theorem writable_same_page {a : Spaces} {vb : Nat} (h : va / PGSIZE = vb / PGSIZE) :
    a.writable p va = a.writable p vb := by
  have hiff : va < MAXVA ↔ vb < MAXVA := by
    simp only [PGSIZE] at h
    simp only [MAXVA]
    omega
  simp only [Spaces.writable, hiff, h]

theorem writable_write (a : Spaces) (vb : Nat) (data : List UInt8) :
    (a.write p vb data).writable p va = a.writable p va := by
  simp only [Spaces.writable, Spaces.write, Spaces.setTable_pages_self]
  cases a.pages p (va / PGSIZE) with
  | none => rfl
  | some g => rfl

theorem copyout_nil (fuel : Nat) (copied : Nat) :
    Vm.copyout L id p fuel s va [] copied = some (s, .ok) := by
  cases fuel with
  | zero => rfl
  | succ fuel => rfl

def Spaces.MayWrite (a : Spaces) (p : Slot) (va n : Nat) : Prop :=
  ∀ i < n, ∀ g, a.pages p ((va + i) / PGSIZE) = some g → g.flags.u = true → g.flags.w = true

/-- So many bytes of `data` are written where the process may write; a fault is where not. -/
def Copied (a : Spaces) (p : Slot) (va : Nat) (data : List UInt8) (copied : Nat) (o : Outcome)
    (a' : Spaces) : Prop :=
  ∃ n ≤ data.length, a' = a.write p va (data.take n) ∧
    (∀ i < n, a.writable p (va + i) = true) ∧
    (o = .ok ∧ n = data.length ∨ o = .oom (copied + n) ∨
      o = .fault (copied + n) ∧ a.writable p (va + n) = false)

section Copied
variable {a a' : Spaces} {data : List UInt8} {n copied : Nat} {o : Outcome}

theorem Spaces.MayWrite.rest (h : a.MayWrite p va data.length) (hn : n ≤ data.length)
    (d : List UInt8) : (a.write p va d).MayWrite p (va + n) (data.drop n).length := by
  intro i hi g hg hu
  rw [Spaces.write, Spaces.setTable_pages_self] at hg
  obtain ⟨g', hg', rfl⟩ := map_eq_some_iff.mp hg
  rw [length_drop] at hi
  rw [add_assoc] at hg'
  exact h (n + i) (by omega) g' hg' hu

theorem Spaces.MayWrite.walk {s : State} (h : (abs s).MayWrite p va data.length)
    (hpos : 0 < data.length) (e : Pte) (he : Vm.walk s p va = some e) (hu : e.flags.u = true) :
    e.flags.w = true ∨ e.flags.f = true := by
  have hw := h 0 hpos ⟨e.flags.own, s.kmem.mem e.pa⟩ (by simp [abs, (walk_some he).2]) hu
  simpa [Flags.own] using hw

theorem Copied.start (h : o = .ok ∧ data.length = 0 ∨ o = .oom copied ∨
    o = .fault copied ∧ a.writable p va = false) : Copied a p va data copied o a := by
  refine ⟨0, zero_le, ?_, fun i hi => by omega, ?_⟩
  · rw [take_zero, Spaces.write_nil]
  · rcases h with ⟨ho, hlen⟩ | h
    · exact .inl ⟨ho, hlen.symm⟩
    · exact .inr h

theorem Copied.chunk (hn : n ≤ data.length) (hwr : ∀ i < n, a.writable p (va + i) = true)
    (h : Copied (a.write p va (data.take n)) p (va + n) (data.drop n) (copied + n) o a') :
    Copied a p va data copied o a' := by
  obtain ⟨m, hm, rfl, hwm, ho⟩ := h
  simp only [writable_write, length_drop] at hm hwm ho
  refine ⟨n + m, by omega, ?_, ?_, ?_⟩
  · have hlen : (data.take n).length = n := by
      rw [length_take]
      omega
    have happ := Spaces.write_append a p va (data.take n) ((data.drop n).take m)
    rw [hlen] at happ
    rw [happ, take_add]
  · intro i hi
    by_cases hin : i < n
    · exact hwr i hin
    · have := hwm (i - n) (by omega)
      rwa [add_assoc, Nat.add_sub_cancel' (by omega)] at this
  · simp only [add_assoc] at ho
    rcases ho with ⟨ho, hlen⟩ | ho
    · exact .inl ⟨ho, by omega⟩
    · exact .inr ho

theorem Copied.nil : Copied a p va [] copied .ok a := Copied.start (.inl ⟨rfl, rfl⟩)

end Copied

theorem chunk_arith {len n : Nat} (hn : min (PGSIZE - (va - pgrounddown va)) len = n) :
    n ≤ len ∧ va % PGSIZE + n ≤ PGSIZE ∧ (∀ i < n, (va + i) / PGSIZE = va / PGSIZE) ∧
      (n = len ∨ pgrounddown va + PGSIZE = va + n) := by
  simp only [pgrounddown, PGSIZE] at hn ⊢
  refine ⟨by omega, by omega, ?_, by omega⟩
  intro i hi
  omega

theorem Good.copyout (fuel : Nat) : ∀ (s s' : State) (va : Nat) (data : List UInt8) (copied : Nat)
    (o : Outcome), Good L s → (abs s).MayWrite p va data.length →
    Vm.copyout L id p fuel s va data copied = some (s', o) →
    Good L s' ∧ Copied (abs s) p va data copied o (abs s') := by
  induction fuel with
  | zero =>
    intro s s' va data copied o h _ hs
    cases data with
    | nil =>
      rw [copyout_nil] at hs
      cases hs
      exact ⟨h, Copied.nil⟩
    | cons b data => simp [Vm.copyout] at hs
  | succ fuel ih =>
    intro s s' va data copied o h hmay hs
    cases data with
    | nil =>
      rw [copyout_nil] at hs
      cases hs
      exact ⟨h, Copied.nil⟩
    | cons b data =>
      have hpos : 0 < (b :: data).length := by simp
      rw [Vm.copyout] at hs
      simp only at hs
      generalize b :: data = data at hs hmay hpos ⊢
      split at hs
      · simp at hs
      · rename_i s1 ht
        obtain ⟨h1, habs1, _⟩ := h.target (hmay.walk hpos) ht
        cases hs
        refine ⟨h1, ?_⟩
        rw [habs1]
        apply Copied.start
        split
        · exact .inr (.inl rfl)
        · rename_i hwa
          refine .inr (.inr ⟨rfl, ?_⟩)
          rw [Bool.eq_false_iff, ne_eq, writable_iff]
          intro ⟨e, he, hu, _⟩
          simp [walkaddr, walk_pgrounddown, he, hu] at hwa
      · rename_i s1 pa ht
        obtain ⟨h1, habs1, hr⟩ := h.target (hmay.walk hpos) ht
        obtain ⟨hwr, fl, hfl, hpt⟩ := hr pa rfl
        generalize hn : min (PGSIZE - (va - pgrounddown va)) data.length = n at hs
        obtain ⟨hnle, hfit, hpage, hnext⟩ := chunk_arith hn
        have htake : (data.take n).length = n := by
          rw [length_take]
          omega
        obtain ⟨h2, habs2⟩ := h1.writePage hpt hfl (by rw [htake]; exact hfit)
        rw [habs1] at habs2
        have hchunk : ∀ i < n, (abs s).writable p (va + i) = true := by
          intro i hi
          rw [writable_same_page (hpage i hi)]
          exact hwr
        rcases hnext with hlast | hnext
        · have hdrop : data.drop n = [] := drop_eq_nil_iff.mpr (by omega)
          rw [hdrop, copyout_nil] at hs
          cases hs
          refine ⟨h2, Copied.chunk hnle hchunk ?_⟩
          rw [hdrop, habs2]
          exact Copied.nil
        rw [hnext] at hs
        have hmay2 := hmay.rest hnle (data.take n)
        rw [← habs2] at hmay2
        obtain ⟨hgood, hcopied⟩ := ih _ s' _ _ _ o h2 hmay2 hs
        rw [habs2] at hcopied
        exact ⟨hgood, Copied.chunk hnle hchunk hcopied⟩

theorem Good.shrink (h : Good L s) {newsz : Nat} (hs : Vm.shrink L id s p newsz = some s') :
    Good L s' ∧ eagerStep (abs s) (.shrink id p newsz, .ok) = some (abs s') := by
  obtain ⟨s1, hs1, rfl⟩ := map_eq_some_iff.mp hs
  obtain ⟨h1, habs1⟩ := h.uvmunmap _ _ _ _ hs1
  have habs2 := congrArg (fun a : Spaces => some { a with sz := update a.sz p newsz }) habs1.symm
  exact ⟨{ h1 with cells := ⟨h1.cells.counted, h1.cells.sole⟩ }, habs2⟩

theorem Good.touch (h : Good L s) (p : Slot) (v : Nat) (content : Nat → UInt8) {mem : Nat}
    {k : Kmem} {fl : Flags} (hf : fl.f = false) (hk : Kalloc.kalloc s.kmem id = (k, some mem)) :
    Good L { s.setPte p v (some ⟨mem, fl⟩) with kmem := setPage k mem content } ∧
      abs { s.setPte p v (some ⟨mem, fl⟩) with kmem := setPage k mem content } =
        (abs s).setPage p v (some ⟨fl.own, content⟩) := by
  obtain ⟨h1, habs1, hpage, hone, hnone⟩ := h.kalloc hk content
  obtain ⟨hgood, habs⟩ := h1.map (p := p) (v := v) fl hpage hone hnone fun _ => hf
  rw [habs1] at habs
  refine ⟨hgood, habs.trans ?_⟩
  simp [setPage]

theorem heap_setKernel (s : State) (k : Kmem) (handle : Nat) (r : Option Nat) :
    (heap { s with kmem := k, kernel := update s.kernel handle r }).ref =
      update (heap s).ref (.inr handle) (r.map fun pa => (pa, false)) := by
  funext x
  cases x with
  | inl qu => rfl
  | inr j =>
    obtain rfl | hj := eq_or_ne j handle
    · simp [heap]
    · simp [heap, hj]

theorem Good.kernelAlloc (h : Good L s) (handle : Nat) {pa : Nat} {k : Kmem}
    (hk : Kalloc.kalloc s.kmem id = (k, some pa)) :
    Good L { s with kmem := k, kernel := update s.kernel handle (some pa) } ∧
      abs { s with kmem := k, kernel := update s.kernel handle (some pa) } = abs s := by
  obtain ⟨lists, hinv⟩ := h.kmem
  obtain ⟨hinv', hpage, hzero, hone, hkeep, hmem⟩ := hinv.kalloc_some hk
  have hnone : ∀ x, ¬ Points (heap s) x pa := fun x => h.cells.not_points (le_of_eq hzero)
  refine ⟨⟨hinv', ?_, ?_, h.marked⟩, ?_⟩
  · intro x pb hx
    by_cases hxh : x = .inr handle
    · subst hxh
      obtain ⟨w, hw⟩ := hx
      rw [heap_setKernel, update_self] at hw
      cases hw
      exact hpage
    · exact h.page x pb ((points_update (heap_setKernel s k handle (some pa)) hxh).mp hx)
  · apply h.cells.fresh hnone (heap_setKernel s k handle (some pa))
    · exact le_of_eq hone.symm
    · intro d z hd hz
      exact le_of_eq (hkeep d (h.page z d hz) hd).symm
  · have hcontent : ∀ q u e, s.pt q u = some e → k.mem e.pa = s.kmem.mem e.pa := by
      intro q u e he
      apply hmem
      intro hpa
      exact hnone _ (hpa ▸ points_of_pte he)
    exact abs_kmem hcontent

theorem Good.kernelFree (h : Good L s) {handle pa : Nat} {k : Kmem}
    (hh : s.kernel handle = some pa) (hk : Kalloc.kfree L s.kmem id pa = some k) :
    Good L { s with kmem := k, kernel := update s.kernel handle none } ∧
      abs { s with kmem := k, kernel := update s.kernel handle none } = abs s := by
  have href : (heap s).ref (.inr handle) = some (pa, false) := by
    simp [heap, hh]
  obtain ⟨lists, hinv⟩ := h.kmem
  obtain ⟨hinv', hdrop, hkeep, hmem⟩ :=
    hinv.kfree_some (h.page _ _ ⟨false, href⟩) (h.cells.pos ⟨false, href⟩) hk
  refine ⟨⟨hinv', ?_, ?_, h.marked⟩, ?_⟩
  · intro x pb hx
    by_cases hxh : x = .inr handle
    · subst hxh
      obtain ⟨w, hw⟩ := hx
      rw [heap_setKernel, update_self] at hw
      simp at hw
    · exact h.page x pb ((points_update (heap_setKernel s k handle none) hxh).mp hx)
  · apply h.cells.drop href (heap_setKernel s k handle none)
    · exact le_of_eq hdrop.symm
    · intro d z hd hz
      exact le_of_eq (hkeep d (h.page z d hz) hd).symm
  · have hcontent : ∀ q u e, s.pt q u = some e → k.mem e.pa = s.kmem.mem e.pa := by
      intro q u e he
      apply hmem
      by_cases hpa : e.pa = pa
      · right
        exact h.cells.two (x := .inr handle) ⟨false, href⟩ (hpa ▸ points_of_pte he) (by simp)
      · exact .inl hpa
    exact abs_kmem hcontent

def Spaces.Tidy (a : Spaces) : Prop := ∀ p, a.live p = false → ∀ v, a.pages p v = none

theorem exec_eager {op : Op} {o : Outcome} (h : Good L s) (htidy : (abs s).Tidy)
    (hs : exec L s op = some (s', o)) : Good L s' ∧ eagerStep (abs s) (op, o) = some (abs s') := by
  cases op with
  | grow p n =>
    cases of_guard hs
    exact ⟨⟨h.kmem, h.page, ⟨h.cells.counted, h.cells.sole⟩, h.marked⟩, rfl⟩
  | touch id p v flags content =>
    obtain ⟨⟨hlive, _, _, _, hf⟩, hs⟩ := ite_none_right_eq_some.mp hs
    cases hk : Kalloc.kalloc s.kmem id with
    | mk k found =>
      rw [hk] at hs
      cases found with
      | none =>
        cases hs
        exact ⟨h, rfl⟩
      | some mem =>
        cases hs
        obtain ⟨hgood, habs⟩ := h.touch p v content (by simpa using hf) hk
        exact ⟨hgood, (if_pos hlive).trans (congrArg some habs.symm)⟩
  | fork id p np fail =>
    obtain ⟨hg, hs⟩ := ite_none_right_eq_some.mp hs
    have hne : p ≠ np := by
      intro heq
      exact hg.2 (heq ▸ hg.1)
    exact h.fork hne (htidy np (Bool.eq_false_iff.mpr hg.2)) hs
  | store id p va b => exact h.store (of_guard hs)
  | copyout id p va data =>
    obtain ⟨hg, hs⟩ := ite_none_right_eq_some.mp hs
    have hmay : (abs s).MayWrite p va data.length := by
      intro i hi g hg' hu
      obtain ⟨e, he, rfl⟩ := map_eq_some_iff.mp hg'
      have hmay := of_decide_eq_true hg.2 i hi e he hu
      simpa [Flags.own] using hmay
    obtain ⟨hgood, n, hn, habs, hwr, ho⟩ := Good.copyout _ s s' va data 0 o h hmay hs
    refine ⟨hgood, ?_⟩
    rcases ho with ⟨rfl, rfl⟩ | rfl | ⟨rfl, hw⟩
    · rw [take_length] at habs
      exact (if_pos hwr).trans (congrArg some habs.symm)
    · simp only [eagerStep, zero_add, habs]
    · simp only [eagerStep, zero_add, habs, hw, Bool.false_eq_true, if_false]
  | shrink id p newsz =>
    obtain ⟨s1, hs1, heq⟩ := map_eq_some_iff.mp (of_guard hs)
    cases heq
    exact h.shrink hs1
  | exit id p =>
    obtain ⟨s1, hs1, heq⟩ := map_eq_some_iff.mp (of_guard hs)
    cases heq
    obtain ⟨hgood, habs⟩ := h.exit hs1
    exact ⟨hgood, congrArg some habs.symm⟩
  | kalloc id handle =>
    simp only [exec] at hs
    cases hk : Kalloc.kalloc s.kmem id with
    | mk k found =>
      cases hh : s.kernel handle with
      | some _ =>
        rw [hh] at hs
        cases hs
      | none =>
        rw [hh, hk] at hs
        cases found with
        | none =>
          cases hs
          exact ⟨h, rfl⟩
        | some pa =>
          cases hs
          obtain ⟨hgood, habs⟩ := h.kernelAlloc handle hk
          exact ⟨hgood, congrArg some habs.symm⟩
  | kfree id handle =>
    simp only [exec] at hs
    cases hh : s.kernel handle with
    | none =>
      rw [hh] at hs
      cases hs
    | some pa =>
      rw [hh] at hs
      obtain ⟨k, hk, heq⟩ := map_eq_some_iff.mp hs
      cases heq
      obtain ⟨hgood, habs⟩ := h.kernelFree hh hk
      exact ⟨hgood, congrArg some habs.symm⟩

end Operations

/-- The process whose memory an operation changes; `fork` changes the child's. -/
def Op.target : Op → Option Slot
  | .grow p _ | .touch _ p _ _ _ | .fork _ _ p _ | .store _ p _ _ | .copyout _ p _ _
  | .shrink _ p _ | .exit _ p => some p
  | .kalloc .. | .kfree .. => none

section Eager
variable {a a' : Spaces} {op : Op} {o : Outcome} {p q : Slot}

structure Changes (a a' : Spaces) (p : Slot) (t : Nat → Option Page) (l : Bool) : Prop where
  pages : a'.pages = update a.pages p t
  live : a'.live = update a.live p l
  tidy : a.Tidy → l = false → ∀ v, t v = none

theorem changes_setTable {t : Nat → Option Page} (hpages : a'.pages = (a.setTable p t).pages)
    (hlive : a'.live = a.live) (ht : a.live p = true ∨ ∀ v, a.pages p v = none → t v = none) :
    Changes a a' p t (a.live p) := by
  refine ⟨hpages, ?_, ?_⟩
  · rw [hlive, update_eq_self]
  · intro htidy hl v
    rcases ht with hlive | ht
    · rw [hl] at hlive
      simp at hlive
    · exact ht v (htidy p hl v)

theorem changes_write (va : Nat) (data : List UInt8) :
    ∃ t l, Changes a (a.write p va data) p t l := by
  refine ⟨_, _, changes_setTable rfl rfl (.inr ?_)⟩
  intro v hv
  rw [hv]
  rfl

theorem changes_kill : ∃ t l, Changes a (a.kill p) p t l :=
  ⟨fun _ => none, false, rfl, rfl, fun _ _ _ => rfl⟩

section
variable (h : eagerStep a (op, o) = some a')
include h

theorem eagerStep_changes :
    a'.pages = a.pages ∧ a'.live = a.live ∨
      ∃ p, op.target = some p ∧ ∃ t l, Changes a a' p t l := by
  cases op with
  | grow p n | kfree id handle =>
    cases o <;> simp only [eagerStep, reduceCtorEq, some.injEq] at h
    subst h
    exact .inl ⟨rfl, rfl⟩
  | touch id p v flags content =>
    cases o <;> simp only [eagerStep, reduceCtorEq, some.injEq] at h
    · obtain ⟨hlive, ⟨⟩⟩ := ite_none_right_eq_some.mp h
      exact .inr ⟨p, rfl, _, _, changes_setTable rfl rfl (.inl hlive)⟩
    · subst h
      exact .inl ⟨rfl, rfl⟩
  | fork id p np fail =>
    cases o <;> simp only [eagerStep, reduceCtorEq, some.injEq] at h
    · subst h
      exact .inr ⟨np, rfl, _, true, rfl, rfl, fun _ hl => by simp at hl⟩
    · subst h
      exact .inl ⟨rfl, rfl⟩
  | store id p va b =>
    cases o <;> simp only [eagerStep, some.injEq] at h
    · split at h
      · cases h
        exact .inr ⟨p, rfl, changes_write va [b]⟩
      · simp at h
    · subst h
      exact .inr ⟨p, rfl, changes_kill⟩
    split at h
    · simp at h
    · cases h
      exact .inr ⟨p, rfl, changes_kill⟩
  | copyout id p va data =>
    cases o <;> simp only [eagerStep, some.injEq] at h
    · split at h
      · cases h
        exact .inr ⟨p, rfl, changes_write va data⟩
      · simp at h
    · subst h
      exact .inr ⟨p, rfl, changes_write va _⟩
    split at h
    · simp at h
    · cases h
      exact .inr ⟨p, rfl, changes_write va _⟩
  | shrink id p newsz =>
    cases o <;> simp only [eagerStep, reduceCtorEq, some.injEq] at h
    subst h
    refine .inr ⟨p, rfl, _, _, changes_setTable rfl rfl (.inr ?_)⟩
    intro v hv
    split
    · rfl
    · exact hv
  | exit id p =>
    cases o <;> simp only [eagerStep, reduceCtorEq, some.injEq] at h
    subst h
    exact .inr ⟨p, rfl, changes_kill⟩
  | kalloc id handle =>
    cases o <;> simp only [eagerStep, reduceCtorEq, some.injEq] at h
    all_goals subst h; exact .inl ⟨rfl, rfl⟩

theorem eagerStep_tidy (htidy : a.Tidy) : a'.Tidy := by
  rcases eagerStep_changes h with ⟨hpages, hlive⟩ | ⟨p, _, t, l, hc⟩
  · intro q hq v
    rw [hlive] at hq
    rw [hpages]
    exact htidy q hq v
  intro q hq v
  rw [hc.live] at hq
  rw [hc.pages]
  obtain rfl | hqp := eq_or_ne q p
  · rw [update_self] at hq ⊢
    exact hc.tidy htidy hq v
  · rw [update_of_ne hqp] at hq ⊢
    exact htidy q hq v

theorem eagerStep_frame (hq : op.target ≠ some q) :
    a'.pages q = a.pages q := by
  rcases eagerStep_changes h with ⟨hpages, _⟩ | ⟨p, hp, t, l, hc⟩
  · rw [hpages]
  have hne : q ≠ p := by
    intro hqp
    exact hq (hqp ▸ hp)
  rw [hc.pages, update_of_ne hne]

end

end Eager

/-! ## Running out of pages -/

section OutOfPages
variable {L : Layout} {s s' : State} {p : Slot} {id : Fin NCPU} {va : Nat}

def State.OutOfPages (s : State) : Prop := ∀ i, s.kmem.freelist i = none

theorem cowalloc_none (hs : Vm.cowalloc L id s p va = some (s', none)) :
    s' = s ∧ (walkaddr s p va = none ∨ s.OutOfPages) := by
  unfold Vm.cowalloc at hs
  unfold walkaddr
  cases he : walk s p va with
  | none =>
    rw [he] at hs
    exact ⟨(Prod.mk.inj (some.inj hs)).1.symm, .inl rfl⟩
  | some e =>
    rw [he] at hs
    simp only at hs ⊢
    split at hs
    · rename_i hu
      exact ⟨(Prod.mk.inj (some.inj hs)).1.symm, .inl (if_neg hu)⟩
    split at hs
    · simp at hs
    cases hk : Kalloc.kalloc s.kmem id with
    | mk k found =>
      rw [hk] at hs
      cases found with
      | none => exact ⟨(Prod.mk.inj (some.inj hs)).1.symm, .inr (kalloc_none hk)⟩
      | some mem =>
        obtain ⟨_, _, heq⟩ := map_eq_some_iff.mp hs
        simp at heq

theorem store_oom {b : UInt8} {n : Nat} (hs : Vm.store L id s p va b = some (s', .oom n)) :
    s.OutOfPages := by
  unfold Vm.store at hs
  cases he : walk s p va with
  | none =>
    rw [he] at hs
    simp at hs
  | some e =>
    rw [he] at hs
    simp only at hs
    split at hs
    · simp at hs
    split at hs
    · split at hs
      · obtain ⟨_, _, heq⟩ := map_eq_some_iff.mp hs
        simp at heq
      split at hs
      · simp at hs
      · simp at hs
      · rename_i s1 hc
        obtain ⟨s2, _, heq⟩ := map_eq_some_iff.mp hs
        have hu : e.flags.u = true := by
          by_contra hu
          simp [hu] at heq
        apply (cowalloc_none hc).2.resolve_left
        simp [walkaddr, walk_pgrounddown, he, hu]
    · simp at hs

theorem copyout_oom (fuel : Nat) : ∀ (s : State) (va : Nat) (data : List UInt8) (copied n : Nat),
    Vm.copyout L id p fuel s va data copied = some (s', .oom n) → s'.OutOfPages := by
  induction fuel with
  | zero =>
    intro s va data copied n hs
    cases data with
    | nil => simp [copyout_nil] at hs
    | cons b data => simp [Vm.copyout] at hs
  | succ fuel ih =>
    intro s va data copied n hs
    cases data with
    | nil => simp [copyout_nil] at hs
    | cons b data =>
      rw [Vm.copyout] at hs
      simp only at hs
      split at hs
      · simp at hs
      · rename_i s1 ht
        obtain ⟨rfl, ho⟩ := Prod.mk.inj (some.inj hs)
        have hw : (walkaddr s p (pgrounddown va)).isSome = true := by
          by_contra hw
          simp [hw] at ho
        split at ht
        · obtain ⟨rfl, hnone⟩ := cowalloc_none ht
          apply hnone.resolve_left
          intro hn
          simp [hn] at hw
        · have hn := (Prod.mk.inj (some.inj ht)).2
          simp [hn] at hw
      · exact ih _ _ _ _ _ hs

theorem uvmcopy_stops {np : Slot} {fail : Option Nat} {w : Nat} (n : Nat) : ∀ (v : Nat) (s : State),
    Vm.uvmcopy L fail p np n v s = some (s', some w) → fail = some w := by
  induction n with
  | zero =>
    intro v s hs
    simp [Vm.uvmcopy] at hs
  | succ n ih =>
    intro v s hs
    unfold Vm.uvmcopy at hs
    split at hs
    · exact ih (v + 1) s hs
    simp only at hs
    split at hs
    · rename_i hfail
      rw [hfail, (Prod.mk.inj (some.inj hs)).2]
    split at hs
    · simp at hs
    split at hs
    · simp at hs
    · exact ih (v + 1) _ hs

theorem exec_oom {op : Op} {n : Nat} (hs : exec L s op = some (s', .oom n)) :
    (∃ id p np v, op = .fork id p np (some v)) ∨ s.OutOfPages ∨ s'.OutOfPages := by
  cases op with
  | fork id p np fail =>
    have hs := of_guard hs
    rw [Vm.fork] at hs
    split at hs
    · cases hs
    · cases hs
    · rename_i w hc
      rw [uvmcopy_stops _ _ _ hc]
      exact .inl ⟨id, p, np, w, rfl⟩
  | touch id p v flags content =>
    have hs := of_guard hs
    split at hs
    · rename_i hk
      exact .inr (.inl (kalloc_none hk))
    · cases hs
  | kalloc id handle =>
    simp only [exec] at hs
    split at hs
    · cases hs
    · rename_i hk
      exact .inr (.inl (kalloc_none hk))
    · cases hs
  | store id p va b => exact .inr (.inl (store_oom (of_guard hs)))
  | copyout id p va data =>
    exact .inr (.inr (copyout_oom _ _ _ _ _ _ (of_guard hs)))
  | _ =>
    simp only [exec] at hs
    split at hs <;> simp at hs

end OutOfPages

/-! ## Runs -/

theorem step_eq {L : Layout} {s s' : State} {op : Op} {o : Outcome}
    (h : step L s (op, o) = some s') : exec L s op = some (s', o) := by
  unfold step at h
  cases he : exec L s op with
  | none =>
    rw [he] at h
    simp at h
  | some r =>
    rw [he] at h
    simp only at h
    obtain ⟨ho, ⟨⟩⟩ := ite_none_right_eq_some.mp h
    rw [← ho]

def Sim (L : Layout) (s : State) (a : Spaces) : Prop := Good L s ∧ a.Tidy ∧ a = abs s

theorem sim_step {L : Layout} (s : State) (a : Spaces) (l : Op × Outcome) (s' : State)
    (h : Sim L s a) (hs : step L s l = some s') : ∃ a', eagerStep a l = some a' ∧ Sim L s' a' := by
  obtain ⟨hgood, htidy, rfl⟩ := h
  obtain ⟨hgood', heager⟩ := exec_eager hgood htidy (step_eq hs)
  exact ⟨abs s', heager, hgood', eagerStep_tidy heager htidy, rfl⟩

theorem boot_sim {L : Layout} {mem : Nat → Nat → UInt8} {k : Kmem} (hk : kinit L mem = some k)
    (p : Slot) : Sim L (boot k p) (eagerBoot p) := by
  obtain ⟨k', lists, hk', hinv, _⟩ := kinit_inv L mem
  rw [hk] at hk'
  cases hk'
  have hnone : ∀ x pa, ¬ Points (heap (boot k p)) x pa := by
    intro x pa ⟨w, hw⟩
    cases x with
    | inl qu | inr handle => simp [heap, boot] at hw
  refine ⟨⟨⟨lists, hinv⟩, fun x pa hx => absurd hx (hnone x pa), ⟨?_, ?_⟩, ?_⟩, ?_, rfl⟩
  · intro c l hl _ hall
    obtain ⟨x, hx⟩ := exists_mem_of_ne_nil l hl
    exact absurd (hall x hx) (hnone x c)
  · intro x y c _ hy
    exact absurd hy (hnone y c)
  · intro q v e he
    simp [boot] at he
  · intro q _ v
    rfl

theorem readByte_abs (s : State) (p : Slot) (va : Nat) :
    readByte s p va = (abs s).readByte p va := by
  unfold readByte Spaces.readByte walk
  split
  · rfl
  · simp only [abs, Option.map_map]
    rfl

/-- Copy-on-write `fork` shows every process what an eager copy would show it.  Only the
process that an operation is of, or the child of a `fork`, can see a difference after it, and an
operation that the eager system would have completed fails only when no page is left. -/
theorem cow_fork_observes_eager_copy (L : Layout) (mem : Nat → Nat → UInt8) (k : Kmem)
    (hk : kinit L mem = some k) (init : Slot) (ls : List (Op × Outcome)) (s : State)
    (hrun : run (step L) (boot k init) ls = some s) :
    (∃ a, run eagerStep (eagerBoot init) ls = some a ∧ a.sz = s.sz ∧ a.live = s.live ∧
      ∀ p va, readByte s p va = a.readByte p va) ∧ ∀ op o s', step L s (op, o) = some s' →
      (∀ q, op.target ≠ some q → ∀ va, readByte s' q va = readByte s q va) ∧ ∀ n, o = .oom n →
        (∃ id p np v, op = .fork id p np (some v)) ∨ s.OutOfPages ∨ s'.OutOfPages := by
  obtain ⟨a, harun, hgood, htidy, rfl⟩ :=
    run_simulation sim_step ls (boot k init) s (eagerBoot init) (boot_sim hk init) hrun
  refine ⟨⟨abs s, harun, rfl, rfl, readByte_abs s⟩, ?_⟩
  intro op o s' hs
  have hexec := step_eq hs
  refine ⟨?_, fun n ho => exec_oom (ho ▸ hexec)⟩
  intro q hq va
  obtain ⟨_, heager⟩ := exec_eager hgood htidy hexec
  rw [readByte_abs, readByte_abs]
  unfold Spaces.readByte
  rw [eagerStep_frame heager hq]

def familyOps : List (Op × Outcome) :=
  [(.grow 0 4096, .ok), (.touch hart0 0 0 ⟨true, true, true, true, false⟩ fun _ => 7, .ok),
    (.fork hart0 0 1 none, .ok), (.store hart0 1 5 9, .ok), (.store hart0 0 5 8, .ok),
    (.fork hart0 1 2 none, .ok), (.copyout hart0 2 0 [1, 2], .oom 0), (.shrink hart0 1 1, .ok),
    (.exit hart0 0, .ok), (.copyout hart0 1 3 [4], .ok)]

theorem cow_fork_observes_eager_copy_family : ∃ k s a, kinit twoPages (fun _ _ => 0) = some k ∧
      run (step twoPages) (boot k 0) familyOps = some s ∧
      run eagerStep (eagerBoot 0) familyOps = some a ∧
      ((readByte s 1 5 = some 9 ∧ readByte s 1 3 = some 4) ∧ readByte s 2 3 = some 7) ∧
      ∀ p va, readByte s p va = a.readByte p va := by
  obtain ⟨k, lists, hk, _⟩ := kinit_inv twoPages fun _ _ => 0
  have hrun : ((kinit twoPages fun _ _ => 0).bind fun k =>
      run (step twoPages) (boot k 0) familyOps).map (fun s =>
        decide ((readByte s 1 5 = some 9 ∧ readByte s 1 3 = some 4) ∧ readByte s 2 3 = some 7)) =
      some true := by decide +kernel
  rw [hk, bind_some] at hrun
  obtain ⟨s, hs, hread⟩ := run_test _ _ _ _ hrun
  obtain ⟨⟨a, ha, _, _, hall⟩, _⟩ :=
    cow_fork_observes_eager_copy twoPages _ k hk 0 familyOps s hs
  exact ⟨k, s, a, hk, hs, ha, hread, hall⟩

end BirdOS.Vm
