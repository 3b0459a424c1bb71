import BirdOS.Mm.PageCount
import BirdOS.Mm.Space

/-! # What a page fault does

`Becomes` describes an operation of the kernel by the spaces that the processes see after
it, and `Only` one that changes nothing besides them and the flags `killed`.  A fault is
never refused by `mappages` unless the page is in use already (`Collides`). -/

namespace BirdOS.Space

open Kalloc Vm SharedCells Option
open Shm (proc0 throughInt)

structure Becomes (L : Layout) (s s' : Vm.State) (a : Spaces) : Prop where
  good : Good L s'
  abs_eq : Vm.abs s' = a
  counted : Counted L s → Counted L s'

variable {a : Spaces} {pa : Nat} {k : Kmem}

section Vm
variable {L : Layout} {id : Fin NCPU} {s s' : Vm.State} {p : Slot} {va : Nat} {flags : Flags}
  {content : Nat → UInt8} {table b : Bool}

theorem Becomes.refl (hg : Good L s) : Becomes L s s (Vm.abs s) := ⟨hg, rfl, fun h => h⟩

theorem Becomes.trans {s1 : Vm.State} {a1 : Spaces} (h : Becomes L s s1 a1)
    (h' : Becomes L s1 s' a) : Becomes L s s' a :=
  ⟨h'.good, h'.abs_eq, fun hc => h'.counted (h.counted hc)⟩

theorem Becomes.sz (h : Becomes L s s' a) : s'.sz = a.sz :=
  congrArg Spaces.sz h.abs_eq

theorem Becomes.live (h : Becomes L s s' a) : s'.live = a.live :=
  congrArg Spaces.live h.abs_eq

theorem pages_none (s : Vm.State) (q : Slot) (u : Nat) :
    (Vm.abs s).pages q u = none ↔ s.pt q u = none := by
  simp [Vm.abs]

/-- `mappages` finds the page in use, or the address is beyond those of the user. -/
def Taken (s : Vm.State) (p : Slot) (va : Nat) : Prop :=
  TRAPFRAME ≤ va ∨ (s.pt p (va / PGSIZE)).isSome

instance (s : Vm.State) (p : Slot) (va : Nat) : Decidable (Taken s p va) :=
  inferInstanceAs (Decidable (TRAPFRAME ≤ va ∨ (s.pt p (va / PGSIZE)).isSome))

theorem not_taken (h : ¬ Taken s p va) : va < TRAPFRAME ∧ s.pt p (va / PGSIZE) = none := by
  unfold Taken at h
  push Not at h
  refine ⟨h.1, ?_⟩
  simpa using h.2

theorem kfree_isPage (k : Kmem) (id : Fin NCPU) (h : IsPage L pa) :
    ∃ k', kfree L k id pa = some k' := by
  rw [kfree_eq L k id h]
  split <;> exact ⟨_, rfl⟩

def HasPage (s : Vm.State) (id : Fin NCPU) : Prop := (kalloc s.kmem id).2.isSome

instance (s : Vm.State) (id : Fin NCPU) : Decidable (HasPage s id) :=
  inferInstanceAs (Decidable ((kalloc s.kmem id).2.isSome = true))

theorem hasPage_cases (s : Vm.State) (id : Fin NCPU) :
    (HasPage s id ∧ ∃ k pa, kalloc s.kmem id = (k, some pa)) ∨
      (¬ HasPage s id ∧ ∃ k, kalloc s.kmem id = (k, none)) := by
  unfold HasPage
  cases hk : kalloc s.kmem id with
  | mk k found =>
    cases found with
    | none => exact .inr ⟨by simp, k, rfl⟩
    | some pa => exact .inl ⟨by simp, k, pa, rfl⟩

theorem hasPage_kfree {k' : Kmem} (hp : IsPage L pa) (hone : krefcnt k pa = 1)
    (hk : kfree L k id pa = some k') : HasPage { s with kmem := k' } id := by
  rw [kfree_eq L k id hp, if_pos hone] at hk
  cases hk
  simp [HasPage, kalloc, push]

theorem install_spec (hg : Good L s) (p : Slot) (va : Nat) (content : Nat → UInt8) (table : Bool)
    (hf : flags.f = false) (hk : Kalloc.kalloc s.kmem id = (k, some pa)) :
    (install L id s k pa p va flags content table = none ↔ Taken s p va) ∧
    ∀ s' b, install L id s k pa p va flags content table = some (s', b) →
      (b = true ∧ table = true ∧ ¬ Taken s p va ∧
        Becomes L s s' ((Vm.abs s).setPage p (va / PGSIZE) (some ⟨flags.own, content⟩))) ∨
      (b = false ∧ table = false ∧ HasPage s' id ∧ Becomes L s s' (Vm.abs s)) := by
  obtain ⟨-, -, hpage, hone, -⟩ := hg.kalloc hk content
  unfold Space.install mappages
  by_cases htaken : Taken s p va
  · rw [if_pos (show TRAPFRAME ≤ va ∨ _ from htaken)]
    exact ⟨iff_of_true rfl htaken, fun s' b h => by cases h⟩
  rw [if_neg (show ¬ (TRAPFRAME ≤ va ∨ _) from htaken)]
  cases table with
  | true =>
    refine ⟨iff_of_false (by simp) htaken, fun s' b h => .inl ?_⟩
    cases h
    obtain ⟨hgood, habs⟩ := hg.touch p (va / PGSIZE) content hf hk
    exact ⟨rfl, rfl, htaken, hgood, habs, fun hc => hc.touch hg (not_taken htaken).2 hk⟩
  | false =>
    obtain ⟨k', hk'⟩ := kfree_isPage (setPage k pa content) id hpage
    simp only [Bool.false_eq_true, if_false]
    rw [show kfree L (setPage k pa content) id pa = some k' from hk', map_some]
    refine ⟨iff_of_false (by simp) htaken, fun s' b h => .inr ?_⟩
    cases h
    obtain ⟨hgood, habs, hcounted⟩ := hg.giveBack hk hk'
    exact ⟨rfl, trivial, hasPage_kfree hpage (show krefcnt (setPage k pa content) pa =
      1 from hone) hk', hgood, habs, hcounted⟩

theorem mapZero_spec (hg : Good L s) (id : Fin NCPU) (p : Slot) (va : Nat) (table : Bool)
    (hf : flags.f = false) :
    (mapZero L id s p va flags table = none ↔ HasPage s id ∧ Taken s p va) ∧
    ∀ s' b, mapZero L id s p va flags table = some (s', b) →
      (b = true ∧ HasPage s id ∧ ¬ Taken s p va ∧
        Becomes L s s' ((Vm.abs s).setPage p (va / PGSIZE) (some ⟨flags.own, fun _ => 0⟩))) ∨
      (b = false ∧ (HasPage s id → table = false) ∧ Becomes L s s' (Vm.abs s)) := by
  unfold Space.mapZero
  rcases hasPage_cases s id with ⟨hhas, k, pa, hk⟩ | ⟨hno, k, hk⟩
  · simp only [hk]
    obtain ⟨hpanic, hsome⟩ := install_spec hg p va (fun _ => 0) table hf hk
    refine ⟨hpanic.trans (and_iff_right hhas).symm, fun s' b h => ?_⟩
    rcases hsome s' b h with ⟨hb, -, hfree, hbec⟩ | ⟨hb, ht, -, hbec⟩
    · exact .inl ⟨hb, hhas, hfree, hbec⟩
    · exact .inr ⟨hb, fun _ => ht, hbec⟩
  simp only [hk]
  refine ⟨iff_of_false (by simp) fun h => hno h.1, fun s' b h => .inr ?_⟩
  cases h
  exact ⟨rfl, fun h => absurd h hno, Becomes.refl hg⟩

end Vm

/-! ## Page faults -/

theorem trapframe_pgrounddown (va : Nat) : TRAPFRAME ≤ pgrounddown va ↔ TRAPFRAME ≤ va := by
  have htop : TRAPFRAME = 67108862 * 4096 := by norm_num [TRAPFRAME, MAXVA, PGSIZE]
  simp only [pgrounddown, htop, PGSIZE]
  omega

theorem taken_pgrounddown (s : Vm.State) (p : Slot) (va : Nat) :
    Taken s p (pgrounddown va) ↔ Taken s p va := by
  unfold Taken
  rw [trapframe_pgrounddown, pgrounddown_div]

def Serves (s : State) (p : Slot) (va : Nat) (cause : Cause) (i : Area) : Prop :=
  findVma (s.vma p) (throughInt va) = some i ∧
    (cause = .load → (s.vma p i).vfile.readable = true) ∧
    (cause = .store → (s.vma p i).vfile.writable = true)

def fileBytes (s : State) (p : Slot) (i : Area) (ip va : Nat) : List UInt8 :=
  readi (s.contents ip) (fileOffset (s.vma p i) (throughInt va)) PGSIZE

structure Only (L : Layout) (s s' : State) (a : Spaces) : Prop
    extends Becomes L s.toState s'.toState a where
  shm : s'.shm = s.shm
  vma : s'.vma = s.vma
  exited : s'.exited = s.exited
  contents : s'.contents = s.contents
  region : s'.region = s.region
  image : s'.image = s.image

/-- The page is installed, a marked page is made writable, or the process is killed. -/
def Handled (s s' : State) (p : Slot) (va : Nat) : Prop :=
  (∃ v g, s.pt p v = none ∧ Vm.abs s'.toState = (Vm.abs s.toState).setPage p v (some g)) ∨
  (Vm.abs s'.toState = Vm.abs s.toState ∧
    ((∃ pa fl, s'.pt p (va / PGSIZE) = some ⟨pa, fl⟩ ∧ fl.w = true ∧ fl.f = false) ∨
      s'.killed p = true))

section Fault
variable {L : Layout} {id : Fin NCPU} {s s' : State} {p : Slot} {sp va : Nat} {cause : Cause}
  {table b : Bool}

theorem Only.of_becomes {t : Vm.State} (h : Becomes L s.toState t a) :
    Only L s { s with toState := t } a :=
  ⟨h, rfl, rfl, rfl, rfl, rfl, rfl⟩

theorem Only.kill (h : Only L s s' a) (p : Slot) : Only L s (s'.kill p) a :=
  { h with }

theorem Only.trans {s1 : State} {a1 : Spaces} (h : Only L s s1 a1) (h' : Only L s1 s' a) :
    Only L s s' a :=
  ⟨h.toBecomes.trans h'.toBecomes, h'.shm.trans h.shm, h'.vma.trans h.vma, h'.exited.trans h.exited,
    h'.contents.trans h.contents, h'.region.trans h.region, h'.image.trans h.image⟩

theorem kill_killed (s : State) (p : Slot) : (s.kill p).killed p = true := by
  simp [State.kill]

theorem lazyMap_spec (hg : Good L s.toState) (id : Fin NCPU) (p : Slot) (va : Nat) (table : Bool) :
    (lazyMap L id s p va table = none ↔ HasPage s.toState id ∧ Taken s.toState p va) ∧
    ∀ s', lazyMap L id s p va table = some s' →
      (¬ Taken s.toState p va ∧ s'.killed = s.killed ∧ Only L s s'
        ((Vm.abs s.toState).setPage p (va / PGSIZE) (some ⟨rwxu.own, fun _ => 0⟩))) ∨
      (s'.killed p = true ∧ Only L s s' (Vm.abs s.toState)) := by
  obtain ⟨hpanic, hsome⟩ := mapZero_spec hg id p (pgrounddown va) table
    (show rwxu.f = false from rfl)
  rw [taken_pgrounddown] at hpanic hsome
  rw [pgrounddown_div] at hsome
  unfold lazyMap
  rw [map_eq_none_iff]
  refine ⟨hpanic, fun s' h => ?_⟩
  obtain ⟨⟨t, b⟩, hm, rfl⟩ := map_eq_some_iff.mp h
  rcases hsome t b hm with ⟨rfl, -, hfree, hbec⟩ | ⟨rfl, -, hbec⟩
  · exact .inl ⟨hfree, rfl, Only.of_becomes hbec⟩
  · exact .inr ⟨kill_killed _ p, (Only.of_becomes hbec).kill p⟩

theorem lazyPage_spec (hg : Good L s.toState) :
    (lazyPage L id s p sp va table = none ↔ aboveStack sp va ∧ (va < s.sz p ∨ va < s.shm p) ∧
      HasPage s.toState id ∧ Taken s.toState p va) ∧ ∀ s', lazyPage L id s p sp va table = some s' →
      (¬ Taken s.toState p va ∧ aboveStack sp va ∧ (va < s.sz p ∨ va < s.shm p) ∧
        s'.killed = s.killed ∧ Only L s s'
        ((Vm.abs s.toState).setPage p (va / PGSIZE) (some ⟨rwxu.own, fun _ => 0⟩))) ∨
      (s'.killed p = true ∧ Only L s s' (Vm.abs s.toState)) := by
  obtain ⟨hpanic, hsome⟩ := lazyMap_spec hg id p va table
  have hkill : ∀ s', some (s.kill p) = some s' →
      s'.killed p = true ∧ Only L s s' (Vm.abs s.toState) := by
    intro s' h
    cases h
    exact ⟨kill_killed s p, (Only.of_becomes (Becomes.refl hg)).kill p⟩
  unfold lazyPage
  by_cases hfirst : aboveStack sp va ∧ va < s.sz p ∧ HasPage s.toState id
  · rw [if_pos (show _ ∧ _ ∧ (kalloc s.kmem id).2.isSome = true from hfirst), hpanic]
    obtain ⟨habove, hsz, hhas⟩ := hfirst
    refine ⟨⟨fun h => ⟨habove, .inl hsz, h⟩, fun h => h.2.2⟩, fun s' h => ?_⟩
    exact (hsome s' h).imp_left fun hm => ⟨hm.1, habove, .inl hsz, hm.2⟩
  rw [if_neg (show ¬ (_ ∧ _ ∧ (kalloc s.kmem id).2.isSome = true) from hfirst)]
  by_cases hsecond : aboveStack sp va ∧ va < s.shm p ∧ HasPage s.toState id
  · rw [if_pos (show _ ∧ _ ∧ (kalloc s.kmem id).2.isSome = true from hsecond), hpanic]
    obtain ⟨habove, hshm, hhas⟩ := hsecond
    refine ⟨⟨fun h => ⟨habove, .inr hshm, h⟩, fun h => h.2.2⟩, fun s' h => ?_⟩
    exact (hsome s' h).imp_left fun hm => ⟨hm.1, habove, .inr hshm, hm.2⟩
  rw [if_neg (show ¬ (_ ∧ _ ∧ (kalloc s.kmem id).2.isSome = true) from hsecond)]
  refine ⟨iff_of_false (by simp) ?_, fun s' h => .inr (hkill s' h)⟩
  rintro ⟨habove, hsz | hshm, hhas, -⟩
  · exact hfirst ⟨habove, hsz, hhas⟩
  · exact hsecond ⟨habove, hshm, hhas⟩

theorem mmap_handler_miss (h : HasPage s.toState id → ∀ i, ¬ Serves s p va cause i) :
    mmap_handler L id s p va cause table = some (s, false) := by
  unfold mmap_handler
  cases hf : findVma (s.vma p) (throughInt va) with
  | none => simp only [hf]
  | some i =>
    simp only [hf]
    split
    · rfl
    · next hload =>
      split
      · rfl
      · next hstore =>
        have hserves : Serves s p va cause i := by
          refine ⟨hf, fun hc => ?_, fun hc => ?_⟩
          · by_contra hr
            exact hload ⟨hc, by simpa using hr⟩
          · by_contra hw
            exact hstore ⟨hc, by simpa using hw⟩
        rcases hasPage_cases s.toState id with ⟨hhas, -⟩ | ⟨-, k, hk⟩
        · exact absurd hserves (h hhas i)
        · rw [hk]

theorem mmap_handler_hit {i : Area} (h : Serves s p va cause i)
    (hk : kalloc s.kmem id = (k, some pa)) : mmap_handler L id s p va cause table =
      match (s.vma p i).vfile.ip with
      | none => none
      | some ip =>
        if fileBytes s p i ip va = [] then
          (kfree L (setPage k pa fun _ => 0) id pa).map fun k => ({ s with kmem := k }, false)
        else
          (install L id s.toState k pa p (pgrounddown (throughInt va)) (pteFlags (s.vma p i).prot)
            (fun off => (fileBytes s p i ip va).getD off 0) table).map
              fun r => ({ s with toState := r.1 }, r.2) := by
  obtain ⟨hf, hload, hstore⟩ := h
  unfold mmap_handler fileBytes
  simp only [hf, hk]
  rw [if_neg (fun hc => by rw [hload hc.1] at hc; exact Bool.noConfusion hc.2)]
  exact if_neg (fun hc => by rw [hstore hc.1] at hc; exact Bool.noConfusion hc.2)

theorem mmap_handler_none_iff (hg : Good L s.toState) :
    mmap_handler L id s p va cause table = none ↔ HasPage s.toState id ∧
      ∃ i, Serves s p va cause i ∧ ∀ ip, (s.vma p i).vfile.ip = some ip →
        fileBytes s p i ip va ≠ [] ∧ Taken s.toState p (throughInt va) := by
  by_cases hmiss : HasPage s.toState id → ∀ i, ¬ Serves s p va cause i
  · rw [mmap_handler_miss hmiss]
    refine iff_of_false (by simp) ?_
    rintro ⟨hhas, i, hserves, -⟩
    exact hmiss hhas i hserves
  push Not at hmiss
  obtain ⟨hhas, i, hserves⟩ := hmiss
  rcases hasPage_cases s.toState id with ⟨-, k, pa, hk⟩ | ⟨hno, -⟩
  · have hunique : ∀ j, Serves s p va cause j → j = i := by
      intro j hj
      have := hj.1.symm.trans hserves.1
      exact Option.some.inj this
    rw [mmap_handler_hit hserves hk]
    cases hip : (s.vma p i).vfile.ip with
    | none =>
      refine iff_of_true rfl ⟨hhas, i, hserves, fun ip h => ?_⟩
      rw [hip] at h
      cases h
    | some ip =>
      simp only
      obtain ⟨-, -, hpage, -⟩ := hg.kalloc hk fun _ => 0
      split
      · next hempty =>
        obtain ⟨k', hk'⟩ := kfree_isPage (setPage k pa fun _ => 0) id hpage
        rw [hk', map_some]
        refine iff_of_false (by simp) ?_
        rintro ⟨-, j, hj, hall⟩
        rw [hunique j hj] at hall
        exact (hall ip hip).1 hempty
      · next hbytes =>
        rw [map_eq_none_iff, (install_spec hg _ _ _ _ rfl hk).1, taken_pgrounddown]
        constructor
        · intro htaken
          refine ⟨hhas, i, hserves, fun ip' h => ?_⟩
          rw [hip] at h
          cases h
          exact ⟨hbytes, htaken⟩
        · rintro ⟨-, j, hj, hall⟩
          rw [hunique j hj] at hall
          exact (hall ip hip).2
  · exact absurd hhas hno

theorem mmap_handler_some (hg : Good L s.toState)
    (h : mmap_handler L id s p va cause table = some (s', b)) : s'.killed = s.killed ∧
      ((b = true ∧ table = true ∧ ¬ Taken s.toState p (throughInt va) ∧
        ∃ i ip, Serves s p va cause i ∧ (s.vma p i).vfile.ip = some ip ∧
          fileBytes s p i ip va ≠ [] ∧ Only L s s' ((Vm.abs s.toState).setPage p
            (throughInt va / PGSIZE) (some ⟨(pteFlags (s.vma p i).prot).own,
              fun off => (fileBytes s p i ip va).getD off 0⟩))) ∨
      (b = false ∧ (HasPage s'.toState id ↔ HasPage s.toState id) ∧
        (HasPage s.toState id → table = true → ∀ i ip, Serves s p va cause i →
          (s.vma p i).vfile.ip = some ip → fileBytes s p i ip va = []) ∧
        Only L s s' (Vm.abs s.toState))) := by
  by_cases hmiss : HasPage s.toState id → ∀ i, ¬ Serves s p va cause i
  · rw [mmap_handler_miss hmiss] at h
    cases h
    refine ⟨rfl, .inr ⟨rfl, Iff.rfl, ?_, Only.of_becomes (Becomes.refl hg)⟩⟩
    exact fun hhas _ i ip hserves => absurd hserves (hmiss hhas i)
  push Not at hmiss
  obtain ⟨hhas, i, hserves⟩ := hmiss
  rcases hasPage_cases s.toState id with ⟨-, k, pa, hk⟩ | ⟨hno, -⟩
  · have hunique : ∀ j, Serves s p va cause j → j = i := fun j hj =>
      Option.some.inj (hj.1.symm.trans hserves.1)
    obtain ⟨-, -, hpage, hone, -⟩ := hg.kalloc hk fun _ => 0
    rw [mmap_handler_hit hserves hk] at h
    cases hip : (s.vma p i).vfile.ip with
    | none =>
      rw [hip] at h
      cases h
    | some ip =>
      simp only [hip] at h
      split at h
      · next hempty =>
        obtain ⟨k', hk', heq⟩ := map_eq_some_iff.mp h
        cases heq
        obtain ⟨hgood, habs, hcounted⟩ := hg.giveBack hk hk'
        have hhas' : HasPage { s.toState with kmem := k' } id :=
          hasPage_kfree hpage (show krefcnt (setPage k pa fun _ => 0) pa = 1 from hone) hk'
        refine ⟨rfl, .inr ⟨rfl, iff_of_true hhas' hhas, ?_, ?_⟩⟩
        · intro _ _ j jp hj hjp
          rw [hunique j hj] at hjp ⊢
          rw [hip] at hjp
          cases hjp
          exact hempty
        · exact Only.of_becomes (t := { s.toState with kmem := k' }) ⟨hgood, habs, hcounted⟩
      · next hbytes =>
        obtain ⟨⟨t, c⟩, hinst, heq⟩ := map_eq_some_iff.mp h
        cases heq
        have hcases := (install_spec hg _ _ _ _ rfl hk).2 t c hinst
        rw [taken_pgrounddown, pgrounddown_div] at hcases
        rcases hcases with ⟨rfl, htable, hfree, hbec⟩ | ⟨rfl, htable, hhas', hbec⟩
        · exact ⟨rfl, .inl ⟨rfl, htable, hfree, i, ip, hserves, hip, hbytes, Only.of_becomes hbec⟩⟩
        refine ⟨rfl, .inr ⟨rfl, iff_of_true hhas' hhas, ?_, Only.of_becomes hbec⟩⟩
        intro _ htrue
        rw [htable] at htrue
        cases htrue
  · exact absurd hhas hno

theorem cowpage_entry {s : Vm.State} (h : cowpage s p va = true) :
    ∃ e, walk s p va = some e ∧ e.flags.f = true := by
  unfold cowpage at h
  cases he : walk s p va with
  | none =>
    rw [he] at h
    cases h
  | some e =>
    rw [he] at h
    exact ⟨e, rfl, h⟩

theorem cowalloc_isSome {s : Vm.State} (hg : Good L s) (id : Fin NCPU) (p : Slot) (va : Nat) :
    ∃ r, cowalloc L id s p va = some r := by
  unfold cowalloc
  cases he : walk s p va with
  | none => exact ⟨_, rfl⟩
  | some e =>
    simp only
    split
    · exact ⟨_, rfl⟩
    split
    · exact ⟨_, rfl⟩
    rcases hasPage_cases s id with ⟨-, k, pa, hk⟩ | ⟨-, k, hk⟩
    · rw [hk]
      simp only
      obtain ⟨k', hk'⟩ := kfree_isPage (L := L) (setPage k pa (k.mem e.pa)) id
        (hg.isPage (walk_some he).2)
      rw [hk']
      exact ⟨_, rfl⟩
    · rw [hk]
      exact ⟨_, rfl⟩

/-- A page is put over one in use, or a file without inode is asked for bytes. -/
def Collides (s : State) (id : Fin NCPU) (p : Slot) (sp va : Nat) (cause : Cause) : Prop :=
  cowpage s.toState p va = false ∧ aboveStack sp va ∧ HasPage s.toState id ∧
    ((va < s.sz p ∧ ∃ i, Serves s p va cause i ∧ ∀ ip, (s.vma p i).vfile.ip = some ip →
      fileBytes s p i ip va ≠ [] ∧ Taken s.toState p (throughInt va)) ∨
    ((va < s.sz p ∨ va < s.shm p) ∧ Taken s.toState p va))

theorem taken_congr {s t : Vm.State} (h : Vm.abs t = Vm.abs s) : Taken t p va ↔ Taken s p va := by
  have hnone : t.pt p (va / PGSIZE) = none ↔ s.pt p (va / PGSIZE) = none := by
    rw [← pages_none, h, pages_none]
  unfold Taken
  rw [← not_iff_not]
  simp [hnone]

section
variable (hg : Good L s.toState)
include hg

theorem usertrap_unmarked (hcow : cowpage s.toState p va = false)
    (h : usertrap L id s p sp va cause table = some s') :
    (∃ i ip, va < s.sz p ∧ Serves s p va cause i ∧ (s.vma p i).vfile.ip = some ip ∧
      fileBytes s p i ip va ≠ [] ∧ ¬ Taken s.toState p (throughInt va) ∧ s'.killed = s.killed ∧
      aboveStack sp va ∧ Only L s s' ((Vm.abs s.toState).setPage p (throughInt va / PGSIZE)
        (some ⟨(pteFlags (s.vma p i).prot).own, fun off => (fileBytes s p i ip va).getD off 0⟩))) ∨
    (¬ Taken s.toState p va ∧ aboveStack sp va ∧ (va < s.sz p ∨ va < s.shm p) ∧
      s'.killed = s.killed ∧ Only L s s'
        ((Vm.abs s.toState).setPage p (va / PGSIZE) (some ⟨rwxu.own, fun _ => 0⟩))) ∨
    (s'.killed p = true ∧ Only L s s' (Vm.abs s.toState)) := by
  unfold usertrap at h
  rw [hcow] at h
  simp only [Bool.false_eq_true, if_false] at h
  split at h
  · next hin =>
    cases hm : mmap_handler L id s p va cause table with
    | none =>
      rw [hm] at h
      cases h
    | some r =>
      obtain ⟨s1, b⟩ := r
      rw [hm] at h
      obtain ⟨hkilled, hcases⟩ := mmap_handler_some hg hm
      rcases hcases with ⟨rfl, -, hfree, i, ip, hserves, hip, hbytes, honly⟩ |
        ⟨rfl, -, -, honly⟩
      · cases h
        exact .inl ⟨i, ip, hin.2, hserves, hip, hbytes, hfree, hkilled, hin.1, honly⟩
      have hrest := (lazyPage_spec honly.good).2 s' h
      rw [taken_congr honly.abs_eq, honly.abs_eq, honly.sz, honly.shm, hkilled] at hrest
      refine .inr (hrest.imp ?_ ?_)
      · exact fun hm => ⟨hm.1, hm.2.1, hm.2.2.1, hm.2.2.2.1, honly.trans hm.2.2.2.2⟩
      · exact fun hm => ⟨hm.1, honly.trans hm.2⟩
  · exact .inr ((lazyPage_spec hg).2 s' h)

theorem usertrap_inside (hcow : cowpage s.toState p va = false)
    (habove : aboveStack sp va) (hlt : va < s.sz p) (hhas : HasPage s.toState id)
    (h : usertrap L id s p sp va cause true = some s') :
    (∃ i ip, Serves s p va cause i ∧ (s.vma p i).vfile.ip = some ip ∧ fileBytes s p i ip va ≠ [] ∧
      Only L s s' ((Vm.abs s.toState).setPage p (throughInt va / PGSIZE)
        (some ⟨(pteFlags (s.vma p i).prot).own, fun off => (fileBytes s p i ip va).getD off 0⟩))) ∨
    ((∀ i ip, Serves s p va cause i → (s.vma p i).vfile.ip = some ip → fileBytes s p i ip va = []) ∧
      Only L s s' ((Vm.abs s.toState).setPage p (va / PGSIZE) (some ⟨rwxu.own, fun _ => 0⟩))) := by
  unfold usertrap at h
  rw [hcow, if_neg (by simp), if_pos ⟨habove, hlt⟩] at h
  cases hm : mmap_handler L id s p va cause true with
  | none =>
    rw [hm] at h
    cases h
  | some r =>
    obtain ⟨s1, b⟩ := r
    rw [hm] at h
    obtain ⟨-, hcases⟩ := mmap_handler_some hg hm
    rcases hcases with ⟨rfl, -, -, i, ip, hserves, hip, hbytes, honly⟩ |
      ⟨rfl, hhas1, hempty, honly⟩
    · cases h
      exact .inl ⟨i, ip, hserves, hip, hbytes, honly⟩
    have hlt1 : va < s1.sz p := by
      rw [honly.sz]
      exact hlt
    simp only [lazyPage] at h
    rw [if_pos (show _ ∧ _ ∧ (kalloc s1.kmem id).2.isSome = true from
      ⟨habove, hlt1, hhas1.mpr hhas⟩)] at h
    obtain ⟨⟨t, b⟩, hz, rfl⟩ := map_eq_some_iff.mp h
    have hnew := (mapZero_spec honly.good id p (pgrounddown va) true
      (show rwxu.f = false from rfl)).2 t b hz
    rw [pgrounddown_div, honly.abs_eq] at hnew
    rcases hnew with ⟨rfl, -, -, hbec⟩ | ⟨-, htable, -⟩
    · exact .inr ⟨hempty hhas rfl, honly.trans (Only.of_becomes hbec)⟩
    · cases htable (hhas1.mpr hhas)

theorem usertrap_marked (hcow : cowpage s.toState p va = true)
    (id : Fin NCPU) (sp : Nat) (cause : Cause) (table : Bool) :
    ∃ s', usertrap L id s p sp va cause table = some s' ∧ Only L s s' (Vm.abs s.toState) ∧
      ((∃ pa fl, s'.pt p (va / PGSIZE) = some ⟨pa, fl⟩ ∧ fl.w = true ∧ fl.f = false) ∨
        s'.killed p = true) := by
  obtain ⟨e, he, hf⟩ := cowpage_entry hcow
  unfold usertrap
  rw [if_pos hcow]
  split
  · exact ⟨_, rfl, (Only.of_becomes (Becomes.refl hg)).kill p, .inr (kill_killed s p)⟩
  obtain ⟨⟨t, r⟩, hr⟩ := cowalloc_isSome hg id p (pgrounddown va)
  have he' : walk s.toState p (pgrounddown va) = some e := by rw [walk_pgrounddown, he]
  obtain ⟨hgood, habs, hentry⟩ := hg.cowalloc he' hf hr
  have honly : Only L s { s with toState := t } (Vm.abs s.toState) :=
    Only.of_becomes ⟨hgood, habs, fun hc => hc.cowalloc hg he' hr⟩
  rw [hr, map_some]
  cases r with
  | none => exact ⟨_, rfl, honly.kill p, .inr (kill_killed _ p)⟩
  | some pa =>
    refine ⟨_, rfl, honly, .inl ⟨pa, e.flags.taken, ?_, rfl, rfl⟩⟩
    rw [← pgrounddown_div]
    exact (hentry pa rfl).2

theorem usertrap_only (h : usertrap L id s p sp va cause table = some s') :
    ∃ a, Only L s s' a ∧ a.sz = s.sz ∧ a.live = s.live := by
  by_cases hcow : cowpage s.toState p va = true
  · obtain ⟨s1, hs1, ho, -⟩ := usertrap_marked hg hcow id sp cause table
    rw [h] at hs1
    cases hs1
    exact ⟨_, ho, rfl, rfl⟩
  rcases usertrap_unmarked hg (by simpa using hcow) h with
    ⟨i, ip, -, -, -, -, -, -, -, ho⟩ | ⟨-, -, -, -, ho⟩ | ⟨-, ho⟩
  all_goals exact ⟨_, ho, rfl, rfl⟩

theorem usertrap_none_iff :
    (∃ table, usertrap L id s p sp va cause table = none) ↔ Collides s id p sp va cause := by
  by_cases hcow : cowpage s.toState p va = true
  · refine iff_of_false ?_ fun h => by rw [h.1] at hcow; cases hcow
    rintro ⟨table, h⟩
    obtain ⟨s', hs', -⟩ := usertrap_marked hg hcow id sp cause table
    rw [h] at hs'
    cases hs'
  have hcow' : cowpage s.toState p va = false := by simpa using hcow
  unfold usertrap Collides
  simp only [hcow', Bool.false_eq_true, if_false, true_and]
  by_cases hin : aboveStack sp va ∧ va < s.sz p
  · simp only [if_pos hin]
    constructor
    · rintro ⟨table, h⟩
      cases hm : mmap_handler L id s p va cause table with
      | none =>
        obtain ⟨hhas, hserves⟩ := (mmap_handler_none_iff hg).mp hm
        exact ⟨hin.1, hhas, .inl ⟨hin.2, hserves⟩⟩
      | some r =>
        obtain ⟨s1, b⟩ := r
        rw [hm] at h
        obtain ⟨-, hcases⟩ := mmap_handler_some hg hm
        rcases hcases with ⟨rfl, -⟩ | ⟨rfl, hhas, -, honly⟩
        · cases h
        obtain ⟨-, -, hhas1, htaken⟩ := (lazyPage_spec honly.good).1.mp h
        rw [taken_congr honly.abs_eq] at htaken
        exact ⟨hin.1, hhas.mp hhas1, .inr ⟨.inl hin.2, htaken⟩⟩
    · rintro ⟨-, hhas, hserves | ⟨-, htaken⟩⟩
      · refine ⟨true, ?_⟩
        rw [(mmap_handler_none_iff hg).mpr ⟨hhas, hserves.2⟩]
      · refine ⟨false, ?_⟩
        cases hm : mmap_handler L id s p va cause false with
        | none => rfl
        | some r =>
          obtain ⟨s1, b⟩ := r
          obtain ⟨-, hcases⟩ := mmap_handler_some hg hm
          rcases hcases with ⟨-, htrue, -⟩ | ⟨rfl, hhas1, -, honly⟩
          · cases htrue
          simp only
          refine (lazyPage_spec honly.good).1.mpr ⟨hin.1, ?_, hhas1.mpr hhas, ?_⟩
          · rw [honly.sz]
            exact .inl hin.2
          · rw [taken_congr honly.abs_eq]
            exact htaken
  · simp only [if_neg hin]
    constructor
    · rintro ⟨table, h⟩
      obtain ⟨habove, hrange, hhas, htaken⟩ := (lazyPage_spec hg).1.mp h
      exact ⟨habove, hhas, .inr ⟨hrange, htaken⟩⟩
    · rintro ⟨habove, hhas, hserves | ⟨hrange, htaken⟩⟩
      · exact absurd ⟨habove, hserves.1⟩ hin
      · exact ⟨true, (lazyPage_spec hg).1.mpr ⟨habove, hrange, hhas, htaken⟩⟩

end

end Fault

end BirdOS.Space
