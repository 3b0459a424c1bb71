import BirdOS.Mm.Vmas

/-! # What a mapping shows of its file

The first load from a page of a mapping brings the bytes of the file in.  `mmap_handler`
computes their offset from the start of the VMA, which `munmap` moves, and from an address
that went through an `int`. -/

namespace BirdOS.Space

open Kalloc Vm Function List Option Machine
open Shm (proc0 throughInt throughInt_eq)

def load (s : Vm.State) (p : Slot) (va : Nat) : Option UInt8 :=
  if Faults s p va .load then none else readByte s p va

def Loaded (s : State) : Op → Prop
  | .mmap _ p _ _ _ _ _ _ _ _ => 0 < s.sz p
  | _ => True

instance (s : State) (op : Op) : Decidable (Loaded s op) := by
  apply op.casesOn (motive := fun op => Decidable (Loaded s op)) <;> intros <;>
    dsimp only [Loaded] <;> infer_instance

section Origin
variable {L : Layout} {s s' : State} {q : Slot} {i : Area} {op : Op}

theorem step_vma (h : Sound L s) (hs : step L s op = some s') (hlive : s'.live q = true)
    (hused : (s'.vma q i).used = true) : (∃ p, s.live p = true ∧ s'.vma q i = s.vma p i) ∨
    (∃ id sp addr table length prot flags vfile offset,
      op = .mmap id q sp addr table length prot flags vfile offset ∧
      (s'.vma q i).offset = 0 ∧ (s'.vma q i).addr = s.sz q) ∨
    (∃ id sp addr table length c, op = .munmap id q sp addr table length c ∧
      (addr < MAXVA ∨ addr < s.sz q) ∧ findUnmap (s.vma q) addr length.toInt = some i ∧
      s.live q = true ∧ (s'.vma q i).addr = (cutVma (s.vma q i) addr length.toInt).addr ∧
      (s'.vma q i).offset = (s.vma q i).offset) := by
  have hsame : s'.vma = s.vma → s'.live = s.live → ∃ p, s.live p = true ∧ s'.vma q i = s.vma p i :=
    fun hvma hl => ⟨q, hl ▸ hlive, by rw [hvma]⟩
  cases op with
  | exec id p program stack =>
    obtain ⟨-, t, rfl, -, -, hl, -⟩ := exec_spec h.good (of_guard hs)
    exact .inl (hsame rfl hl)
  | sbrk id p n =>
    rcases sbrk_spec h.good (of_guard hs) with ⟨-, rfl⟩ | rfl | ⟨-, -, -, t, rfl, hbec⟩
    · exact .inl (hsame rfl rfl)
    · exact .inl (hsame rfl rfl)
    · exact .inl (hsame rfl hbec.live)
  | mmap id p sp addr table length prot flags vfile offset =>
    obtain ⟨s1, -, ⟨hsz, hl, hvma, -⟩, rfl | ⟨-, hres⟩⟩ := afterArgaddr_quiet h.good (of_guard hs)
    · exact .inl (hsame hvma hl)
    cases hres
    rcases mmap_cases s1 p addr length.toInt prot flags vfile offset.toInt with
      ⟨-, heq⟩ | ⟨j, -, -, -, hoff, -, heq⟩
    · rw [heq] at hlive hused ⊢
      exact .inl ⟨q, hl ▸ hlive, by rw [hvma]⟩
    rw [heq] at hlive hused ⊢
    by_cases hqj : q = p ∧ i = j
    · obtain ⟨rfl, rfl⟩ := hqj
      refine .inr (.inl ⟨id, sp, addr, table, length, prot, flags, vfile, offset, rfl, ?_, ?_⟩)
      · simpa [State.setVma] using hoff
      · simp [State.setVma, hsz]
    refine .inl ⟨q, hl ▸ hlive, ?_⟩
    simp only [State.setVma]
    obtain rfl | hq := eq_or_ne q p
    · rw [update_self, update_of_ne fun hij => hqj ⟨rfl, hij⟩, hvma]
    · rw [update_of_ne hq, hvma]
  | munmap id p sp addr table length contents =>
    obtain ⟨s1, hgood, ⟨-, hl, hvma, -⟩, rfl | ⟨haddr, hres⟩⟩ :=
      afterArgaddr_quiet h.good (of_guard hs)
    · exact .inl (hsame hvma hl)
    rcases munmap_spec hgood hres with ⟨-, rfl⟩ | ⟨j, t, c, hj, -, rfl, hbec⟩
    · exact .inl (hsame hvma hl)
    have htl : t.live = s.live := hbec.live.trans hl
    rw [hvma] at hj
    by_cases hqj : q = p ∧ i = j
    · obtain ⟨rfl, rfl⟩ := hqj
      refine .inr (.inr ⟨id, sp, addr, table, length, contents, rfl, haddr, hj,
        htl ▸ hlive, ?_, ?_⟩)
      · simp only [State.setVma, update_self, hvma]
      · simp only [State.setVma, update_self, hvma]
        unfold cutVma
        split <;> rfl
    · refine .inl ⟨q, htl ▸ hlive, ?_⟩
      simp only [State.setVma]
      obtain rfl | hq := eq_or_ne q p
      · rw [update_self, update_of_ne fun hij => hqj ⟨rfl, hij⟩, hvma]
      · rw [update_of_ne hq, hvma]
  | fork id p np fail =>
    obtain ⟨hlivep, hne, hfree, hs⟩ := h.fork_some hs
    obtain ⟨t, -, -, hcases⟩ := fork_spec h.good hne hfree hs
    rcases hcases with ⟨rfl, habs⟩ | ⟨-, rfl, -, hl, -⟩
    · exact .inl (hsame rfl (congrArg Spaces.live habs))
    obtain rfl | hq := eq_or_ne q np
    · simp only [update_self] at hused ⊢
      split at hused
      · next hu => exact .inl ⟨p, hlivep, by rw [if_pos hu]⟩
      · cases hused
    · simp only [update_of_ne hq, hl] at hlive ⊢
      exact .inl ⟨q, hlive, rfl⟩
  | exit id p contents =>
    obtain ⟨-, -, hl, -, -, -, hvma, -, -⟩ := exit_spec h.good (of_guard hs)
    rcases hvma q i with heq | heq
    · exact .inl ⟨q, hl ▸ hlive, heq⟩
    · rw [heq] at hused
      cases hused
  | reap id p =>
    obtain ⟨-, t, rfl, -, habs, -⟩ := reap_spec h.good (of_guard hs)
    have hqp : q ≠ p := by
      rintro rfl
      simp at hlive
    simp only [update_of_ne hqp, show t.live = s.live from congrArg Spaces.live habs]
      at hlive
    exact .inl ⟨q, hlive, rfl⟩
  | _ =>
    have hquiet := step_quiet h.good rfl hs
    exact .inl (hsame hquiet.vma hquiet.live)

def FromStart (s : State) : Prop :=
  ∀ q i, s.live q = true → (s.vma q i).used = true → (s.vma q i).offset = 0 ∧ 0 < (s.vma q i).addr

theorem fromStart_step (h : Sound L s) (ha : ∀ q, s.live q = true → Areas s q) (hf : FromStart s)
    (htame : Tame s op) (hl : Loaded s op) (hs : step L s op = some s') : FromStart s' := by
  intro q i hlive hused
  rcases step_vma h hs hlive hused with ⟨p, hp, heq⟩ |
    ⟨id, sp, addr, table, length, prot, flags, vfile, offset, rfl, hoff, haddr⟩ |
    ⟨id, sp, addr, table, length, c, rfl, haddr, hfound, hold, hmoved, hoff⟩
  · rw [heq] at hused ⊢
    exact hf p i hp hused
  · rw [hoff, haddr]
    exact ⟨rfl, hl⟩
  have hu := (findUnmap_some hfound).1
  obtain ⟨hzero, hpos⟩ := hf q i hold hu
  refine ⟨hoff.trans hzero, ?_⟩
  rw [hmoved]
  unfold cutVma
  split
  · have hlen := (htame i hfound).1
    obtain ⟨-, hhigh, -⟩ := (ha q hold).unmapped_range hfound hlen haddr
    have hplaced := (ha q hold).placed i hu
    have hsize := (ha q hold).size
    have hbelow := hplaced.below
    have hmove : (wrap ((s.vma q i).addr + length.toInt) : Int) =
        (s.vma q i).addr + length.toInt := by
      refine wrap_of_range (by omega) ?_
      unfold MAXVA at hsize
      omega
    simp only
    omega
  · exact hpos

end Origin

/-! ## The bytes of a page -/

section Bytes
variable {L : Layout} {id : Fin NCPU} {s s' : State} {p : Slot} {i : Area} {sp va ip : Nat}

theorem load_eq_some {t : Vm.State} {b : UInt8} :
    load t p va = some b ↔ va < MAXVA ∧ ∃ g, (Vm.abs t).pages p (va / PGSIZE) = some g ∧
      (g.flags.u = true ∧ g.flags.r = true) ∧ g.content (va % PGSIZE) = b := by
  unfold load readByte
  cases he : walk t p va with
  | none =>
    have hnone : va < MAXVA → t.pt p (va / PGSIZE) = none := by
      intro hlt
      simpa [walk, not_le.mpr hlt] using he
    rw [map_none, ite_self]
    refine iff_of_false (by simp) ?_
    rintro ⟨hlt, g, hg, -⟩
    rw [(pages_none t p _).mpr (hnone hlt)] at hg
    cases hg
  | some e =>
    obtain ⟨hlt, hpt⟩ := walk_some he
    have hfault : Faults t p va .load ↔ ¬ (e.flags.u = true ∧ e.flags.r = true) := by
      simp [Faults, he]
    have hpage : (Vm.abs t).pages p (va / PGSIZE) = some ⟨e.flags.own, t.kmem.mem e.pa⟩ := by
      simp [Vm.abs, hpt]
    rw [hpage]
    by_cases hr : e.flags.u = true ∧ e.flags.r = true
    · rw [if_neg (fun hc => hfault.mp hc hr)]
      simp [hlt, hr, Flags.own]
    rw [if_pos (hfault.mpr hr)]
    refine iff_of_false (by simp) ?_
    rintro ⟨-, g, hg, hflags, -⟩
    cases hg
    exact hr hflags

theorem findVma_eq (h : Areas s p) (hpos : ∀ j, (s.vma p j).used = true → 0 < (s.vma p j).addr)
    (hused : (s.vma p i).used = true) (hlow : (s.vma p i).addr ≤ va)
    (hhigh : va < (s.vma p i).addr + (s.vma p i).len) : findVma (s.vma p) va = some i := by
  have hsize := h.size
  have hend : ∀ j, (s.vma p j).used = true →
      (wrap ((s.vma p j).addr + (s.vma p j).len - 1) : Int) =
        (s.vma p j).addr + (s.vma p j).len - 1 := by
    intro j hj
    have hplaced := h.placed j hj
    have hbelow := hplaced.below
    have hlen := hplaced.len
    have := hpos j hj
    refine wrap_of_range (by omega) ?_
    unfold MAXVA at hsize
    omega
  have hi : (findVma (s.vma p) va).isSome := by
    unfold findVma
    rw [find?_isSome]
    refine ⟨i, mem_finRange i, ?_⟩
    have := hend i hused
    simp only [decide_eq_true_eq]
    exact ⟨hused, hlow, by omega⟩
  obtain ⟨j, hj⟩ := isSome_iff_exists.mp hi
  have hfound := find?_some hj
  simp only [decide_eq_true_eq] at hfound
  obtain ⟨huj, hlowj, hhighj⟩ := hfound
  have hendj := hend j huj
  by_cases hji : j = i
  · rw [← hji]
    exact hj
  have hapart := h.apart j i hji huj hused
  unfold Vma.Apart at hapart
  omega

theorem fileBytes_eq (hoff : (s.vma p i).offset = 0) (hlow : (s.vma p i).addr ≤ va)
    (hint : va < 2 ^ 31) :
    fileBytes s p i ip va =
      ((s.contents ip).drop (pgrounddown (va - (s.vma p i).addr))).take PGSIZE := by
  have hdiff : wrap ((va : Int) - (s.vma p i).addr) = va - (s.vma p i).addr := by
    have := wrap_of_range (x := (va : Int) - (s.vma p i).addr) (by omega) (by omega)
    omega
  have hround : pgrounddown (va - (s.vma p i).addr) ≤ va := by
    simp only [pgrounddown, PGSIZE]
    omega
  have hfile : fileOffset (s.vma p i) va = pgrounddown (va - (s.vma p i).addr) := by
    unfold fileOffset
    rw [hoff, hdiff]
    omega
  unfold fileBytes readi
  rw [throughInt_eq hint, hfile]
  split
  · next hbeyond =>
    have hlen : (s.contents ip).length < pgrounddown (va - (s.vma p i).addr) := by
      refine hbeyond.resolve_right ?_
      simp only [PGSIZE]
      omega
    rw [drop_eq_nil_of_le (le_of_lt hlen), take_nil]
  · rfl

theorem fileBytes_getD (hal : (s.vma p i).addr % PGSIZE = 0) (hoff : (s.vma p i).offset = 0)
    (hlow : (s.vma p i).addr ≤ va) (hint : va < 2 ^ 31) :
    (fileBytes s p i ip va).getD (va % PGSIZE) 0 =
      (s.contents ip).getD (va - (s.vma p i).addr) 0 := by
  rw [fileBytes_eq hoff hlow hint]
  have hmod : va % PGSIZE < PGSIZE := Nat.mod_lt _ (by decide)
  have hsum : pgrounddown (va - (s.vma p i).addr) + va % PGSIZE = va - (s.vma p i).addr := by
    simp only [pgrounddown, PGSIZE] at hal ⊢
    omega
  simp only [getD_eq_getElem?_getD]
  rw [getElem?_take_of_lt hmod, getElem?_drop, hsum]

theorem throughInt_page (hmax : va < MAXVA) (h : throughInt va / PGSIZE = va / PGSIZE) :
    va < 2 ^ 31 := by
  by_contra hle
  unfold throughInt at h
  unfold MAXVA at hmax
  simp only [PGSIZE, Int.bmod] at h
  split at h <;> omega

structure Untouched (s : State) (p : Slot) (i : Area) (va : Nat) : Prop where
  used : (s.vma p i).used = true
  low : (s.vma p i).addr ≤ va
  high : va < (s.vma p i).addr + (s.vma p i).len
  page : s.pt p (va / PGSIZE) = none

def State.withFile (s : State) (ip : Nat) (c : List UInt8) : State :=
  { s with contents := update s.contents ip c }

/-- The load reads the byte as far from the start of the file as `va` from the mapping's. -/
def ReadsFile (L : Layout) (id : Fin NCPU) (s : State) (p : Slot) (i : Area)
    (ip sp va : Nat) : Prop :=
  ∀ c, ∃ s', usertrap L id (s.withFile ip c) p sp va .load true = some s' ∧
    load s'.toState p va = some (c.getD (va - (s.region p i).start) 0)

theorem fileBytes_withFile (ip : Nat) (hal : (s.vma p i).addr % PGSIZE = 0)
    (hoff : (s.vma p i).offset = 0)
    (hlow : (s.vma p i).addr ≤ va) (hint : va < 2 ^ 31) (c : List UInt8) :
    (fileBytes (s.withFile ip c) p i ip va).getD (va % PGSIZE) 0 =
      c.getD (va - (s.vma p i).addr) 0 := by
  rw [fileBytes_getD (s := s.withFile ip c) hal hoff hlow hint]
  simp [State.withFile]

theorem Untouched.not_marked (h : Untouched s p i va) : cowpage s.toState p va = false := by
  by_contra hcow
  obtain ⟨e, he, -⟩ := cowpage_entry (by simpa using hcow)
  have hpt := (walk_some he).2
  rw [h.page] at hpt
  cases hpt

theorem Untouched.lt (h : Untouched s p i va) (ha : Areas s p) : va < s.sz p ∧ va < MAXVA := by
  have hbelow := (ha.placed i h.used).below
  have hsize := ha.size
  have hhigh := h.high
  omega

theorem setPage_load {t t' : Vm.State} {v : Nat} {g : Page} {b : UInt8}
    (habs : Vm.abs t' = (Vm.abs t).setPage p v (some g)) (hold : t.pt p (va / PGSIZE) = none) :
    load t' p va = some b ↔ va < MAXVA ∧ v = va / PGSIZE ∧ (g.flags.u = true ∧ g.flags.r = true) ∧
      g.content (va % PGSIZE) = b := by
  rw [load_eq_some, habs]
  simp only [Spaces.setPage_pages, (pages_none t p _).mpr hold, true_and]
  by_cases hv : va / PGSIZE = v
  · simp [hv]
  · simp [hv, Ne.symm hv]

theorem readsFile_of (hg : Good L s.toState) (ha : Areas s p) (hf : FromStart s)
    (hruns : Runs s p) (hu : Untouched s p i va) (hip : (s.vma p i).vfile.ip = some ip)
    (hhas : HasPage s.toState id) (habove : aboveStack sp va) (hint : va < 2 ^ 31)
    (hstart : (s.vma p i).addr = (s.region p i).start)
    (hreadable : (s.vma p i).vfile.readable = true) (hprot : (s.vma p i).prot.getLsbD 0 = true) :
    ReadsFile L id s p i ip sp va := by
  intro c
  have hvma : findVma (s.vma p) (throughInt va) = some i := by
    rw [throughInt_eq hint]
    exact findVma_eq ha (fun j hj => (hf p j hruns.1 hj).2) hu.used hu.low hu.high
  have hserves : ∀ j, Serves (s.withFile ip c) p va .load j → j = i := fun j hj =>
    Option.some.inj (hj.1.symm.trans hvma)
  have hfree : ¬ Taken s.toState p va := by
    rintro (htop | hmapped)
    · unfold TRAPFRAME MAXVA at htop
      simp only [PGSIZE] at htop
      omega
    · rw [hu.page] at hmapped
      cases hmapped
  have hbyte : (fileBytes (s.withFile ip c) p i ip va).getD (va % PGSIZE) 0 =
      c.getD (va - (s.region p i).start) 0 := by
    rw [fileBytes_withFile ip (ha.placed i hu.used).aligned (hf p i hruns.1 hu.used).1 hu.low hint,
      hstart]
  cases hres : usertrap L id (s.withFile ip c) p sp va .load true with
  | none =>
    have hcollides := (usertrap_none_iff (s := s.withFile ip c) hg).mp ⟨true, hres⟩
    rcases hcollides with ⟨-, -, -, ⟨-, j, hj, hfile⟩ | ⟨-, htaken⟩⟩
    · have hji := hserves j hj
      subst hji
      have htaken := (hfile ip hip).2
      rw [throughInt_eq hint] at htaken
      exact absurd htaken hfree
    · exact absurd htaken hfree
  | some s' =>
    refine ⟨s', rfl, ?_⟩
    rcases usertrap_inside (s := s.withFile ip c) hg hu.not_marked habove
      (hu.lt ha).1 hhas hres with
      ⟨j, jp, hj, hjp, -, ho⟩ | ⟨hempty, ho⟩
    · have hji := hserves j hj
      subst hji
      have hjp' : some jp = some ip := hjp.symm.trans hip
      cases hjp'
      rw [setPage_load (t := s.toState) ho.abs_eq hu.page, throughInt_eq hint]
      exact ⟨(hu.lt ha).2, rfl, ⟨rfl, hprot⟩, hbyte⟩
    have hnil := hempty i ip ⟨hvma, fun _ => hreadable, fun hc => by cases hc⟩ hip
    rw [hnil] at hbyte
    rw [setPage_load (t := s.toState) ho.abs_eq hu.page]
    exact ⟨(hu.lt ha).2, rfl, ⟨rfl, rfl⟩, hbyte⟩

theorem of_readsFile (hg : Good L s.toState) (ha : Areas s p) (hf : FromStart s)
    (hruns : Runs s p) (hu : Untouched s p i va) (hip : (s.vma p i).vfile.ip = some ip)
    (hhas : HasPage s.toState id) (h : ReadsFile L id s p i ip sp va) :
    aboveStack sp va ∧ va < 2 ^ 31 ∧ (s.vma p i).addr = (s.region p i).start ∧
      (s.vma p i).vfile.readable = true ∧ (s.vma p i).prot.getLsbD 0 = true := by
  let c : List UInt8 := replicate (va - (s.region p i).start) 0 ++ [1]
  have hself : c.getD (va - (s.region p i).start) 0 = 1 := by
    simp [c, getD_eq_getElem?_getD]
  obtain ⟨s', hs', hload⟩ := h c
  rw [hself] at hload
  have hpage : ∀ {a : Spaces}, Only L (s.withFile ip c) s' a →
      a = Vm.abs s.toState → load s'.toState p va ≠ some 1 := by
    rintro a ho rfl hl
    obtain ⟨-, g, hpage, -⟩ := load_eq_some.mp hl
    rw [ho.abs_eq, (pages_none s.toState p _).mpr hu.page] at hpage
    cases hpage
  have habove : aboveStack sp va := by
    rcases usertrap_unmarked (s := s.withFile ip c) hg hu.not_marked hs' with
      ⟨-, -, -, -, -, -, -, -, habove, -⟩ | ⟨-, habove, -⟩ | ⟨-, ho⟩
    · exact habove
    · exact habove
    · exact absurd hload (hpage ho rfl)
  rcases usertrap_inside (s := s.withFile ip c) hg hu.not_marked habove (hu.lt ha).1 hhas hs' with
    ⟨j, jp, hj, hjp, -, ho⟩ | ⟨-, ho⟩
  · rw [setPage_load (t := s.toState) ho.abs_eq hu.page] at hload
    obtain ⟨hmax, hsame, ⟨-, hr⟩, hbyte⟩ := hload
    have hint := throughInt_page hmax hsame
    have hvma : findVma (s.vma p) (throughInt va) = some i := by
      rw [throughInt_eq hint]
      exact findVma_eq ha (fun j hj => (hf p j hruns.1 hj).2) hu.used hu.low hu.high
    have hji : j = i := Option.some.inj (hj.1.symm.trans hvma)
    subst hji
    have hjp' : some jp = some ip := hjp.symm.trans hip
    cases hjp'
    have hplaced := ha.placed j hu.used
    have hread := fileBytes_withFile ip hplaced.aligned (hf p j hruns.1 hu.used).1 hu.low hint c
    refine ⟨habove, hint, ?_, hj.2.1 rfl, hr⟩
    have hinside := hplaced.inside.1
    have hlow := hu.low
    by_contra hne
    have hlt : va - (s.vma p j).addr < va - (s.region p j).start := by omega
    have hzero : c.getD (va - (s.vma p j).addr) 0 = 0 := by
      simp only [c, getD_eq_getElem?_getD]
      rw [getElem?_append_left (by simpa using hlt), getElem?_replicate, if_pos hlt]
      rfl
    rw [hzero] at hread
    cases hread.symm.trans hbyte
  · rw [setPage_load (t := s.toState) ho.abs_eq hu.page] at hload
    cases hload.2.2.2

end Bytes

/-- In every run of tame calls the first load from a page of a mapping reads the right byte of
the file, whatever that holds, exactly if the stack is below the page, the address fits an
`int`, the front of the mapping was not unmapped, and both the file and the mapping can be
read. -/
theorem mmap_reads_file_iff (L : Layout) (mem : Nat → Nat → UInt8) (k : Kmem)
    (hk : kinit L mem = some k) (contents : Nat → List UInt8) (ops : List Op) (s : State)
    (hrun : run (step L) (boot k contents) ops = some s)
    (htame : Along (step L) Tame (boot k contents) ops)
    (hloaded : Along (step L) Loaded (boot k contents) ops)
    (id : Fin NCPU) (p : Slot) (i : Area) (ip sp va : Nat) (hruns : Runs s p)
    (hu : Untouched s p i va) (hip : (s.vma p i).vfile.ip = some ip) (hhas : HasPage s.toState id) :
    ReadsFile L id s p i ip sp va ↔
      aboveStack sp va ∧ va < 2 ^ 31 ∧ (s.vma p i).addr = (s.region p i).start ∧
        (s.vma p i).vfile.readable = true ∧ (s.vma p i).prot.getLsbD 0 = true := by
  obtain ⟨hsound, hareas, hstart⟩ := along_invariant
    (I := fun s => Sound L s ∧ (∀ q, s.live q = true → Areas s q) ∧ FromStart s)
    (fun s op s' h hop hs => ⟨h.1.step hs, areas_step h.1 h.2.1 hop.1 hs,
      fromStart_step h.1 h.2.1 h.2.2 hop.1 hop.2 hs⟩) ops _ s
    ⟨sound_boot hk contents, fun q _ => areas_boot k contents q, fun q i _ hi => by cases hi⟩
    (along_and ops _ htame hloaded) hrun
  have hp := hareas p hruns.1
  constructor
  · exact of_readsFile hsound.good hp hstart hruns hu hip hhas
  · rintro ⟨habove, hint, hsame, hreadable, hprot⟩
    exact readsFile_of hsound.good hp hstart hruns hu hip hhas habove hint hsame hreadable hprot

def pairOps : List Op :=
  [.exec hart0 proc0 [fun _ => 0] (fun _ => 0),
    .mmap hart0 proc0 12000 0 true 8192 1 2 ⟨true, false, some 3⟩ 0]

theorem mmap_reads_file_iff_pair : ∃ k s, kinit fivePages (fun _ _ => 0) = some k ∧
      run (step fivePages) (boot k fun _ => []) pairOps = some s ∧
      ∀ c, ∃ s', usertrap fivePages hart0 (s.withFile 3 c) proc0 12000 16400 .load true = some s' ∧
        load s'.toState proc0 16400 = some (c.getD 4112 0) := by
  obtain ⟨k, s, hk, hs, htame, hloaded, hruns, hused, hlow, hhigh, hpage, hip, hhas,
    hstart, hcond⟩ :
      ∃ k s, kinit fivePages (fun _ _ => 0) = some k ∧
        run (step fivePages) (boot k fun _ => []) pairOps = some s ∧
        Along (step fivePages) Tame (boot k fun _ => []) pairOps ∧
        Along (step fivePages) Loaded (boot k fun _ => []) pairOps ∧ Runs s proc0 ∧
        (s.vma proc0 area0).used = true ∧ (s.vma proc0 area0).addr ≤ 16400 ∧
        16400 < (s.vma proc0 area0).addr + (s.vma proc0 area0).len ∧
        s.pt proc0 (16400 / PGSIZE) = none ∧ (s.vma proc0 area0).vfile.ip = some 3 ∧
        HasPage s.toState hart0 ∧ (s.region proc0 area0).start = 12288 ∧
        aboveStack 12000 16400 ∧ 16400 < 2 ^ 31 ∧
        (s.vma proc0 area0).addr = (s.region proc0 area0).start ∧
        (s.vma proc0 area0).vfile.readable = true ∧
        (s.vma proc0 area0).prot.getLsbD 0 = true := boot_test (by decide +kernel)
  have hreads := (mmap_reads_file_iff fivePages _ k hk _ pairOps s hs htame hloaded hart0 proc0
    area0 3 12000 16400 hruns ⟨hused, hlow, hhigh, hpage⟩ hip hhas).mpr hcond
  rw [ReadsFile, hstart] at hreads
  exact ⟨k, s, hk, hs, hreads⟩

/-- Nothing is written back of a private mapping, so the label of `munmap` does not matter. -/
def privateCutOps : List Op :=
  [.exec hart0 proc0 [fun _ => 0] (fun _ => 0),
    .mmap hart0 proc0 12000 0 true 8192 1 2 ⟨true, false, some 3⟩ 0,
    .munmap hart0 proc0 12000 12288 true 4096 (fun _ => [])]

theorem mmap_reads_wrong_bytes : ∃ k s, kinit fivePages (fun _ _ => 0) = some k ∧
      run (step fivePages) (boot k fun _ => [7]) privateCutOps = some s ∧ Runs s proc0 ∧
      ((s.vma proc0 area0).used = true ∧ (s.vma proc0 area0).addr = 16384 ∧
        (s.vma proc0 area0).len = 4096 ∧ (s.region proc0 area0).start = 12288) ∧
      (s.vma proc0 area0).vfile.ip = some 3 ∧ s.pt proc0 (16384 / PGSIZE) = none ∧
      s.contents 3 = [7] ∧ (usertrap fivePages hart0 s proc0 12000 16384 .load true).map
        (fun s' => load s'.toState proc0 16384) = some (some 7) :=
  boot_test (by decide +kernel)

end BirdOS.Space
