import BirdOS.Mm.SpaceCalls

/-! # Soundness of every run

Reference counts stay sound (`Sound`), whatever the processes do. -/

namespace BirdOS.Space

open Kalloc Vm Function Option Machine
open Shm (proc0 throughInt)

structure Sound (L : Layout) (s : State) : Prop where
  good : Good L s.toState
  tidy : (Vm.abs s.toState).Tidy
  init : s.live proc0 = true ∧ s.exited proc0 = false
  exited : ∀ q, s.exited q = true → s.live q = true

section Sound
variable {L : Layout} {id : Fin NCPU} {s s' : State} {p : Slot} {a : Spaces}

theorem tidy_setPage {a : Spaces} (h : a.Tidy) (hp : a.live p = true) (v : Nat) (g : Option Page) :
    (a.setPage p v g).Tidy := by
  intro q hq u
  have hne : q ≠ p := by
    rintro rfl
    have hlive : (a.setPage q v g).live q = a.live q := rfl
    rw [hlive, hp] at hq
    cases hq
  rw [Spaces.setPage_pages, if_neg (fun hc => hne hc.1)]
  exact h q hq u

theorem tidy_setTable {a : Spaces} (h : a.Tidy) (t : Nat → Option Page)
    (hp : a.live p = true ∨ t = fun _ => none) : (a.setTable p t).Tidy := by
  intro q hq u
  rw [Spaces.setTable_pages]
  split
  · next hqp =>
    rcases hp with hp | rfl
    · rw [show (a.setTable p t).live q = a.live q from rfl, hqp, hp] at hq
      cases hq
    · rfl
  · exact h q hq u

theorem tidy_sameShape {a a' : Spaces} (h : a.Tidy) (hs : SameShape a a') : a'.Tidy := by
  intro q hq u
  rw [hs.live] at hq
  have hflags := hs.flags q u
  rw [h q hq u] at hflags
  simpa using hflags

section
variable (h : Sound L s)
include h

theorem Sound.keep (hgood : Good L s'.toState)
    (htidy : (Vm.abs s'.toState).Tidy) (hlive : s'.live = s.live) (hexited : s'.exited = s.exited) :
    Sound L s' :=
  ⟨hgood, htidy, by rw [hlive, hexited]; exact h.init, fun q hq => by
    rw [hexited] at hq
    rw [hlive]
    exact h.exited q hq⟩

theorem Sound.only (ho : Only L s s' a) (htidy : a.Tidy) (hlive : a.live = s.live) : Sound L s' :=
  h.keep ho.good (ho.abs_eq.symm ▸ htidy) (ho.live.trans hlive) ho.exited

theorem Sound.usertrap {sp va : Nat} {cause : Cause} {table : Bool}
    (hruns : Runs s p) (hs : usertrap L id s p sp va cause table = some s') : Sound L s' := by
  have hset : ∀ {v g}, Only L s s' ((Vm.abs s.toState).setPage p v g) → Sound L s' :=
    fun ho => h.only ho (tidy_setPage h.tidy hruns.1 _ _) rfl
  by_cases hcow : cowpage s.toState p va = true
  · obtain ⟨s1, hs1, ho, -⟩ := usertrap_marked h.good hcow id sp cause table
    rw [hs] at hs1
    cases hs1
    exact h.only ho h.tidy rfl
  rcases usertrap_unmarked h.good (by simpa using hcow) hs with
    ⟨i, ip, -, -, -, -, -, -, -, ho⟩ | ⟨-, -, -, -, ho⟩ | ⟨-, ho⟩
  · exact hset ho
  · exact hset ho
  · exact h.only ho h.tidy rfl

theorem Sound.unmap {t : Vm.State} {v n : Nat}
    (hb : Becomes L s.toState t ((Vm.abs s.toState).unmap p v n)) (hlive : s.live p = true) :
    Good L t ∧ (Vm.abs t).Tidy ∧ t.live = s.live :=
  ⟨hb.good, hb.abs_eq.symm ▸ tidy_setTable h.tidy _ (.inl hlive), hb.live⟩

theorem Sound.argaddr {sp addr : Nat} {table : Bool}
    {rest : State → Option State} (hlive : s.live p = true)
    (hrest : ∀ s1 s', Sound L s1 → s1.live p = true → rest s1 = some s' → Sound L s')
    (hs : afterArgaddr L id s p sp addr table rest = some s') : Sound L s' := by
  obtain ⟨s1, honly, -, hres⟩ := afterArgaddr_spec h.good hs
  have hboth : Sound L s1 ∧ s1.live = s.live := by
    rcases honly with ho | ⟨-, -, -, ho⟩
    · exact ⟨h.only ho h.tidy rfl, ho.live⟩
    · exact ⟨h.only ho (tidy_setPage h.tidy hlive _ _) rfl, ho.live⟩
  rcases hres with rfl | ⟨-, hres⟩
  · exact hboth.1
  · exact hrest s1 s' hboth.1 (by rw [hboth.2]; exact hlive) hres

theorem Sound.mmap (addr : Nat) (length : Int) (prot flags : BitVec 32)
    (vfile : File) (offset : Int) : Sound L (mmap s p addr length prot flags vfile offset).1 := by
  unfold Space.mmap
  split
  · exact h
  split
  · exact h
  split
  · exact h
  split
  · exact h
  · exact h.keep ⟨h.good.kmem, h.good.page, h.good.cells, h.good.marked⟩ h.tidy rfl rfl

end

variable {contents : Nat → List UInt8}

theorem Sound.munmap (h : Sound L s) {addr : Nat} {length : Int}
    (hlive : s.live p = true) (hs : munmap L id s p addr length contents = some s') :
    Sound L s' := by
  rcases munmap_spec h.good hs with ⟨-, rfl⟩ | ⟨i, t, c, -, -, rfl, hbec⟩
  · exact h
  · obtain ⟨hgood, htidy, hl⟩ := h.unmap hbec hlive
    exact h.keep hgood htidy hl rfl

theorem Sound.exit (h : Sound L s) (hlive : s.live p = true)
    (hp : p ≠ proc0) (hs : exit L id s p contents = some s') : Sound L s' := by
  obtain ⟨t, c, ⟨ht, hl⟩, rfl⟩ := exit_invariant (I := fun t => Sound L t ∧ t.live p = true)
    (fun t i t' hi ht => by
      rcases unmapVmas_spec hi.1.good ht with ⟨-, rfl⟩ | ⟨-, -, u, rfl, hbec⟩
      · exact hi
      obtain ⟨hgood, htidy, hl⟩ := hi.1.unmap hbec hi.2
      refine ⟨hi.1.keep hgood htidy hl rfl, ?_⟩
      show u.live p = true
      rw [hl]
      exact hi.2) ⟨h, hlive⟩ hs
  refine ⟨ht.good, ht.tidy, ⟨ht.init.1, ?_⟩, fun q hq => ?_⟩
  · simp only [update_of_ne (Ne.symm hp)]
    exact ht.init.2
  · obtain rfl | hqp := eq_or_ne q p
    · exact hl
    · simp only [update_of_ne hqp] at hq
      exact ht.exited q hq

theorem Sound.reap (h : Sound L s) (hex : s.exited p = true) (hs : reap L id s p = some s') :
    Sound L s' := by
  obtain ⟨-, t, rfl, hgood, habs, -⟩ := reap_spec h.good hs
  have hp : p ≠ proc0 := by
    rintro rfl
    rw [h.init.2] at hex
    cases hex
  have hlive : t.live = s.live := congrArg Spaces.live habs
  refine ⟨{ hgood with }, ?_, ⟨?_, ?_⟩, ?_⟩
  · intro q hq u
    show (Vm.abs t).pages q u = none
    rw [habs, Spaces.setTable_pages]
    split
    · rfl
    · next hqp =>
      refine h.tidy q ?_ u
      simp only [Vm.abs, update_of_ne hqp, hlive] at hq ⊢
      exact hq
  · simp only [update_of_ne (Ne.symm hp), hlive]
    exact h.init.1
  · simp only [update_of_ne (Ne.symm hp)]
    exact h.init.2
  · intro q hq
    have hqp : q ≠ p := by
      rintro rfl
      simp at hq
    simp only [update_of_ne hqp, hlive] at hq ⊢
    exact h.exited q hq

theorem Sound.fork_some (h : Sound L s) {np : Slot} {fail : Option Nat}
    (hs : step L s (.fork id p np fail) = some s') : s.live p = true ∧ p ≠ np ∧
      (∀ u, s.pt np u = none) ∧ fork L id s p np fail = some s' := by
  obtain ⟨⟨hruns, hnp⟩, hs⟩ := ite_none_right_eq_some.mp hs
  refine ⟨hruns.1, ?_, fun u => (pages_none s.toState np u).mp (h.tidy np hnp u), hs⟩
  rintro rfl
  rw [hruns.1] at hnp
  cases hnp

theorem store_some {va : Nat} {b : UInt8} (hs : step L s (.store p va b) = some s') :
    ∃ e : Pte, s' = { s with toState := writePage s.toState e.pa va [b] } := by
  simp only [Space.step] at hs
  split at hs
  · cases hs
  · next e he => exact ⟨e, (Option.some.inj (of_guard hs)).symm⟩

theorem Sound.step (h : Sound L s) {op : Op} (hs : step L s op = some s') : Sound L s' := by
  cases op with
  | exec id p program stack =>
    obtain ⟨hruns, hs⟩ := ite_none_right_eq_some.mp hs
    obtain ⟨-, t, rfl, hgood, hsz, hlive, hother, -, -⟩ := exec_spec h.good hs
    refine h.keep { hgood with } ?_ hlive rfl
    intro q hq u
    have hqp : q ≠ p := by
      rintro rfl
      rw [show (Vm.abs { t with sz := _ }).live q = t.live q from rfl, hlive, hruns.1] at hq
      cases hq
    show (Vm.abs t).pages q u = none
    rw [hother q u hqp]
    refine h.tidy q ?_ u
    simp only [Vm.abs, hlive] at hq ⊢
    exact hq
  | sbrk id p n =>
    obtain ⟨hruns, hs⟩ := ite_none_right_eq_some.mp hs
    rcases sbrk_spec h.good hs with ⟨-, rfl⟩ | rfl | ⟨-, -, -, t, rfl, hbec⟩
    · exact h.keep ⟨h.good.kmem, h.good.page, h.good.cells, h.good.marked⟩ h.tidy rfl rfl
    · exact h
    · obtain ⟨hgood, htidy, hl⟩ := h.unmap hbec hruns.1
      exact h.keep { hgood with } htidy hl rfl
  | mmap id p sp addr table length prot flags vfile offset =>
    obtain ⟨hruns, hs⟩ := ite_none_right_eq_some.mp hs
    refine h.argaddr hruns.1 (fun s1 s' h1 _ hm => ?_) hs
    cases hm
    exact h1.mmap ..
  | munmap id p sp addr table length contents =>
    obtain ⟨hruns, hs⟩ := ite_none_right_eq_some.mp hs
    exact h.argaddr hruns.1 (fun s1 s' h1 hl hm => h1.munmap hl hm) hs
  | argaddr id p sp addr table =>
    obtain ⟨hruns, hs⟩ := ite_none_right_eq_some.mp hs
    refine h.argaddr hruns.1 (fun s1 s' h1 _ hm => ?_) hs
    cases hm
    exact h1
  | copyout id p va data =>
    obtain ⟨hruns, hs⟩ := ite_none_right_eq_some.mp hs
    obtain ⟨⟨t, o⟩, hc, rfl⟩ := map_eq_some_iff.mp hs
    obtain ⟨a, hbec, hshape⟩ := becomes_copyout _ _ _ _ _ _ _ h.good hc
    exact h.only (Only.of_becomes hbec) (tidy_sameShape h.tidy hshape) hshape.live
  | fault id p sp va cause table =>
    simp only [Space.step, ite_none_right_eq_some] at hs
    exact h.usertrap hs.1.1 hs.2
  | fork id p np fail =>
    obtain ⟨-, hne, hfree, hs⟩ := h.fork_some hs
    obtain ⟨t, hgood, -, hcases⟩ := fork_spec h.good hne hfree hs
    rcases hcases with ⟨rfl, habs⟩ | ⟨-, rfl, -, hlive, hpages⟩
    · exact h.keep hgood (habs.symm ▸ h.tidy) (congrArg Spaces.live habs) rfl
    have hkeep : ∀ q, s.live q = true → t.live q = true := by
      intro q hq
      rw [hlive]
      by_cases hqn : q = np
      · rw [hqn, update_self]
      · rw [update_of_ne hqn]
        exact hq
    refine ⟨hgood, ?_, ⟨hkeep proc0 h.init.1, h.init.2⟩, fun q hq => hkeep q (h.exited q hq)⟩
    intro q hq u
    rw [show (Vm.abs t).live q = t.live q from rfl, hlive] at hq
    have hqn : q ≠ np := by
      rintro rfl
      rw [update_self] at hq
      cases hq
    rw [update_of_ne hqn] at hq
    rw [hpages q u, if_neg (fun hc => hqn hc.1)]
    exact h.tidy q hq u
  | shmgetat id p num create table =>
    obtain ⟨hruns, hs⟩ := ite_none_right_eq_some.mp hs
    rcases shmgetat_spec h.good hs with rfl | ⟨t, a, hbec, -, hlive, -, -, hcases⟩
    · exact h
    have htidy : (Vm.abs t).Tidy := by
      intro q hq u
      rw [hbec.abs_eq, hlive] at hq
      have hq0 : q ≠ proc0 := by
        rintro rfl
        rw [h.init.1] at hq
        cases hq
      have hold := h.tidy q hq u
      rw [hbec.abs_eq]
      rcases hcases with ⟨-, hpages⟩ | ⟨-, hother, -⟩
      · rcases hpages q u with hnone | hsame
        · exact hnone
        · rw [hsame, hold]
      · rw [hother q u (fun hc => hq0 hc.1), hold]
    rcases hcases with ⟨rfl, -⟩ | ⟨rfl, -⟩
    all_goals exact h.keep hbec.good htidy (hbec.live.trans hlive) rfl
  | exit id p contents =>
    simp only [Space.step, ite_none_right_eq_some] at hs
    exact h.exit hs.1.1 hs.1.2.2 hs.2
  | reap id p =>
    simp only [Space.step, ite_none_right_eq_some] at hs
    exact h.reap hs.1 hs.2
  | store p va b =>
    obtain ⟨e, rfl⟩ := store_some hs
    obtain ⟨a, hbec, hshape⟩ := becomes_writePage h.good e.pa va [b]
    exact h.only (Only.of_becomes hbec) (tidy_sameShape h.tidy hshape) hshape.live
  | kill p =>
    cases of_guard hs
    exact h.keep h.good h.tidy rfl rfl
  | filewrite contents =>
    cases hs
    exact h.keep h.good h.tidy rfl rfl
  | kalloc id handle =>
    simp only [Space.step] at hs
    split at hs
    · next k pa hnone hk =>
      cases hs
      obtain ⟨hgood, habs⟩ := h.good.kernelAlloc handle hk
      exact h.keep hgood (habs.symm ▸ h.tidy) rfl rfl
    · cases hs
      exact h
  | kfree id handle =>
    simp only [Space.step] at hs
    split at hs
    · cases hs
      exact h
    · next pa hh =>
      obtain ⟨k, hk, rfl⟩ := map_eq_some_iff.mp hs
      obtain ⟨hgood, habs⟩ := h.good.kernelFree hh hk
      exact h.keep hgood (habs.symm ▸ h.tidy) rfl rfl

/-! ## Operations that leave sizes and areas alone -/

structure Quiet (s s' : State) : Prop where
  sz : s'.sz = s.sz
  live : s'.live = s.live
  vma : s'.vma = s.vma
  region : s'.region = s.region
  image : s'.image = s.image

def Op.quiet : Op → Bool
  | .argaddr .. | .copyout .. | .fault .. | .shmgetat .. | .store .. | .kill .. | .filewrite ..
  | .kalloc .. | .kfree .. => true
  | _ => false

theorem Only.quiet (h : Only L s s' a) (hsz : a.sz = s.sz) (hlive : a.live = s.live) : Quiet s s' :=
  ⟨h.sz.trans hsz, h.live.trans hlive, h.vma, h.region, h.image⟩

theorem afterArgaddr_quiet {sp addr : Nat} {table : Bool} {rest : State → Option State}
    (hg : Good L s.toState) (h : afterArgaddr L id s p sp addr table rest = some s') :
    ∃ s1, Good L s1.toState ∧ Quiet s s1 ∧
      (s' = s1 ∨ (addr < MAXVA ∨ addr < s.sz p) ∧ rest s1 = some s') := by
  obtain ⟨s1, honly, -, hres⟩ := afterArgaddr_spec hg h
  have hrest : s' = s1 ∨ (addr < MAXVA ∨ addr < s.sz p) ∧ rest s1 = some s' :=
    hres.imp_right fun ⟨⟨_, ht⟩, hr⟩ => ⟨argaddr_true ht, hr⟩
  rcases honly with ho | ⟨-, -, -, ho⟩
  all_goals exact ⟨s1, ho.good, ho.quiet rfl rfl, hrest⟩

theorem step_quiet {op : Op} (hg : Good L s.toState) (hop : op.quiet = true)
    (hs : step L s op = some s') : Quiet s s' := by
  cases op with
  | argaddr id p sp addr table =>
    have hs := of_guard hs
    obtain ⟨s1, -, hquiet, rfl | ⟨-, hs⟩⟩ := afterArgaddr_quiet hg hs
    · exact hquiet
    · exact Option.some.inj hs ▸ hquiet
  | copyout id p va data =>
    have hs := of_guard hs
    obtain ⟨⟨t, o⟩, hc, rfl⟩ := map_eq_some_iff.mp hs
    obtain ⟨a, hbec, hshape⟩ := becomes_copyout _ _ _ _ _ _ _ hg hc
    exact (Only.of_becomes hbec).quiet hshape.sz hshape.live
  | fault id p sp va cause table =>
    obtain ⟨a, ho, hsz, hlive⟩ := usertrap_only hg (of_guard hs)
    exact ho.quiet hsz hlive
  | shmgetat id p num create table =>
    have hs := of_guard hs
    rcases shmgetat_spec hg hs with rfl | ⟨t, a, hbec, hsz, hlive, -, -, ⟨rfl, -⟩ | ⟨rfl, -⟩⟩
    · exact ⟨rfl, rfl, rfl, rfl, rfl⟩
    all_goals exact ⟨hbec.sz.trans hsz, hbec.live.trans hlive, rfl, rfl, rfl⟩
  | store p va b =>
    obtain ⟨e, rfl⟩ := store_some hs
    exact ⟨rfl, rfl, rfl, rfl, rfl⟩
  | kill p =>
    cases of_guard hs
    exact ⟨rfl, rfl, rfl, rfl, rfl⟩
  | filewrite contents =>
    cases hs
    exact ⟨rfl, rfl, rfl, rfl, rfl⟩
  | kalloc id handle =>
    simp only [Space.step] at hs
    split at hs <;> cases hs <;> exact ⟨rfl, rfl, rfl, rfl, rfl⟩
  | kfree id handle =>
    simp only [Space.step] at hs
    split at hs
    · cases hs
      exact ⟨rfl, rfl, rfl, rfl, rfl⟩
    · obtain ⟨k, -, rfl⟩ := map_eq_some_iff.mp hs
      exact ⟨rfl, rfl, rfl, rfl, rfl⟩
  | _ => cases hop

variable {mem : Nat → Nat → UInt8}

theorem sound_boot {k : Kmem} (hk : kinit L mem = some k)
    (contents : Nat → List UInt8) : Sound L (boot k contents) := by
  obtain ⟨hgood, htidy, -⟩ := boot_sim hk proc0
  refine ⟨hgood, ?_, ⟨by simp [boot], rfl⟩, fun q hq => by cases hq⟩
  exact fun q _ u => rfl

theorem sound_reachable {k : Kmem} (hk : kinit L mem = some k)
    (hs : Reachable (step L) (boot k contents) s) : Sound L s :=
  reachable_invariant (sound_boot hk contents) (fun _ _ _ h hs => h.step hs) hs

theorem boot_test {ops : List Op} {P : Kmem → State → Prop} [∀ k s, Decidable (P k s)]
    (h : ((kinit L mem).bind fun k => (run (step L) (boot k contents) ops).map
      (fun s => decide (P k s))) = some true) :
    ∃ k s, kinit L mem = some k ∧ run (step L) (boot k contents) ops = some s ∧ P k s := by
  cases hk : kinit L mem with
  | none =>
    rw [hk] at h
    cases h
  | some k =>
    rw [hk, bind_some] at h
    obtain ⟨s, hs, hP⟩ := run_test _ _ _ _ h
    exact ⟨k, s, rfl, hs, hP⟩

end Sound

/-! ## The page-fault path -/

section Faults
variable {L : Layout} {id : Fin NCPU} {s s' : State} {p : Slot} {sp va addr : Nat} {cause : Cause}
  {table : Bool}

theorem usertrap_handled (hg : Good L s.toState)
    (h : usertrap L id s p sp va cause table = some s') : Handled s s' p va := by
  by_cases hcow : cowpage s.toState p va = true
  · obtain ⟨s1, hs1, ho, hres⟩ := usertrap_marked hg hcow id sp cause table
    rw [h] at hs1
    cases hs1
    exact .inr ⟨ho.abs_eq, hres⟩
  rcases usertrap_unmarked hg (by simpa using hcow) h with
    ⟨i, ip, -, -, -, -, hfree, -, -, ho⟩ | ⟨hfree, -, -, -, ho⟩ | ⟨hkill, ho⟩
  · exact .inl ⟨_, _, (not_taken hfree).2, ho.abs_eq⟩
  · exact .inl ⟨_, _, (not_taken hfree).2, ho.abs_eq⟩
  · exact .inr ⟨ho.abs_eq, .inr hkill⟩

/-- In every reachable state a page fault is handled, whatever `walk` answers, exactly if no
new page is put over one in use and no bytes are asked of a file without inode; `argaddr`
panics exactly if it finds a page in use that the user cannot access. -/
theorem page_fault_handled_iff (L : Layout) (mem : Nat → Nat → UInt8) (k : Kmem)
    (hk : kinit L mem = some k) (contents : Nat → List UInt8) (s : State)
    (hs : Reachable (step L) (boot k contents) s) (id : Fin NCPU) (p : Slot) (sp : Nat) :
    (∀ va cause,
      (∀ table, ∃ s', usertrap L id s p sp va cause table = some s' ∧ Handled s s' p va) ↔
        ¬ Collides s id p sp va cause) ∧
    ∀ addr table, (argaddr L id s.toState p sp addr table).isSome ↔
      ¬ (walkaddr s.toState p addr = none ∧ aboveStack sp addr ∧ addr < s.sz p ∧
        HasPage s.toState id ∧ Taken s.toState p addr) := by
  have hg : Good L s.toState := (sound_reachable hk hs).good
  refine ⟨fun va cause => ?_, fun addr table => ?_⟩
  · rw [← usertrap_none_iff hg]
    constructor
    · rintro h ⟨table, hnone⟩
      obtain ⟨s', hs', -⟩ := h table
      rw [hnone] at hs'
      cases hs'
    · intro h table
      cases hres : usertrap L id s p sp va cause table with
      | none => exact absurd ⟨table, hres⟩ h
      | some s' => exact ⟨s', rfl, usertrap_handled hg hres⟩
  · rw [← (argaddr_spec hg table).1]
    exact Option.isSome_iff_ne_none

end Faults

def fivePages : Layout := ⟨PHYSTOP - 5 * PGSIZE, by decide⟩

def area0 : Area := ⟨0, by decide⟩

def growOps : List Op :=
  [.exec hart0 proc0 [fun _ => 0] (fun _ => 0), .sbrk hart0 proc0 4096]

theorem page_fault_handled_iff_heap : ∃ k s, kinit fivePages (fun _ _ => 0) = some k ∧
      run (step fivePages) (boot k fun _ => []) growOps = some s ∧
      Faults s.toState proc0 12288 .store ∧ ∀ table, ∃ s',
        usertrap fivePages hart0 s proc0 12000 12288 .store table = some s' ∧
          Handled s s' proc0 12288 := by
  obtain ⟨k, s, hk, hs, hfault, hvma, hfree⟩ : ∃ k s, kinit fivePages (fun _ _ => 0) = some k ∧
      run (step fivePages) (boot k fun _ => []) growOps = some s ∧
      Faults s.toState proc0 12288 .store ∧ findVma (s.vma proc0) (throughInt 12288) = none ∧
      ¬ Taken s.toState proc0 12288 := boot_test (by decide +kernel)
  refine ⟨k, s, hk, hs, hfault, ?_⟩
  refine ((page_fault_handled_iff fivePages _ k hk _ s ⟨_, hs⟩ hart0 proc0 12000).1 12288
    .store).mpr ?_
  rintro ⟨-, -, -, ⟨-, i, hserves, -⟩ | ⟨-, htaken⟩⟩
  · rw [Serves, hvma] at hserves
    cases hserves.1
  · exact hfree htaken

def mapOps : List Op :=
  [.exec hart0 proc0 [fun _ => 0] (fun _ => 0),
    .mmap hart0 proc0 12000 0 true 4096 1 2 ⟨true, false, some 3⟩ 0,
    .fault hart0 proc0 12000 12288 .load true]

/-- A store to the mapping is a panic, and so is a system call with the address of the guard
page above the stack pointer. -/
theorem store_to_read_only_mapping_panics : ∃ k s, kinit fivePages (fun _ _ => 0) = some k ∧
      run (step fivePages) (boot k fun _ => [7]) mapOps = some s ∧
      Runs s proc0 ∧ Faults s.toState proc0 12288 .store ∧
      usertrap fivePages hart0 s proc0 12000 12288 .store true = none ∧
      argaddr fivePages hart0 s.toState proc0 1 4096 true = none :=
  boot_test (by decide +kernel)

end BirdOS.Space
