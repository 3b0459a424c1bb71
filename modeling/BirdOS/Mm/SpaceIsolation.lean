import BirdOS.Mm.SpaceInvariant

/-! # Processes do not see each other's operations

An operation changes the pages of one process at most (`Op.target`), whatever pages are
shared below: for `fork` it is the child, and for `shmgetat` the first process, whoever
calls it.  `copyout` does not ask whether the caller may write, so it has to be kept from
pages that are shared for reading. -/

namespace BirdOS.Space

open Kalloc Vm Shm Machine Function Option

/-- The process whose pages the operation changes. -/
def Op.target : Op → Option Slot
  | .exec _ p _ _ | .sbrk _ p _ | .mmap _ p .. | .munmap _ p .. | .argaddr _ p .. | .copyout _ p ..
  | .fault _ p .. | .exit _ p _ | .reap _ p | .store p .. => some p
  | .fork _ _ np _ => some np
  | .shmgetat .. => some proc0
  | .kill _ | .filewrite _ | .kalloc .. | .kfree .. => none

/-- A `copyout` goes to pages that its process may write. -/
def Op.Permitted (s : State) : Op → Prop
  | .copyout _ p va data => (Vm.abs s.toState).MayWrite p va data.length
  | _ => True

def Unseen (q : Slot) (s s' : Vm.State) : Prop := (Vm.abs s').pages q = (Vm.abs s).pages q

variable {L : Layout} {id : Fin NCPU} {s s' : State} {p q : Slot}

theorem Unseen.of_setTable {t t' : Vm.State} {f : Nat → Option Page} (hq : q ≠ p)
    (h : Vm.abs t' = (Vm.abs t).setTable p f) : Unseen q t t' := by
  rw [Unseen, h]
  exact update_of_ne hq ..

theorem Unseen.of_abs {t t' : Vm.State} (h : Vm.abs t' = Vm.abs t) : Unseen q t t' := by
  rw [Unseen, h]

theorem Unseen.trans {t t' t'' : Vm.State} (h : Unseen q t t') (h' : Unseen q t' t'') :
    Unseen q t t'' := Eq.trans h' h

theorem Unseen.argaddr {sp addr : Nat} {table : Bool} {rest : State → Option State}
    (hg : Good L s.toState) (hq : q ≠ p)
    (hrest : ∀ s1 s', Good L s1.toState → rest s1 = some s' → Unseen q s1.toState s'.toState)
    (hs : afterArgaddr L id s p sp addr table rest = some s') :
    Unseen q s.toState s'.toState := by
  obtain ⟨s1, honly, -, hres⟩ := afterArgaddr_spec hg hs
  have hfirst : Good L s1.toState ∧ Unseen q s.toState s1.toState := by
    rcases honly with ho | ⟨-, -, -, ho⟩
    · exact ⟨ho.good, .of_abs ho.abs_eq⟩
    · exact ⟨ho.good, .of_setTable hq ho.abs_eq⟩
  rcases hres with rfl | ⟨-, hres⟩
  · exact hfirst.2
  · exact hfirst.2.trans (hrest s1 s' hfirst.1 hres)

theorem Unseen.mmap (q : Slot) (addr : Nat) (length : Int) (prot flags : BitVec 32) (vfile : File)
    (offset : Int) :
    Unseen q s.toState (mmap s p addr length prot flags vfile offset).1.toState := by
  unfold Space.mmap
  repeat' split
  all_goals rfl

theorem Unseen.shmgetat {num : Nat} {create : Bool} {table : Nat → Bool}
    (hg : Good L s.toState) (hq : q ≠ proc0) (hs : shmgetat L id s num create table = some s') :
    Unseen q s.toState s'.toState := by
  simp only [Space.shmgetat] at hs
  split at hs
  · cases hs
    rfl
  split at hs
  · cases hs
  · next t hloop =>
    cases hs
    obtain ⟨a, hbec, -, -, hother, -⟩ := becomes_allocshmLoop _ _ _ _ _ hg hloop
    exact funext fun u => hbec.abs_eq ▸ hother q u fun hc => hq hc.1
  · next t hloop =>
    obtain ⟨t', ht', rfl⟩ := map_eq_some_iff.mp hs
    obtain ⟨a, hbec, -, -, hother, -⟩ := becomes_allocshmLoop _ _ _ _ _ hg hloop
    have hloop : Unseen q s.toState t := funext fun u => hbec.abs_eq ▸ hother q u fun hc => hq hc.1
    exact hloop.trans (.of_setTable hq (becomes_uvmunmap hbec.good ht').abs_eq)

theorem Unseen.exit {contents : Nat → List UInt8} (hg : Good L s.toState) (hq : q ≠ p)
    (hs : exit L id s p contents = some s') : Unseen q s.toState s'.toState := by
  obtain ⟨t, c, ht, rfl⟩ := exit_invariant
    (I := fun t => Good L t.toState ∧ Unseen q s.toState t.toState)
    (fun t i t' hi ht => by
      rcases unmapVmas_spec hi.1 ht with ⟨-, rfl⟩ | ⟨-, -, u, rfl, hbec⟩
      · exact hi
      · exact ⟨hbec.good, hi.2.trans (.of_setTable hq hbec.abs_eq)⟩) ⟨hg, rfl⟩ hs
  exact ht.2

theorem Unseen.store {va : Nat} {b : UInt8} (hg : Good L s.toState) (hq : q ≠ p)
    (hs : step L s (.store p va b) = some s') : Unseen q s.toState s'.toState := by
  simp only [Space.step] at hs
  split at hs
  · cases hs
  · next e he =>
    obtain ⟨⟨-, hfault⟩, hs⟩ := ite_none_right_eq_some.mp hs
    cases hs
    have hw : e.flags.w = true := by
      simp only [Faults, he, mem_some_iff] at hfault
      push Not at hfault
      obtain ⟨_, rfl, -, -, hw⟩ := hfault
      exact hw
    have hfit : va % PGSIZE + [b].length ≤ PGSIZE := by
      simp only [PGSIZE, List.length_cons, List.length_nil]
      omega
    exact .of_setTable hq (hg.writePage (walk_some he).2 hw hfit).2

theorem step_unseen {op : Op} (h : Sound L s) (hop : op.target ≠ some q) (hperm : op.Permitted s)
    (hs : step L s op = some s') : Unseen q s.toState s'.toState := by
  have hg := h.good
  have other {p : Slot} (ht : op.target = some p) : q ≠ p :=
    fun hc => hop (ht.trans (congrArg some hc.symm))
  cases op with
  | exec id p program stack =>
    obtain ⟨-, t, rfl, -, -, -, hother, -, -⟩ := exec_spec hg (of_guard hs)
    exact funext fun u => hother q u (other rfl)
  | sbrk id p n =>
    rcases sbrk_spec hg (of_guard hs) with ⟨-, rfl⟩ | rfl | ⟨-, -, -, t, rfl, hbec⟩
    · rfl
    · rfl
    · have hunmap : Unseen q s.toState t := .of_setTable (other rfl) hbec.abs_eq
      exact hunmap
  | mmap id p sp addr table length prot flags vfile offset =>
    refine .argaddr hg (other rfl) (fun s1 s' h1 hm => ?_) (of_guard hs)
    cases hm
    exact .mmap ..
  | munmap id p sp addr table length contents =>
    refine .argaddr hg (other rfl) (fun s1 s' h1 hm => ?_) (of_guard hs)
    rcases munmap_spec h1 hm with ⟨-, rfl⟩ | ⟨i, t, c, -, -, rfl, hbec⟩
    · rfl
    · exact .of_setTable (other rfl) hbec.abs_eq
  | argaddr id p sp addr table =>
    refine .argaddr hg (other rfl) (fun s1 s' h1 hm => ?_) (of_guard hs)
    cases hm
    rfl
  | copyout id p va data =>
    obtain ⟨⟨t, o⟩, hc, rfl⟩ := map_eq_some_iff.mp (of_guard hs)
    obtain ⟨-, n, -, habs, -⟩ := hg.copyout _ _ _ _ _ _ _ hperm hc
    exact .of_setTable (other rfl) habs
  | fault id p sp va cause table =>
    rcases usertrap_handled hg (of_guard hs) with ⟨v, g, -, habs⟩ | ⟨habs, -⟩
    · exact .of_setTable (other rfl) habs
    · exact .of_abs habs
  | fork id p np fail =>
    obtain ⟨-, hne, hfree, hs⟩ := h.fork_some hs
    obtain ⟨t, -, -, ⟨rfl, habs⟩ | ⟨-, rfl, -, -, hpages⟩⟩ := fork_spec hg hne hfree hs
    · exact .of_abs habs
    · exact funext fun u => (hpages q u).trans (if_neg fun hc => other rfl hc.1)
  | shmgetat id p num create table =>
    exact .shmgetat hg (other rfl) (of_guard hs)
  | exit id p contents =>
    exact .exit hg (other rfl) (of_guard hs)
  | reap id p =>
    obtain ⟨-, t, rfl, -, habs, -⟩ := reap_spec hg (of_guard hs)
    have hfree : Unseen q s.toState t := .of_setTable (other rfl) habs
    exact hfree
  | store p va b => exact .store hg (other rfl) hs
  | kill p =>
    cases of_guard hs
    rfl
  | filewrite contents =>
    cases hs
    rfl
  | kalloc id handle =>
    simp only [Space.step] at hs
    split at hs
    · next k pa hnone hk =>
      cases hs
      exact .of_abs (hg.kernelAlloc handle hk).2
    · cases hs
      rfl
  | kfree id handle =>
    simp only [Space.step] at hs
    split at hs
    · cases hs
      rfl
    · next pa hh =>
      obtain ⟨k, hk, rfl⟩ := map_eq_some_iff.mp hs
      exact .of_abs (hg.kernelFree hh hk).2

/-- From any reachable state on, a process sees the same bytes with the same rights at all
its addresses until an operation is its own, reaps it, or is a `shmgetat` if it is the
first process. -/
theorem memory_isolated (L : Layout) (mem : Nat → Nat → UInt8) (k : Kmem)
    (hk : kinit L mem = some k) (contents : Nat → List UInt8) (s : State)
    (hs : Reachable (step L) (boot k contents) s) (q : Slot) (ops : List Op) (t : State)
    (hops : Along (step L) (fun s op => op.target ≠ some q ∧ op.Permitted s) s ops)
    (ht : run (step L) s ops = some t) :
    (Vm.abs t.toState).pages q = (Vm.abs s.toState).pages q := by
  have hend := along_invariant (I := fun t => Sound L t ∧ Unseen q s.toState t.toState)
    (fun u op u' hu hop hstep =>
      ⟨hu.1.step hstep, hu.2.trans (step_unseen hu.1 hop.1 hop.2 hstep)⟩)
    ops s t ⟨sound_reachable hk hs, rfl⟩ hops ht
  exact hend.2

def forkOps : List Op :=
  [.exec hart0 proc0 [fun _ => 0] (fun _ => 0), .fork hart0 proc0 1 none]

def childStores : List Op := [.fault hart0 1 12000 0 .store true, .store 1 0 5]

/-- A child stores to the page of the program that it shares with its parent. -/
theorem memory_isolated_child : ∃ k s t, kinit fivePages (fun _ _ => 0) = some k ∧
    run (step fivePages) (boot k fun _ => []) forkOps = some s ∧
    run (step fivePages) s childStores = some t ∧
    (Vm.abs t.toState).pages proc0 = (Vm.abs s.toState).pages proc0 := by
  obtain ⟨k, s, hk, hs, hrun⟩ : ∃ k s, kinit fivePages (fun _ _ => 0) = some k ∧
      run (step fivePages) (boot k fun _ => []) forkOps = some s ∧
      (run (step fivePages) s childStores).isSome := boot_test (by decide +kernel)
  obtain ⟨t, ht⟩ := isSome_iff_exists.mp hrun
  refine ⟨k, s, t, hk, hs, ht,
    memory_isolated fivePages _ k hk _ s ⟨_, hs⟩ proc0 childStores t ?_ ht⟩
  exact ⟨⟨by decide, trivial⟩, fun _ _ => ⟨⟨by decide, trivial⟩, fun _ _ => trivial⟩⟩

end BirdOS.Space
