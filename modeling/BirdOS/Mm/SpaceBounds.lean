import BirdOS.Mm.Vmas

/-! # Pages of a process stay inside its address space

As long as no access between the size and the shared memory is given a page (`Bounded`),
every entry of a page table lies below the size or in the attached shared memory, and no
page is lost when a process is reaped. -/

namespace BirdOS.Space

open Machine Kalloc Vm SharedCells Function List Option
open Shm (proc0 throughInt throughInt_eq)

def InSpace (sz shm va : Nat) : Prop := va < pgroundup64 sz ∨ (shm ≤ va ∧ va < KERNBASE)

instance (sz shm va : Nat) : Decidable (InSpace sz shm va) :=
  inferInstanceAs (Decidable (va < pgroundup64 sz ∨ (shm ≤ va ∧ va < KERNBASE)))

/-- No access beyond the size gets a page, the size is below `MAXVA`, and nothing is attached to
`proc[0]` where another process forks or runs `exec`. -/
def Bounded (s : State) : Op → Prop
  | .exec _ p _ _ => p = proc0 ∨ s.shm proc0 = KERNBASE
  | .sbrk _ p n => s.sz p + n.toInt ≤ MAXVA
  | .fork .. => s.shm proc0 = KERNBASE
  | .shmgetat _ _ num _ _ => num * PGSIZE ≤ s.shm proc0
  | .fault _ p sp va _ _ =>
    ¬ (aboveStack sp va ∧ pgroundup64 (s.sz p) ≤ va ∧ va < s.shm p) ∧
      (va < s.sz p → throughInt va < s.sz p ∨ findVma (s.vma p) (throughInt va) = none)
  | _ => True

instance (s : State) (op : Op) : Decidable (Bounded s op) := by
  apply op.casesOn (motive := fun op => Decidable (Bounded s op)) <;> intros <;>
    dsimp only [Bounded] <;> infer_instance

structure Confined (L : Layout) (s : State) : Prop where
  pages : ∀ p u g, (Vm.abs s.toState).pages p u = some g →
    InSpace (s.sz p) (s.shm p) (u * PGSIZE) ∧ (g.flags.u = true ∨ g.flags.r = true)
  size : ∀ p, s.sz p ≤ MAXVA
  shm : ∀ p, p ≠ proc0 → s.shm p = KERNBASE
  base : s.shm proc0 ≤ KERNBASE ∧ s.shm proc0 % PGSIZE = 0
  counted : Counted L s.toState

section Confined
variable {L : Layout} {id : Fin NCPU} {s s' : State} {p q : Slot}

theorem pgroundup64_eq {a : Nat} (h : a ≤ MAXVA) : pgroundup64 a = pgroundup a := by
  unfold pgroundup64 pgroundup
  rw [Nat.mod_eq_of_lt]
  unfold MAXVA at h
  simp only [PGSIZE]
  omega

theorem le_pgroundup64 {a : Nat} (h : a ≤ MAXVA) : a ≤ pgroundup64 a := by
  rw [pgroundup64_eq h]
  simp only [pgroundup, PGSIZE]
  omega

theorem pgroundup64_mono {a b : Nat} (hab : a ≤ b) (h : b ≤ MAXVA) :
    pgroundup64 a ≤ pgroundup64 b := by
  rw [pgroundup64_eq h, pgroundup64_eq (le_trans hab h)]
  simp only [pgroundup, PGSIZE]
  omega

theorem pgroundup64_page {a u : Nat} (h : a ≤ MAXVA) (hu : u * PGSIZE < a) :
    u * PGSIZE < pgroundup64 a :=
  lt_of_lt_of_le hu (le_pgroundup64 h)

variable {va : Nat}

theorem inSpace_of_lt {sz : Nat} (shm : Nat) (h : sz ≤ MAXVA) (hva : va < pgroundup64 sz) :
    InSpace sz shm (va / PGSIZE * PGSIZE) := by
  left
  rw [pgroundup64_eq h] at hva ⊢
  simp only [pgroundup, PGSIZE] at hva ⊢
  omega

theorem InSpace.grow {sz sz' shm : Nat} (h : InSpace sz shm va) (hle : sz ≤ sz')
    (hmax : sz' ≤ MAXVA) : InSpace sz' shm va :=
  h.imp_left fun hlt => lt_of_lt_of_le hlt (pgroundup64_mono hle hmax)

def Within (s : State) (a : Spaces) : Prop :=
  ∀ q u g, a.pages q u = some g →
    (∃ g', (Vm.abs s.toState).pages q u = some g' ∧ g'.flags = g.flags) ∨
    (InSpace (s.sz q) (s.shm q) (u * PGSIZE) ∧ (g.flags.u = true ∨ g.flags.r = true))

theorem Within.refl (s : State) : Within s (Vm.abs s.toState) :=
  fun _ _ g hg => .inl ⟨g, hg, rfl⟩

variable {a : Spaces}

theorem Within.setPage {v : Nat} {g : Page} (hin : InSpace (s.sz p) (s.shm p) (v * PGSIZE))
    (hflags : g.flags.u = true ∨ g.flags.r = true) :
    Within s ((Vm.abs s.toState).setPage p v (some g)) := by
  intro q u g' hg'
  rw [Spaces.setPage_pages] at hg'
  split at hg'
  · next hqu =>
    cases hg'
    rw [hqu.1, hqu.2]
    exact .inr ⟨hin, hflags⟩
  · exact .inl ⟨g', hg', rfl⟩

theorem Within.sub
    (h : ∀ q u, a.pages q u = none ∨ a.pages q u = (Vm.abs s.toState).pages q u) : Within s a := by
  intro q u g hg
  rcases h q u with hnone | hsame
  · rw [hnone] at hg
    cases hg
  · exact .inl ⟨g, hsame ▸ hg, rfl⟩

theorem Within.unmap (v n : Nat) : Within s ((Vm.abs s.toState).unmap p v n) := by
  refine Within.sub fun q u => ?_
  rw [unmap_pages]
  split
  · exact .inl rfl
  · exact .inr rfl

theorem Confined.within (h : Confined L s) (hw : Within s a) {u : Nat} {g : Page}
    (hg : a.pages q u = some g) :
    InSpace (s.sz q) (s.shm q) (u * PGSIZE) ∧ (g.flags.u = true ∨ g.flags.r = true) := by
  rcases hw q u g hg with ⟨g', hg', hflags⟩ | hnew
  · obtain ⟨hin, hrights⟩ := h.pages q u g' hg'
    rw [hflags] at hrights
    exact ⟨hin, hrights⟩
  · exact hnew

theorem Confined.keep (h : Confined L s) (hb : Becomes L s.toState s'.toState a)
    (hw : Within s a) (hsz : a.sz = s.sz) (hshm : s'.shm = s.shm) : Confined L s' := by
  have hsz' : s'.sz = s.sz := hb.sz.trans hsz
  refine ⟨fun q u g hg => ?_, ?_, ?_, ?_, hb.counted h.counted⟩
  · rw [hb.abs_eq] at hg
    rw [hsz', hshm]
    exact h.within hw hg
  · rw [hsz']
    exact h.size
  · rw [hshm]
    exact h.shm
  · rw [hshm]
    exact h.base

theorem Confined.only (h : Confined L s) (ho : Only L s s' a) (hw : Within s a)
    (hsz : a.sz = s.sz) : Confined L s' :=
  h.keep ho.toBecomes hw hsz ho.shm

variable {sp : Nat} {table : Bool}

theorem Confined.argaddr (h : Confined L s) (hg : Good L s.toState) {addr : Nat}
    {rest : State → Option State}
    (hrest : ∀ s1 s', Good L s1.toState → Confined L s1 → rest s1 = some s' → Confined L s')
    (hs : afterArgaddr L id s p sp addr table rest = some s') : Confined L s' := by
  obtain ⟨s1, honly, -, hres⟩ := afterArgaddr_spec hg hs
  have hboth : Good L s1.toState ∧ Confined L s1 := by
    rcases honly with ho | ⟨-, hlt, -, ho⟩
    · exact ⟨ho.good, h.only ho (Within.refl s) rfl⟩
    have hin := inSpace_of_lt (s.shm p) (h.size p)
      (lt_of_lt_of_le hlt (le_pgroundup64 (h.size p)))
    exact ⟨ho.good, h.only ho (Within.setPage hin (.inl rfl)) rfl⟩
  rcases hres with rfl | ⟨-, hres⟩
  · exact hboth.2
  · exact hrest s1 s' hboth.1 hboth.2 hres

theorem Confined.fault (h : Confined L s) (hg : Good L s.toState) {cause : Cause}
    (hb : Bounded s (.fault id p sp va cause table))
    (hs : usertrap L id s p sp va cause table = some s') : Confined L s' := by
  have hsize := h.size p
  have hnew : ∀ {w : Nat}, w < pgroundup64 (s.sz p) →
      InSpace (s.sz p) (s.shm p) (w / PGSIZE * PGSIZE) :=
    fun hw => inSpace_of_lt (s.shm p) hsize hw
  have hlow : ∀ {w : Nat}, w < s.sz p → w < pgroundup64 (s.sz p) :=
    fun hw => lt_of_lt_of_le hw (le_pgroundup64 hsize)
  by_cases hcow : cowpage s.toState p va = true
  · obtain ⟨s1, hs1, ho, -⟩ := usertrap_marked hg hcow id sp cause table
    rw [hs] at hs1
    cases hs1
    exact h.only ho (Within.refl s) rfl
  rcases usertrap_unmarked hg (by simpa using hcow) hs with
    ⟨i, ip, hlt, hserves, -, -, -, -, -, ho⟩ | ⟨-, habove, hrange, -, ho⟩ | ⟨-, ho⟩
  · have hin : throughInt va < s.sz p := by
      rcases hb.2 hlt with hin | hnone
      · exact hin
      · rw [hserves.1] at hnone
        cases hnone
    exact h.only ho (Within.setPage (hnew (hlow hin)) (.inl rfl)) rfl
  · have hin : va < pgroundup64 (s.sz p) := by
      rcases hrange with hlt | hshm
      · exact hlow hlt
      · exact Nat.lt_of_not_le fun hle => hb.1 ⟨habove, hle, hshm⟩
    exact h.only ho (Within.setPage (hnew hin) (.inl rfl)) rfl
  · exact h.only ho (Within.refl s) rfl

theorem Confined.grow (h : Confined L s) {n : Nat} (hle : s.sz p ≤ n) (hn : n ≤ MAXVA) :
    Confined L { s with sz := update s.sz p n } := by
  refine ⟨fun q u g hg => ?_, fun q => ?_, h.shm, h.base, h.counted.congr rfl fun _ _ => rfl⟩
  · obtain ⟨hin, hflags⟩ := h.pages q u g hg
    refine ⟨?_, hflags⟩
    obtain rfl | hqp := eq_or_ne q p
    · simp only [update_self]
      exact hin.grow hle hn
    · simp only [update_of_ne hqp]
      exact hin
  · obtain rfl | hqp := eq_or_ne q p
    · simpa using hn
    · simp only [update_of_ne hqp]
      exact h.size q

theorem programPages_flags {program : List (Nat → UInt8)} {stack : Nat → UInt8}
    {fl : Flags × (Nat → UInt8)} (h : fl ∈ programPages program stack) :
    fl.1.own.u = true ∨ fl.1.own.r = true := by
  unfold programPages at h
  rw [mem_append] at h
  rcases h with hm | hm
  · obtain ⟨c, -, rfl⟩ := mem_map.mp hm
    exact .inl rfl
  simp only [mem_cons, not_mem_nil, or_false] at hm
  rcases hm with rfl | rfl
  · exact .inr rfl
  · exact .inl rfl

theorem Confined.exec (h : Confined L s) (hg : Good L s.toState)
    {program : List (Nat → UInt8)} {stack : Nat → UInt8}
    (hb : p = proc0 ∨ s.shm proc0 = KERNBASE) (hs : exec L id s p program stack = some s') :
    Confined L s' := by
  obtain ⟨hfits, t, rfl, -, hsz, -, hother, hown, hcount⟩ := exec_spec hg hs
  have hmax : (program.length + 2) * PGSIZE ≤ MAXVA := by
    unfold TRAPFRAME at hfits
    omega
  have hshm : ∀ q, q ≠ p → update s.shm proc0 KERNBASE q = s.shm q := by
    intro q hq
    by_cases hq0 : q = proc0
    · rw [hq0, update_self]
      exact (hb.resolve_left fun hp => hq (hq0.trans hp.symm)).symm
    · rw [update_of_ne hq0]
  have hcounted : Counted L t := by
    refine hcount h.counted fun u hu hout => ?_
    by_contra hmapped
    obtain ⟨g, hpage⟩ := Option.ne_none_iff_exists'.mp
      (mt (pages_none s.toState p u).mp hmapped)
    have hin := (h.pages p u g hpage).1
    have hup := pgroundup64_eq (h.size p)
    have hbase := h.base
    unfold InSpace at hin
    by_cases hp : p = proc0
    · rw [hp] at hin hu hup
      simp only [pgroundup, PGSIZE, KERNBASE] at hin hu hup hout hbase
      omega
    rw [h.shm p hp] at hin
    simp only [pgroundup, PGSIZE, KERNBASE] at hin hu hup
    omega
  refine ⟨fun q u g hpage => ?_, fun q => ?_, fun q hq => ?_, ?_, ?_⟩
  · have hpage' : (Vm.abs t).pages q u = some g := hpage
    obtain rfl | hqp := eq_or_ne q p
    · rw [hown u] at hpage'
      obtain ⟨fl, hfl, rfl⟩ := Option.map_eq_some_iff.mp hpage'
      obtain ⟨hlt, -⟩ := List.getElem?_eq_some_iff.mp hfl
      have hlen : (programPages program stack).length = program.length + 2 := by
        simp [programPages]
      refine ⟨.inl ?_, programPages_flags (List.mem_of_getElem? hfl)⟩
      simp only [update_self]
      refine pgroundup64_page hmax ?_
      rw [hlen] at hlt
      exact Nat.mul_lt_mul_of_pos_right hlt (by decide)
    · rw [hother q u hqp] at hpage'
      simp only [update_of_ne hqp, hsz, hshm q hqp]
      exact h.pages q u g hpage'
  · obtain rfl | hqp := eq_or_ne q p
    · simpa using hmax
    · simp only [update_of_ne hqp, hsz]
      exact h.size q
  · simp only [update_of_ne hq]
    exact h.shm q hq
  · simp only [update_self]
    exact ⟨le_rfl, by decide⟩
  · exact hcounted.congr rfl fun _ _ => rfl

theorem Confined.fork (h : Confined L s) (hg : Good L s.toState) {np : Slot} {fail : Option Nat}
    (hne : p ≠ np) (hnp : ∀ u, s.pt np u = none) (hb : s.shm proc0 = KERNBASE)
    (hs : fork L id s p np fail = some s') : Confined L s' := by
  obtain ⟨t, hgood, hcount, hcases⟩ := fork_spec hg hne hnp hs
  rcases hcases with ⟨rfl, habs⟩ | ⟨-, rfl, hsz, -, hpages⟩
  · exact h.keep ⟨hgood, habs, hcount⟩ (Within.refl s) rfl rfl
  refine ⟨fun q u g hpage => ?_, fun q => ?_, fun q hq => ?_, ?_, hcount h.counted⟩
  · have hpage' : (Vm.abs t).pages q u = some g := hpage
    rw [hpages q u] at hpage'
    obtain rfl | hqn := eq_or_ne q np
    · split at hpage'
      · next hin =>
        refine ⟨.inl ?_, (h.pages p u g hpage').2⟩
        simp only [hsz, update_self]
        have hup := pgroundup64_eq (h.size p)
        simp only [pgroundup, PGSIZE] at hin hup ⊢
        omega
      · rw [(pages_none s.toState q u).mpr (hnp u)] at hpage'
        cases hpage'
    · rw [if_neg (fun hc => hqn hc.1)] at hpage'
      simp only [hsz, update_of_ne hqn]
      exact h.pages q u g hpage'
  · obtain rfl | hqn := eq_or_ne q np
    · simp only [hsz, update_self]
      exact h.size p
    · simp only [hsz, update_of_ne hqn]
      exact h.size q
  · obtain rfl | hqn := eq_or_ne q np
    · simpa using hb
    · simp only [update_of_ne hqn]
      exact h.shm q hq
  · by_cases h0 : proc0 = np
    · rw [← h0]
      simp only [update_self]
      exact h.base
    · simp only [update_of_ne h0]
      exact h.base

theorem throughInt_low {x : Nat} (h : x ≤ KERNBASE) : throughInt x % 2 ^ 32 = x := by
  rcases Nat.lt_or_eq_of_le h with hlt | rfl
  · rw [throughInt_eq hlt]
    unfold KERNBASE at hlt
    omega
  · decide

theorem Confined.shmgetat (h : Confined L s) (hg : Good L s.toState) {num : Nat} {create : Bool}
    {table : Nat → Bool} (hb : num * PGSIZE ≤ s.shm proc0)
    (hs : shmgetat L id s num create table = some s') : Confined L s' := by
  rcases shmgetat_spec hg hs with rfl | ⟨t, a, hbec, hsz, -, hbase, hal, hcases⟩
  · exact h
  rcases hcases with ⟨rfl, hsub⟩ | ⟨rfl, hother, hnew⟩
  · exact h.keep hbec (Within.sub hsub) hsz rfl
  have hsub : ((s.shm proc0 : Int) - num * PGSIZE) = (s.shm proc0 - num * PGSIZE : Nat) := by
    push_cast [Nat.cast_sub hb]
    rfl
  have hwrap : wrap (s.shm proc0 - num * PGSIZE) = s.shm proc0 - num * PGSIZE := by
    have hrange := wrap_of_range (x := (s.shm proc0 - num * PGSIZE : Nat)) (by omega) (by
      unfold KERNBASE at hbase
      omega)
    rw [hsub]
    omega
  rw [hwrap] at hother ⊢
  rw [throughInt_low (by omega)]
  have hts : t.sz = s.sz := hbec.sz.trans hsz
  refine ⟨fun q u g hpage => ?_, ?_, fun q hq => ?_, ?_, hbec.counted h.counted⟩
  · have hpage' : a.pages q u = some g := by
      rw [← hbec.abs_eq]
      exact hpage
    by_cases hin : q = proc0 ∧ (s.shm proc0 - num * PGSIZE) / PGSIZE ≤ u ∧
        u < (s.shm proc0 - num * PGSIZE) / PGSIZE +
          (s.shm proc0 - (s.shm proc0 - num * PGSIZE)) / PGSIZE
    · obtain ⟨rfl, hlow, hhigh⟩ := hin
      refine ⟨.inr ?_, ?_⟩
      · simp only [update_self]
        simp only [PGSIZE, KERNBASE] at hlow hhigh hal hb hbase ⊢
        omega
      · rcases hnew u g hpage' with hold | hu
        · exact (h.pages proc0 u g hold).2
        · exact .inl hu
    · rw [hother q u hin] at hpage'
      obtain ⟨hspace, hflags⟩ := h.pages q u g hpage'
      refine ⟨?_, hflags⟩
      rw [hts]
      obtain rfl | hq := eq_or_ne q proc0
      · simp only [update_self]
        exact hspace.imp_right fun hr => ⟨by omega, hr.2⟩
      · simp only [update_of_ne hq]
        exact hspace
  · rw [hts]
    exact h.size
  · simp only [update_of_ne hq]
    exact h.shm q hq
  · simp only [update_self]
    simp only [PGSIZE, KERNBASE] at hal hbase ⊢
    omega

theorem Confined.reap (h : Confined L s) (hg : Good L s.toState) (hp : p ≠ proc0)
    (hs : reap L id s p = some s') : Confined L s' := by
  obtain ⟨-, t, rfl, -, habs, hcount⟩ := reap_spec hg hs
  have hsz : t.sz = s.sz := congrArg Spaces.sz habs
  have hcounted : Counted L t := by
    refine hcount h.counted fun u hu => ?_
    by_contra hmapped
    obtain ⟨g, hpage⟩ := ne_none_iff_exists'.mp
      (mt (pages_none s.toState p u).mp hmapped)
    have hin := (h.pages p u g hpage).1
    have hup := pgroundup64_eq (h.size p)
    unfold InSpace at hin
    rw [h.shm p hp] at hin
    simp only [pgroundup, PGSIZE, KERNBASE] at hin hu hup
    omega
  refine ⟨fun q u g hpage => ?_, fun q => ?_, h.shm, h.base, hcounted.congr rfl fun _ _ => rfl⟩
  · have hpage' : (Vm.abs t).pages q u = some g := hpage
    rw [habs, Spaces.setTable_pages] at hpage'
    split at hpage'
    · cases hpage'
    · next hqp =>
      simp only [update_of_ne hqp, hsz]
      exact h.pages q u g hpage'
  · obtain rfl | hqp := eq_or_ne q p
    · simp
    · simp only [update_of_ne hqp, hsz]
      exact h.size q

end Confined

end BirdOS.Space
