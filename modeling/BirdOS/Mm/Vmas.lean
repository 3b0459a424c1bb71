import BirdOS.Mm.SpaceInvariant

/-! # The VMA table

Where the VMAs of a process lie, as long as the calls of the user are tame (`Tame`): `mmap`
finds the size aligned, `munmap` gets a range that starts on a page and a front that ends
on one, `sbrk` does not shrink under a VMA, and `exec` finds no VMA. -/

namespace BirdOS.Space

open Kalloc Vm Function Option Machine
open Shm (proc0)

structure Placed (sz image : Nat) (a : Vma) (r : Region) : Prop where
  aligned : a.addr % PGSIZE = 0
  len : 0 ≤ a.len ∧ a.len < 2 ^ 31
  below : a.addr + a.len ≤ sz
  inside : r.start ≤ a.addr ∧ a.addr + a.len ≤ r.start + r.len
  image : r.image = image

def Vma.Apart (a b : Vma) : Prop := (a.addr + a.len ≤ b.addr) ∨ (b.addr + b.len ≤ a.addr)

structure Areas (s : State) (p : Slot) : Prop where
  size : s.sz p ≤ MAXVA
  placed : ∀ i, (s.vma p i).used = true →
    Placed (s.sz p) (s.image p) (s.vma p i) (s.region p i)
  apart : ∀ i j, i ≠ j → (s.vma p i).used = true → (s.vma p j).used = true →
    (s.vma p i).Apart (s.vma p j)

def Tame (s : State) : Op → Prop
  | .exec _ p _ _ => ∀ i, (s.vma p i).used = false
  | .sbrk _ p n => (0 < n.toInt → s.sz p + n.toInt ≤ MAXVA) ∧
      (n.toInt ≤ 0 → 0 < s.sz p + n.toInt → ∀ i, (s.vma p i).used = true →
        (s.vma p i).addr + (s.vma p i).len ≤ s.sz p + n.toInt)
  | .mmap _ p _ addr _ length prot flags vfile offset =>
    (mmap s p addr length.toInt prot flags vfile offset.toInt).2.isSome →
      s.sz p % PGSIZE = 0
  | .munmap _ p _ addr _ length _ => ∀ i, findUnmap (s.vma p) addr length.toInt = some i →
      0 ≤ length.toInt ∧ addr % PGSIZE = 0 ∧
        ((s.vma p i).addr = addr →
          length.toInt % PGSIZE = 0 ∨ length.toInt = (s.vma p i).len)
  | _ => True

instance (s : State) (op : Op) : Decidable (Tame s op) := by
  cases op <;> dsimp only [Tame] <;> infer_instance

def Unmaps (L : Layout) (s : State) : Op → Slot → Nat → Nat → Prop
  | .munmap id p sp addr table length _, q, va, n =>
    q = p ∧ Runs s p ∧ va = addr ∧ n = pageCount length.toInt ∧
      (∃ t, argaddr L id s.toState p sp addr table = some (t, true)) ∧
      (findUnmap (s.vma p) addr length.toInt).isSome
  | .exit _ p _, q, va, n =>
    q = p ∧ s.live p = true ∧ ∃ i, (s.vma p i).used = true ∧ va = (s.vma p i).addr ∧
      n = pageCount (s.vma p i).len
  | _, _, _, _ => False

section Areas
variable {L : Layout} {id : Fin NCPU} {s s' : State} {p q : Slot}

theorem Areas.sub (h : Areas s q) (hsz : s'.sz q = s.sz q) (hregion : s'.region q = s.region q)
    (himage : s'.image q = s.image q)
    (hsub : ∀ i, (s'.vma q i).used = true → (s.vma q i).used = true ∧
      (s'.vma q i).addr % PGSIZE = 0 ∧ 0 ≤ (s'.vma q i).len ∧ (s.vma q i).addr ≤ (s'.vma q i).addr ∧
      (s'.vma q i).addr + (s'.vma q i).len ≤ (s.vma q i).addr + (s.vma q i).len) :
    Areas s' q := by
  refine ⟨by rw [hsz]; exact h.size, fun i hi => ?_, fun i j hij hi hj => ?_⟩
  · obtain ⟨hused, hal, hlen, hlow, hhigh⟩ := hsub i hi
    obtain ⟨-, hlen', hbelow, hinside, himage'⟩ := h.placed i hused
    rw [hsz, hregion, himage]
    exact ⟨hal, ⟨hlen, by omega⟩, by omega, ⟨by omega, by omega⟩, himage'⟩
  · obtain ⟨hui, -, -, hlowi, hhighi⟩ := hsub i hi
    obtain ⟨huj, -, -, hlowj, hhighj⟩ := hsub j hj
    have hapart := h.apart i j hij hui huj
    unfold Vma.Apart at hapart ⊢
    omega

theorem Areas.frame (h : Areas s q) (hsz : s'.sz q = s.sz q) (hvma : s'.vma q = s.vma q)
    (hregion : s'.region q = s.region q) (himage : s'.image q = s.image q) : Areas s' q := by
  refine h.sub hsz hregion himage fun i hi => ?_
  rw [hvma] at hi ⊢
  exact ⟨hi, (h.placed i hi).aligned, (h.placed i hi).len.1, le_rfl, Int.le_refl _⟩

theorem Areas.quiet (h : Areas s q) (hq : Quiet s s') : Areas s' q :=
  h.frame (congrFun hq.sz q) (congrFun hq.vma q) (congrFun hq.region q) (congrFun hq.image q)

theorem wrap_of_range {x : Int} (h0 : 0 ≤ x) (h : x < 2 ^ 64) : (wrap x : Int) = x := by
  unfold wrap
  rw [Int.emod_eq_of_lt h0 (by exact_mod_cast h)]
  exact Int.toNat_of_nonneg h0

theorem pageCount_mul_le {length : Int} (h0 : 0 ≤ length) (h : length < 2 ^ 31) :
    (pageCount length * PGSIZE : Int) ≤ length := by
  unfold pageCount
  rw [Int.tdiv_eq_ediv_of_nonneg h0]
  have hdiv : 0 ≤ length / (PGSIZE : Int) ∧ length / (PGSIZE : Int) < 2 ^ 64 := by
    simp only [PGSIZE]
    omega
  rw [wrap_of_range hdiv.1 hdiv.2]
  simp only [PGSIZE]
  omega

variable {addr : Nat} {i : Area}

theorem findUnmap_some {vma : Area → Vma} {length : Int} (h : findUnmap vma addr length = some i) :
    (vma i).used = true ∧ length ≤ (vma i).len ∧
      ((vma i).addr = addr ∨ wrap (addr + length) = wrap ((vma i).addr + (vma i).len)) := by
  have hfound := List.find?_some h
  simpa using hfound

/-! ## The system calls -/

theorem mmap_cases (s : State) (p : Slot) (addr : Nat) (length : Int) (prot flags : BitVec 32)
    (vfile : File) (offset : Int) : ((mmap s p addr length prot flags vfile offset).2 = none ∧
      (mmap s p addr length prot flags vfile offset).1 = s) ∨
    ∃ i, (mmap s p addr length prot flags vfile offset).2 = some (s.sz p) ∧
      (s.vma p i).used = false ∧ 0 ≤ length ∧ offset = 0 ∧ wrap (s.sz p + length) ≤ MAXVA ∧
      (mmap s p addr length prot flags vfile offset).1 =
        { s.setVma p i ⟨true, s.sz p, length, prot, flags, vfile, offset⟩ with
          sz := update s.sz p (wrap (s.sz p + length))
          region := update s.region p
            (update (s.region p) i ⟨s.sz p, length, s.image p⟩) } := by
  unfold mmap
  split
  · exact .inl ⟨rfl, rfl⟩
  · next hargs =>
    push Not at hargs
    split
    · exact .inl ⟨rfl, rfl⟩
    split
    · exact .inl ⟨rfl, rfl⟩
    · next hmax =>
      split
      · exact .inl ⟨rfl, rfl⟩
      · next i hi =>
        have hfree := List.find?_some hi
        exact .inr ⟨i, rfl, by simpa using hfree, hargs.2.2, hargs.2.1, not_lt.mp hmax,
          rfl⟩

theorem mmap_result {t : State} (hsz : t.sz = s.sz) (hvma : t.vma = s.vma) (addr : Nat)
    (length : Int) (prot flags : BitVec 32) (vfile : File) (offset : Int) :
    (mmap t p addr length prot flags vfile offset).2 =
      (mmap s p addr length prot flags vfile offset).2 := by
  unfold mmap
  rw [hsz, hvma]
  split
  · rfl
  split
  · rfl
  split
  · rfl
  · cases findFree (s.vma p) <;> rfl

variable {length : BitVec 32}

theorem Areas.mmap (h : Areas s p) {prot flags : BitVec 32} {vfile : File} {offset : Int}
    (hal : (mmap s p addr length.toInt prot flags vfile offset).2.isSome → s.sz p % PGSIZE = 0) :
    Areas (mmap s p addr length.toInt prot flags vfile offset).1 p := by
  rcases mmap_cases s p addr length.toInt prot flags vfile offset with
    ⟨-, heq⟩ | ⟨i, hres, hfree, hlen, -, hmax, heq⟩
  · rw [heq]
    exact h
  rw [hres] at hal
  rw [heq]
  have hsize := h.size
  have hbound : length.toInt < 2 ^ 31 := by
    have := BitVec.toInt_lt (x := length)
    omega
  have hwrap : (wrap (s.sz p + length.toInt) : Int) = s.sz p + length.toInt := by
    refine wrap_of_range (by omega) ?_
    unfold MAXVA at hsize
    omega
  refine ⟨?_, fun j hj => ?_, fun j l hjl hj hl => ?_⟩
  · simpa using hmax
  · obtain rfl | hji := eq_or_ne j i
    · simp only [State.setVma, update_self]
      exact ⟨hal rfl, ⟨hlen, hbound⟩, by simp [hwrap], ⟨le_rfl, Int.le_refl _⟩, rfl⟩
    simp only [State.setVma, update_self, update_of_ne hji] at hj ⊢
    obtain ⟨hal', hlen', hbelow, hinside, himage⟩ := h.placed j hj
    exact ⟨hal', hlen', by omega, hinside, himage⟩
  · have hold : ∀ k, k ≠ i → (s.vma p k).used = true →
        (s.vma p k).addr + (s.vma p k).len ≤ s.sz p := fun k _ hk => (h.placed k hk).below
    unfold Vma.Apart
    obtain rfl | hji := eq_or_ne j i
    · have hlj : l ≠ j := Ne.symm hjl
      simp only [State.setVma, update_self, update_of_ne hlj] at hl ⊢
      exact .inr (hold l hlj hl)
    obtain rfl | hli := eq_or_ne l i
    · simp only [State.setVma, update_self, update_of_ne hji] at hj ⊢
      exact .inl (hold j hji hj)
    · simp only [State.setVma, update_self, update_of_ne hji, update_of_ne hli] at hj hl ⊢
      exact h.apart j l hjl hj hl

theorem Areas.unmapped_range (h : Areas s p)
    (hi : findUnmap (s.vma p) addr length.toInt = some i) (hlen : 0 ≤ length.toInt)
    (haddr : addr < MAXVA ∨ addr < s.sz p) : (s.vma p i).addr ≤ addr ∧
      addr + length.toInt ≤ (s.vma p i).addr + (s.vma p i).len ∧ ((s.vma p i).addr ≠ addr →
        addr + length.toInt = (s.vma p i).addr + (s.vma p i).len) := by
  obtain ⟨hused, hle, hends⟩ := findUnmap_some hi
  obtain ⟨-, hlen', hbelow, -, -⟩ := h.placed i hused
  have hsize := h.size
  have hmax : addr < MAXVA := haddr.elim id (lt_of_lt_of_le · hsize)
  have hbound : length.toInt < 2 ^ 31 := by
    have := BitVec.toInt_lt (x := length)
    omega
  have htail : wrap (addr + length.toInt) = wrap ((s.vma p i).addr + (s.vma p i).len) →
      addr + length.toInt = (s.vma p i).addr + (s.vma p i).len := by
    intro heq
    unfold MAXVA at hmax hsize
    rw [← wrap_of_range (x := addr + length.toInt) (by omega) (by omega), heq]
    exact wrap_of_range (by omega) (by omega)
  rcases hends with heq | heq
  · exact ⟨by omega, by omega, fun hne => absurd heq hne⟩
  · have := htail heq
    exact ⟨by omega, by omega, fun _ => this⟩

theorem Areas.munmap (h : Areas s p) {t : Vm.State}
    {c : Nat → List UInt8} (hi : findUnmap (s.vma p) addr length.toInt = some i)
    (haddr : addr < MAXVA ∨ addr < s.sz p) (htame : 0 ≤ length.toInt ∧ addr % PGSIZE = 0 ∧
      ((s.vma p i).addr = addr → length.toInt % PGSIZE = 0 ∨ length.toInt = (s.vma p i).len))
    (hsz : t.sz = s.sz) :
    Areas { s.setVma p i { cutVma (s.vma p i) addr length.toInt with
        used := decide ((cutVma (s.vma p i) addr length.toInt).len ≠ 0) } with
      toState := t, contents := c } p := by
  obtain ⟨hlen, hal, hfront⟩ := htame
  obtain ⟨hlow, hhigh, htail⟩ := h.unmapped_range hi hlen haddr
  obtain ⟨hused, hle, -⟩ := findUnmap_some hi
  obtain ⟨hal', hlen', hbelow, -, -⟩ := h.placed i hused
  have hsize := h.size
  have hcut : wrap32 ((s.vma p i).len - length.toInt) = (s.vma p i).len - length.toInt :=
    wrap32_eq (by omega)
  refine h.sub (congrFun hsz p) rfl rfl fun j hj => ?_
  obtain rfl | hji := eq_or_ne j i
  · simp only [State.setVma, update_self] at hj ⊢
    refine ⟨hused, ?_⟩
    unfold cutVma at hj ⊢
    split at hj
    · next heq =>
      simp only [hcut, ne_eq, decide_not, Bool.not_eq_true', decide_eq_false_iff_not] at hj
      have hmove : (wrap ((s.vma p j).addr + length.toInt) : Int) =
          (s.vma p j).addr + length.toInt := by
        refine wrap_of_range (by omega) ?_
        unfold MAXVA at hsize
        omega
      rw [if_pos heq]
      simp only [hcut]
      have hpages : length.toInt % PGSIZE = 0 := by
        rcases hfront heq with hpages | hwhole
        · exact hpages
        · omega
      simp only [PGSIZE] at hpages hal' ⊢
      omega
    · next hne =>
      rw [if_neg hne]
      simp only [hcut]
      exact ⟨hal', by omega, le_rfl, by omega⟩
  · simp only [State.setVma, update_self, update_of_ne hji] at hj ⊢
    obtain ⟨hal'', hlen'', -, -, -⟩ := h.placed j hj
    exact ⟨hj, hal'', hlen''.1, le_rfl, Int.le_refl _⟩

theorem Areas.sbrk (h : Areas s p) {n : Int} {t : Vm.State} (hn : wrap (s.sz p + n) ≤ MAXVA)
    (hends : ∀ i, (s.vma p i).used = true →
      (s.vma p i).addr + (s.vma p i).len ≤ (wrap (s.sz p + n) : Int)) :
    Areas { s with toState := { t with sz := update t.sz p (wrap (s.sz p + n)) } } p := by
  refine ⟨by simpa using hn, fun i hi => ?_, h.apart⟩
  obtain ⟨hal, hlen, -, hinside, himage⟩ := h.placed i hi
  refine ⟨hal, hlen, ?_, hinside, himage⟩
  simpa using hends i hi

variable {op : Op}

theorem areas_step (h : Sound L s) (ha : ∀ q, s.live q = true → Areas s q)
    (htame : Tame s op) (hs : step L s op = some s') : ∀ q, s'.live q = true → Areas s' q := by
  cases op with
  | exec id p program stack =>
    obtain ⟨hfits, t, rfl, -, hsz, hlive, -, -, -⟩ := exec_spec h.good (of_guard hs)
    intro q hq
    obtain rfl | hqp := eq_or_ne q p
    · refine ⟨?_, fun i hi => ?_, fun i _ _ hi _ => ?_⟩
      · simp only [update_self]
        unfold TRAPFRAME at hfits
        omega
      all_goals
        have hunused := htame i
        rw [show (s.vma q i).used = true from hi] at hunused
        cases hunused
    · refine (ha q ?_).frame ?_ rfl rfl ?_
      · rw [← hlive]
        exact hq
      · simp only [update_of_ne hqp, hsz]
      · simp only [update_of_ne hqp]
  | sbrk id p n =>
    obtain ⟨hruns, hs⟩ := ite_none_right_eq_some.mp hs
    have hp := ha p hruns.1
    have hsize := hp.size
    rcases sbrk_spec h.good hs with ⟨hpos, rfl⟩ | rfl | ⟨hneg, hnew, hless, t, rfl, hbec⟩
    · intro q hq
      obtain rfl | hqp := eq_or_ne q p
      · have hmax := htame.1 hpos
        have hwrap : (wrap (s.sz q + n.toInt) : Int) = s.sz q + n.toInt := by
          refine wrap_of_range (by omega) ?_
          unfold MAXVA at hmax
          omega
        refine hp.sbrk (t := s.toState) (by omega) fun i hi => ?_
        have hbelow := (hp.placed i hi).below
        omega
      · exact (ha q hq).frame (by simp [hqp]) rfl rfl rfl
    · exact ha
    · intro q hq
      have hlive : t.live = s.live := hbec.live
      have hsz : t.sz = s.sz := hbec.sz
      obtain rfl | hqp := eq_or_ne q p
      · have hwrap : (wrap (s.sz q + n.toInt) : Int) = s.sz q + n.toInt := by
          have hlow := BitVec.le_toInt (x := n)
          by_cases hle : 0 ≤ s.sz q + n.toInt
          · refine wrap_of_range hle ?_
            unfold MAXVA at hsize
            omega
          unfold wrap at hless
          unfold MAXVA at hsize
          omega
        refine hp.sbrk (by omega) fun i hi => ?_
        have hend := htame.2 hneg (by omega) i hi
        omega
      · refine (ha q ?_).frame ?_ rfl rfl rfl
        · rw [← hlive]
          exact hq
        · simp only [update_of_ne hqp, hsz]
  | mmap id p sp addr table length prot flags vfile offset =>
    obtain ⟨hruns, hs⟩ := ite_none_right_eq_some.mp hs
    obtain ⟨s1, hg, hquiet, hres⟩ := afterArgaddr_quiet h.good hs
    have hareas : ∀ q, s1.live q = true → Areas s1 q := fun q hq =>
      (ha q (hquiet.live ▸ hq)).quiet hquiet
    rcases hres with rfl | ⟨-, hm⟩
    · exact hareas
    cases hm
    have htame1 : (mmap s1 p addr length.toInt prot flags vfile offset.toInt).2.isSome →
        s1.sz p % PGSIZE = 0 := by
      rw [mmap_result hquiet.sz hquiet.vma, hquiet.sz]
      exact htame
    intro q hq
    obtain rfl | hqp := eq_or_ne q p
    · exact (hareas q (hquiet.live ▸ hruns.1)).mmap htame1
    rcases mmap_cases s1 p addr length.toInt prot flags vfile offset.toInt with
      ⟨-, heq⟩ | ⟨i, -, -, -, -, -, heq⟩
    · rw [heq] at hq ⊢
      exact hareas q hq
    rw [heq] at hq ⊢
    refine (hareas q hq).frame ?_ ?_ ?_ rfl
    · simp only [update_of_ne hqp]
    · simp only [State.setVma, update_of_ne hqp]
    · simp only [update_of_ne hqp]
  | munmap id p sp addr table length contents =>
    obtain ⟨hruns, hs⟩ := ite_none_right_eq_some.mp hs
    obtain ⟨s1, hg, hquiet, hres⟩ := afterArgaddr_quiet h.good hs
    have hareas : ∀ q, s1.live q = true → Areas s1 q := fun q hq =>
      (ha q (hquiet.live ▸ hq)).quiet hquiet
    rcases hres with rfl | ⟨haddr, hm⟩
    · exact hareas
    intro q hq
    rcases munmap_spec hg hm with ⟨-, rfl⟩ | ⟨i, t, c, hi, -, rfl, hbec⟩
    · exact hareas q hq
    have htl : t.live = s1.live := hbec.live
    have hts : t.sz = s1.sz := hbec.sz
    obtain rfl | hqp := eq_or_ne q p
    · refine (hareas q (hquiet.live ▸ hruns.1)).munmap hi (by rwa [hquiet.sz]) ?_ hts
      rw [hquiet.vma] at hi ⊢
      exact htame i hi
    refine (hareas q ?_).frame (by rw [hts]) ?_ rfl rfl
    · rw [← htl]
      exact hq
    · simp only [State.setVma, update_of_ne hqp]
  | fork id p np fail =>
    obtain ⟨hlivep, hne, hfree, hs⟩ := h.fork_some hs
    obtain ⟨t, -, -, hcases⟩ := fork_spec h.good hne hfree hs
    intro q hq
    rcases hcases with ⟨rfl, habs⟩ | ⟨-, rfl, hsz, hlive, -⟩
    · rw [show t.live = s.live from congrArg Spaces.live habs] at hq
      exact (ha q hq).frame (congrFun (congrArg Spaces.sz habs) q) rfl rfl rfl
    obtain rfl | hqn := eq_or_ne q np
    · have hp := ha p hlivep
      have hused : ∀ i, ((if (s.vma p i).used then s.vma p i else zeroVma) : Vma).used = true →
          (s.vma p i).used = true := by
        intro i hi
        split at hi
        · next hu => exact hu
        · cases hi
      refine ⟨?_, fun i hi => ?_, fun i j hij hi hj => ?_⟩
      · simp only [hsz, update_self]
        exact hp.size
      · simp only [update_self] at hi ⊢
        rw [if_pos (hused i hi), hsz, update_self]
        exact hp.placed i (hused i hi)
      · simp only [update_self] at hi hj ⊢
        rw [if_pos (hused i hi), if_pos (hused j hj)]
        exact hp.apart i j hij (hused i hi) (hused j hj)
    · rw [show t.live q = s.live q by rw [hlive, update_of_ne hqn]] at hq
      refine (ha q hq).frame ?_ ?_ ?_ ?_
      · simp only [hsz, update_of_ne hqn]
      all_goals simp only [update_of_ne hqn]
  | exit id p contents =>
    obtain ⟨-, hsz, hlive, -, hregion, himage, hvma, -, -⟩ := exit_spec h.good (of_guard hs)
    intro q hq
    rw [hlive] at hq
    refine (ha q hq).sub (congrFun hsz q) (congrFun hregion q) (congrFun himage q) fun i hi => ?_
    rcases hvma q i with heq | heq
    · rw [heq] at hi ⊢
      have hplaced := (ha q hq).placed i hi
      exact ⟨hi, hplaced.aligned, hplaced.len.1, le_rfl, Int.le_refl _⟩
    · rw [heq] at hi
      cases hi
  | reap id p =>
    obtain ⟨-, t, rfl, -, habs, -⟩ := reap_spec h.good (of_guard hs)
    intro q hq
    have hqp : q ≠ p := by
      rintro rfl
      simp at hq
    have hsz : t.sz = s.sz := congrArg Spaces.sz habs
    have hlive : t.live = s.live := congrArg Spaces.live habs
    simp only [update_of_ne hqp, hlive] at hq
    refine (ha q hq).frame ?_ rfl rfl rfl
    simp only [update_of_ne hqp, hsz]
  | _ =>
    have hquiet := step_quiet h.good rfl hs
    intro q hq
    rw [hquiet.live] at hq
    exact (ha q hq).quiet hquiet

/-! ## Whole runs -/

def Vma.Covers (a : Vma) (u : Nat) : Prop :=
  a.addr ≤ u * PGSIZE ∧ ((u + 1) * PGSIZE : Nat) ≤ a.addr + a.len

theorem covers_of_inRange {a : Vma} {va n u : Nat} (hal : va % PGSIZE = 0)
    (hlow : a.addr ≤ va) (hhigh : va + n * PGSIZE ≤ a.addr + a.len)
    (hmax : a.addr + a.len ≤ MAXVA) (hin : InRange va n u) : a.Covers u := by
  have hlast : (va + n * PGSIZE) % 2 ^ 64 = va + n * PGSIZE := by
    refine Nat.mod_eq_of_lt ?_
    unfold MAXVA at hmax
    omega
  unfold InRange at hin
  rw [hlast, Nat.add_sub_cancel_left, Nat.mul_div_cancel n (by decide)] at hin
  unfold Vma.Covers
  simp only [PGSIZE] at hal hhigh hin ⊢
  omega

theorem unmaps_inside (ha : ∀ q, s.live q = true → Areas s q) (htame : Tame s op)
    {va n : Nat} (hcall : Unmaps L s op q va n) :
    va % PGSIZE = 0 ∧ ∃ i, (s.vma q i).used = true ∧ (s.vma q i).addr ≤ va ∧
      va + n * PGSIZE ≤ (s.vma q i).addr + (s.vma q i).len := by
  cases op with
  | munmap id p sp addr table length contents =>
    obtain ⟨rfl, hruns, rfl, rfl, ⟨t, ht⟩, hfound⟩ := hcall
    obtain ⟨i, hi⟩ := isSome_iff_exists.mp hfound
    obtain ⟨hlen, hal, -⟩ := htame i hi
    obtain ⟨hlow, hhigh, -⟩ :=
      (ha q hruns.1).unmapped_range hi hlen (argaddr_true ht)
    have hbound : length.toInt < 2 ^ 31 := by
      have := BitVec.toInt_lt (x := length)
      omega
    have hcount := pageCount_mul_le hlen hbound
    exact ⟨hal, i, (findUnmap_some hi).1, hlow, by omega⟩
  | exit id p contents =>
    obtain ⟨rfl, hlive, i, hused, rfl, rfl⟩ := hcall
    have hplaced := (ha q hlive).placed i hused
    have hcount := pageCount_mul_le hplaced.len.1 hplaced.len.2
    exact ⟨hplaced.aligned, i, hused, le_rfl, by omega⟩
  | exec | sbrk | mmap | argaddr | copyout | fault | fork | shmgetat | reap | store | kill
  | filewrite | kalloc | kfree => exact hcall.elim

theorem removed_covered (h : Sound L s) (ha : ∀ q, s.live q = true → Areas s q) (htame : Tame s op)
    (hop : (∃ id p sp addr table length c, op = .munmap id p sp addr table length c) ∨
      ∃ id p c, op = .exit id p c)
    (hs : step L s op = some s') {u : Nat} (hold : s.pt q u ≠ none) (hnew : s'.pt q u = none) :
    ∃ i, (s.vma q i).used = true ∧ (s.vma q i).Covers u := by
  have hinside : ∀ {va n}, s.live q = true → Unmaps L s op q va n → InRange va n u →
      ∃ i, (s.vma q i).used = true ∧ (s.vma q i).Covers u := by
    intro va n hlive hcall hin
    obtain ⟨hal, i, hused, hlow, hhigh⟩ := unmaps_inside ha htame hcall
    have hbelow := ((ha q hlive).placed i hused).below
    have hsize := (ha q hlive).size
    exact ⟨i, hused, covers_of_inRange hal hlow hhigh (by omega) hin⟩
  rcases hop with ⟨id, p, sp, addr, table, length, c, rfl⟩ | ⟨id, p, c, rfl⟩
  · obtain ⟨hruns, hs⟩ := ite_none_right_eq_some.mp hs
    obtain ⟨s1, honly, -, hres⟩ := afterArgaddr_spec h.good hs
    have hmid : Good L s1.toState ∧ s1.vma = s.vma ∧ s1.pt q u ≠ none := by
      rcases honly with ho | ⟨-, -, -, ho⟩
      · refine ⟨ho.good, ho.vma, fun hnone => hold ?_⟩
        rw [← pages_none, ho.abs_eq, pages_none] at hnone
        exact hnone
      refine ⟨ho.good, ho.vma, fun hnone => hold ?_⟩
      rw [← pages_none, ho.abs_eq, Spaces.setPage_pages] at hnone
      split at hnone
      · cases hnone
      · exact (pages_none _ _ _).mp hnone
    obtain ⟨hgood, hvma, hmid⟩ := hmid
    rcases hres with rfl | ⟨hargs, hres⟩
    · exact absurd hnew hmid
    rcases munmap_spec hgood hres with ⟨-, rfl⟩ | ⟨i, t, c', hi, -, rfl, hbec⟩
    · exact absurd hnew hmid
    obtain ⟨rfl, hin⟩ := unmap_removed hbec hmid hnew
    rw [hvma] at hi
    exact hinside hruns.1 ⟨rfl, hruns, rfl, rfl, hargs, by simp [hi]⟩ hin
  · simp only [Space.step, ite_none_right_eq_some] at hs
    obtain ⟨-, -, -, -, -, -, -, -, hpages⟩ := exit_spec h.good hs.2
    obtain ⟨rfl, i, hused, hin⟩ := hpages q u hold hnew
    exact hinside hs.1.1 ⟨rfl, hs.1.1, i, hused, rfl, rfl⟩ hin

theorem areas_boot (k : Kmem) (contents : Nat → List UInt8) (q : Slot) :
    Areas (boot k contents) q := by
  refine ⟨zero_le, fun i hi => ?_, fun i _ _ hi _ => ?_⟩
  · cases hi
  · cases hi

end Areas

/-- In every run of tame calls the VMAs of every process are aligned, apart from each other,
below its size and inside what `mmap` has returned for its program; `munmap` and `exit` call
`uvmunmap` with aligned ranges inside a VMA and remove no other pages. -/
theorem vmas_placed (L : Layout) (mem : Nat → Nat → UInt8) (k : Kmem) (hk : kinit L mem = some k)
    (contents : Nat → List UInt8) (ops : List Op) (s : State)
    (hrun : run (step L) (boot k contents) ops = some s)
    (htame : Along (step L) Tame (boot k contents) ops) :
    (∀ p, s.live p = true → Areas s p) ∧ ∀ op, Tame s op →
      (∀ p va n, Unmaps L s op p va n → va % PGSIZE = 0 ∧ ∃ i, (s.vma p i).used = true ∧
        (s.vma p i).addr ≤ va ∧ va + n * PGSIZE ≤ (s.vma p i).addr + (s.vma p i).len) ∧
      (((∃ id p sp addr table length c, op = .munmap id p sp addr table length c) ∨
          ∃ id p c, op = .exit id p c) →
        ∀ s', step L s op = some s' → ∀ p u, s.pt p u ≠ none → s'.pt p u = none →
          ∃ i, (s.vma p i).used = true ∧ (s.vma p i).Covers u) := by
  have hboot : Sound L (boot k contents) ∧
      ∀ q, (boot k contents).live q = true → Areas (boot k contents) q :=
    ⟨sound_boot hk contents, fun q _ => areas_boot k contents q⟩
  obtain ⟨hsound, hareas⟩ := along_invariant
    (I := fun s => Sound L s ∧ ∀ q, s.live q = true → Areas s q)
    (fun s op s' h ht hs => ⟨h.1.step hs, areas_step h.1 h.2 ht hs⟩) ops _ s hboot htame hrun
  exact ⟨hareas, fun op ht => ⟨fun p va n => unmaps_inside hareas ht,
    fun hop s' hs p u => removed_covered hsound hareas ht hop hs⟩⟩

def cutOps : List Op :=
  [.exec hart0 proc0 [fun _ => 0] (fun _ => 0),
    .mmap hart0 proc0 12000 0 true 8192 3 1 ⟨true, true, some 3⟩ 0,
    .munmap hart0 proc0 12000 12288 true 4096 (fun _ => [7]), .sbrk hart0 proc0 1]

theorem vmas_placed_cut : ∃ k s, kinit fivePages (fun _ _ => 0) = some k ∧
      run (step fivePages) (boot k fun _ => [7]) cutOps = some s ∧
      ((s.vma proc0 area0).used = true ∧ (s.vma proc0 area0).addr = 16384) ∧
      ∀ p, s.live p = true → Areas s p := by
  obtain ⟨k, s, hk, hs, htame, hcut⟩ : ∃ k s, kinit fivePages (fun _ _ => 0) = some k ∧
      run (step fivePages) (boot k fun _ => [7]) cutOps = some s ∧
      Along (step fivePages) Tame (boot k fun _ => [7]) cutOps ∧
      (s.vma proc0 area0).used = true ∧ (s.vma proc0 area0).addr = 16384 :=
        boot_test (by decide +kernel)
  exact ⟨k, s, hk, hs, hcut, (vmas_placed fivePages _ k hk _ cutOps s hs htame).1⟩

def oddOps : List Op :=
  [.exec hart0 proc0 [fun _ => 0] (fun _ => 0), .sbrk hart0 proc0 1,
    .mmap hart0 proc0 12000 0 true 4096 3 1 ⟨true, true, some 3⟩ 0]

theorem mmap_after_odd_sbrk_panics : ∃ k s, kinit fivePages (fun _ _ => 0) = some k ∧
      run (step fivePages) (boot k fun _ => [7]) oddOps = some s ∧
      Runs s proc0 ∧ (s.vma proc0 area0).used = true ∧ (s.vma proc0 area0).addr % PGSIZE ≠ 0 ∧
      (argaddr fivePages hart0 s.toState proc0 12000 (s.vma proc0 area0).addr true).isSome ∧
      (step fivePages s (.munmap hart0 proc0 12000 (s.vma proc0 area0).addr true 4096
        fun _ => [7])).isNone :=
  boot_test (by decide +kernel)

end BirdOS.Space
