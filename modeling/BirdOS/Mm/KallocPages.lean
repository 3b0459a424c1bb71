import BirdOS.Lib.Tally
import BirdOS.Mm.KallocLocks

/-! # No page is lost or given twice

`kalloc`, `kfree` and `kaddrefcnt` on all CPUs in any order of their lock operations.
A page of count zero is in exactly one place: on one free list, in the hands of one
CPU, or with a `kfree` that has left its CPU.  `Balanced` says this of one page; a step
changes the role of one CPU, and the pages are checked one by one. -/

namespace BirdOS.KallocLocks

open Machine Kalloc Function Option LinkedList Tally

/-- What a CPU has to do with a page. -/
inductive Role where
  | idle
  /-- It has taken the page from a list, or is about to put it on one. -/
  | hand (pa : Nat)
  /-- The page is the result of its `kalloc`. -/
  | returns (pa : Nat)
  | drops (pa : Nat)
  deriving DecidableEq

def Phase.role : Phase → Role
  | .counting _ r | .dropped r true | .freeing r => .hand r
  | .counted _ r | .robbed _ r | .leaving (some r) => .returns r
  | .dropping r => .drops r
  | _ => .idle

/-- One for the role `x`. -/
@[simp] def Role.is (x y : Role) : Nat := if y = x then 1 else 0

def State.total (s : State) (x : Role) : Nat := tally (fun ph => x.is ph.role) s.phase

/-- References to `pa` that no `kfree` has come to drop and no `kalloc` is to return. -/
def State.spare (s : State) (pa : Nat) : Int :=
  krefcnt s.kmem pa - (s.total (.returns pa) + s.total (.drops pa) : Nat)

open Role State

inductive Call where
  | op (o : Op)
  | kaddrefcnt (pa : Nat)

/-- Who calls `kfree` or `kaddrefcnt` has a reference of its own.  `kaddrefcnt` takes
`ref.lock` and no other lock: it is one step, at a moment when that is free. -/
def callStep (L : Layout) (s : State) : Call → Option State
  | .op (.kfree id pa) => if 0 < s.spare pa then step L s (.kfree id pa) else none
  | .op o => step L s o
  | .kaddrefcnt pa =>
    if IsPage L pa ∧ 0 < s.spare pa ∧ s.refLock = none then
      (Kalloc.kaddrefcnt L s.kmem pa).map fun r => { s with kmem := r.1 }
    else none

/-! ## One page -/

/-- A page of count `c` that is in so many places, the result of `R` calls of `kalloc`
and the argument of `D` calls of `kfree`. -/
structure Balanced (page : Prop) [Decidable page] (c : Int) (places R D : Nat) : Prop where
  once : places = if page ∧ c = 0 then 1 else 0
  held : (R + D : Nat) ≤ if page then c else 0
  fresh : R ≠ 0 → c = 1

section Balanced
variable {page : Prop} [Decidable page] {c : Int} {n R D : Nat}

theorem Balanced.allocate (hp : page) (h : Balanced page 0 (n + 1) R D) :
    Balanced page 1 n (R + 1) D := by
  obtain ⟨honce, hheld, -⟩ := h
  simp only [hp, true_and, if_true] at honce hheld
  refine ⟨?_, ?_, fun _ => rfl⟩
  · simp only [hp, true_and, one_ne_zero, if_false]
    omega
  · rw [if_pos hp]
    omega

theorem Balanced.drop (hp : page) (h : Balanced page c n R (D + 1)) :
    Balanced page (c - 1) (n + if c - 1 = 0 then 1 else 0) R D := by
  obtain ⟨honce, hheld, hfresh⟩ := h
  simp only [hp, true_and, if_true] at honce hheld
  -- the one reference of a page that `kalloc` returns is not being dropped
  have hR : R = 0 := by omega
  rw [if_neg (by omega)] at honce
  refine ⟨?_, ?_, fun hne => absurd hR hne⟩
  · simp only [hp, true_and, honce, zero_add]
  · rw [if_pos hp]
    omega

/-- A spare reference can be dropped or copied. -/
theorem Balanced.spend {c' : Int} {D' : Nat} (hp : page) (h : Balanced page c n R D)
    (hspare : (R + D : Nat) < c) (hc : c ≤ c') (hD : (R + D' : Nat) ≤ c') :
    Balanced page c' n R D' := by
  obtain ⟨honce, -, hfresh⟩ := h
  have hR : R = 0 := by omega
  rw [if_neg (by omega)] at honce
  refine ⟨?_, by rw [if_pos hp]; exact hD, fun hne => absurd hR hne⟩
  rw [if_neg (by omega)]
  exact honce

theorem Balanced.fewer {R' : Nat} (h : Balanced page c n R D) (hR : R' ≤ R) :
    Balanced page c n R' D := by
  have hheld := h.held
  exact ⟨h.once, by omega, fun hne => h.fresh (by omega)⟩

theorem Balanced.foreign {c' : Int} (hno : ¬ page) (h : Balanced page c n R D) :
    Balanced page c' n R D := by
  obtain ⟨honce, hheld, -⟩ := h
  simp only [hno, false_and, if_false] at honce hheld
  refine ⟨?_, ?_, by omega⟩
  · simp only [hno, false_and, if_false, honce]
  · simp only [hno, if_false, hheld]

end Balanced

variable {L : Layout} {s s' : State} {lists lists' : Cpu → List Nat} {id : Cpu} {ph : Phase}
  {x y : Role} {r : Nat}

theorem Balanced.setCnt {k : Kmem} {pa n R D : Nat} (c : Int) (hr : IsPage L r) (hne : r ≠ pa)
    (h : Balanced (IsPage L pa) (krefcnt k pa) n R D) :
    Balanced (IsPage L pa) (krefcnt (setCnt k r c) pa) n R D := by
  by_cases hpa : IsPage L pa
  · rw [krefcnt_setCnt_other k c hr.1 hpa.1 (Ne.symm hne)]
    exact h
  · exact h.foreign hpa

/-! ## All pages -/

structure Conserved (L : Layout) (s : State) (lists : Cpu → List Nat) : Prop where
  chain : ∀ i, Chain s.kmem.next (s.kmem.freelist i) (lists i)
  page : ∀ pa, Balanced (IsPage L pa) (krefcnt s.kmem pa)
    (tally (List.count pa) lists + s.loose.count pa + s.total (.hand pa))
    (s.total (.returns pa)) (s.total (.drops pa))

theorem is_le_total (s : State) (x : Role) (id : Cpu) : x.is (s.phase id).role ≤ s.total x :=
  le_tally (fun ph => x.is ph.role) s.phase id

/-- A page in the hands of a CPU has no reference and is on no list. -/
theorem Conserved.of_hand (hc : Conserved L s lists) (h : (s.phase id).role = .hand r) :
    IsPage L r ∧ krefcnt s.kmem r = 0 ∧ ∀ i, r ∉ lists i := by
  have hle := is_le_total s (.hand r) id
  rw [h, is, if_pos rfl] at hle
  have honce := (hc.page r).once
  by_cases hp : IsPage L r ∧ krefcnt s.kmem r = 0
  · rw [if_pos hp] at honce
    have hzero : tally (List.count r) lists = 0 := by omega
    exact ⟨hp.1, hp.2, fun i => List.count_eq_zero.mp (tally_eq_zero.mp hzero i)⟩
  · rw [if_neg hp] at honce
    omega

theorem Conserved.of_drops (hc : Conserved L s lists) (h : (s.phase id).role = .drops r) :
    IsPage L r := by
  by_contra hno
  have hheld := (hc.page r).held
  have hle := is_le_total s (.drops r) id
  rw [h, is, if_pos rfl] at hle
  rw [if_neg hno] at hheld
  omega

/-- CPU `id` goes from the role `x` to the role `y`; the totals are those of the other
CPUs and its own part. -/
theorem Conserved.moves (hc : Conserved L s lists) (hx : (s.phase id).role = x)
    (hy : ph.role = y) (hphase : s'.phase = update s.phase id ph)
    (hchain : ∀ i, Chain s'.kmem.next (s'.kmem.freelist i) (lists' i))
    (hpage : ∀ pa n R D,
      s.spare pa = krefcnt s.kmem pa - (R + is (.returns pa) x + (D + is (.drops pa) x) : Nat) →
      Balanced (IsPage L pa) (krefcnt s.kmem pa)
        (tally (List.count pa) lists + s.loose.count pa + (n + is (.hand pa) x))
        (R + is (.returns pa) x) (D + is (.drops pa) x) →
      Balanced (IsPage L pa) (krefcnt s'.kmem pa)
        (tally (List.count pa) lists' + s'.loose.count pa + (n + is (.hand pa) y))
        (R + is (.returns pa) y) (D + is (.drops pa) y)) : Conserved L s' lists' := by
  refine ⟨hchain, fun pa => ?_⟩
  have split (z : Role) : ∃ m, s.total z = m + z.is x ∧ s'.total z = m + z.is y := by
    have hle := is_le_total s z id
    have hupd := tally_update (fun ph => z.is ph.role) s.phase id ph
    rw [total, total, hphase]
    rw [total] at hle
    rw [hx] at hle hupd
    rw [hy] at hupd
    exact ⟨tally (fun ph => z.is ph.role) s.phase - z.is x, by omega, by omega⟩
  obtain ⟨n, hn, hn'⟩ := split (.hand pa)
  obtain ⟨R, hR, hR'⟩ := split (.returns pa)
  obtain ⟨D, hD, hD'⟩ := split (.drops pa)
  rw [hn', hR', hD']
  apply hpage
  · rw [spare, hR, hD]
  · rw [← hn, ← hR, ← hD]
    exact hc.page pa

/-- A step that leaves the pages where they are. -/
theorem Conserved.stays (hc : Conserved L s lists) (hrole : (s.phase id).role = ph.role)
    (hphase : s'.phase = update s.phase id ph)
    (hk : { s'.kmem with mem := s.kmem.mem } = s.kmem) (hloose : s'.loose = s.loose) :
    ∃ lists', Conserved L s' lists' := by
  have hchain := hc.chain
  rw [← hk] at hchain
  refine ⟨lists, hc.moves hrole rfl hphase hchain fun pa n R D _ hb => ?_⟩
  rw [← hk, ← hloose] at hb
  exact hb

theorem seek_role (id : Cpu) (is : List Cpu) : (seek id is).role = .idle := by
  induction is with
  | nil => rfl
  | cons i is ih =>
    rw [seek]
    split
    · exact ih
    · rfl

theorem role_dropped (r : Nat) (last : Bool) :
    (Phase.dropped r last).role = if last then .hand r else .idle := by
  cases last <;> rfl

theorem Conserved.look {i : Cpu} {t : State} (hc : Conserved L s lists)
    (ht : s.acquire id i = some t) (hold : (s.phase id).role = .idle) (hnew : ph.role = .idle) :
    ∃ lists', Conserved L (look t id i ph) lists' := by
  obtain ⟨-, rfl⟩ := acquire_some ht
  unfold KallocLocks.look
  split
  next r hr =>
    have hchain := hc.chain i
    rw [show s.kmem.freelist i = some r from hr] at hchain
    obtain ⟨rest, hl, hrest⟩ := chain_some hchain
    refine ⟨update lists i rest, hc.moves hold rfl rfl ?_ fun pa n R D _ hb => ?_⟩
    · intro j
      obtain rfl | hj := eq_or_ne j i
      · simpa [goto, unlink] using hrest
      · simpa [goto, unlink, hj] using hc.chain j
    · refine ⟨.trans ?_ hb.once, hb.held, hb.fresh⟩
      have hlist := tally_update (List.count pa) lists i rest
      simp only [hl, List.count_cons, beq_iff_eq] at hlist
      simp only [is, goto, Phase.role, hand.injEq, reduceCtorEq, if_false]
      omega
  next => exact hc.stays (hold.trans hnew.symm) rfl rfl rfl

theorem Conserved.push (hc : Conserved L s lists) (hrole : (s.phase id).role = .hand r)
    (hy : ph.role = .idle) (hphase : s'.phase = update s.phase id ph)
    (hk : s'.kmem = Kalloc.push s.kmem id r) (hloose : s'.loose = s.loose) :
    ∃ lists', Conserved L s' lists' := by
  obtain ⟨-, -, hnot⟩ := hc.of_hand hrole
  refine ⟨update lists id (r :: lists id), hc.moves hrole hy hphase ?_ fun pa n R D _ hb => ?_⟩
  · intro j
    rw [hk]
    obtain rfl | hj := eq_or_ne j id
    · simpa [Kalloc.push] using chain_push (hc.chain j) (hnot j)
    · simpa [Kalloc.push, hj] using (chain_update r _ _ _ (hnot j)).mpr (hc.chain j)
  · rw [hk, krefcnt_push, hloose]
    refine ⟨.trans ?_ hb.once, hb.held, hb.fresh⟩
    have hlist := tally_update (List.count pa) lists id (r :: lists id)
    simp only [List.count_cons, beq_iff_eq] at hlist
    simp only [is, hand.injEq, reduceCtorEq, if_false]
    omega

theorem Conserved.go (hc : Conserved L s lists) (h : go s id = some s') :
    ∃ lists', Conserved L s' lists' := by
  unfold KallocLocks.go at h
  cases hp : s.phase id with
  | outside => rw [hp] at h; cases h
  | entering =>
    rw [hp] at h
    obtain ⟨t, ht, ⟨⟩⟩ := bind_eq_some_iff.mp h
    exact hc.look ht (by rw [hp]; rfl) (seek_role id _)
  | probing i rest =>
    rw [hp] at h
    obtain ⟨t, ht, ⟨⟩⟩ := bind_eq_some_iff.mp h
    exact hc.look ht (by rw [hp]; rfl) rfl
  | passing i rest =>
    rw [hp] at h
    cases h
    exact hc.stays (by rw [hp, seek_role]; rfl) rfl rfl rfl
  | counted i r =>
    rw [hp] at h
    cases h
    exact hc.stays (by rw [hp]; split <;> rfl) rfl rfl rfl
  | robbed i r | freed =>
    rw [hp] at h
    cases h
    exact hc.stays (by rw [hp]; rfl) rfl rfl rfl
  | leaving res =>
    rw [hp] at h
    cases h
    cases res with
    | none => exact hc.stays (by rw [hp]; rfl) rfl rfl rfl
    | some r =>
      have hrole : (s.phase id).role = .returns r := by rw [hp]; rfl
      refine ⟨lists, hc.moves hrole rfl rfl hc.chain fun pa n R D _ hb => ?_⟩
      exact hb.fewer (by simp [Phase.role])
  | counting i r =>
    rw [hp] at h
    obtain ⟨t, ht, ⟨⟩⟩ := bind_eq_some_iff.mp h
    obtain rfl := acquireRef_some ht
    have hrole : (s.phase id).role = .hand r := by rw [hp]; rfl
    obtain ⟨hpage, hzero, -⟩ := hc.of_hand hrole
    refine ⟨lists, hc.moves hrole rfl rfl hc.chain fun pa n R D _ hb => ?_⟩
    by_cases hr : r = pa
    · subst hr
      simp only [hzero, is, if_true, reduceCtorEq, if_false, add_zero, ← add_assoc] at hb
      simpa [goto, Phase.role] using hb.allocate hpage
    · simpa [goto, Phase.role, hr] using hb.setCnt 1 hpage hr
  | dropping r =>
    rw [hp] at h
    obtain ⟨t, ht, ⟨⟩⟩ := bind_eq_some_iff.mp h
    obtain rfl := acquireRef_some ht
    have hrole : (s.phase id).role = .drops r := by rw [hp]; rfl
    have hpage := hc.of_drops hrole
    refine ⟨lists, hc.moves hrole (role_dropped r _) rfl hc.chain fun pa n R D _ hb => ?_⟩
    by_cases hr : r = pa
    · subst hr
      simp only [is, if_true, reduceCtorEq, if_false, add_zero] at hb
      have hdrop := hb.drop hpage
      by_cases hlast : krefcnt s.kmem r - 1 = 0
      · simpa [goto, hlast, add_assoc] using hdrop
      · simpa [goto, hlast, add_assoc] using hdrop
    · have hother := hb.setCnt (krefcnt s.kmem r - 1) hpage hr
      by_cases hlast : krefcnt s.kmem r - 1 = 0
      · simpa [goto, hlast, hr] using hother
      · simpa [goto, hlast, hr] using hother
  | dropped r last =>
    rw [hp] at h
    cases h
    cases last with
    | false => exact hc.stays (by rw [hp]; rfl) rfl rfl rfl
    | true =>
      have hrole : (s.phase id).role = .hand r := by rw [hp]; rfl
      refine ⟨lists, hc.moves hrole rfl rfl hc.chain fun pa n R D _ hb => ?_⟩
      refine ⟨.trans ?_ hb.once, hb.held, hb.fresh⟩
      simp only [is, goto, Phase.role, List.count_cons, beq_iff_eq, hand.injEq, reduceCtorEq,
        if_true, if_false]
      omega
  | freeing r =>
    rw [hp] at h
    obtain ⟨t, ht, ⟨⟩⟩ := bind_eq_some_iff.mp h
    obtain ⟨-, rfl⟩ := acquire_some ht
    exact hc.push (by rw [hp]; rfl) rfl rfl rfl rfl

theorem Conserved.step {call : Call} (hc : Conserved L s lists)
    (h : callStep L s call = some s') : ∃ lists', Conserved L s' lists' := by
  cases call with
  | kaddrefcnt r =>
    obtain ⟨⟨hpage, hspare, -⟩, h⟩ := ite_none_right_eq_some.mp h
    obtain ⟨⟨k, e⟩, hk, rfl⟩ := map_eq_some_iff.mp h
    obtain rfl : k = Kalloc.setCnt s.kmem r (krefcnt s.kmem r + 1) := by
      unfold Kalloc.kaddrefcnt at hk
      obtain ⟨h1, h2, h3⟩ := hpage
      rw [if_neg (by omega)] at hk
      split at hk
      · cases hk
      · cases hk; rfl
    refine ⟨lists, hc.moves rfl rfl (update_eq_self hart0 s.phase).symm hc.chain
      fun pa n R D hs hb => ?_⟩
    dsimp only
    by_cases hr : r = pa
    · subst hr
      rw [krefcnt_setCnt_self]
      exact hb.spend hpage (by omega) (by omega) (by omega)
    · exact hb.setCnt _ hpage hr
  | op o =>
    cases o with
    | go id => exact hc.go h
    | kalloc id =>
      obtain ⟨hout, ⟨⟩⟩ := ite_none_right_eq_some.mp h
      exact hc.stays (by rw [hout]; rfl) rfl rfl rfl
    | resume id r =>
      obtain ⟨⟨hout, hmem⟩, ⟨⟩⟩ := ite_none_right_eq_some.mp h
      have hrole : (s.phase id).role = .idle := by rw [hout]; rfl
      refine ⟨lists, hc.moves hrole rfl rfl hc.chain fun pa n R D _ hb => ?_⟩
      refine ⟨.trans ?_ hb.once, hb.held, hb.fresh⟩
      have hpos := List.count_pos_iff.mpr hmem
      simp only [is, Phase.role, goto, List.count_erase, beq_iff_eq, hand.injEq, reduceCtorEq,
        if_false]
      by_cases hr : r = pa
      · subst hr
        simp only [if_true]
        omega
      · simp only [hr, if_false, Nat.sub_zero]
    | kfree id r =>
      obtain ⟨hspare, h⟩ := ite_none_right_eq_some.mp h
      obtain ⟨⟨hout, hpage⟩, ⟨⟩⟩ := ite_none_right_eq_some.mp h
      have hrole : (s.phase id).role = .idle := by rw [hout]; rfl
      refine ⟨lists, hc.moves hrole rfl rfl hc.chain fun pa n R D hs hb => ?_⟩
      simp only [is, reduceCtorEq, if_false, add_zero] at hs hb
      by_cases hr : r = pa
      · subst hr
        have hle : (R + (D + 1) : Nat) ≤ krefcnt s.kmem r := by omega
        simpa [goto, Phase.role] using hb.spend hpage (by omega) le_rfl hle
      · simpa [goto, Phase.role, hr] using hb

/-- A page is on the free lists once or not at all. -/
theorem count_lists {k : Kmem} (h : Kalloc.Inv (IsPage L) k lists) (pa : Nat) :
    tally (List.count pa) lists = if IsPage L pa ∧ krefcnt k pa = 0 then 1 else 0 := by
  by_cases hex : ∃ i, pa ∈ lists i
  · obtain ⟨i, hi⟩ := hex
    have hp := h.managed i pa hi
    rw [if_pos ⟨hp, (h.free_iff pa hp).mp ⟨i, hi⟩⟩]
    have hself := List.count_eq_one_of_mem (chain_nodup _ _ (h.chain i)) hi
    have hrest : tally (List.count pa) (update lists i []) = 0 := by
      rw [tally_eq_zero]
      intro j
      obtain rfl | hj := eq_or_ne j i
      · simp
      · rw [update_of_ne hj]
        exact List.count_eq_zero.mpr fun hm => h.disjoint i j (Ne.symm hj) hi hm
    have hupd := tally_update (List.count pa) lists i []
    rw [List.count_nil] at hupd
    omega
  · rw [if_neg fun hp => hex ((h.free_iff pa hp.1).mpr hp.2), tally_eq_zero]
    exact fun i => List.count_eq_zero.mpr fun hi => hex ⟨i, hi⟩

theorem conserved_idle {k : Kmem} (h : Kalloc.Inv (IsPage L) k lists) :
    Conserved L (idle k) lists := by
  have hzero (x : Role) (hx : x ≠ .idle) : (idle k).total x = 0 :=
    tally_eq_zero.mpr fun _ => if_neg (Ne.symm hx)
  refine ⟨h.chain, fun pa => ?_⟩
  rw [hzero (.hand pa) (by simp), hzero (.returns pa) (by simp), hzero (.drops pa) (by simp)]
  refine ⟨count_lists h pa, ?_, fun hne => absurd rfl hne⟩
  split
  · next hp => exact h.nonneg pa hp
  · exact le_rfl

/-- In whatever order the CPUs take the locks, a page without references is on one free
list, in the hands of one CPU or with one `kfree`, and a page with references is in none of
these places.  A page that `kalloc` is about to return has one reference and one receiver. -/
theorem pages_conserved {mem : Nat → Nat → UInt8} {k : Kmem} (hk : kinit L mem = some k)
    (hs : Reachable (callStep L) (idle k) s) :
    ∃ lists : Cpu → List Nat, (∀ i, Chain s.kmem.next (s.kmem.freelist i) (lists i)) ∧
      ∀ pa, IsPage L pa → 0 ≤ krefcnt s.kmem pa ∧
        tally (List.count pa) lists + s.loose.count pa + s.total (.hand pa) =
          (if krefcnt s.kmem pa = 0 then 1 else 0) ∧
        ∀ id, (s.phase id).role = .returns pa → krefcnt s.kmem pa = 1 ∧
          ∀ j, j ≠ id → (s.phase j).role ≠ .returns pa ∧ (s.phase j).role ≠ .drops pa := by
  obtain ⟨k', lists₀, hk', hinv, -⟩ := kinit_inv L mem
  obtain rfl : k' = k := some.inj (hk'.symm.trans hk)
  obtain ⟨lists, hc⟩ := reachable_invariant (I := fun s => ∃ lists, Conserved L s lists)
    ⟨lists₀, conserved_idle hinv⟩ (fun s call s' hs h => hs.elim fun _ hc => hc.step h) hs
  refine ⟨lists, hc.chain, fun pa hp => ?_⟩
  obtain ⟨honce, hheld, hfresh⟩ := hc.page pa
  simp only [hp, true_and, if_true] at honce hheld
  have counts {x : Role} {j : Cpu} (hj : (s.phase j).role = x) : x.is (s.phase j).role = 1 :=
    if_pos hj
  refine ⟨by omega, honce, fun id hid => ?_⟩
  have hle := is_le_total s (.returns pa) id
  rw [counts hid] at hle
  have hone := hfresh (by omega)
  refine ⟨hone, fun j hj => ⟨fun hret => ?_, fun hdrop => ?_⟩⟩
  · have hsum : s.total (.returns pa) ≤ 1 := by omega
    exact hj (eq_of_tally_le_one hsum (by rw [counts hret]; omega) (by rw [counts hid]; omega))
  · have hle' := is_le_total s (.drops pa) j
    rw [counts hdrop] at hle'
    omega

/-- CPU 1 returns the page that it has taken from the list of CPU 0. -/
theorem pages_conserved_robbed : ∃ k s, kinit twoPages (fun _ _ => 0) = some k ∧
    run (callStep twoPages) (idle k) [.op (.kalloc 1), .op (.go 1), .op (.go 1), .op (.go 1),
      .op (.go 1), .op (.kalloc 0)] = some s ∧ krefcnt s.kmem (PHYSTOP - PGSIZE) = 1 ∧
    ∀ j, j ≠ 1 → (s.phase j).role ≠ .returns (PHYSTOP - PGSIZE) ∧
      (s.phase j).role ≠ .drops (PHYSTOP - PGSIZE) := by
  have htest : ((kinit twoPages fun _ _ => 0).bind fun k =>
      (run (callStep twoPages) (idle k) [.op (.kalloc 1), .op (.go 1), .op (.go 1), .op (.go 1),
        .op (.go 1), .op (.kalloc 0)]).map fun s => (s.phase 1).role) =
      some (.returns (PHYSTOP - PGSIZE)) := by decide +kernel
  obtain ⟨k, hk, h⟩ := bind_eq_some_iff.mp htest
  obtain ⟨s, hs, hrole⟩ := map_eq_some_iff.mp h
  obtain ⟨lists, -, hpage⟩ := pages_conserved hk ⟨_, hs⟩
  exact ⟨k, s, hk, hs, (hpage _ (by decide +kernel)).2.2 1 hrole⟩

end BirdOS.KallocLocks
