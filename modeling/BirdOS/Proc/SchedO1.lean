import Mathlib.Data.Fintype.Card
import Mathlib.Data.List.Range
import Mathlib.Tactic.Ring
import BirdOS.Lib.LinkedList
import BirdOS.Lib.Machine
import BirdOS.Param

/-! # The O(1) run queue (`sched_o1.c`)

21 doubly linked buckets indexed by the dynamic priority, with a bitmap of the
non-empty ones.  The links and the scheduling fields live in `struct proc`; each
field is a map over the slots of the process table.  `int` arithmetic wraps at 32
bits, as it does on the target.

`RqInv q B` ties the pointers to the lists `B i` of the buckets. -/

namespace BirdOS.SchedO1

open LinkedList Function List Machine BitVec Option

def RUNQ_LEN : Nat := 21

structure Runq where
  priority : Slot → Int
  waitTime : Slot → Int
  cpuTime : Slot → Int
  dynPriority : Slot → Nat
  runNext : Slot → Option Slot
  runPrev : Slot → Option Slot
  onRunq : Slot → Bool
  head : Nat → Option Slot
  tail : Nat → Option Slot
  bitmap : BitVec 64

def tbl : List Nat :=
  [0, 1, 48, 2, 57, 49, 28, 3, 61, 58, 50, 42, 38, 29, 17, 4,
    62, 55, 59, 36, 53, 51, 43, 22, 45, 39, 33, 30, 24, 18, 12, 5,
    63, 47, 56, 27, 60, 41, 37, 16, 54, 35, 52, 21, 44, 32, 23, 11,
    46, 26, 40, 15, 34, 20, 31, 10, 25, 14, 19, 9, 13, 8, 7, 6]

def ctz64 (x : BitVec 64) : Nat :=
  tbl.getD (((x &&& -x) * 0x03f79d71b4cb0a89#64) >>> 58).toNat 0

/-- The two range checks at the end of `runq_dyn`. -/
def clampDyn (d : Int) : Nat :=
  if d < 0 then 0 else if d > RUNQ_LEN - 1 then RUNQ_LEN - 1 else d.toNat

def runqDyn (q : Runq) (p : Slot) : Nat :=
  clampDyn (wrap32 (wrap32 (q.priority p + (q.waitTime p).tdiv 5) - (q.cpuTime p).tdiv 5))

def runqInit (q : Runq) : Runq :=
  { q with head := fun _ => none, tail := fun _ => none, bitmap := 0 }

def runqEnqueue (q : Runq) (p : Slot) : Runq :=
  if q.onRunq p then q
  else
    let i := runqDyn q p
    { q with
      dynPriority := update q.dynPriority p i
      runNext := linkAt (update q.runNext p none) (some p) (q.tail i)
      runPrev := update q.runPrev p (q.tail i)
      head := update q.head i (headOr (q.head i) (q.tail i) (some p))
      tail := update q.tail i (some p)
      bitmap := q.bitmap ||| (1#64 <<< i)
      onRunq := update q.onRunq p true }

def runqRemove (q : Runq) (p : Slot) : Runq :=
  if q.onRunq p then
    let i := q.dynPriority p
    let nx := q.runNext p
    let pr := q.runPrev p
    let head := update q.head i (headOr (q.head i) pr nx)
    { q with
      runNext := update (linkAt q.runNext nx pr) p none
      runPrev := update (linkAt q.runPrev pr nx) p none
      head := head
      tail := update q.tail i (headOr (q.tail i) nx pr)
      onRunq := update q.onRunq p false
      bitmap := if head i = none then q.bitmap &&& ~~~(1#64 <<< i) else q.bitmap }
  else q

/-- The inner `none` is the null pointer; the outer one a null dereference. -/
def runqPick (q : Runq) : Option (Runq × Option Slot) :=
  if q.bitmap = 0 then some (q, none)
  else
    match q.head (ctz64 q.bitmap) with
    | some p => some (runqRemove q p, some p)
    | none => none

def ageBucket : Nat → Runq → Option Slot → Option Runq
  | _, q, none => some q
  | 0, _, some _ => none
  | fuel + 1, q, some p =>
    ageBucket fuel { q with waitTime := update q.waitTime p (wrap32 (q.waitTime p + 1)) }
      (q.runNext p)

def rebucket (i : Nat) : Nat → Runq → Option Slot → Option Runq
  | _, q, none => some q
  | 0, _, some _ => none
  | fuel + 1, q, some p =>
    let nx := q.runNext p
    rebucket i fuel (if runqDyn q p ≠ i then runqEnqueue (runqRemove q p) p else q) nx

def tickQueue (q : Runq) : Option Runq := do
  let q ← (List.range RUNQ_LEN).foldlM (fun q i => ageBucket NPROC q (q.head i)) q
  (List.range RUNQ_LEN).foldlM (fun q i => rebucket i NPROC q (q.head i)) q

/-- Part 3 of `sched_tick`: `r` is the process of the CPU that took the tick. -/
def tickCpu (q : Runq) (r : Slot) : Runq :=
  { q with cpuTime := update q.cpuTime r (wrap32 (q.cpuTime r + 1)) }

def schedTick (q : Runq) (r : Option Slot) : Option Runq := do
  let q ← tickQueue q
  match r with
  | some r => some (tickCpu q r)
  | none => some q

def setPriority (q : Runq) (p : Slot) (priority : Int) : Runq :=
  let q := { q with priority := update q.priority p (wrap32 priority) }
  if q.onRunq p then runqEnqueue (runqRemove q p) p
  else { q with dynPriority := update q.dynPriority p (runqDyn q p) }

/-! ## `ctz64` -/

variable {x : BitVec 64} {i : Nat}

theorem and_neg_of_lowest (hi : x.getLsbD i = true)
    (hlow : ∀ j, j < i → x.getLsbD j = false) : x &&& -x = twoPow 64 i := by
  apply eq_of_getLsbD_eq
  intro j hj
  rw [getLsbD_and, getLsbD_neg, getLsbD_twoPow]
  rcases Nat.lt_trichotomy j i with h | h | h
  · have hne : ¬ i = j := by omega
    simp [hlow j h, hne]
  · subst h
    have hnone : ¬ ∃ k, k < j ∧ x.getLsbD k = true := by
      rintro ⟨k, hk, ht⟩
      rw [hlow k hk] at ht
      exact Bool.false_ne_true ht
    simp [hi, hj, hnone]
  have hsome : ∃ k, k < j ∧ x.getLsbD k = true := ⟨i, h, hi⟩
  have hne : ¬ i = j := by omega
  cases hx : x.getLsbD j <;> simp [hj, hne, hsome]

theorem tbl_twoPow : ∀ i : Fin 64,
    tbl.getD ((twoPow 64 i * 0x03f79d71b4cb0a89#64) >>> 58).toNat 0 = i := by
  decide

theorem ctz64_eq (hi : x.getLsbD i = true)
    (hlow : ∀ j, j < i → x.getLsbD j = false) : ctz64 x = i := by
  have hlt : i < 64 := lt_of_getLsbD hi
  rw [ctz64, and_neg_of_lowest hi hlow]
  exact tbl_twoPow ⟨i, hlt⟩

theorem exists_lowest (hx : x ≠ 0) :
    ∃ i, x.getLsbD i = true ∧ ∀ j, j < i → x.getLsbD j = false := by
  have hex : ∃ i, x.getLsbD i = true := by
    by_contra hno
    apply hx
    apply eq_of_getLsbD_eq
    intro j _
    have hj : x.getLsbD j = false := by
      cases hv : x.getLsbD j with
      | false => rfl
      | true => exact absurd ⟨j, hv⟩ hno
    simp [hj]
  refine ⟨Nat.find hex, Nat.find_spec hex, ?_⟩
  intro j hj
  have := Nat.find_min hex hj
  simpa using this

/-- `ctz64` is the index of the lowest bit that is set. -/
theorem ctz64_lowest_bit (hx : x ≠ 0) :
    x.getLsbD (ctz64 x) = true ∧ ∀ j, j < ctz64 x → x.getLsbD j = false := by
  obtain ⟨i, hi, hlow⟩ := exists_lowest hx
  rw [ctz64_eq hi hlow]
  exact ⟨hi, hlow⟩

theorem ctz64_lowest_bit_twelve : (12 : BitVec 64).getLsbD (ctz64 12) = true ∧
    ∀ j, j < ctz64 12 → (12 : BitVec 64).getLsbD j = false :=
  ctz64_lowest_bit (by decide)

/-! ## Fields after the queue operations -/

@[simp] theorem runqEnqueue_times (q : Runq) (p : Slot) :
    (runqEnqueue q p).priority = q.priority ∧ (runqEnqueue q p).waitTime = q.waitTime ∧
      (runqEnqueue q p).cpuTime = q.cpuTime := by
  unfold runqEnqueue
  split <;> exact ⟨rfl, rfl, rfl⟩

@[simp] theorem runqEnqueue_onRunq (q : Runq) (p : Slot) :
    (runqEnqueue q p).onRunq = update q.onRunq p true := by
  unfold runqEnqueue
  split
  · rename_i hp
    rw [← hp, update_eq_self]
  · rfl

@[simp] theorem runqRemove_times (q : Runq) (p : Slot) :
    (runqRemove q p).priority = q.priority ∧ (runqRemove q p).waitTime = q.waitTime ∧
      (runqRemove q p).cpuTime = q.cpuTime := by
  unfold runqRemove
  split <;> exact ⟨rfl, rfl, rfl⟩

@[simp] theorem runqRemove_onRunq (q : Runq) (p : Slot) :
    (runqRemove q p).onRunq = update q.onRunq p false := by
  unfold runqRemove
  split
  · rfl
  · rename_i hp
    rw [← Bool.eq_false_iff.mpr hp, update_eq_self]

@[simp] theorem runqEnqueue_runqDyn (q : Runq) (p r : Slot) :
    runqDyn (runqEnqueue q p) r = runqDyn q r := by
  simp [runqDyn]

@[simp] theorem runqRemove_runqDyn (q : Runq) (p r : Slot) :
    runqDyn (runqRemove q p) r = runqDyn q r := by
  simp [runqDyn]

/-! ## The bucket lists -/

structure RqInv (q : Runq) (B : Nat → List Slot) : Prop where
  seg : ∀ i, i < RUNQ_LEN → Seg q.runNext q.runPrev none (q.head i) (B i) none (q.tail i)
  dyn : ∀ i, i < RUNQ_LEN → ∀ p ∈ B i, q.dynPriority p = i
  queued : ∀ p, q.onRunq p = true ↔ ∃ i, i < RUNQ_LEN ∧ p ∈ B i
  bitmap : ∀ i, q.bitmap.getLsbD i = true ↔ i < RUNQ_LEN ∧ B i ≠ []

theorem clampDyn_lt (d : Int) : clampDyn d < RUNQ_LEN := by
  unfold clampDyn RUNQ_LEN
  split_ifs <;> omega

theorem runqDyn_lt (q : Runq) (p : Slot) : runqDyn q p < RUNQ_LEN := clampDyn_lt _

variable {p : Slot} {q' : Runq}

section Buckets
variable {q : Runq} {B : Nat → List Slot}

theorem RqInv.nodup (h : RqInv q B) (hi : i < RUNQ_LEN) : (B i).Nodup :=
  seg_nodup (h.seg i hi)

variable {j : Nat}

theorem RqInv.bucket_unique (h : RqInv q B) (hi : i < RUNQ_LEN)
    (hj : j < RUNQ_LEN) (hpi : p ∈ B i) (hpj : p ∈ B j) : i = j :=
  (h.dyn i hi p hpi).symm.trans (h.dyn j hj p hpj)

theorem RqInv.mem_bucket (h : RqInv q B) (hp : q.onRunq p = true) :
    q.dynPriority p < RUNQ_LEN ∧ p ∈ B (q.dynPriority p) := by
  obtain ⟨i, hi, hpi⟩ := (h.queued p).mp hp
  rw [h.dyn i hi p hpi]
  exact ⟨hi, hpi⟩

theorem RqInv.not_mem (h : RqInv q B) (hp : q.onRunq p = false)
    (hi : i < RUNQ_LEN) : p ∉ B i := by
  intro hm
  rw [(h.queued p).mpr ⟨i, hi, hm⟩] at hp
  exact Bool.noConfusion hp

theorem getLsbD_setBit (x : BitVec 64) (hi : i < RUNQ_LEN) (j : Nat) :
    (x ||| (1#64 <<< i)).getLsbD j = (x.getLsbD j || decide (j = i)) := by
  simp only [RUNQ_LEN] at hi
  rw [getLsbD_or, getLsbD_shiftLeft, getLsbD_one]
  obtain rfl | hj := eq_or_ne j i
  · have h64 : j < 64 := by omega
    simp [h64]
  have hne : ¬ (j < 64 ∧ i ≤ j ∧ j - i = 0) := by omega
  cases x.getLsbD j <;> simp [hj]
  omega

theorem getLsbD_clearBit (x : BitVec 64) (hi : i < RUNQ_LEN) (j : Nat) :
    (x &&& ~~~(1#64 <<< i)).getLsbD j = (x.getLsbD j && decide (j ≠ i)) := by
  simp only [RUNQ_LEN] at hi
  rw [getLsbD_and, getLsbD_not, getLsbD_shiftLeft, getLsbD_one]
  obtain rfl | hj := eq_or_ne j i
  · simp
  cases hx : x.getLsbD j with
  | false => simp
  | true =>
    have h64 : j < 64 := lt_of_getLsbD hx
    simp [hj, h64]
    omega

theorem RqInv.enqueue (h : RqInv q B) (hp : q.onRunq p = false) : RqInv (runqEnqueue q p)
      (update B (runqDyn q p) (B (runqDyn q p) ++ [p])) := by
  have hi := runqDyn_lt q p
  unfold runqEnqueue
  rw [if_neg (by simp [hp])]
  generalize runqDyn q p = i at hi ⊢
  have hmem : ∀ j r, r ∈ update B i (B i ++ [p]) j ↔ r ∈ B j ∨ (j = i ∧ r = p) := by
    intro j r
    obtain rfl | hj := eq_or_ne j i
    · simp
    · simp [hj]
  refine ⟨?_, ?_, ?_, ?_⟩
  · intro j hj
    obtain rfl | hji := eq_or_ne j i
    · simp only [update_self]
      exact seg_push_back (h.seg j hj) (h.not_mem hp hj)
    simp only [update_of_ne hji]
    apply seg_congr _ _ _ _ _ _ (h.seg j hj)
    intro r hr
    have hrp : r ≠ p := fun e => h.not_mem hp hj (e ▸ hr)
    refine ⟨?_, update_of_ne hrp _ _⟩
    rw [linkAt_other, update_of_ne hrp]
    intro ht
    -- the tail of bucket `i` is a member of bucket `i`
    rcases eq_nil_or_concat' (B i) with he | ⟨ys, t, he⟩
    · have hs := h.seg i hi
      rw [he] at hs
      rw [(seg_tail_nil hs).2] at ht
      exact absurd ht (by simp)
    have hs := h.seg i hi
    rw [he] at hs
    have htr : t = r := some.inj ((seg_tail_snoc hs).symm.trans ht)
    exact hji (h.bucket_unique hj hi hr (by rw [he, htr]; simp))
  · intro j hj r hr
    rcases (hmem j r).mp hr with hr | ⟨hji, rfl⟩
    · have hrp : r ≠ p := fun e => h.not_mem hp hj (e ▸ hr)
      simp only [update_of_ne hrp]
      exact h.dyn j hj r hr
    · simp only [update_self]
      exact hji.symm
  · intro r
    obtain rfl | hrp := eq_or_ne r p
    · simp only [update_self, true_iff]
      exact ⟨i, hi, (hmem i r).mpr (.inr ⟨rfl, rfl⟩)⟩
    · simp only [update_of_ne hrp, hmem, hrp, and_false, or_false]
      exact h.queued r
  · intro j
    simp only
    rw [getLsbD_setBit _ hi]
    obtain rfl | hji := eq_or_ne j i
    · simp [hi]
    · simp only [hji, decide_false, Bool.or_false, update_of_ne hji, ne_eq]
      exact h.bitmap j

theorem RqInv.remove (h : RqInv q B) (hp : q.onRunq p = true) : RqInv (runqRemove q p)
      (update B (q.dynPriority p) ((B (q.dynPriority p)).erase p)) := by
  obtain ⟨hi, hpi⟩ := h.mem_bucket hp
  unfold runqRemove
  rw [if_pos hp]
  generalize hdyn : q.dynPriority p = i at hi hpi ⊢
  obtain ⟨as, bs, hB⟩ := append_of_mem hpi
  have hnd := h.nodup hi
  rw [hB, nodup_append, nodup_cons] at hnd
  obtain ⟨_, ⟨hpb, _⟩, hdisj⟩ := hnd
  have hpa : p ∉ as := fun hm => hdisj p hm p (mem_cons_self ..) rfl
  have herase : (B i).erase p = as ++ bs := by
    rw [hB, erase_append_right _ hpa, erase_cons_head]
  have hmem : ∀ j r, j < RUNQ_LEN →
      (r ∈ update B i (as ++ bs) j ↔ r ∈ B j ∧ r ≠ p) := by
    intro j r hj
    obtain rfl | hji := eq_or_ne j i
    · rw [update_self, hB]
      simp only [mem_append, mem_cons]
      constructor
      · intro hr
        refine ⟨by tauto, fun e => ?_⟩
        subst e
        tauto
      · tauto
    · rw [update_of_ne hji]
      exact ⟨fun hr => ⟨hr, fun e => hji (h.bucket_unique hj hi (e ▸ hr) hpi)⟩, fun hr => hr.1⟩
  have hseg := h.seg i hi
  rw [hB] at hseg
  have hnew := seg_remove hseg
  rw [herase]
  refine ⟨?_, ?_, ?_, ?_⟩
  · intro j hj
    obtain rfl | hji := eq_or_ne j i
    · simp only [update_self]
      exact hnew
    simp only [update_of_ne hji]
    apply seg_congr _ _ _ _ _ _ (h.seg j hj)
    intro r hr
    have hri : r ∉ B i := fun hm => hji (h.bucket_unique hj hi hr hm)
    rw [hB] at hri
    have hrp : r ≠ p := fun e => hri (by rw [e]; simp)
    rw [update_of_ne hrp, update_of_ne hrp]
    obtain ⟨m, t, hsa, _, hpr, hsb⟩ := (seg_append as (p :: bs) none _ none _).mp hseg
    constructor
    · apply linkAt_other
      rw [hpr]
      intro ht
      rcases eq_nil_or_concat' as with he | ⟨ys, a, he⟩
      · rw [he] at hsa
        exact absurd ((seg_tail_nil hsa).2.symm.trans ht) (by simp)
      rw [he] at hsa
      have har : a = r := some.inj ((seg_tail_snoc hsa).symm.trans ht)
      exact hri (by rw [he, har]; simp)
    · apply linkAt_other
      intro hn
      cases bs with
      | nil => exact absurd ((seg_tail_nil hsb).1.symm.trans hn) (by simp)
      | cons b bs =>
        have hbr : b = r := some.inj ((seg_head_cons hsb).symm.trans hn)
        exact hri (by rw [hbr]; simp)
  · intro j hj r hr
    exact h.dyn j hj r ((hmem j r hj).mp hr).1
  · intro r
    obtain rfl | hrp := eq_or_ne r p
    · simp only [update_self, Bool.false_eq_true, false_iff]
      rintro ⟨j, hj, hr⟩
      exact ((hmem j r hj).mp hr).2 rfl
    simp only [update_of_ne hrp]
    rw [h.queued r]
    constructor
    · rintro ⟨j, hj, hr⟩
      exact ⟨j, hj, (hmem j r hj).mpr ⟨hr, hrp⟩⟩
    · rintro ⟨j, hj, hr⟩
      exact ⟨j, hj, ((hmem j r hj).mp hr).1⟩
  · intro j
    have hempty := chain_eq_nil_iff (seg_chain _ _ _ _ hnew)
    simp only [update_self]
    obtain rfl | hji := eq_or_ne j i
    · rw [update_self]
      split
      · rename_i hn
        rw [getLsbD_clearBit _ hi]
        simp [hempty.mpr hn]
      · rename_i hn
        have hne : as ++ bs ≠ [] := fun e => hn (hempty.mp e)
        have hold : B j ≠ [] := by rw [hB]; simp
        simp only [(h.bitmap j).mpr ⟨hi, hold⟩, true_iff]
        exact ⟨hi, hne⟩
    · rw [update_of_ne hji, ← h.bitmap j]
      split
      · rw [getLsbD_clearBit _ hi]
        simp [hji]
      · exact Iff.rfl

theorem RqInv.pick (h : RqInv q B) : (runqPick q = some (q, none) ∧ ∀ p, q.onRunq p = false) ∨
    ∃ i p rest, i < RUNQ_LEN ∧ (∀ j, j < i → B j = []) ∧ B i = p :: rest ∧
      q.onRunq p = true ∧ runqPick q = some (runqRemove q p, some p) := by
  unfold runqPick
  by_cases hb : q.bitmap = 0
  · refine .inl ⟨if_pos hb, ?_⟩
    intro p
    cases hp : q.onRunq p with
    | false => rfl
    | true =>
      obtain ⟨i, hi, hpi⟩ := (h.queued p).mp hp
      have := (h.bitmap i).mpr ⟨hi, ne_nil_of_mem hpi⟩
      rw [hb] at this
      simp at this
  · right
    obtain ⟨i, hset, hlow⟩ := exists_lowest hb
    obtain ⟨hi, hne⟩ := (h.bitmap i).mp hset
    obtain ⟨p, rest, hB⟩ := exists_cons_of_ne_nil hne
    have hseg := h.seg i hi
    rw [hB] at hseg
    refine ⟨i, p, rest, hi, ?_, hB, (h.queued p).mpr ⟨i, hi, by rw [hB]; simp⟩, ?_⟩
    · intro j hj
      by_contra hBj
      have := (h.bitmap j).mpr ⟨by omega, hBj⟩
      rw [hlow j hj] at this
      exact Bool.noConfusion this
    · rw [if_neg hb, ctz64_eq hset hlow, hseg.1]

/-! ## `sched_tick` -/

theorem ageBucket_eq : ∀ (xs : List Slot) (fuel : Nat) (q : Runq) (hd : Option Slot),
    Chain q.runNext hd xs → xs.length ≤ fuel → ageBucket fuel q hd =
      some { q with waitTime := fun p =>
        if p ∈ xs then wrap32 (q.waitTime p + 1) else q.waitTime p } := by
  intro xs
  induction xs with
  | nil =>
    intro fuel q hd h _
    rw [show hd = none from h]
    cases fuel <;> simp [ageBucket]
  | cons x xs ih =>
    intro fuel q hd h hf
    have hx : x ∉ xs := (nodup_cons.mp (chain_nodup _ _ h)).1
    cases fuel with
    | zero => simp at hf
    | succ fuel =>
      have hrest := ih fuel
        { q with waitTime := update q.waitTime x (wrap32 (q.waitTime x + 1)) }
        (q.runNext x) h.2 (by simpa using hf)
      rw [h.1, ageBucket, hrest]
      congr 2
      funext p
      obtain rfl | hpx := eq_or_ne p x
      · simp [hx]
      · simp [hpx]

theorem RqInv.waitTime (h : RqInv q B) (w : Slot → Int) : RqInv { q with waitTime := w } B :=
  { h with }

theorem RqInv.length_le (h : RqInv q B) (hi : i < RUNQ_LEN) : (B i).length ≤ NPROC := by
  have hcard : (B i).length ≤ Fintype.card Slot := List.Nodup.length_le_card (h.nodup hi)
  rwa [Fintype.card_fin] at hcard

theorem ageBuckets_eq : ∀ (is : List Nat) (q : Runq), RqInv q B → is.Nodup →
    (∀ i ∈ is, i < RUNQ_LEN) → is.foldlM (fun q i => ageBucket NPROC q (q.head i)) q =
      some { q with waitTime := fun p =>
        if ∃ i ∈ is, p ∈ B i then wrap32 (q.waitTime p + 1) else q.waitTime p } := by
  intro is
  induction is with
  | nil => intro q _ _ _; simp
  | cons i is ih =>
    intro q h hnd hlt
    have hi : i < RUNQ_LEN := hlt i (mem_cons_self ..)
    rw [foldlM_cons, ageBucket_eq (B i) NPROC q (q.head i)
      (seg_chain _ _ _ _ (h.seg i hi)) (h.length_le hi)]
    simp only [bind_eq_bind, bind_some]
    rw [ih _ (h.waitTime _) (nodup_cons.mp hnd).2
      fun j hj => hlt j (mem_cons_of_mem i hj)]
    congr 2
    funext p
    by_cases hpi : p ∈ B i
    · have hno : ¬ ∃ j ∈ is, p ∈ B j := by
        rintro ⟨j, hj, hpj⟩
        have hij := h.bucket_unique hi (hlt j (mem_cons_of_mem i hj)) hpi hpj
        exact (nodup_cons.mp hnd).1 (hij ▸ hj)
      simp [hpi, hno]
    · simp [hpi]

structure SameProcs (q q' : Runq) : Prop where
  priority : q'.priority = q.priority
  waitTime : q'.waitTime = q.waitTime
  cpuTime : q'.cpuTime = q.cpuTime
  onRunq : q'.onRunq = q.onRunq

theorem SameProcs.refl (q : Runq) : SameProcs q q := ⟨rfl, rfl, rfl, rfl⟩

theorem SameProcs.trans {q q'' : Runq} (h : SameProcs q q') (h' : SameProcs q' q'') :
    SameProcs q q'' :=
  ⟨h'.priority.trans h.priority, h'.waitTime.trans h.waitTime, h'.cpuTime.trans h.cpuTime,
    h'.onRunq.trans h.onRunq⟩

theorem SameProcs.runqDyn {q : Runq} (h : SameProcs q q') (p : Slot) :
    runqDyn q' p = runqDyn q p := by
  simp only [SchedO1.runqDyn, h.priority, h.waitTime, h.cpuTime]

def moved (B : Nat → List Slot) (p : Slot) (i j : Nat) : Nat → List Slot :=
  update (update B i ((B i).erase p)) j
    (update B i ((B i).erase p) j ++ [p])

theorem RqInv.move (h : RqInv q B) (hp : q.onRunq p = true) :
    RqInv (runqEnqueue (runqRemove q p) p) (moved B p (q.dynPriority p) (SchedO1.runqDyn q p)) ∧
      SameProcs q (runqEnqueue (runqRemove q p) p) := by
  constructor
  · have h' := (h.remove hp).enqueue (p := p) (by simp)
    rw [runqRemove_runqDyn] at h'
    exact h'
  · refine ⟨by simp, by simp, by simp, ?_⟩
    rw [runqEnqueue_onRunq, runqRemove_onRunq, update_idem, ← hp, update_eq_self]

variable {as bs : List Slot}

theorem seg_next_head {pr hd tl : Option Slot}
    (h : Seg q.runNext q.runPrev pr hd (as ++ p :: bs) none tl) : q.runNext p = bs.head? := by
  obtain ⟨m, t, _, _, _, hs⟩ := (seg_append as (p :: bs) pr hd none tl).mp h
  cases bs with
  | nil => exact (seg_tail_nil hs).1
  | cons b bs => exact seg_head_cons hs

/-- Who belongs to bucket `i` stays in order, the others go behind those of their own bucket. -/
def settle (d : Slot → Nat) (B : Nat → List Slot) (i : Nat) (as bs : List Slot) (j : Nat) :
    List Slot :=
  (if j = i then as else B j) ++ bs.filter (d · = j)

variable {d : Slot → Nat}

theorem settle_stay (hp : d p = i) : settle d B i (as ++ [p]) bs = settle d B i as (p :: bs) := by
  funext j
  by_cases hj : j = i
  · simp [settle, hj, hp]
  · have hne : d p ≠ j := fun h => hj (h.symm.trans hp)
    simp [settle, hj, hne]

theorem settle_move (hp : d p ≠ i) :
    settle d (moved B p i (d p)) i as bs = settle d B i as (p :: bs) := by
  funext j
  obtain rfl | hj := eq_or_ne j i
  · simp [settle, hp]
  by_cases hk : j = d p
  · subst hk
    simp [settle, hp, moved]
  · simp [settle, hj, hk, moved, Ne.symm hk]

theorem rebucket_spec (i : Nat) (hi : i < RUNQ_LEN) : ∀ (bs : List Slot) (fuel : Nat) (q : Runq)
    (B : Nat → List Slot) (as : List Slot), RqInv q B → B i = as ++ bs → bs.length ≤ fuel →
    ∃ q', rebucket i fuel q bs.head? = some q' ∧ RqInv q' (settle (runqDyn q) B i as bs) ∧
      SameProcs q q' := by
  intro bs
  induction bs with
  | nil =>
    intro fuel q B as h hB _
    refine ⟨q, by cases fuel <;> simp [rebucket], ?_, SameProcs.refl q⟩
    have hsettle : settle (runqDyn q) B i as [] = B := by
      funext j
      by_cases hj : j = i <;> simp [settle, hj, hB]
    rwa [hsettle]
  | cons p bs ih =>
    intro fuel q B as h hB hf
    have hseg := h.seg i hi
    rw [hB] at hseg
    have hp : q.onRunq p = true := (h.queued p).mpr ⟨i, hi, by rw [hB]; simp⟩
    have hdyn : q.dynPriority p = i := h.dyn i hi p (by rw [hB]; simp)
    cases fuel with
    | zero => simp at hf
    | succ fuel =>
      have hf' : bs.length ≤ fuel := by simpa using hf
      rw [head?_cons, rebucket, seg_next_head hseg]
      by_cases hpi : runqDyn q p = i
      · simp only [hpi, ne_eq, not_true_eq_false, if_false]
        rw [← settle_stay hpi]
        exact ih fuel q B (as ++ [p]) h (by rw [hB]; simp) hf'
      simp only [ne_eq, hpi, not_false_eq_true, if_true]
      obtain ⟨hmove, hsame⟩ := h.move hp
      rw [hdyn] at hmove
      have hpa : p ∉ as := by
        have hnd := h.nodup hi
        rw [hB, nodup_append] at hnd
        exact fun hm => hnd.2.2 p hm p (mem_cons_self ..) rfl
      have hnew : moved B p i (runqDyn q p) i = as ++ bs := by
        rw [moved, update_of_ne (Ne.symm hpi), update_self, hB, erase_append_right _ hpa,
          erase_cons_head]
      obtain ⟨q', hrun, hinv, hs⟩ := ih fuel _ _ as hmove hnew hf'
      rw [funext hsame.runqDyn, settle_move hpi] at hinv
      exact ⟨q', hrun, hinv, hsame.trans hs⟩

def arrivals (d : Slot → Nat) (B : Nat → List Slot) (is : List Nat) (j : Nat) : List Slot :=
  is.flatMap fun i => if i = j then [] else (B i).filter (d · = j)

theorem arrivals_settle {is : List Nat} (hi : i ∉ is) :
    arrivals d (settle d B i [] (B i)) is j = arrivals d B is j := by
  refine List.flatMap_congr fun k hk => ?_
  have hki : k ≠ i := fun h => hi (h ▸ hk)
  split
  · rfl
  · next hkj =>
    have hnone : ((B i).filter (d · = k)).filter (d · = j) = [] := by
      rw [List.filter_filter, List.filter_eq_nil_iff]
      intro p _
      simp only [Bool.and_eq_true, decide_eq_true_eq]
      omega
    rw [settle, if_neg hki, List.filter_append, hnone, List.append_nil]

theorem rebuckets_spec : ∀ (is : List Nat) (q : Runq) (B : Nat → List Slot), RqInv q B → is.Nodup →
    (∀ i ∈ is, i < RUNQ_LEN) →
    ∃ q', is.foldlM (fun q i => rebucket i NPROC q (q.head i)) q = some q' ∧
      SameProcs q q' ∧ RqInv q' fun j =>
        (if j ∈ is then (B j).filter (runqDyn q · = j) else B j) ++ arrivals
          (runqDyn q) B is j := by
  intro is
  induction is with
  | nil =>
    intro q B h _ _
    exact ⟨q, rfl, SameProcs.refl q, by simpa [arrivals] using h⟩
  | cons i is ih =>
    intro q B h hnd hlt
    have hi : i < RUNQ_LEN := hlt i (List.mem_cons_self ..)
    obtain ⟨hnot, hnd⟩ := List.nodup_cons.mp hnd
    have hhead : q.head i = (B i).head? := by
      have hseg := h.seg i hi
      cases hB : B i with
      | nil => rw [hB] at hseg; exact (seg_tail_nil hseg).1
      | cons b bs => rw [hB] at hseg; exact seg_head_cons hseg
    obtain ⟨q1, hrun, hinv, hsame⟩ := rebucket_spec i hi (B i) NPROC q B [] h rfl (h.length_le hi)
    obtain ⟨q2, hrun2, hsame2, hinv2⟩ :=
      ih q1 _ hinv hnd fun j hj => hlt j (List.mem_cons_of_mem i hj)
    refine ⟨q2, ?_, hsame.trans hsame2, ?_⟩
    · rw [List.foldlM_cons, hhead, hrun]
      exact hrun2
    · convert hinv2 using 1
      rw [funext hsame.runqDyn]
      funext j
      rw [arrivals_settle hnot, arrivals, List.flatMap_cons, ← arrivals, ← List.append_assoc]
      congr 1
      obtain rfl | hji := eq_or_ne j i
      · simp [settle, hnot]
      · have hij : i ≠ j := Ne.symm hji
        by_cases hj : j ∈ is <;> simp [settle, hji, hij, hj, List.filter_filter]

def Fresh (q : Runq) : Prop := ∀ p, q.onRunq p = true → q.dynPriority p = runqDyn q p

theorem mem_arrivals {is : List Nat}
    (h : p ∈ arrivals d B is j) : d p = j ∧ ∃ i ∈ is, i ≠ j ∧ p ∈ B i := by
  obtain ⟨i, hi, hp⟩ := mem_flatMap.mp h
  split at hp
  · cases hp
  · next hij =>
    obtain ⟨hp, hd⟩ := mem_filter.mp hp
    exact ⟨of_decide_eq_true hd, i, hi, hij, hp⟩

theorem RqInv.congr {B' : Nat → List Slot} (h : RqInv q B) (hB : ∀ i, i < RUNQ_LEN → B' i = B i) :
    RqInv q B' where
  seg := fun i hi => hB i hi ▸ h.seg i hi
  dyn := fun i hi p hp => h.dyn i hi p (hB i hi ▸ hp)
  queued := fun p => (h.queued p).trans
    (exists_congr fun i => and_congr_right fun hi => by rw [hB i hi])
  bitmap := fun i => (h.bitmap i).trans (and_congr_right fun hi => by rw [hB i hi])

def agedBuckets (q' : Runq) (B : Nat → List Slot) (i : Nat) : List Slot :=
  (B i).filter (runqDyn q' · = i) ++ arrivals (runqDyn q') B (List.range RUNQ_LEN) i

theorem mem_agedBuckets (hp : p ∈ agedBuckets q' B i) :
    SchedO1.runqDyn q' p = i := by
  rcases mem_append.mp hp with hp | hp
  · exact of_decide_eq_true (mem_filter.mp hp).2
  · exact (mem_arrivals hp).1

theorem RqInv.ticked (h : RqInv q B) : ∃ q', SchedO1.tickQueue q = some q' ∧
    q'.onRunq = q.onRunq ∧ q'.priority = q.priority ∧ q'.cpuTime = q.cpuTime ∧
    (∀ p, q'.waitTime p = if q.onRunq p then wrap32 (q.waitTime p + 1) else q.waitTime p) ∧
    RqInv q' (agedBuckets q' B) := by
  have hlt : ∀ i ∈ range RUNQ_LEN, i < RUNQ_LEN := fun i hi => mem_range.mp hi
  have hage := ageBuckets_eq (range RUNQ_LEN) q h nodup_range hlt
  obtain ⟨q', hrun, hsame, hinv⟩ := rebuckets_spec (range RUNQ_LEN) _ B
    (h.waitTime fun p => if ∃ i ∈ range RUNQ_LEN, p ∈ B i then
      wrap32 (q.waitTime p + 1) else q.waitTime p) nodup_range hlt
  refine ⟨q', ?_, hsame.onRunq, hsame.priority, hsame.cpuTime, ?_, ?_⟩
  · rw [SchedO1.tickQueue, hage]
    exact hrun
  · intro p
    rw [hsame.waitTime]
    have hiff : (∃ i ∈ range RUNQ_LEN, p ∈ B i) ↔ q.onRunq p = true := by
      rw [h.queued p]
      simp [mem_range]
    simp only [hiff]
  · rw [← funext hsame.runqDyn] at hinv
    refine hinv.congr fun i hi => ?_
    rw [if_pos (mem_range.mpr hi), agedBuckets]

theorem RqInv.tickQueue (h : RqInv q B) : ∃ q' B', SchedO1.tickQueue q = some q' ∧ RqInv q' B' ∧
    Fresh q' ∧ q'.onRunq = q.onRunq := by
  obtain ⟨q', hrun, hon, -, -, -, hinv⟩ := h.ticked
  exact ⟨q', _, hrun, hinv, fun p hp => (mem_agedBuckets (hinv.mem_bucket hp).2).symm, hon⟩

end Buckets

/-! ## The queue as the kernel drives it -/

inductive Op where
  | alloc (p : Slot)
  | enqueue (p : Slot)
  | remove (p : Slot)
  | pick
  | dispatch (p : Slot)
  | tick (r : Option Slot)
  | setPriority (p : Slot) (priority : Int)

def allocFields (q : Runq) (p : Slot) : Runq :=
  { q with
    priority := update q.priority p 10
    cpuTime := update q.cpuTime p 0
    waitTime := update q.waitTime p 0
    dynPriority := update q.dynPriority p 10 }

theorem RqInv.setDyn {q : Runq} {B : Nat → List Slot} (h : RqInv q B)
    (hp : q.onRunq p = false) (d : Nat) :
    RqInv { q with dynPriority := update q.dynPriority p d } B where
  seg := h.seg
  dyn := by
    intro i hi r hr
    have hne : r ≠ p := by
      intro hrp
      exact h.not_mem hp hi (hrp ▸ hr)
    simp only [update_of_ne hne]
    exact h.dyn i hi r hr
  queued := h.queued
  bitmap := h.bitmap

theorem RqInv.allocFields {q : Runq} {B : Nat → List Slot} (h : RqInv q B)
    (hp : q.onRunq p = false) : RqInv (allocFields q p) B :=
  have h' := h.setDyn hp 10
  ⟨h'.seg, h'.dyn, h'.queued, h'.bitmap⟩

/-- What `allocproc`, `scheduler` and a tick change is a process that is not queued. -/
def step (q : Runq) : Op → Option Runq
  | .alloc p => if q.onRunq p then none else some (allocFields q p)
  | .enqueue p => some (runqEnqueue q p)
  | .remove p => some (runqRemove q p)
  | .pick => (runqPick q).map Prod.fst
  | .dispatch p =>
    if q.onRunq p then none else some { q with waitTime := update q.waitTime p 0 }
  | .tick none => schedTick q none
  | .tick (some r) => if q.onRunq r then none else schedTick q (some r)
  | .setPriority p priority => some (setPriority q p priority)

def boot : Runq :=
  runqInit
    { priority := fun _ => 0, waitTime := fun _ => 0, cpuTime := fun _ => 0
      dynPriority := fun _ => 0, runNext := fun _ => none, runPrev := fun _ => none
      onRunq := fun _ => false, head := fun _ => none, tail := fun _ => none, bitmap := 0 }

theorem boot_inv : RqInv boot (fun _ => []) where
  seg := fun _ _ => ⟨rfl, rfl⟩
  dyn := fun _ _ _ hp => absurd hp not_mem_nil
  queued := by simp [boot, runqInit]
  bitmap := by simp [boot, runqInit]

def Ok (q : Runq) : Prop := (∃ B, RqInv q B) ∧ Fresh q

theorem Ok.enqueue {q : Runq} (h : Ok q) (p : Slot) : Ok (runqEnqueue q p) := by
  obtain ⟨⟨B, hB⟩, hf⟩ := h
  cases hp : q.onRunq p with
  | true =>
    have heq : runqEnqueue q p = q := by simp [runqEnqueue, hp]
    rw [heq]
    exact ⟨⟨B, hB⟩, hf⟩
  | false =>
    refine ⟨⟨_, hB.enqueue hp⟩, ?_⟩
    intro r hr
    rw [runqEnqueue_runqDyn]
    obtain rfl | hrp := eq_or_ne r p
    · simp [runqEnqueue, hp]
    rw [runqEnqueue_onRunq, update_of_ne hrp] at hr
    simp only [runqEnqueue, hp, Bool.false_eq_true, if_false, update_of_ne hrp]
    exact hf r hr

theorem runqRemove_dynPriority (q : Runq) (p : Slot) :
    (runqRemove q p).dynPriority = q.dynPriority := by
  unfold runqRemove
  split <;> rfl

theorem Ok.remove {q : Runq} (h : Ok q) (p : Slot) : Ok (runqRemove q p) := by
  obtain ⟨⟨B, hB⟩, hf⟩ := h
  cases hp : q.onRunq p with
  | false =>
    have heq : runqRemove q p = q := by simp [runqRemove, hp]
    rw [heq]
    exact ⟨⟨B, hB⟩, hf⟩
  | true =>
    refine ⟨⟨_, hB.remove hp⟩, ?_⟩
    intro r hr
    obtain rfl | hrp := eq_or_ne r p
    · simp at hr
    rw [runqRemove_onRunq, update_of_ne hrp] at hr
    rw [runqRemove_runqDyn, runqRemove_dynPriority]
    exact hf r hr

theorem Ok.setFields {q : Runq} (h : Ok q) (q' : Runq)
    (hlinks : q'.runNext = q.runNext ∧ q'.runPrev = q.runPrev ∧ q'.head = q.head ∧
      q'.tail = q.tail ∧ q'.bitmap = q.bitmap ∧ q'.onRunq = q.onRunq)
    (hfields : ∀ r, q.onRunq r = true → q'.dynPriority r = q.dynPriority r ∧
      runqDyn q' r = runqDyn q r) : Ok q' := by
  obtain ⟨⟨B, hB⟩, hf⟩ := h
  obtain ⟨hn, hp, hh, ht, hb, ho⟩ := hlinks
  refine ⟨⟨B, ⟨?_, ?_, ?_, ?_⟩⟩, ?_⟩
  · rw [hn, hp, hh, ht]
    exact hB.seg
  · intro i hi r hr
    rw [(hfields r ((hB.queued r).mpr ⟨i, hi, hr⟩)).1]
    exact hB.dyn i hi r hr
  · rw [ho]
    exact hB.queued
  · rw [hb]
    exact hB.bitmap
  · intro r hr
    rw [ho] at hr
    rw [(hfields r hr).1, (hfields r hr).2]
    exact hf r hr

theorem ne_of_queued {q : Runq} {r : Slot} (hp : q.onRunq p = false)
    (hr : q.onRunq r = true) : r ≠ p := by
  rintro rfl
  rw [hr] at hp
  exact Bool.noConfusion hp

theorem Ok.tickCpu {q : Runq} (h : Ok q) {r : Slot} (hr : q.onRunq r = false) :
    Ok (tickCpu q r) := by
  apply h.setFields (SchedO1.tickCpu q r) ⟨rfl, rfl, rfl, rfl, rfl, rfl⟩
  intro x hx
  have hne := ne_of_queued hr hx
  simp [SchedO1.tickCpu, runqDyn, hne]

theorem Ok.allocFields {q : Runq} (h : Ok q) (hp : q.onRunq p = false) : Ok (allocFields q p) := by
  apply h.setFields (SchedO1.allocFields q p) ⟨rfl, rfl, rfl, rfl, rfl, rfl⟩
  intro x hx
  have hne := ne_of_queued hp hx
  simp [SchedO1.allocFields, runqDyn, hne]

theorem Ok.clearWait {q : Runq} (h : Ok q) (hp : q.onRunq p = false) :
    Ok { q with waitTime := update q.waitTime p 0 } := by
  apply h.setFields { q with waitTime := update q.waitTime p 0 }
    ⟨rfl, rfl, rfl, rfl, rfl, rfl⟩
  intro x hx
  have hne := ne_of_queued hp hx
  simp [runqDyn, hne]

theorem Ok.schedTick {q : Runq} (h : Ok q) {r : Option Slot}
    (hr : ∀ x, r = some x → q.onRunq x = false) (hk : schedTick q r = some q') : Ok q' := by
  obtain ⟨⟨B, hB⟩, _⟩ := h
  obtain ⟨q1, B1, hrun, hinv, hfresh, hon⟩ := hB.tickQueue
  rw [SchedO1.schedTick, hrun, bind_eq_bind, bind_some] at hk
  have hok : Ok q1 := ⟨⟨B1, hinv⟩, hfresh⟩
  cases r with
  | none =>
    cases hk
    exact hok
  | some x =>
    cases hk
    apply hok.tickCpu
    rw [hon]
    exact hr x rfl

theorem Ok.setPriority {q : Runq} (h : Ok q) (p : Slot) (priority : Int) :
    Ok (setPriority q p priority) := by
  obtain ⟨⟨B, hB⟩, hf⟩ := h
  unfold SchedO1.setPriority
  generalize hq1 : ({ q with priority := update q.priority p (wrap32 priority) } : Runq) = q1
  have hinv : RqInv q1 B := by
    rw [← hq1]
    exact ⟨hB.seg, hB.dyn, hB.queued, hB.bitmap⟩
  have hother : ∀ r, r ≠ p → q1.onRunq r = true → q1.dynPriority r = runqDyn q1 r := by
    intro r hrp hr
    rw [← hq1] at hr ⊢
    simp only [runqDyn, update_of_ne hrp]
    exact hf r hr
  simp only
  split
  · rename_i hp
    refine ⟨⟨_, (hinv.move hp).1⟩, ?_⟩
    intro r hr
    rw [(hinv.move hp).2.onRunq] at hr
    rw [runqEnqueue_runqDyn, runqRemove_runqDyn]
    obtain rfl | hrp := eq_or_ne r p
    · simp [runqEnqueue]
    simp only [runqEnqueue, runqRemove_onRunq, update_self, Bool.false_eq_true, if_false,
      update_of_ne hrp, runqRemove_dynPriority]
    exact hother r hrp hr
  · rename_i hp
    have hok : Ok q1 := by
      refine ⟨⟨B, hinv⟩, ?_⟩
      intro r hr
      exact hother r (fun e => hp (e ▸ hr)) hr
    apply hok.setFields { q1 with dynPriority := update q1.dynPriority p (runqDyn q1 p) }
      ⟨rfl, rfl, rfl, rfl, rfl, rfl⟩
    intro r hr
    have hrp : r ≠ p := fun e => hp (e ▸ hr)
    exact ⟨update_of_ne hrp _ _, rfl⟩

theorem Ok.step {q : Runq} (h : Ok q) (o : Op) (hk : SchedO1.step q o = some q') : Ok q' := by
  cases o with
  | alloc p =>
    simp only [SchedO1.step] at hk
    split at hk
    · simp at hk
    · rename_i hp
      cases hk
      exact h.allocFields (Bool.eq_false_iff.mpr hp)
  | enqueue p =>
    cases hk
    exact h.enqueue p
  | remove p =>
    cases hk
    exact h.remove p
  | pick =>
    obtain ⟨⟨B, hB⟩, _⟩ := id h
    rcases hB.pick with ⟨hpick, _⟩ | ⟨i, p, rest, _, _, _, _, hpick⟩
    · simp only [SchedO1.step, hpick] at hk
      cases hk
      exact h
    simp only [SchedO1.step, hpick] at hk
    cases hk
    exact h.remove p
  | dispatch p =>
    simp only [SchedO1.step] at hk
    split at hk
    · simp at hk
    · rename_i hp
      cases hk
      exact h.clearWait (Bool.eq_false_iff.mpr hp)
  | tick r =>
    cases r with
    | none =>
      apply h.schedTick (r := none) ?_ hk
      intro x hx
      exact absurd hx (by simp)
    | some r =>
      simp only [SchedO1.step] at hk
      split at hk
      · simp at hk
      · rename_i hp
        apply h.schedTick ?_ hk
        intro x hx
        cases hx
        exact Bool.eq_false_iff.mpr hp
  | setPriority p priority =>
    cases hk
    exact h.setPriority p priority

theorem reachable_ok {q : Runq} (h : Reachable step boot q) : Ok q :=
  reachable_invariant (I := Ok) ⟨⟨_, boot_inv⟩, fun p hp => by simp [boot, runqInit] at hp⟩
    (fun _ o _ hI hk => hI.step o hk) h

/-! ## Which process is picked -/

/-- The documented dynamic priority, in unbounded arithmetic. -/
def dynamicPriority (q : Runq) (p : Slot) : Nat :=
  clampDyn (q.priority p + (q.waitTime p).tdiv 5 - (q.cpuTime p).tdiv 5)

/-- The additions of `runq_dyn` stay inside an `int`. -/
def NoOverflow (q : Runq) (p : Slot) : Prop :=
  (-2 ^ 31 ≤ q.priority p + (q.waitTime p).tdiv 5 ∧
    q.priority p + (q.waitTime p).tdiv 5 < 2 ^ 31) ∧
  -2 ^ 31 ≤ q.priority p + (q.waitTime p).tdiv 5 - (q.cpuTime p).tdiv 5 ∧
    q.priority p + (q.waitTime p).tdiv 5 - (q.cpuTime p).tdiv 5 < 2 ^ 31

instance (q : Runq) (p : Slot) : Decidable (NoOverflow q p) :=
  inferInstanceAs (Decidable (_ ∧ _ ∧ _))

def PicksMaximal (q : Runq) : Prop :=
  ∃ q' p, runqPick q = some (q', some p) ∧ q.onRunq p = true ∧
    ∀ r, q.onRunq r = true → dynamicPriority q r ≤ dynamicPriority q p

theorem runqDyn_eq {q : Runq} (h : NoOverflow q p) :
    runqDyn q p = dynamicPriority q p := by
  rw [runqDyn, dynamicPriority, wrap32_eq h.1, wrap32_eq h.2]

theorem pick_least {q : Runq} (h : Ok q) {s : Slot} (hs : q.onRunq s = true) :
    ∃ q' p, runqPick q = some (q', some p) ∧ q.onRunq p = true ∧
      ∀ r, q.onRunq r = true → runqDyn q p ≤ runqDyn q r := by
  obtain ⟨⟨B, hB⟩, hf⟩ := h
  rcases hB.pick with ⟨_, hnone⟩ | ⟨i, p, rest, hi, hlow, hBi, hp, hpick⟩
  · rw [hnone s] at hs
    exact Bool.noConfusion hs
  refine ⟨_, p, hpick, hp, ?_⟩
  intro r hr
  rw [← hf p hp, ← hf r hr, hB.dyn i hi p (by rw [hBi]; simp)]
  by_contra hlt
  have hmem := (hB.mem_bucket hr).2
  rw [hlow _ (by omega)] at hmem
  exact not_mem_nil hmem

/-- `runq_pick` returns a process of maximal dynamic priority when all queued
processes share one, and (where `runq_dyn` does not overflow) only then. -/
theorem runq_pick_maximal_iff (q : Runq) (hq : Reachable step boot q)
    (hne : ∃ p, q.onRunq p = true) :
    ((∀ p r, q.onRunq p = true → q.onRunq r = true → dynamicPriority q p = dynamicPriority q r) →
      PicksMaximal q) ∧ ((∀ p, q.onRunq p = true → NoOverflow q p) →
      (PicksMaximal q ↔ ∀ p r, q.onRunq p = true → q.onRunq r = true →
        dynamicPriority q p = dynamicPriority q r)) := by
  obtain ⟨s, hs⟩ := hne
  obtain ⟨q', p, hpick, hp, hleast⟩ := pick_least (reachable_ok hq) hs
  have hequal : (∀ p r, q.onRunq p = true → q.onRunq r = true →
      dynamicPriority q p = dynamicPriority q r) → PicksMaximal q :=
    fun hall => ⟨q', p, hpick, hp, fun r hr => le_of_eq (hall r p hr hp)⟩
  refine ⟨hequal, fun hfit => ⟨?_, hequal⟩⟩
  rintro ⟨q₁, p₁, hpick₁, _, hmax⟩
  have hsame : p₁ = p := by
    rw [hpick] at hpick₁
    simpa using (congrArg Prod.snd (some.inj hpick₁)).symm
  subst hsame
  have hval : ∀ r, q.onRunq r = true → dynamicPriority q r = dynamicPriority q p₁ := by
    intro r hr
    apply le_antisymm (hmax r hr)
    rw [← runqDyn_eq (hfit p₁ hp), ← runqDyn_eq (hfit r hr)]
    exact hleast r hr
  intro a b ha hb
  rw [hval a ha, hval b hb]

theorem runq_pick_maximal_two_fresh : ∃ q, Reachable step boot q ∧ PicksMaximal q := by
  obtain ⟨q, hq, h0, hall⟩ := run_test step boot
    [.alloc 0, .enqueue 0, .alloc 1, .enqueue 1]
    (fun q => q.onRunq 0 = true ∧
      ∀ p r, q.onRunq p = true → q.onRunq r = true → dynamicPriority q p = dynamicPriority q r)
    (by decide +kernel)
  exact ⟨q, ⟨_, hq⟩, (runq_pick_maximal_iff q ⟨_, hq⟩ ⟨0, h0⟩).1 hall⟩

/-- Of two processes with the default priority the one that has aged is not picked. -/
theorem runq_pick_leaves_aged_process :
    ∃ q, Reachable step boot q ∧ (∀ p, q.onRunq p = true → NoOverflow q p) ∧
      (∃ p, q.onRunq p = true) ∧ ¬ PicksMaximal q := by
  obtain ⟨q, hq, hfit, h0, hpick, hlt⟩ := run_test step boot
    [.alloc 0, .enqueue 0, .tick none, .tick none, .tick none, .tick none, .tick none, .alloc 1,
      .enqueue 1]
    (fun q => (∀ p, q.onRunq p = true → NoOverflow q p) ∧ q.onRunq 0 = true ∧
      (runqPick q).map Prod.snd = some (some 1) ∧ dynamicPriority q 1 < dynamicPriority q 0)
    (by decide +kernel)
  refine ⟨q, ⟨_, hq⟩, hfit, ⟨0, h0⟩, ?_⟩
  rintro ⟨q', p, hp, _, hmax⟩
  rw [hp] at hpick
  cases some.inj (some.inj hpick)
  exact not_lt.mpr (hmax 0 h0) hlt

/-! ## The arithmetic of `runq_dyn` -/

def IsInt (x : Int) : Prop := -2 ^ 31 ≤ x ∧ x < 2 ^ 31

theorem IsInt.fifth {x : Int} (h : IsInt x) : -2 ^ 29 < x.tdiv 5 ∧ x.tdiv 5 < 2 ^ 29 := by
  rw [Int.tdiv_eq_ediv]
  simp only [IsInt] at h
  split
  · omega
  · rw [show Int.sign 5 = 1 from rfl]
    omega

theorem wrap32_sum {a b c : Int} (ha : IsInt a) (hb : -2 ^ 29 < b ∧ b < 2 ^ 29)
    (hc : -2 ^ 29 < c ∧ c < 2 ^ 29) : wrap32 (wrap32 (a + b) - c) =
      if a + b - c < -2 ^ 31 then a + b - c + 2 ^ 32
      else if a + b - c < 2 ^ 31 then a + b - c else a + b - c - 2 ^ 32 := by
  simp only [wrap32, IsInt, Int.bmod] at *
  split_ifs <;> omega

theorem clampDyn_of_neg {d : Int} (h : d < 0) : clampDyn d = 0 := if_pos h

theorem clampDyn_of_high {d : Int} (h : 20 < d) : clampDyn d = 20 := by
  rw [clampDyn, if_neg (by omega), if_pos (by simpa [RUNQ_LEN] using h)]
  rfl

/-- `runq_dyn` is the documented priority exactly where the sum is an `int`. -/
theorem runq_dyn_exact_iff (q : Runq) (p : Slot) (hp : IsInt (q.priority p))
    (hw : IsInt (q.waitTime p)) (hc : IsInt (q.cpuTime p)) :
    runqDyn q p = dynamicPriority q p ↔
      IsInt (q.priority p + (q.waitTime p).tdiv 5 - (q.cpuTime p).tdiv 5) := by
  rw [runqDyn, wrap32_sum hp hw.fifth hc.fifth, dynamicPriority]
  have hw' := hw.fifth
  have hc' := hc.fifth
  simp only [IsInt] at *
  split
  · rw [clampDyn_of_high (by omega), clampDyn_of_neg (by omega)]
    omega
  split
  · exact iff_of_true rfl (by omega)
  · rw [clampDyn_of_neg (by omega), clampDyn_of_high (by omega)]
    omega

theorem runq_dyn_exact_default :
    runqDyn (allocFields boot 0) 0 = dynamicPriority (allocFields boot 0) 0 :=
  (runq_dyn_exact_iff (allocFields boot 0) 0 ⟨by decide, by decide⟩ ⟨by decide, by decide⟩
    ⟨by decide, by decide⟩).mpr ⟨by decide, by decide⟩

theorem runq_dyn_wraps_highest : ∃ q, Reachable step boot q ∧ runqDyn q 0 = 0 ∧
    dynamicPriority q 0 = 20 := by
  obtain ⟨q, hq, h⟩ := run_test step boot
    [.alloc 0, .setPriority 0 (2 ^ 31 - 1), .enqueue 0, .tick none, .tick none, .tick none,
      .tick none, .tick none]
    (fun q => runqDyn q 0 = 0 ∧ dynamicPriority q 0 = 20) (by decide +kernel)
  exact ⟨q, ⟨_, hq⟩, h⟩

end BirdOS.SchedO1
