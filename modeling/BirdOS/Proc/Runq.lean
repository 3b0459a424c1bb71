import BirdOS.Proc.SchedO1

/-! # What the run queue represents (`sched_o1.c`)

The tick of the clock, with the order that it leaves in each bucket, and the representation
over every sequence of the queue's operations.  For the order in which processes enter a
bucket the queue is run together with a count of the entries: `runq_enqueue` notes the time at
which it links a process. -/

namespace BirdOS.SchedO1

open Machine LinkedList Function List Option

/-! ## The ageing tick -/

section Tick
variable {q q' : Runq} {B : Nat → List Slot} {r : Option Slot}

structure Ticked (q q' : Runq) (B : Nat → List Slot) : Prop where
  queued : q'.onRunq = q.onRunq
  aged : ∀ p, q'.waitTime p = if q.onRunq p then q.waitTime p + 1 else q.waitTime p
  order : ∃ B', RqInv q' B' ∧ ∀ i, i < RUNQ_LEN → (∀ p ∈ B' i, runqDyn q' p = i) ∧
    ∃ new, B' i = (B i).filter (runqDyn q' · = i) ++ new ∧ ∀ p ∈ new, p ∉ B i

/-- The CPU time that the tick adds leaves the process in its bucket. -/
def ChargeStays (q : Runq) (r : Option Slot) : Prop :=
  ∀ x, r = some x → q.onRunq x = true →
    clampDyn (wrap32 (wrap32 (q.priority x + (q.waitTime x + 1).tdiv 5) -
      (wrap32 (q.cpuTime x + 1)).tdiv 5)) =
    clampDyn (wrap32 (wrap32 (q.priority x + (q.waitTime x + 1).tdiv 5) - (q.cpuTime x).tdiv 5))

theorem wrap32_succ_iff {x : Int} (h : -2 ^ 31 ≤ x ∧ x < 2 ^ 31) :
    wrap32 (x + 1) = x + 1 ↔ x ≠ 2 ^ 31 - 1 := by
  constructor
  · rintro hw rfl
    exact absurd hw (by decide)
  · exact fun hx => wrap32_eq (by omega)

structure SameLists (q q' : Runq) : Prop where
  runNext : q'.runNext = q.runNext
  runPrev : q'.runPrev = q.runPrev
  head : q'.head = q.head
  tail : q'.tail = q.tail
  dynPriority : q'.dynPriority = q.dynPriority
  onRunq : q'.onRunq = q.onRunq
  bitmap : q'.bitmap = q.bitmap
  waitTime : q'.waitTime = q.waitTime

theorem SameLists.inv (hs : SameLists q q') (h : RqInv q B) : RqInv q' B where
  seg := by
    rw [hs.runNext, hs.runPrev, hs.head, hs.tail]
    exact h.seg
  dyn := hs.dynPriority ▸ h.dyn
  queued := hs.onRunq ▸ h.queued
  bitmap := hs.bitmap ▸ h.bitmap

theorem schedTick_of_tickQueue (r : Option Slot) {q1 : Runq} (hrun : tickQueue q = some q1) :
    ∃ q', schedTick q r = some q' ∧ SameLists q1 q' ∧
      ∀ p, (r ≠ some p → runqDyn q' p = runqDyn q1 p) ∧
        (r = some p → runqDyn q' p = runqDyn (tickCpu q1 p) p) := by
  rw [schedTick, hrun]
  cases r with
  | none => exact ⟨q1, rfl, ⟨rfl, rfl, rfl, rfl, rfl, rfl, rfl, rfl⟩, fun p =>
      ⟨fun _ => rfl, fun h => by cases h⟩⟩
  | some x =>
    refine ⟨tickCpu q1 x, rfl, ⟨rfl, rfl, rfl, rfl, rfl, rfl, rfl, rfl⟩,
      fun p => ⟨fun hp => ?_, ?_⟩⟩
    · have hpx : p ≠ x := fun h => hp (h ▸ rfl)
      simp [runqDyn, tickCpu, hpx]
    · rintro ⟨⟩
      rfl

theorem charge_iff {q1 : Runq} (hpri : q1.priority = q.priority) (hcpu : q1.cpuTime = q.cpuTime)
    (hwait : ∀ p, q1.waitTime p = if q.onRunq p then wrap32 (q.waitTime p + 1) else q.waitTime p)
    (hw : ∀ p, q.onRunq p = true → wrap32 (q.waitTime p + 1) = q.waitTime p + 1) :
    (∀ x, r = some x → q.onRunq x = true → runqDyn (tickCpu q1 x) x = runqDyn q1 x) ↔
      ChargeStays q r := by
  refine forall_congr' fun x => imp_congr_right fun _ => imp_congr_right fun hx => ?_
  simp [runqDyn, tickCpu, hpri, hcpu, hwait, hx, hw x hx]

/-- The tick terminates on every well-formed queue, and it does what it is for when no queued
process has waited `INT_MAX` ticks and the running process is not moved by its own CPU time. -/
theorem sched_tick_ages_iff (q : Runq) (B : Nat → List Slot) (r : Option Slot) (h : RqInv q B)
    (hint : ∀ p, -2 ^ 31 ≤ q.waitTime p ∧ q.waitTime p < 2 ^ 31) : ∃ q', schedTick q r = some q' ∧
      (Ticked q q' B ↔ (∀ p, q.onRunq p = true → q.waitTime p ≠ 2 ^ 31 - 1) ∧ ChargeStays q r) := by
  obtain ⟨q₁, hrun, hon, hpri, hcpu, hwait, hinv⟩ := h.ticked
  obtain ⟨q', htick, hlinks, hdyn⟩ := schedTick_of_tickQueue r hrun
  refine ⟨q', htick, fun ht => ?_, fun ⟨hmax, hcharge⟩ => ?_⟩
  · have hw : ∀ p, q.onRunq p = true → wrap32 (q.waitTime p + 1) = q.waitTime p + 1 := by
      intro p hp
      have haged := ht.aged p
      rwa [hlinks.waitTime, hwait p, if_pos hp, if_pos hp] at haged
    refine ⟨fun p hp => (wrap32_succ_iff (hint p)).mp (hw p hp), ?_⟩
    refine (charge_iff hpri hcpu hwait hw).mp fun x hrx hx => ?_
    obtain ⟨B', hB', horder⟩ := ht.order
    obtain ⟨hi, hmem⟩ := hB'.mem_bucket (p := x) (by rw [ht.queued]; exact hx)
    obtain ⟨-, hmem₁⟩ := hinv.mem_bucket (p := x) (by rw [hon]; exact hx)
    rw [← (hdyn x).2 hrx, (horder _ hi).1 x hmem, hlinks.dynPriority, mem_agedBuckets hmem₁]
  · have hw : ∀ p, q.onRunq p = true → wrap32 (q.waitTime p + 1) = q.waitTime p + 1 :=
      fun p hp => (wrap32_succ_iff (hint p)).mpr (hmax p hp)
    have hsame : ∀ p, q.onRunq p = true → runqDyn q' p = runqDyn q₁ p := by
      intro p hp
      by_cases hrp : r = some p
      · rw [(hdyn p).2 hrp]
        exact (charge_iff hpri hcpu hwait hw).mpr hcharge p hrp hp
      · exact (hdyn p).1 hrp
    refine ⟨hlinks.onRunq.trans hon, fun p => ?_, agedBuckets q₁ B, hlinks.inv hinv, fun i hi => ?_⟩
    · rw [hlinks.waitTime, hwait p]
      split
      · next hp => exact hw p hp
      · rfl
    · have hqueued : ∀ p ∈ agedBuckets q₁ B i, q.onRunq p = true := fun p hp => by
        rw [← hon]
        exact (hinv.queued p).mpr ⟨i, hi, hp⟩
      refine ⟨fun p hp => (hsame p (hqueued p hp)).trans (mem_agedBuckets hp),
        arrivals (runqDyn q₁) B (List.range RUNQ_LEN) i, ?_, fun p hp hpi => ?_⟩
      · rw [agedBuckets]
        congr 1
        refine List.filter_congr fun p hp => ?_
        rw [hsame p ((h.queued p).mpr ⟨i, hi, hp⟩)]
      · obtain ⟨-, k, hk, hki, hpk⟩ := mem_arrivals hp
        exact hki (h.bucket_unique (List.mem_range.mp hk) hi hpk hpi)

end Tick

def waiting : Runq :=
  runqEnqueue (runqEnqueue { boot with waitTime := fun p => if p = 0 then 4 else 0 } 0) 1

/-- The tick moves process 0 and charges process 1, which stays. -/
theorem sched_tick_ages_one_queued : ∃ B q', B 0 = [0, 1] ∧ schedTick waiting (some 1) = some q' ∧
    (q'.head 0, q'.head 1) = (some 1, some 0) ∧ Ticked waiting q' B := by
  have hinv := ((boot_inv.waitTime fun p => if p = 0 then 4 else 0).enqueue (p := 0) rfl).enqueue
    (p := 1) (by decide)
  obtain ⟨q', hq', hiff⟩ := sched_tick_ages_iff waiting _ (some 1) hinv (by decide +kernel)
  have hheads : (schedTick waiting (some 1)).map (fun q => (q.head 0, q.head 1)) =
      some (some 1, some 0) := by decide +kernel
  rw [hq'] at hheads
  refine ⟨_, q', by decide +kernel, hq', Option.some.inj hheads,
    hiff.mpr ⟨by decide +kernel, ?_⟩⟩
  rintro _ ⟨⟩ _
  decide +kernel

theorem sched_tick_wraps_wait : ∃ q B q', RqInv q B ∧ Fresh q ∧
    (∀ p, -2 ^ 31 ≤ q.waitTime p ∧ q.waitTime p < 2 ^ 31) ∧ schedTick q none = some q' ∧
    ¬ Ticked q q' B := by
  have hboot : Ok { boot with waitTime := fun _ => 2 ^ 31 - 1 } :=
    ⟨⟨_, boot_inv.waitTime _⟩, fun p hp => by simp [boot, runqInit] at hp⟩
  obtain ⟨⟨B, h⟩, hfresh⟩ := hboot.enqueue 0
  obtain ⟨q', hrun, -, -, -, hwait, -⟩ := h.ticked
  refine ⟨_, B, q', h, hfresh, fun p => by simp, by rw [schedTick, hrun]; rfl, fun ht => ?_⟩
  have haged := ht.aged 0
  rw [hwait 0] at haged
  exact absurd haged (by decide)

/-! ## The representation -/

/-- Every process has the number of entries before its last one. -/
structure Entries where
  q : Runq
  entered : Slot → Nat
  clock : Nat

namespace Entries

def enqueue (t : Entries) (p : Slot) : Entries :=
  if t.q.onRunq p then t else ⟨runqEnqueue t.q p, update t.entered p t.clock, t.clock + 1⟩

def remove (t : Entries) (p : Slot) : Entries := { t with q := runqRemove t.q p }

def rebucket (i : Nat) : Nat → Entries → Option Slot → Option Entries
  | _, t, none => some t
  | 0, _, some _ => none
  | fuel + 1, t, some p =>
    let nx := t.q.runNext p
    rebucket i fuel (if runqDyn t.q p ≠ i then (t.remove p).enqueue p else t) nx

def tick (t : Entries) (r : Option Slot) : Option Entries := do
  let q ← (List.range RUNQ_LEN).foldlM (fun q i => ageBucket NPROC q (q.head i)) t.q
  let t ← (List.range RUNQ_LEN).foldlM (fun t i => t.rebucket i NPROC (t.q.head i))
    { t with q := q }
  match r with
  | some r => some { t with q := tickCpu t.q r }
  | none => some t

def setPriority (t : Entries) (p : Slot) (priority : Int) : Entries :=
  let q := { t.q with priority := update t.q.priority p (wrap32 priority) }
  if q.onRunq p then ({ t with q := q }.remove p).enqueue p
  else { t with q := { q with dynPriority := update q.dynPriority p (runqDyn q p) } }

/-! The entries do not disturb the queue. -/

@[simp] theorem enqueue_q (t : Entries) (p : Slot) : (t.enqueue p).q = runqEnqueue t.q p := by
  unfold enqueue
  split
  · next hp => simp [runqEnqueue, hp]
  · rfl

theorem rebucket_q (i : Nat) : ∀ (fuel : Nat) (t : Entries) (o : Option Slot),
    (t.rebucket i fuel o).map q = SchedO1.rebucket i fuel t.q o := by
  intro fuel
  induction fuel with
  | zero => rintro t (_ | p) <;> rfl
  | succ fuel ih =>
    rintro t (_ | p)
    · rfl
    · rw [rebucket, SchedO1.rebucket, ih]
      split <;> simp [remove]

theorem rebuckets_q : ∀ (is : List Nat) (t : Entries),
    (is.foldlM (fun (t : Entries) i => t.rebucket i NPROC (t.q.head i)) t).map q =
      is.foldlM (fun q i => SchedO1.rebucket i NPROC q (q.head i)) t.q := by
  intro is
  induction is with
  | nil => exact fun _ => rfl
  | cons i is ih =>
    intro t
    rw [foldlM_cons, foldlM_cons, ← rebucket_q]
    cases t.rebucket i NPROC (t.q.head i) with
    | none => rfl
    | some t' => exact ih t'

theorem tick_q (t : Entries) (r : Option Slot) : (t.tick r).map q = schedTick t.q r := by
  simp only [tick, schedTick, tickQueue]
  cases (range RUNQ_LEN).foldlM (fun q i => ageBucket NPROC q (q.head i)) t.q with
  | none => rfl
  | some q =>
    simp only [bind_eq_bind, bind_some]
    rw [← rebuckets_q _ { t with q := q }]
    cases (range RUNQ_LEN).foldlM (fun (t : Entries) i => t.rebucket i NPROC (t.q.head i))
      { t with q := q } with
    | none => rfl
    | some t' => cases r <;> rfl

theorem setPriority_q (t : Entries) (p : Slot) (priority : Int) :
    (t.setPriority p priority).q = SchedO1.setPriority t.q p priority := by
  simp only [setPriority, SchedO1.setPriority]
  split <;> simp [remove]

end Entries

inductive QueueOp where
  | init
  | enqueue (p : Slot)
  | remove (p : Slot)
  | pick
  | tick (r : Option Slot)
  | setPriority (p : Slot) (priority : Int)

/-- One call; the process that a tick counts as running is not queued. -/
def Entries.step (t : Entries) : QueueOp → Option Entries
  | .init => some { t with q := runqInit t.q }
  | .enqueue p => some (t.enqueue p)
  | .remove p => some (t.remove p)
  | .pick => (runqPick t.q).map fun r => { t with q := r.1 }
  | .tick none => t.tick none
  | .tick (some r) => if t.q.onRunq r then none else t.tick (some r)
  | .setPriority p priority => some (t.setPriority p priority)

structure InOrder (t : Entries) (B : Nat → List Slot) : Prop where
  rq : RqInv t.q B
  past : ∀ p, t.q.onRunq p = true → t.entered p < t.clock
  sorted : ∀ i, i < RUNQ_LEN → (B i).Pairwise fun p r => t.entered p < t.entered r

def Ordered (t : Entries) : Prop := ∃ B, InOrder t B

section Order
variable {t t' : Entries} {B : Nat → List Slot} {q : Runq}

theorem InOrder.withQueue (h : InOrder t B) (hq : RqInv q B) (hon : q.onRunq = t.q.onRunq) :
    InOrder { t with q := q } B :=
  ⟨hq, fun p hp => h.past p (hon ▸ hp), h.sorted⟩

theorem Ordered.remove (h : Ordered t) (p : Slot) : Ordered (t.remove p) := by
  obtain ⟨B, h⟩ := h
  cases hp : t.q.onRunq p with
  | false =>
    have hsame : runqRemove t.q p = t.q := by simp [runqRemove, hp]
    exact ⟨B, h.withQueue (hsame.symm ▸ h.rq) (by rw [hsame])⟩
  | true =>
    refine ⟨_, h.rq.remove hp, fun r hr => h.past r ?_, fun i hi => ?_⟩
    · simp only [Entries.remove, runqRemove_onRunq] at hr
      by_cases hrp : r = p
      · exact hrp ▸ hp
      · rwa [update_of_ne hrp] at hr
    · by_cases hip : i = t.q.dynPriority p
      · subst hip
        rw [update_self]
        exact (h.sorted _ hi).sublist erase_sublist
      · rw [update_of_ne hip]
        exact h.sorted i hi

theorem Ordered.enqueue (h : Ordered t) (p : Slot) : Ordered (t.enqueue p) := by
  unfold Entries.enqueue
  split
  · exact h
  · next hp =>
    obtain ⟨B, h⟩ := h
    have hp := Bool.eq_false_iff.mpr hp
    have hother : ∀ i, i < RUNQ_LEN → (B i).Pairwise fun a b =>
        update t.entered p t.clock a < update t.entered p t.clock b := by
      intro i hi
      refine (h.sorted i hi).imp_of_mem fun {a b} ha hb hab => ?_
      have hne : ∀ x ∈ B i, x ≠ p := fun x hx hxp => h.rq.not_mem hp hi (hxp ▸ hx)
      rwa [update_of_ne (hne a ha), update_of_ne (hne b hb)]
    refine ⟨_, h.rq.enqueue hp, fun r hr => ?_, fun i hi => ?_⟩
    · obtain rfl | hrp := eq_or_ne r p
      · simp
      rw [runqEnqueue_onRunq, update_of_ne hrp] at hr
      simp only [update_of_ne hrp]
      exact Nat.lt_succ_of_lt (h.past r hr)
    · by_cases hip : i = runqDyn t.q p
      · subst hip
        rw [update_self, pairwise_append]
        refine ⟨hother _ hi, pairwise_singleton _ _, fun a ha b hb => ?_⟩
        -- the process that enters is later than everyone in the bucket
        have hap : a ≠ p := fun hap => h.rq.not_mem hp hi (hap ▸ ha)
        rw [mem_singleton.mp hb]
        simp only [update_self, update_of_ne hap]
        exact h.past a ((h.rq.queued a).mpr ⟨_, hi, ha⟩)
      · rw [update_of_ne hip]
        exact hother i hi

theorem Ordered.rebucket (i : Nat) : ∀ (fuel : Nat) (t : Entries) (o : Option Slot), Ordered t →
    t.rebucket i fuel o = some t' → Ordered t' := by
  intro fuel
  induction fuel with
  | zero =>
    rintro t (_ | p) h hr
    · exact Option.some.inj hr ▸ h
    · cases hr
  | succ fuel ih =>
    rintro t (_ | p) h hr
    · exact Option.some.inj hr ▸ h
    · refine ih _ _ ?_ hr
      split
      · exact (h.remove p).enqueue p
      · exact h

theorem Ordered.rebuckets : ∀ (is : List Nat) (t : Entries), Ordered t →
    is.foldlM (fun t i => t.rebucket i NPROC (t.q.head i)) t = some t' → Ordered t' := by
  intro is
  induction is with
  | nil => exact fun t h hr => Option.some.inj hr ▸ h
  | cons i is ih =>
    intro t h hr
    rw [foldlM_cons] at hr
    obtain ⟨t1, h1, hr⟩ := bind_eq_some_iff.mp hr
    exact ih t1 (h.rebucket i _ t _ h1) hr

theorem Ordered.tick (h : Ordered t) {r : Option Slot} (hr : t.tick r = some t') : Ordered t' := by
  obtain ⟨B, h⟩ := h
  unfold Entries.tick at hr
  rw [ageBuckets_eq _ t.q h.rq nodup_range fun i hi => mem_range.mp hi] at hr
  simp only [bind_eq_bind, bind_some] at hr
  obtain ⟨t1, h1, hr⟩ := bind_eq_some_iff.mp hr
  have hord : Ordered t1 := by
    refine Ordered.rebuckets _ _ ⟨B, ?_⟩ h1
    exact h.withQueue (h.rq.waitTime _) rfl
  cases r with
  | none => exact Option.some.inj hr ▸ hord
  | some x =>
    cases hr
    obtain ⟨B1, hord⟩ := hord
    exact ⟨B1, hord.withQueue ⟨hord.rq.seg, hord.rq.dyn, hord.rq.queued, hord.rq.bitmap⟩ rfl⟩

theorem Ordered.setPriority (h : Ordered t) (p : Slot) (priority : Int) :
    Ordered (t.setPriority p priority) := by
  obtain ⟨B, h⟩ := h
  have hpri := h.withQueue (q := { t.q with priority := update t.q.priority p (wrap32 priority) })
    ⟨h.rq.seg, h.rq.dyn, h.rq.queued, h.rq.bitmap⟩ rfl
  simp only [Entries.setPriority]
  split
  · exact (Ordered.remove ⟨B, hpri⟩ p).enqueue p
  · next hp => exact ⟨B, hpri.withQueue (hpri.rq.setDyn (Bool.eq_false_iff.mpr hp) _) rfl⟩

end Order

def Represented (t : Entries) : Prop :=
  ∃ B : Nat → List Slot,
    (∀ i, i < RUNQ_LEN → (B i).Nodup ∧
      Seg t.q.runNext t.q.runPrev none (t.q.head i) (B i) none (t.q.tail i)) ∧
    (∀ p, (t.q.onRunq p = true → ∃! i, i < RUNQ_LEN ∧ p ∈ B i) ∧
      (t.q.onRunq p = false → ∀ i, i < RUNQ_LEN → p ∉ B i)) ∧
    (∀ i, i < RUNQ_LEN → ∀ p ∈ B i, t.q.dynPriority p = i ∧ runqDyn t.q p = i) ∧
    (∀ i, t.q.bitmap.getLsbD i = true ↔ i < RUNQ_LEN ∧ B i ≠ []) ∧
    (∀ r, (schedTick t.q r).isSome) ∧
    ∃ q' o, runqPick t.q = some (q', o) ∧ ∀ p, o = some p →
      ∃ i, i < RUNQ_LEN ∧ p ∈ B i ∧ ∀ r ∈ B i, t.entered p ≤ t.entered r

theorem represented_of {t : Entries} (hord : Ordered t) (hf : Fresh t.q) : Represented t := by
  obtain ⟨B, h⟩ := hord
  refine ⟨B, fun i hi => ⟨h.rq.nodup hi, h.rq.seg i hi⟩, fun p => ⟨fun hp => ?_, fun hp i hi =>
    h.rq.not_mem hp hi⟩, fun i hi p hp => ?_, h.rq.bitmap, fun r => ?_, ?_⟩
  · obtain ⟨i, hi, hpi⟩ := (h.rq.queued p).mp hp
    exact ⟨i, ⟨hi, hpi⟩, fun j hj => h.rq.bucket_unique hj.1 hi hj.2 hpi⟩
  · have hdyn := h.rq.dyn i hi p hp
    exact ⟨hdyn, (hf p ((h.rq.queued p).mpr ⟨i, hi, hp⟩)).symm.trans hdyn⟩
  · obtain ⟨q', B', hrun, -⟩ := h.rq.tickQueue
    rw [schedTick, hrun]
    cases r <;> rfl
  · rcases h.rq.pick with ⟨hpick, -⟩ | ⟨i, p, rest, hi, -, hBi, -, hpick⟩
    · exact ⟨_, _, hpick, fun _ h => by cases h⟩
    refine ⟨_, _, hpick, ?_⟩
    rintro _ ⟨⟩
    refine ⟨i, hi, hBi ▸ mem_cons_self, fun r hr => ?_⟩
    have hsorted := h.sorted i hi
    rw [hBi] at hr hsorted
    rcases mem_cons.mp hr with rfl | hr
    · exact le_rfl
    · exact le_of_lt (rel_of_pairwise_cons hsorted hr)

/-- `runq_init` is called while no process is queued, as `procinit` calls it. -/
def InitIdle (t : Entries) (o : QueueOp) : Prop := o = .init → ∀ p, t.q.onRunq p = false

theorem init_ok {q : Runq} (h : ∀ p, q.onRunq p = false) :
    RqInv (runqInit q) (fun _ => []) ∧ Fresh (runqInit q) := by
  refine ⟨⟨fun _ _ => ⟨rfl, rfl⟩, fun _ _ _ hp => absurd hp not_mem_nil, fun p => ?_, ?_⟩,
    fun p hp => ?_⟩
  · simp [runqInit, h p]
  · simp [runqInit]
  · rw [show (runqInit q).onRunq p = false from h p] at hp
    cases hp

theorem Entries.step_ordered {t t' : Entries} {o : QueueOp} (h : Ordered t ∧ Ok t.q)
    (hinit : InitIdle t o) (hs : t.step o = some t') : Ordered t' ∧ Ok t'.q := by
  cases o with
  | init =>
    cases hs
    obtain ⟨hrq, hfresh⟩ := init_ok (hinit rfl)
    refine ⟨⟨_, hrq, fun p hp => ?_, fun _ _ => List.Pairwise.nil⟩, ⟨_, hrq⟩, hfresh⟩
    obtain ⟨i, -, hp⟩ := (hrq.queued p).mp hp
    cases hp
  | enqueue p =>
    cases hs
    exact ⟨h.1.enqueue p, by rw [enqueue_q]; exact h.2.enqueue p⟩
  | remove p =>
    cases hs
    exact ⟨h.1.remove p, h.2.remove p⟩
  | pick =>
    obtain ⟨⟨B, hB⟩, hok⟩ := id h
    rcases hB.rq.pick with ⟨hpick, -⟩ | ⟨i, p, rest, -, -, -, -, hpick⟩
    · simp only [Entries.step, hpick] at hs
      cases hs
      exact h
    simp only [Entries.step, hpick] at hs
    cases hs
    exact ⟨h.1.remove p, h.2.remove p⟩
  | tick r =>
    have htick : t.tick r = some t' ∧ ∀ x, r = some x → t.q.onRunq x = false := by
      cases r with
      | none => exact ⟨hs, nofun⟩
      | some x =>
        obtain ⟨hx, hs⟩ := ite_none_left_eq_some.mp hs
        refine ⟨hs, ?_⟩
        rintro _ ⟨⟩
        exact Bool.eq_false_iff.mpr hx
    refine ⟨h.1.tick htick.1, h.2.schedTick htick.2 ?_⟩
    rw [← tick_q, htick.1]
    rfl
  | setPriority p priority =>
    cases hs
    exact ⟨h.1.setPriority p priority, by rw [setPriority_q]; exact h.2.setPriority p priority⟩

def Entries.start (q : Runq) : Entries := ⟨runqInit q, fun _ => 0, 0⟩

/-- After every sequence of operations from `runq_init` on, with no second `runq_init` while a
process is queued. -/
theorem runq_represented (q : Runq) (hidle : ∀ p, q.onRunq p = false) (ops : List QueueOp)
    (t : Entries) (hinit : Along Entries.step InitIdle (Entries.start q) ops)
    (hrun : run Entries.step (Entries.start q) ops = some t) : Represented t := by
  obtain ⟨hrq, hfresh⟩ := init_ok hidle
  have hstart : Ordered (Entries.start q) ∧ Ok (Entries.start q).q := by
    refine ⟨⟨_, hrq, fun p hp => ?_, fun _ _ => List.Pairwise.nil⟩, ⟨_, hrq⟩, hfresh⟩
    obtain ⟨i, -, hp⟩ := (hrq.queued p).mp hp
    cases hp
  obtain ⟨hord, hok⟩ := along_invariant (I := fun t => Ordered t ∧ Ok t.q)
    (fun _ _ _ h hgood hs => Entries.step_ordered h hgood hs) ops _ t hstart hinit hrun
  exact represented_of hord hok.2

theorem runq_represented_two_queued : ∃ t, run Entries.step (Entries.start boot)
    [.enqueue 0, .enqueue 1, .setPriority 0 5] = some t ∧ t.q.onRunq 1 = true ∧ Represented t := by
  obtain ⟨t, hrun, hon⟩ := run_test Entries.step (Entries.start boot)
    [.enqueue 0, .enqueue 1, .setPriority 0 5] (fun t => t.q.onRunq 1 = true) (by decide +kernel)
  refine ⟨t, hrun, hon, runq_represented boot (fun _ => rfl) _ t ?_ hrun⟩
  exact along_of_mem _ _ fun o ho t hinit => by simp [hinit] at ho

theorem runq_init_forgets_queued : ∃ t, run Entries.step (Entries.start boot)
    [.enqueue 0, .init] = some t ∧ ¬ Represented t := by
  obtain ⟨t, hrun, hon, hhead⟩ := run_test Entries.step (Entries.start boot)
    [.enqueue 0, .init] (fun t => t.q.onRunq 0 = true ∧ ∀ i : Fin RUNQ_LEN, t.q.head i = none)
    (by decide +kernel)
  refine ⟨t, hrun, fun ⟨B, hseg, hmem, _⟩ => ?_⟩
  obtain ⟨i, ⟨hi, hp⟩, -⟩ := (hmem 0).1 hon
  have hchain := seg_chain _ _ _ _ (hseg i hi).2
  rw [hhead ⟨i, hi⟩, chain_none_iff] at hchain
  rw [hchain] at hp
  cases hp

end BirdOS.SchedO1
