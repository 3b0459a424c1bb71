import Mathlib.Data.BitVec
import BirdOS.Lib.Machine
import BirdOS.Lib.Ring

/-! # Disk requests (`virtio_disk.c`)

`virtio_disk_rw`, `virtio_disk_intr` and a device that takes the published chains from the
available ring in order and completes them in any order.  `vdisk_lock` is held but for the two
`sleep`s of `virtio_disk_rw`: a section of a caller is one step, and so is a turn of the loop of
the interrupt handler, between two of which the device may go on.  A sleeper may run at any time.
The caller of `virtio_disk_rw` holds the lock of its buffer, so no two calls at a time have the
same one.  Addresses, lengths and the direction of a request are for the device only. -/

namespace BirdOS.VirtioDisk

open Machine Ring Function List Option

def NUM : Nat := 8

structure Req (β : Type) where
  b : β
  i : Nat
  j : Nat
  k : Nat
  r : Nat

def Req.descs {β : Type} (q : Req β) : List Nat := [q.i, q.j, q.k]

structure Disk (β : Type) where
  free : Nat → Bool
  /-- `desc[i].flags & VRING_DESC_F_NEXT` -/
  more : Nat → Bool
  /-- `desc[i].next` -/
  next : Nat → Nat
  /-- `info[i].b` -/
  info : Nat → Option β
  /-- `avail[2 + i]` -/
  avail : Nat → Nat
  /-- `avail[1]` -/
  availIdx : BitVec 16
  /-- `used->elems[i].id` -/
  elems : Nat → Nat
  /-- `used->id` -/
  usedId : BitVec 16
  usedIdx : Nat

inductive Pc (β : Type) where
  | idle
  | waitDesc (b : β)
  | waitDone (q : Req β)

def Pc.buf {β : Type} : Pc β → Option β
  | .idle => none
  | .waitDesc b => some b
  | .waitDone q => some q.b

structure State (P β : Type) where
  disk : Disk β
  /-- `b->disk` -/
  bdisk : β → Bool
  pc : P → Pc β
  /-- The interrupt handler holds the lock. -/
  inIntr : Bool
  /-- How far the device has read the available ring. -/
  fetched : BitVec 16
  /-- The chains that the device works on. -/
  pending : List Nat
  /-- A panic of `free_desc`, or a null `info[id].b`. -/
  panic : Bool
  /-- The number of the request whose chain starts at a descriptor. -/
  req : Nat → Nat
  clock : Nat
  completed : List Nat
  consumed : List Nat
  returned : List Nat

section Code
variable {P β : Type} [DecidableEq P] [DecidableEq β]

def alloc_desc (d : Disk β) : Option (Nat × Disk β) :=
  ((List.range NUM).find? d.free).map fun i => (i, { d with free := update d.free i false })

/-- `none` is one of the two panics. -/
def free_desc (d : Disk β) (i : Nat) : Option (Disk β) :=
  if i ≥ NUM then none
  else if d.free i then none
  else some { d with free := update d.free i true }

def free_chain : Nat → Disk β → Nat → Option (Disk β)
  | 0, _, _ => none
  | fuel + 1, d, i =>
    (free_desc d i).bind fun d => if d.more i then free_chain fuel d (d.next i) else some d

/-- The inner `none` is the return value -1. -/
def alloc3_desc (d : Disk β) : Option (Disk β × Option (Nat × Nat × Nat)) :=
  match alloc_desc d with
  | none => some (d, none)
  | some (i, d) =>
    match alloc_desc d with
    | none => (free_desc d i).map fun d => (d, none)
    | some (j, d) =>
      match alloc_desc d with
      | none => ((free_desc d i).bind fun d => free_desc d j).map fun d => (d, none)
      | some (k, d) => some (d, some (i, j, k))

def publish (d : Disk β) (q : Req β) : Disk β :=
  { d with
    more := update (update (update d.more q.i true) q.j true) q.k false
    next := update (update (update d.next q.i q.j) q.j q.k) q.k 0
    info := update d.info q.i (some q.b)
    avail := update d.avail (d.availIdx.toNat % NUM) q.i
    availIdx := d.availIdx + 1 }

variable (s : State P β)

def request (p : P) (b : β) : State P β :=
  match alloc3_desc s.disk with
  | none => { s with panic := true }
  | some (d, none) => { s with disk := d, pc := update s.pc p (.waitDesc b) }
  | some (d, some (i, j, k)) =>
    let q : Req β := ⟨b, i, j, k, s.clock⟩
    { s with
      disk := publish d q, bdisk := update s.bdisk b true, pc := update s.pc p (.waitDone q)
      req := update s.req i s.clock, clock := s.clock + 1 }

def finish (p : P) (q : Req β) : State P β :=
  match free_chain (NUM + 1) { s.disk with info := update s.disk.info q.i none } q.i with
  | none => { s with panic := true }
  | some d => { s with disk := d, pc := update s.pc p .idle, returned := s.returned ++ [q.r] }

def turn : State P β :=
  let id := s.disk.elems s.disk.usedIdx
  match s.disk.info id with
  | none => { s with panic := true }
  | some b =>
    { s with
      bdisk := update s.bdisk b false
      disk := { s.disk with usedIdx := (s.disk.usedIdx + 1) % NUM }
      consumed := s.consumed ++ [s.req id] }

end Code

inductive Op (P β : Type) where
  | call (p : P) (b : β)
  | wake (p : P)
  | intr
  | turn
  | fetch
  | complete (h : Nat)

section Step
variable {P β : Type} [Fintype P] [DecidableEq P] [DecidableEq β]

def State.caughtUp (s : State P β) : Bool := s.disk.usedIdx % NUM = s.disk.usedId.toNat % NUM

/-- A caller has a free buffer; sleepers go on; the handler takes the lock, makes a turn or leaves;
the device reads the next entry of the available ring, and completes chains. -/
def step (s : State P β) : Op P β → Option (State P β)
  | .call p b =>
    if s.inIntr = false ∧ (s.pc p).buf = none ∧ ∀ p', (s.pc p').buf ≠ some b then
      some (request s p b)
    else none
  | .wake p =>
    if s.inIntr = false then
      match s.pc p with
      | .idle => none
      | .waitDesc b => some (request s p b)
      | .waitDone q => some (if s.bdisk q.b then s else finish s p q)
    else none
  | .intr => if s.inIntr = false then some { s with inIntr := true } else none
  | .turn =>
    if s.inIntr then some (if s.caughtUp then { s with inIntr := false } else turn s) else none
  | .fetch =>
    if s.fetched ≠ s.disk.availIdx then
      some { s with
        fetched := s.fetched + 1
        pending := s.pending ++ [s.disk.avail (s.fetched.toNat % NUM)] }
    else none
  | .complete h =>
    if h ∈ s.pending then
      some { s with
        pending := s.pending.erase h
        disk := { s.disk with
          elems := update s.disk.elems (s.disk.usedId.toNat % NUM) h
          usedId := s.disk.usedId + 1 }
        completed := s.completed ++ [s.req h] }
    else none

def boot : State P β :=
  { disk := ⟨fun _ => true, fun _ => false, fun _ => 0, fun _ => none, fun _ => 0, 0,
    fun _ => 0, 0, 0⟩
    bdisk := fun _ => false, pc := fun _ => .idle, inIntr := false, fetched := 0, pending := []
    panic := false, req := fun _ => 0, clock := 0, completed := [], consumed := [], returned := [] }

end Step

/-! ## Descriptors -/

section Descriptors
variable {β : Type} {d d' : Disk β} {i j k : Nat}

theorem alloc_desc_some (h : alloc_desc d = some (i, d')) :
    i < NUM ∧ d.free i = true ∧ d' = { d with free := update d.free i false } := by
  obtain ⟨x, hx, heq⟩ := map_eq_some_iff.mp h
  cases heq
  exact ⟨mem_range.mp (mem_of_find?_eq_some hx), find?_some hx, rfl⟩

theorem free_desc_eq (hi : i < NUM) (hf : d.free i = false) :
    free_desc d i = some { d with free := update d.free i true } := by
  rw [free_desc, if_neg (Nat.not_le.mpr hi), hf]
  rfl

theorem set_free (hi : d.free i = true) : update d.free i true = d.free := by
  rw [← hi, update_eq_self]

theorem alloc3_desc_cases (d : Disk β) : alloc3_desc d = some (d, none) ∨
    ∃ i j k, alloc3_desc d = some ({ d with
      free := update (update (update d.free i false) j false) k false }, some (i, j, k)) ∧
      (i < NUM ∧ j < NUM ∧ k < NUM) ∧ (i ≠ j ∧ i ≠ k ∧ j ≠ k) ∧
      d.free i = true ∧ d.free j = true ∧ d.free k = true := by
  unfold alloc3_desc
  cases h1 : alloc_desc d with
  | none => exact .inl rfl
  | some r =>
    obtain ⟨i, d1⟩ := r
    obtain ⟨hi, hfi, rfl⟩ := alloc_desc_some h1
    simp only
    cases h2 : alloc_desc { d with free := update d.free i false } with
    | none =>
      left
      simp only
      rw [free_desc_eq hi (by simp), map_some]
      simp only [update_idem, set_free hfi]
    | some r =>
      obtain ⟨j, d2⟩ := r
      obtain ⟨hj, hfj, rfl⟩ := alloc_desc_some h2
      have hji : j ≠ i := by
        rintro rfl
        simp at hfj
      simp only [update_of_ne hji] at hfj
      simp only
      cases h3 : alloc_desc { d with free := update (update d.free i false) j false } with
      | none =>
        left
        simp only
        rw [free_desc_eq hi (by simp [hji.symm]), bind_some, free_desc_eq hj (by simp [hji]),
          map_some]
        have hsame : update (update (update (update d.free i false) j false) i true) j true =
            d.free := by
          rw [update_comm hji, update_idem, update_idem, set_free hfi, set_free hfj]
        simp only [hsame]
      | some r =>
        obtain ⟨k, d3⟩ := r
        obtain ⟨hk, hfk, rfl⟩ := alloc_desc_some h3
        have hkj : k ≠ j := by
          rintro rfl
          simp at hfk
        simp only [update_of_ne hkj] at hfk
        have hki : k ≠ i := by
          rintro rfl
          simp at hfk
        rw [update_of_ne hki] at hfk
        exact .inr ⟨i, j, k, rfl, ⟨hi, hj, hk⟩, ⟨hji.symm, hki.symm, hkj.symm⟩, hfi, hfj, hfk⟩

structure Linked (d : Disk β) (q : Req β) : Prop where
  first : d.more q.i = true ∧ d.next q.i = q.j
  second : d.more q.j = true ∧ d.next q.j = q.k
  third : d.more q.k = false

theorem free_chain_eq {q : Req β} (hl : Linked d q) (hnd : q.descs.Nodup)
    (hbusy : ∀ x ∈ q.descs, x < NUM ∧ d.free x = false) (n : Nat) :
    free_chain (n + 3) d q.i = some { d with
      free := update (update (update d.free q.i true) q.j true) q.k true } := by
  simp only [Req.descs, nodup_cons, mem_cons, not_mem_nil, or_false, not_or] at hnd
  obtain ⟨⟨hij, hik⟩, hjk, -⟩ := hnd
  have hi := hbusy q.i (by simp [Req.descs])
  have hj := hbusy q.j (by simp [Req.descs])
  have hk := hbusy q.k (by simp [Req.descs])
  rw [free_chain, free_desc_eq hi.1 hi.2, bind_some, if_pos hl.first.1]
  simp only [hl.first.2]
  rw [free_chain, free_desc_eq hj.1 (by simp [Ne.symm hij, hj.2]), bind_some,
    if_pos hl.second.1]
  simp only [hl.second.2]
  rw [free_chain, free_desc_eq hk.1 (by simp [Ne.symm hik, Ne.symm hjk, hk.2]), bind_some,
    if_neg (by simp [hl.third])]

theorem publish_linked {q : Req β} (hnd : q.descs.Nodup) : Linked (publish d q) q := by
  simp only [Req.descs, nodup_cons, mem_cons, not_mem_nil, or_false, not_or] at hnd
  obtain ⟨⟨hij, hik⟩, hjk, -⟩ := hnd
  constructor <;> simp [publish, hij, hik, hjk]

theorem Linked.publish {q q' : Req β} (h : Linked d q) (hapart : ∀ x ∈ q.descs, x ∉ q'.descs) :
    Linked (publish d q') q := by
  have hother : ∀ x ∈ q.descs, (VirtioDisk.publish d q').more x = d.more x ∧
      (VirtioDisk.publish d q').next x = d.next x := by
    intro x hx
    have hne := hapart x hx
    simp only [Req.descs, mem_cons, not_mem_nil, or_false, not_or] at hne
    simp [VirtioDisk.publish, hne]
  have hi := hother q.i (by simp [Req.descs])
  have hj := hother q.j (by simp [Req.descs])
  have hk := hother q.k (by simp [Req.descs])
  exact ⟨⟨hi.1.trans h.first.1, hi.2.trans h.first.2⟩, ⟨hj.1.trans h.second.1,
    hj.2.trans h.second.2⟩, hk.1.trans h.third⟩

end Descriptors

theorem ring_index (x : BitVec 16) (n : Nat) :
    (x + BitVec.ofNat 16 n).toNat % NUM = (x.toNat + n) % NUM := by
  rw [BitVec.toNat_add, BitVec.toNat_ofNat, Nat.add_mod_mod, NUM]
  exact Nat.mod_mod_of_dvd _ (by decide)

/-! ## The requests in flight -/

section Protocol
variable {P β : Type}

/-- Requests in flight `fl`, published chains `U`, and completed chains `W` not yet seen. -/
structure Inv (s : State P β) (fl : List (Req β)) (U W : List Nat) : Prop where
  calm : s.panic = false
  flight : ∀ q, q ∈ fl ↔ ∃ p, s.pc p = .waitDone q
  bufs : ∀ p p' b, (s.pc p).buf = some b → (s.pc p').buf = some b → p = p'
  distinct : (fl.map Req.b).Nodup
  apart : (fl.flatMap Req.descs).Nodup
  busy : ∀ x, s.disk.free x = false ↔ x ∈ fl.flatMap Req.descs
  small : ∀ x ∈ fl.flatMap Req.descs, x < NUM
  linked : ∀ q ∈ fl, Linked s.disk q ∧ s.disk.info q.i = some q.b ∧ s.req q.i = q.r
  availIdx : s.disk.availIdx = s.fetched + BitVec.ofNat 16 U.length
  avail : window s.disk.avail NUM s.fetched.toNat U.length = U
  usedIdx : s.disk.usedId.toNat % NUM = (s.disk.usedIdx + W.length) % NUM
  used : window s.disk.elems NUM s.disk.usedIdx W.length = W
  inRing : s.disk.usedIdx < NUM
  stages : (U ++ s.pending ++ W).Perm ((fl.filter fun q => s.bdisk q.b).map Req.i)
  done : ∀ q ∈ fl, s.bdisk q.b = false → q.r ∈ s.consumed
  completed : s.completed = s.consumed ++ W.map s.req
  returned : ∀ r ∈ s.returned, r ∈ s.consumed

variable {s : State P β} {fl : List (Req β)} {U W : List Nat} {p : P} {b : β} {q : Req β}

theorem Inv.few (h : Inv s fl U W) : fl.length ≤ 2 := by
  have hlen : (fl.flatMap Req.descs).length = 3 * fl.length := by
    rw [length_flatMap]
    simp [Req.descs, Nat.mul_comm]
  have hle := (subperm_of_subset h.apart fun x hx => mem_range.mpr (h.small x hx)).length_le
  rw [hlen, length_range, NUM] at hle
  omega

theorem Inv.rings (h : Inv s fl U W) : U.length + s.pending.length + W.length ≤ 2 := by
  have hlen := h.stages.length_eq
  have hfilter := length_filter_le (fun q => s.bdisk q.b) fl
  have hfew := h.few
  simp only [length_append, length_map] at hlen
  omega

theorem Inv.owner (h : Inv s fl U W) {x : Nat} (hx : x ∈ U ++ s.pending ++ W) :
    ∃ q ∈ fl, q.i = x ∧ s.bdisk q.b = true := by
  obtain ⟨q, hq, rfl⟩ := mem_map.mp (h.stages.mem_iff.mp hx)
  exact ⟨q, (mem_filter.mp hq).1, rfl, (mem_filter.mp hq).2⟩

theorem mem_descs (hq : q ∈ fl) {x : Nat} (hx : x ∈ q.descs) : x ∈ fl.flatMap Req.descs :=
  mem_flatMap.mpr ⟨q, hq, hx⟩

theorem Req.i_mem (q : Req β) : q.i ∈ q.descs := mem_cons_self

theorem Inv.fetch (h : Inv s fl U W) (hne : s.fetched ≠ s.disk.availIdx) :
    ∃ U', Inv { s with
      fetched := s.fetched + 1
      pending := s.pending ++ [s.disk.avail (s.fetched.toNat % NUM)] } fl U' W := by
  have havail := h.avail
  have hidx := h.availIdx
  have hstages := h.stages
  cases U with
  | nil => exact absurd (by simpa using hidx.symm) hne
  | cons x U =>
    rw [length_cons, window_pop] at havail
    obtain ⟨hx, hring⟩ := cons.inj havail
    refine ⟨U, { h with availIdx := ?_, avail := ?_, stages := ?_ }⟩
    · rw [hidx, length_cons, Nat.add_comm, BitVec.ofNat_add, ← BitVec.add_assoc]
      rfl
    · refine Eq.trans (window_congr ?_ _ _) hring
      exact ring_index s.fetched 1
    · refine List.Perm.trans ?_ hstages
      rw [hx, perm_iff_count]
      intro y
      simp only [cons_append, count_append, count_cons, count_nil]
      omega

theorem Inv.complete (h : Inv s fl U W) {x : Nat} (hx : x ∈ s.pending) :
    Inv { s with
      pending := s.pending.erase x
      disk := { s.disk with
        elems := update s.disk.elems (s.disk.usedId.toNat % NUM) x
        usedId := s.disk.usedId + 1 }
      completed := s.completed ++ [s.req x] } fl U (W ++ [x]) := by
  have hrings := h.rings
  refine { h with
    linked := fun q hq => ?_, usedIdx := ?_, used := ?_, stages := ?_, completed := ?_ }
  · obtain ⟨hl, hrest⟩ := h.linked q hq
    exact ⟨{ hl with }, hrest⟩
  · have hnext : (s.disk.usedId + 1).toNat % NUM = (s.disk.usedId.toNat + 1) % NUM :=
      ring_index s.disk.usedId 1
    simp only [hnext, length_append, length_singleton]
    rw [Nat.add_mod, h.usedIdx, ← Nat.add_mod, Nat.add_assoc]
  · simp only [length_append, length_singleton]
    rw [h.usedIdx, window_push (by unfold NUM; omega), h.used]
  · refine List.Perm.trans ?_ h.stages
    have herase := (perm_cons_erase hx).count_eq
    rw [perm_iff_count]
    intro y
    have hy := herase y
    simp only [count_append, count_cons, count_nil] at hy ⊢
    omega
  · simp only [h.completed, map_append, append_assoc, map_cons, map_nil]

section Callers
variable [DecidableEq P]

theorem bufs_update {pc : P → Pc β} {new : Pc β}
    (h : ∀ p p' b, (pc p).buf = some b → (pc p').buf = some b → p = p')
    (hnew : ∀ b, new.buf = some b → ∀ p', (pc p').buf = some b → p' = p) :
    ∀ x y b, (update pc p new x).buf = some b → (update pc p new y).buf = some b → x = y := by
  intro x y b hx hy
  by_cases hxp : x = p <;> by_cases hyp : y = p
  · rw [hxp, hyp]
  · rw [hxp, update_self] at hx
    rw [update_of_ne hyp] at hy
    exact hxp.trans (hnew b hx y hy).symm
  · rw [hyp, update_self] at hy
    rw [update_of_ne hxp] at hx
    exact (hnew b hy x hx).trans hyp.symm
  rw [update_of_ne hxp] at hx
  rw [update_of_ne hyp] at hy
  exact h x y b hx hy

theorem Inv.finish (h : Inv s fl U W) (hpc : s.pc p = .waitDone q) (hdone : s.bdisk q.b = false) :
    ∃ fl', Inv (finish s p q) fl' U W := by
  have hq := (h.flight q).mpr ⟨p, hpc⟩
  obtain ⟨l1, l2, rfl⟩ := append_of_mem hq
  obtain ⟨hl, hinfo, hreq⟩ := h.linked q hq
  have hall : ∀ x, x ∈ (l1 ++ q :: l2).flatMap Req.descs ↔
      x ∈ q.descs ∨ x ∈ (l1 ++ l2).flatMap Req.descs := by
    intro x
    simp only [flatMap_append, flatMap_cons, mem_append]
    tauto
  have hsub : ∀ q' ∈ l1 ++ l2, q' ∈ l1 ++ q :: l2 := by
    intro q' hq'
    simp only [mem_append, mem_cons] at hq' ⊢
    tauto
  have hapart := h.apart
  simp only [flatMap_append, flatMap_cons] at hapart
  have hperm : (q.descs ++ (l1 ++ l2).flatMap Req.descs).Nodup := by
    rw [flatMap_append]
    refine (List.Perm.nodup_iff ?_).mp hapart
    rw [perm_iff_count]
    intro x
    simp only [count_append]
    omega
  obtain ⟨hnd, hrest, hdisj⟩ := nodup_append.mp hperm
  have hbusy : ∀ x ∈ q.descs, x < NUM ∧ s.disk.free x = false := fun x hx =>
    ⟨h.small x ((hall x).mpr (.inl hx)), (h.busy x).mpr ((hall x).mpr (.inl hx))⟩
  have hdist := h.distinct
  rw [map_append, map_cons, nodup_middle, nodup_cons] at hdist
  have hchain := free_chain_eq (d := { s.disk with info := update s.disk.info q.i none })
    { hl with } hnd hbusy (NUM - 2)
  refine ⟨l1 ++ l2, ?_⟩
  simp only [VirtioDisk.finish]
  rw [show NUM + 1 = NUM - 2 + 3 from rfl, hchain]
  refine { h with
    flight := fun q' => ?_, bufs := bufs_update h.bufs nofun, distinct := ?_, apart := hrest
    busy := fun x => ?_, small := fun x hx => h.small x ((hall x).mpr (.inr hx))
    linked := fun q' hq' => ?_, stages := ?_, done := fun q' hq' => h.done q' (hsub q' hq')
    returned := fun r hr => ?_ }
  · constructor
    · intro hq'
      obtain ⟨x, hx⟩ := (h.flight q').mp (hsub q' hq')
      have hxp : x ≠ p := by
        rintro rfl
        cases Pc.waitDone.inj (hpc.symm.trans hx)
        refine hdist.1 ?_
        rw [← map_append]
        exact mem_map_of_mem hq'
      exact ⟨x, by simpa [hxp] using hx⟩
    · rintro ⟨x, hx⟩
      by_cases hxp : x = p
      · simp [hxp] at hx
      simp only [update_of_ne hxp] at hx
      have hmem := (h.flight q').mpr ⟨x, hx⟩
      simp only [mem_append, mem_cons] at hmem ⊢
      rcases hmem with hmem | rfl | hmem
      · exact .inl hmem
      · exact absurd (h.bufs x p q'.b (by rw [hx]; rfl) (by rw [hpc]; rfl)) hxp
      · exact .inr hmem
  · rw [map_append]
    exact hdist.2
  · have hx := (h.busy x).trans (hall x)
    have hno : x ∈ q.descs → x ∉ (l1 ++ l2).flatMap Req.descs := fun hx hx' => hdisj x hx x hx' rfl
    simp only [Req.descs, mem_cons, not_mem_nil, or_false] at hx hno
    simp only [update_apply]
    split_ifs <;> simp_all
  · obtain ⟨hl', hinfo', hreq'⟩ := h.linked q' (hsub q' hq')
    have hne : q'.i ≠ q.i := fun hne =>
      hdisj q.i q.i_mem q.i (hne ▸ mem_descs hq' q'.i_mem) rfl
    exact ⟨⟨hl'.first, hl'.second, hl'.third⟩, by simpa [hne] using hinfo', hreq'⟩
  · have hstages := h.stages
    rwa [filter_append, filter_cons_of_neg (by simp [hdone]), ← filter_append]
      at hstages
  · rcases mem_append.mp hr with hr | hr
    · exact h.returned r hr
    · rw [mem_singleton.mp hr]
      exact h.done q hq hdone

variable [DecidableEq β]

theorem Inv.request (h : Inv s fl U W) (hp : ∀ q, s.pc p ≠ .waitDone q)
    (hb : ∀ p', (s.pc p').buf = some b → p' = p) : ∃ fl' U', Inv (request s p b) fl' U' W := by
  have hkeep : ∀ q p', s.pc p' = .waitDone q → p' ≠ p := fun q p' hpc hpp => hp q (hpp ▸ hpc)
  rcases alloc3_desc_cases s.disk with heq | ⟨i, j, k, heq, ⟨hi, hj, hk⟩, ⟨hij, hik, hjk⟩, hfree⟩
  · refine ⟨fl, U, ?_⟩
    rw [VirtioDisk.request, heq]
    refine { h with
      flight := fun q => (h.flight q).trans ⟨?_, ?_⟩
      bufs := bufs_update h.bufs fun c hc => by cases hc; exact hb }
    · exact fun ⟨x, hx⟩ => ⟨x, by simpa [hkeep q x hx] using hx⟩
    · rintro ⟨x, hx⟩
      by_cases hxp : x = p
      · simp [hxp] at hx
      · exact ⟨x, by simpa [hxp] using hx⟩
  · have hdescs : (⟨b, i, j, k, s.clock⟩ : Req β).descs = [i, j, k] := rfl
    have hnd : [i, j, k].Nodup := by simp [hij, hik, hjk]
    have hnew : ∀ x ∈ [i, j, k], x ∉ fl.flatMap Req.descs := by
      intro x hx hm
      have hbusy := (h.busy x).mpr hm
      simp only [mem_cons, not_mem_nil, or_false] at hx
      rcases hx with rfl | rfl | rfl <;> simp_all
    have hbnew : ∀ q ∈ fl, q.b ≠ b := by
      intro q hq hqb
      obtain ⟨x, hx⟩ := (h.flight q).mp hq
      exact hkeep q x hx (hb x (by rw [hx, Pc.buf, hqb]))
    have hinew : ∀ q ∈ fl, q.i ≠ i := fun q hq hqi =>
      hnew i (by simp) (hqi ▸ mem_descs hq q.i_mem)
    have hrings := h.rings
    refine ⟨fl ++ [⟨b, i, j, k, s.clock⟩], U ++ [i], ?_⟩
    rw [VirtioDisk.request, heq]
    constructor
    · exact h.calm
    · intro q
      rw [mem_append, mem_singleton, h.flight q]
      constructor
      · rintro (⟨x, hx⟩ | rfl)
        · exact ⟨x, by simpa [hkeep q x hx] using hx⟩
        · exact ⟨p, update_self ..⟩
      · rintro ⟨x, hx⟩
        by_cases hxp : x = p
        · simp only [hxp, update_self] at hx
          exact .inr (Pc.waitDone.inj hx).symm
        · exact .inl ⟨x, by simpa [hxp] using hx⟩
    · exact bufs_update h.bufs fun c hc => by cases hc; exact hb
    · rw [map_append, nodup_append]
      refine ⟨h.distinct, by simp, fun x hx y hy => ?_⟩
      obtain ⟨q, hq, rfl⟩ := mem_map.mp hx
      rw [mem_singleton.mp hy]
      exact hbnew q hq
    · rw [flatMap_append, flatMap_singleton, nodup_append]
      refine ⟨h.apart, hnd, fun x hx y hy hxy => hnew y hy (hxy ▸ hx)⟩
    · intro x
      rw [flatMap_append, flatMap_singleton, mem_append, ← h.busy x, hdescs]
      simp only [publish, update_apply, mem_cons, not_mem_nil, or_false]
      split_ifs <;> simp_all
    · intro x hx
      rw [flatMap_append, flatMap_singleton, mem_append, hdescs] at hx
      rcases hx with hx | hx
      · exact h.small x hx
      · simp only [mem_cons, not_mem_nil, or_false] at hx
        rcases hx with rfl | rfl | rfl <;> assumption
    · intro q hq
      rcases mem_append.mp hq with hq | hq
      · obtain ⟨hl, hinfo, hreq⟩ := h.linked q hq
        refine ⟨Linked.publish { hl with } fun x hx hx' =>
          hnew x hx' (mem_descs hq hx), ?_, ?_⟩
        · simpa [publish, hinew q hq] using hinfo
        · simpa [hinew q hq] using hreq
      · rw [mem_singleton.mp hq]
        exact ⟨publish_linked hnd, by simp [publish], by simp⟩
    · simp only [publish, length_append, length_singleton, BitVec.ofNat_add, h.availIdx,
        BitVec.add_assoc]
      rfl
    · simp only [publish, length_append, length_singleton]
      rw [h.availIdx, ring_index, window_push (by unfold NUM; omega), h.avail]
    · exact h.usedIdx
    · exact h.used
    · exact h.inRing
    · have hfilter : fl.filter (fun q => update s.bdisk b true q.b) = fl.filter fun q =>
        s.bdisk q.b :=
        filter_congr fun q hq => by rw [update_of_ne (hbnew q hq)]
      simp only [filter_append, hfilter, map_append]
      have hnewest : [(⟨b, i, j, k, s.clock⟩ : Req β)].filter (fun q => update s.bdisk b true q.b) =
          [⟨b, i, j, k, s.clock⟩] := by simp
      rw [hnewest, map_singleton]
      refine List.Perm.trans ?_ (h.stages.append_right [i])
      rw [perm_iff_count]
      intro y
      simp only [count_append]
      omega
    · intro q hq hdone
      rcases mem_append.mp hq with hq | hq
      · simp only [update_of_ne (hbnew q hq)] at hdone
        exact h.done q hq hdone
      · rw [mem_singleton.mp hq] at hdone
        simp at hdone
    · rw [h.completed]
      refine congrArg _ (map_congr_left fun x hx => ?_)
      obtain ⟨q, hq, rfl, -⟩ := h.owner (mem_append_right _ hx)
      exact (update_of_ne (hinew q hq) _ _).symm
    · exact h.returned

end Callers

theorem Inv.caughtUp_iff (h : Inv s fl U W) : s.caughtUp = true ↔ W = [] := by
  have hrings := h.rings
  have hring := h.inRing
  rw [State.caughtUp, decide_eq_true_eq, h.usedIdx, ← length_eq_zero_iff]
  unfold NUM at hring ⊢
  omega

theorem Inv.turn [DecidableEq β] (h : Inv s fl U W) (hne : s.caughtUp = false) :
    ∃ W', Inv (turn s) fl U W' := by
  have hused := h.used
  have hidx := h.usedIdx
  have hcompleted := h.completed
  have hstages := h.stages
  have hup := h.caughtUp_iff
  have howner := h.owner (x := s.disk.elems s.disk.usedIdx)
  cases W with
  | nil => simp [hup.mpr rfl] at hne
  | cons x W =>
    rw [length_cons, window_pop, Nat.mod_eq_of_lt h.inRing] at hused
    obtain ⟨rfl, hring⟩ := cons.inj hused
    obtain ⟨q, hq, hqi, hb⟩ := howner (by simp)
    obtain ⟨hl, hinfo, hreq⟩ := h.linked q hq
    obtain ⟨l1, l2, rfl⟩ := append_of_mem hq
    have hdist := h.distinct
    rw [map_append, map_cons, nodup_middle, nodup_cons, ← map_append] at hdist
    have hother : ∀ q' ∈ l1 ++ l2, update s.bdisk q.b false q'.b = s.bdisk q'.b := by
      intro q' hq'
      have hqb : q'.b ≠ q.b := fun hqb => hdist.1 (hqb ▸ mem_map_of_mem hq')
      rw [update_of_ne hqb]
    refine ⟨W, ?_⟩
    rw [VirtioDisk.turn, ← hqi, hinfo]
    refine { h with
      linked := fun q' hq' => ?_, usedIdx := ?_, used := ?_, inRing := Nat.mod_lt _ (by decide)
      stages := ?_, done := fun q' hq' hd => ?_, completed := ?_
      returned := fun r hr => mem_append_left _ (h.returned r hr) }
    · obtain ⟨hl', hrest⟩ := h.linked q' hq'
      exact ⟨⟨hl'.first, hl'.second, hl'.third⟩, hrest⟩
    · rw [hidx, length_cons]
      simp only [Nat.mod_add_mod]
      congr 1
      omega
    · exact Eq.trans (window_congr (Nat.mod_mod _ _) _ _) hring
    · have hold : ((l1 ++ q :: l2).filter fun q => s.bdisk q.b).map Req.i =
          (l1.filter fun q => s.bdisk q.b).map Req.i ++
            q.i :: (l2.filter fun q => s.bdisk q.b).map Req.i := by
        rw [filter_append, filter_cons_of_pos (by simpa using hb), map_append,
          map_cons]
      have hnew : (l1 ++ q :: l2).filter (fun q' => update s.bdisk q.b false q'.b) =
          (l1.filter fun q => s.bdisk q.b) ++ l2.filter fun q => s.bdisk q.b := by
        rw [filter_append, filter_cons_of_neg (by simp)]
        congr 1
        · exact filter_congr fun q' hq' => by rw [hother q' (mem_append_left _ hq')]
        · exact filter_congr fun q' hq' => by rw [hother q' (mem_append_right _ hq')]
      simp only [hnew, map_append]
      rw [hold, hqi] at hstages
      exact ((perm_middle.symm.trans hstages).trans perm_middle).cons_inv
    · by_cases hqb : q'.b = q.b
      · have heq : q' = q := inj_on_of_nodup_map h.distinct hq' hq hqb
        rw [heq, ← hreq]
        exact mem_append_right _ (mem_singleton_self _)
      · simp only [update_of_ne hqb] at hd
        exact mem_append_left _ (h.done q' hq' hd)
    · rw [hcompleted, hqi]
      simp

theorem boot_inv : Inv (boot : State P β) [] [] [] where
  calm := rfl
  flight := by simp [boot]
  bufs := nofun
  distinct := nodup_nil
  apart := nodup_nil
  busy := by simp [boot]
  small := nofun
  linked := nofun
  availIdx := rfl
  avail := rfl
  usedIdx := rfl
  used := rfl
  inRing := Nat.zero_lt_succ 7
  stages := List.Perm.refl _
  done := nofun
  completed := rfl
  returned := nofun

/-- No panic; chains have their own descriptors; who returns has been served; completions are seen
once and in order; a failed `alloc3_desc` changes nothing; without requests all are free. -/
structure Orderly (s : State P β) : Prop where
  calm : s.panic = false
  own : ∀ p q, s.pc p = .waitDone q → q.descs.Nodup ∧ ∀ x ∈ q.descs, x < NUM ∧ s.disk.free x = false
  apart : ∀ p p' q q', s.pc p = .waitDone q → s.pc p' = .waitDone q' → p ≠ p' →
    ∀ x ∈ q.descs, x ∉ q'.descs
  served : ∀ r ∈ s.returned, r ∈ s.completed
  once : ∃ rest, s.completed = s.consumed ++ rest ∧ (s.caughtUp = true ↔ rest = [])
  failed : ∀ d, alloc3_desc s.disk = some (d, none) → d.free = s.disk.free
  allFree : (∀ p q, s.pc p ≠ .waitDone q) → ∀ x, x < NUM → s.disk.free x = true

theorem Inv.orderly (h : Inv s fl U W) : Orderly s where
  calm := h.calm
  own := by
    intro p q hq
    have hmem := (h.flight q).mpr ⟨p, hq⟩
    exact ⟨(nodup_flatMap.mp h.apart).1 q hmem, fun x hx =>
      ⟨h.small x (mem_descs hmem hx), (h.busy x).mpr (mem_descs hmem hx)⟩⟩
  apart := by
    intro p p' q q' hq hq' hne x hx hx'
    obtain ⟨l1, l2, rfl⟩ := append_of_mem ((h.flight q).mpr ⟨p, hq⟩)
    have hapart := h.apart
    rw [flatMap_append, flatMap_cons, nodup_append, nodup_append] at hapart
    have hmem := (h.flight q').mpr ⟨p', hq'⟩
    rcases mem_append.mp hmem with hm | hm
    · exact hapart.2.2 x (mem_descs hm hx') x (mem_append_left _ hx) rfl
    rcases mem_cons.mp hm with rfl | hm
    · exact hne (h.bufs p p' q'.b (by rw [hq]; rfl) (by rw [hq']; rfl))
    · exact hapart.2.1.2.2 x hx x (mem_descs hm hx') rfl
  served := by
    intro r hr
    rw [h.completed]
    exact mem_append_left _ (h.returned r hr)
  once := ⟨W.map s.req, h.completed, by rw [h.caughtUp_iff, map_eq_nil_iff]⟩
  failed := by
    intro d hd
    rcases alloc3_desc_cases s.disk with heq | ⟨i, j, k, heq, -⟩
    · cases heq.symm.trans hd
      rfl
    · cases heq.symm.trans hd
  allFree := by
    intro hnone x _
    by_contra hx
    obtain ⟨q, hq, -⟩ := mem_flatMap.mp ((h.busy x).mp (Bool.eq_false_iff.mpr hx))
    obtain ⟨p, hp⟩ := (h.flight q).mp hq
    exact hnone p q hp

variable [Fintype P] [DecidableEq P] [DecidableEq β]

theorem Inv.step {s' : State P β} {o : Op P β} (h : Inv s fl U W) (hs : step s o = some s') :
    ∃ fl' U' W', Inv s' fl' U' W' := by
  cases o with
  | call p b =>
    obtain ⟨⟨-, hidle, hb⟩, ⟨⟩⟩ := ite_none_right_eq_some.mp hs
    have hp : ∀ q, s.pc p ≠ .waitDone q := fun q hq => by simp [hq, Pc.buf] at hidle
    obtain ⟨fl', U', h'⟩ := h.request hp fun p' hp' => absurd hp' (hb p')
    exact ⟨fl', U', W, h'⟩
  | wake p =>
    have hs := of_guard hs
    cases hpc : s.pc p with
    | idle =>
      rw [hpc] at hs
      cases hs
    | waitDesc b =>
      rw [hpc] at hs
      cases hs
      obtain ⟨fl', U', h'⟩ := h.request (p := p) (b := b) (fun q hq => by cases hpc.symm.trans hq)
        fun p' hp' => h.bufs p' p b hp' (by rw [hpc]; rfl)
      exact ⟨fl', U', W, h'⟩
    | waitDone q =>
      rw [hpc] at hs
      cases hs
      split
      · exact ⟨fl, U, W, h⟩
      · next hdone =>
        obtain ⟨fl', h'⟩ := h.finish hpc (Bool.eq_false_iff.mpr hdone)
        exact ⟨fl', U, W, h'⟩
  | intr =>
    cases of_guard hs
    exact ⟨fl, U, W, { h with }⟩
  | turn =>
    cases of_guard hs
    split
    · exact ⟨fl, U, W, { h with }⟩
    · next hne =>
      obtain ⟨W', h'⟩ := h.turn (Bool.eq_false_iff.mpr hne)
      exact ⟨fl, U, W', h'⟩
  | fetch =>
    obtain ⟨hne, ⟨⟩⟩ := ite_none_right_eq_some.mp hs
    obtain ⟨U', h'⟩ := h.fetch hne
    exact ⟨fl, U', W, h'⟩
  | complete x =>
    obtain ⟨hx, ⟨⟩⟩ := ite_none_right_eq_some.mp hs
    exact ⟨fl, U, _, h.complete hx⟩

theorem disk_requests_orderly (ops : List (Op P β)) (s : State P β)
    (hrun : run step boot ops = some s) : Orderly s := by
  obtain ⟨fl, U, W, h⟩ := run_invariant (I := fun s => ∃ fl U W, Inv s fl U W)
    (fun _ _ _ ⟨_, _, _, h⟩ hs => h.step hs) ops boot s ⟨_, _, _, boot_inv⟩ hrun
  exact h.orderly

end Protocol

theorem disk_requests_orderly_three : ∃ s, run step (boot : State (Fin 3) (Fin 3))
    [.call 0 0, .call 1 1, .call 2 2, .fetch, .fetch, .complete 3, .intr, .turn, .turn, .wake 1,
      .wake 2] = some s ∧ s.returned = [1] ∧ Orderly s := by
  obtain ⟨s, hrun, hret⟩ := run_test step (boot : State (Fin 3) (Fin 3))
    [.call 0 0, .call 1 1, .call 2 2, .fetch, .fetch, .complete 3, .intr, .turn, .turn, .wake 1,
      .wake 2] (fun s => s.returned = [1]) (by decide +kernel)
  exact ⟨s, hrun, hret, disk_requests_orderly _ s hrun⟩

end BirdOS.VirtioDisk
