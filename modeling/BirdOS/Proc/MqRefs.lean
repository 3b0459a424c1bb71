import BirdOS.Lib.Machine
import BirdOS.Lib.Tally
import BirdOS.Param

/-! # Reference counts of message queues (`messagequeue.c`, `proc.c`, `exec.c`)

`proc` in `newmq` and `sys_mqget` is the process table, so `proc->mqmask` is the mask of the
first process, whoever calls.  `wait` gives the mask of the caller to `releasemq2`, and `exec`
hands its mask to `releasemq` as a key.  `exit` releases nothing.

`asked c i` records that process `c` got queue `i` from `mqget` and has not called `exec` or
`exit` since.  `pages` are the pages that `newmq` has taken and `rmmq` not given back. -/

namespace BirdOS.MqRefs

open Machine Tally Function List Option

def MQMAX : Nat := 8

abbrev Queue := Fin MQMAX

structure Mq where
  key : BitVec 32
  status : Bool
  msgs : Option Nat
  refcount : Int

structure Queues where
  mqs : Queue → Mq
  pages : Nat → Bool

inductive Life where
  | unused
  | live
  | zombie
  deriving DecidableEq

structure State where
  queues : Queues
  life : Slot → Life
  parent : Slot → Option Slot
  mqmask : Slot → BitVec 32
  asked : Slot → Queue → Bool

def proc0 : Slot := 0

def uses (mask : BitVec 32) (i : Queue) : Bool := mask.getLsbD i

def setUse (mask : BitVec 32) (i : Queue) : BitVec 32 := mask ||| (1#32 <<< i.val)

/-! ## The code -/

def Queues.set (q : Queues) (i : Queue) (m : Mq) : Queues :=
  { q with mqs := update q.mqs i m }

def findkey (mqs : Queue → Mq) (key : BitVec 32) : Option Queue :=
  (List.finRange MQMAX).find? fun i => (mqs i).status && decide ((mqs i).key = key)

def findfree (mqs : Queue → Mq) : Option Queue :=
  (List.finRange MQMAX).find? fun i => !(mqs i).status

def newmq (s : State) (key : BitVec 32) (page : Option Nat) : State × Option Queue :=
  match findfree s.queues.mqs with
  | none => (s, none)
  | some i =>
    match page with
    | none => ({ s with queues := s.queues.set i { s.queues.mqs i with msgs := none } }, none)
    | some p =>
      ({ s with
          queues :=
            { mqs := update s.queues.mqs i ⟨key, true, some p, 1⟩
              pages := update s.queues.pages p true }
          mqmask := update s.mqmask proc0 (setUse (s.mqmask proc0) i) }, some i)

def mqget (s : State) (key : BitVec 32) (page : Option Nat) : State × Option Queue :=
  match findkey s.queues.mqs key with
  | some i =>
    if uses (s.mqmask proc0) i then (s, some i)
    else
      ({ s with
          queues := s.queues.set i
            { s.queues.mqs i with refcount := (s.queues.mqs i).refcount + 1 }
          mqmask := update s.mqmask proc0 (setUse (s.mqmask proc0) i) }, some i)
  | none => newmq s key page

def addmqcount (q : Queues) (mask : BitVec 32) : Queues :=
  { q with mqs := fun i =>
      if uses mask i then { q.mqs i with refcount := (q.mqs i).refcount + 1 } else q.mqs i }

def rmmq (q : Queues) (i : Queue) : Queues where
  mqs := update q.mqs i { q.mqs i with status := false }
  pages :=
    match (q.mqs i).msgs with
    | some p => update q.pages p false
    | none => q.pages

def dropRef (q : Queues) (i : Queue) : Queues :=
  let q := q.set i { q.mqs i with refcount := (q.mqs i).refcount - 1 }
  if (q.mqs i).refcount = 0 then rmmq q i else q

def releasemq (q : Queues) (key : BitVec 32) : Queues :=
  match findkey q.mqs key with
  | some i => dropRef q i
  | none => q

def releasemq2 (q : Queues) (mask : BitVec 32) : Queues :=
  (List.finRange MQMAX).foldl (fun q i => if uses mask i then dropRef q i else q) q

inductive Op where
  | mqget (c : Slot) (key : BitVec 32) (page : Option Nat)
  | fork (c np : Slot)
  /-- `uvmcopy` fails. -/
  | forkFails (c np : Slot)
  | exec (c : Slot)
  | exit (c : Slot)
  /-- With `ok` false the `copyout` fails. -/
  | wait (c np : Slot) (ok : Bool)

def nothing : Queue → Bool := fun _ => false

def step (s : State) : Op → Option State
  | .mqget c key page =>
    if s.life c = .live ∧ ∀ p ∈ page, s.queues.pages p = false then
      let (s', ret) := mqget s key page
      match ret with
      | none => some s'
      | some i =>
        some { s' with
          asked := update s'.asked c (update (s'.asked c) i true) }
    else none
  | .fork c np =>
    if s.life c = .live ∧ s.life np = .unused then
      some
        { queues := addmqcount s.queues (s.mqmask c)
          life := update s.life np .live
          parent := update s.parent np (some c)
          mqmask := update s.mqmask np (s.mqmask c)
          asked := update s.asked np nothing }
    else none
  | .forkFails c np =>
    if s.life c = .live ∧ s.life np = .unused then
      some { s with mqmask := update s.mqmask np 0 }
    else none
  | .exec c =>
    if s.life c = .live then
      some { s with
        queues := releasemq s.queues (s.mqmask c)
        mqmask := update s.mqmask c 0
        asked := update s.asked c nothing }
    else none
  | .exit c =>
    if s.life c = .live ∧ c ≠ proc0 then
      some { s with
        life := update s.life c .zombie
        parent := fun q => if s.parent q = some c then some proc0 else s.parent q
        asked := update s.asked c nothing }
    else none
  | .wait c np ok =>
    if s.life c = .live ∧ s.parent np = some c ∧ s.life np = .zombie then
      let s := { s with
        queues := releasemq2 s.queues (s.mqmask c)
        mqmask := update s.mqmask c 0 }
      some (if ok then
        { s with
          life := update s.life np .unused
          parent := update s.parent np none }
      else s)
    else none

def boot : State where
  queues := { mqs := fun _ => ⟨0, false, none, 0⟩, pages := fun _ => false }
  life := update (fun _ => .unused) proc0 .live
  parent := fun _ => none
  mqmask := fun _ => 0
  asked := fun _ => nothing

/-! ## What the counts should be -/

def holds (i : Queue) (p : Life × BitVec 32) : Nat := if p.1 = .live ∧ uses p.2 i then 1 else 0

def State.masks (s : State) (c : Slot) : Life × BitVec 32 := (s.life c, s.mqmask c)

attribute [local simp] Queues.set State.masks

def holders (s : State) (i : Queue) : Nat := tally (holds i) s.masks

structure Counts (q : Queues) (n : Queue → Nat) : Prop where
  refcount : ∀ i, (q.mqs i).refcount = n i
  status : ∀ i, (q.mqs i).status = true ↔ 0 < n i
  page : ∀ i, 0 < n i → ∃ p, (q.mqs i).msgs = some p ∧ q.pages p = true
  owned : ∀ p, q.pages p = true → ∃ i, 0 < n i ∧ (q.mqs i).msgs = some p
  distinct : ∀ i j p, 0 < n i → 0 < n j → (q.mqs i).msgs = some p → (q.mqs j).msgs = some p → i = j

/-- Queues count the live processes with their bit, who asked has the bit, and a queue is in use,
with its page, exactly while it has a user. -/
structure Exact (s : State) : Prop where
  counts : Counts s.queues (holders s)
  asked : ∀ c i, s.asked c i = true → s.life c = .live ∧ uses (s.mqmask c) i = true

/-- The queue with the key, or the first that is free if there is a page for it. -/
def wanted (s : State) (key : BitVec 32) (page : Option Nat) : Option Queue :=
  (findkey s.queues.mqs key).or (page.bind fun _ => findfree s.queues.mqs)

/-- The first process calls `mqget`, or one with the bit; none with a bit exits; one that called
`mqget` finds no child in `wait`; at `exec` the mask is the key of the one queue in use. -/
def Careful (s : State) : Op → Prop
  | .mqget c key page => ∀ i, wanted s key page = some i → c = proc0 ∨ uses (s.mqmask c) i = true
  | .exit c => ∀ i, uses (s.mqmask c) i = false
  | .wait c _ _ => ∀ i, s.asked c i = false
  | .exec c => ∀ i, uses (s.mqmask c) i = true ↔ findkey s.queues.mqs (s.mqmask c) = some i
  | _ => True

instance (s : State) (op : Op) : Decidable (Careful s op) := by
  cases op <;> dsimp only [Careful] <;> infer_instance

/-! ## The queues -/

theorem uses_zero (i : Queue) : uses 0 i = false := by
  simp [uses]

theorem uses_setUse (mask : BitVec 32) (i j : Queue) :
    uses (setUse mask i) j = (uses mask j || decide (j = i)) := by
  have hi := i.isLt
  have hj := j.isLt
  unfold MQMAX at hi hj
  simp only [uses, setUse, BitVec.getLsbD_or, BitVec.getLsbD_shiftLeft, BitVec.getLsbD_one]
  congr 1
  obtain rfl | hij := eq_or_ne j i
  · simp
    omega
  have hne : j.val ≠ i.val := fun he => hij (Fin.ext he)
  simp only [hij, decide_false]
  by_cases hlt : j.val < i.val
  · simp [hlt]
  · simp
    omega

theorem findkey_some {mqs : Queue → Mq} {key : BitVec 32} {i : Queue}
    (h : findkey mqs key = some i) :
    (mqs i).status = true := by
  have hp := find?_some h
  simp only [Bool.and_eq_true] at hp
  exact hp.1

theorem findfree_some {mqs : Queue → Mq} {i : Queue} (h : findfree mqs = some i) :
    (mqs i).status = false := by
  have hp := find?_some h
  simpa using hp

section Counts
variable {q : Queues} {n : Queue → Nat} {i : Queue}

theorem Counts.recount (h : Counts q n) (hi : 0 < n i) {k : Nat} (hk : 0 < k) :
    Counts (q.set i { q.mqs i with refcount := k }) (update n i k) := by
  have hpos : ∀ j, 0 < update n i k j ↔ 0 < n j := by
    intro j
    obtain rfl | hj := eq_or_ne j i
    · simp [hi, hk]
    · rw [update_of_ne hj]
  have hmsgs : ∀ j, ((q.set i { q.mqs i with refcount := k }).mqs j).msgs = (q.mqs j).msgs := by
    intro j
    obtain rfl | hj := eq_or_ne j i
    · simp
    · simp [hj]
  refine ⟨?_, ?_, ?_, ?_, ?_⟩
  · intro j
    obtain rfl | hj := eq_or_ne j i
    · simp
    · simp [hj, h.refcount j]
  · intro j
    rw [hpos]
    obtain rfl | hj := eq_or_ne j i
    · simp [h.status j]
    · simp [hj, h.status j]
  · intro j hj
    rw [hmsgs]
    exact h.page j ((hpos j).mp hj)
  · intro p hp
    obtain ⟨j, hj, hm⟩ := h.owned p hp
    exact ⟨j, (hpos j).mpr hj, (hmsgs j).trans hm⟩
  · intro j j' p hj hj' hm hm'
    rw [hmsgs] at hm hm'
    exact h.distinct j j' p ((hpos j).mp hj) ((hpos j').mp hj') hm hm'

theorem Counts.remove (h : Counts q n) (hi : n i = 1) :
    Counts (rmmq (q.set i { q.mqs i with refcount := 0 }) i) (update n i 0) := by
  obtain ⟨p, hp, hpage⟩ := h.page i (by omega)
  have hset : (rmmq (q.set i { q.mqs i with refcount := 0 }) i).mqs =
      update q.mqs i { q.mqs i with refcount := 0, status := false } := by
    simp [rmmq]
  have hpages : (rmmq (q.set i { q.mqs i with refcount := 0 }) i).pages =
      update q.pages p false := by
    simp [rmmq, hp]
  have hne : ∀ j, 0 < update n i 0 j → j ≠ i ∧ 0 < n j := by
    intro j hj
    have hji : j ≠ i := by
      rintro rfl
      simp at hj
    rw [update_of_ne hji] at hj
    exact ⟨hji, hj⟩
  refine ⟨?_, ?_, ?_, ?_, ?_⟩
  · intro j
    rw [hset]
    obtain rfl | hj := eq_or_ne j i
    · simp
    · simp [hj, h.refcount j]
  · intro j
    rw [hset]
    obtain rfl | hj := eq_or_ne j i
    · simp
    · simp [hj, h.status j]
  · intro j hj
    obtain ⟨hji, hn⟩ := hne j hj
    obtain ⟨p', hp', hpage'⟩ := h.page j hn
    have hpp : p' ≠ p := fun he => hji (h.distinct j i p hn (by omega) (he ▸ hp') hp)
    rw [hset, hpages, update_of_ne hji]
    exact ⟨p', hp', by rw [update_of_ne hpp]; exact hpage'⟩
  · intro p' hp'
    rw [hpages] at hp'
    have hpp : p' ≠ p := by
      rintro rfl
      simp at hp'
    rw [update_of_ne hpp] at hp'
    obtain ⟨j, hj, hm⟩ := h.owned p' hp'
    have hji : j ≠ i := by
      rintro rfl
      rw [hp] at hm
      exact hpp (some.inj hm).symm
    refine ⟨j, by rw [update_of_ne hji]; exact hj, ?_⟩
    rw [hset, update_of_ne hji]
    exact hm
  · intro j j' p' hj hj' hm hm'
    obtain ⟨hji, hn⟩ := hne j hj
    obtain ⟨hji', hn'⟩ := hne j' hj'
    rw [hset, update_of_ne hji] at hm
    rw [hset, update_of_ne hji'] at hm'
    exact h.distinct j j' p' hn hn' hm hm'

theorem Counts.dropRef (h : Counts q n) (hi : 0 < n i) :
    Counts (dropRef q i) (update n i (n i - 1)) := by
  have href : (q.mqs i).refcount - 1 = ((n i - 1 : Nat) : Int) := by
    rw [h.refcount i]
    omega
  simp only [MqRefs.dropRef, href]
  by_cases hone : n i = 1
  · rw [if_pos (by simp [hone])]
    have hr := h.remove hone
    simp only [hone]
    exact hr
  · rw [if_neg (by simp only [Queues.set, update_self]; omega)]
    exact h.recount hi (by omega)

theorem Counts.dropAll (mask : BitVec 32) : ∀ (l : List Queue) (q : Queues) (n : Queue → Nat),
    l.Nodup → Counts q n → (∀ i ∈ l, uses mask i = true → 0 < n i) →
    Counts (l.foldl (fun q i => if uses mask i then MqRefs.dropRef q i else q) q)
      (fun i => if i ∈ l ∧ uses mask i = true then n i - 1 else n i) := by
  intro l
  induction l with
  | nil =>
    intro q n _ h _
    simpa using h
  | cons a l ih =>
    intro q n hnd h hpos
    obtain ⟨ha, hnd⟩ := nodup_cons.mp hnd
    rw [foldl_cons]
    by_cases hu : uses mask a = true
    · rw [if_pos hu]
      have hd := h.dropRef (hpos a (mem_cons_self ..) hu)
      have hrest := ih _ _ hnd hd fun i hi hui => by
        have hia : i ≠ a := fun he => ha (he ▸ hi)
        rw [update_of_ne hia]
        exact hpos i (mem_cons_of_mem _ hi) hui
      convert hrest using 1
      funext i
      obtain rfl | hia := eq_or_ne i a
      · simp [hu, ha]
      · simp [hia]
    · rw [if_neg hu]
      have hrest := ih _ _ hnd h fun i hi hui => hpos i (mem_cons_of_mem _ hi) hui
      convert hrest using 1
      funext i
      obtain rfl | hia := eq_or_ne i a
      · simp [hu]
      · simp [hia]

theorem Counts.releasemq2 (h : Counts q n) {mask : BitVec 32}
    (hpos : ∀ i, uses mask i = true → 0 < n i) :
    Counts (releasemq2 q mask) (fun i => if uses mask i = true then n i - 1 else n i) := by
  have hd := Counts.dropAll mask (finRange MQMAX) q n (nodup_finRange _) h
    fun i _ hi => hpos i hi
  simp only [mem_finRange, true_and] at hd
  exact hd

theorem Counts.addmqcount (h : Counts q n) (mask : BitVec 32)
    (hpos : ∀ i, uses mask i = true → 0 < n i) :
    Counts (addmqcount q mask) (fun i => n i + if uses mask i = true then 1 else 0) := by
  have hmsgs : ∀ j, ((MqRefs.addmqcount q mask).mqs j).msgs = (q.mqs j).msgs := by
    intro j
    simp only [MqRefs.addmqcount]
    split <;> rfl
  have hn : ∀ j, 0 < n j + (if uses mask j = true then 1 else 0) ↔ 0 < n j := by
    intro j
    by_cases hu : uses mask j = true
    · have := hpos j hu
      simp [hu, this]
    · simp [hu]
  refine ⟨?_, ?_, ?_, ?_, ?_⟩
  · intro j
    have hr := h.refcount j
    simp only [MqRefs.addmqcount]
    split <;> simp [hr]
  · intro j
    rw [hn, ← h.status j]
    simp only [MqRefs.addmqcount]
    split <;> rfl
  · intro j hj
    rw [hmsgs]
    exact h.page j ((hn j).mp hj)
  · intro p hp
    obtain ⟨j, hj, hm⟩ := h.owned p hp
    exact ⟨j, (hn j).mpr hj, (hmsgs j).trans hm⟩
  · intro j j' p hj hj' hm hm'
    rw [hmsgs] at hm hm'
    exact h.distinct j j' p ((hn j).mp hj) ((hn j').mp hj') hm hm'

theorem Counts.create (h : Counts q n) (hfree : (q.mqs i).status = false) {p : Nat}
    (hp : q.pages p = false) (key : BitVec 32) : Counts
      { mqs := update q.mqs i ⟨key, true, some p, 1⟩
        pages := update q.pages p true } (update n i 1) := by
  have hother : ∀ j p', 0 < n j → (q.mqs j).msgs = some p' → p' ≠ p := by
    rintro j p' hj hm rfl
    obtain ⟨p'', hm'', hpage⟩ := h.page j hj
    rw [hm] at hm''
    cases hm''
    rw [hp] at hpage
    cases hpage
  have hpos : ∀ j, j ≠ i → update n i 1 j = n j := fun j hj => update_of_ne hj _ _
  refine ⟨?_, ?_, ?_, ?_, ?_⟩
  · intro j
    obtain rfl | hj := eq_or_ne j i
    · simp
    · simp [hj, h.refcount j]
  · intro j
    obtain rfl | hj := eq_or_ne j i
    · simp
    · simp [hj, h.status j]
  · intro j hj
    obtain rfl | hji := eq_or_ne j i
    · exact ⟨p, by simp, by simp⟩
    rw [hpos j hji] at hj
    obtain ⟨p', hm, hpage⟩ := h.page j hj
    refine ⟨p', by simp only [update_of_ne hji]; exact hm, ?_⟩
    simp only [update_of_ne (hother j p' hj hm)]
    exact hpage
  · intro p' hp'
    by_cases hpp : p' = p
    · subst hpp
      exact ⟨i, by simp, by simp⟩
    simp only [update_of_ne hpp] at hp'
    obtain ⟨j, hj, hm⟩ := h.owned p' hp'
    have hji : j ≠ i := by
      rintro rfl
      have := (h.status j).mpr hj
      rw [hfree] at this
      cases this
    exact ⟨j, by rw [hpos j hji]; exact hj, by simp only [update_of_ne hji]; exact hm⟩
  · intro j j' p' hj hj' hm hm'
    by_cases hji : j = i
    · by_cases hji' : j' = i
      · rw [hji, hji']
      simp only [hji, update_self, some.injEq] at hm
      simp only [update_of_ne hji'] at hm'
      rw [hpos j' hji'] at hj'
      exact absurd hm.symm (hother j' p' hj' hm')
    simp only [update_of_ne hji] at hm
    rw [hpos j hji] at hj
    by_cases hji' : j' = i
    · simp only [hji', update_self, some.injEq] at hm'
      exact absurd hm'.symm (hother j p' hj hm)
    simp only [update_of_ne hji'] at hm'
    rw [hpos j' hji'] at hj'
    exact h.distinct j j' p' hj hj' hm hm'

theorem Counts.setMsgs (h : Counts q n) (hfree : (q.mqs i).status = false) (m : Option Nat) :
    Counts (q.set i { q.mqs i with msgs := m }) n := by
  have hzero : ¬ 0 < n i := fun hn => by
    have := (h.status i).mpr hn
    rw [hfree] at this
    cases this
  have hne : ∀ j, 0 < n j → j ≠ i := fun j hj he => hzero (he ▸ hj)
  refine ⟨?_, ?_, ?_, ?_, ?_⟩
  · intro j
    obtain rfl | hj := eq_or_ne j i
    · simp [h.refcount j]
    · simp [hj, h.refcount j]
  · intro j
    obtain rfl | hj := eq_or_ne j i
    · simp [h.status j]
    · simp [hj, h.status j]
  · intro j hj
    simp only [Queues.set, update_of_ne (hne j hj)]
    exact h.page j hj
  · intro p hp
    obtain ⟨j, hj, hm⟩ := h.owned p hp
    exact ⟨j, hj, by simp only [Queues.set, update_of_ne (hne j hj)]; exact hm⟩
  · intro j j' p hj hj' hm hm'
    simp only [Queues.set, update_of_ne (hne j hj)] at hm
    simp only [Queues.set, update_of_ne (hne j' hj')] at hm'
    exact h.distinct j j' p hj hj' hm hm'

end Counts

/-! ## The steps -/

structure Inv (s : State) : Prop extends Exact s where
  first : s.life proc0 = .live

section Steps
variable {s s' : State}

variable {c : Slot}

theorem holders_eq {l : Life} {m : BitVec 32} {i : Queue} {k : Nat}
    (hlife : s'.life = update s.life c l) (hmask : s'.mqmask = update s.mqmask c m)
    (hk : k + holds i (s.masks c) = holders s i + holds i (l, m)) : holders s' i = k := by
  have hmasks : s'.masks = update s.masks c (l, m) := by
    funext p
    obtain rfl | hp := eq_or_ne p c
    · simp [hlife, hmask]
    · simp [hlife, hmask, hp]
  have hcount := tally_update (holds i) s.masks c (l, m)
  rw [← hmasks] at hcount
  unfold holders at hk ⊢
  omega

theorem holds_live (hc : s.life c = .live) (i : Queue) :
    holds i (s.masks c) = if uses (s.mqmask c) i = true then 1 else 0 := by
  simp [holds, hc]

theorem holds_not_live {p : Life × BitVec 32} (hp : p.1 ≠ .live) (i : Queue) : holds i p = 0 := by
  simp [holds, hp]

theorem holders_pos (hc : s.life c = .live) {i : Queue}
    (hu : uses (s.mqmask c) i = true) : 0 < holders s i := by
  have hle := le_tally (holds i) s.masks c
  rw [holds_live hc, if_pos hu] at hle
  exact hle

theorem Inv.ask (hi : Inv s) {i : Queue} (hc : s.life c = .live) (hu : uses (s.mqmask c) i = true) :
    Inv { s with asked := update s.asked c (update (s.asked c) i true) } := by
  refine ⟨⟨hi.counts, ?_⟩, hi.first⟩
  intro c' j hask
  by_cases hcc : c' = c
  · subst hcc
    obtain rfl | hj := eq_or_ne j i
    · exact ⟨hc, hu⟩
    · simp only [update_self, update_of_ne hj] at hask
      exact hi.asked c' j hask
  · simp only [update_of_ne hcc] at hask
    exact hi.asked c' j hask

theorem uses_setUse_of {mask : Slot → BitVec 32} {i j : Queue} (hu : uses (mask c) j = true) :
    uses (update mask proc0 (setUse (mask proc0) i) c) j = true := by
  obtain rfl | hc := eq_or_ne c proc0
  · rw [update_self, uses_setUse, hu]
    rfl
  · rw [update_of_ne hc]
    exact hu

theorem Inv.setBit (hi : Inv s) {i : Queue} {q : Queues} (hnew : uses (s.mqmask proc0) i = false)
    (hq : Counts q (update (holders s) i (holders s i + 1))) :
    Inv { s with
      queues := q
      mqmask := update s.mqmask proc0 (setUse (s.mqmask proc0) i) } := by
  refine ⟨⟨?_, ?_⟩, hi.first⟩
  · convert hq using 1
    funext j
    refine holders_eq (s := s) (l := .live) (by rw [← hi.first, update_eq_self]) rfl ?_
    rw [holds_live hi.first]
    simp only [holds, uses_setUse, true_and]
    obtain rfl | hj := eq_or_ne j i
    · simp [hnew]
    · simp [hj]
  · intro c j hask
    obtain ⟨hlive, hu⟩ := hi.asked c j hask
    exact ⟨hlive, uses_setUse_of hu⟩

theorem Inv.newmq (hi : Inv s) (key : BitVec 32) {page : Option Nat}
    (hpage : ∀ p ∈ page, s.queues.pages p = false) : Inv (newmq s key page).1 ∧
    ∀ i, (newmq s key page).2 = some i → uses ((newmq s key page).1.mqmask proc0) i = true := by
  unfold MqRefs.newmq
  cases hfree : findfree s.queues.mqs with
  | none => exact ⟨hi, by rintro _ ⟨⟩⟩
  | some i =>
    have hstatus := findfree_some hfree
    have hzero : holders s i = 0 := by
      have hs := hi.counts.status i
      rw [hstatus] at hs
      simpa using hs
    cases page with
    | none => exact ⟨⟨⟨hi.counts.setMsgs hstatus none, hi.asked⟩, hi.first⟩, by rintro _ ⟨⟩⟩
    | some p =>
      have hnew : uses (s.mqmask proc0) i = false := by
        by_contra hu
        have := holders_pos hi.first (Bool.eq_true_of_not_eq_false hu)
        omega
      refine ⟨hi.setBit hnew ?_, ?_⟩
      · rw [hzero]
        exact hi.counts.create hstatus (hpage p rfl) key
      · rintro j ⟨⟩
        simp [uses_setUse]

theorem newmq_asked (s : State) (key : BitVec 32) (page : Option Nat) :
    (newmq s key page).1.life = s.life ∧
      ∀ c i, uses (s.mqmask c) i = true → uses ((newmq s key page).1.mqmask c) i = true := by
  unfold newmq
  cases findfree s.queues.mqs with
  | none => exact ⟨rfl, fun _ _ h => h⟩
  | some i =>
    cases page with
    | none => exact ⟨rfl, fun _ _ h => h⟩
    | some p => exact ⟨rfl, fun _ _ h => uses_setUse_of h⟩

theorem mqget_wanted (s : State) (key : BitVec 32) (page : Option Nat) :
    (mqget s key page).2 = wanted s key page := by
  unfold mqget wanted newmq
  cases findkey s.queues.mqs key with
  | none => cases findfree s.queues.mqs <;> cases page <;> rfl
  | some i =>
    dsimp only
    split <;> rfl

section
variable (hi : Inv s)
include hi

theorem Inv.mqget (key : BitVec 32) {page : Option Nat}
    (hpage : ∀ p ∈ page, s.queues.pages p = false) : Inv (mqget s key page).1 ∧
    (mqget s key page).1.life = s.life ∧
    (∀ c i, uses (s.mqmask c) i = true → uses ((mqget s key page).1.mqmask c) i = true) ∧
    ∀ i, (mqget s key page).2 = some i → uses ((mqget s key page).1.mqmask proc0) i = true := by
  unfold MqRefs.mqget
  cases hkey : findkey s.queues.mqs key with
  | none =>
    obtain ⟨hnew, hbit⟩ := hi.newmq key hpage
    obtain ⟨hlife, hkeep⟩ := newmq_asked s key page
    exact ⟨hnew, hlife, hkeep, hbit⟩
  | some i =>
    by_cases hu : uses (s.mqmask proc0) i = true
    · dsimp only
      rw [if_pos hu]
      refine ⟨hi, rfl, fun _ _ h => h, ?_⟩
      rintro j ⟨⟩
      exact hu
    dsimp only
    rw [if_neg hu]
    have hpos : 0 < holders s i := (hi.counts.status i).mp (findkey_some hkey)
    refine ⟨hi.setBit (Bool.eq_false_of_not_eq_true hu) ?_, rfl, fun _ _ h => uses_setUse_of h, ?_⟩
    · rw [hi.counts.refcount i]
      exact hi.counts.recount hpos (Nat.succ_pos _)
    · rintro j ⟨⟩
      simp [uses_setUse]

theorem Inv.fork {np : Slot} (hc : s.life c = .live) (hnp : s.life np = .unused) : Inv
      { queues := addmqcount s.queues (s.mqmask c)
        life := update s.life np .live
        parent := update s.parent np (some c)
        mqmask := update s.mqmask np (s.mqmask c)
        asked := update s.asked np nothing } := by
  have hne : ∀ {p}, s.life p = .live → p ≠ np := by
    rintro p hp rfl
    rw [hnp] at hp
    cases hp
  refine ⟨⟨?_, ?_⟩, ?_⟩
  · convert hi.counts.addmqcount (s.mqmask c) (fun i hu => holders_pos hc hu) using 1
    funext i
    refine holders_eq (s := s) rfl rfl ?_
    rw [holds_not_live (p := s.masks np) (by simp [hnp])]
    simp [holds]
  · intro p i hask
    have hp : p ≠ np := by
      rintro rfl
      simp [nothing] at hask
    simp only [update_of_ne hp] at hask ⊢
    exact hi.asked p i hask
  · simp only [update_of_ne (hne hi.first)]
    exact hi.first

theorem Inv.idle (np : Slot) (l : Life) (m : BitVec 32)
    (hnp : s.life np ≠ .live) (hl : l ≠ .live) (parent : Slot → Option Slot) :
    Inv { s with
      life := update s.life np l
      parent := parent
      mqmask := update s.mqmask np m } := by
  have hne : ∀ {p}, s.life p = .live → p ≠ np := fun hp he => hnp (he ▸ hp)
  refine ⟨⟨?_, ?_⟩, ?_⟩
  · convert hi.counts using 1
    funext i
    refine holders_eq (s := s) rfl rfl ?_
    rw [holds_not_live (p := (l, m)) hl, holds_not_live (p := s.masks np) hnp]
  · intro p i hask
    obtain ⟨hlive, hu⟩ := hi.asked p i hask
    simp only [update_of_ne (hne hlive)]
    exact ⟨hlive, hu⟩
  · simp only [update_of_ne (hne hi.first)]
    exact hi.first

theorem Inv.clear {q : Queues} {asked : Slot → Queue → Bool} (hc : s.life c = .live)
    (hq : Counts q fun i => if uses (s.mqmask c) i = true then holders s i - 1 else holders s i)
    (hnone : ∀ i, asked c i = false) (hasked : ∀ p, p ≠ c → asked p = s.asked p) :
    Inv { s with queues := q, mqmask := update s.mqmask c 0, asked := asked } := by
  refine ⟨⟨?_, ?_⟩, hi.first⟩
  · convert hq using 1
    funext i
    refine holders_eq (s := s) (l := .live) (by rw [← hc, update_eq_self]) rfl ?_
    rw [holds_live hc]
    simp only [holds, uses_zero, Bool.false_eq_true, and_false, if_false]
    by_cases hu : uses (s.mqmask c) i = true
    · have := holders_pos hc hu
      simp only [hu, if_true]
      omega
    · simp [hu]
  · intro p i hask
    have hp : p ≠ c := by
      rintro rfl
      exact Bool.false_ne_true ((hnone i).symm.trans hask)
    simp only [update_of_ne hp]
    exact hi.asked p i ((congrFun (hasked p hp) i).symm.trans hask)

theorem Inv.exec (hc : s.life c = .live)
    (hkey : ∀ i, uses (s.mqmask c) i = true ↔ findkey s.queues.mqs (s.mqmask c) = some i) :
    Inv { s with
      queues := releasemq s.queues (s.mqmask c)
      mqmask := update s.mqmask c 0
      asked := update s.asked c nothing } := by
  refine hi.clear hc ?_ ?_ fun p hp => update_of_ne hp _ _
  · unfold releasemq
    cases hfind : findkey s.queues.mqs (s.mqmask c) with
    | none =>
      rw [hfind] at hkey
      simp only [reduceCtorEq, iff_false] at hkey
      simp only [hkey]
      exact hi.counts
    | some i =>
      rw [hfind] at hkey
      convert hi.counts.dropRef (holders_pos hc ((hkey i).mpr rfl)) using 1
      funext j
      obtain rfl | hj := eq_or_ne j i
      · rw [if_pos ((hkey j).mpr rfl), update_self]
      · rw [if_neg fun hu => hj (some.inj ((hkey j).mp hu)).symm, update_of_ne hj]
  · intro i
    rw [update_self]
    rfl

theorem Inv.exit (hc : c ≠ proc0)
    (hbits : ∀ i, uses (s.mqmask c) i = false) (parent : Slot → Option Slot) :
    Inv { s with
      life := update s.life c .zombie
      parent := parent
      asked := update s.asked c nothing } := by
  refine ⟨⟨?_, ?_⟩, ?_⟩
  · convert hi.counts using 1
    funext i
    refine holders_eq (s := s) rfl (by rw [update_eq_self]) ?_
    rw [holds_not_live (p := (.zombie, _)) (by rintro ⟨⟩)]
    simp [holds, hbits i]
  · intro p i hask
    have hp : p ≠ c := by
      rintro rfl
      simp [nothing] at hask
    simp only [update_of_ne hp] at hask ⊢
    exact hi.asked p i hask
  · simp only [update_of_ne hc.symm]
    exact hi.first

theorem Inv.wait (hc : s.life c = .live) (hnone : ∀ i, s.asked c i = false) :
    Inv { s with
      queues := releasemq2 s.queues (s.mqmask c)
      mqmask := update s.mqmask c 0 } :=
  hi.clear hc (hi.counts.releasemq2 fun _ hu => holders_pos hc hu) hnone fun _ _ => rfl

theorem Inv.step (op : Op) (hgood : Careful s op) (h : step s op = some s') :
    Inv s' := by
  cases op with
  | mqget c key page =>
    simp only [MqRefs.step, ite_none_right_eq_some] at h
    obtain ⟨⟨hc, hpage⟩, h⟩ := h
    obtain ⟨hget, hlife, hkeep, hbit⟩ := hi.mqget key hpage
    simp only [Careful] at hgood
    cases hret : (MqRefs.mqget s key page).2 with
    | none =>
      simp only [hret, some.injEq] at h
      subst h
      exact hget
    | some i =>
      simp only [hret, some.injEq] at h
      subst h
      refine hget.ask (by rw [hlife]; exact hc) ?_
      rcases hgood i (by rw [← mqget_wanted, hret]) with rfl | hu
      · exact hbit i hret
      · exact hkeep c i hu
  | fork c np =>
    obtain ⟨⟨hc, hnp⟩, ⟨⟩⟩ := ite_none_right_eq_some.mp h
    exact hi.fork hc hnp
  | forkFails c np =>
    obtain ⟨⟨-, hnp⟩, ⟨⟩⟩ := ite_none_right_eq_some.mp h
    have hidle := hi.idle np .unused 0 (by rw [hnp]; rintro ⟨⟩) (by rintro ⟨⟩)
      s.parent
    rw [← hnp, update_eq_self] at hidle
    exact hidle
  | exec c =>
    obtain ⟨hc, ⟨⟩⟩ := ite_none_right_eq_some.mp h
    exact hi.exec hc hgood
  | exit c =>
    obtain ⟨⟨-, hc⟩, ⟨⟩⟩ := ite_none_right_eq_some.mp h
    exact hi.exit hc hgood _
  | wait c np ok =>
    obtain ⟨⟨hc, -, hnp⟩, ⟨⟩⟩ := ite_none_right_eq_some.mp h
    have hwait := hi.wait hc hgood
    cases ok with
    | false => exact hwait
    | true =>
      have hidle := hwait.idle np .unused (update s.mqmask c 0 np) (by rw [hnp]; rintro ⟨⟩)
        (by rintro ⟨⟩) (update s.parent np none)
      rw [update_eq_self] at hidle
      exact hidle

end

end Steps

theorem inv_boot : Inv boot := by
  have hzero : ∀ i, holders boot i = 0 := by
    intro i
    rw [holders, tally_eq_zero]
    intro c
    simp [holds, boot, uses]
  refine ⟨⟨⟨?_, ?_, ?_, ?_, ?_⟩, ?_⟩, ?_⟩
  · intro i
    rw [hzero]
    rfl
  · intro i
    rw [hzero]
    simp [boot]
  · intro i hpos
    rw [hzero] at hpos
    cases hpos
  · rintro p ⟨⟩
  · intro i j p hpos
    rw [hzero] at hpos
    cases hpos
  · rintro c i ⟨⟩
  · simp [boot]

/-- In every run of calls that are careful the counts of the queues are exact. -/
theorem mq_counts_exact (ops : List Op) (s : State) (hgood : Along step Careful boot ops)
    (hrun : run step boot ops = some s) : Exact s :=
  (along_invariant (I := Inv) (fun _ op _ hi hg h => hi.step op hg h) ops boot s inv_boot
    hgood hrun).toExact

def mq0 : Queue := ⟨0, by decide⟩

def handover : List Op :=
  [.mqget proc0 1 (some 7), .fork proc0 1, .mqget 1 1 none, .exec 1, .fork 1 2, .exit 2,
    .wait 1 2 true]

theorem mq_counts_exact_handover : ∃ s, run step boot handover = some s ∧
    ((s.queues.mqs mq0).refcount = 1 ∧ s.mqmask proc0 = 1 ∧ s.life 2 = .unused) ∧ Exact s := by
  obtain ⟨s, hrun, hs⟩ := run_test step boot handover
    (fun s => (s.queues.mqs mq0).refcount = 1 ∧ s.mqmask proc0 = 1 ∧ s.life 2 = .unused)
    (by decide +kernel)
  exact ⟨s, hrun, hs, mq_counts_exact handover s (by decide +kernel) hrun⟩

/-- A child that calls `mqget` gets no bit.  A child that exits with an inherited bit stays
counted.  A process that waits for a child loses the queue that it asked for. -/
theorem mq_counts_wrong :
    (∃ s, run step boot [.fork proc0 1, .mqget 1 5 (some 7)] = some s ∧
      s.asked 1 mq0 = true ∧ uses (s.mqmask 1) mq0 = false) ∧
    (∃ s, run step boot [.mqget proc0 5 (some 7), .fork proc0 1, .exit 1] = some s ∧
      (s.queues.mqs mq0).refcount = 2 ∧ holders s mq0 = 1) ∧ (∃ s, run step boot
      [.fork proc0 1, .mqget proc0 5 (some 7), .exit 1, .wait proc0 1 true] = some s ∧
        s.asked proc0 mq0 = true ∧ uses (s.mqmask proc0) mq0 = false ∧
        (s.queues.mqs mq0).status = false ∧ s.queues.pages 7 = false) := by
  refine ⟨?_, ?_, ?_⟩
  · exact run_test step boot _
      (fun s => s.asked 1 mq0 = true ∧ uses (s.mqmask 1) mq0 = false) (by decide +kernel)
  · exact run_test step boot _
      (fun s => (s.queues.mqs mq0).refcount = 2 ∧ holders s mq0 = 1) (by decide +kernel)
  · exact run_test step boot _
      (fun s => s.asked proc0 mq0 = true ∧ uses (s.mqmask proc0) mq0 = false ∧
        (s.queues.mqs mq0).status = false ∧ s.queues.pages 7 = false) (by decide +kernel)

end BirdOS.MqRefs
