import BirdOS.Lib.ByteMem
import BirdOS.Lib.LinkedList
import BirdOS.Lib.Machine
import BirdOS.Param

/-! # Message queues (`messagequeue.c`)

A queue is one page of kernel memory.  `struct msg` has its link at byte 0, the type at
8, the data pointer at 16 and the size at 24, while messages are placed with a header of
16 bytes, so the data of a message and the header of the next one lie over the last two
fields.  The page is modelled byte by byte; a loop over the links has one unit of fuel
for every address, so it runs out of it only when it does not end.

`queue` and `deliveries` record what was sent and what each receiver got and should have
got; no code reads them. -/

namespace BirdOS.Messagequeue

open Machine ByteMem LinkedList
open List hiding Chain

def ptrAdd (a : Nat) (d : Int) : Nat := ((a + d) % 2 ^ 64).toNat

structure Page where
  addr : Nat
  low : KERNBASE ≤ addr
  high : addr + PGSIZE ≤ PHYSTOP

structure Mq where
  msgs : Nat
  curbytes : Int
  mem : Mem

def next (mem : Mem) (m : Nat) : Nat := load mem m 8

def type (mem : Mem) (m : Nat) : Int := Int.bmod (load mem (m + 8) 8) (2 ^ 64)

def dataaddr (mem : Mem) (m : Nat) : Nat := load mem (m + 16) 8

def datasize (mem : Mem) (m : Nat) : Int := wrap32 (load mem (m + 24) 4)

def setNext (mem : Mem) (m v : Nat) : Mem := store mem m 8 v

def setType (mem : Mem) (m : Nat) (v : Int) : Mem := store mem (m + 8) 8 (v % 2 ^ 64).toNat

def setDataaddr (mem : Mem) (m v : Nat) : Mem := store mem (m + 16) 8 v

def setDatasize (mem : Mem) (m : Nat) (v : Int) : Mem := store mem (m + 24) 4 (v % 2 ^ 32).toNat

def addresses : Nat := 2 ^ 64

def newmq (page : Page) (mem : Mem) : Mq where
  msgs := page.addr
  curbytes := 16
  mem := setDatasize (setNext (fill mem page.addr PGSIZE 0) page.addr 0) page.addr 0

def lastMsg (mem : Mem) : Nat → Nat → Option Nat
  | 0, _ => none
  | f + 1, m => if next mem m = 0 then some m else lastMsg mem f (next mem m)

/-- `none` when the sender sleeps. -/
def msgsnd (q : Mq) (t : Int) (data : List UInt8) : Option Mq :=
  let sz : Int := data.length
  if wrap32 (wrap32 (q.curbytes + sz) + 16) ≤ PGSIZE then
    match lastMsg q.mem addresses q.msgs with
    | none => none
    | some last =>
      let mem := setNext q.mem last (ptrAdd (ptrAdd last (datasize q.mem last)) 16)
      let m := next mem last
      let mem := setType mem m t
      let mem := setNext mem m 0
      let mem := setDataaddr mem m (ptrAdd m 16)
      let mem := setDatasize mem m sz
      let mem := put mem (dataaddr mem m) data
      some { q with mem := mem, curbytes := wrap32 (q.curbytes + wrap32 (sz + 16)) }
  else none

def findMsg (mem : Mem) (t : Int) : Nat → Nat → Nat → Option (Option (Nat × Nat))
  | 0, _, _ => none
  | f + 1, pre, m =>
    if m = 0 then some none
    else if type mem m = t then some (some (pre, m))
    else findMsg mem t f m (next mem m)

def relocLoop : Nat → Mem → Nat → Nat → Nat → Option Mem
  | 0, _, _, _, _ => none
  | f + 1, mem, pages, pre, m =>
    if m = 0 then some (setNext mem pre 0)
    else
      let t := next mem m
      let mem := move mem pages m ((datasize mem m + 16) % 2 ^ 32).toNat
      let mem := setNext mem pages (ptrAdd (ptrAdd pages (datasize mem pages)) 16)
      let mem := setDataaddr mem pages (ptrAdd pages 16)
      relocLoop f mem (next mem pages) pages t

def reloc (mem : Mem) (msgs : Nat) : Option Mem := relocLoop addresses mem msgs msgs msgs

/-- The bytes that the receiver got; `some none` when there is no message of the type. -/
def msgrcv (q : Mq) (t : Int) (sz : Nat) : Option (Option (Mq × List UInt8)) :=
  match findMsg q.mem t addresses q.msgs (next q.mem q.msgs) with
  | none => none
  | some none => some none
  | some (some (pre, m)) =>
    let got := bytes q.mem (dataaddr q.mem m) sz
    let mem := setNext q.mem pre (next q.mem m)
    let curbytes := wrap32 (q.curbytes - wrap32 (datasize mem m + 16))
    (reloc mem q.msgs).map fun mem => some ({ q with mem := mem, curbytes := curbytes }, got)

structure Msg where
  type : Int
  data : List UInt8
  deriving DecidableEq

structure Delivery where
  sz : Nat
  got : List UInt8
  due : Option Msg
  deriving DecidableEq

structure State where
  mq : Mq
  queue : List Msg
  deliveries : List Delivery

inductive Op where
  | snd (type : Int) (data : List UInt8)
  | rcv (type : Int) (sz : Nat)

def step (s : State) : Op → Option State
  | .snd t data =>
    (msgsnd s.mq t data).map fun q => { s with mq := q, queue := s.queue ++ [⟨t, data⟩] }
  | .rcv t sz =>
    (msgrcv s.mq t sz).map fun r =>
      match r with
      | none => s
      | some (q, got) =>
        { mq := q
          queue := s.queue.eraseP fun m => decide (m.type = t)
          deliveries := ⟨sz, got, s.queue.find? fun m => decide (m.type = t)⟩ :: s.deliveries }

def start (page : Page) (mem : Mem) : State := ⟨newmq page mem, [], []⟩

/-! ## What a queue should be -/

def nextPtr (mem : Mem) (m : Nat) : Option Nat := if next mem m = 0 then none else some (next mem m)

/-- The page holds the messages `ms` at the addresses `as`, in order and inside the page.  They
are apart as the code counts: 16 bytes of header, then the data. -/
structure Represents (page : Page) (q : Mq) (ms : List Msg) (as : List Nat) : Prop where
  chain : Chain (nextPtr q.mem) (nextPtr q.mem q.msgs) as
  content : Forall₂ (fun a m => type q.mem a = m.type ∧
    bytes q.mem (a + 16) m.data.length = m.data) as ms
  inside : Forall₂ (fun a m => page.addr ≤ a ∧ a + 32 ≤ page.addr + PGSIZE ∧
    a + 16 + m.data.length ≤ page.addr + PGSIZE) as ms
  apart : (as.zip ms).Pairwise fun x y => x.1 + 16 + x.2.data.length ≤ y.1

def Delivery.ok (d : Delivery) : Prop := ∃ m, d.due = some m ∧ d.got = m.data.take d.sz

def Delivers (page : Page) (s : State) : Prop :=
  (∃ as, Represents page s.mq s.queue as) ∧ ∀ d ∈ s.deliveries, d.ok

/-- Types and sizes are zero, with room for the last record's data pointer and size; a receiver
that finds a message asks for no bytes. -/
def Blank (s : State) : Op → Prop
  | .snd t data => t = 0 ∧ data = [] ∧ s.mq.curbytes + 32 ≤ PGSIZE
  | .rcv t sz => sz = 0 ∨ ∀ m ∈ s.queue, m.type ≠ t

instance (s : State) (op : Op) : Decidable (Blank s op) := by
  cases op <;> dsimp only [Blank] <;> infer_instance

/-! ## Blank queues -/

/-- The page at `base` with `k` messages of type and size zero, 16 bytes apart. -/
structure Flat (base : Nat) (q : Mq) (k : Nat) : Prop where
  msgs : q.msgs = base
  room : 16 * k + 32 ≤ PGSIZE
  curbytes : q.curbytes = 16 * (k + 1)
  link : ∀ i, i < k → next q.mem (base + 16 * i) = base + 16 * (i + 1)
  last : next q.mem (base + 16 * k) = 0
  zero : ∀ i, i ≤ k → load q.mem (base + 16 * i + 8) 8 = 0
  size : load q.mem (base + 16 * k + 24) 4 = 0

section Flat
variable {base k : Nat} {q : Mq}

theorem ptrAdd_nat {a d : Nat} (h : a + d < 2 ^ 64) : ptrAdd a d = a + d := by
  unfold ptrAdd
  omega

theorem next_setNext {mem : Mem} {m v : Nat} (hv : v < 2 ^ 64) : next (setNext mem m v) m = v := by
  rw [next, setNext, load_store]
  exact Nat.mod_eq_of_lt hv

theorem next_setNext_other {mem : Mem} {m b v : Nat} (h : b + 8 ≤ m ∨ m + 8 ≤ b) :
    next (setNext mem m v) b = next mem b := load_store_other mem h

theorem datasize_of_zero {mem : Mem} {m : Nat} (h : load mem (m + 24) 4 = 0) :
    datasize mem m = 0 := by
  rw [datasize, h]
  rfl

theorem type_of_zero {mem : Mem} {m : Nat} (h : load mem (m + 8) 8 = 0) : type mem m = 0 := by
  unfold type
  rw [h, Int.natCast_zero, Int.zero_bmod]

theorem datasize_of_next_type {mem : Mem} {base i : Nat}
    (h : load mem (base + 16 * (i + 1) + 8) 8 = 0) : datasize mem (base + 16 * i) = 0 := by
  apply datasize_of_zero
  rw [show base + 16 * i + 24 = base + 16 * (i + 1) + 8 by omega]
  exact load_low_zero (i := 4) (j := 4) h

theorem Flat.datasize_last (h : Flat base q k) : datasize q.mem (base + 16 * k) = 0 :=
  datasize_of_zero h.size

theorem Flat.lastMsg (h : Flat base q k) (hpos : 0 < base) : ∀ (r i f : Nat), i + r = k → r < f →
      Messagequeue.lastMsg q.mem f (base + 16 * i) = some (base + 16 * k) := by
  intro r
  induction r with
  | zero =>
    intro i f hi hf
    obtain ⟨f, rfl⟩ : ∃ g, f = g + 1 := ⟨f - 1, by omega⟩
    obtain rfl : i = k := by omega
    rw [Messagequeue.lastMsg, if_pos h.last]
  | succ r ih =>
    intro i f hi hf
    obtain ⟨f, rfl⟩ : ∃ g, f = g + 1 := ⟨f - 1, by omega⟩
    rw [Messagequeue.lastMsg, h.link i (by omega), if_neg (by omega)]
    exact ih (i + 1) f (by omega) (by omega)

theorem Flat.findMsg_none (h : Flat base q k) (hpos : 0 < base) {t : Int} (ht : t ≠ 0) :
    ∀ (r i f : Nat), i + r = k → r + 1 < f →
      findMsg q.mem t f (base + 16 * i) (next q.mem (base + 16 * i)) = some none := by
  intro r
  induction r with
  | zero =>
    intro i f hi hf
    obtain ⟨f, rfl⟩ : ∃ g, f = g + 1 := ⟨f - 1, by omega⟩
    obtain rfl : i = k := by omega
    rw [findMsg, if_pos h.last]
  | succ r ih =>
    intro i f hi hf
    obtain ⟨f, rfl⟩ : ∃ g, f = g + 1 := ⟨f - 1, by omega⟩
    have hty : type q.mem (base + 16 * (i + 1)) = 0 := type_of_zero (h.zero (i + 1) (by omega))
    rw [findMsg, h.link i (by omega), if_neg (by omega), hty, if_neg (Ne.symm ht)]
    exact ih (i + 1) f (by omega) (by omega)

theorem Flat.findMsg_first (h : Flat base q k) (hpos : 0 < base) (hk : 0 < k) {f : Nat}
    (hf : 0 < f) : findMsg q.mem 0 f base (next q.mem base) = some (some (base, base + 16)) := by
  obtain ⟨f, rfl⟩ : ∃ g, f = g + 1 := ⟨f - 1, by omega⟩
  have hlink : next q.mem base = base + 16 := h.link 0 hk
  have hty : type q.mem (base + 16) = 0 := type_of_zero (h.zero 1 hk)
  rw [findMsg, hlink, if_neg (by omega), hty, if_pos rfl]

end Flat

theorem Page.pos (page : Page) : 0 < page.addr := by
  have := page.low
  simp only [KERNBASE] at this
  omega

theorem Page.small (page : Page) : page.addr + PGSIZE < 2 ^ 32 := by
  have := page.high
  unfold PHYSTOP KERNBASE at this
  omega

theorem newmq_flat (page : Page) (mem : Mem) : Flat page.addr (newmq page mem) 0 := by
  refine ⟨rfl, by decide, rfl, fun i hi => absurd hi (Nat.not_lt_zero i), ?_, ?_, ?_⟩
  · simp only [newmq, next, setDatasize, setNext]
    rw [load_store_other _ (by omega), mul_zero, add_zero, load_store]
    rfl
  · intro i hi
    obtain rfl : i = 0 := by omega
    simp only [newmq, setDatasize, setNext]
    rw [load_store_other _ (by omega), load_store_other _ (by omega)]
    exact load_fill_zero _ (by omega) (by simp only [PGSIZE]; omega)
  · simp only [newmq, setDatasize, setNext, mul_zero, add_zero]
    rw [load_store]
    rfl

/-! ## Sending a blank message -/

theorem Flat.msgsnd {base k : Nat} {q q' : Mq} (h : Flat base q k) (hpos : 0 < base)
    (hsmall : base + PGSIZE < 2 ^ 32) (hroom : q.curbytes + 32 ≤ PGSIZE)
    (hk : msgsnd q 0 [] = some q') : Flat base q' (k + 1) := by
  have hcur := h.curbytes
  have hfit := h.room
  unfold Messagequeue.msgsnd at hk
  simp only [length_nil] at hk
  split at hk
  swap
  · simp at hk
  have hlast : Messagequeue.lastMsg q.mem addresses q.msgs = some (base + 16 * k) := by
    rw [h.msgs]
    have := h.lastMsg hpos k 0 addresses (by omega) (by simp only [addresses, PGSIZE] at *; omega)
    simpa using this
  rw [hlast] at hk
  simp only [h.datasize_last] at hk
  have hnew : ptrAdd (ptrAdd (base + 16 * k) 0) 16 = base + 16 * (k + 1) := by
    have h0 : ptrAdd (base + 16 * k) 0 = base + 16 * k :=
      ptrAdd_nat (d := 0) (by simp only [PGSIZE] at *; omega)
    rw [h0]
    exact ptrAdd_nat (d := 16) (by simp only [PGSIZE] at *; omega)
  have hm : next (setNext q.mem (base + 16 * k) (base + 16 * (k + 1))) (base + 16 * k) =
      base + 16 * (k + 1) := next_setNext (by simp only [PGSIZE] at *; omega)
  simp only [hnew, hm, put_nil] at hk
  cases hk
  have hint : wrap32 (q.curbytes + wrap32 (↑(0 : Nat) + 16)) = 16 * (↑(k + 1) + 1) := by
    simp only [wrap32, PGSIZE] at *
    rw [show Int.bmod ((0 : Nat) + 16) (2 ^ 32) = 16 by decide, hcur]
    simp only [Int.bmod]
    split <;> omega
  refine ⟨h.msgs, ?_, hint, ?_, ?_, ?_, ?_⟩
  · simp only [PGSIZE] at *
    omega
  · intro i hi
    simp (disch := omega) only [next, setDatasize, setDataaddr, setType, setNext, load_store_other]
    obtain rfl | hik := eq_or_ne i k
    · exact hm
    · rw [load_store_other _ (by omega)]
      exact h.link i (by omega)
  · simp only [next, setDatasize, setDataaddr, setType, setNext]
    rw [load_store_other _ (by omega), load_store_other _ (by omega), load_store]
    rfl
  · intro i hi
    simp only [setDatasize, setDataaddr, setType, setNext]
    simp (disch := omega) only [load_store_other]
    by_cases hik : i = k + 1
    · subst hik
      rw [load_store]
      rfl
    · rw [load_store_other _ (by omega), load_store_other _ (by omega)]
      exact h.zero i (by omega)
  · simp only [setDatasize]
    rw [load_store]
    rfl

/-! ## Receiving a blank message -/

/-- Slots below `j` are refilled; the first of `k` messages was taken. -/
structure Moving (base k j : Nat) (mem : Mem) : Prop where
  done : ∀ i, i < j → next mem (base + 16 * i) = base + 16 * (i + 1)
  todo : ∀ i, j < i → i < k → next mem (base + 16 * i) = base + 16 * (i + 1)
  last : j < k → next mem (base + 16 * k) = 0
  zero : ∀ i, i ≤ k → load mem (base + 16 * i + 8) 8 = 0
  size : load mem (base + 16 * k + 24) 4 = 0

def source (base k j : Nat) : Nat := if j < k then base + 16 * (j + 1) else 0

/-- The header of slot `j`, whose data pointer lies under the link of the next. -/
def placed (mem : Mem) (base j : Nat) : Mem :=
  setDataaddr (setNext mem (base + 16 * j) (base + 16 * (j + 1))) (base + 16 * j)
    (base + 16 * (j + 1))

section Moving
variable {base k j : Nat} {mem : Mem}

theorem placed_next (hsmall : base + 16 * (j + 1) < 2 ^ 64) :
    next (placed mem base j) (base + 16 * j) = base + 16 * (j + 1) := by
  simp only [placed, next, setDataaddr]
  rw [load_store_other _ (by omega)]
  exact next_setNext hsmall

theorem placed_load {b n : Nat} (h : b + n ≤ base + 16 * j ∨
    (base + 16 * j + 8 ≤ b ∧ b + n ≤ base + 16 * j + 16) ∨ base + 16 * j + 24 ≤ b) :
    load (placed mem base j) b n = load mem b n := by
  simp (disch := omega) only [placed, setDataaddr, setNext, load_store_other]

theorem Moving.step (h : Moving base k j mem) (hj : j < k) (hsmall : base + 16 * k + 32 < 2 ^ 64) :
    Moving base k (j + 1) (placed (move mem (base + 16 * j) (base + 16 * (j + 1)) 16) base j) := by
  refine ⟨?_, ?_, ?_, ?_, ?_⟩
  · intro i hi
    obtain rfl | hij := eq_or_ne i j
    · exact placed_next (by omega)
    simp only [next]
    rw [placed_load (by omega), load_move_other _ (by omega)]
    exact h.done i (by omega)
  · intro i hi hik
    simp only [next]
    rw [placed_load (by omega), load_move_other _ (by omega)]
    exact h.todo i (by omega) hik
  · intro hk
    simp only [next]
    rw [placed_load (by omega), load_move_other _ (by omega)]
    exact h.last hj
  · intro i hi
    rw [placed_load (by omega)]
    obtain rfl | hij := eq_or_ne i j
    · rw [load_move _ (by omega) (by omega), show base + 16 * (i + 1) + (base + 16 * i + 8 -
        (base + 16 * i)) = base + 16 * (i + 1) + 8 by omega]
      exact h.zero (i + 1) hj
    · rw [load_move_other _ (by omega)]
      exact h.zero i hi
  · rw [placed_load (by omega), load_move_other _ (by omega)]
    exact h.size

theorem Moving.datasize (h : Moving base k j mem) {i : Nat} (hi : i ≤ k) :
    datasize mem (base + 16 * i) = 0 := by
  obtain rfl | hik := eq_or_ne i k
  · exact datasize_of_zero h.size
  · exact datasize_of_next_type (h.zero (i + 1) (by omega))

theorem Moving.next_source (h : Moving base k j mem) (hj : j < k) :
    next mem (base + 16 * (j + 1)) = source base k (j + 1) := by
  unfold source
  split
  · exact h.todo (j + 1) (by omega) ‹_›
  · rw [show j + 1 = k by omega]
    exact h.last hj

theorem relocLoop_turn {f pre m : Nat} (hm : m ≠ 0) (hsize : datasize mem m = 0)
    (hsize' : datasize (move mem (base + 16 * j) m 16) (base + 16 * j) = 0)
    (hsmall : base + 16 * (j + 1) < 2 ^ 64) : relocLoop (f + 1) mem (base + 16 * j) pre m =
      relocLoop f (placed (move mem (base + 16 * j) m 16) base j) (base + 16 * (j + 1))
        (base + 16 * j) (next mem m) := by
  have h0 : ptrAdd (base + 16 * j) 0 = base + 16 * j := ptrAdd_nat (d := 0) (by omega)
  have h16 : ptrAdd (base + 16 * j) 16 = base + 16 * (j + 1) := ptrAdd_nat (d := 16) (by omega)
  have hlen : (((0 : Int) + 16) % 2 ^ 32).toNat = 16 := by decide
  rw [relocLoop, if_neg hm]
  simp only [hsize, hlen, hsize', h0, h16]
  rw [show setDataaddr (setNext (move mem (base + 16 * j) m 16) (base + 16 * j)
    (base + 16 * (j + 1))) (base + 16 * j) (base + 16 * (j + 1)) =
      placed (move mem (base + 16 * j) m 16) base j from rfl, placed_next hsmall]

theorem relocLoop_head {f : Nat} (hpos : 0 < base) (hsize : datasize mem base = 0)
    (hsmall : base + 16 < 2 ^ 64) : relocLoop (f + 1) mem base base base =
      relocLoop f (placed mem base 0) (base + 16 * (0 + 1)) (base + 16 * 0) (next mem base) := by
  have hmove : move mem (base + 16 * 0) base 16 = mem := move_self mem base 16
  have hturn : relocLoop (f + 1) mem (base + 16 * 0) base base = _ :=
    relocLoop_turn (by omega) hsize (by rw [hmove]; exact hsize) (by omega)
  rw [hmove] at hturn
  exact hturn

theorem relocLoop_moving (hpos : 0 < base) (hsmall : base + 16 * k + 32 < 2 ^ 64) :
    ∀ (r j f : Nat) (mem : Mem), j + 1 + r = k → r + 1 < f → Moving base k (j + 1) mem →
      ∃ mem', relocLoop f mem (base + 16 * (j + 1)) (base + 16 * j) (source base k (j + 1)) =
        some (setNext mem' (base + 16 * (k - 1)) 0) ∧ Moving base k k mem' := by
  intro r
  induction r with
  | zero =>
    intro j f mem hj hf h
    obtain ⟨f, rfl⟩ : ∃ g, f = g + 1 := ⟨f - 1, by omega⟩
    obtain rfl : k = j + 1 := by omega
    refine ⟨mem, ?_, h⟩
    rw [source, if_neg (lt_irrefl _), relocLoop, if_pos rfl]
    rfl
  | succ r ih =>
    intro j f mem hj hf h
    obtain ⟨f, rfl⟩ : ∃ g, f = g + 1 := ⟨f - 1, by omega⟩
    have hjk : j + 1 < k := by omega
    have hsrc : source base k (j + 1) = base + 16 * (j + 1 + 1) := if_pos hjk
    have hsize' : Messagequeue.datasize (move mem (base + 16 * (j + 1))
        (base + 16 * (j + 1 + 1)) 16) (base + 16 * (j + 1)) = 0 := by
      apply datasize_of_next_type
      rw [load_move_other _ (by omega)]
      exact h.zero (j + 1 + 1) (by omega)
    rw [hsrc, relocLoop_turn (by omega) (h.datasize (by omega)) hsize' (by omega),
      h.next_source hjk]
    exact ih (j + 1) f _ (by omega) (by omega) (h.step hjk hsmall)

end Moving

theorem Flat.moving {base k : Nat} {q : Mq} (h : Flat base q (k + 1))
    (hsmall : base + 16 * (k + 1) + 32 < 2 ^ 64) :
    Moving base (k + 1) 1 (placed (setNext q.mem base (next q.mem (base + 16))) base 0) := by
  have hother : ∀ b n, base + 24 ≤ b → load (placed (setNext q.mem base (next q.mem (base + 16)))
      base 0) b n = load q.mem b n := by
    intro b n hb
    rw [placed_load (by omega), setNext, load_store_other _ (by omega)]
  refine ⟨?_, ?_, ?_, ?_, ?_⟩
  · intro i hi
    obtain rfl : i = 0 := by omega
    exact placed_next (by omega)
  · intro i hi hik
    rw [next, hother _ _ (by omega)]
    exact h.link i hik
  · intro hk
    rw [next, hother _ _ (by omega)]
    exact h.last
  · intro i hi
    obtain rfl | hi0 := eq_or_ne i 0
    · rw [placed_load (by omega), setNext, load_store_other _ (by omega)]
      exact h.zero 0 (by omega)
    · rw [hother _ _ (by omega)]
      exact h.zero i hi
  · rw [hother _ _ (by omega)]
    exact h.size

theorem Flat.next_first {base k : Nat} {q : Mq} (h : Flat base q (k + 1)) :
    next q.mem (base + 16) = source base (k + 1) 1 := by
  unfold source
  split
  · exact h.link 1 ‹_›
  · obtain rfl : k = 0 := by omega
    exact h.last

theorem Flat.msgrcv {base k : Nat} {q : Mq} (h : Flat base q (k + 1)) (hpos : 0 < base)
    (hsmall : base + PGSIZE < 2 ^ 32) :
    ∃ q', msgrcv q 0 0 = some (some (q', [])) ∧ Flat base q' k := by
  have hroom := h.room
  have hcur := h.curbytes
  have hbound : base + 16 * (k + 1) + 32 < 2 ^ 64 := by omega
  have hfuel : k + 2 < addresses := by
    simp only [PGSIZE] at hroom
    unfold addresses
    omega
  have hsrc : source base (k + 1) 1 < 2 ^ 64 := by
    unfold source
    split <;> omega
  -- the message after the first is linked to the head
  have hhead : ∀ b n, base + 8 ≤ b → load (setNext q.mem base (next q.mem (base + 16))) b n =
      load q.mem b n := fun b n hb => load_store_other _ (by omega)
  have hdata : ∀ m, base ≤ m → datasize q.mem m = 0 →
      datasize (setNext q.mem base (next q.mem (base + 16))) m = 0 := by
    intro m hm hz
    rw [datasize, hhead _ _ (by omega)]
    exact hz
  have hsize0 : datasize q.mem base = 0 := datasize_of_next_type (i := 0) (h.zero 1 (by omega))
  have hsize1 : datasize q.mem (base + 16) = 0 := by
    obtain rfl | hk := eq_or_ne k 0
    · exact datasize_of_zero h.size
    · exact datasize_of_next_type (i := 1) (h.zero 2 (by omega))
  obtain ⟨f, hf⟩ : ∃ f, addresses = f + 1 := ⟨addresses - 1, by omega⟩
  obtain ⟨mem, hloop, hmoved⟩ := relocLoop_moving hpos hbound k 0 f _ (by omega)
    (by omega) (h.moving hbound)
  have hreloc : reloc (setNext q.mem base (next q.mem (base + 16))) base =
      some (setNext mem (base + 16 * k) 0) := by
    have hnext : next (setNext q.mem base (next q.mem (base + 16))) base =
        source base (k + 1) 1 := by
      rw [h.next_first]
      exact next_setNext hsrc
    rw [reloc, hf, relocLoop_head hpos (hdata base (by omega) hsize0) (by omega), hnext]
    exact hloop
  have hfind := h.findMsg_first hpos (by omega) (f := addresses) (by omega)
  refine ⟨⟨base, 16 * (k + 1), setNext mem (base + 16 * k) 0⟩, ?_, ?_⟩
  · unfold Messagequeue.msgrcv
    rw [h.msgs, hfind]
    simp only
    rw [hreloc, hdata (base + 16) (by omega) hsize1]
    have hint : wrap32 (q.curbytes - wrap32 (0 + 16)) = 16 * (k + 1) := by
      rw [show wrap32 (0 + 16) = 16 by decide, hcur]
      simp only [wrap32, Int.bmod, PGSIZE] at *
      split <;> omega
    rw [hint]
    simp [bytes, ← h.msgs]
  · refine ⟨rfl, by omega, rfl, ?_, ?_, ?_, ?_⟩
    · intro i hi
      rw [next_setNext_other (by omega)]
      exact hmoved.done i (by omega)
    · exact next_setNext (by omega)
    · intro i hi
      rw [setNext, load_store_other _ (by omega)]
      exact hmoved.zero i (by omega)
    · rw [setNext, load_store_other _ (by omega)]
      exact load_low_zero (i := 4) (j := 4) (hmoved.zero (k + 1) le_rfl)

/-! ## Runs of blank messages -/

def blank : Msg := ⟨0, []⟩

theorem Flat.chain {base k : Nat} {q : Mq} (h : Flat base q k) (hpos : 0 < base) :
    ∀ (r i : Nat), i + r = k → Chain (nextPtr q.mem) (nextPtr q.mem (base + 16 * i))
      ((range' (i + 1) r).map fun j => base + 16 * j) := by
  intro r
  induction r with
  | zero =>
    intro i hi
    obtain rfl : i = k := by omega
    simp [Chain, nextPtr, h.last]
  | succ r ih =>
    intro i hi
    have hlink := h.link i (by omega)
    rw [range'_succ, map_cons]
    refine ⟨?_, ih (i + 1) (by omega)⟩
    rw [nextPtr, hlink, if_neg (by omega)]

theorem forall₂_replicate {α β : Type} {R : α → β → Prop} {b : β} :
    ∀ (as : List α) (k : Nat), as.length = k → (∀ a ∈ as, R a b) →
      Forall₂ R as (replicate k b) := by
  intro as
  induction as with
  | nil =>
    intro k hk _
    subst hk
    exact Forall₂.nil
  | cons a as ih =>
    intro k hk h
    subst hk
    exact Forall₂.cons (h a mem_cons_self)
      (ih _ rfl fun x hx => h x (mem_cons_of_mem a hx))

theorem Flat.represents {page : Page} {k : Nat} {q : Mq} (h : Flat page.addr q k) :
    ∃ as, Represents page q (replicate k blank) as := by
  have hroom := h.room
  have hlen : ((range' 1 k).map fun j => page.addr + 16 * j).length = k := by simp
  have hmem : ∀ a ∈ (range' 1 k).map fun j => page.addr + 16 * j, ∃ j,
      1 ≤ j ∧ j ≤ k ∧ a = page.addr + 16 * j := by
    intro a ha
    obtain ⟨j, hj, rfl⟩ := mem_map.mp ha
    rw [mem_range'_1] at hj
    exact ⟨j, hj.1, by omega, rfl⟩
  refine ⟨(range' 1 k).map fun j => page.addr + 16 * j, ?_, ?_, ?_, ?_⟩
  · rw [h.msgs]
    exact h.chain page.pos k 0 (by omega)
  · apply forall₂_replicate _ _ hlen
    intro a ha
    obtain ⟨j, _, hj, rfl⟩ := hmem a ha
    exact ⟨type_of_zero (h.zero j hj), rfl⟩
  · apply forall₂_replicate _ _ hlen
    intro a ha
    obtain ⟨j, _, hj, rfl⟩ := hmem a ha
    have hempty : blank.data.length = 0 := rfl
    omega
  · have hzip : ((range' 1 k).map fun j => page.addr + 16 * j).zip (replicate k blank) =
        (range' 1 k).map fun j => (page.addr + 16 * j, blank) := by
      apply ext_getElem
      · simp
      · intro i h1 h2
        simp
    rw [hzip, pairwise_map]
    apply Pairwise.imp _ pairwise_lt_range'
    intro i j hij
    have hempty : blank.data.length = 0 := rfl
    simp only
    omega

structure Inv (page : Page) (s : State) : Prop where
  flat : ∃ k, Flat page.addr s.mq k ∧ s.queue = replicate k blank
  delivered : ∀ d ∈ s.deliveries, d.ok

theorem step_inv {page : Page} {s s' : State} {o : Op} (h : Inv page s) (hgood : Blank s o)
    (hk : step s o = some s') : Inv page s' := by
  obtain ⟨⟨k, hflat, hqueue⟩, hdel⟩ := h
  cases o with
  | snd t data =>
    obtain ⟨rfl, rfl, hroom⟩ := hgood
    obtain ⟨q, hq, rfl⟩ := Option.map_eq_some_iff.mp hk
    refine ⟨⟨k + 1, hflat.msgsnd page.pos page.small hroom hq, ?_⟩, hdel⟩
    rw [hqueue, replicate_succ']
    rfl
  | rcv t sz =>
    obtain rfl | ht := eq_or_ne t 0
    · cases k with
      | zero =>
        have hnone : msgrcv s.mq 0 sz = some none := by
          have hlast : next s.mq.mem s.mq.msgs = 0 := by
            rw [hflat.msgs]
            exact hflat.last
          obtain ⟨f, hf⟩ : ∃ f, addresses = f + 1 := ⟨2 ^ 64 - 1, rfl⟩
          rw [msgrcv, hlast, hf, findMsg, if_pos rfl]
        rw [step, hnone] at hk
        cases hk
        exact ⟨⟨0, hflat, hqueue⟩, hdel⟩
      | succ k =>
        obtain rfl : sz = 0 := by
          apply hgood.resolve_right
          intro hall
          exact hall blank (by rw [hqueue, replicate_succ]; exact mem_cons_self) rfl
        obtain ⟨q', hq', hflat'⟩ := hflat.msgrcv page.pos page.small
        rw [step, hq'] at hk
        cases hk
        refine ⟨⟨k, hflat', ?_⟩, ?_⟩
        · simp only [hqueue]
          rw [replicate_succ, eraseP_cons_of_pos (by decide)]
        · intro d hd
          rcases mem_cons.mp hd with rfl | hd
          · refine ⟨blank, ?_, rfl⟩
            simp only [hqueue]
            rw [replicate_succ, find?_cons_of_pos (by decide)]
          · exact hdel d hd
    · have hnone : msgrcv s.mq t sz = some none := by
        have hfuel : k + 1 < addresses := by
          have := hflat.room
          simp only [PGSIZE] at this
          unfold addresses
          omega
        have hfind := hflat.findMsg_none page.pos ht k 0 addresses (by omega) hfuel
        rw [mul_zero, add_zero] at hfind
        rw [msgrcv, hflat.msgs, hfind]
      rw [step, hnone] at hk
      cases hk
      exact ⟨⟨k, hflat, hqueue⟩, hdel⟩

/-- In every run in which all messages are blank and no receiver of one asks for bytes,
the queue holds what was sent and every receiver gets its message. -/
theorem queue_delivers (page : Page) (mem : Mem) (os : List Op) (s : State)
    (hrun : run step (start page mem) os = some s)
    (hblank : Along step Blank (start page mem) os) : Delivers page s := by
  have hinv : Inv page s := by
    apply along_invariant (I := Inv page) _ os (start page mem) s _ hblank hrun
    · exact fun _ _ _ h hgood hk => step_inv h hgood hk
    · exact ⟨⟨0, newmq_flat page mem, rfl⟩, fun d hd => absurd hd not_mem_nil⟩
  obtain ⟨k, hflat, hqueue⟩ := hinv.flat
  refine ⟨?_, hinv.delivered⟩
  rw [hqueue]
  exact hflat.represents

def aPage : Page := ⟨0x87000000, by decide, by decide⟩

def blankOps : List Op := [.snd 0 [], .snd 0 [], .rcv 0 0, .snd 0 [], .rcv 0 0]

theorem queue_delivers_blank : ∃ s, run step (start aPage fun _ => 0) blankOps = some s ∧
    s.queue = [blank] ∧ Delivers aPage s := by
  obtain ⟨s, hrun, hqueue⟩ := run_test step (start aPage fun _ => 0) blankOps
    (fun s => s.queue = [blank]) (by decide +kernel)
  exact ⟨s, hrun, hqueue, queue_delivers aPage _ blankOps s hrun (by decide +kernel)⟩

/-- One message of one byte: the byte lands on the data pointer of its own record, and
the receiver gets a byte from somewhere else. -/
theorem queue_corrupts_message : ∃ s, run step (start aPage fun _ => 0)
    [.snd 1 [0x41], .rcv 1 1] = some s ∧ s.deliveries = [⟨1, [0], some ⟨1, [0x41]⟩⟩] ∧
    ¬ Delivers aPage s := by
  obtain ⟨s, hrun, hdel⟩ := run_test step (start aPage fun _ => 0)
    [.snd 1 [0x41], .rcv 1 1] (fun s => s.deliveries = [⟨1, [0], some ⟨1, [0x41]⟩⟩])
    (by decide +kernel)
  refine ⟨s, hrun, hdel, ?_⟩
  intro h
  obtain ⟨m, hm, hgot⟩ := h.2 ⟨1, [0], some ⟨1, [0x41]⟩⟩ (by rw [hdel]; simp)
  cases hm
  exact absurd hgot (by decide)

end BirdOS.Messagequeue
