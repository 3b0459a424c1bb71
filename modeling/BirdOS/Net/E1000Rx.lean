import BirdOS.Lib.Machine
import BirdOS.Lib.Ring
import BirdOS.Net.Mbuf

/-! # The receive ring (`e1000.c`)

The device fills the descriptors from RDH up to RDT: it writes the frame into the buffer, then the
length and DD.  `e1000_recv` runs in the interrupt handler, one interrupt at a time, and the
device runs beside each of its statements.  After an `mbufalloc` that fails, the read of `head`
through the null pointer is a page fault, at which the kernel panics.

`arrived` lists the frames that the device has stored and `passed` those that `net_rx` got;
`up m` says that the mbuf `m` belongs to the network stack. -/

namespace BirdOS.E1000Rx

open Function List Option Machine
open Net (MBUF_SIZE)

def RX_RING_SIZE : Nat := 16

abbrev Page := Nat
abbrev Frame := List UInt8

structure RxDesc where
  /-- The mbuf whose buffer the address leads to. -/
  addr : Page
  length : Nat
  /-- `status & E1000_RXD_STAT_DD` -/
  dd : Bool

inductive Pc where
  | idle
  | look
  | deliver (ind : Nat)
  | refill (ind : Nat)
  | hand (ind : Nat)
  | clear (ind : Nat)
  | tail (ind : Nat)
  | fault
  deriving DecidableEq

structure State where
  rdh : Nat
  rdt : Nat
  ring : Nat → RxDesc
  rx_mbufs : Nat → Option Page
  live : Page → Bool
  /-- The bytes of `buf`. -/
  mem : Page → Frame
  up : Page → Bool
  pc : Pc
  arrived : List Frame
  passed : List Frame

inductive Op where
  | arrive (f : Frame)
  | intr
  | go
  /-- `mbufalloc(0)` and its result. -/
  | alloc (r : Option Page)
  /-- The stack is done with a buffer. -/
  | free (m : Page)

def setDesc (s : State) (i : Nat) (desc : RxDesc) : State :=
  { s with ring := update s.ring i desc }

def exec (s : State) : Option State :=
  match s.pc with
  | .look =>
    let ind := (s.rdt + 1) % RX_RING_SIZE
    some { s with pc := if (s.ring ind).dd then .deliver ind else .idle }
  | .deliver ind =>
    match s.rx_mbufs ind with
    | some m =>
      some { s with
        passed := s.passed ++ [(s.mem m).take (s.ring ind).length]
        up := update s.up m true
        pc := .refill ind }
    | none => some { s with pc := .fault }
  | .hand ind =>
    match s.rx_mbufs ind with
    | some m => some { setDesc s ind { s.ring ind with addr := m } with pc := .clear ind }
    | none => some { s with pc := .fault }
  | .clear ind => some { setDesc s ind { s.ring ind with dd := false } with pc := .tail ind }
  | .tail ind => some { s with rdt := ind, pc := .look }
  | .idle | .refill _ | .fault => none

def step (s : State) : Op → Option State
  | .arrive f =>
    if f.length ≤ MBUF_SIZE ∧ s.rdh ≠ s.rdt then
      let a := (s.ring s.rdh).addr
      some { setDesc s s.rdh ⟨a, f.length, true⟩ with
        mem := update s.mem a (f ++ (s.mem a).drop f.length)
        rdh := (s.rdh + 1) % RX_RING_SIZE
        arrived := s.arrived ++ [f] }
    else none
  | .intr => if s.pc = .idle then some { s with pc := .look } else none
  | .go => exec s
  | .alloc r =>
    match s.pc, r with
    | .refill ind, some m =>
      if s.live m = false then
        some { s with
          live := update s.live m true
          mem := update s.mem m (List.replicate MBUF_SIZE 0)
          rx_mbufs := update s.rx_mbufs ind (some m)
          pc := .hand ind }
      else none
    | .refill ind, none =>
      some { s with rx_mbufs := update s.rx_mbufs ind none, pc := .hand ind }
    | _, _ => none
  | .free m =>
    if s.up m then
      some { s with up := update s.up m false, live := update s.live m false }
    else none

def e1000_init (bufs : Nat → Page) : State where
  rdh := 0
  rdt := RX_RING_SIZE - 1
  ring := fun i => ⟨bufs i, 0, false⟩
  rx_mbufs := fun i => some (bufs i)
  live := fun m => (List.range RX_RING_SIZE).any fun i => bufs i = m
  mem := fun _ => List.replicate MBUF_SIZE 0
  up := fun _ => false
  pc := .idle
  arrived := []
  passed := []

/-! ## What should hold -/

def Pc.vacant : Pc → Option Nat
  | .refill ind | .hand ind => some ind
  | _ => none

def Pc.held : Pc → Nat
  | .refill _ | .hand _ | .clear _ | .tail _ => 1
  | _ => 0

def frameAt (s : State) (i : Nat) : Frame := (s.mem (s.ring i).addr).take (s.ring i).length

def count (s : State) : Nat := (s.rdh + 31 - s.rdt - s.pc.held) % RX_RING_SIZE

def waiting (s : State) : List Frame :=
  Ring.window (frameAt s) RX_RING_SIZE (s.rdt + 1 + s.pc.held) (count s)

def Mine (s : State) (i : Nat) : Prop :=
  s.rx_mbufs i = some (s.ring i).addr ∧ s.live (s.ring i).addr = true ∧ s.up (s.ring i).addr = false

/-- Frames go up once and in order, none is left, descriptors have buffers of their own, and no
pointer is null where it is read. -/
structure Sound (s : State) : Prop where
  order : s.arrived = s.passed ++ waiting s
  done : s.pc = .look → (s.ring ((s.rdt + 1) % RX_RING_SIZE)).dd = false → s.arrived = s.passed
  mine : ∀ i < RX_RING_SIZE, s.pc.vacant ≠ some i → Mine s i
  distinct : ∀ i < RX_RING_SIZE, ∀ j < RX_RING_SIZE, s.pc.vacant ≠ some i → s.pc.vacant ≠ some j →
    (s.ring i).addr = (s.ring j).addr → i = j
  nofault : s.pc ≠ .fault

def Supplied (_ : State) : Op → Prop
  | .alloc r => r.isSome = true
  | _ => True

instance (s : State) (op : Op) : Decidable (Supplied s op) := by
  cases op <;> dsimp only [Supplied] <;> infer_instance

/-! ## The invariant -/

def Pc.ind : Pc → Option Nat
  | .deliver ind | .refill ind | .hand ind | .clear ind | .tail ind => some ind
  | _ => none

structure Shape (s : State) (pc : Pc) (c : Nat) : Prop where
  rdt : s.rdt < RX_RING_SIZE
  rdh : s.rdh = (s.rdt + 1 + pc.held + c) % RX_RING_SIZE
  room : pc.held + c < RX_RING_SIZE
  order : s.arrived = s.passed ++
    Ring.window (frameAt s) RX_RING_SIZE (s.rdt + 1 + pc.held) c
  dd : ∀ k, pc.held ≤ k → k < RX_RING_SIZE →
    (s.ring ((s.rdt + 1 + k) % RX_RING_SIZE)).dd = decide (k < pc.held + c)
  ind : ∀ i, pc.ind = some i → i = (s.rdt + 1) % RX_RING_SIZE
  filled : ∀ i, pc = .deliver i → 0 < c
  cleared : ∀ i, pc = .tail i → (s.ring i).dd = false
  mine : ∀ i < RX_RING_SIZE, pc.vacant ≠ some i → Mine s i
  distinct : ∀ i < RX_RING_SIZE, ∀ j < RX_RING_SIZE, pc.vacant ≠ some i → pc.vacant ≠ some j →
    (s.ring i).addr = (s.ring j).addr → i = j
  fresh : ∀ i, pc = .hand i → ∃ m, s.rx_mbufs i = some m ∧ s.live m = true ∧ s.up m = false ∧
    ∀ j < RX_RING_SIZE, j ≠ i → (s.ring j).addr ≠ m
  upLive : ∀ m, s.up m = true → s.live m = true
  nofault : pc ≠ .fault

section Rules
variable {s s' : State} {pc : Pc} {c : Nat}

theorem held_le (pc : Pc) : pc.held ≤ 1 := by
  cases pc <;> simp [Pc.held]

theorem vacant_ind {i : Nat} (h : pc.vacant = some i) : pc.ind = some i ∧ pc.held = 1 := by
  cases pc <;> simp_all [Pc.vacant, Pc.ind, Pc.held]

theorem Shape.count (h : Shape s s.pc c) : count s = c := by
  have hrdt := h.rdt
  have hrdh := h.rdh
  have hroom := h.room
  have hheld := held_le s.pc
  simp only [E1000Rx.count, RX_RING_SIZE] at *
  omega

theorem Shape.sound (h : Shape s s.pc c) : Sound s := by
  refine ⟨?_, ?_, h.mine, h.distinct, h.nofault⟩
  · rw [waiting, h.count]
    exact h.order
  · intro hpc hdd
    rw [hpc] at h
    have hc := h.dd 0 (Nat.zero_le _) (by decide)
    rw [Nat.add_zero, hdd] at hc
    have hzero : c = 0 := by
      have := of_decide_eq_false hc.symm
      simp only [Pc.held] at this
      omega
    have horder := h.order
    rw [hzero, Ring.window_zero, append_nil] at horder
    exact horder

theorem Shape.place_full (h : Shape s pc c) {k : Nat} (hk : pc.held + k < RX_RING_SIZE) :
    pc.vacant ≠ some ((s.rdt + 1 + pc.held + k) % RX_RING_SIZE) := by
  intro hv
  obtain ⟨hind, hheld⟩ := vacant_ind hv
  have hi := h.ind _ hind
  have hrdt := h.rdt
  rw [hheld] at hi hk
  simp only [RX_RING_SIZE] at *
  omega

theorem place_lt (n : Nat) : n % RX_RING_SIZE < RX_RING_SIZE := Nat.mod_lt _ (by decide)

theorem Shape.arrive (h : Shape s pc c) {f : Frame} (hne : s.rdh ≠ s.rdt) :
    Shape { setDesc s s.rdh ⟨(s.ring s.rdh).addr, f.length, true⟩ with
      mem := update s.mem (s.ring s.rdh).addr
        (f ++ (s.mem (s.ring s.rdh).addr).drop f.length)
      rdh := (s.rdh + 1) % RX_RING_SIZE
      arrived := s.arrived ++ [f] } pc (c + 1) := by
  have hrdt := h.rdt
  have hrdh := h.rdh
  have hroom : pc.held + c + 1 < RX_RING_SIZE := by
    have := h.room
    simp only [RX_RING_SIZE] at *
    omega
  have hlt : s.rdh < RX_RING_SIZE := by
    rw [hrdh]
    exact place_lt _
  have hvac : pc.vacant ≠ some s.rdh := by
    rw [hrdh]
    exact h.place_full h.room
  -- a store to the descriptor keeps the addresses
  have haddr : ∀ i, (update s.ring s.rdh
      ⟨(s.ring s.rdh).addr, f.length, true⟩ i).addr = (s.ring i).addr := by
    intro i
    obtain rfl | hi := eq_or_ne i s.rdh
    · rw [update_self]
    · rw [update_of_ne hi]
  refine ⟨hrdt, ?_, hroom, ?_, ?_, h.ind, fun _ _ => Nat.succ_pos c, ?_, ?_, ?_, ?_, h.upLive,
    h.nofault⟩
  · simp only [setDesc, hrdh, RX_RING_SIZE]
    omega
  · simp only [setDesc]
    rw [h.order, append_assoc, ← Ring.window_push (by omega), ← hrdh]
    congr 1
    symm
    refine Ring.window_ext fun k hk => ?_
    by_cases hkc : (s.rdt + 1 + pc.held + k) % RX_RING_SIZE = s.rdh
    · rw [hkc, update_self]
      simp [frameAt]
    have hfull := h.place_full (k := k) (by omega)
    have hdist : (s.ring ((s.rdt + 1 + pc.held + k) % RX_RING_SIZE)).addr ≠ (s.ring s.rdh).addr :=
      fun he => hkc (h.distinct _ (place_lt _) _ hlt hfull hvac he)
    simp only [frameAt, update_of_ne hkc, update_of_ne hdist]
  · intro k hk hk16
    by_cases hkc : (s.rdt + 1 + k) % RX_RING_SIZE = s.rdh
    · have hkk : k = pc.held + c := by
        simp only [RX_RING_SIZE] at *
        omega
      simp only [setDesc, hkc, update_self]
      simp [hkk]
    have hkk : k ≠ pc.held + c := by
      rintro rfl
      exact hkc (by rw [hrdh, Nat.add_assoc (s.rdt + 1)])
    simp only [setDesc, update_of_ne hkc]
    rw [h.dd k hk hk16]
    congr 1
    exact propext ⟨fun h => by omega, fun h => by omega⟩
  · intro i hi
    have hne' : i ≠ s.rdh := by
      rintro rfl
      have hind := h.ind s.rdh (by rw [hi]; rfl)
      rw [hi] at hrdh
      simp only [Pc.held, RX_RING_SIZE] at *
      omega
    simp only [setDesc, update_of_ne hne']
    exact h.cleared i hi
  · intro i hi hv
    obtain ⟨hkept, hlive, hdown⟩ := h.mine i hi hv
    refine ⟨?_, ?_, ?_⟩
    · simp only [setDesc, haddr]
      exact hkept
    · simp only [setDesc, haddr]
      exact hlive
    · simp only [setDesc, haddr]
      exact hdown
  · intro i hi j hj hvi hvj he
    simp only [setDesc, haddr] at he
    exact h.distinct i hi j hj hvi hvj he
  · intro i hi
    obtain ⟨m, hm, hlive, hdown, hother⟩ := h.fresh i hi
    refine ⟨m, hm, hlive, hdown, fun j hj hji => ?_⟩
    simp only [setDesc, haddr]
    exact hother j hj hji

variable {ind : Nat}

theorem Shape.deliver (h : Shape s (.deliver ind) c) : ∃ m, s.rx_mbufs ind = some m ∧
      Shape { s with
        passed := s.passed ++ [(s.mem m).take (s.ring ind).length]
        up := update s.up m true
        pc := .refill ind } (.refill ind) (c - 1) := by
  have hind := h.ind ind rfl
  have hlt : ind < RX_RING_SIZE := by
    rw [hind]
    exact place_lt _
  have hc := h.filled ind rfl
  obtain ⟨hkept, hlive, hdown⟩ := h.mine ind hlt nofun
  refine ⟨_, hkept, h.rdt, ?_, ?_, ?_, ?_, fun _ hi => h.ind _ hi, nofun, nofun, ?_, ?_, nofun, ?_,
    nofun⟩
  · rw [h.rdh]
    simp only [Pc.held]
    congr 1
    omega
  · have := h.room
    simp only [Pc.held] at *
    omega
  · obtain ⟨n, rfl⟩ := Nat.exists_eq_add_of_lt hc
    have horder := h.order
    rw [Nat.zero_add, Ring.window_pop, ← Nat.add_zero (s.rdt + 1)] at horder
    simp only [Pc.held, Nat.add_zero] at horder
    rw [← hind] at horder
    simp only [horder, append_assoc, singleton_append, Nat.zero_add, Nat.add_sub_cancel]
    rfl
  · intro k hk hk16
    have hdd := h.dd k (Nat.zero_le _) hk16
    simp only [Pc.held] at *
    rw [hdd]
    congr 1
    exact propext ⟨fun h => by omega, fun h => by omega⟩
  · intro i hi hv
    have hne : i ≠ ind := fun he => hv (by rw [he]; rfl)
    obtain ⟨hkept', hlive', hdown'⟩ := h.mine i hi nofun
    have hdist : (s.ring i).addr ≠ (s.ring ind).addr :=
      fun he => hne (h.distinct i hi ind hlt nofun nofun he)
    exact ⟨hkept', hlive', (update_of_ne hdist ..).trans hdown'⟩
  · exact fun i hi j hj _ _ he => h.distinct i hi j hj nofun nofun he
  · intro m hm
    by_cases he : m = (s.ring ind).addr
    · rw [he]
      exact hlive
    · simp only [update_of_ne he] at hm
      exact h.upLive m hm

theorem Shape.refill {m : Page} (h : Shape s (.refill ind) c) (hm : s.live m = false) :
    Shape { s with
      live := update s.live m true
      mem := update s.mem m (replicate MBUF_SIZE 0)
      rx_mbufs := update s.rx_mbufs ind (some m)
      pc := .hand ind } (.hand ind) c := by
  have hold : ∀ i < RX_RING_SIZE, i ≠ ind → Mine s i ∧ (s.ring i).addr ≠ m := by
    intro i hi hne
    have hmine := h.mine i hi fun hv => hne (some.inj hv).symm
    refine ⟨hmine, ?_⟩
    rintro rfl
    exact Bool.false_ne_true (hm.symm.trans hmine.2.1)
  refine ⟨h.rdt, h.rdh, h.room, ?_, h.dd, fun _ hi => h.ind _ hi, nofun, nofun, ?_, h.distinct, ?_,
    ?_, nofun⟩
  · rw [h.order]
    congr 1
    symm
    refine Ring.window_ext fun k hk => ?_
    have hroom := h.room
    have hfull := h.place_full (k := k) (by simp only [Pc.held] at *; omega)
    have hne := (hold _ (place_lt (s.rdt + 1 + (Pc.refill ind).held + k))
      fun he => hfull (by rw [he]; rfl)).2
    simp only [frameAt, Pc.held] at hne ⊢
    rw [update_of_ne hne]
  · intro i hi hv
    have hne : i ≠ ind := fun he => hv (by rw [he]; rfl)
    obtain ⟨⟨hkept, hlive, hdown⟩, hna⟩ := hold i hi hne
    exact ⟨(update_of_ne hne ..).trans hkept, (update_of_ne hna ..).trans hlive, hdown⟩
  · rintro _ ⟨⟩
    refine ⟨m, update_self .., update_self .., ?_, fun j hj hji => (hold j hj hji).2⟩
    cases hup : s.up m with
    | false => rfl
    | true => exact absurd (h.upLive m hup) (by rw [hm]; nofun)
  · intro x hx
    by_cases he : x = m
    · rw [he]
      exact update_self ..
    · exact (update_of_ne he ..).trans (h.upLive x hx)

theorem Shape.hand (h : Shape s (.hand ind) c) : ∃ m, s.rx_mbufs ind = some m ∧
      Shape { setDesc s ind { s.ring ind with addr := m } with pc := .clear ind }
        (.clear ind) c := by
  obtain ⟨m, hm, hlive, hdown, hother⟩ := h.fresh ind rfl
  have hmine : ∀ i < RX_RING_SIZE, i ≠ ind → Mine s i :=
    fun i hi hne => h.mine i hi fun hv => hne (some.inj hv).symm
  have hdd : ∀ i, (update s.ring ind { s.ring ind with addr := m } i).dd = (s.ring i).dd := by
    intro i
    obtain rfl | hi := eq_or_ne i ind
    · rw [update_self]
    · rw [update_of_ne hi]
  refine ⟨m, hm, h.rdt, h.rdh, h.room, ?_, ?_, fun _ hi => h.ind _ hi, nofun, nofun, ?_, ?_, nofun,
    h.upLive, nofun⟩
  · simp only [setDesc]
    rw [h.order]
    congr 1
    symm
    refine Ring.window_ext fun k hk => ?_
    have hroom := h.room
    have hfull := h.place_full (k := k) (by simp only [Pc.held] at *; omega)
    have hne : (s.rdt + 1 + (Pc.hand ind).held + k) % RX_RING_SIZE ≠ ind :=
      fun he => hfull (by rw [he]; rfl)
    simp only [frameAt, Pc.held] at hne ⊢
    rw [update_of_ne hne]
  · intro k hk hk16
    simp only [setDesc, hdd]
    exact h.dd k hk hk16
  · intro i hi _
    obtain rfl | he := eq_or_ne i ind
    · simp only [setDesc]
      exact ⟨by simp only [update_self]; exact hm, by simp only [update_self]; exact hlive,
        by simp only [update_self]; exact hdown⟩
    obtain ⟨hkept, hlive', hdown'⟩ := hmine i hi he
    simp only [setDesc]
    exact ⟨by simp only [update_of_ne he]; exact hkept,
      by simp only [update_of_ne he]; exact hlive', by simp only [update_of_ne he]; exact hdown'⟩
  · intro i hi j hj _ _ he
    simp only [setDesc] at he
    by_cases hii : i = ind
    · by_cases hjj : j = ind
      · rw [hii, hjj]
      · simp only [hii, update_self, update_of_ne hjj] at he
        exact absurd he.symm (hother j hj hjj)
    by_cases hjj : j = ind
    · simp only [hjj, update_self, update_of_ne hii] at he
      exact absurd he (hother i hi hii)
    simp only [update_of_ne hii, update_of_ne hjj] at he
    exact h.distinct i hi j hj (fun hv => hii (some.inj hv).symm)
      (fun hv => hjj (some.inj hv).symm) he

theorem Shape.clear (h : Shape s (.clear ind) c) :
    Shape { setDesc s ind { s.ring ind with dd := false } with pc := .tail ind } (.tail ind) c := by
  have hind := h.ind ind rfl
  have hrdt := h.rdt
  have hroom := h.room
  have hsame : ∀ i, (update s.ring ind { s.ring ind with dd := false } i).addr =
      (s.ring i).addr ∧
      (update s.ring ind { s.ring ind with dd := false } i).length = (s.ring i).length := by
    intro i
    obtain rfl | hi := eq_or_ne i ind
    · rw [update_self]
      exact ⟨rfl, rfl⟩
    · rw [update_of_ne hi]
      exact ⟨rfl, rfl⟩
  have hframe : frameAt { setDesc s ind { s.ring ind with dd := false } with pc := .tail ind } =
      frameAt s := by
    funext i
    simp only [frameAt, setDesc, (hsame i).1, (hsame i).2]
  refine ⟨hrdt, h.rdh, hroom, ?_, ?_, fun _ hi => h.ind _ hi, nofun, ?_, ?_, ?_, nofun, h.upLive,
    nofun⟩
  · rw [hframe]
    exact h.order
  · intro k hk hk16
    have hne : (s.rdt + 1 + k) % RX_RING_SIZE ≠ ind := by
      simp only [Pc.held, RX_RING_SIZE] at *
      omega
    simp only [setDesc, update_of_ne hne]
    exact h.dd k hk hk16
  · rintro _ ⟨⟩
    simp only [setDesc, update_self]
  · intro i hi hv
    obtain ⟨hkept, hlive, hdown⟩ := h.mine i hi hv
    refine ⟨?_, ?_, ?_⟩
    · simp only [setDesc, (hsame i).1]
      exact hkept
    · simp only [setDesc, (hsame i).1]
      exact hlive
    · simp only [setDesc, (hsame i).1]
      exact hdown
  · intro i hi j hj hvi hvj he
    simp only [setDesc, (hsame i).1, (hsame j).1] at he
    exact h.distinct i hi j hj hvi hvj he

theorem Shape.tail (h : Shape s (.tail ind) c) :
    Shape { s with rdt := ind, pc := .look } .look c := by
  have hind := h.ind ind rfl
  have hrdt := h.rdt
  have hrdh := h.rdh
  have hroom := h.room
  refine ⟨?_, ?_, ?_, ?_, ?_, nofun, nofun, nofun, fun i hi _ => h.mine i hi nofun,
    fun i hi j hj _ _ =>
    h.distinct i hi j hj nofun nofun, nofun, h.upLive, nofun⟩
  · simp only [hind]
    exact place_lt _
  · simp only [hind, hrdh, Pc.held, RX_RING_SIZE]
    omega
  · simp only [Pc.held] at *
    omega
  · simp only
    rw [h.order]
    congr 1
    refine Ring.window_congr ?_ _ _
    simp only [hind, Pc.held, RX_RING_SIZE]
    omega
  · intro k _ hk16
    obtain rfl | hk := eq_or_ne k 15
    · have hself : (ind + 1 + 15) % RX_RING_SIZE = ind := by
        simp only [RX_RING_SIZE] at *
        omega
      simp only [hself]
      rw [h.cleared ind rfl]
      symm
      apply decide_eq_false
      simp only [Pc.held, RX_RING_SIZE] at *
      omega
    · have hplace : (ind + 1 + k) % RX_RING_SIZE = (s.rdt + 1 + (k + 1)) % RX_RING_SIZE := by
        simp only [hind, RX_RING_SIZE]
        omega
      simp only [hplace]
      rw [h.dd (k + 1) (by simp [Pc.held]) (by simp only [RX_RING_SIZE] at *; omega)]
      congr 1
      simp only [Pc.held]
      exact propext ⟨fun h => by omega, fun h => by omega⟩

theorem Shape.look (h : Shape s .look c) : let ind := (s.rdt + 1) % RX_RING_SIZE
    let pc := if (s.ring ind).dd then Pc.deliver ind else .idle
    Shape { s with pc := pc } pc c := by
  intro ind pc
  have hdd := h.dd 0 (Nat.zero_le _) (by decide)
  rw [Nat.add_zero] at hdd
  by_cases hset : (s.ring ind).dd = true
  · have hpc : pc = .deliver ind := if_pos hset
    rw [hpc]
    refine ⟨h.rdt, h.rdh, h.room, h.order, h.dd, ?_, ?_, nofun, fun i hi _ => h.mine i hi nofun,
      fun i hi j hj _ _ => h.distinct i hi j hj nofun nofun, nofun, h.upLive, nofun⟩
    · rintro _ ⟨⟩
      rfl
    · intro _ _
      rw [hset] at hdd
      have := of_decide_eq_true hdd.symm
      simp only [Pc.held] at this
      omega
  · have hpc : pc = .idle := if_neg hset
    rw [hpc]
    exact ⟨h.rdt, h.rdh, h.room, h.order, h.dd, nofun, nofun, nofun, fun i hi _ =>
      h.mine i hi nofun,
      fun i hi j hj _ _ => h.distinct i hi j hj nofun nofun, nofun, h.upLive, nofun⟩

theorem Shape.free (h : Shape s pc c) {m : Page} (hm : s.up m = true) :
    Shape { s with up := update s.up m false, live := update s.live m false } pc c := by
  have hother : ∀ x, s.up x = false → x ≠ m := by
    rintro x hx rfl
    exact Bool.false_ne_true (hx.symm.trans hm)
  refine { h with mine := ?_, fresh := ?_, upLive := ?_ }
  · intro i hi hv
    obtain ⟨hkept, hlive, hdown⟩ := h.mine i hi hv
    have hne := hother _ hdown
    exact ⟨hkept, (update_of_ne hne ..).trans hlive, (update_of_ne hne ..).trans hdown⟩
  · intro i hi
    obtain ⟨x, hx, hlive, hdown, hdist⟩ := h.fresh i hi
    have hne := hother _ hdown
    exact ⟨x, hx, (update_of_ne hne ..).trans hlive, (update_of_ne hne ..).trans hdown, hdist⟩
  · intro x hx
    have hne : x ≠ m := by
      rintro rfl
      simp at hx
    simp only [update_of_ne hne] at hx ⊢
    exact h.upLive x hx

end Rules

def Inv (s : State) : Prop := ∃ c, Shape s s.pc c

theorem inv_init {bufs : Nat → Page}
    (hbufs : ∀ i < RX_RING_SIZE, ∀ j < RX_RING_SIZE, bufs i = bufs j → i = j) :
    Inv (e1000_init bufs) := by
  refine ⟨0, Nat.lt_succ_self 15, by simp [e1000_init, Pc.held, RX_RING_SIZE], Nat.succ_pos 15, rfl,
    ?_, nofun, nofun, nofun, ?_, ?_, nofun, nofun, nofun⟩
  · intro k _ _
    rfl
  · intro i hi _
    refine ⟨rfl, ?_, rfl⟩
    simp only [e1000_init, List.any_eq_true, List.mem_range, decide_eq_true_eq]
    exact ⟨i, hi, rfl⟩
  · exact fun i hi j hj _ _ he => hbufs i hi j hj he

theorem Inv.exec {s s' : State} (h : Inv s) (hs : exec s = some s') : Inv s' := by
  obtain ⟨c, h⟩ := h
  unfold E1000Rx.exec at hs
  cases hpc : s.pc with
  | look =>
    rw [hpc] at h
    simp only [hpc, some.injEq] at hs
    subst hs
    exact ⟨c, h.look⟩
  | deliver ind =>
    rw [hpc] at h
    obtain ⟨m, hm, h'⟩ := h.deliver
    simp only [hpc, hm, some.injEq] at hs
    subst hs
    exact ⟨c - 1, h'⟩
  | hand ind =>
    rw [hpc] at h
    obtain ⟨m, hm, h'⟩ := h.hand
    simp only [hpc, hm, some.injEq] at hs
    subst hs
    exact ⟨c, h'⟩
  | clear ind =>
    rw [hpc] at h
    simp only [hpc, some.injEq] at hs
    subst hs
    exact ⟨c, h.clear⟩
  | tail ind =>
    rw [hpc] at h
    simp only [hpc, some.injEq] at hs
    subst hs
    exact ⟨c, h.tail⟩
  | idle | refill _ | fault =>
    simp only [hpc] at hs
    cases hs

theorem Inv.step {s s' : State} (h : Inv s) (op : Op) (hgood : Supplied s op)
    (hs : step s op = some s') : Inv s' := by
  cases op with
  | arrive f =>
    obtain ⟨⟨-, hne⟩, ⟨⟩⟩ := ite_none_right_eq_some.mp hs
    obtain ⟨c, h⟩ := h
    exact ⟨c + 1, h.arrive hne⟩
  | intr =>
    obtain ⟨hpc, ⟨⟩⟩ := ite_none_right_eq_some.mp hs
    obtain ⟨c, h⟩ := h
    rw [hpc] at h
    exact ⟨c, h.rdt, h.rdh, h.room, h.order, h.dd, nofun, nofun, nofun,
      fun i hi _ => h.mine i hi nofun, fun i hi j hj _ _ => h.distinct i hi j hj nofun nofun, nofun,
      h.upLive, nofun⟩
  | go => exact h.exec hs
  | alloc r =>
    obtain ⟨m, rfl⟩ := isSome_iff_exists.mp hgood
    obtain ⟨c, h⟩ := h
    cases hpc : s.pc with
    | refill ind =>
      rw [hpc] at h
      simp only [E1000Rx.step, hpc, ite_none_right_eq_some, some.injEq] at hs
      obtain ⟨hm, rfl⟩ := hs
      exact ⟨c, h.refill hm⟩
    | _ =>
      simp only [E1000Rx.step, hpc] at hs
      cases hs
  | free m =>
    obtain ⟨hm, ⟨⟩⟩ := ite_none_right_eq_some.mp hs
    obtain ⟨c, h⟩ := h
    exact ⟨c, h.free hm⟩

/-- In every run in which `mbufalloc` gives the loop a buffer each time. -/
theorem rx_ring_ownership (bufs : Nat → Page)
    (hbufs : ∀ i < RX_RING_SIZE, ∀ j < RX_RING_SIZE, bufs i = bufs j → i = j) (ops : List Op)
    (s : State) (hgood : Along step Supplied (e1000_init bufs) ops)
    (hrun : run step (e1000_init bufs) ops = some s) : Sound s := by
  have hinv : Inv s := along_invariant (I := Inv)
    (fun _ op _ h hop hs => h.step op hop hs) ops (e1000_init bufs) s (inv_init hbufs) hgood hrun
  obtain ⟨c, h⟩ := hinv
  exact h.sound

def turn (m : Page) : List Op := [.go, .go, .alloc (some m), .go, .go, .go]

def twoFrames : List Op :=
  [.arrive [1, 2], .intr, .go, .arrive [3], .go, .free 0, .alloc (some 16), .go, .go, .go] ++
    turn 0 ++ [.go]

theorem rx_ring_ownership_twoFrames : ∃ s, run step (e1000_init id) twoFrames = some s ∧
      (s.passed = [[1, 2], [3]] ∧ (s.ring 1).addr = 0 ∧ s.pc = .idle) ∧ Sound s := by
  obtain ⟨s, hrun, hs⟩ := run_test step (e1000_init id) twoFrames
    (fun s => s.passed = [[1, 2], [3]] ∧ (s.ring 1).addr = 0 ∧ s.pc = .idle) (by decide +kernel)
  exact ⟨s, hrun, hs,
    rx_ring_ownership id (fun _ _ _ _ he => he) twoFrames s (by decide +kernel) hrun⟩

/-- Two frames arrive and the first `mbufalloc` fails: the kernel stops at the null pointer with
the second frame in the ring. -/
theorem rx_ring_null : ∃ s, run step (e1000_init id)
      [.arrive [1, 2], .arrive [3], .intr, .go, .go, .alloc none, .go] = some s ∧
      s.pc = .fault ∧ s.arrived = [[1, 2], [3]] ∧ s.passed = [[1, 2]] :=
  run_test step (e1000_init id) _
    (fun s => s.pc = .fault ∧ s.arrived = [[1, 2], [3]] ∧ s.passed = [[1, 2]]) (by decide +kernel)

end BirdOS.E1000Rx
