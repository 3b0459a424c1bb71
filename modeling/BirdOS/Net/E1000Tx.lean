import Mathlib.Algebra.Group.Nat.Defs
import BirdOS.Lib.Machine

/-! # The transmit ring (`e1000.c`, `net_tx_eth`)

A call of `e1000_transmit` holds `e1000_lock` from its first read of TDT to its return, and the
device runs beside it.  The device takes the descriptors from TDH up to TDT in ring order,
and it sets DD in a descriptor that it has taken once the packet is sent.  DD is set in
every descriptor by `e1000_init`, and `e1000_transmit` does not clear it.

`given i` is the mbuf that the driver gave the device in descriptor `i` and that the device has
not completed; `stack m` says that the mbuf is the network stack's. -/

namespace BirdOS.E1000Tx

open Machine Function Option

def TX_RING_SIZE : Nat := 16

abbrev Page := Nat

structure Mbuf where
  head : Nat
  len : Nat

structure TxDesc where
  addr : Nat
  length : Nat
  cmd : Nat
  /-- `status & E1000_TXD_STAT_DD` -/
  dd : Bool

inductive Pc where
  | check
  | refused
  | reclaim
  | fill
  | keep
  | advance
  deriving DecidableEq

structure Call where
  ind : Nat
  m : Page
  pc : Pc

structure State where
  tdh : Nat
  tdt : Nat
  ring : Nat → TxDesc
  tx_mbufs : Nat → Option Page
  mbufs : Page → Option Mbuf
  /-- The call that holds `e1000_lock`. -/
  call : Option Call
  /-- The descriptors that the device has taken and not completed. -/
  sending : Nat → Bool
  given : Nat → Option Page
  stack : Page → Bool

inductive Op where
  /-- `mbufalloc`, and the packet is written. -/
  | alloc (m : Page) (b : Mbuf)
  /-- `acquire(&e1000_lock)` and the read of TDT. -/
  | transmit (m : Page)
  | go
  | take
  | sent (i : Nat)

def E1000_TXD_CMD_EOP : Nat := 0x01
def E1000_TXD_CMD_RS : Nat := 0x08

def TxDesc.holds (desc : TxDesc) (b : Mbuf) : Prop :=
  desc.addr = b.head ∧ desc.length = b.len % 2 ^ 16 ∧
    desc.cmd = E1000_TXD_CMD_EOP + E1000_TXD_CMD_RS

def exec (s : State) (c : Call) : Option State :=
  match c.pc with
  | .check =>
    if (s.ring c.ind).dd then some { s with call := some { c with pc := .reclaim } }
    else some { s with call := some { c with pc := .refused } }
  -- `net_tx_eth` frees the mbuf after the return of -1
  | .refused => some { s with call := none, mbufs := update s.mbufs c.m none }
  | .reclaim =>
    match s.tx_mbufs c.ind with
    | some old =>
      some { s with
        mbufs := update s.mbufs old none
        tx_mbufs := update s.tx_mbufs c.ind none
        call := some { c with pc := .fill } }
    | none => some { s with call := some { c with pc := .fill } }
  | .fill =>
    match s.mbufs c.m with
    | some b =>
      some { s with
        ring := update s.ring c.ind
          { s.ring c.ind with
            addr := b.head
            length := b.len % 2 ^ 16
            cmd := E1000_TXD_CMD_EOP + E1000_TXD_CMD_RS }
        call := some { c with pc := .keep } }
    | none => none
  | .keep =>
    some { s with
      tx_mbufs := update s.tx_mbufs c.ind (some c.m)
      call := some { c with pc := .advance } }
  | .advance =>
    some { s with
      tdt := (s.tdt + 1) % TX_RING_SIZE
      given := update s.given c.ind (some c.m)
      call := none }

def step (s : State) : Op → Option State
  | .alloc m b =>
    if s.mbufs m = none then
      some { s with
        mbufs := update s.mbufs m (some b)
        stack := update s.stack m true }
    else none
  | .transmit m =>
    match s.call with
    | some _ => none
    | none =>
      if s.stack m then
        some { s with
          call := some ⟨s.tdt, m, .check⟩
          stack := update s.stack m false }
      else none
  | .go =>
    match s.call with
    | some c => exec s c
    | none => none
  | .take =>
    if s.tdh ≠ s.tdt then
      some { s with
        tdh := (s.tdh + 1) % TX_RING_SIZE
        sending := update s.sending s.tdh true }
    else none
  | .sent i =>
    if s.sending i then
      some { s with
        ring := update s.ring i { s.ring i with dd := true }
        sending := update s.sending i false
        given := update s.given i none }
    else none

def e1000_init : State where
  tdh := 0
  tdt := 0
  ring := fun _ => ⟨0, 0, 0, true⟩
  tx_mbufs := fun _ => none
  mbufs := fun _ => none
  call := none
  sending := fun _ => false
  given := fun _ => none
  stack := fun _ => false

/-! ## Ownership -/

def Owned (s : State) : Prop :=
  ∀ i m, s.given i = some m →
    s.tx_mbufs i = some m ∧ ∃ b, s.mbufs m = some b ∧ (s.ring i).holds b

/-- A call that finds the descriptor at TDT with the device returns -1. -/
def Refuses (s : State) : Prop :=
  ∀ c, s.call = some c → c.pc ≠ .check → s.given c.ind ≠ none → c.pc = .refused

/-- At the test of DD the descriptor does not belong to the device. -/
def Roomy (s : State) : Op → Prop
  | .go => ∀ c ∈ s.call, c.pc = .check → s.given c.ind = none
  | _ => True

instance (s : State) (op : Op) : Decidable (Roomy s op) := by
  cases op <;> dsimp only [Roomy] <;> infer_instance

structure CallOk (s : State) (c : Call) : Prop where
  free : c.pc ≠ .check → s.given c.ind = none
  mine : s.stack c.m = false
  live : ∃ b, s.mbufs c.m = some b ∧ (c.pc = .keep ∨ c.pc = .advance → (s.ring c.ind).holds b)
  /-- The mbuf is in the ring once it has been stored there. -/
  stored : c.pc = .advance → s.tx_mbufs c.ind = some c.m
  fresh : c.pc ≠ .advance → ∀ i, s.tx_mbufs i ≠ some c.m
  empty : c.pc = .fill ∨ c.pc = .keep → s.tx_mbufs c.ind = none

theorem CallOk.ne {s : State} {c : Call} (h : CallOk s c) (hpc : c.pc ≠ .check) {i : Nat}
    {m : Page} (hm : s.given i = some m) : i ≠ c.ind := by
  rintro rfl
  exact absurd ((h.free hpc).symm.trans hm) nofun

structure Inv (s : State) : Prop where
  owned : Owned s
  distinct : ∀ i j m, s.tx_mbufs i = some m → s.tx_mbufs j = some m → i = j
  live : ∀ i m, s.tx_mbufs i = some m → s.mbufs m ≠ none
  stack : ∀ m, s.stack m = true → s.mbufs m ≠ none ∧ ∀ i, s.tx_mbufs i ≠ some m
  call : ∀ c, s.call = some c → CallOk s c

/-! ## The steps -/

section Steps
variable {s s' : State} {c : Call}

section
variable (h : Inv s)
include h

theorem Inv.goto (hc : s.call = some c) {pc : Pc} (hpc : c.pc ≠ .keep ∧ c.pc ≠ .advance)
    (hnext : pc = .reclaim ∨ pc = .refused) (hfree : s.given c.ind = none) :
    Inv { s with call := some { c with pc := pc } } := by
  have hcall := h.call c hc
  refine { h with call := ?_ }
  rintro _ ⟨⟩
  obtain ⟨b, hb, -⟩ := hcall.live
  refine ⟨fun _ => hfree, hcall.mine, ⟨b, hb, ?_⟩, ?_, fun _ => hcall.fresh hpc.2, ?_⟩
  all_goals rcases hnext with rfl | rfl <;> simp

theorem Inv.free {m : Page} (hring : ∀ i, s.tx_mbufs i ≠ some m)
    (hstack : s.stack m = false) (hcall : ∀ c, s.call = some c → c.m ≠ m) :
    Inv { s with mbufs := update s.mbufs m none } := by
  have hkeep : ∀ x, x ≠ m → update s.mbufs m none x = s.mbufs x :=
    fun x hx => update_of_ne hx _ _
  refine ⟨?_, h.distinct, ?_, ?_, ?_⟩
  · intro i x hx
    obtain ⟨htx, b, hb, hholds⟩ := h.owned i x hx
    have hne : x ≠ m := fun he => hring i (he ▸ htx)
    exact ⟨htx, b, (hkeep x hne).trans hb, hholds⟩
  · intro i x hx
    have hne : x ≠ m := fun he => hring i (he ▸ hx)
    simp only [hkeep x hne]
    exact h.live i x hx
  · intro x hx
    have hne : x ≠ m := by
      rintro rfl
      exact Bool.false_ne_true (hstack.symm.trans hx)
    simp only [hkeep x hne]
    exact h.stack x hx
  · intro c hc
    obtain ⟨hfree, hmine, ⟨b, hb, hholds⟩, hstored, hfresh, hempty⟩ := h.call c hc
    exact ⟨hfree, hmine, ⟨b, (hkeep c.m (hcall c hc)).trans hb, hholds⟩, hstored, hfresh, hempty⟩

section
variable (hc : s.call = some c)
include hc

theorem Inv.emptied (hpc : c.pc = .reclaim) : Inv { s with
      tx_mbufs := update s.tx_mbufs c.ind none
      call := some { c with pc := .fill } } := by
  have hcall := h.call c hc
  have hsome : ∀ i m, update s.tx_mbufs c.ind none i = some m → s.tx_mbufs i = some m := by
    intro i m hi
    obtain rfl | he := eq_or_ne i c.ind
    · simp at hi
    · rwa [update_of_ne he] at hi
  have hna : c.pc ≠ .advance ∧ c.pc ≠ .check := by simp [hpc]
  refine ⟨?_, ?_, ?_, ?_, ?_⟩
  · intro i m hm
    simp only [update_of_ne (hcall.ne hna.2 hm)]
    exact h.owned i m hm
  · exact fun i j m hi hj => h.distinct i j m (hsome i m hi) (hsome j m hj)
  · exact fun i m hi => h.live i m (hsome i m hi)
  · exact fun m hm => ⟨(h.stack m hm).1, fun i hi => (h.stack m hm).2 i (hsome i m hi)⟩
  · rintro _ ⟨⟩
    obtain ⟨b, hb, -⟩ := hcall.live
    exact ⟨fun _ => hcall.free hna.2, hcall.mine, ⟨b, hb, by simp⟩, nofun,
      fun _ i hi => hcall.fresh hna.1 i (hsome i c.m hi), fun _ => update_self ..⟩

theorem Inv.reclaim (hpc : c.pc = .reclaim) {old : Page} (hold : s.tx_mbufs c.ind = some old) :
    Inv { s with
      mbufs := update s.mbufs old none
      tx_mbufs := update s.tx_mbufs c.ind none
      call := some { c with pc := .fill } } := by
  have hcall := h.call c hc
  have hna : c.pc ≠ .advance := by
    rw [hpc]
    nofun
  refine (h.emptied hc hpc).free ?_ ?_ ?_
  · intro i hi
    obtain rfl | he := eq_or_ne i c.ind
    · simp at hi
    · simp only [update_of_ne he] at hi
      exact he (h.distinct i c.ind old hi hold)
  · cases hs : s.stack old with
    | false => rfl
    | true => exact absurd hold ((h.stack old hs).2 c.ind)
  · rintro _ ⟨⟩ he
    exact hcall.fresh hna c.ind (hold.trans (congrArg some he.symm))

theorem Inv.fill (hpc : c.pc = .fill) {b : Mbuf}
    (hb : s.mbufs c.m = some b) {desc : TxDesc} (hdesc : desc.holds b) :
    Inv { s with
      ring := update s.ring c.ind desc
      call := some { c with pc := .keep } } := by
  have hcall := h.call c hc
  have hnc : c.pc ≠ .check := by simp [hpc]
  refine ⟨?_, h.distinct, h.live, h.stack, ?_⟩
  · intro i m hm
    simp only [update_of_ne (hcall.ne hnc hm)]
    exact h.owned i m hm
  · rintro _ ⟨⟩
    refine ⟨fun _ => hcall.free hnc, hcall.mine, ⟨b, hb, fun _ => ?_⟩, nofun,
      fun _ => hcall.fresh ?_, fun _ => hcall.empty (.inl hpc)⟩
    · simp only [update_self]
      exact hdesc
    · rw [hpc]
      nofun

theorem Inv.keep (hpc : c.pc = .keep) : Inv { s with
      tx_mbufs := update s.tx_mbufs c.ind (some c.m)
      call := some { c with pc := .advance } } := by
  have hcall := h.call c hc
  obtain ⟨b, hb, hholds⟩ := hcall.live
  have hfresh := hcall.fresh (by rw [hpc]; nofun)
  have hnc : c.pc ≠ .check := by simp [hpc]
  refine ⟨?_, ?_, ?_, ?_, ?_⟩
  · intro i m hm
    simp only [update_of_ne (hcall.ne hnc hm)]
    exact h.owned i m hm
  · intro i j m hi hj
    by_cases hic : i = c.ind
    · by_cases hjc : j = c.ind
      · rw [hic, hjc]
      simp only [hic, update_self, some.injEq] at hi
      simp only [update_of_ne hjc] at hj
      exact absurd (hi ▸ hj) (hfresh j)
    simp only [update_of_ne hic] at hi
    by_cases hjc : j = c.ind
    · simp only [hjc, update_self, some.injEq] at hj
      exact absurd (hj ▸ hi) (hfresh i)
    · simp only [update_of_ne hjc] at hj
      exact h.distinct i j m hi hj
  · intro i m hi
    by_cases hic : i = c.ind
    · simp only [hic, update_self, some.injEq] at hi
      subst hi
      simp only [hb]
      nofun
    · simp only [update_of_ne hic] at hi
      exact h.live i m hi
  · intro m hm
    refine ⟨(h.stack m hm).1, fun i hi => ?_⟩
    by_cases hic : i = c.ind
    · simp only [hic, update_self, some.injEq] at hi
      subst hi
      exact Bool.false_ne_true (hcall.mine.symm.trans hm)
    · simp only [update_of_ne hic] at hi
      exact (h.stack m hm).2 i hi
  · rintro _ ⟨⟩
    exact ⟨fun _ => hcall.free hnc, hcall.mine, ⟨b, hb, fun _ => hholds (.inl hpc)⟩,
      fun _ => update_self .., fun hne => absurd rfl hne, by simp⟩

theorem Inv.advance (hpc : c.pc = .advance) : Inv { s with
      tdt := (s.tdt + 1) % TX_RING_SIZE
      given := update s.given c.ind (some c.m)
      call := none } := by
  have hcall := h.call c hc
  obtain ⟨b, hb, hholds⟩ := hcall.live
  refine ⟨?_, h.distinct, h.live, h.stack, nofun⟩
  intro i m hm
  by_cases hic : i = c.ind
  · simp only [hic, update_self, some.injEq] at hm
    subst hm hic
    exact ⟨hcall.stored hpc, b, hb, hholds (.inr hpc)⟩
  · simp only [update_of_ne hic] at hm
    exact h.owned i m hm

theorem Inv.exec (hfree : c.pc = .check → s.given c.ind = none) (hs : exec s c = some s') :
    Inv s' := by
  unfold E1000Tx.exec at hs
  cases hpc : c.pc with
  | check =>
    simp only [hpc] at hs
    split at hs
    · cases hs
      exact h.goto hc (by simp [hpc]) (.inl rfl) (hfree hpc)
    · cases hs
      exact h.goto hc (by simp [hpc]) (.inr rfl) (hfree hpc)
  | refused =>
    simp only [hpc, some.injEq] at hs
    subst hs
    have hcall := h.call c hc
    have hdone : Inv { s with call := none } := { h with call := nofun }
    exact hdone.free (hcall.fresh (by rw [hpc]; nofun)) hcall.mine nofun
  | reclaim =>
    simp only [hpc] at hs
    cases hold : s.tx_mbufs c.ind with
    | some old =>
      simp only [hold, some.injEq] at hs
      subst hs
      exact h.reclaim hc hpc hold
    | none =>
      simp only [hold, some.injEq] at hs
      subst hs
      have hemptied := h.emptied hc hpc
      rw [← hold, update_eq_self] at hemptied
      exact hemptied
  | fill =>
    simp only [hpc] at hs
    cases hb : s.mbufs c.m with
    | some b =>
      simp only [hb, some.injEq] at hs
      subst hs
      exact h.fill hc hpc hb ⟨rfl, rfl, rfl⟩
    | none =>
      simp only [hb] at hs
      cases hs
  | keep =>
    simp only [hpc, some.injEq] at hs
    subst hs
    exact h.keep hc hpc
  | advance =>
    simp only [hpc, some.injEq] at hs
    subst hs
    exact h.advance hc hpc

end

theorem Inv.alloc {m : Page} (hm : s.mbufs m = none) (b : Mbuf) : Inv { s with
      mbufs := update s.mbufs m (some b)
      stack := update s.stack m true } := by
  have hkeep : ∀ x, s.mbufs x ≠ none → update s.mbufs m (some b) x = s.mbufs x := by
    intro x hx
    exact update_of_ne (fun he : x = m => hx (he ▸ hm)) _ _
  refine ⟨?_, h.distinct, ?_, ?_, ?_⟩
  · intro i x hx
    obtain ⟨htx, b', hb', hholds⟩ := h.owned i x hx
    exact ⟨htx, b', (hkeep x (h.live i x htx)).trans hb', hholds⟩
  · intro i x hx
    simp only [hkeep x (h.live i x hx)]
    exact h.live i x hx
  · intro x hx
    obtain rfl | he := eq_or_ne x m
    · simp only [update_self]
      exact ⟨nofun, fun i hi => h.live i x hi hm⟩
    · simp only [update_of_ne he] at hx ⊢
      exact h.stack x hx
  · intro c hc
    obtain ⟨hfree, hmine, ⟨b', hb', hholds⟩, hstored, hfresh, hempty⟩ := h.call c hc
    have hlive : s.mbufs c.m ≠ none := by
      rw [hb']
      nofun
    have hne : c.m ≠ m := fun he => hlive (he ▸ hm)
    exact ⟨hfree, (update_of_ne hne ..).trans hmine, ⟨b', (hkeep _ hlive).trans hb', hholds⟩,
      hstored, hfresh, hempty⟩

theorem Inv.transmit {m : Page} (hm : s.stack m = true) : Inv { s with
      call := some ⟨s.tdt, m, .check⟩
      stack := update s.stack m false } := by
  refine ⟨h.owned, h.distinct, h.live, ?_, ?_⟩
  · intro x hx
    have hne : x ≠ m := by
      rintro rfl
      simp at hx
    simp only [update_of_ne hne] at hx
    exact h.stack x hx
  · rintro _ ⟨⟩
    obtain ⟨b, hb⟩ := ne_none_iff_exists'.mp (h.stack m hm).1
    exact ⟨fun hne => absurd rfl hne, update_self .., ⟨b, hb, by simp⟩, nofun,
      fun _ => (h.stack m hm).2, by simp⟩

theorem Inv.sent (i : Nat) : Inv { s with
      ring := update s.ring i { s.ring i with dd := true }
      sending := update s.sending i false
      given := update s.given i none } := by
  have hholds : ∀ j b, (s.ring j).holds b →
      (update s.ring i { s.ring i with dd := true } j).holds b := by
    intro j b hj
    obtain rfl | he := eq_or_ne j i
    · rw [update_self]
      exact hj
    · rwa [update_of_ne he]
  have hgiven : ∀ j m, update s.given i none j = some m → s.given j = some m := by
    intro j m hj
    obtain rfl | he := eq_or_ne j i
    · simp at hj
    · rwa [update_of_ne he] at hj
  refine ⟨?_, h.distinct, h.live, h.stack, ?_⟩
  · intro j m hj
    obtain ⟨htx, b, hb, hring⟩ := h.owned j m (hgiven j m hj)
    exact ⟨htx, b, hb, hholds j b hring⟩
  · intro c hc
    obtain ⟨hfree, hmine, ⟨b, hb, hring⟩, hstored, hfresh, hempty⟩ := h.call c hc
    refine ⟨fun hpc => ?_, hmine, ⟨b, hb, fun hpc => hholds _ b (hring hpc)⟩, hstored, hfresh,
      hempty⟩
    by_contra hne
    obtain ⟨m, hm⟩ := ne_none_iff_exists'.mp hne
    exact absurd ((hfree hpc).symm.trans (hgiven c.ind m hm)) nofun

theorem Inv.step (op : Op) (hroomy : Roomy s op) (hs : step s op = some s') :
    Inv s' := by
  cases op with
  | alloc m b =>
    obtain ⟨hm, ⟨⟩⟩ := ite_none_right_eq_some.mp hs
    exact h.alloc hm b
  | transmit m =>
    simp only [E1000Tx.step] at hs
    split at hs
    · cases hs
    simp only [ite_none_right_eq_some, some.injEq] at hs
    obtain ⟨hm, rfl⟩ := hs
    exact h.transmit hm
  | go =>
    simp only [E1000Tx.step] at hs
    split at hs
    · next c hc => exact h.exec hc (hroomy c hc) hs
    · cases hs
  | take =>
    cases of_guard hs
    exact { h with call := fun c hc => { h.call c hc with } }
  | sent i =>
    cases of_guard hs
    exact h.sent i

end

end Steps

theorem inv_init : Inv e1000_init := by
  refine ⟨nofun, nofun, nofun, nofun, nofun⟩

/-- In every run in which no call tests DD while the descriptor belongs to the device, the device's
mbufs stay in their descriptors. -/
theorem tx_ring_ownership (ops : List Op) (s : State)
    (hroomy : Along step Roomy e1000_init ops)
    (hrun : run step e1000_init ops = some s) : Owned s ∧ Refuses s := by
  have hinv : Inv s := along_invariant (I := Inv)
    (fun _ op _ h hop hs => h.step op hop hs) ops e1000_init s inv_init hroomy hrun
  exact ⟨hinv.owned, fun c hc hpc hgiven => absurd ((hinv.call c hc).free hpc) hgiven⟩

def call (m : Page) : List Op :=
  [.alloc m ⟨m + 20, 60⟩, .transmit m, .go, .go, .go, .go, .go]

def oneByOne : List Op :=
  (List.range 17).flatMap fun m => call m ++ [.take, .sent (m % TX_RING_SIZE)]

theorem tx_ring_ownership_oneByOne : ∃ s, run step e1000_init oneByOne = some s ∧
    (s.tdt = 1 ∧ s.tx_mbufs 0 = some 16 ∧ (s.mbufs 0).isNone) ∧ Owned s ∧ Refuses s := by
  obtain ⟨s, hrun, hs⟩ := run_test step e1000_init oneByOne
    (fun s => s.tdt = 1 ∧ s.tx_mbufs 0 = some 16 ∧ (s.mbufs 0).isNone) (by decide +kernel)
  exact ⟨s, hrun, hs, tx_ring_ownership oneByOne s (by decide +kernel) hrun⟩

/-- Sixteen packets fill the ring while the device has taken none, and the next call frees the
mbuf of the first one, which the device still has to send. -/
theorem tx_ring_overrun : ∃ s, run step e1000_init
      ((List.range 16).flatMap call ++ [.alloc 16 ⟨36, 60⟩, .transmit 16, .go, .go]) = some s ∧
      s.given 0 = some 0 ∧ (s.mbufs 0).isNone ∧ s.tx_mbufs 0 = none ∧ ¬ Refuses s := by
  obtain ⟨s, hrun, ⟨hgiven, hfreed, hempty⟩, hcall⟩ := run_test step e1000_init
    ((List.range 16).flatMap call ++ [.alloc 16 ⟨36, 60⟩, .transmit 16, .go, .go])
    (fun s => (s.given 0 = some 0 ∧ (s.mbufs 0).isNone ∧ s.tx_mbufs 0 = none) ∧
      (s.call.map fun c => (c.ind, c.pc)) = some (0, .fill)) (by decide +kernel)
  refine ⟨s, hrun, hgiven, hfreed, hempty, fun hrefuses => ?_⟩
  obtain ⟨c, hc, hcp⟩ := map_eq_some_iff.mp hcall
  obtain ⟨hind, hpc⟩ := Prod.mk.inj hcp
  have := hrefuses c hc (by rw [hpc]; nofun) (by rw [hind, hgiven]; nofun)
  rw [hpc] at this
  cases this

end BirdOS.E1000Tx
