import BirdOS.Param
import BirdOS.Fs.Inode
import BirdOS.Lib.Tally

/-! # The log in memory and its reservations (`log.c`)

`struct log` and what `begin_op`, `log_write` and `end_op` do to it.  `begin_op` lets a
call in when the log would still have room if every outstanding call logged `MAXOPBLOCKS`
more blocks; `log_write` stops the kernel when the log is full; the last `end_op` commits
and empties the log.

The machine interleaves these calls for any number of processes.  A step is a stretch
under `log.lock`; `log_write` makes its two tests before it takes that lock. -/

namespace BirdOS.Fs

open Tally Function Option Finset Machine

def LOGSIZE : Nat := MAXOPBLOCKS * 3

/-- `struct log` without `start` and `dev`; `block` is `lh.block[0 .. lh.n)`. -/
structure Log where
  size : Int
  outstanding : Int
  committing : Bool
  block : List Nat

def Log.n (l : Log) : Nat := l.block.length

inductive LogPanic where
  /-- `"too big a transaction"` -/
  | tooBig
  /-- `"log_write outside of trans"` -/
  | outsideTrans
  /-- `"log.committing"` -/
  | committing
  deriving DecidableEq

/-- `none` while the call has to sleep. -/
def beginOp (l : Log) : Option Log :=
  if l.committing then none
  else if (LOGSIZE : Int) < l.n + (l.outstanding + 1) * MAXOPBLOCKS then none
  else some { l with outstanding := l.outstanding + 1 }

/-- The tests of `log_write`, made without the lock. -/
def logWriteTests (l : Log) : Except LogPanic Unit :=
  if LOGSIZE ≤ l.n ∨ l.size - 1 ≤ l.n then .error .tooBig
  else if l.outstanding < 1 then .error .outsideTrans
  else .ok ()

/-- `log_write` under the lock: a block that is in the log already is absorbed. -/
def logAppend (l : Log) (b : Nat) : Log :=
  if b ∈ l.block then l else { l with block := l.block ++ [b] }

/-- The first critical section of `end_op`, and whether the caller has to commit. -/
def endOp (l : Log) : Except LogPanic (Log × Bool) :=
  let l := { l with outstanding := l.outstanding - 1 }
  if l.committing then .error .committing
  else if l.outstanding = 0 then .ok ({ l with committing := true }, true)
  else .ok (l, false)

namespace Reserve

/-- Where a process is in its file-system call; `mine` are the blocks it has logged. -/
inductive Phase where
  | outside
  | inOp (mine : Finset Nat)
  /-- `log_write(b)` has made its tests. -/
  | tested (mine : Finset Nat) (b : Nat)
  /-- In `commit`. -/
  | committing
  /-- Back from `commit`. -/
  | committed
  deriving DecidableEq

open Phase

structure State (P : Type*) where
  log : Log
  phase : P → Phase
  panic : Option LogPanic

inductive Op (P : Type*) where
  | beginOp (p : P)
  | logWrite (p : P) (b : Nat)
  /-- The process goes on inside its call. -/
  | continue (p : P)
  | endOp (p : P)

section Steps
variable {P : Type*} [DecidableEq P]

def State.goto (s : State P) (p : P) (ph : Phase) : State P :=
  { s with phase := update s.phase p ph }

def logWrite (s : State P) (p : P) (mine : Finset Nat) (b : Nat) : State P :=
  match logWriteTests s.log with
  | .ok _ => s.goto p (.tested mine b)
  | .error e => { s with panic := some e }

def finish (s : State P) (p : P) : State P :=
  match Fs.endOp s.log with
  | .ok (l, true) => { s with log := l }.goto p .committing
  | .ok (l, false) => { s with log := l }.goto p .outside
  | .error e => { s with panic := some e }

/-- A panic stops the machine. -/
def step (s : State P) (op : Op P) : Option (State P) :=
  if s.panic ≠ none then none
  else
    match op with
    | .beginOp p =>
      if s.phase p = .outside then
        (Fs.beginOp s.log).map fun l => { s with log := l }.goto p (.inOp ∅)
      else none
    | .logWrite p b =>
      match s.phase p with
      | .inOp mine => some (logWrite s p mine b)
      | _ => none
    | .continue p =>
      match s.phase p with
      | .tested mine b =>
        some ({ s with log := logAppend s.log b }.goto p (.inOp (insert b mine)))
      | .committing => some ({ s with log := { s.log with block := [] } }.goto p .committed)
      | .committed => some ({ s with log := { s.log with committing := false } }.goto p .outside)
      | _ => none
    | .endOp p =>
      match s.phase p with
      | .inOp _ => some (finish s p)
      | _ => none

end Steps

/-- After `initlog` on a file system made by `mkfs`, with `sb.nlog = LOGSIZE`. -/
def init {P : Type*} : State P := ⟨⟨LOGSIZE, 0, false, []⟩, fun _ => .outside, none⟩

def Phase.mine : Phase → Finset Nat
  | .inOp mine | .tested mine _ => mine
  | _ => ∅

def AtMost {P : Type*} (limit : Nat) (s : State P) : Op P → Prop
  | .logWrite p b => (insert b (s.phase p).mine).card ≤ limit
  | _ => True

instance {P : Type*} (limit : Nat) (s : State P) (op : Op P) : Decidable (AtMost limit s op) := by
  cases op <;> dsimp only [AtMost] <;> infer_instance

/-! ## The invariant -/

def Phase.active : Phase → Nat
  | .inOp _ | .tested _ _ => 1
  | _ => 0

def Phase.allowance (ph : Phase) : Nat := (MAXOPBLOCKS - 1 - ph.mine.card) * ph.active

def Phase.busy : Phase → Nat
  | .committing | .committed => 1
  | _ => 0

def Phase.Logged (block : List Nat) (ph : Phase) : Prop :=
  (∀ b ∈ ph.mine, b ∈ block) ∧ (ph = .committed → block = []) ∧
    ∀ mine b, ph = .tested mine b → (insert b mine).card ≤ MAXOPBLOCKS - 1

variable {P : Type*} [Fintype P]

structure Inv (s : State P) : Prop where
  panic : s.panic = none
  size : s.log.size = LOGSIZE
  outstanding : s.log.outstanding = tally active s.phase
  committing : tally busy s.phase = if s.log.committing then 1 else 0
  quiet : s.log.committing → s.log.outstanding = 0
  logged : ∀ p, (s.phase p).Logged s.log.block
  room : s.log.n + tally allowance s.phase ≤ LOGSIZE - 2
  empty : s.log.outstanding = 0 → s.log.committing = false → s.log.block = []

theorem Inv.init : Inv (init : State P) where
  panic := rfl
  size := rfl
  outstanding := by
    have : tally active (fun _ : P => outside) = 0 := tally_eq_zero.mpr fun _ => rfl
    simp [Reserve.init, this]
  committing := tally_eq_zero.mpr fun _ => rfl
  quiet := fun _ => rfl
  logged := by
    intro p
    simp [Reserve.init, Logged, mine]
  room := by
    have : tally allowance (fun _ : P => outside) = 0 := tally_eq_zero.mpr fun _ => rfl
    simp [Reserve.init, this, Log.n]
  empty := fun _ _ => rfl

theorem allowance_le (f : P → Phase) :
    tally allowance f ≤ (MAXOPBLOCKS - 1) * tally active f := by
  rw [← tally_mul]
  apply tally_mono
  intro ph
  exact Nat.mul_le_mul_right _ (Nat.sub_le _ _)

variable {s : State P} {p : P}

theorem Inv.not_committing (hi : Inv s) (hp : (s.phase p).active = 1) :
    s.log.committing = false ∧ 0 < s.log.outstanding := by
  have hle := le_tally active s.phase p
  have hout := hi.outstanding
  have hpos : 0 < s.log.outstanding := by omega
  refine ⟨?_, hpos⟩
  by_contra hc
  have := hi.quiet (by simpa using hc)
  omega

theorem Inv.committing_of_busy (hi : Inv s) (hp : (s.phase p).busy = 1) :
    s.log.committing = true ∧ s.log.outstanding = 0 ∧ ∀ q, (s.phase q).active = 0 := by
  have hle := le_tally busy s.phase p
  have hcomm := hi.committing
  have hc : s.log.committing = true := by
    by_contra hc
    rw [if_neg hc] at hcomm
    omega
  have hout := hi.quiet hc
  refine ⟨hc, hout, ?_⟩
  have : tally active s.phase = 0 := by
    have := hi.outstanding
    omega
  exact tally_eq_zero.mp this

theorem mine_of_active {ph : Phase} (h : ph.active = 0) : ph.mine = ∅ := by
  cases ph with
  | inOp mine | tested mine b => cases h
  | _ => rfl

theorem Inv.tests (hi : Inv s) (hp : (s.phase p).active = 1) : logWriteTests s.log = .ok () := by
  have hroom := hi.room
  have hsize := hi.size
  have hpos := (hi.not_committing hp).2
  simp only [LOGSIZE, MAXOPBLOCKS] at hroom hsize
  have hsmall : ¬ (LOGSIZE ≤ s.log.n ∨ s.log.size - 1 ≤ s.log.n) := by
    simp only [LOGSIZE, MAXOPBLOCKS]
    omega
  rw [logWriteTests, if_neg hsmall, if_neg (by omega)]

section Preserved
variable [DecidableEq P]

theorem Inv.goto (hi : Inv s) (p : P) (ph : Phase) (l : Log) (hsize : l.size = s.log.size)
    (hout : l.outstanding + (s.phase p).active = s.log.outstanding + ph.active)
    (hcomm : (if l.committing then 1 else 0) + (s.phase p).busy =
      (if s.log.committing then 1 else 0) + ph.busy) (hquiet : l.committing → l.outstanding = 0)
    (hself : ph.Logged l.block) (hothers : ∀ q, q ≠ p → (s.phase q).Logged l.block)
    (hroom : l.n + tally allowance s.phase + ph.allowance ≤
      LOGSIZE - 2 + (s.phase p).allowance)
    (hempty : l.outstanding = 0 → l.committing = false → l.block = []) :
    Inv ({ s with log := l }.goto p ph) where
  panic := hi.panic
  size := hsize.trans hi.size
  outstanding := by
    have := tally_update active s.phase p ph
    have := hi.outstanding
    simp only [State.goto]
    omega
  committing := by
    have hmove := tally_update busy s.phase p ph
    rw [hi.committing, ← hcomm] at hmove
    exact Nat.add_right_cancel hmove
  quiet := hquiet
  logged := by
    intro q
    obtain rfl | hq := eq_or_ne q p
    · simpa only [State.goto, update_self] using hself
    · simpa only [State.goto, update_of_ne hq] using hothers q hq
  room := by
    have := tally_update allowance s.phase p ph
    simp only [State.goto]
    omega
  empty := hempty

theorem Inv.beginOp {l : Log} (hi : Inv s) (hp : s.phase p = .outside)
    (h : Fs.beginOp s.log = some l) : Inv ({ s with log := l }.goto p (.inOp ∅)) := by
  unfold Fs.beginOp at h
  obtain ⟨hcomm, h⟩ := ite_none_left_eq_some.mp h
  obtain ⟨hfits, h⟩ := ite_none_left_eq_some.mp h
  cases h
  have hcommitting : s.log.committing = false := by simpa using hcomm
  apply hi.goto
  · rfl
  · rw [hp]
    simp only [active]
    omega
  · rw [hp]
    rfl
  · intro hc
    rw [hcommitting] at hc
    cases hc
  · simp [Logged, mine]
  · intro q _
    exact hi.logged q
  · have hallow := allowance_le s.phase
    have hout := hi.outstanding
    have hzero : s.log.outstanding = 0 → s.log.n = 0 := fun h0 => by
      rw [Log.n, hi.empty h0 hcommitting]
      rfl
    rw [hp]
    simp only [allowance, active, mine, card_empty, MAXOPBLOCKS, LOGSIZE,
      Log.n] at *
    omega
  · intro h0
    have := hi.outstanding
    simp only at h0
    omega

variable {mine : Finset Nat} {b : Nat}

theorem Inv.logWrite (hi : Inv s)
    (hp : s.phase p = .inOp mine) (hlimit : (insert b mine).card ≤ MAXOPBLOCKS - 1) :
    Inv (logWrite s p mine b) := by
  have hactive : (s.phase p).active = 1 := by
    rw [hp]
    rfl
  rw [Reserve.logWrite, hi.tests hactive]
  apply hi.goto
  · rfl
  · rw [hp]
    rfl
  · rw [hp]
    rfl
  · exact hi.quiet
  · have hlogged := hi.logged p
    rw [hp] at hlogged
    refine ⟨hlogged.1, ?_, ?_⟩
    · intro h
      cases h
    · intro mine' b' h
      cases h
      exact hlimit
  · intro q _
    exact hi.logged q
  · have := hi.room
    rw [hp]
    simp only [allowance, active, Phase.mine]
    omega
  · exact hi.empty

theorem logAppend_mem (l : Log) (b : Nat) : b ∈ (logAppend l b).block := by
  unfold logAppend
  split
  · assumption
  · simp

theorem mem_logAppend {l : Log} {c : Nat} (h : c ∈ l.block) : c ∈ (logAppend l b).block := by
  unfold logAppend
  split
  · exact h
  · exact List.mem_append_left _ h

theorem Inv.append (hi : Inv s) (hp : s.phase p = .tested mine b) :
    Inv ({ s with log := logAppend s.log b }.goto p (.inOp (insert b mine))) := by
  have hactive : (s.phase p).active = 1 := by
    rw [hp]
    rfl
  obtain ⟨hcommitting, hpos⟩ := hi.not_committing hactive
  have hfields : (logAppend s.log b).size = s.log.size ∧
      (logAppend s.log b).outstanding = s.log.outstanding ∧
      (logAppend s.log b).committing = s.log.committing := by
    unfold logAppend
    split <;> exact ⟨rfl, rfl, rfl⟩
  have hlogged := hi.logged p
  rw [hp] at hlogged
  obtain ⟨hmine, -, hlimit⟩ := hlogged
  apply hi.goto
  · exact hfields.1
  · rw [hp, hfields.2.1]
    rfl
  · rw [hp, hfields.2.2]
    rfl
  · rw [hfields.2.1, hfields.2.2]
    exact hi.quiet
  · refine ⟨?_, ?_, ?_⟩
    · intro c hc
      rcases mem_insert.mp hc with rfl | hc
      · exact logAppend_mem _ _
      · exact mem_logAppend (hmine c hc)
    · intro h
      cases h
    · intro _ _ h
      cases h
  · intro q _
    obtain ⟨hq, hdone, hnext⟩ := hi.logged q
    refine ⟨fun c hc => mem_logAppend (hq c hc), ?_, hnext⟩
    intro h
    have := (hi.committing_of_busy (p := q) (by rw [h]; rfl)).1
    rw [hcommitting] at this
    cases this
  · have hroom := hi.room
    have hcard := hlimit mine b rfl
    rw [hp]
    simp only [allowance, active, Phase.mine, mul_one]
    by_cases hb : b ∈ s.log.block
    · have hle : mine.card ≤ (insert b mine).card :=
        card_le_card (subset_insert b mine)
      rw [logAppend, if_pos hb]
      omega
    have hnot : b ∉ mine := fun hm => hb (hmine b hm)
    rw [card_insert_of_notMem hnot] at hcard ⊢
    rw [logAppend, if_neg hb]
    simp only [Log.n, List.length_append, List.length_singleton] at hroom ⊢
    omega
  · rw [hfields.2.1]
    intro h0
    omega

theorem Inv.commit (hi : Inv s) (hp : s.phase p = .committing) :
    Inv ({ s with log := { s.log with block := [] } }.goto p .committed) := by
  obtain ⟨-, -, hnone⟩ := hi.committing_of_busy (p := p) (by rw [hp]; rfl)
  apply hi.goto
  · rfl
  · rw [hp]
    rfl
  · rw [hp]
    rfl
  · exact hi.quiet
  · simp [Logged, mine]
  · intro q _
    refine ⟨?_, fun _ => rfl, (hi.logged q).2.2⟩
    rw [mine_of_active (hnone q)]
    intro b hb
    simp at hb
  · have := hi.room
    rw [hp]
    simp only [allowance, active, Log.n, List.length_nil]
    omega
  · exact fun _ _ => rfl

theorem Inv.finish (hi : Inv s) (hp : s.phase p = .committed) :
    Inv ({ s with log := { s.log with committing := false } }.goto p .outside) := by
  obtain ⟨hc, -, -⟩ := hi.committing_of_busy (p := p) (by rw [hp]; rfl)
  have hlogged := hi.logged p
  apply hi.goto
  · rfl
  · rw [hp]
    rfl
  · rw [hp, hc]
    rfl
  · intro h
    cases h
  · simp [Logged, mine]
  · intro q _
    exact hi.logged q
  · have := hi.room
    rw [hp]
    simp only [allowance, active]
    exact this
  · exact fun _ _ => hlogged.2.1 hp

theorem Inv.endOp (hi : Inv s) (hp : s.phase p = .inOp mine) : Inv (Reserve.finish s p) := by
  have hactive : (s.phase p).active = 1 := by
    rw [hp]
    rfl
  obtain ⟨hcommitting, hpos⟩ := hi.not_committing hactive
  have hroom := hi.room
  have hlast : s.log.outstanding - 1 = 0 ∨ s.log.outstanding - 1 ≠ 0 := Classical.em _
  rcases hlast with hlast | hlast
  · have hend : Fs.endOp s.log =
        .ok ({ s.log with outstanding := s.log.outstanding - 1, committing := true }, true) := by
      simp [Fs.endOp, hcommitting, hlast]
    rw [Reserve.finish, hend]
    apply hi.goto
    · rfl
    · rw [hp]
      simp only [active]
      omega
    · rw [hp, hcommitting]
      rfl
    · exact fun _ => hlast
    · simp [Logged, Phase.mine]
    · intro q _
      exact hi.logged q
    · simp only [allowance, active, Log.n] at hroom ⊢
      omega
    · intro _ h
      cases h
  · have hend : Fs.endOp s.log =
        .ok ({ s.log with outstanding := s.log.outstanding - 1 }, false) := by
      simp [Fs.endOp, hcommitting, hlast]
    rw [Reserve.finish, hend]
    apply hi.goto
    · rfl
    · rw [hp]
      simp only [active]
      omega
    · rw [hp]
      rfl
    · intro h
      rw [hcommitting] at h
      cases h
    · simp [Logged, Phase.mine]
    · intro q _
      exact hi.logged q
    · simp only [allowance, active, Log.n] at hroom ⊢
      omega
    · intro h
      exact absurd h hlast

theorem Inv.step {s' : State P} {op : Op P} (hi : Inv s) (hlimit : AtMost (MAXOPBLOCKS - 1) s op)
    (h : step s op = some s') : Inv s' := by
  unfold Reserve.step at h
  rw [if_neg (not_not.mpr hi.panic)] at h
  cases op with
  | beginOp p =>
    obtain ⟨hp, h⟩ := ite_none_right_eq_some.mp h
    obtain ⟨l, hl, rfl⟩ := map_eq_some_iff.mp h
    exact hi.beginOp hp hl
  | logWrite p b =>
    cases hp : s.phase p with
    | inOp mine =>
      simp only [hp] at h
      cases h
      rw [AtMost, hp] at hlimit
      exact hi.logWrite hp hlimit
    | _ => simp [hp] at h
  | «continue» p =>
    cases hp : s.phase p with
    | tested mine b =>
      simp only [hp] at h
      cases h
      exact hi.append hp
    | committing =>
      simp only [hp] at h
      cases h
      exact hi.commit hp
    | committed =>
      simp only [hp] at h
      cases h
      exact hi.finish hp
    | _ => simp [hp] at h
  | endOp p =>
    cases hp : s.phase p with
    | inOp mine =>
      simp only [hp] at h
      cases h
      exact hi.endOp hp
    | _ => simp [hp] at h

/-- With calls of at most nine blocks the log never fills up, whatever the interleaving;
no test of `log_write` or `end_op` fails. -/
theorem reservation_suffices (ops : List (Op P)) (s : State P)
    (hlimit : Along step (AtMost (MAXOPBLOCKS - 1)) init ops)
    (hrun : run step init ops = some s) : s.panic = none :=
  (along_invariant (fun _ _ _ hi hl hs => hi.step hl hs) ops init s Inv.init hlimit
    hrun).panic

/-- While a process is in `commit`, all others are outside the log; and what a call has logged
stays in the log until it ends. -/
theorem commit_alone (ops : List (Op P)) (s : State P)
    (hlimit : Along step (AtMost (MAXOPBLOCKS - 1)) init ops)
    (hrun : run step init ops = some s) :
    (∀ p q, s.phase p = .committing → q ≠ p → s.phase q = .outside) ∧
      ∀ p, ∀ b ∈ (s.phase p).mine, b ∈ s.log.block := by
  have hi : Inv s := along_invariant (fun _ _ _ hi hl hs => hi.step hl hs) ops init s Inv.init
    hlimit hrun
  refine ⟨fun p q hp hq => ?_, fun p => (hi.logged p).1⟩
  have hbusy : busy (s.phase p) = 1 := by rw [hp]; rfl
  have hle := le_tally busy s.phase p
  have hcount := hi.committing
  have hcommits : s.log.committing = true := by
    by_contra hno
    rw [if_neg hno] at hcount
    omega
  rw [if_pos hcommits] at hcount
  have hout := hi.outstanding
  rw [hi.quiet hcommits] at hout
  have hinactive := tally_eq_zero.mp (by omega : tally active s.phase = 0) q
  have hfree : busy (s.phase q) = 0 := by
    by_contra hne
    exact hq (eq_of_tally_le_one (by omega) hne (by omega))
  cases hph : s.phase q with
  | outside => rfl
  | inOp | tested => simp [hph, active] at hinactive
  | committing | committed => simp [hph, busy] at hfree

end Preserved

theorem reservation_suffices_two : ∃ s : State (Fin 2), run step init
    [.beginOp 0, .beginOp 1, .logWrite 0 7, .logWrite 1 7, .continue 1, .continue 0, .endOp 0,
      .endOp 1, .continue 1] = some s ∧ s.panic = none := by
  have hrun : (run step (init : State (Fin 2))
      [.beginOp 0, .beginOp 1, .logWrite 0 7, .logWrite 1 7, .continue 1, .continue 0, .endOp 0,
        .endOp 1, .continue 1]).isSome := by decide +kernel
  obtain ⟨s, hs⟩ := Option.isSome_iff_exists.mp hrun
  exact ⟨s, hs, reservation_suffices _ s (by decide +kernel) hs⟩

theorem commit_alone_last : ∃ s : State (Fin 2), run step init
    [.beginOp 0, .beginOp 1, .logWrite 0 7, .continue 0, .endOp 0, .endOp 1] = some s ∧
    s.phase 1 = .committing ∧ s.phase 0 = .outside := by
  obtain ⟨s, hs, hp⟩ := run_test step (init : State (Fin 2))
    [.beginOp 0, .beginOp 1, .logWrite 0 7, .continue 0, .endOp 0, .endOp 1]
    (fun s => s.phase 1 = .committing) (by decide +kernel)
  exact ⟨s, hs, hp, (commit_alone _ s (by decide +kernel) hs).1 1 0 hp (by decide)⟩

def tenBlocks (p : Slot) (b : Nat) : List (Op Slot) :=
  (List.range 10).flatMap fun i => [.logWrite p (b + i), .continue p]

def threeCalls : List (Op Slot) :=
  [.beginOp 0, .beginOp 1, .beginOp 2] ++ tenBlocks 0 100 ++ tenBlocks 1 200 ++
    (tenBlocks 2 300).take 19

/-- Three calls of ten blocks each are let in together, and the last `log_write` of the
third one finds 29 blocks in a log of size 30. -/
theorem three_calls_overflow : Along step (AtMost MAXOPBLOCKS) init threeCalls ∧
    ∃ s, run step init threeCalls = some s ∧ s.panic = some .tooBig := by
  refine ⟨by decide +kernel, ?_⟩
  exact run_test step init threeCalls (fun s => s.panic = some .tooBig) (by decide +kernel)

end Reserve

end BirdOS.Fs
