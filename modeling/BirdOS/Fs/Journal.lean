import Mathlib.Data.List.GetD
import BirdOS.Fs.Bio
import BirdOS.Fs.Log

/-! # The running system around the redo log (`log.c`)

Processes read blocks into the buffer cache, change and log them between `begin_op` and
`end_op`, and release them; the last `end_op` commits.  At boot the first process recovers
the disk before any other call.  The machine goes call by call, except that a caller of
`bread` may wait for the buffer's sleep lock, and that `commit` and `recover_from_log` go
statement by statement.  It may lose its memory between any two steps.

The last fields of a state record the history and decide nothing: the pins, the blocks
that recovery has installed since the last boot, and the groups of `log_write` calls. -/

namespace BirdOS.Journal

open Bio Fs ByteMem Function List

def ROOTDEV : Nat := 1

def Home (sb : Superblock) (blk : Nat) : Prop := blk < sb.logstart ∨ sb.logstart + sb.nlog ≤ blk

instance (sb : Superblock) (blk : Nat) : Decidable (Home sb blk) :=
  inferInstanceAs (Decidable (_ ∨ _))

/-! ## The header block -/

/-- The stores of `write_head`; words past `n` keep what they held. -/
def putHeader (B : Block) (bs : List Nat) : Block :=
  storeWords B 0 (bs.length + 1) fun i => if i = 0 then bs.length else bs.getD (i - 1) 0

/-- The loads of `read_head`; the count is signed. -/
def getHeader (B : Block) : List Nat :=
  let n := load B 0 4
  if n < 2 ^ 31 then (List.range n).map fun i => load B (4 * (i + 1)) 4 else []

theorem getHeader_putHeader (B : Block) {bs : List Nat} (hlen : bs.length < 2 ^ 31)
    (hbs : ∀ blk ∈ bs, blk < 2 ^ 32) : getHeader (putHeader B bs) = bs := by
  have hword (i : Nat) (hi : i < bs.length + 1) :=
    load_storeWords B (a := 0) (fun i => if i = 0 then bs.length else bs.getD (i - 1) 0) hi
  have hn : load (putHeader B bs) 0 4 = bs.length := by
    refine (hword 0 (Nat.succ_pos _)).trans ?_
    rw [if_pos rfl]
    omega
  unfold getHeader
  rw [hn, if_pos hlen]
  apply ext_getElem
  · simp
  intro i hi hi'
  have hblk : bs[i] < 2 ^ 32 := hbs _ (getElem_mem hi')
  have := hword (i + 1) (by omega)
  rw [zero_add, if_neg (Nat.succ_ne_zero i), Nat.add_sub_cancel,
    getD_eq_getElem _ _ hi'] at this
  rw [getElem_map, getElem_range]
  refine this.trans ?_
  omega

/-! ## The code of `log.c` -/

/-- The buffers of `log.c`: `to`, `lbuf`, `buf` are `log`; `from`, `dbuf` are `home`. -/
inductive Reg where
  | log
  | home
  deriving DecidableEq

inductive Instr where
  | bread (r : Reg) (blk : Nat)
  | memmove (dst src : Reg)
  | bwrite (r : Reg)
  | bunpin (r : Reg)
  | brelse (r : Reg)
  /-- The loop of `read_head`. -/
  | getHead
  /-- The loop of `write_head`. -/
  | putHead
  /-- `log.lh.n = 0` -/
  | clear
  deriving DecidableEq

inductive Next where
  /-- `install_trans` and the rest of `recover_from_log`. -/
  | recover
  /-- The return of `initlog`; other processes may run. -/
  | booted
  /-- The last critical section of `end_op`. -/
  | finish
  deriving DecidableEq

section Code
variable (sb : Superblock)

def writeLogCode : Nat → List Nat → List Instr
  | _, [] => []
  | tail, blk :: bs =>
    [.bread .log (sb.logstart + tail + 1), .bread .home blk, .memmove .log .home, .bwrite .log,
      .brelse .home, .brelse .log] ++ writeLogCode (tail + 1) bs

def installTransCode : Nat → List Nat → List Instr
  | _, [] => []
  | tail, blk :: bs =>
    [.bread .log (sb.logstart + tail + 1), .bread .home blk, .memmove .home .log, .bwrite .home,
      .bunpin .home, .brelse .log, .brelse .home] ++ installTransCode (tail + 1) bs

def readHeadCode : List Instr := [.bread .log sb.logstart, .getHead, .brelse .log]

def writeHeadCode : List Instr := [.bread .log sb.logstart, .putHead, .bwrite .log, .brelse .log]

def commitCode (bs : List Nat) : List Instr :=
  if bs = [] then []
  else writeLogCode sb 0 bs ++ (writeHeadCode sb ++ (installTransCode sb 0 bs ++
    (.clear :: writeHeadCode sb)))

def bootCode : List Instr := .bread .log 1 :: .brelse .log :: readHeadCode sb

def recoverCode (bs : List Nat) : List Instr :=
  installTransCode sb 0 bs ++ (.clear :: writeHeadCode sb)

end Code

/-! ## The history -/

def applyWrites (ws : List (Nat × Block)) (D : Disk) : Disk :=
  ws.foldl (fun D w => update D w.1 w.2) D

structure History where
  /-- The home blocks at the first boot. -/
  base : Disk
  /-- The commit groups, each one the calls of `log_write` in order. -/
  groups : List (List (Nat × Block))
  /-- The calls of `log_write` since the last commit began. -/
  group : List (Nat × Block)

def History.contents (h : History) (k : Nat) : Disk :=
  applyWrites (h.groups.take k).flatten h.base

def History.current (h : History) : Disk := applyWrites h.group (h.contents h.groups.length)

def History.logWrite (h : History) (blk : Nat) (v : Block) : History :=
  { h with group := h.group ++ [(blk, v)] }

def History.commit (h : History) : History :=
  if h.group.isEmpty then h else { h with groups := h.groups ++ [h.group], group := [] }

def History.crash (h : History) (durable : Nat) : History :=
  { h with groups := h.groups.take durable, group := [] }

/-- What the home blocks of a disk stand for: the copies in the log come first. -/
def installed (sb : Superblock) (D : Disk) : Disk := fun blk =>
  let bs := getHeader (D sb.logstart)
  if blk ∈ bs then D (sb.logstart + bs.idxOf blk + 1) else D blk

/-! ## The machine -/

structure State where
  cache : Cache
  data : BufId → Block
  disk : Disk
  /-- The holder of the buffer's sleep lock. -/
  sleep : BufId → Option Slot
  /-- The buffer whose sleep lock a caller of `bread` waits for; it has its reference. -/
  wait : Slot → Option BufId
  inOp : Slot → Bool
  log : Log
  /-- The process inside `commit` or `recover_from_log`, and where it is. -/
  logger : Option Slot
  code : List Instr
  next : Next
  reg : Reg → Option BufId
  running : Bool
  halted : Bool
  /-- Calls of `bpin` minus calls of `bunpin`. -/
  pins : BufId → Int
  recovered : List Nat
  history : History
  /-- The number of groups whose header has been written. -/
  durable : Nat
  /-- The number of groups whose `commit` has returned. -/
  returned : Nat

def boot (sb : Superblock) (D : Disk) (h : History) (durable returned : Nat) : State where
  cache := binit
  data := fun _ _ => 0
  disk := D
  sleep := fun _ => none
  wait := fun _ => none
  inOp := fun _ => false
  log := ⟨sb.nlog, 0, false, []⟩
  logger := some 0
  code := bootCode sb
  next := .recover
  reg := fun _ => none
  running := false
  halted := false
  pins := fun _ => 0
  recovered := []
  history := h
  durable := durable
  returned := returned

def init (sb : Superblock) (D : Disk) : State := boot sb D ⟨installed sb D, [], []⟩ 0 0

def State.blockno (s : State) (b : BufId) : Nat := (s.cache.buf b).blockno

def State.bget (s : State) (p : Slot) (blk : Nat) : State :=
  match Bio.bget s.cache ROOTDEV blk with
  | some (c, b) => { s with cache := c, wait := update s.wait p (some b) }
  | none => { s with halted := true }

def State.acquire (s : State) (p : Slot) (b : BufId) : State :=
  { s with
    sleep := update s.sleep b (some p)
    wait := update s.wait p none
    data := if (s.cache.buf b).valid then s.data
      else update s.data b (s.disk (s.blockno b))
    cache := s.cache.setBuf b { s.cache.buf b with valid := true } }

def State.arrive (s : State) (p : Slot) (b : BufId) : State :=
  if s.logger = some p then
    match s.code with
    | .bread r _ :: c => { s with reg := update s.reg r (some b), code := c }
    | _ => s
  else s

def State.release (s : State) (b : BufId) : State :=
  { s with sleep := update s.sleep b none, cache := Bio.brelse s.cache b }

def State.bwrite (s : State) (sb : Superblock) (b : BufId) : State :=
  { s with
    disk := update s.disk (s.blockno b) (s.data b)
    -- a header that lists blocks makes the groups so far durable
    durable := if s.blockno b = sb.logstart ∧ s.log.block ≠ [] then s.history.groups.length
      else s.durable }

def State.bunpin (s : State) (b : BufId) : State :=
  { s with
    cache := Bio.bunpin s.cache b
    pins := update s.pins b (s.pins b - 1)
    recovered := if s.running then s.recovered else s.blockno b :: s.recovered }

def State.advance (s : State) (sb : Superblock) : State :=
  match s.next with
  | .recover => { s with code := recoverCode sb s.log.block, next := .booted }
  | .booted => { s with logger := none, running := true }
  | .finish =>
    { s with
      logger := none
      log := { s.log with committing := false }
      returned := s.history.groups.length }

def exec (sb : Superblock) (s : State) (p : Slot) : Option State :=
  match s.code with
  | [] => some (s.advance sb)
  | .bread _ blk :: _ => some (s.bget p blk)
  | .memmove dst src :: c =>
    (s.reg dst).bind fun x => (s.reg src).map fun y =>
      { s with data := update s.data x (s.data y), code := c }
  | .bwrite r :: c => (s.reg r).map fun x => { s.bwrite sb x with code := c }
  | .bunpin r :: c => (s.reg r).map fun x => { s.bunpin x with code := c }
  | .brelse r :: c =>
    (s.reg r).map fun x => { s.release x with reg := update s.reg r none, code := c }
  | .getHead :: c =>
    (s.reg .log).map fun x =>
      { s with log := { s.log with block := getHeader (s.data x) }, code := c }
  | .putHead :: c =>
    (s.reg .log).map fun x =>
      { s with data := update s.data x (putHeader (s.data x) s.log.block), code := c }
  | .clear :: c => some { s with log := { s.log with block := [] }, code := c }

def go (sb : Superblock) (s : State) (p : Slot) : Option State :=
  match s.wait p with
  | some b => if s.sleep b = none then some ((s.acquire p b).arrive p b) else none
  | none => if s.logger = some p then exec sb s p else none

def State.logWrite (s : State) (b : BufId) (v : Block) : State :=
  match logWriteTests s.log with
  | .error _ => { s with halted := true }
  | .ok _ =>
    let new := s.blockno b ∉ s.log.block
    { s with
      data := update s.data b v
      log := logAppend s.log (s.blockno b)
      cache := if new then bpin s.cache b else s.cache
      pins := if new then update s.pins b (s.pins b + 1) else s.pins
      history := s.history.logWrite (s.blockno b) v }

def State.endOp (s : State) (sb : Superblock) (p : Slot) : State :=
  match Fs.endOp s.log with
  | .error _ => { s with halted := true }
  | .ok (l, false) => { s with log := l, inOp := update s.inOp p false }
  | .ok (l, true) =>
    { s with
      log := l
      inOp := update s.inOp p false
      logger := some p
      code := commitCode sb l.block
      next := .finish
      history := s.history.commit }

inductive Op where
  | go (p : Slot)
  | bread (p : Slot) (blk : Nat)
  | brelse (p : Slot) (b : BufId)
  | beginOp (p : Slot)
  | logWrite (p : Slot) (b : BufId) (v : Block)
  | endOp (p : Slot)
  | tick
  | crash

def State.Free (s : State) (p : Slot) : Prop :=
  s.running = true ∧ s.logger ≠ some p ∧ s.wait p = none

instance (s : State) (p : Slot) : Decidable (s.Free p) := inferInstanceAs (Decidable (_ ∧ _ ∧ _))

/-- A panic stops the machine until the next boot. -/
def step (sb : Superblock) (s : State) (op : Op) : Option State :=
  match op with
  | .crash => some (boot sb s.disk (s.history.crash s.durable) s.durable s.returned)
  | .go p => if s.halted then none else go sb s p
  | .bread p blk =>
    if s.halted = false ∧ s.Free p ∧ blk < 2 ^ 32 then some (s.bget p blk) else none
  | .brelse p b =>
    if s.halted = false ∧ s.Free p ∧ s.sleep b = some p then some (s.release b) else none
  | .beginOp p =>
    if s.halted = false ∧ s.Free p ∧ s.inOp p = false then
      (Fs.beginOp s.log).map fun l => { s with log := l, inOp := update s.inOp p true }
    else none
  | .logWrite p b v =>
    if s.halted = false ∧ s.Free p ∧ s.inOp p = true ∧ s.sleep b = some p ∧
      Home sb (s.blockno b) then
      some (s.logWrite b v)
    else none
  | .endOp p =>
    if s.halted = false ∧ s.Free p ∧ s.inOp p = true then some (s.endOp sb p) else none
  | .tick =>
    if s.halted then none else some { s with cache := { s.cache with ticks := s.cache.ticks + 1 } }

end BirdOS.Journal
