import Mathlib.Data.BitVec
import BirdOS.Param
import BirdOS.Lib.Machine
import BirdOS.Lib.Ring

/-! # Pipes (`pipewrite` and `piperead` of `pipe.c`)

Both ends are open and the buffers of the user are valid, but for the last section.  A process
holds the lock of the pipe between the points where the code takes and releases it; `sleep`
releases it and takes it again, and `wakeup` makes the processes runnable that sleep on a channel.
Two histories record the bytes in the order in which they are put into the ring and taken from
it. -/

namespace BirdOS.Pipe

open Machine Ring Function List

def PIPESIZE : Nat := 512

structure PipeData where
  data : Nat → UInt8
  nread : BitVec 32
  nwrite : BitVec 32

def PipeData.full (pi : PipeData) : Bool := pi.nwrite = pi.nread + BitVec.ofNat 32 PIPESIZE

def PipeData.empty (pi : PipeData) : Bool := pi.nread = pi.nwrite

def PipeData.put (pi : PipeData) (ch : UInt8) : PipeData :=
  { pi with
    data := update pi.data (pi.nwrite.toNat % PIPESIZE) ch
    nwrite := pi.nwrite + 1 }

def PipeData.head (pi : PipeData) : UInt8 := pi.data (pi.nread.toNat % PIPESIZE)

def PipeData.drop (pi : PipeData) : PipeData := { pi with nread := pi.nread + 1 }

inductive Chan where
  | nread
  | nwrite
  deriving DecidableEq

/-- A writer has its buffer and `i`, a reader `n` and the bytes copied out. -/
inductive Pc where
  | idle
  | writeEnter (buf : List UInt8)
  | writeTest (buf : List UInt8) (i : Nat)
  | writePut (buf : List UInt8) (i : Nat)
  | writeSleep (buf : List UInt8) (i : Nat)
  | writeWoken (buf : List UInt8) (i : Nat)
  | readEnter (n : Int)
  | readTest (n : Int)
  | readSleep (n : Int)
  | readWoken (n : Int)
  | readLoop (n : Int) (got : List UInt8)
  | readTake (n : Int) (got : List UInt8)

def Pc.locked : Pc → Bool
  | .writeTest .. | .writePut .. | .readTest .. | .readLoop .. | .readTake .. => true
  | _ => false

def Pc.wakeup (chan : Chan) : Pc → Pc
  | .writeSleep buf i => if chan = .nwrite then .writeWoken buf i else .writeSleep buf i
  | .readSleep n => if chan = .nread then .readWoken n else .readSleep n
  | pc => pc

structure State where
  pi : PipeData
  lock : Option Slot
  pc : Slot → Pc
  killed : Slot → Bool
  /-- What the last call of a process returned. -/
  ret : Slot → Option Int
  /-- The bytes put into the ring, in this order, with their writers. -/
  accepted : List (Slot × UInt8)
  /-- The bytes taken from the ring, in this order. -/
  handed : List UInt8

section Steps
variable (s : State) (p : Slot)

def goto (pc : Pc) : State := { s with pc := update s.pc p pc }

def wakeup (chan : Chan) : State := { s with pc := fun q => (s.pc q).wakeup chan }

def acquire (pc : Pc) : Option State :=
  if s.lock = none then some { goto s p pc with lock := some p } else none

def sleep (pc : Pc) : State := { goto s p pc with lock := none }

def leave (r : Int) : State :=
  { goto s p .idle with lock := none, ret := update s.ret p (some r) }

def exec : Option State :=
  match s.pc p with
  | .idle => none
  | .writeEnter buf => acquire s p (.writeTest buf 0)
  | .writeTest buf i =>
    if i < buf.length then
      if s.pi.full then
        if s.killed p then some (leave s p (-1))
        else some (sleep (wakeup s .nread) p (.writeSleep buf i))
      else some (goto s p (.writePut buf i))
    else some (leave (wakeup s .nread) p i)
  | .writePut buf i =>
    some { goto s p (.writeTest buf (i + 1)) with
      pi := s.pi.put (buf.getD i 0)
      accepted := s.accepted ++ [(p, buf.getD i 0)] }
  | .writeSleep _ _ => none
  | .writeWoken buf i => acquire s p (.writeTest buf i)
  | .readEnter n => acquire s p (.readTest n)
  | .readTest n =>
    if s.pi.empty then
      if s.killed p then some (leave s p (-1)) else some (sleep s p (.readSleep n))
    else some (goto s p (.readLoop n []))
  | .readSleep _ => none
  | .readWoken n => acquire s p (.readTest n)
  | .readLoop n got =>
    if got.length < n ∧ s.pi.empty = false then some (goto s p (.readTake n got))
    else some (leave (wakeup s .nwrite) p got.length)
  | .readTake n got =>
    some { goto s p (.readLoop n (got ++ [s.pi.head])) with
      pi := s.pi.drop
      handed := s.handed ++ [s.pi.head] }

def kill : State :=
  { goto s p (((s.pc p).wakeup .nread).wakeup .nwrite) with
    killed := update s.killed p true }

end Steps

inductive Op where
  | write (p : Slot) (buf : List UInt8)
  | read (p : Slot) (n : Int)
  | run (p : Slot)
  | kill (p : Slot)
  /-- The process exits, and another one gets its slot. -/
  | replace (p : Slot)

def step (s : State) : Op → Option State
  | .write p buf => match s.pc p with
    | .idle => some (goto s p (.writeEnter buf))
    | _ => none
  | .read p n => match s.pc p with
    | .idle => some (goto s p (.readEnter n))
    | _ => none
  | .run p => exec s p
  | .kill p => some (kill s p)
  | .replace p => match s.pc p with
    | .idle => some { s with killed := update s.killed p false }
    | _ => none

def pipealloc (data : Nat → UInt8) : State where
  pi := ⟨data, 0, 0⟩
  lock := none
  pc := fun _ => .idle
  killed := fun _ => false
  ret := fun _ => none
  accepted := []
  handed := []

/-! ## The ring -/

namespace PipeData

def count (pi : PipeData) : Nat := (pi.nwrite - pi.nread).toNat

def pending (pi : PipeData) : List UInt8 := window pi.data PIPESIZE pi.nread.toNat pi.count

section Ring
variable {pi : PipeData}

theorem count_put (h : pi.count < PIPESIZE) (ch : UInt8) : (pi.put ch).count = pi.count + 1 := by
  simp only [count, put, PIPESIZE] at h ⊢
  bv_omega

theorem count_drop (h : pi.empty = false) : pi.drop.count + 1 = pi.count := by
  have hne : pi.nread ≠ pi.nwrite := by simpa [empty] using h
  simp only [count, drop]
  bv_omega

theorem count_lt_of_not_full (h : pi.count ≤ PIPESIZE) (hfull : pi.full = false) :
    pi.count < PIPESIZE := by
  have hne : pi.nwrite ≠ pi.nread + BitVec.ofNat 32 PIPESIZE := by simpa [full] using hfull
  simp only [count, PIPESIZE] at h hne ⊢
  bv_omega

theorem nwrite_mod (pi : PipeData) :
    pi.nwrite.toNat % PIPESIZE = (pi.nread.toNat + pi.count) % PIPESIZE := by
  simp only [count, PIPESIZE]
  bv_omega

theorem pending_put (h : pi.count < PIPESIZE) (ch : UInt8) :
    (pi.put ch).pending = pi.pending ++ [ch] := by
  rw [pending, count_put h, put, nwrite_mod]
  exact window_push h pi.data pi.nread.toNat ch

theorem pending_drop (h : pi.empty = false) : pi.pending = pi.head :: pi.drop.pending := by
  have hstart : (pi.nread.toNat + 1) % PIPESIZE = (pi.nread + 1).toNat % PIPESIZE := by
    simp only [PIPESIZE]
    bv_omega
  rw [pending, ← count_drop h, window_pop, window_congr hstart]
  rfl

end Ring

end PipeData

/-! ## Runs -/

def State.sent (s : State) (p : Slot) : List UInt8 :=
  (s.accepted.filter fun e => e.1 = p).map Prod.snd

/-- A writer's buffer up to `i`, or the bytes that a reader has copied out, are the last ones to
have gone that way; and the result of its test. -/
def Pc.Knows (pi : PipeData) (sent handed : List UInt8) : Pc → Prop
  | .writeTest buf i | .writeSleep buf i | .writeWoken buf i => buf.take i <:+ sent
  | .writePut buf i => buf.take i <:+ sent ∧ i < buf.length ∧ pi.full = false
  | .readLoop _ got => got <:+ handed
  | .readTake _ got => got <:+ handed ∧ pi.empty = false
  | _ => True

structure Inv (s : State) : Prop where
  owner : ∀ p, s.lock = some p ↔ (s.pc p).locked = true
  knows : ∀ p, (s.pc p).Knows s.pi (s.sent p) s.handed
  count : s.pi.count ≤ PIPESIZE
  fifo : s.accepted.map Prod.snd = s.handed ++ s.pi.pending

theorem Pc.knows_of_unlocked {pc : Pc} {pi pi' : PipeData} {sent handed handed' : List UInt8}
    (h : pc.locked = false) (hk : pc.Knows pi sent handed) : pc.Knows pi' sent handed' := by
  cases pc <;> first | exact hk | cases h

theorem Pc.locked_wakeup (chan : Chan) (pc : Pc) : (pc.wakeup chan).locked = pc.locked := by
  cases pc <;> simp only [Pc.wakeup] <;> split <;> rfl

theorem Pc.knows_wakeup (chan : Chan) {pc : Pc} {pi : PipeData} {sent handed : List UInt8}
    (h : pc.Knows pi sent handed) : (pc.wakeup chan).Knows pi sent handed := by
  cases pc <;> simp only [Pc.wakeup] <;> first | exact h | split <;> exact h

section Inv
variable {s : State} {p : Slot} {pc : Pc}

section
variable (h : Inv s)
include h

theorem Inv.wakeup (chan : Chan) : Inv (wakeup s chan) :=
  ⟨fun p => (h.owner p).trans (by rw [Pipe.wakeup, Pc.locked_wakeup]),
    fun p => Pc.knows_wakeup chan (h.knows p), h.count, h.fifo⟩

theorem Inv.other (hp : s.lock = some p) {q : Slot} (hq : q ≠ p) : (s.pc q).locked = false := by
  by_contra hlocked
  have hown := (h.owner q).mpr (by simpa using hlocked)
  rw [hp] at hown
  exact hq (Option.some.inj hown).symm

theorem Inv.move {lock : Option Slot} (hself : lock = some p ↔ pc.locked = true)
    (hother : ∀ q, q ≠ p → (lock = some q ↔ s.lock = some q))
      (hknows : pc.Knows s.pi (s.sent p) s.handed) :
    Inv { goto s p pc with lock := lock } := by
  refine ⟨fun q => ?_, fun q => ?_, h.count, h.fifo⟩
  · obtain rfl | hq := eq_or_ne q p
    · simpa only [Pipe.goto, update_self] using hself
    · simp only [Pipe.goto, update_of_ne hq]
      exact (hother q hq).trans (h.owner q)
  · obtain rfl | hq := eq_or_ne q p
    · simp only [Pipe.goto, update_self]
      exact hknows
    · simp only [Pipe.goto, update_of_ne hq]
      exact h.knows q

theorem Inv.goto (hlock : pc.locked = (s.pc p).locked)
    (hknows : pc.Knows s.pi (s.sent p) s.handed) :
    Inv (goto s p pc) :=
  h.move (by rw [hlock]; exact h.owner p) (fun _ _ => Iff.rfl) hknows

theorem Inv.acquire {s' : State} (hs : acquire s p pc = some s')
    (hlock : pc.locked = true) (hknows : pc.Knows s.pi (s.sent p) s.handed) : Inv s' := by
  unfold Pipe.acquire at hs
  split at hs
  · next hfree =>
      cases hs
      refine h.move (iff_of_true rfl hlock) (fun q hq => ?_) hknows
      rw [hfree]
      simp [Ne.symm hq]
  · cases hs

theorem Inv.sleep (hown : s.lock = some p) (hlock : pc.locked = false)
    (hknows : pc.Knows s.pi (s.sent p) s.handed) : Inv (sleep s p pc) := by
  refine h.move (by simp [hlock]) (fun q hq => ?_) hknows
  rw [hown]
  simp [Ne.symm hq]

theorem Inv.leave (hown : s.lock = some p) (r : Int) : Inv (leave s p r) := by
  have hsleep : Inv (Pipe.sleep s p .idle) := h.sleep hown rfl trivial
  exact { hsleep with }

theorem Inv.change (hown : s.lock = some p) {s' : State} (hlock : pc.locked = true)
    (hs : s'.lock = s.lock ∧ s'.pc = update s.pc p pc)
    (hsent : ∀ q, q ≠ p → s'.sent q = s.sent q) (hknows : pc.Knows s'.pi (s'.sent p) s'.handed)
    (hcount : s'.pi.count ≤ PIPESIZE)
    (hfifo : s'.accepted.map Prod.snd = s'.handed ++ s'.pi.pending) : Inv s' := by
  refine ⟨fun q => ?_, fun q => ?_, hcount, hfifo⟩
  · rw [hs.1, hs.2]
    obtain rfl | hq := eq_or_ne q p
    · rw [update_self]
      exact iff_of_true hown hlock
    · rw [update_of_ne hq]
      exact h.owner q
  · rw [hs.2]
    obtain rfl | hq := eq_or_ne q p
    · rwa [update_self]
    rw [update_of_ne hq]
    rw [hsent q hq]
    exact Pc.knows_of_unlocked (h.other hown hq) (h.knows q)

theorem Inv.put {buf : List UInt8} {i : Nat} (hpc : s.pc p = .writePut buf i) :
    Inv { Pipe.goto s p (.writeTest buf (i + 1)) with
      pi := s.pi.put (buf.getD i 0)
      accepted := s.accepted ++ [(p, buf.getD i 0)] } := by
  have hown : s.lock = some p := (h.owner p).mpr (by rw [hpc]; rfl)
  have hknows := h.knows p
  rw [hpc] at hknows
  obtain ⟨hsent, hi, hroom⟩ := hknows
  have hlt := PipeData.count_lt_of_not_full h.count hroom
  refine h.change hown rfl ⟨rfl, rfl⟩ (fun q hq => ?_) ?_ ?_ ?_
  · simp [State.sent, Ne.symm hq]
  · have htake : buf.take (i + 1) = buf.take i ++ [buf.getD i 0] := by
      rw [take_succ_eq_append_getElem hi]
      simp [hi]
    have hall : (s.accepted ++ [(p, buf.getD i 0)]).filter (fun e => e.1 = p) =
        s.accepted.filter (fun e => e.1 = p) ++ [(p, buf.getD i 0)] := by
      simp
    simp only [Pc.Knows, State.sent, htake, hall, map_append]
    exact (suffix_append_inj_of_length_eq rfl).mpr ⟨hsent, rfl⟩
  · exact (PipeData.count_put hlt _).trans_le hlt
  · have hfifo := h.fifo
    simp only [map_append, map_singleton, PipeData.pending_put hlt, hfifo,
      append_assoc]
    rfl

theorem Inv.take {n : Int} {got : List UInt8} (hpc : s.pc p = .readTake n got) :
    Inv { Pipe.goto s p (.readLoop n (got ++ [s.pi.head])) with
      pi := s.pi.drop
      handed := s.handed ++ [s.pi.head] } := by
  have hown : s.lock = some p := (h.owner p).mpr (by rw [hpc]; rfl)
  have hknows := h.knows p
  rw [hpc] at hknows
  obtain ⟨hgot, hsome⟩ := hknows
  have hcount := PipeData.count_drop hsome
  refine h.change hown rfl ⟨rfl, rfl⟩ (fun q hq => rfl) ?_ ?_ ?_
  · exact (suffix_append_inj_of_length_eq rfl).mpr ⟨hgot, rfl⟩
  · have hle := h.count
    simp only
    omega
  · have hfifo := h.fifo
    rw [PipeData.pending_drop hsome] at hfifo
    simp only [append_assoc]
    exact hfifo

theorem Inv.exec {s' : State} (hs : exec s p = some s') : Inv s' := by
  have hknows := h.knows p
  have hown := h.owner p
  unfold Pipe.exec at hs
  cases hpc : s.pc p with
  | idle | writeSleep buf i | readSleep n => rw [hpc] at hs; cases hs
  | writeEnter buf =>
    rw [hpc] at hs
    exact h.acquire hs rfl (nil_suffix ..)
  | writeTest buf i =>
    rw [hpc] at hs hknows hown
    have hlock := hown.mpr rfl
    simp only at hs
    split at hs
    · next hi =>
        split at hs
        · split at hs
          · cases hs
            exact h.leave hlock _
          · cases hs
            exact (h.wakeup .nread).sleep hlock rfl hknows
        · next hroom =>
            cases hs
            exact h.goto (by rw [hpc]; rfl) ⟨hknows, hi, by simpa using hroom⟩
    · cases hs
      exact (h.wakeup .nread).leave hlock _
  | writePut buf i =>
    rw [hpc] at hs
    cases hs
    exact h.put hpc
  | writeWoken buf i =>
    rw [hpc] at hs hknows
    exact h.acquire hs rfl hknows
  | readEnter n | readWoken n =>
    rw [hpc] at hs
    exact h.acquire hs rfl trivial
  | readTest n =>
    rw [hpc] at hs hown
    have hlock := hown.mpr rfl
    simp only at hs
    split at hs
    · split at hs
      · cases hs
        exact h.leave hlock _
      · cases hs
        exact h.sleep hlock rfl trivial
    · cases hs
      exact h.goto (by rw [hpc]; rfl) (nil_suffix ..)
  | readLoop n got =>
    rw [hpc] at hs hknows hown
    have hlock := hown.mpr rfl
    simp only at hs
    split at hs
    · next hmore =>
        cases hs
        exact h.goto (by rw [hpc]; rfl) ⟨hknows, hmore.2⟩
    · cases hs
      exact (h.wakeup .nwrite).leave hlock _
  | readTake n got =>
    rw [hpc] at hs
    cases hs
    exact h.take hpc

theorem Inv.step {op : Op} {s' : State} (hs : step s op = some s') : Inv s' := by
  cases op with
  | write p buf | read p n =>
    simp only [Pipe.step] at hs
    split at hs
    · next hidle =>
        cases hs
        exact h.goto (by rw [hidle]; rfl) trivial
    · cases hs
  | run p => exact h.exec hs
  | kill p =>
    cases hs
    have hgoto : Inv (Pipe.goto s p (((s.pc p).wakeup .nread).wakeup .nwrite)) :=
      h.goto (by rw [Pc.locked_wakeup, Pc.locked_wakeup])
        (Pc.knows_wakeup _ (Pc.knows_wakeup _ (h.knows p)))
    exact { hgoto with }
  | replace p =>
    simp only [Pipe.step] at hs
    split at hs
    · cases hs
      exact { h with }
    · cases hs

end

theorem inv_pipealloc (data : Nat → UInt8) : Inv (pipealloc data) where
  owner := fun p => by simp [pipealloc, Pc.locked]
  knows := fun _ => trivial
  count := by simp [pipealloc, PipeData.count]
  fifo := by simp [pipealloc, PipeData.pending, PipeData.count]

end Inv

/-- In every state of a pipe the bytes handed to readers are the first ones accepted from
writers, and the others are those in the ring, of which there are at most `PIPESIZE`.  The bytes
of a writer's buffer are accepted in their order, and those of one call of `piperead` are handed
out together. -/
theorem pipe_is_fifo (data : Nat → UInt8) (ops : List Op) (s : State)
    (hrun : run step (pipealloc data) ops = some s) :
    s.accepted.map Prod.snd = s.handed ++ s.pi.pending ∧
    s.pi.pending.length = (s.pi.nwrite - s.pi.nread).toNat ∧
    (s.pi.nwrite - s.pi.nread).toNat ≤ PIPESIZE ∧
    ∀ p, (s.pc p).Knows s.pi (s.sent p) s.handed := by
  have h : Inv s := run_invariant (fun _ _ _ hs hstep => hs.step hstep) ops _ s
    (inv_pipealloc data) hrun
  refine ⟨h.fifo, ?_, h.count, h.knows⟩
  simp [PipeData.pending, window, PipeData.count]

def threeBytes : List Op :=
  [.read 1 2, .run 1, .run 1, .write 0 [7, 8, 9]] ++ List.replicate 8 (.run 0) ++
    List.replicate 7 (.run 1)

theorem pipe_is_fifo_three : ∃ s, run step (pipealloc fun _ => 0) threeBytes = some s ∧
    s.handed = [7, 8] ∧ s.accepted = [(0, 7), (0, 8), (0, 9)] ∧ s.pi.pending = [9] := by
  have htest : ∃ s, run step (pipealloc fun _ => 0) threeBytes = some s ∧
      (s.handed = [7, 8] ∧ s.accepted = [(0, 7), (0, 8), (0, 9)]) :=
    run_test step (pipealloc fun _ => 0) threeBytes _ (by decide +kernel)
  obtain ⟨s, hrun, hhanded, haccepted⟩ := htest
  have hfifo := (pipe_is_fifo (fun _ => 0) threeBytes s hrun).1
  rw [hhanded, haccepted] at hfifo
  exact ⟨s, hrun, hhanded, haccepted, by simpa using hfifo.symm⟩

/-! ## Destinations that cannot be written -/

/-- `dst i` says whether byte `i` can be written: the count, the user's bytes, and the pipe. -/
def copyLoop (dst : Nat → Bool) : Nat → Nat → PipeData → Nat × List UInt8 × PipeData
  | i, 0, pi => (i, [], pi)
  | i, rem + 1, pi =>
    if pi.empty then (i, [], pi)
    else if dst i then
      let r := copyLoop dst (i + 1) rem pi.drop
      (r.1, pi.head :: r.2.1, r.2.2)
    else (i, [], pi.drop)

/-- From the test of the first loop on; `none` if it sleeps. -/
def piperead (pi : PipeData) (writeopen killed : Bool) (dst : Nat → Bool) (n : Int) :
    Option (Int × List UInt8 × PipeData) :=
  if pi.empty && writeopen then if killed then some (-1, [], pi) else none
  else
    let r := copyLoop dst 0 n.toNat pi
    some (r.1, r.2.1, r.2.2)

theorem PipeData.count_empty {pi : PipeData} (h : pi.empty = true) : pi.count = 0 := by
  have heq : pi.nread = pi.nwrite := by simpa [empty] using h
  simp [count, heq]

theorem copyLoop_spec (dst : Nat → Bool) (rem : Nat) : ∀ (i : Nat) (pi : PipeData),
    i ≤ (copyLoop dst i rem pi).1 ∧
    ((copyLoop dst i rem pi).2.2.pending = pi.pending.drop ((copyLoop dst i rem pi).1 - i) ↔
      ∀ j < rem, j < pi.count → dst (i + j) = true) := by
  induction rem with
  | zero => simp [copyLoop]
  | succ rem ih =>
    intro i pi
    rw [copyLoop]
    split
    · next hempty => simp [pi.count_empty hempty]
    · next hempty =>
      have hcount := pi.count_drop (by simpa using hempty)
      have hpending := pi.pending_drop (by simpa using hempty)
      split
      · next hdst =>
        obtain ⟨hle, hiff⟩ := ih (i + 1) pi.drop
        refine ⟨by simp only; omega, ?_⟩
        have hdrop : (copyLoop dst (i + 1) rem pi.drop).1 - i =
            (copyLoop dst (i + 1) rem pi.drop).1 - (i + 1) + 1 := by omega
        rw [hpending, hdrop, drop_succ_cons, hiff]
        constructor
        · intro h j hj hc
          cases j with
          | zero => exact hdst
          | succ j =>
            rw [← add_assoc, add_right_comm]
            exact h j (by omega) (by omega)
        · intro h j hj hc
          rw [add_right_comm]
          exact h (j + 1) (by omega) (by omega)
      · next hdst =>
        refine ⟨le_rfl, iff_of_false ?_ fun h => hdst (h 0 (by omega) (by omega))⟩
        rw [Nat.sub_self, drop_zero, hpending]
        intro h
        simpa using congrArg length h

/-- `piperead` takes as many bytes from the pipe as it returns, and the next call gets the byte
behind them, if and only if every byte that it comes to can be written: it takes a byte before it
finds out that it cannot. -/
theorem piperead_takes_count_iff (pi : PipeData) (writeopen killed : Bool) (dst : Nat → Bool)
    (n r : Int)
    (out : List UInt8) (pi' : PipeData)
    (h : piperead pi writeopen killed dst n = some (r, out, pi')) :
    pi'.pending = pi.pending.drop r.toNat ↔
      ∀ i : Nat, i < n → i < pi.count → dst i = true := by
  unfold piperead at h
  split at h
  · next hwait =>
    have hempty := pi.count_empty (Bool.and_eq_true .. ▸ hwait).1
    split at h
    · cases h
      simp [hempty]
    · cases h
  cases h
  have hspec := (copyLoop_spec dst n.toNat 0 pi).2
  simp only [Nat.sub_zero, zero_add] at hspec
  rw [Int.toNat_natCast, hspec]
  exact forall_congr' fun i => imp_congr_left Int.lt_toNat

def twoWait : PipeData := ⟨fun i => if i = 0 then 7 else 8, 0, 2⟩

theorem piperead_takes_count_iff_two :
    ∃ r out pi', piperead twoWait true false (fun _ => true) 5 = some (r, out, pi') ∧
      pi'.pending = twoWait.pending.drop r.toNat :=
  ⟨2, [7, 8], _, rfl, (piperead_takes_count_iff twoWait true false (fun _ => true) 5 2
    [7, 8] _ rfl).mpr
    fun _ _ _ => rfl⟩

theorem piperead_loses_byte : ∃ pi', piperead twoWait true false (fun i => i = 0) 5 =
    some (1, [7], pi') ∧
    twoWait.pending = [7, 8] ∧ pi'.pending = [] :=
  ⟨_, rfl, by decide, by decide⟩

end BirdOS.Pipe
