import BirdOS.Lib.Machine

/-! # Alarms (`usertrap`, `sigalarm`, `sigreturn`, `syscall`, `trampoline.S`)

One process and the traps it takes from user space.  `regs` and `pc` are the registers of
the CPU while the process runs its own code; `uservec` stores them in the trapframe and
`userret` loads them from it.  What other system calls return, and whether `exec` finds a
program, is part of the label. -/

namespace BirdOS.Alarm

open Function Option Machine

inductive Reg where
  | ra | sp | gp | tp | t0 | t1 | t2 | s0 | s1
  | a0 | a1 | a2 | a3 | a4 | a5 | a6 | a7
  | s2 | s3 | s4 | s5 | s6 | s7 | s8 | s9 | s10 | s11
  | t3 | t4 | t5 | t6
  deriving DecidableEq

structure Trapframe where
  kernel_satp : UInt64
  kernel_sp : UInt64
  kernel_trap : UInt64
  epc : UInt64
  kernel_hartid : UInt64
  reg : Reg → UInt64

structure Proc where
  regs : Reg → UInt64
  pc : UInt64
  trapframe : Trapframe
  alarm_interval : Int32
  alarm_handler : UInt64
  alarm_ticks : Int32
  alarm_trapframe : Trapframe
  alarm_goingoff : Bool
  killed : Bool

structure Hart where
  satp : UInt64
  kstackTop : UInt64
  usertrap : UInt64
  id : UInt64

/-! ## Entering and leaving the kernel -/

/-- `uservec`, and the first assignment of `usertrap`. -/
def uservec (p : Proc) : Proc :=
  { p with trapframe := { p.trapframe with reg := p.regs, epc := p.pc } }

def usertrapret (h : Hart) (p : Proc) : Proc :=
  { p with
    trapframe :=
      { p.trapframe with
        kernel_satp := h.satp
        kernel_sp := h.kstackTop
        kernel_trap := h.usertrap
        kernel_hartid := h.id }
    regs := p.trapframe.reg
    pc := p.trapframe.epc }

/-! ## System calls -/

def SYS_exit : Int32 := 2
def SYS_exec : Int32 := 7
def SYS_execve : Int32 := 26
def SYS_sigalarm : Int32 := 43
def SYS_sigreturn : Int32 := 44
/-- `NELEM(syscalls)`; the table has no gap from 1 on. -/
def NSYSCALL : Int32 := 54

def sigalarm (p : Proc) (ticks : Int32) (handler : UInt64) : Proc :=
  { p with alarm_interval := ticks, alarm_handler := handler, alarm_ticks := ticks }

def sigreturn (p : Proc) : Proc :=
  { p with trapframe := p.alarm_trapframe, alarm_goingoff := false }

def Proc.setReg (p : Proc) (g : Reg) (v : UInt64) : Proc :=
  { p with trapframe := { p.trapframe with reg := update p.trapframe.reg g v } }

def exec (p : Proc) (sp entry : UInt64) : Proc :=
  let p := p.setReg .a1 sp
  let p := { p with trapframe := { p.trapframe with epc := entry } }
  p.setReg .sp sp

def argint (p : Proc) (g : Reg) : Int32 := (p.trapframe.reg g).toUInt32.toInt32

structure Answer where
  ret : UInt64
  /-- Whether `argaddr` accepts the address of the handler. -/
  mapped : Bool
  /-- The stack pointer and entry point of a program that `exec` has loaded. -/
  image : Option (UInt64 × UInt64)

/-- `syscalls[num]()`; `none` where it does not return. -/
def call (num : Int32) (ans : Answer) (p : Proc) : Option (UInt64 × Proc) :=
  if num = SYS_exit then none
  else if num = SYS_sigalarm then
    if ans.mapped then some (0, sigalarm p (argint p .a0) (p.trapframe.reg .a1))
    else some (-1, p)
  else if num = SYS_sigreturn then some (0, sigreturn p)
  else if num = SYS_exec ∨ num = SYS_execve then
    match ans.image with
    | none => some (-1, p)
    | some (sp, entry) => some (ans.ret, exec p sp entry)
  else some (ans.ret, p)

/-- The return value is stored after the call. -/
def syscall (ans : Answer) (p : Proc) : Option Proc :=
  let num := argint p .a7
  if 0 < num ∧ num < NSYSCALL then
    (call num ans p).map fun r => r.2.setReg .a0 r.1
  else some (p.setReg .a0 (-1))

/-! ## The timer -/

def timer (p : Proc) : Proc :=
  if p.alarm_interval ≠ 0 then
    let p := { p with alarm_ticks := p.alarm_ticks - 1 }
    if p.alarm_ticks ≤ 0 then
      if ¬ p.alarm_goingoff then
        { p with
          alarm_ticks := p.alarm_interval
          alarm_trapframe := p.trapframe
          trapframe := { p.trapframe with epc := p.alarm_handler }
          alarm_goingoff := true }
      else p
    else p
  else p

inductive Op where
  /-- Instructions of the process. -/
  | user (regs : Reg → UInt64) (pc : UInt64)
  | ecall (h : Hart) (ans : Answer)
  | tick (h : Hart)
  /-- Another device, or a page fault that the kernel resolves. -/
  | trap (h : Hart)
  | kill

/-- The branch of `usertrap` for system calls; `none` where the process exits. -/
def ecall (ans : Answer) (p : Proc) : Option Proc :=
  if p.killed then none
  else syscall ans { p with trapframe := { p.trapframe with epc := p.trapframe.epc + 4 } }

def leave (h : Hart) (p : Proc) : Option Proc :=
  if p.killed then none else some (usertrapret h p)

def step (p : Proc) : Op → Option Proc
  | .user regs pc => some { p with regs := regs, pc := pc }
  | .ecall h ans => (ecall ans (uservec p)).bind (leave h)
  | .tick h => leave h (timer (uservec p))
  | .trap h => leave h (uservec p)
  | .kill => some { p with killed := true }

def Op.Returns (p : Proc) : Op → Prop
  | .ecall _ _ => argint (uservec p) .a7 = SYS_sigreturn
  | _ => False

instance (p : Proc) (op : Op) : Decidable (op.Returns p) := by
  cases op <;> dsimp only [Op.Returns] <;> infer_instance

/-! ## The saved frame -/

structure Saved (f : Trapframe) (p : Proc) : Prop where
  goingoff : p.alarm_goingoff = true
  frame : p.alarm_trapframe = f

section Frame
variable {f : Trapframe} {p p' : Proc} {h : Hart}

section
variable (hs : Saved f p)
include hs

theorem Saved.setReg (g : Reg) (v : UInt64) : Saved f (p.setReg g v) :=
  ⟨hs.goingoff, hs.frame⟩

theorem Saved.leave (hl : leave h p = some p') : Saved f p' := by
  unfold Alarm.leave at hl
  split at hl
  · cases hl
  · cases hl
    exact ⟨hs.goingoff, hs.frame⟩

theorem Saved.timer : Saved f (timer p) := by
  unfold Alarm.timer
  split
  · simp only [hs.goingoff, not_true_eq_false, if_false]
    split
    all_goals exact ⟨rfl, hs.frame⟩
  · exact hs

theorem Saved.call {num : Int32} {ans : Answer} {r : UInt64 × Proc}
    (hnum : num ≠ SYS_sigreturn) (hc : call num ans p = some r) : Saved f r.2 := by
  unfold Alarm.call at hc
  split at hc
  · cases hc
  split at hc
  · split at hc
    · cases hc
      exact ⟨hs.goingoff, hs.frame⟩
    · cases hc
      exact hs
  -- the branch of `sigreturn` is gone by `hnum`
  split at hc
  · split at hc
    · cases hc
      exact hs
    · cases hc
      exact ⟨hs.goingoff, hs.frame⟩
  · cases hc
    exact hs

theorem Saved.syscall {ans : Answer} (hnum : argint p .a7 ≠ SYS_sigreturn)
    (hc : syscall ans p = some p') : Saved f p' := by
  unfold Alarm.syscall at hc
  simp only at hc
  split at hc
  · obtain ⟨r, hr, rfl⟩ := map_eq_some_iff.mp hc
    exact (hs.call hnum hr).setReg ..
  · cases hc
    exact hs.setReg ..

theorem Saved.step {op : Op} (hop : ¬ op.Returns p) (hstep : step p op = some p') : Saved f p' := by
  have hvec : Saved f (uservec p) := ⟨hs.goingoff, hs.frame⟩
  cases op with
  | user regs pc | kill =>
    cases hstep
    exact ⟨hs.goingoff, hs.frame⟩
  | ecall h ans =>
    obtain ⟨q, hq, hl⟩ := bind_eq_some_iff.mp hstep
    unfold ecall at hq
    split at hq
    · cases hq
    have hnext : Saved f { uservec p with
        trapframe := { (uservec p).trapframe with epc := (uservec p).trapframe.epc + 4 } } :=
      ⟨hs.goingoff, hs.frame⟩
    exact (hnext.syscall hop hq).leave hl
  | tick h => exact hvec.timer.leave hstep
  | trap h => exact hvec.leave hstep

end

theorem saved_tick (hidle : p.alarm_goingoff = false) (hstep : step p (.tick h) = some p')
    (hgo : p'.alarm_goingoff = true) : Saved (uservec p).trapframe p' := by
  refine ⟨hgo, ?_⟩
  have hidle' : (uservec p).alarm_goingoff = false := hidle
  simp only [step, leave] at hstep
  split at hstep
  · cases hstep
  cases hstep
  simp only [usertrapret, timer] at hgo ⊢
  split
  · rename_i hint
    rw [if_pos hint] at hgo
    simp only [hidle', Bool.false_eq_true, not_false_eq_true, if_true] at hgo ⊢
    split
    · rfl
    · rename_i hticks
      rw [if_neg hticks] at hgo
      cases hgo
  · rename_i hint
    rw [if_neg hint, hidle'] at hgo
    cases hgo

theorem Saved.returns (hs : Saved f p) {ans : Answer} (hop : (Op.ecall h ans).Returns p)
    (hstep : Alarm.step p (.ecall h ans) = some p') :
    p'.pc = f.epc ∧ p'.trapframe.epc = f.epc ∧ p'.regs = p'.trapframe.reg ∧
      p'.trapframe.reg = update f.reg .a0 0 := by
  obtain ⟨q, hq, hl⟩ := bind_eq_some_iff.mp hstep
  have hframe : q.trapframe = { f with reg := update f.reg .a0 0 } := by
    unfold ecall at hq
    split at hq
    · cases hq
    have hnum : argint { uservec p with trapframe :=
        { (uservec p).trapframe with epc := (uservec p).trapframe.epc + 4 } } .a7 =
        SYS_sigreturn := hop
    simp only [Alarm.syscall, hnum] at hq
    rw [if_pos (by decide)] at hq
    obtain ⟨r, hr, rfl⟩ := map_eq_some_iff.mp hq
    have hcall : r = (0, sigreturn _) := (Option.some.inj hr).symm
    rw [hcall, ← hs.frame]
    rfl
  unfold Alarm.leave at hl
  split at hl
  · cases hl
  · cases hl
    simp only [usertrapret, hframe, and_self]

end Frame

def Resumes (p r : Proc) : Prop :=
  (r.trapframe.epc = p.pc ∧ ∀ g, r.trapframe.reg g = p.regs g) ∧
    r.pc = p.pc ∧ ∀ g, r.regs g = p.regs g

/-- A run of the alarm handler that ends with `sigreturn` leaves no trace exactly if register
`a0` was zero when the timer interrupted the process: `syscall` stores the return value of
`sigreturn` in the frame that `sigreturn` has restored. -/
theorem alarm_handler_transparent_iff {p p' q r : Proc} (h h' : Hart) (ops : List Op)
    (ans : Answer) (hidle : p.alarm_goingoff = false)
    (hstart : step p (.tick h) = some p') (hgo : p'.alarm_goingoff = true)
    (hhandler : Along step (fun s op => ¬ op.Returns s) p' ops)
    (hrun : run step p' ops = some q)
    (hop : (Op.ecall h' ans).Returns q) (hreturn : step q (.ecall h' ans) = some r) :
    Resumes p r ↔ p.regs .a0 = 0 := by
  have hsaved : Saved (uservec p).trapframe q :=
    along_invariant (fun _ _ _ hs hgood hstep => hs.step hgood hstep) ops p' q
      (saved_tick hidle hstart hgo) hhandler hrun
  obtain ⟨hpc, hepc, hregs, hreg⟩ := hsaved.returns hop hreturn
  have hupdate : r.trapframe.reg = update p.regs .a0 0 := hreg
  constructor
  · intro hres
    have ha0 := hres.1.2 .a0
    rw [hupdate, update_self] at ha0
    exact ha0.symm
  · intro ha0
    have hsame : r.trapframe.reg = p.regs := by
      rw [hupdate, ← ha0, update_eq_self]
    exact ⟨⟨hepc, fun g => by rw [hsame]⟩, hpc, fun g => by rw [hregs, hsame]⟩

def idleHart : Hart := ⟨0, 0, 0, 0⟩

def noFrame : Trapframe := ⟨0, 0, 0, 0, 0, fun _ => 0⟩

def busy (regs : Reg → UInt64) : Proc where
  regs := regs
  pc := 0x1000
  trapframe := noFrame
  alarm_interval := 1
  alarm_handler := 0x40
  alarm_ticks := 1
  alarm_trapframe := noFrame
  alarm_goingoff := false
  killed := false

def handlerOps : List Op :=
  [.user (fun g => if g = .a7 then 16 else 3) 0x44, .ecall idleHart ⟨3, true, none⟩,
    .tick idleHart, .user (fun g => if g = .a7 then 44 else 9) 0x50]

theorem alarm_handler_transparent_zero : ∃ p' q r,
    step (busy fun g => if g = .a0 then 0 else 7) (.tick idleHart) = some p' ∧
    p'.alarm_goingoff = true ∧ run step p' handlerOps = some q ∧
    step q (.ecall idleHart ⟨0, true, none⟩) = some r ∧
    Resumes (busy fun g => if g = .a0 then 0 else 7) r :=
  ⟨_, _, _, rfl, rfl, rfl, rfl, (alarm_handler_transparent_iff idleHart idleHart handlerOps
    ⟨0, true, none⟩ rfl rfl rfl (by decide) rfl (by decide) rfl).mpr rfl⟩

theorem alarm_handler_changes_a0 : ∃ p' q r,
    step (busy fun _ => 7) (.tick idleHart) = some p' ∧ p'.alarm_goingoff = true ∧
    Along step (fun s op => ¬ op.Returns s) p' handlerOps ∧
    run step p' handlerOps = some q ∧ (Op.ecall idleHart ⟨0, true, none⟩).Returns q ∧
    step q (.ecall idleHart ⟨0, true, none⟩) = some r ∧ r.regs .a0 = 0 ∧
    ¬ Resumes (busy fun _ => 7) r := by
  refine ⟨_, _, _, rfl, rfl, by decide, rfl, by decide, rfl, rfl, ?_⟩
  intro hres
  have ha0 := hres.2.2 .a0
  exact absurd ha0 (by decide)

end BirdOS.Alarm
