import Mathlib.Algebra.Order.Ring.Int

/-! # Constants of `param.h`, `memlayout.h` and `riscv.h` -/

namespace BirdOS

def NPROC : Nat := 64
def NCPU : Nat := 8
def PGSIZE : Nat := 4096
def KERNBASE : Nat := 0x80000000
def PHYSTOP : Nat := KERNBASE + 128 * 1024 * 1024
def INT_MAX : Int := 2 ^ 31 - 1

/-- A value stored in an `int`. -/
def wrap32 (x : Int) : Int := Int.bmod x (2 ^ 32)

theorem wrap32_eq {x : Int} (h : -2 ^ 31 ≤ x ∧ x < 2 ^ 31) : wrap32 x = x := by
  simp only [wrap32, Int.bmod]
  split <;> omega

theorem wrap32_le (x : Int) : wrap32 x ≤ INT_MAX := by
  simp only [wrap32, Int.bmod, INT_MAX]
  split <;> omega

def pgroundup (a : Nat) : Nat := (a + PGSIZE - 1) / PGSIZE * PGSIZE

def pgrounddown (a : Nat) : Nat := a / PGSIZE * PGSIZE

abbrev Slot := Fin NPROC

instance : NeZero NPROC := ⟨by decide⟩

instance : NeZero NCPU := ⟨by decide⟩

end BirdOS
