import BirdOS.Lib.ByteMem

/-! # Copies (`string.c`)

`memmove` byte by byte, with the pointers of 64 bits, is the copy of `ByteMem` that reads
everything before it writes. -/

namespace BirdOS.Strings

open ByteMem Function

/-- `while(n-- > 0) *d++ = *s++` -/
def copyUp : Nat → Mem → Nat → Nat → Mem
  | 0, m, _, _ => m
  | n + 1, m, d, s => copyUp n (update m d (m s)) ((d + 1) % 2 ^ 64) ((s + 1) % 2 ^ 64)

def back (a : Nat) : Nat := if a = 0 then 2 ^ 64 - 1 else a - 1

/-- `while(n-- > 0) *--d = *--s` -/
def copyDown : Nat → Mem → Nat → Nat → Mem
  | 0, m, _, _ => m
  | n + 1, m, d, s => copyDown n (update m (back d) (m (back s))) (back d) (back s)

/-- The memory after `memmove`, and the pointer that it returns. -/
def memmove (m : Mem) (dst src n : Nat) : Mem × Nat :=
  if src < dst ∧ (src + n) % 2 ^ 64 > dst then
    (copyDown n m ((dst + n) % 2 ^ 64) ((src + n) % 2 ^ 64), dst)
  else (copyUp n m dst src, dst)

variable {m : Mem} {d s : Nat}

theorem move_first {n : Nat} (h : d ≤ s ∨ s + n < d) :
    move (update m d (m s)) (d + 1) (s + 1) n = move m d s (n + 1) := by
  funext x
  simp only [move, update_apply]
  split_ifs <;> first | rfl | omega | (congr 1; omega)

theorem move_last {n : Nat} (h : s ≤ d) :
    move (update m (d + n) (m (s + n))) d s n = move m d s (n + 1) := by
  funext x
  simp only [move, update_apply]
  split_ifs <;> first | rfl | omega | (congr 1; omega)

theorem move_zero : move m d s 0 = m := by
  funext x
  simp only [move]
  rw [if_neg (by omega)]

theorem copyUp_eq (n : Nat) : ∀ (m : Mem) (d s : Nat), d + n ≤ 2 ^ 64 → s + n ≤ 2 ^ 64 →
    (d ≤ s ∨ s + n ≤ d) → copyUp n m d s = move m d s n := by
  induction n with
  | zero => exact fun _ _ _ _ _ _ => move_zero.symm
  | succ n ih =>
    intro m d s hd hs h
    rw [copyUp, ← move_first (by omega)]
    rcases Nat.eq_zero_or_pos n with rfl | hn
    · rw [move_zero]
      rfl
    · rw [Nat.mod_eq_of_lt (by omega), Nat.mod_eq_of_lt (by omega)]
      exact ih _ _ _ (by omega) (by omega) (by omega)

theorem copyDown_eq (n : Nat) : ∀ (m : Mem), d + n ≤ 2 ^ 64 → s + n ≤ 2 ^ 64 → s ≤ d →
    copyDown n m ((d + n) % 2 ^ 64) ((s + n) % 2 ^ 64) = move m d s n := by
  induction n with
  | zero => exact fun _ _ _ _ => move_zero.symm
  | succ n ih =>
    intro m hd hs h
    have hback : ∀ a, a + (n + 1) ≤ 2 ^ 64 → back ((a + (n + 1)) % 2 ^ 64) = (a + n) % 2 ^ 64 := by
      intro a ha
      unfold back
      split <;> omega
    rw [copyDown, hback d hd, hback s hs, ih _ (by omega) (by omega) h, ← move_last h,
      Nat.mod_eq_of_lt (by omega : d + n < 2 ^ 64), Nat.mod_eq_of_lt (by omega : s + n < 2 ^ 64)]

/-- `memmove` is a simultaneous copy, however the ranges overlap. -/
theorem memmove_simultaneous (m : Mem) (dst src n : Nat) (hdst : dst + n ≤ 2 ^ 64)
    (hsrc : src + n ≤ 2 ^ 64) :
    (∀ i, i < n → (memmove m dst src n).1 (dst + i) = m (src + i)) ∧
      ∀ x, x < dst ∨ dst + n ≤ x → (memmove m dst src n).1 x = m x := by
  have hmove : (memmove m dst src n).1 = move m dst src n := by
    unfold memmove
    split
    · exact copyDown_eq n m hdst hsrc (by omega)
    · exact copyUp_eq n m dst src hdst hsrc (by omega)
  rw [hmove]
  refine ⟨fun i hi => ?_, fun x hx => ?_⟩
  · simp only [move]
    rw [if_pos (by omega), Nat.add_sub_cancel_left]
  · simp only [move]
    rw [if_neg (by omega)]

theorem memmove_simultaneous_overlap :
    (∀ i, i < 3 → (memmove UInt8.ofNat 2 1 3).1 (2 + i) = UInt8.ofNat (1 + i)) ∧
      ∀ x, x < 2 ∨ 2 + 3 ≤ x → (memmove UInt8.ofNat 2 1 3).1 x = UInt8.ofNat x :=
  memmove_simultaneous UInt8.ofNat 2 1 3 (by decide) (by decide)

end BirdOS.Strings
