import Mathlib.Data.List.Basic
import Mathlib.Data.Nat.ModEq

/-! # Ring buffers

`window data n a c` lists the `c` elements that lie in a ring of `n` places from index `a`
on.  A new element goes behind the last one, and the first one is taken away by moving the
start. -/

namespace Ring

open Function List

variable {α : Type*} {data : Nat → α} {n a b c : Nat}

def window (data : Nat → α) (n a c : Nat) : List α :=
  (List.range c).map fun k => data ((a + k) % n)

@[simp] theorem window_zero (data : Nat → α) (n a : Nat) : window data n a 0 = [] := rfl

theorem window_congr (h : a % n = b % n) (data : Nat → α) (c : Nat) :
    window data n a c = window data n b c := by
  refine map_congr_left fun k _ => ?_
  rw [Nat.add_mod, h, ← Nat.add_mod]

theorem window_ext {data' : Nat → α} (h : ∀ k < c, data' ((a + k) % n) = data ((a + k) % n)) :
    window data' n a c = window data n a c :=
  map_congr_left fun k hk => h k (mem_range.mp hk)

@[simp] theorem length_window (data : Nat → α) (n a c : Nat) : (window data n a c).length = c := by
  simp [window]

theorem window_append (data : Nat → α) (n a c d : Nat) :
    window data n a (c + d) = window data n a c ++ window data n (a + c) d := by
  simp [window, range_add, map_append, Function.comp_def, add_assoc]

theorem window_snoc (data : Nat → α) (n a c : Nat) :
    window data n a (c + 1) = window data n a c ++ [data ((a + c) % n)] := by
  rw [window, range_succ, map_append, map_singleton, window]

theorem window_push (hc : c < n) (data : Nat → α) (a : Nat) (x : α) :
    window (update data ((a + c) % n) x) n a (c + 1) = window data n a c ++ [x] := by
  rw [window_snoc, update_self]
  congr 1
  refine map_congr_left fun k hk => ?_
  have hk : k < c := mem_range.mp hk
  -- two places less than `n` apart are different
  have hne : (a + k) % n ≠ (a + c) % n := by
    intro h
    have heq : k % n = c % n := Nat.ModEq.add_left_cancel' a h
    rw [Nat.mod_eq_of_lt (by omega), Nat.mod_eq_of_lt hc] at heq
    omega
  rw [update_of_ne hne]

theorem window_pop (data : Nat → α) (n a c : Nat) :
    window data n a (c + 1) = data (a % n) :: window data n (a + 1) c := by
  rw [window, range_succ_eq_map, map_cons, map_map, window]
  simp only [add_zero, Function.comp_def, Nat.succ_eq_add_one, add_assoc, add_comm 1]

end Ring
