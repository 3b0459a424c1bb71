import Mathlib.Algebra.BigOperators.Ring.Finset
import Mathlib.Algebra.Order.BigOperators.Group.Finset
import Mathlib.Data.Fintype.BigOperators

/-! # Counting over a finite family

`tally w f` is the total weight of the entries of a table `f`.  The weights say what
is counted; a single assignment to the table changes the total by one weight. -/

namespace Tally

open Function Finset

variable {α β : Type*} [Fintype α]

@[irreducible]
def tally (w : β → Nat) (f : α → β) : Nat := ∑ a, w (f a)

theorem tally_update [DecidableEq α] (w : β → Nat) (f : α → β) (a : α) (b : β) :
    tally w (update f a b) + w (f a) = tally w f + w b := by
  have hupd : ∀ x, w (update f a b x) = update (fun y => w (f y)) a (w b) x := by
    intro x
    obtain rfl | hx := eq_or_ne x a
    · simp
    · simp [hx]
  simp only [tally, hupd]
  rw [sum_update_of_mem (mem_univ a), sdiff_singleton_eq_erase]
  have herase := sum_erase_add univ (fun y => w (f y)) (mem_univ a)
  omega

variable {w : β → Nat} {f : α → β}

theorem tally_congr {g : α → β} (h : ∀ a, w (f a) = w (g a)) :
    tally w f = tally w g := by
  simp only [tally, h]

theorem tally_eq_zero : tally w f = 0 ↔ ∀ a, w (f a) = 0 := by
  simp [tally]

theorem le_tally (w : β → Nat) (f : α → β) (a : α) : w (f a) ≤ tally w f := by
  rw [tally]
  exact single_le_sum (f := fun x => w (f x)) (fun _ _ => zero_le) (mem_univ a)

theorem tally_mono {w' : β → Nat} (h : ∀ b, w b ≤ w' b) (f : α → β) : tally w f ≤ tally w' f := by
  simp only [tally]
  exact sum_le_sum fun a _ => h (f a)

theorem tally_add (w w' : β → Nat) (f : α → β) :
    tally (fun b => w b + w' b) f = tally w f + tally w' f := by
  simp only [tally]
  exact sum_add_distrib

theorem tally_mul (c : Nat) (w : β → Nat) (f : α → β) :
    tally (fun b => c * w b) f = c * tally w f := by
  simp only [tally]
  exact (mul_sum _ _ _).symm

theorem tally_le_card (h : ∀ b, w b ≤ 1) (f : α → β) :
    tally w f ≤ Fintype.card α := by
  rw [tally, ← card_univ, card_eq_sum_ones]
  exact sum_le_sum fun a _ => h (f a)

theorem tally_indicator (P : β → Prop) [DecidablePred P] (f : α → β) :
    tally (fun b => if P b then 1 else 0) f = (univ.filter fun a => P (f a)).card := by
  simp only [tally]
  exact (card_filter _ _).symm

/-- Two entries of positive weight are the same one when the total is at most one. -/
theorem eq_of_tally_le_one [DecidableEq α] (h : tally w f ≤ 1) {a b : α}
    (ha : w (f a) ≠ 0) (hb : w (f b) ≠ 0) : a = b := by
  by_contra hne
  rw [tally] at h
  have hpair : ∑ x ∈ {a, b}, w (f x) ≤ ∑ x, w (f x) :=
    sum_le_sum_of_subset (subset_univ _)
  rw [sum_pair hne] at hpair
  omega

theorem exists_of_tally_ne_zero (h : tally w f ≠ 0) :
    ∃ a, w (f a) ≠ 0 := by
  by_contra hall
  apply h
  rw [tally_eq_zero]
  intro a
  by_contra ha
  exact hall ⟨a, ha⟩

end Tally
