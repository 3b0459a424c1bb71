import Mathlib.Data.Set.Insert

/-! # Lock tables and deadlock

`owner l` is the thread that holds lock `l`, and `locks a p` are the locks that thread
`a` holds at the point `p` of its program.  `Agrees` says that the table records exactly
what the points of the threads say; it is kept when one thread moves to a point that
holds one lock more, one lock less or the same locks.

A deadlock is a set of threads each of which holds a lock and wants a lock that another
member holds.  There is none when every thread that wants a lock either wants one of
higher rank than all it holds, or is the only holder of locks that wants one. -/

namespace Locks

open Function

variable {α ι π : Type*}

section Table
variable {owner : ι → Option α} {locks : α → π → List ι} {point : α → π}

def Agrees (owner : ι → Option α) (locks : α → π → List ι) (point : α → π) : Prop :=
  ∀ l a, owner l = some a ↔ l ∈ locks a (point a)

variable [DecidableEq α] {a : α} {p : π} {l : ι}

theorem Agrees.other (h : Agrees owner locks point) (k : ι) {b : α} (hb : b ≠ a) :
    owner k = some b ↔ k ∈ locks b (update point a p b) := by
  rw [update_of_ne hb]
  exact h k b

theorem Agrees.move (h : Agrees owner locks point)
    (hp : ∀ k, k ∈ locks a p ↔ k ∈ locks a (point a)) : Agrees owner locks (update point a p) := by
  intro k b
  obtain rfl | hb := eq_or_ne b a
  · rw [update_self, hp, h k b]
  · exact h.other k hb

variable [DecidableEq ι]

theorem Agrees.acquire (h : Agrees owner locks point) (hfree : owner l = none)
    (hp : ∀ k, k ∈ locks a p ↔ k = l ∨ k ∈ locks a (point a)) :
    Agrees (update owner l (some a)) locks (update point a p) := by
  intro k b
  obtain rfl | hb := eq_or_ne b a
  · rw [update_self, hp]
    by_cases hk : k = l
    · simp [hk]
    · rw [update_of_ne hk, h k b]
      simp [hk]
  rw [← h.other k hb]
  obtain rfl | hk := eq_or_ne k l
  · simp [hfree, Ne.symm hb]
  · rw [update_of_ne hk]

theorem Agrees.release (h : Agrees owner locks point) (hheld : l ∈ locks a (point a))
    (hp : ∀ k, k ∈ locks a p ↔ k ≠ l ∧ k ∈ locks a (point a)) :
    Agrees (update owner l none) locks (update point a p) := by
  intro k b
  obtain rfl | hb := eq_or_ne b a
  · rw [update_self, hp]
    by_cases hk : k = l
    · simp [hk]
    · rw [update_of_ne hk, h k b]
      simp [hk]
  rw [← h.other k hb]
  obtain rfl | hk := eq_or_ne k l
  · simp [(h k a).mpr hheld, Ne.symm hb]
  · rw [update_of_ne hk]

end Table

section Deadlock
variable {owner : ι → Option α} {wants : α → Option ι}

def Deadlock (owner : ι → Option α) (wants : α → Option ι) (D : Set α) : Prop :=
  D.Nonempty ∧ ∀ a ∈ D, (∃ l, owner l = some a) ∧
    ∃ l b, wants a = some l ∧ owner l = some b ∧ b ∈ D ∧ b ≠ a

def Ordered (owner : ι → Option α) (wants : α → Option ι) (rank : ι → Nat) (a : α) : Prop :=
  ∀ l, wants a = some l → ∀ k, owner k = some a → rank k < rank l

def Alone (owner : ι → Option α) (wants : α → Option ι) (a : α) : Prop :=
  ∀ b, b ≠ a → ∀ k, owner k = some b → wants b = none

theorem Deadlock.not_alone {D : Set α} (h : Deadlock owner wants D) {a : α} (ha : a ∈ D) :
    ¬ Alone owner wants a := by
  intro hal
  obtain ⟨-, l, b, -, hb, hbD, hne⟩ := h.2 a ha
  obtain ⟨-, l', -, hw, -⟩ := h.2 b hbD
  rw [hal b hne l hb] at hw
  cases hw

theorem Deadlock.climb {D : Set α} (h : Deadlock owner wants D) {rank : ι → Nat}
    (hord : ∀ a ∈ D, Ordered owner wants rank a) :
    ∀ n, ∃ a ∈ D, ∃ l, wants a = some l ∧ n ≤ rank l := by
  intro n
  induction n with
  | zero =>
    obtain ⟨a, ha⟩ := h.1
    obtain ⟨-, l, -, hw, -⟩ := h.2 a ha
    exact ⟨a, ha, l, hw, Nat.zero_le _⟩
  | succ n ih =>
    obtain ⟨a, ha, l, hw, hn⟩ := ih
    obtain ⟨-, k, b, hk, hb, hbD, -⟩ := h.2 a ha
    rw [hw] at hk
    cases hk
    obtain ⟨-, l', -, hw', -⟩ := h.2 b hbD
    exact ⟨b, hbD, l', hw', Nat.lt_of_le_of_lt hn (hord b hbD l' hw' l hb)⟩

theorem not_deadlock_of_rank (rank : ι → Nat) (bound : Nat) (hbound : ∀ l, rank l ≤ bound)
    (h : ∀ a, Ordered owner wants rank a ∨ Alone owner wants a) (D : Set α) :
    ¬ Deadlock owner wants D := by
  intro hD
  have hord : ∀ a ∈ D, Ordered owner wants rank a := fun a ha =>
    (h a).resolve_right (hD.not_alone ha)
  obtain ⟨a, -, l, -, hl⟩ := hD.climb hord (bound + 1)
  have := hbound l
  omega

theorem deadlock_pair {a b : α} {k l : ι} (hne : a ≠ b) (hk : owner k = some a)
    (hl : owner l = some b) (ha : wants a = some l) (hb : wants b = some k) :
    Deadlock owner wants {a, b} := by
  refine ⟨⟨a, Set.mem_insert a {b}⟩, ?_⟩
  rintro c (rfl | rfl)
  · exact ⟨⟨k, hk⟩, l, b, ha, hl, Set.mem_insert_of_mem c rfl, Ne.symm hne⟩
  · exact ⟨⟨l, hl⟩, k, a, hb, hk, Set.mem_insert a {c}, hne⟩

end Deadlock

end Locks
