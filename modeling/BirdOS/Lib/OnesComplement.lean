import BirdOS.Lib.ByteMem

/-! # Sums of 16-bit words with end-around carry

`wordSum` adds the words of a memory, `fold` brings the carries of a 32-bit sum back into its low
16 bits, and `complement` is the field that makes a sum of words come out as all ones. -/

namespace OnesComplement

open ByteMem

def fold (sum : Nat) : Nat :=
  let sum := sum % 2 ^ 16 + sum / 2 ^ 16
  sum + sum / 2 ^ 16

def complement (sum : Nat) : Nat := 2 ^ 16 - 1 - fold sum % 2 ^ 16

def wordSum (m : Mem) (a : Nat) : Nat → Nat
  | 0 => 0
  | n + 1 => load m a 2 + wordSum m (a + 2) n

theorem complement_lt (sum : Nat) : complement sum < 2 ^ 16 := by
  unfold complement
  omega

theorem fold_mod {sum : Nat} (h : sum < 2 ^ 32) : fold sum % 2 ^ 16 =
      if sum % 2 ^ 16 + sum / 2 ^ 16 < 2 ^ 16 then sum % 2 ^ 16 + sum / 2 ^ 16
      else sum % 2 ^ 16 + sum / 2 ^ 16 - (2 ^ 16 - 1) := by
  have hlow : sum % 2 ^ 16 < 2 ^ 16 := Nat.mod_lt _ (by decide)
  have hhigh : sum / 2 ^ 16 < 2 ^ 16 := by omega
  simp only [fold]
  generalize sum % 2 ^ 16 = low at *
  generalize sum / 2 ^ 16 = high at *
  split <;> omega

theorem halves_mod (sum : Nat) :
    (sum % 2 ^ 16 + sum / 2 ^ 16) % (2 ^ 16 - 1) = sum % (2 ^ 16 - 1) := by
  omega

theorem complement_eq_zero {sum : Nat} (h : sum < 2 ^ 32) :
    complement sum = 0 ↔ 0 < sum ∧ sum % (2 ^ 16 - 1) = 0 := by
  have hlow : sum % 2 ^ 16 < 2 ^ 16 := Nat.mod_lt _ (by decide)
  have hhigh : sum / 2 ^ 16 < 2 ^ 16 := by omega
  have hpos : 0 < sum ↔ 0 < sum % 2 ^ 16 + sum / 2 ^ 16 := by omega
  rw [complement, fold_mod h, hpos, ← halves_mod]
  generalize sum % 2 ^ 16 = low at *
  generalize sum / 2 ^ 16 = high at *
  split <;> omega

theorem complement_add {sum : Nat} (h : sum + 2 ^ 16 ≤ 2 ^ 32) :
    complement (sum + complement sum) = 0 := by
  have hlt := complement_lt sum
  rw [complement_eq_zero (by omega)]
  have hhalves := halves_mod sum
  have hfold := fold_mod (show sum < 2 ^ 32 by omega)
  have hcomp : complement sum = 2 ^ 16 - 1 - fold sum % 2 ^ 16 := rfl
  have hlow : sum % 2 ^ 16 < 2 ^ 16 := Nat.mod_lt _ (by decide)
  have hhigh : sum / 2 ^ 16 < 2 ^ 16 := by omega
  have hpos : 0 < sum ↔ 0 < sum % 2 ^ 16 + sum / 2 ^ 16 := by omega
  rw [hfold] at hcomp
  generalize sum % 2 ^ 16 = low at *
  generalize sum / 2 ^ 16 = high at *
  split at hcomp <;> omega

theorem wordSum_lt (m : Mem) : ∀ (n a : Nat), wordSum m a n ≤ n * (2 ^ 16 - 1) := by
  intro n
  induction n with
  | zero => exact fun _ => Nat.le_refl 0
  | succ n ih =>
    intro a
    have hword := load_lt m 2 a
    have hrest := ih (a + 2)
    rw [wordSum]
    omega

theorem wordSum_append (m : Mem) :
    ∀ (i a j : Nat), wordSum m a (i + j) = wordSum m a i + wordSum m (a + 2 * i) j := by
  intro i
  induction i with
  | zero => simp [wordSum]
  | succ i ih =>
    intro a j
    rw [show i + 1 + j = i + j + 1 by omega, wordSum, wordSum, ih (a + 2) j,
      show a + 2 + 2 * i = a + 2 * (i + 1) by omega]
    omega

theorem wordSum_congr {m m' : Mem} :
    ∀ (n a b : Nat), (∀ i < n, load m (a + 2 * i) 2 = load m' (b + 2 * i) 2) →
      wordSum m a n = wordSum m' b n := by
  intro n
  induction n with
  | zero => exact fun _ _ _ => rfl
  | succ n ih =>
    intro a b h
    have hfirst := h 0 (Nat.succ_pos n)
    have hrest := ih (a + 2) (b + 2) fun i hi => by
      have := h (i + 1) (by omega)
      rwa [show a + 2 * (i + 1) = a + 2 + 2 * i by omega,
        show b + 2 * (i + 1) = b + 2 + 2 * i by omega] at this
    simp only [mul_zero, add_zero] at hfirst
    rw [wordSum, wordSum, hfirst, hrest]

theorem wordSum_store (m : Mem) {a i n v : Nat} (hi : i < n) (hv : v < 2 ^ 16)
    (hzero : load m (a + 2 * i) 2 = 0) :
    wordSum (store m (a + 2 * i) 2 v) a n = wordSum m a n + v := by
  obtain ⟨j, rfl⟩ := Nat.exists_eq_add_of_lt hi
  rw [show i + j + 1 = i + (j + 1) by omega, wordSum_append _ i, wordSum_append _ i, wordSum,
    wordSum, load_store, hzero, Nat.mod_eq_of_lt (by omega)]
  have hlow : wordSum (store m (a + 2 * i) 2 v) a i = wordSum m a i :=
    wordSum_congr i a a fun k hk => load_store_other m (by omega)
  have hhigh : wordSum (store m (a + 2 * i) 2 v) (a + 2 * i + 2) j = wordSum m (a + 2 * i + 2) j :=
    wordSum_congr j _ _ fun k hk => load_store_other m (by omega)
  rw [hlow, hhigh]
  omega

end OnesComplement
