import Mathlib.Data.List.Range
import Mathlib.Tactic.Ring

/-! # Byte-addressed memory

Little-endian loads and stores of `n` bytes, copies that may overlap, and what each of
them leaves alone. -/

namespace ByteMem

open List

abbrev Mem := Nat → UInt8

def load (m : Mem) (a : Nat) : Nat → Nat
  | 0 => 0
  | n + 1 => (m a).toNat + 256 * load m (a + 1) n

def store (m : Mem) (a n v : Nat) : Mem :=
  fun x => if a ≤ x ∧ x < a + n then UInt8.ofNat (v / 256 ^ (x - a)) else m x

def move (m : Mem) (dst src n : Nat) : Mem :=
  fun x => if dst ≤ x ∧ x < dst + n then m (src + (x - dst)) else m x

def fill (m : Mem) (a n : Nat) (b : UInt8) : Mem := fun x => if a ≤ x ∧ x < a + n then b else m x

def put (m : Mem) (a : Nat) (bs : List UInt8) : Mem :=
  fun x => if a ≤ x ∧ x < a + bs.length then bs.getD (x - a) 0 else m x

def storeWords (m : Mem) (a n : Nat) (w : Nat → Nat) : Mem :=
  fun x => if a ≤ x ∧ x < a + 4 * n then UInt8.ofNat
    (w ((x - a) / 4) / 256 ^ ((x - a) % 4)) else m x

def bytes (m : Mem) (a n : Nat) : List UInt8 := (List.range n).map fun i => m (a + i)

variable {m : Mem}

theorem load_congr {m' : Mem} :
    ∀ (n a : Nat), (∀ x, a ≤ x → x < a + n → m x = m' x) → load m a n = load m' a n := by
  intro n
  induction n with
  | zero => exact fun _ _ => rfl
  | succ n ih =>
    intro a h
    rw [load, load, h a le_rfl (by omega),
      ih (a + 1) (fun x hx hx' => h x (by omega) (by omega))]

theorem load_append (m : Mem) :
    ∀ (i a j : Nat), load m a (i + j) = load m a i + 256 ^ i * load m (a + i) j := by
  intro i
  induction i with
  | zero => simp [load]
  | succ i ih =>
    intro a j
    rw [show i + 1 + j = i + j + 1 by omega, load, load, ih (a + 1) j,
      show a + 1 + i = a + (i + 1) by omega, pow_succ]
    ring

variable {a : Nat}

theorem load_low_zero {i j : Nat} (h : load m a (i + j) = 0) : load m a i = 0 := by
  rw [load_append] at h
  omega

theorem load_of_bytes : ∀ (n v : Nat), (∀ i, i < n → m (a + i) = UInt8.ofNat (v / 256 ^ i)) →
      load m a n = v % 256 ^ n := by
  intro n
  induction n with
  | zero => simp [load, Nat.mod_one]
  | succ n ih =>
    intro v h
    have hsplit : v % 256 ^ (n + 1) = v % 256 ^ n + 256 ^ n * (v / 256 ^ n % 256) := by
      rw [pow_succ, Nat.mod_mul]
    rw [load_append, ih v (fun i hi => h i (by omega)), load, load, h n (Nat.lt_succ_self n),
      UInt8.toNat_ofNat', hsplit]
    simp

theorem load_store (m : Mem) (a n v : Nat) : load (store m a n v) a n = v % 256 ^ n := by
  apply load_of_bytes
  intro i hi
  simp only [store]
  rw [if_pos ⟨Nat.le_add_right a i, by omega⟩, Nat.add_sub_cancel_left]

variable {n b k : Nat}

theorem load_store_other (m : Mem) {v : Nat} (h : b + k ≤ a ∨ a + n ≤ b) :
    load (store m a n v) b k = load m b k := by
  apply load_congr
  intro x hx hx'
  simp only [store]
  rw [if_neg (by omega)]

theorem load_lt (m : Mem) : ∀ (n a : Nat), load m a n < 256 ^ n := by
  intro n
  induction n with
  | zero => simp [load]
  | succ n ih =>
    intro a
    have hbyte : (m a).toNat < 256 := (m a).toNat_lt
    have := ih (a + 1)
    rw [load, pow_succ]
    omega

theorem load_storeWords (m : Mem) (w : Nat → Nat) {i : Nat} (hi : i < n) :
    load (storeWords m a n w) (a + 4 * i) 4 = w i % 256 ^ 4 := by
  apply load_of_bytes
  intro j hj
  simp only [storeWords]
  rw [if_pos (by omega), show (a + 4 * i + j - a) / 4 = i by omega,
    show (a + 4 * i + j - a) % 4 = j by omega]

theorem load_storeWords_other (m : Mem) (w : Nat → Nat)
    (h : b + k ≤ a ∨ a + 4 * n ≤ b) : load (storeWords m a n w) b k = load m b k := by
  apply load_congr
  intro x hx hx'
  simp only [storeWords]
  rw [if_neg (by omega)]

theorem load_move (m : Mem) {dst src : Nat} (h : dst ≤ b) (h' : b + k ≤ dst + n) :
    load (move m dst src n) b k = load m (src + (b - dst)) k := by
  have hshift : ∀ (k b : Nat), dst ≤ b → b + k ≤ dst + n →
      load (move m dst src n) b k = load m (src + (b - dst)) k := by
    intro k
    induction k with
    | zero => exact fun _ _ _ => rfl
    | succ k ih =>
      intro b hb hb'
      have hbyte : move m dst src n b = m (src + (b - dst)) := by
        simp only [move]
        rw [if_pos ⟨hb, by omega⟩]
      rw [load, load, hbyte, ih (b + 1) (by omega) (by omega),
        show src + (b + 1 - dst) = src + (b - dst) + 1 by omega]
  exact hshift k b h h'

theorem load_move_other (m : Mem) {dst src : Nat} (h : b + k ≤ dst ∨ dst + n ≤ b) :
    load (move m dst src n) b k = load m b k := by
  apply load_congr
  intro x hx hx'
  simp only [move]
  rw [if_neg (by omega)]

theorem load_fill_zero (m : Mem) (h : a ≤ b) (h' : b + k ≤ a + n) :
    load (fill m a n 0) b k = 0 := by
  rw [load_of_bytes k 0, Nat.zero_mod]
  intro i hi
  simp only [fill]
  rw [if_pos ⟨by omega, by omega⟩, Nat.zero_div]
  rfl

variable {x : Nat}

theorem store_other (m : Mem) {v : Nat} (h : x < a ∨ a + n ≤ x) : store m a n v x = m x := by
  simp only [store]
  rw [if_neg (by omega)]

theorem put_other (m : Mem) {bs : List UInt8} (h : x < a ∨ a + bs.length ≤ x) :
    put m a bs x = m x := by
  simp only [put]
  rw [if_neg (by omega)]

theorem fill_other (m : Mem) {v : UInt8} (h : x < a ∨ a + n ≤ x) :
    fill m a n v x = m x := by
  simp only [fill]
  rw [if_neg (by omega)]

theorem bytes_put (m : Mem) (a : Nat) (bs : List UInt8) : bytes (put m a bs) a bs.length = bs := by
  apply ext_getElem
  · simp [bytes]
  intro i hi hi'
  simp only [bytes, put, getElem_map, getElem_range]
  rw [if_pos ⟨Nat.le_add_right a i, by omega⟩, Nat.add_sub_cancel_left,
    getD_eq_getElem?_getD, getElem?_eq_getElem hi', Option.getD_some]

theorem bytes_congr {m' : Mem} (h : ∀ i < n, m (a + i) = m' (b + i)) : bytes m a n = bytes m' b n :=
  map_congr_left fun i hi => h i (mem_range.mp hi)

theorem move_self (m : Mem) (a n : Nat) : move m a a n = m := by
  funext x
  simp only [move]
  split
  · rw [Nat.add_sub_cancel' (by omega)]
  · rfl

theorem put_nil (m : Mem) (a : Nat) : put m a [] = m := by
  funext x
  simp only [put, length_nil, add_zero]
  rw [if_neg (by omega)]

end ByteMem
