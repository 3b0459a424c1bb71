import Mathlib.Data.Nat.Bitwise
import BirdOS.Lib.OnesComplement

/-! # Packet buffers, byte order and the IP checksum (`net.c`, `net.h`)

`head` is the offset of `m->head` in `m->buf`, and pointers into a buffer are offsets too.  A read
of a packet goes through a function `rd` from a place and a width to the bytes there in
little-endian order; it is partial for a received frame, which gives `none` to a read that
leaves the frame. -/

namespace BirdOS.Net

open ByteMem OnesComplement

def MBUF_SIZE : Nat := 2048
def MBUF_DEFAULT_HEADROOM : Nat := 128

structure Mbuf where
  buf : Mem
  head : Nat
  len : Nat

def Mbuf.data (m : Mbuf) : List UInt8 := bytes m.buf m.head m.len

/-- A null pointer is `none`. -/
def mbufpull (m : Mbuf) (len : Nat) : Option (Nat × Mbuf) :=
  if m.len < len then none
  else some (m.head, { m with head := m.head + len, len := m.len - len })

/-- `none` is the panic "mbufpush". -/
def mbufpush (m : Mbuf) (len : Nat) : Option Mbuf :=
  if m.head < len then none
  else some { m with head := m.head - len, len := m.len + len }

/-- `none` is the panic "mbufput"; the sum is an `unsigned int`. -/
def mbufput (m : Mbuf) (len : Nat) : Option (Nat × Mbuf) :=
  if (m.len + len) % 2 ^ 32 > MBUF_SIZE then none
  else some (m.head + m.len, { m with len := (m.len + len) % 2 ^ 32 })

/-- A null pointer is `none`. -/
def mbuftrim (m : Mbuf) (len : Nat) : Option (Nat × Mbuf) :=
  if len > m.len then none
  else some (m.head + (m.len - len), { m with len := m.len - len })

def mbufalloc (headroom : Nat) : Option Mbuf :=
  if headroom > MBUF_SIZE then none else some ⟨fun _ => 0, headroom, 0⟩

/-! ## Byte order -/

def bswaps (val : Nat) : Nat := ((val &&& 0x00ff) <<< 8) ||| ((val &&& 0xff00) >>> 8)

def bswapl (val : Nat) : Nat :=
  ((val &&& 0x000000ff) <<< 24) ||| ((val &&& 0x0000ff00) <<< 8) |||
    ((val &&& 0x00ff0000) >>> 8) ||| ((val &&& 0xff000000) >>> 24)

abbrev ntohs := bswaps
abbrev htons := bswaps
abbrev ntohl := bswapl
abbrev htonl := bswapl

theorem and_byte (val i : Nat) : val &&& (0xff <<< (8 * i)) = (val / 2 ^ (8 * i) % 256) <<<
    (8 * i) := by
  have hshift : val &&& (0xff <<< (8 * i)) = ((val >>> (8 * i)) &&& 0xff) <<< (8 * i) := by
    apply Nat.eq_of_testBit_eq
    intro j
    simp only [Nat.testBit_and, Nat.testBit_shiftLeft, Nat.testBit_shiftRight]
    by_cases hj : 8 * i ≤ j
    · simp [hj, Nat.add_sub_cancel' hj]
    · simp [hj]
  rw [hshift, Nat.and_two_pow_sub_one_eq_mod _ 8, Nat.shiftRight_eq_div_pow]

theorem bswaps_eq (val : Nat) : bswaps val = val % 256 * 256 + val / 256 % 256 := by
  have hlow := and_byte val 0
  have hhigh := and_byte val 1
  simp only [mul_zero, Nat.shiftLeft_zero, Nat.pow_zero, Nat.div_one, mul_one] at hlow hhigh
  have hlow : val &&& 0x00ff = val % 256 := hlow
  have hhigh : val &&& 0xff00 = (val / 256 % 256) <<< 8 := hhigh
  rw [bswaps, hlow, hhigh, Nat.shiftLeft_shiftRight,
    ← Nat.shiftLeft_add_eq_or_of_lt (Nat.mod_lt _ (by decide)), Nat.shiftLeft_eq]

theorem bswapl_eq (val : Nat) : bswapl val =
    val % 256 * 2 ^ 24 + (val / 2 ^ 8 % 256 * 2 ^ 16 + (val / 2 ^ 16 % 256 * 2 ^ 8 +
      val / 2 ^ 24 % 256)) := by
  have h0 := and_byte val 0
  have h1 := and_byte val 1
  have h2 := and_byte val 2
  have h3 := and_byte val 3
  simp only [mul_zero, Nat.shiftLeft_zero, Nat.pow_zero, Nat.div_one, mul_one] at h0 h1
  have h0 : val &&& 0x000000ff = val % 256 := h0
  have h1 : val &&& 0x0000ff00 = (val / 2 ^ 8 % 256) <<< 8 := h1
  have h2 : val &&& 0x00ff0000 = (val / 2 ^ 16 % 256) <<< 16 := h2
  have h3 : val &&& 0xff000000 = (val / 2 ^ 24 % 256) <<< 24 := h3
  have hb1 : val / 2 ^ 8 % 256 < 256 := Nat.mod_lt _ (by decide)
  have hb2 : val / 2 ^ 16 % 256 < 256 := Nat.mod_lt _ (by decide)
  have hb3 : val / 2 ^ 24 % 256 < 256 := Nat.mod_lt _ (by decide)
  have hsh2 : ((val / 2 ^ 16 % 256) <<< 16) >>> 8 = (val / 2 ^ 16 % 256) <<< 8 := by
    rw [Nat.shiftLeft_eq, Nat.shiftLeft_eq, Nat.shiftRight_eq_div_pow]
    omega
  rw [bswapl, h0, h1, h2, h3, hsh2, ← Nat.shiftLeft_add, Nat.shiftLeft_shiftRight, Nat.or_assoc,
    Nat.or_assoc]
  generalize val % 256 = b0 at *
  generalize val / 2 ^ 8 % 256 = b1 at *
  generalize val / 2 ^ 16 % 256 = b2 at *
  generalize val / 2 ^ 24 % 256 = b3 at *
  have hlow : b2 <<< 8 ||| b3 = b2 * 2 ^ 8 + b3 := by
    rw [← Nat.shiftLeft_add_eq_or_of_lt hb3, Nat.shiftLeft_eq]
  have hmid : b1 <<< (8 + 8) ||| (b2 * 2 ^ 8 + b3) = b1 * 2 ^ 16 + (b2 * 2 ^ 8 + b3) := by
    rw [← Nat.shiftLeft_add_eq_or_of_lt (by omega), Nat.shiftLeft_eq]
  rw [hlow, hmid, ← Nat.shiftLeft_add_eq_or_of_lt (by omega), Nat.shiftLeft_eq]

theorem bswaps_lt (val : Nat) : bswaps val < 2 ^ 16 := by
  rw [bswaps_eq]
  omega

theorem bswapl_lt (val : Nat) : bswapl val < 2 ^ 32 := by
  rw [bswapl_eq]
  omega

theorem bswaps_bytes {b0 b1 : Nat} (h0 : b0 < 256) (h1 : b1 < 256) :
    bswaps (b0 * 256 + b1) = b1 * 256 + b0 := by
  rw [bswaps_eq]
  omega

theorem bswapl_bytes {b0 b1 b2 b3 : Nat} (h0 : b0 < 256) (h1 : b1 < 256) (h2 : b2 < 256)
    (h3 : b3 < 256) : bswapl (b0 * 2 ^ 24 + (b1 * 2 ^ 16 + (b2 * 2 ^ 8 + b3))) =
      b3 * 2 ^ 24 + (b2 * 2 ^ 16 + (b1 * 2 ^ 8 + b0)) := by
  rw [bswapl_eq]
  have e0 : (b0 * 2 ^ 24 + (b1 * 2 ^ 16 + (b2 * 2 ^ 8 + b3))) % 256 = b3 := by omega
  have e1 : (b0 * 2 ^ 24 + (b1 * 2 ^ 16 + (b2 * 2 ^ 8 + b3))) / 2 ^ 8 % 256 = b2 := by omega
  have e2 : (b0 * 2 ^ 24 + (b1 * 2 ^ 16 + (b2 * 2 ^ 8 + b3))) / 2 ^ 16 % 256 = b1 := by omega
  have e3 : (b0 * 2 ^ 24 + (b1 * 2 ^ 16 + (b2 * 2 ^ 8 + b3))) / 2 ^ 24 % 256 = b0 := by omega
  rw [e0, e1, e2, e3]

theorem bswaps_bswaps {val : Nat} (h : val < 2 ^ 16) : bswaps (bswaps val) = val := by
  rw [bswaps_eq val, bswaps_bytes (by omega) (by omega)]
  omega

theorem bswapl_bswapl {val : Nat} (h : val < 2 ^ 32) : bswapl (bswapl val) = val := by
  rw [bswapl_eq val, bswapl_bytes (by omega) (by omega) (by omega) (by omega)]
  omega

theorem ntohs_load (m : Mem) (a : Nat) :
    ntohs (load m a 2) = (m a).toNat * 256 + (m (a + 1)).toNat := by
  have h0 := (m a).toNat_lt
  have h1 := (m (a + 1)).toNat_lt
  simp only [ntohs, bswaps_eq, load]
  omega

/-! ## The checksum -/

def cksumLoop (rd : Nat → Nat → Option Nat) : Nat → Nat → Nat → Option Nat
  | nleft + 2, w, sum => (rd w 2).bind fun v => cksumLoop rd nleft (w + 2) ((sum + v) % 2 ^ 32)
  | 1, w, sum => (rd w 1).map fun v => (sum + v) % 2 ^ 32
  | 0, _, sum => some sum

def in_cksum (rd : Nat → Nat → Option Nat) (addr len : Nat) : Option Nat :=
  (cksumLoop rd len addr 0).map fun sum =>
    let sum := sum % 2 ^ 16 + sum / 2 ^ 16
    let sum := sum + sum / 2 ^ 16
    2 ^ 16 - 1 - sum % 2 ^ 16

theorem cksumLoop_words {rd : Nat → Nat → Option Nat} {m : Mem} :
    ∀ (n w sum : Nat), (∀ i < n, rd (w + 2 * i) 2 = some (load m (w + 2 * i) 2)) → sum < 2 ^ 32 →
      cksumLoop rd (2 * n) w sum = some ((sum + wordSum m w n) % 2 ^ 32) := by
  intro n
  induction n with
  | zero =>
    intro w sum _ hsum
    rw [mul_zero, cksumLoop, wordSum, add_zero, Nat.mod_eq_of_lt hsum]
  | succ n ih =>
    intro w sum h hsum
    have hfirst := h 0 (Nat.succ_pos n)
    rw [mul_zero, add_zero] at hfirst
    have hrest := ih (w + 2) ((sum + load m w 2) % 2 ^ 32)
      (fun i hi => by
        have := h (i + 1) (by omega)
        rwa [show w + 2 * (i + 1) = w + 2 + 2 * i by omega] at this)
      (Nat.mod_lt _ (by decide))
    rw [show 2 * (n + 1) = 2 * n + 2 by omega, cksumLoop, hfirst, Option.bind_some, hrest, wordSum]
    congr 1
    omega

theorem in_cksum_words {rd : Nat → Nat → Option Nat} {m : Mem} {addr n : Nat} (hn : n ≤ 2 ^ 16)
    (h : ∀ i < n, rd (addr + 2 * i) 2 = some (load m (addr + 2 * i) 2)) :
    in_cksum rd addr (2 * n) = some (complement (wordSum m addr n)) := by
  have hlt := wordSum_lt m n addr
  rw [in_cksum, cksumLoop_words n addr 0 h (by decide), zero_add, Nat.mod_eq_of_lt (by omega)]
  rfl

end BirdOS.Net
