import BirdOS.Lib.ByteMem

/-! # The disk format (`fs.h`)

A disk is an array of blocks of `BSIZE` bytes, as the buffer cache shows it.  The bitmap,
the on-disk inodes and the index blocks are read and written byte by byte; the lemmas say
what each store does to what the others read. -/

namespace BirdOS.Fs

open ByteMem Function

def BSIZE : Nat := 1024
def NDIRECT : Nat := 11
def NINDIRECT : Nat := BSIZE / 4
def NDINDIRECT : Nat := NINDIRECT * NINDIRECT
def MAXFILE : Nat := NDIRECT + NINDIRECT + NDINDIRECT
def NADDR : Nat := NDIRECT + 2
def DINODE : Nat := 64
def IPB : Nat := BSIZE / DINODE
def BPB : Nat := BSIZE * 8

abbrev Block := Mem

abbrev Disk := Nat → Block

/-- The order of the areas is log, inodes, bitmap, data. -/
structure Superblock where
  size : Nat
  ninodes : Nat
  nlog : Nat
  logstart : Nat
  inodestart : Nat
  bmapstart : Nat
  log_le : 2 ≤ logstart
  inode_le : logstart + nlog ≤ inodestart
  bmap_le : inodestart + ninodes / IPB + 1 ≤ bmapstart
  data_le : bmapstart + size / BPB + 1 ≤ size
  size_lt : size < 2 ^ 31

def Superblock.datastart (sb : Superblock) : Nat := sb.bmapstart + sb.size / BPB + 1

def iblock (sb : Superblock) (inum : Nat) : Nat := inum / IPB + sb.inodestart

def bblock (sb : Superblock) (b : Nat) : Nat := b / BPB + sb.bmapstart

theorem iblock_lt (sb : Superblock) {inum : Nat} (h : inum < sb.ninodes) :
    iblock sb inum < sb.bmapstart := by
  have hle : inum / IPB ≤ sb.ninodes / IPB := Nat.div_le_div_right (le_of_lt h)
  have := sb.bmap_le
  unfold iblock
  omega

theorem bmapstart_le_bblock (sb : Superblock) (b : Nat) : sb.bmapstart ≤ bblock sb b :=
  Nat.le_add_left _ _

theorem bblock_lt (sb : Superblock) {b : Nat} (h : b < sb.size) : bblock sb b < sb.datastart := by
  have hle : b / BPB ≤ sb.size / BPB := Nat.div_le_div_right (le_of_lt h)
  unfold bblock Superblock.datastart
  omega

/-! ## Bits -/

def bit (blk : Block) (i : Nat) : Bool := (blk (i / 8)).toBitVec.getLsbD (i % 8)

def setBit (blk : Block) (i : Nat) : Block :=
  update blk (i / 8)
    (UInt8.ofBitVec ((blk (i / 8)).toBitVec ||| BitVec.twoPow 8 (i % 8)))

def clearBit (blk : Block) (i : Nat) : Block :=
  update blk (i / 8)
    (UInt8.ofBitVec ((blk (i / 8)).toBitVec &&& ~~~BitVec.twoPow 8 (i % 8)))

theorem bit_setBit (blk : Block) (i j : Nat) : bit (setBit blk i) j =
    (bit blk j || decide (j = i)) := by
  unfold bit setBit
  by_cases hbyte : j / 8 = i / 8
  · have hmod : i % 8 = j % 8 ↔ j = i := by omega
    have hlt : i % 8 < 8 := Nat.mod_lt _ (by decide)
    rw [hbyte, update_self, UInt8.toBitVec_ofBitVec, BitVec.getLsbD_or, BitVec.getLsbD_twoPow]
    simp only [hlt, decide_true, Bool.true_and, hmod]
  have hne : j ≠ i := fun e => hbyte (by rw [e])
  rw [update_of_ne hbyte]
  simp [hne]

theorem bit_clearBit (blk : Block) (i j : Nat) :
    bit (clearBit blk i) j = (bit blk j && !decide (j = i)) := by
  unfold bit clearBit
  by_cases hbyte : j / 8 = i / 8
  · have hmod : i % 8 = j % 8 ↔ j = i := by omega
    have hlt : i % 8 < 8 := Nat.mod_lt _ (by decide)
    have hlt' : j % 8 < 8 := Nat.mod_lt _ (by decide)
    rw [hbyte, update_self, UInt8.toBitVec_ofBitVec, BitVec.getLsbD_and, BitVec.getLsbD_not,
      BitVec.getLsbD_twoPow]
    simp only [hlt, hlt', decide_true, Bool.true_and, hmod]
  have hne : j ≠ i := fun e => hbyte (by rw [e])
  rw [update_of_ne hbyte]
  simp [hne]

def used (sb : Superblock) (d : Disk) (b : Nat) : Bool := bit (d (bblock sb b)) (b % BPB)

theorem bitmap_index_inj {sb : Superblock} {a b : Nat} (hblk : bblock sb a = bblock sb b) :
    a % BPB = b % BPB ↔ a = b := by
  simp only [bblock, BPB, BSIZE] at hblk ⊢
  omega

section Bitmap
variable (sb : Superblock) (d : Disk)

theorem used_setBit (a b : Nat) :
    used sb (update d (bblock sb a) (setBit (d (bblock sb a)) (a % BPB))) b =
      (used sb d b || decide (b = a)) := by
  unfold used
  by_cases hblk : bblock sb b = bblock sb a
  · rw [hblk, update_self, bit_setBit]
    simp only [bitmap_index_inj hblk]
  have hne : b ≠ a := fun e => hblk (by rw [e])
  rw [update_of_ne hblk]
  simp [hne]

theorem used_clearBit (a b : Nat) :
    used sb (update d (bblock sb a) (clearBit (d (bblock sb a)) (a % BPB))) b =
      (used sb d b && !decide (b = a)) := by
  unfold used
  by_cases hblk : bblock sb b = bblock sb a
  · rw [hblk, update_self, bit_clearBit]
    simp only [bitmap_index_inj hblk]
  have hne : b ≠ a := fun e => hblk (by rw [e])
  rw [update_of_ne hblk]
  simp [hne]

end Bitmap

/-! ## Words of index blocks -/

def word (blk : Block) (k : Nat) : Nat := load blk (4 * k) 4

def setWord (blk : Block) (k v : Nat) : Block := store blk (4 * k) 4 v

theorem word_setWord (blk : Block) (k : Nat) {v : Nat} (hv : v < 2 ^ 32) (j : Nat) :
    word (setWord blk k v) j = if j = k then v else word blk j := by
  unfold word setWord
  split
  · rename_i hj
    rw [hj, load_store]
    omega
  · rw [load_store_other blk (by omega)]

theorem word_zero (k : Nat) : word (fun _ => 0) k = 0 := by
  unfold word
  rw [load_of_bytes 4 0]
  · rfl
  intro i _
  rw [Nat.zero_div]
  rfl

/-! ## Inodes -/

structure Inode where
  type : Nat
  mode : Nat
  major : Nat
  minor : Nat
  nlink : Nat
  size : Nat
  addrs : Fin NADDR → Nat

structure Inode.Fits (ip : Inode) : Prop where
  type : ip.type < 2 ^ 8
  mode : ip.mode < 2 ^ 8
  major : ip.major < 2 ^ 16
  minor : ip.minor < 2 ^ 16
  nlink : ip.nlink < 2 ^ 16
  size : ip.size < 2 ^ 32
  addrs : ∀ i, ip.addrs i < 2 ^ 32

def getDinode (blk : Block) (o : Nat) : Inode where
  mode := load blk o 1
  type := load blk (o + 1) 1
  major := load blk (o + 2) 2
  minor := load blk (o + 4) 2
  nlink := load blk (o + 6) 2
  size := load blk (o + 8) 4
  addrs := fun i => load blk (o + 12 + 4 * i) 4

def putDinode (blk : Block) (o : Nat) (ip : Inode) : Block :=
  let blk := store blk (o + 1) 1 ip.type
  let blk := store blk (o + 2) 2 ip.major
  let blk := store blk (o + 4) 2 ip.minor
  let blk := store blk (o + 6) 2 ip.nlink
  let blk := store blk (o + 8) 4 ip.size
  let blk := store blk o 1 ip.mode
  storeWords blk (o + 12) NADDR fun i => if h : i < NADDR then ip.addrs ⟨i, h⟩ else 0

theorem getDinode_fits (blk : Block) (o : Nat) : (getDinode blk o).Fits where
  type := load_lt blk 1 _
  mode := load_lt blk 1 _
  major := load_lt blk 2 _
  minor := load_lt blk 2 _
  nlink := load_lt blk 2 _
  size := load_lt blk 4 _
  addrs := fun _ => load_lt blk 4 _

theorem getDinode_putDinode (blk : Block) (o : Nat) {ip : Inode} (h : ip.Fits) :
    getDinode (putDinode blk o ip) o = ip := by
  obtain ⟨type, mode, major, minor, nlink, size, addrs⟩ := ip
  obtain ⟨h1, h2, h3, h4, h5, h6, h7⟩ := h
  simp only at h1 h2 h3 h4 h5 h6 h7
  unfold getDinode putDinode
  simp only [Inode.mk.injEq]
  refine ⟨?_, ?_, ?_, ?_, ?_, ?_, ?addrs⟩
  case addrs =>
    funext i
    rw [load_storeWords _ _ i.isLt, dif_pos i.isLt]
    exact Nat.mod_eq_of_lt (h7 i)
  -- The other fields lie before the addresses and beside each other.
  all_goals
    rw [load_storeWords_other _ _ (by omega)]
    simp (disch := omega) only [load_store_other, load_store]
    omega

theorem getDinode_congr {blk blk' : Block} {o : Nat}
    (h : ∀ x, o ≤ x → x < o + DINODE → blk' x = blk x) : getDinode blk' o = getDinode blk o := by
  have hfield : ∀ x k, x + k ≤ 64 → load blk' (o + x) k = load blk (o + x) k := by
    intro x k hx
    refine load_congr k (o + x) fun y hy hy' => h y (by omega) ?_
    simp only [DINODE]
    omega
  unfold getDinode
  simp only [Inode.mk.injEq]
  refine ⟨hfield 1 1 (by omega), hfield 0 1 (by omega), hfield 2 2 (by omega),
    hfield 4 2 (by omega),
    hfield 6 2 (by omega), hfield 8 4 (by omega), ?_⟩
  funext i
  have hi : (i : Nat) < 13 := i.isLt
  have := hfield (12 + 4 * i) 4 (by omega)
  rwa [← add_assoc] at this

theorem putDinode_other (blk : Block) {o x : Nat} (ip : Inode) (h : x < o ∨ o + DINODE ≤ x) :
    putDinode blk o ip x = blk x := by
  simp only [DINODE] at h
  simp only [putDinode, storeWords, store, NADDR, NDIRECT]
  repeat rw [if_neg (by omega)]

def newDinode (blk : Block) (o type : Nat) : Block :=
  let blk := fill blk o DINODE 0
  let blk := store blk (o + 1) 1 type
  store blk o 1 3

def Inode.fresh (type : Nat) : Inode := ⟨type, 3, 0, 0, 0, 0, fun _ => 0⟩

theorem getDinode_newDinode (blk : Block) (o : Nat) {type : Nat} (h : type < 2 ^ 8) :
    getDinode (newDinode blk o type) o = Inode.fresh type := by
  have hzero : ∀ x k, 2 ≤ x → x + k ≤ 64 → load (newDinode blk o type) (o + x) k = 0 := by
    intro x k hx hk
    unfold newDinode
    rw [load_store_other _ (by omega), load_store_other _ (by omega),
      load_fill_zero blk (by omega) (by simp only [DINODE]; omega)]
  unfold getDinode Inode.fresh
  simp only [Inode.mk.injEq]
  refine ⟨?_, ?_, hzero 2 2 (by omega) (by omega), hzero 4 2 (by omega) (by omega),
    hzero 6 2 (by omega) (by omega), hzero 8 4 (by omega) (by omega), ?_⟩
  · unfold newDinode
    rw [load_store_other _ (by omega), load_store]
    omega
  · unfold newDinode
    rw [load_store]
    rfl
  · funext i
    have hi : (i : Nat) < 13 := i.isLt
    have := hzero (12 + 4 * i) 4 (by omega) (by omega)
    rwa [← add_assoc] at this

theorem newDinode_other (blk : Block) {o x : Nat} (type : Nat) (h : x < o ∨ o + DINODE ≤ x) :
    newDinode blk o type x = blk x := by
  simp only [DINODE] at h
  simp only [newDinode, store, fill, DINODE]
  repeat rw [if_neg (by omega)]

def dinodeOff (inum : Nat) : Nat := inum % IPB * DINODE

def iload (sb : Superblock) (d : Disk) (inum : Nat) : Inode :=
  getDinode (d (iblock sb inum)) (dinodeOff inum)

def istore (sb : Superblock) (d : Disk) (inum : Nat) (ip : Inode) : Disk :=
  update d (iblock sb inum) (putDinode (d (iblock sb inum)) (dinodeOff inum) ip)

section Inodes
variable (sb : Superblock) (d : Disk)

theorem iload_fits (inum : Nat) : (iload sb d inum).Fits := getDinode_fits _ _

theorem iload_istore {inum : Nat} {ip : Inode} (h : ip.Fits) :
    iload sb (istore sb d inum ip) inum = ip := by
  unfold iload istore
  rw [update_self]
  exact getDinode_putDinode _ _ h

theorem iload_update_other {inum j : Nat} {blk : Block} (h : j ≠ inum)
    (hblk : ∀ x, x < dinodeOff inum ∨ dinodeOff inum + DINODE ≤ x → blk x = d (iblock sb inum) x) :
    iload sb (update d (iblock sb inum) blk) j = iload sb d j := by
  unfold iload
  by_cases he : iblock sb j = iblock sb inum
  · rw [he, update_self]
    refine getDinode_congr fun x hx hx' => hblk x ?_
    simp only [iblock, dinodeOff, IPB, BSIZE, DINODE] at *
    omega
  · rw [update_of_ne he]

theorem iload_istore_other {inum j : Nat} (ip : Inode) (h : j ≠ inum) :
    iload sb (istore sb d inum ip) j = iload sb d j :=
  iload_update_other sb d h fun _ hx => putDinode_other _ ip hx

theorem iload_congr {d d' : Disk} {inum : Nat} (h : d' (iblock sb inum) = d (iblock sb inum)) :
    iload sb d' inum = iload sb d inum := by
  unfold iload
  rw [h]

theorem used_congr {d d' : Disk} {b : Nat} (h : d' (bblock sb b) = d (bblock sb b)) :
    used sb d' b = used sb d b := by
  unfold used
  rw [h]

end Inodes

end BirdOS.Fs
