import Mathlib.Data.List.FinRange
import BirdOS.Lib.Machine
import BirdOS.Fs.Layout

/-! # Blocks, inodes and their content (`fs.c`, `filewrite`)

The disk is what the buffer cache shows: `bread` reads it and a store to a buffer is seen
by every later `bread`.  `logged` collects the blocks handed to `log_write`, the latest
first.  A source of `writei` is the function of its bytes, `none` where `copyin` fails. -/

namespace BirdOS.Fs

open ByteMem Function

inductive Panic where
  /-- "balloc: out of blocks" -/
  | outOfBlocks
  /-- "freeing free block" -/
  | freeingFreeBlock
  /-- "ialloc: no inodes" -/
  | noInodes
  /-- "ilock: no type" -/
  | noType
  /-- "bmap: out of range" -/
  | bmapOutOfRange
  /-- "short filewrite" -/
  | shortFilewrite
deriving DecidableEq

structure Image where
  disk : Disk
  logged : List Nat

/-- A store to the buffer of `b`, then `log_write`. -/
def Image.logWrite (fs : Image) (b : Nat) (blk : Block) : Image :=
  ⟨update fs.disk b blk, b :: fs.logged⟩

/-- A store to the buffer of `b` that no `log_write` follows. -/
def Image.poke (fs : Image) (b : Nat) (blk : Block) : Image :=
  ⟨update fs.disk b blk, fs.logged⟩

@[simp]
theorem disk_logWrite (fs : Image) (b : Nat) (blk : Block) :
    (fs.logWrite b blk).disk = update fs.disk b blk := rfl

section Source
variable (sb : Superblock)

/-! ## Blocks -/

def bzero (fs : Image) (b : Nat) : Image := fs.logWrite b fun _ => 0

def findFree (d : Disk) : Option Nat :=
  (List.range ((sb.size + BPB - 1) / BPB)).findSome? fun q =>
    ((List.range (min BPB (sb.size - q * BPB))).find? fun bi =>
      !bit (d (bblock sb (q * BPB))) bi).map (q * BPB + ·)

def balloc (fs : Image) : Except Panic (Nat × Image) :=
  match findFree sb fs.disk with
  | none => .error .outOfBlocks
  | some b =>
    let fs := fs.logWrite (bblock sb b) (setBit (fs.disk (bblock sb b)) (b % BPB))
    .ok (b, bzero fs b)

def bfree (fs : Image) (b : Nat) : Except Panic Image :=
  if bit (fs.disk (bblock sb b)) (b % BPB) then
    .ok (fs.logWrite (bblock sb b) (clearBit (fs.disk (bblock sb b)) (b % BPB)))
  else .error .freeingFreeBlock

/-! ## Inodes on the disk -/

def ialloc (fs : Image) (type : Nat) : Except Panic (Nat × Image) :=
  match (List.range' 1 (sb.ninodes - 1)).find? fun inum => (iload sb fs.disk inum).type = 0 with
  | none => .error .noInodes
  | some inum =>
    .ok (inum, fs.logWrite (iblock sb inum)
      (newDinode (fs.disk (iblock sb inum)) (dinodeOff inum) type))

def iupdate (fs : Image) (inum : Nat) (ip : Inode) : Image :=
  fs.logWrite (iblock sb inum) (putDinode (fs.disk (iblock sb inum)) (dinodeOff inum) ip)

/-! ## The block map -/

def direct (i : Nat) (h : i < NDIRECT) : Fin NADDR := ⟨i, Nat.lt_add_right 2 h⟩

def single : Fin NADDR := ⟨NDIRECT, by decide⟩

def double : Fin NADDR := ⟨NDIRECT + 1, by decide⟩

def bmapTop (fs : Image) (ip : Inode) (i : Fin NADDR) : Except Panic (Nat × Inode × Image) :=
  if ip.addrs i = 0 then
    match balloc sb fs with
    | .error e => .error e
    | .ok (addr, fs) => .ok (addr, { ip with addrs := update ip.addrs i addr }, fs)
  else .ok (ip.addrs i, ip, fs)

def bmapEntry (fs : Image) (p k : Nat) : Except Panic (Nat × Image) :=
  if word (fs.disk p) k = 0 then
    match balloc sb fs with
    | .error e => .error e
    | .ok (addr, fs) => .ok (addr, fs.logWrite p (setWord (fs.disk p) k addr))
  else .ok (word (fs.disk p) k, fs)

def bmap (fs : Image) (ip : Inode) (bn : Nat) : Except Panic (Nat × Inode × Image) :=
  if h : bn < NDIRECT then bmapTop sb fs ip (direct bn h)
  else if bn - NDIRECT < NINDIRECT then do
    let (p, ip, fs) ← bmapTop sb fs ip single
    let (addr, fs) ← bmapEntry sb fs p (bn - NDIRECT)
    return (addr, ip, fs)
  else if bn - NDIRECT - NINDIRECT < NDINDIRECT then do
    let bn := bn - NDIRECT - NINDIRECT
    let (q, ip, fs) ← bmapTop sb fs ip double
    let (p, fs) ← bmapEntry sb fs q (bn / NINDIRECT)
    let (addr, fs) ← bmapEntry sb fs p (bn % NINDIRECT)
    return (addr, ip, fs)
  else .error .bmapOutOfRange

/-- The block `b` of an entry, freed after the entries of its `h` levels of index. -/
def freeTree : Nat → Image → Nat → Except Panic Image
  | 0, fs, b => if b = 0 then .ok fs else bfree sb fs b
  | h + 1, fs, b =>
    if b = 0 then .ok fs
    else do
      let fs ← (List.finRange NINDIRECT).foldlM
        (fun fs (j : Fin NINDIRECT) => freeTree h fs (word (fs.disk b) j)) fs
      bfree sb fs b

def itrunc (fs : Image) (inum : Nat) (ip : Inode) : Except Panic (Inode × Image) := do
  let fs ← (List.finRange NDIRECT).foldlM
    (fun fs (i : Fin NDIRECT) => freeTree sb 0 fs (ip.addrs (direct i i.isLt))) fs
  let fs ← freeTree sb 1 fs (ip.addrs single)
  let fs ← freeTree sb 2 fs (ip.addrs double)
  let ip := { ip with addrs := fun _ => 0, size := 0 }
  return (ip, iupdate sb fs inum ip)

/-! ## Reading and writing -/

def writableLen (dst : Nat → Bool) (t : Nat) : Nat → Nat
  | 0 => 0
  | m + 1 => if dst t then writableLen dst (t + 1) m + 1 else 0

def readable (src : Nat → Option UInt8) (s : Nat) : Nat → List UInt8
  | 0 => []
  | m + 1 =>
    match src s with
    | some b => b :: readable src (s + 1) m
    | none => []

def chunk (off rem : Nat) : Nat := min rem (BSIZE - off % BSIZE)

theorem chunk_pos (off : Nat) {rem : Nat} (h : rem ≠ 0) : 0 < chunk off rem := by
  simp only [chunk, BSIZE]
  omega

/-- The loop of `readi` with `n - tot = rem`; `out` reached the destination. -/
def readLoop (dst : Nat → Bool) (t off rem : Nat) (out : List UInt8) (ip : Inode) (fs : Image) :
    Except Panic (Nat × List UInt8 × Inode × Image) :=
  if _h : rem = 0 then .ok (t, out, ip, fs)
  else
    match bmap sb fs ip (off / BSIZE) with
    | .error e => .error e
    | .ok (addr, ip, fs) =>
      let m := chunk off rem
      let w := writableLen dst t m
      let out := out ++ bytes (fs.disk addr) (off % BSIZE) w
      if w < m then .ok (t, out, ip, fs)
      else readLoop dst (t + m) (off + m) (rem - m) out ip fs
termination_by rem
decreasing_by
  have := chunk_pos off _h
  omega

/-- The count, what reached the destination, and what `bmap` leaves. -/
def readi (fs : Image) (ip : Inode) (dst : Nat → Bool) (off n : Nat) :
    Except Panic (Nat × List UInt8 × Inode × Image) :=
  if off > ip.size ∨ (off + n) % 2 ^ 32 < off then .ok (0, [], ip, fs)
  else
    let n := if off + n > ip.size then ip.size - off else n
    readLoop sb dst 0 off n [] ip fs

def writeLoop (src : Nat → Option UInt8) (s off rem : Nat) (ip : Inode) (fs : Image) :
    Except Panic (Nat × Inode × Image) :=
  if _h : rem = 0 then .ok (off, ip, fs)
  else
    match bmap sb fs ip (off / BSIZE) with
    | .error e => .error e
    | .ok (addr, ip, fs) =>
      let m := chunk off rem
      let bs := readable src s m
      let blk := put (fs.disk addr) (off % BSIZE) bs
      if bs.length < m then .ok (off, ip, fs.poke addr blk)
      else writeLoop src (s + m) (off + m) (rem - m) ip (fs.logWrite addr blk)
termination_by rem
decreasing_by
  have := chunk_pos off _h
  omega

/-- A failing `copyin` ends the loop, but `n` is returned all the same. -/
def writei (fs : Image) (inum : Nat) (ip : Inode) (src : Nat → Option UInt8) (s off n : Nat) :
    Except Panic (Int × Inode × Image) :=
  if off > ip.size ∨ (off + n) % 2 ^ 32 < off then .ok (-1, ip, fs)
  else if (off + n) % 2 ^ 32 > MAXFILE * BSIZE then .ok (-1, ip, fs)
  else
    match writeLoop sb src s off n ip fs with
    | .error e => .error e
    | .ok (off, ip, fs) =>
      if n > 0 then
        let ip := if off > ip.size then { ip with size := off } else ip
        .ok (n, ip, iupdate sb fs inum ip)
      else .ok (n, ip, fs)

end Source

/-! ## The inode cache and the operations -/

structure State where
  fs : Image
  icache : Nat → Option Inode

section Source
variable (sb : Superblock)

def State.put (st : State) (inum : Nat) (ip : Inode) (fs : Image) : State :=
  ⟨fs, update st.icache inum (some ip)⟩

def ilock (st : State) (inum : Nat) : Except Panic Inode :=
  match st.icache inum with
  | some ip => .ok ip
  | none =>
    let ip := iload sb st.fs.disk inum
    if ip.type = 0 then .error .noType else .ok ip

def iput (st : State) (inum : Nat) : Except Panic State :=
  match st.icache inum with
  | none => .ok st
  | some ip =>
    if ip.nlink = 0 then do
      let (ip, fs) ← itrunc sb st.fs inum ip
      let fs := iupdate sb fs inum { ip with type := 0 }
      return ⟨fs, update st.icache inum none⟩
    else .ok st

def writeInode (st : State) (inum : Nat) (src : Nat → Option UInt8) (s off n : Nat) :
    Except Panic (Int × State) := do
  let ip ← ilock sb st inum
  let (r, ip, fs) ← writei sb st.fs inum ip src s off n
  return (r, st.put inum ip fs)

def readInode (st : State) (inum : Nat) (dst : Nat → Bool) (off n : Nat) :
    Except Panic (List UInt8 × State) := do
  let ip ← ilock sb st inum
  let (_, out, ip, fs) ← readi sb st.fs ip dst off n
  return (out, st.put inum ip fs)

structure File where
  writable : Bool
  inum : Nat
  off : Nat

def MAXOPBLOCKS : Nat := 10

def maxWrite : Nat := (MAXOPBLOCKS - 1 - 1 - 2) / 2 * BSIZE

/-- The loop of `filewrite` with `n - i = rem`; `none` if the mode forbids writing. -/
def filewriteLoop (src : Nat → Option UInt8) (i rem : Nat) (f : File) (st : State) :
    Except Panic (Option Nat × File × State) :=
  if _h : rem = 0 then .ok (some i, f, st)
  else
    match ilock sb st f.inum with
    | .error e => .error e
    | .ok ip =>
      if ip.mode / 2 % 2 = 0 then .ok (none, f, st.put f.inum ip st.fs)
      else
        let n1 := min rem maxWrite
        match writei sb st.fs f.inum ip src i f.off n1 with
        | .error e => .error e
        | .ok (r, ip, fs) =>
          let st := st.put f.inum ip fs
          let f := if r > 0 then { f with off := (f.off + r.toNat) % 2 ^ 32 } else f
          if r < 0 then .ok (some i, f, st)
          else if r ≠ n1 then .error .shortFilewrite
          else filewriteLoop src (i + n1) (rem - n1) f st
termination_by rem
decreasing_by
  have : maxWrite = 3072 := rfl
  omega

def filewrite (st : State) (f : File) (src : Nat → Option UInt8) (n : Int) :
    Except Panic (Int × File × State) :=
  if f.writable then
    match filewriteLoop sb src 0 n.toNat f st with
    | .error e => .error e
    | .ok (none, f, st) => .ok (-1, f, st)
    | .ok (some i, f, st) => .ok (if i = n then n else -1, f, st)
  else .ok (-1, f, st)

inductive Op where
  | ialloc (type : UInt8)
  | writei (inum : Nat) (src : Nat → Option UInt8) (off n : UInt32)
  | readi (inum : Nat) (dst : Nat → Bool) (off n : UInt32)
  | itrunc (inum : Nat)
  | iput (inum : Nat)
  /-- The changes of `create`, `link`, `unlink` and `chmod` to an inode. -/
  | setMeta (inum : Nat) (mode : UInt8) (major minor nlink : UInt16)
  /-- `iget` gives the cache entry of an unreferenced inode to another one. -/
  | recycle (inum : Nat)

def exec (st : State) : Op → Except Panic State
  | .ialloc type => do
      let (_, fs) ← ialloc sb st.fs type.toNat
      return { st with fs := fs }
  | .writei inum src off n => do
      let (_, st) ← writeInode sb st inum src 0 off.toNat n.toNat
      return st
  | .readi inum dst off n => do
      let (_, st) ← readInode sb st inum dst off.toNat n.toNat
      return st
  | .itrunc inum => do
      let ip ← ilock sb st inum
      let (ip, fs) ← itrunc sb st.fs inum ip
      return st.put inum ip fs
  | .iput inum => iput sb st inum
  | .setMeta inum mode major minor nlink => do
      let ip ← ilock sb st inum
      let ip := { ip with mode := mode.toNat, major := major.toNat, minor := minor.toNat,
                          nlink := nlink.toNat }
      return st.put inum ip (iupdate sb st.fs inum ip)
  | .recycle inum => .ok { st with icache := update st.icache inum none }

def Op.inum : Op → Nat
  | .ialloc _ => 0
  | .writei inum _ _ _ => inum
  | .readi inum _ _ _ => inum
  | .itrunc inum => inum
  | .iput inum => inum
  | .setMeta inum _ _ _ _ => inum
  | .recycle inum => inum

/-- Inode numbers come from `ialloc` and directories: they are below `ninodes`. -/
def step (st : State) (op : Op) : Option State :=
  if op.inum < sb.ninodes then
    match exec sb st op with
    | .ok st => some st
    | .error _ => none
  else none

end Source

end BirdOS.Fs
