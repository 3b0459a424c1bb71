import Mathlib.Data.List.FinRange
import BirdOS.Param
import BirdOS.Lib.Machine
import BirdOS.Fs.Layout

/-! # Paths, directories and the inode cache (`fs.c`, `sysfile.c`)

A directory is the list of its entries and any other inode the list of its bytes; how they
lie in blocks is a matter of `Inode`.  The copy of an inode in the cache is the one on the
disk: `iupdate` follows every change before the lock is released.  System calls run one
after the other, and a call that waits for a lock nobody will release ends with `blocked`. -/

namespace BirdOS.Names

open Function

def NINODE : Nat := 50
def NFILE : Nat := 100
def NOFILE : Nat := 16
def NDEV : Nat := 10
def MAXPATH : Nat := 128
def DIRSIZ : Nat := 14
def MAX_SYMLINK_DEPTH : Nat := 10
def ROOTINO : Nat := 1

def MAXENTRIES : Nat := Fs.MAXFILE * Fs.BSIZE / 16

abbrev Ip := Fin NINODE

instance : NeZero NINODE := ⟨by decide⟩

abbrev Name := List UInt8

def dot : Name := [46]
def dotdot : Name := [46, 46]
def slash : UInt8 := 47

inductive FType where
  | dir
  | file
  | device
  | symlink
  deriving DecidableEq

structure Dirent where
  inum : Nat
  name : Name
  deriving DecidableEq

structure Dinode where
  type : Option FType
  mode : BitVec 8
  major : BitVec 16
  minor : BitVec 16
  nlink : BitVec 16
  entries : List Dirent
  data : List UInt8

structure Entry where
  inum : Nat
  ref : Nat
  valid : Bool
  locked : Bool

inductive FdType where
  | none
  | inode
  | device
  | other
  deriving DecidableEq

structure File where
  type : FdType
  ref : Nat
  readable : Bool
  writable : Bool
  ip : Ip
  off : Nat
  major : BitVec 16

structure State where
  disk : Nat → Dinode
  icache : Ip → Entry
  ftable : Fin NFILE → File
  ofile : Slot → Fin NOFILE → Option (Fin NFILE)
  cwd : Slot → Option Ip

inductive Stop where
  /-- "iget: no inodes" -/
  | igetNoInodes
  /-- "ialloc: no inodes" -/
  | iallocNoInodes
  /-- "ilock" -/
  | ilock
  /-- "ilock: no type" -/
  | noType
  /-- "iunlock" -/
  | iunlock
  /-- "dirlookup not DIR" -/
  | notDir
  /-- "dirlink" -/
  | dirlink
  /-- "create dots" -/
  | createDots
  /-- "create: dirlink" -/
  | createDirlink
  /-- "unlink: nlink < 1" -/
  | unlinkNlink
  /-- "fileclose" -/
  | fileclose
  /-- `acquiresleep` of a lock that is held. -/
  | blocked
  /-- There is no process in this slot. -/
  | noProcess
  deriving DecidableEq

abbrev Call := StateT State (Except Stop)

/-! ## The inode cache -/

def State.setEntry (s : State) (ip : Ip) (e : Entry) : State :=
  { s with icache := update s.icache ip e }

def State.setInode (s : State) (inum : Nat) (d : Dinode) : State :=
  { s with disk := update s.disk inum d }

def inode (ip : Ip) : Call Dinode := fun s => .ok (s.disk (s.icache ip).inum, s)

def inumOf (ip : Ip) : Call Nat := fun s => .ok ((s.icache ip).inum, s)

def iupdate (ip : Ip) (f : Dinode → Dinode) : Call Unit := fun s =>
  .ok ((), s.setInode (s.icache ip).inum (f (s.disk (s.icache ip).inum)))

def iget (inum : Nat) : Call Ip := fun s =>
  match (List.finRange NINODE).find? fun i =>
      decide (0 < (s.icache i).ref ∧ (s.icache i).inum = inum) with
  | some i => .ok (i, s.setEntry i { s.icache i with ref := (s.icache i).ref + 1 })
  | none =>
    match (List.finRange NINODE).find? fun i => decide ((s.icache i).ref = 0) with
    | some i => .ok (i, s.setEntry i { s.icache i with inum := inum, ref := 1, valid := false })
    | none => .error .igetNoInodes

def idup (ip : Ip) : Call Ip := fun s =>
  .ok (ip, s.setEntry ip { s.icache ip with ref := (s.icache ip).ref + 1 })

def ilock (ip : Ip) : Call Unit := fun s =>
  if (s.icache ip).ref < 1 then .error .ilock
  else if (s.icache ip).locked then .error .blocked
  else if (s.icache ip).valid = false ∧ (s.disk (s.icache ip).inum).type = none then .error .noType
  else .ok ((), s.setEntry ip { s.icache ip with locked := true, valid := true })

def iunlock (ip : Ip) : Call Unit := fun s =>
  if (s.icache ip).locked = false ∨ (s.icache ip).ref < 1 then .error .iunlock
  else .ok ((), s.setEntry ip { s.icache ip with locked := false })

def Dinode.freed (d : Dinode) : Dinode := { d with type := none, entries := [], data := [] }

def iput (ip : Ip) : Call Unit := fun s =>
  if (s.icache ip).ref = 1 ∧ (s.icache ip).valid = true ∧
      (s.disk (s.icache ip).inum).nlink = 0 then
    if (s.icache ip).locked then .error .blocked
    else .ok ((), (s.setInode (s.icache ip).inum (s.disk (s.icache ip).inum).freed).setEntry ip
      { s.icache ip with ref := 0, valid := false })
  else .ok ((), s.setEntry ip { s.icache ip with ref := (s.icache ip).ref - 1 })

def iunlockput (ip : Ip) : Call Unit := do
  iunlock ip
  iput ip

def newDinode (type : FType) : Dinode := ⟨some type, 3, 0, 0, 0, [], []⟩

def ialloc (ninodes : Nat) (type : FType) : Call Ip := fun s =>
  match (List.range' 1 (ninodes - 1)).find? fun inum => decide ((s.disk inum).type = none) with
  | none => .error .iallocNoInodes
  | some inum => iget inum (s.setInode inum (newDinode type))

/-! ## Directories -/

/-- The offset, in entries, and the inode number of the first entry with this name. -/
def lookup (name : Name) : List Dirent → Option (Nat × Nat)
  | [] => none
  | e :: es =>
    if e.inum ≠ 0 ∧ e.name = name then some (0, e.inum)
    else (lookup name es).map fun r => (r.1 + 1, r.2)

def dirlookup (dp : Ip) (name : Name) : Call (Option (Ip × Nat)) := do
  let d ← inode dp
  if d.type ≠ some .dir then throw .notDir
  else
    match lookup name d.entries with
    | none => return none
    | some (off, inum) => do
      let ip ← iget inum
      return some (ip, off)

def enter (e : Dirent) : List Dirent → List Dirent
  | [] => [e]
  | x :: xs => if x.inum = 0 then e :: xs else x :: enter e xs

/-- `dirlink`; `false` is the returned `-1`. -/
def dirlink (dp : Ip) (name : Name) (inum : Nat) : Call Bool := do
  match ← dirlookup dp name with
  | some (ip, _) => do
    iput ip
    return false
  | none => do
    let d ← inode dp
    if MAXENTRIES < (enter ⟨inum % 2 ^ 16, name.take DIRSIZ⟩ d.entries).length then throw .dirlink
    else do
      iupdate dp fun d => { d with entries := enter ⟨inum % 2 ^ 16, name.take DIRSIZ⟩ d.entries }
      return true

def isdirempty (d : Dinode) : Bool := (d.entries.drop 2).all fun e => e.inum = 0

/-! ## Paths -/

/-- A path is given without its terminating zero. -/
def skipelem (path : List UInt8) : Option (Name × List UInt8) :=
  let path := path.dropWhile (· = slash)
  if path = [] then none
  else
    some ((path.takeWhile (· ≠ slash)).take DIRSIZ,
      (path.dropWhile (· ≠ slash)).dropWhile (· = slash))

def elems : Nat → List UInt8 → List Name
  | 0, _ => []
  | f + 1, path =>
    match skipelem path with
    | none => []
    | some (name, rest) => name :: elems f rest

def namexLoop (nameiparent : Bool) : Ip → List Name → Call (Option (Ip × Name))
  | ip, [] =>
    if nameiparent then do
      iput ip
      return none
    else return some (ip, [])
  | ip, name :: rest => do
    ilock ip
    let d ← inode ip
    if d.type ≠ some .dir then do
      iunlockput ip
      return none
    else if nameiparent ∧ rest = [] then do
      iunlock ip
      return some (ip, name)
    else
      match ← dirlookup ip name with
      | none => do
        iunlockput ip
        return none
      | some (next, _) => do
        iunlockput ip
        namexLoop nameiparent next rest

def start (p : Slot) (path : List UInt8) : Call Ip := fun s =>
  if path.head? = some slash then iget ROOTINO s
  else
    match s.cwd p with
    | some ip => idup ip s
    | none => .error .noProcess

def namex (p : Slot) (path : List UInt8) (nameiparent : Bool) : Call (Option (Ip × Name)) := do
  let ip ← start p path
  namexLoop nameiparent ip (elems path.length path)

def namei (p : Slot) (path : List UInt8) : Call (Option Ip) := do
  let r ← namex p path false
  return r.map Prod.fst

def nameiparent (p : Slot) (path : List UInt8) : Call (Option (Ip × Name)) := namex p path true

/-! ## Files -/

def State.setFile (s : State) (f : Fin NFILE) (file : File) : State :=
  { s with ftable := update s.ftable f file }

def filealloc : Call (Option (Fin NFILE)) := fun s =>
  match (List.finRange NFILE).find? fun f => decide ((s.ftable f).ref = 0) with
  | none => .ok (none, s)
  | some f => .ok (some f, s.setFile f { s.ftable f with ref := 1 })

def fdalloc (p : Slot) (f : Fin NFILE) : Call (Option (Fin NOFILE)) := fun s =>
  match (List.finRange NOFILE).find? fun fd => (s.ofile p fd).isNone with
  | none => .ok (none, s)
  | some fd =>
    .ok (some fd,
      { s with ofile := update s.ofile p (update (s.ofile p) fd (some f)) })

def fileclose (f : Fin NFILE) : Call Unit := fun s =>
  if (s.ftable f).ref < 1 then .error .fileclose
  else if 1 < (s.ftable f).ref then
    .ok ((), s.setFile f { s.ftable f with ref := (s.ftable f).ref - 1 })
  else if (s.ftable f).type = .inode ∨ (s.ftable f).type = .device then
    iput (s.ftable f).ip (s.setFile f { s.ftable f with ref := 0, type := .none })
  else .ok ((), s.setFile f { s.ftable f with ref := 0, type := .none })

/-! ## System calls

A path is `none` where `argstr` fails. -/

section Calls
variable (ninodes : Nat)

def createDots (dp ip : Ip) : Call Unit := do
  iupdate dp fun d => { d with nlink := d.nlink + 1 }
  let inum ← inumOf ip
  let parent ← inumOf dp
  let this ← dirlink ip dot inum
  if this then do
    let up ← dirlink ip dotdot parent
    if up then pure () else throw .createDots
  else throw .createDots

def createContent (dp ip : Ip) (type : FType) : Call Unit :=
  if type = .dir then createDots dp ip else pure ()

def createIn (dp : Ip) (name : Name) (type : FType) (major minor : BitVec 16) : Call Ip := do
  let ip ← ialloc ninodes type
  ilock ip
  iupdate ip fun d => { d with major := major, minor := minor, nlink := 1, type := some type }
  createContent dp ip type
  let inum ← inumOf ip
  let entered ← dirlink dp name inum
  if entered then do
    iunlockput dp
    return ip
  else throw .createDirlink

def create (p : Slot) (path : List UInt8) (type : FType) (major minor : BitVec 16) :
    Call (Option Ip) := do
  match ← nameiparent p path with
  | none => return none
  | some (dp, name) => do
    ilock dp
    match ← dirlookup dp name with
    | some (ip, _) => do
      iunlockput dp
      ilock ip
      let d ← inode ip
      if type = .file ∧ (d.type = some .file ∨ d.type = some .device) then return some ip
      else do
        iunlockput ip
        return none
    | none => do
      let ip ← createIn ninodes dp name type major minor
      return some ip

def linkOld (p : Slot) (old : List UInt8) : Call (Option Ip) := do
  match ← namei p old with
  | none => return none
  | some ip => do
    ilock ip
    let d ← inode ip
    if d.type = some .dir then do
      iunlockput ip
      return none
    else do
      iupdate ip fun d => { d with nlink := d.nlink + 1 }
      iunlock ip
      return some ip

def linkBad (ip : Ip) : Call Int := do
  ilock ip
  iupdate ip fun d => { d with nlink := d.nlink - 1 }
  iunlockput ip
  return -1

def linkNew (p : Slot) (ip : Ip) (new : List UInt8) : Call Int := do
  match ← nameiparent p new with
  | none => linkBad ip
  | some (dp, name) => do
    ilock dp
    let inum ← inumOf ip
    let linked ← dirlink dp name inum
    iunlockput dp
    if linked then do
      iput ip
      return 0
    else linkBad ip

def sys_link (p : Slot) (old new : List UInt8) : Call Int := do
  match ← linkOld p old with
  | none => return -1
  | some ip => linkNew p ip new

/-- The second half of `sys_unlink`: the entry at `off` of `dp` names `ip`. -/
def unlinkEntry (dp ip : Ip) (off : Nat) : Call Int := do
  let d ← inode ip
  if d.nlink.toInt < 1 then throw .unlinkNlink
  else if d.type = some .dir ∧ isdirempty d = false then do
    iunlockput ip
    iunlockput dp
    return -1
  else do
    iupdate dp fun dd =>
      { dd with
        entries := dd.entries.set off ⟨0, []⟩
        nlink := if d.type = some .dir then dd.nlink - 1 else dd.nlink }
    iunlockput dp
    iupdate ip fun d => { d with nlink := d.nlink - 1 }
    iunlockput ip
    return 0

def sys_unlink (p : Slot) (path : List UInt8) : Call Int := do
  match ← nameiparent p path with
  | none => return -1
  | some (dp, name) => do
    ilock dp
    if name = dot ∨ name = dotdot then do
      iunlockput dp
      return -1
    else
      match ← dirlookup dp name with
      | none => do
        iunlockput dp
        return -1
      | some (ip, off) => do
        ilock ip
        unlinkEntry dp ip off

def O_CREATE (omode : BitVec 32) : Bool := omode.getLsbD 9
def O_TRUNC (omode : BitVec 32) : Bool := omode.getLsbD 10
def O_NOFOLLOW (omode : BitVec 32) : Bool := omode.getLsbD 2
def O_WRONLY (omode : BitVec 32) : Bool := omode.getLsbD 0
def O_RDWR (omode : BitVec 32) : Bool := omode.getLsbD 1

def openOld (p : Slot) (path : List UInt8) (omode : BitVec 32) : Call (Option Ip) := do
  match ← namei p path with
  | none => return none
  | some ip => do
    ilock ip
    let d ← inode ip
    if d.type = some .dir ∧ omode ≠ 0 then do
      iunlockput ip
      return none
    else return some ip

def follow (p : Slot) : Nat → Ip → Call (Option Ip)
  | 0, ip => return some ip
  | n + 1, ip => do
    let d ← inode ip
    if d.data.length < MAXPATH then do
      iunlockput ip
      return none
    else do
      iunlockput ip
      match ← namei p ((d.data.take MAXPATH).takeWhile (· ≠ 0)) with
      | none => return none
      | some next => do
        ilock next
        let d ← inode next
        if d.type ≠ some .symlink then return some next else follow p n next

def opened (file : File) (ip : Ip) (d : Dinode) (omode : BitVec 32) : File :=
  { file with
    type := if d.type = some .device then .device else .inode
    major := if d.type = some .device then d.major else file.major
    off := if d.type = some .device then file.off else 0
    ip := ip
    readable := !O_WRONLY omode
    writable := O_WRONLY omode || O_RDWR omode }

def openEnd (ip : Ip) (omode : BitVec 32) : Call Unit := do
  iupdate ip fun d =>
    if O_TRUNC omode = true ∧ d.type = some .file then { d with data := [] } else d
  iunlock ip

def openFile (p : Slot) (ip : Ip) (omode : BitVec 32) : Call Int := do
  match ← filealloc with
  | none => do
    iunlockput ip
    return -1
  | some f => do
    match ← fdalloc p f with
    | none => do
      fileclose f
      iunlockput ip
      return -1
    | some fd => do
      let d ← inode ip
      modify fun s => s.setFile f (opened (s.ftable f) ip d omode)
      openEnd ip omode
      return fd.val

def openNode (p : Slot) (ip : Ip) (omode : BitVec 32) : Call Int := do
  let d ← inode ip
  if d.type = some .device ∧ (d.major.toInt < 0 ∨ NDEV ≤ d.major.toInt) then do
    iunlockput ip
    return -1
  else if d.type = some .symlink ∧ O_NOFOLLOW omode = false then
    match ← follow p MAX_SYMLINK_DEPTH ip with
    | none => return -1
    | some ip => do
      let d ← inode ip
      if d.type = some .symlink then do
        iunlockput ip
        return -1
      else openFile p ip omode
  else openFile p ip omode

def openInode (p : Slot) (path : List UInt8) (omode : BitVec 32) : Call (Option Ip) :=
  if O_CREATE omode then create ninodes p path .file 0 0 else openOld p path omode

def sys_open (p : Slot) (path : List UInt8) (omode : BitVec 32) : Call Int := do
  match ← openInode ninodes p path omode with
  | none => return -1
  | some ip => openNode p ip omode

def make (p : Slot) (path : List UInt8) (type : FType) (major minor : BitVec 16) : Call Int := do
  match ← create ninodes p path type major minor with
  | none => return -1
  | some ip => do
    iunlockput ip
    return 0

def sys_mkdir (p : Slot) (path : List UInt8) : Call Int := make ninodes p path .dir 0 0

def sys_mknod (p : Slot) (path : List UInt8) (major minor : BitVec 32) : Call Int :=
  make ninodes p path .device (major.setWidth 16) (minor.setWidth 16)

def sys_chdir (p : Slot) (path : List UInt8) : Call Int := do
  match ← namei p path with
  | none => return -1
  | some ip => do
    ilock ip
    let d ← inode ip
    if d.type ≠ some .dir then do
      iunlockput ip
      return -1
    else do
      iunlock ip
      match ← (fun s => .ok (s.cwd p, s) : Call (Option Ip)) with
      | none => throw .noProcess
      | some old => do
        iput old
        modify fun s => { s with cwd := update s.cwd p (some ip) }
        return 0

def sys_symlink (p : Slot) (target path : List UInt8) : Call Int := do
  match ← create ninodes p path .symlink 0 0 with
  | none => return -1
  | some ip => do
    iupdate ip fun d => { d with data := target ++ d.data.drop MAXPATH }
    iunlockput ip
    return 0

/-- The created inode is neither unlocked nor released. -/
def sys_mkf (p : Slot) (path : List UInt8) : Call Int := do
  match ← create ninodes p path .file 0 0 with
  | none => return -1
  | some ip => do
    let inum ← inumOf ip
    return inum

/-- The inode is unlocked but not released. -/
def sys_chmod (p : Slot) (path : List UInt8) (mode : BitVec 32) : Call Int := do
  match ← namei p path with
  | none => return -1
  | some ip => do
    ilock ip
    iupdate ip fun d => { d with mode := mode.setWidth 8 }
    iunlock ip
    return 0

/-- The inode is unlocked but not released; `copied` says whether `copyout` succeeds. -/
def sys_geti (p : Slot) (path : List UInt8) (copied : Bool) : Call Int := do
  match ← namei p path with
  | none => return -1
  | some ip => do
    ilock ip
    iunlock ip
    return if copied then 0 else -1

/-- What `exec` does with the inode of the program; `r` is what it returns in the end. -/
def sys_exec (p : Slot) (path : List UInt8) (r : Int) : Call Int := do
  match ← namei p path with
  | none => return -1
  | some ip => do
    ilock ip
    iunlockput ip
    return r

def sys_close (p : Slot) (fd : Fin NOFILE) : Call Int := do
  match ← (fun s => .ok (s.ofile p fd, s) : Call (Option (Fin NFILE))) with
  | none => return -1
  | some f => do
    modify fun s =>
      { s with ofile := update s.ofile p (update (s.ofile p) fd none) }
    fileclose f
    return 0

/-- A system call; `failed` is one whose arguments `argstr` or `argaddr` refuses. -/
inductive Op where
  | openFile (path : List UInt8) (omode : BitVec 32)
  | link (old new : List UInt8)
  | unlink (path : List UInt8)
  | mkdir (path : List UInt8)
  | mknod (path : List UInt8) (major minor : BitVec 32)
  | chdir (path : List UInt8)
  | symlink (target path : List UInt8)
  | mkf (path : List UInt8)
  | chmod (path : List UInt8) (mode : BitVec 32)
  | geti (path : List UInt8) (copied : Bool)
  | exec (path : List UInt8) (r : Int)
  | close (fd : Fin NOFILE)
  | failed

def call (p : Slot) : Op → Call Int
  | .openFile path omode => sys_open ninodes p path omode
  | .link old new => sys_link p old new
  | .unlink path => sys_unlink p path
  | .mkdir path => sys_mkdir ninodes p path
  | .mknod path major minor => sys_mknod ninodes p path major minor
  | .chdir path => sys_chdir p path
  | .symlink target path => sys_symlink ninodes p target path
  | .mkf path => sys_mkf ninodes p path
  | .chmod path mode => sys_chmod p path mode
  | .geti path copied => sys_geti p path copied
  | .exec path r => sys_exec p path r
  | .close fd => sys_close p fd
  | .failed => pure (-1)

def step (s : State) (l : Slot × Op) : Option State :=
  match call ninodes l.1 l.2 s with
  | .ok (_, s') => some s'
  | .error _ => none

end Calls

end BirdOS.Names
