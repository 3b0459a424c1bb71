import BirdOS.Fs.Inode
import BirdOS.Fs.NamesBalance

/-! # Descriptors, mappings and the calls on them (`file.c`, `sysfile.c`, `proc.c`)

The file system is that of `Names`.  A pipe and a socket are known by the page they are in, and
only whether they are open is kept.  Memory of the user is what a label says it is, as far as it
can be read; so are the pages that `kalloc` gives and what devices, pipes and sockets answer. -/

namespace BirdOS.Files

open Names Function

def NVMA : Nat := 16
def MAP_SHARED : BitVec 32 := 1
def MAXVA : Nat := 2 ^ 38

def MAXBYTES : Nat := Fs.MAXFILE * Fs.BSIZE

instance : NeZero NFILE := ⟨by decide⟩
instance : NeZero NOFILE := ⟨by decide⟩

structure Vma where
  addr : BitVec 64
  len : BitVec 32
  prot : BitVec 32
  flags : BitVec 32
  vfile : Fin NFILE

inductive Obj where
  | none
  | pipe (page : Nat)
  | sock (page : Nat)
  deriving DecidableEq

structure Address where
  raddr : BitVec 32
  lport : BitVec 16
  rport : BitVec 16
  deriving DecidableEq

structure Sys where
  fs : State
  /-- A VMA that is not used is `none`. -/
  vma : Slot → Fin NVMA → Option Vma
  obj : Fin NFILE → Obj
  readopen : Nat → Bool
  writeopen : Nat → Bool
  sockets : List (Nat × Address)

inductive Halt where
  | fs (e : Stop)
  /-- "filedup" -/
  | filedup
  /-- "fileread" -/
  | fileread
  /-- "filewrite" -/
  | filewrite
  /-- `sockalloc` with an address that is in use. -/
  | inUse
  deriving DecidableEq

abbrev M := StateT Sys (Except Halt)

def names {α : Type} (c : Call α) : M α := fun s =>
  match c s.fs with
  | .ok (a, fs) => .ok (a, { s with fs := fs })
  | .error e => .error (.fs e)

def file (f : Fin NFILE) : M File := fun s => .ok (s.fs.ftable f, s)

def Sys.setFile (s : Sys) (f : Fin NFILE) (v : File) : Sys := { s with fs := s.fs.setFile f v }

def Sys.setFd (s : Sys) (p : Slot) (fd : Fin NOFILE) (f : Option (Fin NFILE)) : Sys :=
  { s with fs := { s.fs with
      ofile := update s.fs.ofile p (update (s.fs.ofile p) fd f) } }

def Sys.setVma (s : Sys) (p : Slot) (i : Fin NVMA) (v : Option Vma) : Sys :=
  { s with vma := update s.vma p (update (s.vma p) i v) }

/-! ## The file table -/

def filedup (f : Fin NFILE) : M Unit := fun s =>
  if (s.fs.ftable f).ref < 1 then .error .filedup
  else .ok ((), s.setFile f { s.fs.ftable f with ref := (s.fs.ftable f).ref + 1 })

def release (o : Obj) (writable : Bool) (s : Sys) : Sys :=
  match o with
  | .none => s
  | .pipe k =>
    if writable then { s with writeopen := update s.writeopen k false }
    else { s with readopen := update s.readopen k false }
  | .sock k => { s with sockets := s.sockets.filter fun e => e.1 ≠ k }

def fileclose (f : Fin NFILE) : M Unit := do
  let ff ← file f
  names (Names.fileclose f)
  if ff.ref = 1 ∧ ff.type = .other then modify fun s => release (s.obj f) ff.writable s else pure ()

/-! ## Contents

The bytes of a directory are those of its entries. -/

def encode (e : Dirent) : List UInt8 :=
  UInt8.ofNat e.inum :: UInt8.ofNat (e.inum / 256) ::
    (e.name ++ List.replicate DIRSIZ 0).take DIRSIZ

def decode : Nat → List UInt8 → List Dirent
  | n + 1, lo :: hi :: rest =>
    ⟨lo.toNat + 256 * hi.toNat, (rest.take DIRSIZ).takeWhile (· ≠ 0)⟩ :: decode n (rest.drop DIRSIZ)
  | _, _ => []

def bytesOf (v : Dinode) : List UInt8 :=
  if v.type = some .dir then v.entries.flatMap encode else v.data

def setBytes (v : Dinode) (bytes : List UInt8) : Dinode :=
  if v.type = some .dir then { v with entries := decode bytes.length bytes }
  else { v with data := bytes }

/-! ## Reading -/

/-- What `readi` returns for a file of `size` bytes: a `copyout` that fails ends it at the block
in which it fails. -/
def readCount (size off n : Nat) (dst : Nat → Bool) : Nat :=
  let m := if 2 ^ 32 ≤ off + n then 0 else min n (size - off)
  let w := Fs.writableLen dst 0 m
  if w < m then (off + w) / Fs.BSIZE * Fs.BSIZE - off else m

/-- `none` if the file may not be read; `dst` says which bytes of the buffer can be written. -/
def readInode (f : Fin NFILE) (n : Nat) (dst : Nat → Bool) : M (Option (List UInt8)) := do
  let ff ← file f
  names (ilock ff.ip)
  let v ← names (inode ff.ip)
  if v.mode.getLsbD 0 = false then do
    names (iunlock ff.ip)
    return none
  else do
    let r := readCount (bytesOf v).length ff.off n dst
    modify fun s => s.setFile f { ff with off := ff.off + r }
    names (iunlock ff.ip)
    return some (((bytesOf v).drop ff.off).take r)

/-- `answer` is that of a pipe, a device or a socket. -/
def fileread (f : Fin NFILE) (n : Nat) (dst : Nat → Bool) (answer : Option (List UInt8)) :
    M (Option (List UInt8)) := do
  let ff ← file f
  if ff.readable = false then return none
  else
    match ff.type with
    | .none => throw .fileread
    | .inode => readInode f n dst
    | .device | .other => return answer

/-! ## Writing -/

/-- `writei` of `n` bytes, of which `new` can be read.  When `copyin` fails, the size grows up to
the block in which it fails only, though bytes of that block have reached its buffer. -/
def written (v : Dinode) (off n : Nat) (new : List UInt8) : Dinode :=
  let bytes := (bytesOf v).take off ++ new ++ (bytesOf v).drop (off + new.length)
  setBytes v
    (if new.length < n then
      bytes.take (max (bytesOf v).length ((off + new.length) / Fs.BSIZE * Fs.BSIZE))
    else bytes)

/-- One turn of the loop of `filewrite`; `none` for a file that may not be written.  `writei`
returns `-1` or `n1`, so that "short filewrite" is not reached. -/
def writeChunk (f : Fin NFILE) (src : Nat → Option UInt8) (i n1 : Nat) : M (Option Bool) := do
  let ff ← file f
  names (ilock ff.ip)
  let v ← names (inode ff.ip)
  if v.mode.getLsbD 1 = false then do
    names (iunlock ff.ip)
    return none
  else if (bytesOf v).length < ff.off ∨ MAXBYTES < ff.off + n1 then do
    names (iunlock ff.ip)
    return some false
  else do
    names (iupdate ff.ip fun v => written v ff.off n1 (Fs.readable src i n1))
    modify fun s => s.setFile f { ff with off := ff.off + n1 }
    names (iunlock ff.ip)
    return some true

/-- The loop of `filewrite` with so many turns left. -/
def writeLoop (f : Fin NFILE) (src : Nat → Option UInt8) (n : Nat) :
    Nat → Nat → M (Option Nat)
  | 0, i => return some i
  | turns + 1, i =>
    if n ≤ i then return some i
    else do
      match ← writeChunk f src i (min (n - i) Fs.maxWrite) with
      | none => return none
      | some false => return some i
      | some true => writeLoop f src n turns (i + min (n - i) Fs.maxWrite)

/-- `src` is the buffer as far as it can be read, `answer` that of a pipe, device or socket. -/
def filewrite (f : Fin NFILE) (src : Nat → Option UInt8) (n answer : Int) : M Int := do
  let ff ← file f
  if ff.writable = false then return -1
  else
    match ff.type with
    | .none => throw .filewrite
    | .inode => do
      match ← writeLoop f src n.toNat n.toNat 0 with
      | none => return -1
      | some i => return if (i : Int) = n then n else -1
    | .device | .other => return answer

/-! ## System calls -/

def argfd (p : Slot) (fd : Fin NOFILE) : M (Option (Fin NFILE)) := fun s =>
  .ok (s.fs.ofile p fd, s)

def sys_dup (p : Slot) (fd : Fin NOFILE) : M Int := do
  match ← argfd p fd with
  | none => return -1
  | some f =>
    match ← names (fdalloc p f) with
    | none => return -1
    | some fd => do
      filedup f
      return fd.val

/-- The file of `newfd` is closed, but the descriptor stays. -/
def sys_dup_new (p : Slot) (fd newfd : Fin NOFILE) : M Int := do
  match ← argfd p fd with
  | none => return -1
  | some f => do
    let g ← argfd p newfd
    g.elim (pure ()) fileclose
    match ← names (fdalloc p f) with
    | none => return -1
    | some fd => do
      filedup f
      return fd.val

def sys_close (p : Slot) (fd : Fin NOFILE) : M Int := do
  match ← argfd p fd with
  | none => return -1
  | some f => do
    modify fun s => s.setFd p fd none
    fileclose f
    return 0

def sys_read (p : Slot) (fd : Fin NOFILE) (n : Nat) (dst : Nat → Bool)
    (answer : Option (List UInt8)) : M (Option (List UInt8)) := do
  match ← argfd p fd with
  | none => return none
  | some f => fileread f n dst answer

def sys_write (p : Slot) (fd : Fin NOFILE) (src : Nat → Option UInt8) (n answer : Int) : M Int := do
  match ← argfd p fd with
  | none => return -1
  | some f => filewrite f src n answer

def Sys.setPipe (s : Sys) (f0 f1 : Fin NFILE) (k : Nat) : Sys :=
  let s := s.setFile f0 { s.fs.ftable f0 with type := .other, readable := true, writable := false }
  let s := s.setFile f1 { s.fs.ftable f1 with type := .other, readable := false, writable := true }
  { s with
    obj := update (update s.obj f0 (.pipe k)) f1 (.pipe k)
    readopen := update s.readopen k true
    writeopen := update s.writeopen k true }

def pipealloc (page : Option Nat) : M (Option (Fin NFILE × Fin NFILE)) := do
  match ← names filealloc with
  | none => return none
  | some f0 =>
    match ← names filealloc with
    | none => do
      fileclose f0
      return none
    | some f1 =>
      match page with
      | none => do
        fileclose f0
        fileclose f1
        return none
      | some k => do
        modify fun s => s.setPipe f0 f1 k
        return some (f0, f1)

/-- `copied` says whether both calls of `copyout` succeed. -/
def sys_pipe (p : Slot) (page : Option Nat) (copied : Bool) : M Int := do
  match ← pipealloc page with
  | none => return -1
  | some (rf, wf) =>
    match ← names (fdalloc p rf) with
    | none => do
      fileclose rf
      fileclose wf
      return -1
    | some fd0 =>
      match ← names (fdalloc p wf) with
      | none => do
        modify fun s => s.setFd p fd0 none
        fileclose rf
        fileclose wf
        return -1
      | some fd1 =>
        if copied then return 0
        else do
          modify fun s => (s.setFd p fd0 none).setFd p fd1 none
          fileclose rf
          fileclose wf
          return -1

def Sys.setSock (s : Sys) (f : Fin NFILE) (k : Nat) (a : Address) : Sys :=
  let s := s.setFile f { s.fs.ftable f with type := .other, readable := true, writable := true }
  { s with obj := update s.obj f (.sock k), sockets := (k, a) :: s.sockets }

def insertSock (f : Fin NFILE) (k : Nat) (a : Address) : M (Option (Fin NFILE)) := fun s =>
  if s.sockets.any fun e => e.2 = a then .error .inUse else .ok (some f, s.setSock f k a)

def sockalloc (page : Option Nat) (a : Address) : M (Option (Fin NFILE)) := do
  match ← names filealloc with
  | none => return none
  | some f =>
    match page with
    | none => do
      fileclose f
      return none
    | some k => insertSock f k a

def sys_connect (p : Slot) (page : Option Nat) (a : Address) : M Int := do
  match ← sockalloc page a with
  | none => return -1
  | some f =>
    match ← names (fdalloc p f) with
    | none => do
      fileclose f
      return -1
    | some fd => return fd.val

def freeVma (s : Sys) (p : Slot) : Option (Fin NVMA) :=
  (List.finRange NVMA).find? fun i => (s.vma p i).isNone

def sys_mmap (p : Slot) (fd : Fin NOFILE) (sz : Nat) (length prot flags : BitVec 32) : M Int := do
  match ← argfd p fd with
  | none => return -1
  | some f => do
    let ff ← file f
    if length.toInt < 0 then return -1
    else if ff.writable = false ∧ prot.getLsbD 1 = true ∧ flags = MAP_SHARED then return -1
    else if MAXVA < sz + length.toNat then return -1
    else
      match ← (fun s => .ok (freeVma s p, s) : M (Option (Fin NVMA))) with
      | none => return -1
      | some i => do
        modify fun s => s.setVma p i (some ⟨BitVec.ofNat 64 sz, length, prot, flags, f⟩)
        filedup f
        return sz

def cut (v : Vma) (addr : BitVec 64) (length : BitVec 32) : Option Vma :=
  if v.len.toInt < length.toInt then none
  else if v.addr = addr then
    some { v with addr := v.addr + length.signExtend 64, len := v.len - length }
  else if addr + length.signExtend 64 = v.addr + v.len.signExtend 64 then
    some { v with len := v.len - length }
  else none

def findCut (s : Sys) (p : Slot) (addr : BitVec 64) (length : BitVec 32) :
    Option (Fin NVMA × Vma) :=
  (List.finRange NVMA).findSome? fun i =>
    ((s.vma p i).bind fun v => cut v addr length).map fun v => (i, v)

def writeBack (v : Vma) (src : Nat → Option UInt8) (n answer : Int) : M Unit :=
  if v.flags = MAP_SHARED ∧ v.prot.getLsbD 1 = true then do
    let _ ← filewrite v.vfile src n answer
    pure ()
  else pure ()

def sys_munmap (p : Slot) (addr : BitVec 64) (length : BitVec 32) (src : Nat → Option UInt8)
    (answer : Int) : M Int := do
  match ← (fun s => .ok (findCut s p addr length, s) : M (Option (Fin NVMA × Vma))) with
  | none => return -1
  | some (i, v) => do
    modify fun s => s.setVma p i (some v)
    writeBack v src length.toInt answer
    if v.len = 0 then do
      fileclose v.vfile
      modify fun s => s.setVma p i none
      return 0
    else return 0

def forkFiles (p q : Slot) : List (Fin NOFILE) → M Unit
  | [] => pure ()
  | fd :: rest => do
    match ← argfd p fd with
    | none => forkFiles p q rest
    | some f => do
      filedup f
      modify fun s => s.setFd q fd (some f)
      forkFiles p q rest

def forkVmas (p q : Slot) : List (Fin NVMA) → M Unit
  | [] => pure ()
  | i :: rest => do
    match ← (fun s => .ok (s.vma p i, s) : M (Option Vma)) with
    | none => forkVmas p q rest
    | some v => do
      modify fun s => s.setVma q i (some v)
      filedup v.vfile
      forkVmas p q rest

def forkCwd (p q : Slot) : Call Unit := fun s =>
  match s.cwd p with
  | none => .error .noProcess
  | some ip => do
    let (ip, s) ← idup ip s
    .ok ((), { s with cwd := update s.cwd q (some ip) })

/-- The open files and the current directory of the new process. -/
def inherit (p q : Slot) : M Unit := do
  forkFiles p q (List.finRange NOFILE)
  names (forkCwd p q)

/-- `child` is the slot of `allocproc`; `none` if it or `uvmcopy` fails. -/
def fork (p : Slot) (child : Option Slot) : M Int :=
  match child with
  | none => return -1
  | some q => do
    inherit p q
    forkVmas p q (List.finRange NVMA)
    return q.val

/-- `clone` copies no VMAs. -/
def clone (p : Slot) (child : Option Slot) : M Int :=
  match child with
  | none => return -1
  | some q => do
    inherit p q
    return q.val

def exitFiles (p : Slot) : List (Fin NOFILE) → M Unit
  | [] => pure ()
  | fd :: rest => do
    match ← argfd p fd with
    | none => exitFiles p rest
    | some f => do
      fileclose f
      modify fun s => s.setFd p fd none
      exitFiles p rest

def exitVmas (p : Slot) (src : Fin NVMA → Nat → Option UInt8) (answer : Int) :
    List (Fin NVMA) → M Unit
  | [] => pure ()
  | i :: rest => do
    match ← (fun s => .ok (s.vma p i, s) : M (Option Vma)) with
    | none => exitVmas p src answer rest
    | some v => do
      writeBack v (src i) v.len.toInt answer
      fileclose v.vfile
      modify fun s => s.setVma p i none
      exitVmas p src answer rest

def exitCwd (p : Slot) : Call Unit := fun s =>
  match s.cwd p with
  | none => .error .noProcess
  | some ip => do
    let (_, s) ← iput ip s
    .ok ((), { s with cwd := update s.cwd p none })

def exit (p : Slot) (src : Fin NVMA → Nat → Option UInt8) (answer : Int) : M Unit := do
  exitFiles p (List.finRange NOFILE)
  exitVmas p src answer (List.finRange NVMA)
  names (exitCwd p)

inductive Act where
  /-- A call that does not close a descriptor. -/
  | call (op : Op)
  | dup (fd : Fin NOFILE)
  | dup_new (fd newfd : Fin NOFILE)
  | close (fd : Fin NOFILE)
  | read (fd : Fin NOFILE) (n : Nat) (dst : Nat → Bool) (answer : Option (List UInt8))
  | write (fd : Fin NOFILE) (src : Nat → Option UInt8) (n answer : Int)
  | pipe (page : Option Nat) (copied : Bool)
  | connect (page : Option Nat) (a : Address)
  | mmap (fd : Fin NOFILE) (sz : Nat) (length prot flags : BitVec 32)
  | munmap (addr : BitVec 64) (length : BitVec 32) (src : Nat → Option UInt8) (answer : Int)
  | fork (child : Option Slot)
  | clone (child : Option Slot)
  | exit (src : Fin NVMA → Nat → Option UInt8) (answer : Int)

def freshPage (s : Sys) (page : Option Nat) : Bool :=
  match page with
  | none => true
  | some k => !s.readopen k && !s.writeopen k && s.sockets.all fun e => e.1 ≠ k

section Step
variable (ninodes : Nat)

def exec (p : Slot) : Act → M Unit
  | .call op => do
    let _ ← names (call ninodes p op)
    pure ()
  | .dup fd => do
    let _ ← sys_dup p fd
    pure ()
  | .dup_new fd newfd => do
    let _ ← sys_dup_new p fd newfd
    pure ()
  | .close fd => do
    let _ ← sys_close p fd
    pure ()
  | .read fd n dst answer => do
    let _ ← sys_read p fd n dst answer
    pure ()
  | .write fd src n answer => do
    let _ ← sys_write p fd src n answer
    pure ()
  | .pipe page copied => do
    let _ ← sys_pipe p page copied
    pure ()
  | .connect page a => do
    let _ ← sys_connect p page a
    pure ()
  | .mmap fd sz length prot flags => do
    let _ ← sys_mmap p fd sz length prot flags
    pure ()
  | .munmap addr length src answer => do
    let _ ← sys_munmap p addr length src answer
    pure ()
  | .fork child => do
    let _ ← fork p child
    pure ()
  | .clone child => do
    let _ ← clone p child
    pure ()
  | .exit src answer => exit p src answer

/-- `kalloc` gives a page that is free, and `allocproc` a slot without a process. -/
def enabled (s : Sys) (l : Slot × Act) : Bool :=
  (s.fs.cwd l.1).isSome &&
    match l.2 with
    | .call (.close _) => false
    | .pipe page _ => freshPage s page
    | .connect page _ => freshPage s page
    | .fork (some q) | .clone (some q) => (s.fs.cwd q).isNone
    | _ => true

def step (s : Sys) (l : Slot × Act) : Option Sys :=
  if enabled s l then
    match exec ninodes l.1 l.2 s with
    | .ok (_, s') => some s'
    | .error _ => none
  else none

end Step

end BirdOS.Files
