import BirdOS.Lib.Tally
import BirdOS.Fs.NamesCalls

/-! # References to inodes between two calls

The references of an entry of the cache are those of open files and of current
directories (`holders`).  `Over` says how the state after a call differs from the one
before it: the references follow the holders, but for those of `T` that the call has kept,
and the locks of `K` are held. -/

namespace BirdOS.Names

open Outcome Tally Function Multiset

def File.pointsTo (i : Ip) (f : File) : Nat :=
  if 0 < f.ref ∧ (f.type = .inode ∨ f.type = .device) ∧ f.ip = i then 1 else 0

def isCwd (i : Ip) (c : Option Ip) : Nat := if c = some i then 1 else 0

theorem isCwd_some (i ip : Ip) : isCwd i (some ip) = if i = ip then 1 else 0 := by
  simp [isCwd, eq_comm]

def holders (s : State) (i : Ip) : Nat :=
  tally (File.pointsTo i) s.ftable + tally (isCwd i) s.cwd

def Owned (s : State) : Prop := ∀ i, holders s i ≤ (s.icache i).ref

def Closed (s : State) : Prop := ∀ f, (s.ftable f).ref = 0 → (s.ftable f).type = .none

structure Over (s₀ : State) (d : Nat → Dinode) (K : Finset Ip) (T : Held) (s : State) : Prop where
  ref : ∀ i, (s.icache i).ref + holders s₀ i = (s₀.icache i).ref + holders s i + held T i
  locked : ∀ i, (s.icache i).locked = true ↔ i ∈ K
  closed : Closed s
  cache : CacheOk s₀ → CacheOk s
  disk : Frees d s.disk
  pins : CacheOk s₀ → Pins s₀ d s

def locks (s : State) : Finset Ip := Finset.univ.filter fun i => (s.icache i).locked = true

section Over
variable {s₀ s₁ s : State} {d : Nat → Dinode} {K : Finset Ip} {T T' : Held} {ip : Ip} {x : Nat}
  {p : Slot} {path : List UInt8} {ninodes : Nat}

theorem Mid.start (s : State) : Mid s s.disk (locks s) 0 s :=
  ⟨fun _ => rfl, fun i => by simp [locks], fun _ hg => absurd hg (notMem_zero _), rfl, rfl,
    rfl, Frees.refl _, fun hs => hs.toCacheOk, fun _ _ _ _ => ⟨rfl, rfl⟩⟩

theorem holders_congr (hf : s.ftable = s₀.ftable) (hc : s.cwd = s₀.cwd) (i : Ip) :
    holders s i = holders s₀ i := by
  simp only [holders, hf, hc]

theorem isCwd_le (hcwd : s.cwd p = some ip) : 1 ≤ holders s ip := by
  have hle := le_tally (isCwd ip) s.cwd p
  rw [hcwd, isCwd_some, if_pos rfl] at hle
  unfold holders
  omega

theorem sound_of (ho : Owned s) (h : CacheOk s) : Sound s :=
  ⟨h, fun _ i hcwd => (isCwd_le hcwd).trans (ho i)⟩

theorem Mid.over (h : Mid s₀ d K T s) (ho : Owned s₀) (hc : Closed s₀) : Over s₀ d K T s := by
  refine ⟨fun i => ?_, h.locked, ?_, fun hs => h.cache (sound_of ho hs), h.disk,
    fun hs => h.pins (sound_of ho hs)⟩
  · rw [holders_congr h.ftable h.cwd, h.ref]
    omega
  · rw [Closed, h.ftable]
    exact hc

/-! ## Opening and closing files -/

theorem Mid.setFiles (h : Mid s₀ d K T s) (F : Fin NFILE → File)
    (O : Slot → Fin NOFILE → Option (Fin NFILE)) :
    Mid { s₀ with ftable := F, ofile := O } d K T { s with ftable := F, ofile := O } := by
  have hsound : Sound { s₀ with ftable := F, ofile := O } → Sound s₀ := fun hs =>
    ⟨⟨hs.unique, hs.valid⟩, hs.cwd⟩
  refine ⟨h.ref, h.locked, h.inum, rfl, rfl, h.cwd, h.disk, fun hs => ?_,
    fun hs => h.pins (hsound hs)⟩
  have hok := h.cache (hsound hs)
  exact ⟨hok.unique, hok.valid⟩

theorem Mid.over_files {F : Fin NFILE → File} {O : Slot → Fin NOFILE → Option (Fin NFILE)}
    (h : Mid { s₀ with ftable := F, ofile := O } d K T s) (ho : Owned s₀)
    (hheld : ∀ i, held T i + tally (File.pointsTo i) s₀.ftable =
      tally (File.pointsTo i) F + held T' i)
    (hclosed : ∀ f, (F f).ref = 0 → (F f).type = .none) : Over s₀ d K T' s := by
  have hF : s.ftable = F := h.ftable
  have hC : s.cwd = s₀.cwd := h.cwd
  have hsound : CacheOk s₀ → Sound { s₀ with ftable := F, ofile := O } := fun hs =>
    ⟨⟨hs.unique, hs.valid⟩, (sound_of ho hs).cwd⟩
  refine ⟨fun i => ?_, h.locked, ?_, fun hs => h.cache (hsound hs), h.disk,
    fun hs => h.pins (hsound hs)⟩
  · have href := h.ref i
    have hi := hheld i
    simp only at href
    simp only [holders, hF, hC]
    omega
  · rw [Closed, hF]
    exact hclosed

theorem filealloc_spec (s : State) :
    Ends (fun r => r.1 = none ∧ r.2 = s ∨ ∃ f, r.1 = some f ∧ (s.ftable f).ref = 0 ∧
      r.2 = s.setFile f { s.ftable f with ref := 1 }) (Err s₀) (filealloc s) := by
  unfold filealloc
  split
  · exact .inl ⟨rfl, rfl⟩
  · next f hfind =>
    have hfree := List.find?_some hfind
    simp only [decide_eq_true_eq] at hfree
    exact .inr ⟨f, rfl, hfree, rfl⟩

theorem fdalloc_spec (s : State) (p : Slot) (f : Fin NFILE) :
    Ends (fun r => r.1 = none ∧ r.2 = s ∨ ∃ fd, r.1 = some fd ∧ s.ofile p fd = none ∧
      r.2 = { s with ofile := update s.ofile p (update (s.ofile p) fd (some f)) })
      (Err s₀) (fdalloc p f s) := by
  unfold fdalloc
  split
  · exact .inl ⟨rfl, rfl⟩
  · next fd hfind =>
    have hfree := List.find?_some hfind
    simp only [Option.isNone_iff_eq_none] at hfree
    exact .inr ⟨fd, rfl, hfree, rfl⟩

theorem fileclose_fresh {f : Fin NFILE} (href : (s.ftable f).ref = 1)
    (htype : (s.ftable f).type = .none) :
    fileclose f s = .ok ((), s.setFile f { s.ftable f with ref := 0, type := .none }) := by
  simp [fileclose, href, htype]

theorem pointsTo_free (i : Ip) {f : File} (h : f.ref = 0) : f.pointsTo i = 0 := by
  simp [File.pointsTo, h]

theorem pointsTo_inode {f : File} (href : 0 < f.ref) (htype : f.type = .inode ∨ f.type = .device)
    (i : Ip) : f.pointsTo i = if i = f.ip then 1 else 0 := by
  simp [File.pointsTo, href, htype, @eq_comm _ i]

def truncated (d : Nat → Dinode) (x : Nat) (omode : BitVec 32) : Nat → Dinode :=
  update d x
    (if O_TRUNC omode = true ∧ (d x).type = some .file then { d x with data := [] } else d x)

theorem truncated_type (d : Nat → Dinode) (x : Nat) (omode : BitVec 32) (z : Nat) :
    (truncated d x omode z).type = (d z).type := by
  unfold truncated
  obtain rfl | hz := eq_or_ne z x
  · rw [update_self]
    split <;> rfl
  · rw [update_of_ne hz]

theorem openEnd_spec (h : Mid s₀ d (insert ip K) T s) (hT : (ip, x) ∈ T) (hK : ip ∉ K)
    (omode : BitVec 32) :
    Ends (fun r => r.2.disk = truncated s.disk x omode ∧ Mid s₀ (truncated s.disk x omode) K T r.2)
      (Err s₀) (openEnd ip omode s) := by
  unfold openEnd
  refine .seq (iupdate_mid h hT _ fun hne => ?_) ?_
  · split
    · exact hne
    · exact hne
  rintro _ s₁ ⟨hd1, h1⟩
  have hd1 : s₁.disk = truncated s.disk x omode := hd1
  rw [← hd1]
  exact (iunlock_spec h1 hK).mono (fun _ hr => ⟨hr.2, hr.1⟩) fun _ he => he

variable {file : File}

theorem pointsTo_opened (href : file.ref = 1) (ip : Ip) (v : Dinode) (omode : BitVec 32) (i : Ip) :
    (opened file ip v omode).pointsTo i = if i = ip then 1 else 0 := by
  refine pointsTo_inode (by simp [opened, href]) ?_ i
  by_cases hdev : v.type = some .device <;> simp [opened, hdev]

theorem held_opened {F : Fin NFILE → File} {f : Fin NFILE} (hfree : (F f).ref = 0)
    (hfile : ∀ i, file.pointsTo i = if i = ip then 1 else 0) (i : Ip) :
    held ((ip, x) ::ₘ 0) i + tally (File.pointsTo i) F =
      tally (File.pointsTo i) (update F f file) + held 0 i := by
  have hsum := tally_update (File.pointsTo i) F f file
  rw [pointsTo_free i hfree, hfile] at hsum
  simp only [held_cons]
  omega

/-- `sys_open` fails, or a file of an inode with the property `Q` is open. -/
inductive Opens (s₀ : State) (d : Nat → Dinode) (K : Finset Ip) (p : Slot) (omode : BitVec 32)
    (Q : Nat → Dinode → Prop) (r : Int × State) : Prop where
  | failed : r.2.ftable = s₀.ftable → r.2.ofile = s₀.ofile → r.2.cwd = s₀.cwd → Over s₀ d K 0 r.2 →
      Opens s₀ d K p omode Q r
  | opened {e : Nat → Dinode} {x : Nat} {f : Fin NFILE} {fd : Fin NOFILE} {ip : Ip} :
      r.1 = fd.val → Kept s₀ d e → Q x (e x) → (s₀.ftable f).ref = 0 → s₀.ofile p fd = none →
      r.2.ftable = update s₀.ftable f
        (opened { s₀.ftable f with ref := 1 } ip (e x) omode) →
      r.2.ofile = update s₀.ofile p (update (s₀.ofile p) fd (some f)) →
      r.2.cwd = s₀.cwd → (r.2.icache ip).inum = x → r.2.disk x = truncated e x omode x →
      Over s₀ (truncated e x omode) K 0 r.2 → Opens s₀ d K p omode Q r

theorem openFile_spec (ho : Owned s₀) (hc : Closed s₀)
    (h : Mid s₀ d (insert ip K) ((ip, x) ::ₘ 0) s) (hK : ip ∉ K) (p : Slot) (omode : BitVec 32)
    {Q : Nat → Dinode → Prop} (hQ : Q x (s.disk x)) :
    Ends (Opens s₀ d K p omode Q) (Err s₀) (openFile p ip omode s) := by
  have hmem : (ip, x) ∈ (ip, x) ::ₘ (0 : Held) := mem_cons_self _ _
  have hinum : (s.icache ip).inum = x := h.inum_eq hmem
  unfold openFile
  refine .seq (filealloc_spec s) ?_
  rintro _ s₁ (⟨rfl, hs⟩ | ⟨f, rfl, hfree, hs⟩)
  · obtain rfl : s₁ = s := hs
    refine .seq (iunlockput_spec h hK) ?_
    rintro _ s2 ⟨h2, -⟩
    exact .failed h2.ftable h2.ofile h2.cwd (h2.over ho hc)
  · obtain rfl : s₁ = s.setFile f { s.ftable f with ref := 1 } := hs
    rw [h.ftable] at hfree
    have hnone : (s₀.ftable f).type = .none := hc f hfree
    refine .seq (fdalloc_spec _ p f) ?_
    rintro _ s2 (⟨rfl, hs⟩ | ⟨fd, rfl, hfd, hs⟩)
    · obtain rfl : s2 = s.setFile f { s.ftable f with ref := 1 } := hs
      -- the file goes back as it was
      have hback : fileclose f (s.setFile f { s.ftable f with ref := 1 }) = .ok ((), s) := by
        rw [fileclose_fresh (by simp [State.setFile]) (by simp [State.setFile, h.ftable, hnone])]
        have hsame : { (s.setFile f { s.ftable f with ref := 1 }).ftable f with
            ref := 0, type := FdType.none } = s.ftable f := by
          rw [← h.ftable] at hfree hnone
          simp only [State.setFile, update_self]
          rw [← hfree, ← hnone]
        rw [hsame]
        simp [State.setFile]
      refine .seq (R := fun r => r.2 = s) (by rw [hback]; rfl) ?_
      rintro _ s3 hs
      obtain rfl : s3 = s := hs
      refine .seq (iunlockput_spec h hK) ?_
      rintro _ s4 ⟨h4, -⟩
      exact .failed h4.ftable h4.ofile h4.cwd (h4.over ho hc)
    · have hO : s.ofile = s₀.ofile := h.ofile
      have hF : s.ftable = s₀.ftable := h.ftable
      simp only [State.setFile, hF, hO] at hs hfd
      refine .seq (R := fun r => r = (s.disk x, s2)) (by rw [hs]; exact (by rw [← hinum]; rfl)) ?_
      rintro _ _ ⟨⟩
      refine .seq (R := fun r => r.2 = s2.setFile f (opened (s2.ftable f) ip (s.disk x) omode))
        rfl ?_
      rintro _ s3 hs3
      have hopen : s3 = { s with
          ftable := update s₀.ftable f
            (opened { s₀.ftable f with ref := 1 } ip (s.disk x) omode)
          ofile := update s₀.ofile p (update (s₀.ofile p) fd (some f)) } := by
        rw [show s3 = s2.setFile f (opened (s2.ftable f) ip (s.disk x) omode) from hs3, hs]
        simp [State.setFile]
      have h3 := h.setFiles (update s₀.ftable f
        (opened { s₀.ftable f with ref := 1 } ip (s.disk x) omode))
        (update s₀.ofile p (update (s₀.ofile p) fd (some f)))
      rw [← hopen] at h3
      have hd3 : s3.disk = s.disk := by rw [hopen]
      refine .seq (openEnd_spec h3 hmem hK omode) ?_
      rintro _ s4 ⟨hd4, h4⟩
      rw [hd3] at hd4 h4
      refine .opened rfl h.kept hQ hfree hfd h4.ftable h4.ofile h4.cwd (h4.inum_eq hmem)
        (congrFun hd4 x) ?_
      refine h4.over_files ho (fun i => ?_) fun g => ?_
      · exact held_opened hfree (pointsTo_opened rfl ip _ omode) i
      · obtain rfl | hg := eq_or_ne g f
        · simp [opened]
        · rw [update_of_ne hg]
          exact hc g

/-- The end of a chain of so many symbolic links. -/
def followed (d : Nat → Dinode) (s : State) (p : Slot) : Nat → Nat → Option Nat
  | 0, x => some x
  | n + 1, x =>
    if (d x).data.length < MAXPATH then none
    else
      (named d s p (((d x).data.take MAXPATH).takeWhile (· ≠ 0))).bind fun y =>
        if (d y).type ≠ some .symlink then some y else followed d s p n y

def target (d : Nat → Dinode) (s : State) (p : Slot) (omode : BitVec 32) (x : Nat) : Option Nat :=
  if (d x).type = some .symlink ∧ O_NOFOLLOW omode = false then followed d s p MAX_SYMLINK_DEPTH x
  else some x

/-- The inode on the disk `d` that `sys_open` may open. -/
def opens (d : Nat → Dinode) (s : State) (p : Slot) (path : List UInt8) (omode : BitVec 32) :
    Option Nat :=
  (named d s p path).bind fun x =>
    if O_CREATE omode then
      if (d x).type = some .file ∨ (d x).type = some .device then some x else none
    else if (d x).type = some .dir ∧ omode ≠ 0 then none
    else target d s p omode x

/-- A file is opened that was on the disk, or a new one. -/
def MayOpen (d : Nat → Dinode) (s : State) (p : Slot) (path : List UInt8) (omode : BitVec 32)
    (x : Nat) (v : Dinode) : Prop :=
  Sound s → v.type ≠ none ∧ (opens d s p path omode = some x ∧ v = d x ∨
    (v.type = some .file ∨ v.type = some .device) ∧ ((d x).type = none ∨ (d x).nlink = 0))

def GotLocked (s₀ : State) (d : Nat → Dinode) (K : Finset Ip) (Q : Nat → Dinode → Prop)
    (r : Option Ip × State) : Prop :=
  match r.1 with
  | none => Mid s₀ d K 0 r.2
  | some ip => ip ∉ K ∧ ∃ x, Q x (r.2.disk x) ∧ (Sound s₀ → (r.2.disk x).type ≠ none) ∧
      Mid s₀ d (insert ip K) ((ip, x) ::ₘ 0) r.2

theorem GotLocked.mono {Q Q' : Nat → Dinode → Prop} {r : Option Ip × State}
    (h : GotLocked s₀ d K Q r) (hQ : ∀ x v, Q x v → Q' x v) : GotLocked s₀ d K Q' r := by
  obtain ⟨_ | ip, s⟩ := r
  · exact h
  · obtain ⟨hK, x, hx, h1⟩ := h
    exact ⟨hK, x, hQ _ _ hx, h1⟩

theorem openOld_spec (h : Mid s₀ d K 0 s) (p : Slot) (path : List UInt8) (omode : BitVec 32) :
    Ends (GotLocked s₀ d K fun x v => (Sound s₀ → named d s₀ p path = some x) ∧
      ¬ (v.type = some .dir ∧ omode ≠ 0)) (Err s₀) (openOld p path omode s) := by
  unfold openOld
  refine .seq (namei_named h (by simp) p path) ?_
  rintro r s₁ ⟨hr, hnamed⟩
  cases r with
  | none => exact hr
  | some ip =>
    obtain ⟨x, h1⟩ := hr
    have hmem : (ip, x) ∈ (ip, x) ::ₘ (0 : Held) := mem_cons_self _ _
    have hx : Sound s₀ → named d s₀ p path = some x := fun hs => by
      rw [← hnamed hs]
      exact congrArg some (h1.inum_eq hmem)
    refine .seq (ilock_spec h1 hmem) ?_
    rintro _ s2 ⟨hK, h2, hd2, halloc⟩
    refine .seq (inode_spec h2 hmem) ?_
    rintro _ _ ⟨⟩
    split
    · refine .seq (iunlockput_spec h2 hK) ?_
      rintro _ s3 ⟨h3, -⟩
      exact h3
    · next hdir => exact ⟨hK, x, ⟨hx, hdir⟩, by rwa [hd2], h2⟩

theorem follow_spec (p : Slot) (n : Nat) : ∀ (ip : Ip) (x : Nat) (s : State),
    ip ∉ K → (Sound s₀ → (s.disk x).type ≠ none) → Mid s₀ d (insert ip K) ((ip, x) ::ₘ 0) s →
    Ends (GotLocked s₀ d K fun y _ => Sound s₀ → followed d s₀ p n x = some y) (Err s₀)
      (follow p n ip s) := by
  induction n with
  | zero =>
    intro ip x s hK halloc h
    exact ⟨hK, x, fun _ => rfl, halloc, h⟩
  | succ n ih =>
    intro ip x s hK halloc h
    have hx : Sound s₀ → s.disk x = d x := fun hs => h.disk_eq (halloc hs)
    unfold follow
    refine .seq (inode_spec h (mem_cons_self _ _)) ?_
    rintro _ _ ⟨⟩
    split
    · refine .seq (iunlockput_spec h hK) ?_
      rintro _ s₁ ⟨h1, -⟩
      exact h1
    next hlen =>
    refine .seq (iunlockput_spec h hK) ?_
    rintro _ s₁ ⟨h1, -⟩
    refine .seq (namei_named h1 (by simp) p _) ?_
    rintro r s2 ⟨hr, hnamed⟩
    cases r with
    | none => exact hr
    | some next =>
      obtain ⟨y, h2⟩ := hr
      have hmem : (next, y) ∈ (next, y) ::ₘ (0 : Held) := mem_cons_self _ _
      have hnext : Sound s₀ → followed d s₀ p (n + 1) x =
          if (d y).type ≠ some .symlink then some y else followed d s₀ p n y := fun hs => by
        have hy := hnamed hs
        have hinum : (s2.icache next).inum = y := h2.inum_eq hmem
        rw [hx hs] at hlen hy
        rw [followed, if_neg hlen, ← hy]
        simp only [Option.map_some, Option.bind_some, hinum]
      refine .seq (ilock_spec h2 hmem) ?_
      rintro _ s3 ⟨hK3, h3, hd3, halloc3⟩
      rw [← hd3] at halloc3
      have hy : Sound s₀ → s3.disk y = d y := fun hs => h3.disk_eq (halloc3 hs)
      refine .seq (inode_spec h3 hmem) ?_
      rintro _ _ ⟨⟩
      split
      · next htype =>
        refine ⟨hK3, y, fun hs => ?_, halloc3, h3⟩
        rw [hnext hs, if_pos (by rw [← hy hs]; exact htype)]
      · next htype =>
        refine (ih next y s3 hK3 halloc3 h3).mono (fun r hr => ?_) fun _ he => he
        refine hr.mono fun z _ hz hs => ?_
        rw [hnext hs, if_neg (by rw [← hy hs]; exact htype), hz hs]

theorem openNode_spec (ho : Owned s₀) (hc : Closed s₀)
    (h : Mid s₀ d (insert ip K) ((ip, x) ::ₘ 0) s) (hK : ip ∉ K) (p : Slot) (omode : BitVec 32)
    (halloc : Sound s₀ → (s.disk x).type ≠ none) :
    Ends (Opens s₀ d K p omode fun y v => Sound s₀ → v.type ≠ none ∧ v = d y ∧
      target d s₀ p omode x = some y) (Err s₀) (openNode p ip omode s) := by
  have hx : Sound s₀ → s.disk x = d x := fun hs => h.disk_eq (halloc hs)
  unfold openNode
  refine .seq (inode_spec h (mem_cons_self _ _)) ?_
  rintro _ _ ⟨⟩
  split
  · refine .seq (iunlockput_spec h hK) ?_
    rintro _ s₁ ⟨h1, -⟩
    exact .failed h1.ftable h1.ofile h1.cwd (h1.over ho hc)
  split
  · next hlink =>
    refine .seq (follow_spec p _ ip x s hK halloc h) ?_
    intro r s₁ hr
    cases r with
    | none =>
      have h1 : Mid s₀ d K 0 s₁ := hr
      exact .failed h1.ftable h1.ofile h1.cwd (h1.over ho hc)
    | some ip =>
      obtain ⟨hK1, y, hy, halloc1, h1⟩ := hr
      refine .seq (inode_spec h1 (mem_cons_self _ _)) ?_
      rintro _ _ ⟨⟩
      split
      · refine .seq (iunlockput_spec h1 hK1) ?_
        rintro _ s2 ⟨h2, -⟩
        exact .failed h2.ftable h2.ofile h2.cwd (h2.over ho hc)
      · refine openFile_spec ho hc h1 hK1 p omode fun hs =>
          ⟨halloc1 hs, h1.disk_eq (halloc1 hs), ?_⟩
        rw [target, if_pos (by rw [← hx hs]; exact hlink), hy hs]
  · next hlink =>
    refine openFile_spec ho hc h hK p omode fun hs => ⟨halloc hs, hx hs, ?_⟩
    rw [target, if_neg (by rw [← hx hs]; exact hlink)]

theorem Opens.mono {Q Q' : Nat → Dinode → Prop} {omode : BitVec 32} {r : Int × State}
    (h : Opens s₀ d K p omode Q r) (hQ : ∀ x v, Q x v → Q' x v) : Opens s₀ d K p omode Q' r := by
  cases h with
  | failed hf hofile hcwd hover => exact .failed hf hofile hcwd hover
  | opened hr hkept hv hfree hfd hf hofile hcwd hinum hdisk hover =>
    exact .opened hr hkept (hQ _ _ hv) hfree hfd hf hofile hcwd hinum hdisk hover

/-- The inode that `sys_open` starts with: an old one of the disk, or a new file. -/
inductive StartsAt (ninodes : Nat) (s : State) (d : Nat → Dinode) (p : Slot) (path : List UInt8)
    (omode : BitVec 32) (x : Nat) (v : Dinode) : (Nat → Dinode) → Prop where
  | old : (Sound s → named d s p path = some x) → (O_CREATE omode = true → Fits .file v) →
      (O_CREATE omode = false → ¬ (v.type = some .dir ∧ omode ≠ 0)) →
      StartsAt ninodes s d p path omode x v d
  | new {d' : Nat → Dinode} : O_CREATE omode = true → Creates ninodes p path .file s d d' →
      Fits .file v → (d x).type = none ∨ (d x).nlink = 0 →
      StartsAt ninodes s d p path omode x v d'

theorem openInode_spec (h : Mid s d K 0 s) (p : Slot) (path : List UInt8) (omode : BitVec 32) :
    Ends (fun r => ∃ d', (r.1 = none → d' = d) ∧
      GotLocked s d' K (fun x v => StartsAt ninodes s d p path omode x v d') r) (Err s)
      (openInode ninodes p path omode s) := by
  unfold openInode
  by_cases hcreate : O_CREATE omode = true
  · simp only [if_pos hcreate]
    refine (create_spec h p path .file 0 0).mono (fun ⟨got, s₁⟩ hr => ?_) fun _ he => he
    cases got with
    | none => exact ⟨d, fun _ => rfl, hr⟩
    | some ip =>
      obtain ⟨hK, y, d', hd', hfits, h1⟩ := hr
      have htype : (s₁.disk y).type ≠ none := by
        rcases hfits with hfile | ⟨-, hdev⟩
        · rw [hfile]
          nofun
        · rw [hdev]
          nofun
      refine ⟨d', nofun, hK, y, ?_, fun _ => htype, h1⟩
      rcases hd' with ⟨rfl, hnamed⟩ | ⟨hnew, hfresh⟩
      · exact .old hnamed (fun _ => hfits) fun hno => absurd hcreate (by simp [hno])
      · exact .new hcreate hnew hfits hfresh
  · simp only [if_neg hcreate]
    refine (openOld_spec h p path omode).mono (fun r hr => ⟨d, fun _ => rfl, ?_⟩) fun _ he => he
    exact hr.mono fun x v hv => .old hv.1 (fun hyes => absurd hyes hcreate) fun _ => hv.2

theorem sys_open_spec (ho : Owned s) (hc : Closed s) (h : Mid s d K 0 s) (p : Slot)
    (path : List UInt8) (omode : BitVec 32) : Ends (fun r => ∃ d', (d' = d ∨ O_CREATE omode = true ∧
        Creates ninodes p path .file s d d') ∧
      Opens s d' K p omode (MayOpen d s p path omode) r) (Err s)
      (sys_open ninodes p path omode s) := by
  unfold sys_open
  refine .seq (openInode_spec h p path omode) ?_
  rintro r s₁ ⟨d', hd', hr⟩
  cases r with
  | none =>
    have h1 : Mid s d' K 0 s₁ := hr
    exact ⟨d', .inl (hd' rfl), .failed h1.ftable h1.ofile h1.cwd (h1.over ho hc)⟩
  | some ip =>
    obtain ⟨hK, x, hstart, halloc, h1⟩ := hr
    refine (openNode_spec ho hc h1 hK p omode halloc).mono (fun r hr => ⟨d', ?_, ?_⟩) fun _ he => he
    · cases hstart with
      | old => exact .inl rfl
      | new hcreate hnew => exact .inr ⟨hcreate, hnew⟩
    refine hr.mono fun y v hv hs => ?_
    obtain ⟨hsome, hvy, hy⟩ := hv hs
    have hx : s₁.disk x = d' x := h1.disk_eq (halloc hs)
    refine ⟨hsome, ?_⟩
    -- a file or a device is no link to follow
    have hfile : Fits .file (s₁.disk x) → y = x ∧
      (v.type = some .file ∨ v.type = some .device) := by
      intro hfits
      have htype : (d' x).type = some .file ∨ (d' x).type = some .device := by
        rw [← hx]
        exact hfits.imp id And.right
      have hself : target d' s p omode x = some x :=
        if_neg fun hlink => by rcases htype with ht | ht <;> rw [hlink.1] at ht <;> cases ht
      obtain rfl : x = y := Option.some.inj (hself.symm.trans hy)
      exact ⟨rfl, by rw [hvy]; exact htype⟩
    cases hstart with
    | old hnamed hfits hdir =>
      refine .inl ⟨?_, hvy⟩
      rw [opens, hnamed hs, Option.bind_some]
      cases hcreate : O_CREATE omode with
      | false =>
        have hdir := hdir hcreate
        rw [hx] at hdir
        rw [if_neg (by simp), if_neg hdir, hy]
      | true =>
        obtain ⟨rfl, htype⟩ := hfile (hfits hcreate)
        rw [hvy] at htype
        rw [if_pos rfl, if_pos htype]
    | new _ _ hfits hfresh =>
      obtain ⟨rfl, htype⟩ := hfile hfits
      exact .inr ⟨htype, hfresh⟩

theorem over_dropped {T : Held} (ho : Owned s₀) {s₁ s2 : State} (hd : Dropped ip s₁ s2)
    (href : ∀ i, (s₁.icache i).ref = (s₀.icache i).ref + held T i)
    (hlocked : ∀ i, (s₁.icache i).locked = true ↔ i ∈ K) (hpos : 1 ≤ holders s₀ ip)
    (hcache : CacheOk s₀ → CacheOk s₁) (hdisk : Frees d s₁.disk)
    (hpins : CacheOk s₀ → Pins s₀ d s₁) (hsame : s.icache = s2.icache)
    (hsdisk : s.disk = s2.disk) (hclosed : Closed s)
    (hheld : ∀ i, holders s i + (if i = ip then 1 else 0) = holders s₀ i + held T i) :
    Over s₀ d K 0 s := by
  have hone : 1 ≤ (s₁.icache ip).ref := by
    have h1 := href ip
    have h2 := ho ip
    omega
  refine ⟨fun i => ?_, fun i => ?_, hclosed, fun hs => ?_, ?_, fun hs => ?_⟩
  · have hi := hheld i
    have hr := href i
    rw [hsame]
    rw [held_zero]
    obtain rfl | hip := eq_or_ne i ip
    · rw [if_pos rfl] at hi
      rw [hd.ref_self]
      omega
    rw [if_neg hip] at hi
    rw [hd.ref_other i hip]
    omega
  · rw [hsame, hd.locked]
    exact hlocked i
  · have hok := hd.cache hone (hcache hs)
    exact ⟨by rw [hsame]; exact hok.unique, by rw [hsame, hsdisk]; exact hok.valid⟩
  · rw [hsdisk]
    exact hdisk.trans hd.disk.frees
  · have hold : ∀ i, 0 < (s₀.icache i).ref → 0 < (s₁.icache i).ref := by
      intro i hi
      have hr := href i
      omega
    have hpinned := hd.pins hone (hcache hs) hold (hpins hs)
    unfold Pins
    rw [hsame, hsdisk]
    exact hpinned

theorem closed_setFile (hc : Closed s) (f : Fin NFILE)
    (hfile : file.ref = 0 → file.type = .none) (g : Fin NFILE) :
    (update s.ftable f file g).ref = 0 →
      (update s.ftable f file g).type = .none := by
  obtain rfl | hg := eq_or_ne g f
  · rw [update_self]
    exact hfile
  · rw [update_of_ne hg]
    exact hc g

theorem over_setFile (ho : Owned s) (hc : Closed s) (f : Fin NFILE)
    (hfile : file.ref = 0 → file.type = .none)
    (hsame : ∀ i, file.pointsTo i = (s.ftable f).pointsTo i)
    (O : Slot → Fin NOFILE → Option (Fin NFILE)) :
    Over s s.disk (locks s) 0 { s with ftable := update s.ftable f file, ofile := O } := by
  refine ((Mid.start s).setFiles _ O).over_files ho (fun i => ?_) (closed_setFile hc f hfile)
  have hsum := tally_update (File.pointsTo i) s.ftable f file
  rw [hsame] at hsum
  omega

def File.released (f : File) : File :=
  if 1 < f.ref then { f with ref := f.ref - 1 } else { f with ref := 0, type := .none }

theorem fileclose_spec (ho : Owned s) (hc : Closed s) (f : Fin NFILE)
    (O : Slot → Fin NOFILE → Option (Fin NFILE)) :
    Ends (fun r => r.2.ftable = update s.ftable f (s.ftable f).released ∧ r.2.ofile = O ∧
      r.2.cwd = s.cwd ∧ Over s s.disk (locks s) 0 r.2)
      (fun e => Spare s e ∧ (e = .fileclose → (s.ftable f).ref < 1))
      (fileclose f { s with ofile := O }) := by
  unfold fileclose
  split
  · next hfree => exact ⟨fun _ => by decide, fun _ => hfree⟩
  · next hopen =>
    split
    · next hmany =>
      simp only at hopen hmany
      have hleft : 0 < (s.ftable f).ref - 1 := by omega
      refine ⟨by rw [File.released, if_pos hmany]; rfl, rfl, rfl,
        over_setFile ho hc f (fun h0 => by simp only at h0; omega) (fun i => ?_) O⟩
      have hone : 0 < (s.ftable f).ref := by omega
      simp only [File.pointsTo, hleft, hone]
    · next hlast =>
      simp only at hopen hlast
      split
      · next htype =>
        simp only at htype
        have hpoint := pointsTo_inode (show 0 < (s.ftable f).ref by omega) htype
        have hpos : 1 ≤ holders s (s.ftable f).ip := by
          have hle := le_tally (File.pointsTo (s.ftable f).ip) s.ftable f
          rw [hpoint, if_pos rfl] at hle
          unfold holders
          omega
        refine (@iput_dropped s _ _).mono (fun r hr => ?_)
          fun _ he => ⟨he.1, fun h => absurd h he.2⟩
        replace hr : Dropped (s.ftable f).ip _ r.2 := hr
        refine ⟨by rw [hr.ftable, File.released, if_neg hlast]; rfl, hr.ofile, hr.cwd, ?_⟩
        refine over_dropped (T := 0) ho hr (fun i => rfl) (fun i => by simp [locks, State.setFile])
          hpos (fun hs => ⟨hs.unique, hs.valid⟩) (Frees.refl _) (fun _ _ _ _ => ⟨rfl, rfl⟩) rfl
          rfl ?_ fun i => ?_
        · rw [Closed, hr.ftable]
          exact closed_setFile hc f fun _ => rfl
        · have hsum : tally (File.pointsTo i) r.2.ftable + (s.ftable f).pointsTo i =
              tally (File.pointsTo i) s.ftable + 0 := by
            rw [hr.ftable]
            exact tally_update (File.pointsTo i) s.ftable f _
          have hcwd : r.2.cwd = s.cwd := hr.cwd
          rw [hpoint] at hsum
          rw [holders, holders, hcwd, held_zero]
          omega
      · next htype =>
        simp only at htype
        refine ⟨by rw [File.released, if_neg hlast]; rfl, rfl, rfl,
          over_setFile ho hc f (fun _ => rfl) (fun i => ?_) O⟩
        rw [pointsTo_free i rfl]
        simp only [File.pointsTo, htype, false_and, and_false, if_false]

theorem sys_close_spec (ho : Owned s) (hc : Closed s) (p : Slot) (fd : Fin NOFILE) :
    Ends (fun r => Over s s.disk (locks s) 0 r.2 ∧
      (r.2.ftable = s.ftable ∧ r.2.ofile = s.ofile ∨ ∃ f, s.ofile p fd = some f ∧
        r.2.ftable = update s.ftable f (s.ftable f).released ∧
        r.2.ofile = update s.ofile p (update (s.ofile p) fd none))) (Spare s)
      (sys_close p fd s) := by
  unfold sys_close
  refine .seq (R := fun r => r = (_, _)) rfl ?_
  rintro _ _ ⟨⟩
  cases hfd : s.ofile p fd with
  | none => exact ⟨(Mid.start s).over ho hc, .inl ⟨rfl, rfl⟩⟩
  | some f =>
    refine .seq (R := fun r => r = (_, _)) rfl ?_
    rintro _ _ ⟨⟩
    refine .seq ((fileclose_spec ho hc f _).mono (fun _ hr => hr) fun _ he => he.1) ?_
    rintro _ s₁ ⟨hf, hofile, -, h1⟩
    exact ⟨h1, .inr ⟨f, rfl, hf, hofile⟩⟩

theorem sys_chdir_spec (ho : Owned s) (hc : Closed s) (p : Slot) (path : List UInt8) :
    Ends (fun r => Over s s.disk (locks s) 0 r.2 ∧ r.2.ftable = s.ftable ∧ r.2.ofile = s.ofile)
      (Err s) (sys_chdir p path s) := by
  unfold sys_chdir
  refine .seq (namei_spec (Mid.start s) (by simp) p path) ?_
  intro r s₁ hr
  cases r with
  | none =>
    have h1 : Mid s s.disk (locks s) 0 s₁ := hr
    exact ⟨h1.over ho hc, h1.ftable, h1.ofile⟩
  | some ip =>
    obtain ⟨x, h1⟩ := hr
    have hmem : (ip, x) ∈ (ip, x) ::ₘ (0 : Held) := mem_cons_self _ _
    refine .seq (ilock_spec h1 hmem) ?_
    rintro _ s2 ⟨hK, h2, -, -⟩
    refine .seq (inode_spec h2 hmem) ?_
    rintro _ _ ⟨⟩
    split
    · refine .seq (iunlockput_spec h2 hK) ?_
      rintro _ s3 ⟨h3, -⟩
      exact ⟨h3.over ho hc, h3.ftable, h3.ofile⟩
    refine .seq (iunlock_spec h2 hK) ?_
    rintro _ s3 ⟨h3, -⟩
    refine .seq (R := fun r => r = (_, _)) rfl ?_
    rintro _ _ ⟨⟩
    cases hcwd : s3.cwd p with
    | none => exact Err.of_ne (by decide)
    | some old =>
      refine .seq (iput_dropped s3 old) ?_
      rintro _ s4 hdrop
      rw [h3.cwd] at hcwd
      refine ⟨?_, hdrop.ftable.trans h3.ftable, hdrop.ofile.trans h3.ofile⟩
      refine over_dropped ho hdrop h3.ref h3.locked (isCwd_le hcwd)
        (fun hs => h3.cache (sound_of ho hs)) h3.disk (fun hs => h3.pins (sound_of ho hs)) rfl
        rfl ?_ fun i => ?_
      · rw [Closed, hdrop.ftable, h3.ftable]
        exact hc
      · have hsum := tally_update (isCwd i) s.cwd p (some ip)
        rw [hcwd, isCwd_some, isCwd_some] at hsum
        have hfiles : s4.ftable = s.ftable := hdrop.ftable.trans h3.ftable
        have hdirs : s4.cwd = s.cwd := hdrop.cwd.trans h3.cwd
        simp only [holders, hfiles, hdirs, held_cons, held_zero]
        omega

end Over

end BirdOS.Names
