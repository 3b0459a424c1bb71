import BirdOS.Fs.FilesBase

/-! # What the modes of files and inodes protect

A directory is not written through a descriptor, unless `sys_open` has followed a symbolic link:
the test for a directory comes before the links are followed.  A file without the write bit keeps
its bytes, unless `sys_open` truncates it: only `filewrite` looks at the bit. -/

namespace BirdOS.Names

open Function

/-! ## What a call of `Names` keeps of an inode -/

structure Same (v v' : Dinode) : Prop where
  type : v'.type = v.type
  mode : v'.mode = v.mode
  data : v'.data = v.data

def InUse (s : State) (z : Nat) : Prop :=
  Sound s ∧ ∃ i, 0 < (s.icache i).ref ∧ (s.icache i).inum = z

def LinkedFile (v : Dinode) : Prop := v.type = some .file ∧ 1 ≤ v.nlink.toInt

section Effect
variable {ninodes : Nat} {s : State} {p : Slot} {op : Op} {r : Int × State} {d d' e : Nat → Dinode}
  {x y z off : Nat} {name : Name}

theorem Same.refl (v : Dinode) : Same v v := ⟨rfl, rfl, rfl⟩

theorem Same.trans {u v w : Dinode} (h : Same u v) (h' : Same v w) : Same u w :=
  ⟨h'.type.trans h.type, h'.mode.trans h.mode, h'.data.trans h.data⟩

theorem Same.of_eq {v w : Dinode} (h : w = v) : Same v w := h ▸ Same.refl v

theorem same_update {v : Dinode} (h : Same (d x) v) (z : Nat) : Same (d z) (update d x v z) := by
  obtain rfl | hz := eq_or_ne z x
  · rwa [update_self]
  · rw [update_of_ne hz]
    exact Same.refl _

theorem linkedUp_same (d : Nat → Dinode) (y z : Nat) : Same (d z) (linkedUp d y z) := by
  unfold linkedUp
  refine same_update ?_ z
  exact ⟨rfl, rfl, rfl⟩

theorem linkedDown_same (d : Nat → Dinode) (y z : Nat) : Same (d z) (linkedDown d y z) := by
  unfold linkedDown
  refine same_update ?_ z
  exact ⟨rfl, rfl, rfl⟩

theorem entered_same (d : Nat → Dinode) (x y : Nat) (name : Name) (z : Nat) :
    Same (d z) (entered d x y name z) := by
  unfold entered
  refine same_update ?_ z
  exact ⟨rfl, rfl, rfl⟩

theorem cleared_same (d : Nat → Dinode) (x y off z : Nat) : Same (d z) (cleared d x y off z) := by
  unfold cleared
  refine same_update ?_ z
  exact ⟨rfl, rfl, rfl⟩

theorem nlink_pos {v : BitVec 16} (h : 1 ≤ v.toInt) : v ≠ 0 ∧ v + 1 ≠ 0 := by
  constructor
  · rintro rfl
    simp at h
  · intro h0
    have hv : v = -1 := by
      rw [← BitVec.add_sub_cancel v 1, h0]
      rfl
    rw [hv] at h
    exact absurd h (by decide)

theorem Kept.same (h : Kept s d e) (hz : InUse s z ∨ (d z).nlink ≠ 0) : e z = d z := by
  rcases hz with ⟨hs, i, hi, rfl⟩ | hlink
  · exact h.2 hs i hi
  · exact h.1.keeps hlink

theorem Effect.keeps (h : Effect ninodes s p op d) (halloc : (s.disk z).type ≠ none)
    (hz : InUse s z ∨ LinkedFile (s.disk z)) : Same (s.disk z) (d z) := by
  have hstay : InUse s z ∨ (s.disk z).nlink ≠ 0 := hz.imp id fun hf => (nlink_pos hf.2).1
  cases h with
  | same => exact Same.refl _
  | create _ hnew =>
    obtain ⟨x, y, name, major, minor, e, -, hkept, -, -, -, hfree, rfl⟩ := hnew
    have he := hkept.same hstay
    have hzy : z ≠ y := by
      rintro rfl
      rw [he] at hfree
      exact halloc hfree
    rw [← he]
    unfold made
    obtain rfl | hzx := eq_or_ne z x
    · rw [update_self]
      exact ⟨rfl, rfl, rfl⟩
    · rw [update_of_ne hzx, update_of_ne hzy]
      exact Same.refl _
  | link _ hlinks =>
    obtain ⟨y, e, e', hkept, -, -, hkept', hd⟩ := hlinks
    have he := hkept.same hstay
    have hstay' : InUse s z ∨ (linkedUp e y z).nlink ≠ 0 := by
      refine hz.imp id fun hf => ?_
      rw [← he] at hf
      unfold linkedUp
      obtain rfl | hzy := eq_or_ne z y
      · rw [update_self]
        exact (nlink_pos hf.2).2
      · rw [update_of_ne hzy]
        exact (nlink_pos hf.2).1
    rw [← he]
    refine ((linkedUp_same e y z).trans (.of_eq (hkept'.same hstay'))).trans ?_
    rcases hd with rfl | ⟨x, name, -, -, rfl⟩
    · exact linkedDown_same e' y z
    · exact entered_same e' x y name z
  | unlink _ hgone =>
    obtain ⟨e, x, y, name, off, e', hkept, hdir, -, -, -, -, -, -, -, hkept', rfl⟩ := hgone
    have he := hkept.same hstay
    have hstay' : InUse s z ∨ (cleared e x y off z).nlink ≠ 0 := by
      refine hz.imp id fun hf => ?_
      rw [← he] at hf
      have hzx : z ≠ x := by
        rintro rfl
        have htype := hf.1
        rw [hdir] at htype
        cases htype
      rw [cleared, update_of_ne hzx]
      exact (nlink_pos hf.2).1
    rw [← he]
    refine ((cleared_same e x y off z).trans (.of_eq (hkept'.same hstay'))).trans ?_
    exact linkedDown_same e' y z

theorem Shift.type (h : Shift ninodes s p d op r d') (hz : InUse s z) :
    (d' z).type = (d z).type := by
  cases h with
  | quiet | closed => rfl
  | opened _ hkept =>
    rw [truncated_type, hkept.same (.inl hz)]
  | @chmod _ _ _ e x _ _ hkept | @target _ _ _ e x _ _ hkept =>
    rw [← hkept.same (.inl hz)]
    obtain rfl | hzx := eq_or_ne z x
    · rw [update_self]
    · rw [update_of_ne hzx]

end Effect

end BirdOS.Names

namespace BirdOS.Files

open Names Outcome Machine Function

theorem call_step {ninodes : Nat} {s s' : Sys} {p : Slot} {op : Op}
    (h : step ninodes s (p, .call op) = some s') :
    Names.step ninodes s.fs (p, op) = some s'.fs ∧ s' = { s with fs := s'.fs } := by
  unfold step at h
  rw [Option.ite_none_right_eq_some] at h
  have h := h.2
  cases hcall : Names.call ninodes p op s.fs with
  | error e =>
    have hexec : exec ninodes p (.call op) s = .error (.fs e) := by
      simp only [exec, bind, StateT.bind, names, hcall]
      rfl
    simp [hexec] at h
  | ok r =>
    have hexec : exec ninodes p (.call op) s = .ok ((), { s with fs := r.2 }) := by
      simp only [exec, bind, StateT.bind, names, hcall]
      rfl
    simp only [hexec, Option.some.injEq] at h
    subst h
    exact ⟨by simp only [Names.step, hcall], rfl⟩

/-! ## Directories -/

def writes (omode : BitVec 32) : Bool := O_WRONLY omode || O_RDWR omode

def WritesDir (s : State) (f : Fin NFILE) : Prop :=
  Opened s f ∧ (s.ftable f).writable = true ∧ (s.disk (inumAt s f)).type = some .dir

instance (s : State) (f : Fin NFILE) : Decidable (WritesDir s f) := by
  dsimp only [WritesDir, Opened]
  infer_instance

/-- A call of `open` for writing leads to an inode of this type; to a directory it can only lead
through a symbolic link. -/
def opensFor (t : FType) (s : Sys) (l : Slot × Act) : Bool :=
  match l.2 with
  | .call (.openFile path omode) =>
    writes omode &&
      (opens s.fs.disk s.fs l.1 path omode).any fun x => (s.fs.disk x).type = some t
  | _ => false

def opensDir (s : Sys) (l : Slot × Act) : Bool := opensFor .dir s l

def Guards (t : FType) (s : State) : Prop :=
  ∀ f, Opened s f → (s.disk (inumAt s f)).type ≠ none ∧
    ((s.ftable f).writable = true → (s.disk (inumAt s f)).type ≠ some t)

section Directories
variable {t : FType} {ninodes : Nat} {s s' : State} {p : Slot} {f : Fin NFILE} {d : Nat → Dinode}
  {K : Finset Ip} {T : Held} {x : Nat}

theorem Opened.inUse (h : Opened s f) (hs : Ready s) : InUse s (inumAt s f) :=
  ⟨sound_of hs.owned hs.cache, _, h.ref_pos hs, rfl⟩

theorem Guards.keep (h : Guards t s) (hs : Ready s) (hover : Over s d K T s') (hold : Opened s f)
    (hip : (s'.ftable f).ip = (s.ftable f).ip)
    (hw : (s'.ftable f).writable = (s.ftable f).writable) (hf : Opened s' f)
    (htype : (d (inumAt s f)).type = (s.disk (inumAt s f)).type) :
    (s'.disk (inumAt s' f)).type ≠ none ∧
      ((s'.ftable f).writable = true → (s'.disk (inumAt s' f)).type ≠ some t) := by
  obtain ⟨hinum, hdisk⟩ := hs.pinned hover hold hip hf
  rw [hinum, hdisk, htype, hw]
  exact h f hold

theorem Guards.trans (h : Guards t s) (hs : Ready s) (hstep : Trans s s') : Guards t s' := by
  intro f hf
  cases hstep with
  | quiet hover hnone =>
    obtain ⟨hold, hip, hw⟩ := hnone f hf
    exact h.keep hs hover hold hip hw hf rfl
  | @write g off n new _ _ _ hover hnone =>
    obtain ⟨hold, hip, hw⟩ := hnone f hf
    refine h.keep hs hover hold hip hw hf ?_
    by_cases hx : inumAt s f = inumAt s g
    · rw [hx, update_self, written_type]
    · rw [update_of_ne hx]

theorem Guards.steps (h : Guards t s) (hs : Ready s) (hsteps : Steps s s') : Guards t s' := by
  have hboth : Ready s' ∧ Guards t s' := by
    induction hsteps with
    | refl => exact ⟨hs, h⟩
    | tail _ hstep ih => exact ⟨hstep.ready ih.1, ih.2.trans ih.1 hstep⟩
  exact hboth.2

theorem Guards.call {op : Op} {n : Int} {d d' : Nat → Dinode} (h : Guards t s) (hs : Ready s)
    (ht : t ≠ .file ∧ t ≠ .device) (hafter : After ninodes s p op (n, s') d d' K T)
    (hgood : ∀ path omode, op = .openFile path omode → writes omode = true →
      ∀ x, opens s.disk s p path omode = some x → (s.disk x).type ≠ some t) : Guards t s' := by
  have htype : ∀ f, Opened s f → (d' (inumAt s f)).type = (s.disk (inumAt s f)).type := by
    intro f hf
    have huse := hf.inUse hs
    exact (hafter.shift.type huse).trans (hafter.effect.keeps (h f hf).1 (.inl huse)).type
  have hkeep : NoneOpened s s' → Guards t s' := by
    intro hnone f hf
    obtain ⟨hold, hip, hw⟩ := hnone f hf
    exact h.keep hs hafter.counts hold hip hw hf (htype f hold)
  cases hshift : hafter.shift with
  | quiet hf | chmod hf | target hf => exact hkeep (NoneOpened.of_eq hf)
  | closed _ hf => exact hkeep (NoneOpened.set hf fun hpos ht => released_opened ht hpos)
  | @opened path omode _ e x g fd ip hn hkept hmay hfree hfd hf hofile hinum hdisk =>
    intro f hopen
    obtain rfl | hg := eq_or_ne f g
    · have hfile : s'.ftable f = opened { s.ftable f with ref := 1 } ip (e x) omode := by
        rw [show s'.ftable = _ from hf, update_self]
      have hat : inumAt s' f = x := by
        rw [inumAt, hfile]
        exact hinum
      have htruncated : (s'.disk x).type = (e x).type := by
        rw [show s'.disk x = _ from hdisk, truncated_type]
      rw [hat, htruncated]
      obtain ⟨hsome, hwhat⟩ := hmay (sound_of hs.owned hs.cache)
      refine ⟨hsome, fun hw htyped => ?_⟩
      have hwrites : writes omode = true := by
        rw [hfile] at hw
        exact hw
      rcases hwhat with ⟨hopens, hex⟩ | ⟨hnew | hnew, -⟩
      · rw [hex] at htyped
        exact hgood path omode rfl hwrites x hopens htyped
      · exact ht.1 (Option.some.inj (htyped.symm.trans hnew))
      · exact ht.2 (Option.some.inj (htyped.symm.trans hnew))
    · have hother : s'.ftable f = s.ftable f := by
        rw [show s'.ftable = _ from hf, update_of_ne hg]
      have hold : Opened s f := by
        rw [Opened, ← hother]
        exact hopen
      exact h.keep hs hafter.counts hold (by rw [hother]) (by rw [hother]) hopen (htype f hold)

theorem Trans.keeps (h : Trans s s')
    (hx : ∀ f, Opened s f → (s.ftable f).writable = true → inumAt s f ≠ x) :
    s'.disk x = s.disk x ∨ (s.disk x).nlink = 0 ∧ s'.disk x = (s.disk x).freed := by
  cases h with
  | quiet hover => exact hover.disk x
  | @write f off n new hf hw _ hover =>
    have hfree := hover.disk x
    rwa [update_of_ne (hx f hf hw).symm] at hfree

theorem Guards.dirs (h : Guards .dir s) (hs : Ready s) (hsteps : Steps s s')
    (hx : (s.disk x).type = some .dir) :
    s'.disk x = s.disk x ∨ (s.disk x).nlink = 0 ∧ s'.disk x = (s.disk x).freed := by
  induction hsteps with
  | refl => exact .inl rfl
  | @tail t u hsteps hstep ih =>
    have ht := h.steps hs hsteps
    -- an inode that is written is neither a directory nor free
    have hother : ∀ f, Opened t f → (t.ftable f).writable = true → inumAt t f ≠ x := by
      rintro f hf hw rfl
      rcases ih with hsame | ⟨-, hfree⟩
      · exact (ht f hf).2 hw (by rw [hsame]; exact hx)
      · exact (ht f hf).1 (by rw [hfree]; rfl)
    rcases hstep.keeps hother with hk | ⟨hlink, hk⟩
    · rw [hk]
      exact ih
    rcases ih with hsame | ⟨hlink', hfree⟩
    · rw [hsame] at hlink hk
      exact .inr ⟨hlink, hk⟩
    · rw [hfree] at hk
      exact .inr ⟨hlink', hk⟩

end Directories

section Runs
variable {ninodes : Nat} {s s' : Sys} {l : Slot × Act}

theorem Ready.step (hs : Ready s.fs) (hstep : step ninodes s l = some s') : Ready s'.fs := by
  obtain ⟨p, act⟩ := l
  by_cases hact : ∃ op, act = .call op
  · obtain ⟨op, rfl⟩ := hact
    obtain ⟨r, d, d', K, T, -, hafter⟩ := step_after hs.owned hs.closed (call_step hstep).1
    exact hs.over hafter.counts
  · exact (step_steps (fun op hop => hact ⟨op, hop⟩) hs hstep).ready hs

theorem Guards.step {t : FType} (h : Guards t s.fs) (hs : Ready s.fs)
    (ht : t ≠ .file ∧ t ≠ .device) (hgood : opensFor t s l = false)
    (hstep : step ninodes s l = some s') : Guards t s'.fs := by
  obtain ⟨p, act⟩ := l
  by_cases hact : ∃ op, act = .call op
  · obtain ⟨op, rfl⟩ := hact
    obtain ⟨r, d, d', K, T, -, hafter⟩ := step_after hs.owned hs.closed (call_step hstep).1
    refine h.call hs ht hafter ?_
    rintro path omode rfl hw x hopens htype
    simp [opensFor, hw, hopens, htype] at hgood
  · exact h.steps hs (step_steps (fun op hop => hact ⟨op, hop⟩) hs hstep)

/-- As long as no directory is opened for writing behind a symbolic link, none is written: what is
not a call on names leaves every directory alone, or frees one without links. -/
theorem directories_not_written (ninodes : Nat) (s : Sys) (hs : Ready s.fs)
    (hnone : ∀ f, (s.fs.ftable f).ref = 0) (ls : List (Slot × Act))
    (hgood : Along (step ninodes) (fun s l => opensDir s l = false) s ls) (s' : Sys)
    (hrun : run (step ninodes) s ls = some s') : (∀ f, ¬ WritesDir s'.fs f) ∧
      ∀ p act s'', (∀ op, act ≠ .call op) → step ninodes s' (p, act) = some s'' →
        ∀ x, (s'.fs.disk x).type = some .dir → s''.fs.disk x = s'.fs.disk x ∨
          (s'.fs.disk x).nlink = 0 ∧ s''.fs.disk x = (s'.fs.disk x).freed := by
  have hstart : Guards .dir s.fs := fun f hf => absurd hf.1 (by simp [hnone f])
  have hboth : Ready s'.fs ∧ Guards .dir s'.fs :=
    along_invariant (I := fun s => Ready s.fs ∧ Guards .dir s.fs)
      (fun _ _ _ hI hg hstep => ⟨hI.1.step hstep, hI.2.step hI.1 (by decide) hg hstep⟩)
      ls s s' ⟨hs, hstart⟩ hgood hrun
  refine ⟨fun f hf => (hboth.2 f hf.1).2 hf.2.1 hf.2.2, fun p act s'' hact hstep x hx => ?_⟩
  exact hboth.2.dirs hboth.1 (step_steps hact hboth.1 hstep) hx

end Runs

instance (s : State) : Decidable (Ready s) :=
  decidable_of_iff ((∀ i, holders s i ≤ (s.icache i).ref) ∧
    (∀ f, (s.ftable f).ref = 0 → (s.ftable f).type = .none) ∧
    (∀ i j, 0 < (s.icache i).ref → 0 < (s.icache j).ref →
      (s.icache i).inum = (s.icache j).inum → i = j) ∧
    ∀ i, 0 < (s.icache i).ref → (s.icache i).valid = true →
      (s.disk (s.icache i).inum).type ≠ none)
    ⟨fun h => ⟨h.1, h.2.1, h.2.2.1, h.2.2.2⟩, fun h => ⟨h.owned, h.closed, h.cache.unique,
      h.cache.valid⟩⟩

def boot (disk : Nat → Dinode) : Sys where
  fs := twoAtRoot disk
  vma := fun _ _ => none
  obj := fun _ => .none
  readopen := fun _ => false
  writeopen := fun _ => false
  sockets := []

def buffer (path : List UInt8) : List UInt8 := path ++ List.replicate (MAXPATH - path.length) 0

def linkedFileOps : List (Slot × Act) :=
  [(0, .call (.openFile [102] 0x202)), (0, .call (.mkdir [100])),
    (0, .call (.symlink (buffer [102]) [108])), (0, .call (.openFile [108] 1)),
    (0, .write 1 (fun i => [104, 105][i]?) 2 0)]

theorem directories_not_written_linked_file :
    ∃ s', run (step 200) (boot bareDisk) linkedFileOps = some s' ∧ (∀ f, ¬ WritesDir s'.fs f) ∧
      ∀ p act s'', (∀ op, act ≠ .call op) → step 200 s' (p, act) = some s'' →
        ∀ x, (s'.fs.disk x).type = some .dir → s''.fs.disk x = s'.fs.disk x ∨
          (s'.fs.disk x).nlink = 0 ∧ s''.fs.disk x = (s'.fs.disk x).freed := by
  obtain ⟨s', hrun, -⟩ := run_test (step 200) (boot bareDisk) linkedFileOps (fun _ => True)
    (by decide +kernel)
  exact ⟨s', hrun, directories_not_written 200 (boot bareDisk) (by decide +kernel) (fun _ => rfl)
    linkedFileOps (by decide +kernel) s' hrun⟩

def linkedDirOps : List (Slot × Act) :=
  [(0, .call (.mkdir [100])), (0, .call (.symlink (buffer [100]) [108])),
    (0, .call (.openFile [108] 2))]

theorem directory_written_behind_link :
    (∃ s', run (step 200) (boot bareDisk) linkedDirOps = some s' ∧ WritesDir s'.fs 0 ∧
      (s'.fs.disk 2).entries = [⟨2, dot⟩, ⟨1, dotdot⟩]) ∧ ∃ s', run (step 200) (boot bareDisk)
        (linkedDirOps ++ [(0, .write 0 (fun _ => some 0) 32 0)]) = some s' ∧
      (s'.fs.disk 2).type = some .dir ∧ (s'.fs.disk 2).entries = [⟨0, []⟩, ⟨0, []⟩] := by
  constructor
  all_goals exact run_test (step 200) (boot bareDisk) _ _ (by decide +kernel)

/-! ## The targets of symbolic links -/

def Terminated (v : Dinode) : Prop :=
  v.type = some .symlink → MAXPATH ≤ v.data.length → 0 ∈ v.data.take MAXPATH

def AllTerminated (d : Nat → Dinode) : Prop := ∀ x, Terminated (d x)

def fetched (l : Slot × Act) : Bool :=
  match l.2 with
  | .call (.symlink target _) => target.contains 0 && target.length == MAXPATH
  | _ => true

section Targets
variable {ninodes : Nat} {d e : Nat → Dinode} {s s' : State}

namespace AllTerminated
variable (h : AllTerminated d)
include h

theorem frees (hf : Frees d e) : AllTerminated e := by
  intro x
  rcases hf x with hk | ⟨-, hk⟩
  · rw [hk]
    exact h x
  · rw [hk]
    exact fun ht => nomatch ht

theorem set {v : Dinode} (hv : Terminated v) (x : Nat) : AllTerminated (update d x v) := by
  intro z
  obtain rfl | hz := eq_or_ne z x
  · rwa [update_self]
  · rw [update_of_ne hz]
    exact h z

theorem same (hs : ∀ x, Same (d x) (e x)) : AllTerminated e := by
  intro x ht hlen
  rw [(hs x).data] at hlen ⊢
  exact h x ((hs x).type.symm.trans ht) hlen

theorem shift {p : Slot} {op : Op} {r : Int × State} (hs : Shift ninodes s p d op r e)
    (hop : fetched (p, .call op) = true) : AllTerminated e := by
  cases hs with
  | quiet | closed => exact h
  | @opened _ omode _ e x _ _ _ _ hkept =>
    have he := h.frees hkept.1
    refine he.set ?_ x
    split
    · next hfile =>
      intro ht
      rw [show (e x).type = _ from hfile.2] at ht
      cases ht
    · exact he x
  | chmod _ _ hkept =>
    have he := h.frees hkept.1
    refine he.set ?_ _
    exact he _
  | target _ _ hkept =>
    refine (h.frees hkept.1).set (fun _ _ => ?_) _
    simp only [fetched, Bool.and_eq_true, beq_iff_eq, List.contains_iff_mem] at hop
    rw [List.take_left' hop.2]
    exact hop.1

end AllTerminated

theorem AllTerminated.effect {p : Slot} {op : Op} (h : AllTerminated s.disk)
    (he : Effect ninodes s p op d) : AllTerminated d := by
  cases he with
  | same => exact h
  | create _ hnew =>
    obtain ⟨x, y, name, major, minor, e, -, hkept, -, -, -, -, rfl⟩ := hnew
    have he := h.frees hkept.1
    refine (he.set ?_ y).set ?_ x
    · exact fun _ hlen => absurd (show MAXPATH ≤ 0 from hlen) (by decide)
    · exact he x
  | link _ hlinks =>
    obtain ⟨y, e, e', hkept, -, -, hkept', hd⟩ := hlinks
    have he := ((h.frees hkept.1).same (linkedUp_same e y)).frees hkept'.1
    rcases hd with rfl | ⟨x, name, -, -, rfl⟩
    · exact he.same (linkedDown_same e' y)
    · exact he.same (entered_same e' x y name)
  | unlink _ hgone =>
    obtain ⟨e, x, y, name, off, e', hkept, -, -, -, -, -, -, -, -, hkept', rfl⟩ := hgone
    have he := ((h.frees hkept.1).same (cleared_same e x y off)).frees hkept'.1
    exact he.same (linkedDown_same e' y)

theorem AllTerminated.steps (h : AllTerminated s.disk) (hs : Ready s) (hg : Guards .symlink s)
    (hsteps : Steps s s') : AllTerminated s'.disk := by
  induction hsteps with
  | refl => exact h
  | tail hsteps hstep ih =>
    cases hstep with
    | quiet hover => exact ih.frees hover.disk
    | write hf hw _ hover =>
      refine (ih.set ?_ _).frees hover.disk
      intro ht
      rw [written_type] at ht
      exact absurd ht ((hg.steps hs hsteps _ hf).2 hw)

theorem AllTerminated.step {s s' : Sys} {l : Slot × Act} (h : AllTerminated s.fs.disk)
    (hs : Ready s.fs) (hg : Guards .symlink s.fs) (hl : fetched l = true)
    (hstep : step ninodes s l = some s') : AllTerminated s'.fs.disk := by
  obtain ⟨p, act⟩ := l
  by_cases hact : ∃ op, act = .call op
  · obtain ⟨op, rfl⟩ := hact
    obtain ⟨r, d, d', K, T, -, hafter⟩ := step_after hs.owned hs.closed (call_step hstep).1
    exact ((h.effect hafter.effect).shift hafter.shift hl).frees hafter.counts.disk
  · exact h.steps hs hg (step_steps (fun op hop => hact ⟨op, hop⟩) hs hstep)

end Targets

def Linked (s : Sys) (x : Nat) : Prop := 1 ≤ (s.fs.disk x).nlink.toInt

instance (s : Sys) (x : Nat) : Decidable (Linked s x) :=
  inferInstanceAs (Decidable (1 ≤ (s.fs.disk x).nlink.toInt))

section Protected
variable {ninodes : Nat} {s s' : State} {p : Slot} {x : Nat}

theorem written_nlink (v : Dinode) (off n : Nat) (new : List UInt8) :
    (written v off n new).nlink = v.nlink := by
  unfold written setBytes
  split <;> rfl

theorem frees_nlink {d d' : Nat → Dinode} (h : Frees d d') (x : Nat) :
    (d' x).nlink = (d x).nlink := by
  rcases h x with hk | ⟨-, hk⟩
  · rw [hk]
  · rw [hk]
    rfl

theorem Trans.nlink (h : Trans s s') (x : Nat) : (s'.disk x).nlink = (s.disk x).nlink := by
  cases h with
  | quiet hover => exact frees_nlink hover.disk x
  | @write f off n new _ _ _ hover =>
    rw [frees_nlink hover.disk x]
    by_cases hx : x = inumAt s f
    · rw [hx, update_self, written_nlink]
    · rw [update_of_ne hx]

end Protected

end BirdOS.Files
