import BirdOS.Fs.Files

/-! # What the calls on descriptors do to the file system

Every such call is a sequence of steps of two kinds (`Trans`): one that leaves the inodes that are
in use as they are, and one that writes to the inode of a file that is open for writing, after a
look at its mode.  The properties of whole runs are read off these two kinds. -/

namespace BirdOS.Files

open Names Outcome Tally Function Relation

structure Ready (s : State) : Prop where
  owned : Owned s
  closed : Closed s
  cache : CacheOk s

def Opened (s : State) (f : Fin NFILE) : Prop :=
  0 < (s.ftable f).ref ∧ ((s.ftable f).type = .inode ∨ (s.ftable f).type = .device)

def inumAt (s : State) (f : Fin NFILE) : Nat := (s.icache (s.ftable f).ip).inum

def NoneOpened (s s' : State) : Prop :=
  ∀ f, Opened s' f → Opened s f ∧ (s'.ftable f).ip = (s.ftable f).ip ∧
    (s'.ftable f).writable = (s.ftable f).writable

inductive Trans (s s' : State) : Prop where
  | quiet : Over s s.disk (locks s) 0 s' → NoneOpened s s' → Trans s s'
  | write {f : Fin NFILE} {off n : Nat} {new : List UInt8} : Opened s f →
      (s.ftable f).writable = true → (s.disk (inumAt s f)).mode.getLsbD 1 = true →
      Over s (update s.disk (inumAt s f) (written (s.disk (inumAt s f)) off n new)) (locks s)
        0 s' →
      NoneOpened s s' → Trans s s'

def Steps : State → State → Prop := ReflTransGen Trans

section States
variable {s s' : State} {d : Nat → Dinode} {K : Finset Ip} {T : Held} {f : Fin NFILE}

theorem Ready.over (hs : Ready s) (h : Over s d K T s') : Ready s' := by
  refine ⟨fun i => ?_, h.closed, h.cache hs.cache⟩
  have href := h.ref i
  have hold := hs.owned i
  omega

theorem Trans.ready (h : Trans s s') (hs : Ready s) : Ready s' := by
  cases h with
  | quiet hover | write _ _ _ hover => exact hs.over hover

theorem Steps.ready (h : Steps s s') (hs : Ready s) : Ready s' := by
  induction h with
  | refl => exact hs
  | tail _ hstep ih => exact hstep.ready ih

theorem NoneOpened.of_eq (h : s'.ftable = s.ftable) : NoneOpened s s' := by
  intro f hf
  rw [Opened, h] at hf
  rw [h]
  exact ⟨hf, rfl, rfl⟩

theorem NoneOpened.set {file : File} (h : s'.ftable = update s.ftable f file)
    (hfile : 0 < file.ref → file.type = .inode ∨ file.type = .device →
      Opened s f ∧ file.ip = (s.ftable f).ip ∧ file.writable = (s.ftable f).writable) :
    NoneOpened s s' := by
  intro g hg
  rw [Opened, h] at hg
  rw [h]
  obtain rfl | hgf := eq_or_ne g f
  · rw [update_self] at hg ⊢
    exact hfile hg.1 hg.2
  · rw [update_of_ne hgf] at hg ⊢
    exact ⟨hg, rfl, rfl⟩

theorem Opened.held (h : Opened s f) : 1 ≤ holders s (s.ftable f).ip := by
  have hle := le_tally (File.pointsTo (s.ftable f).ip) s.ftable f
  rw [pointsTo_inode h.1 h.2, if_pos rfl] at hle
  unfold holders
  omega

theorem Opened.ref_pos (h : Opened s f) (hs : Ready s) : 0 < (s.icache (s.ftable f).ip).ref :=
  lt_of_lt_of_le h.held (hs.owned _)

theorem Ready.opened (hs : Ready s) (h : (s.ftable f).type = .inode) : Opened s f := by
  refine ⟨pos_of_ne_zero fun h0 => ?_, .inl h⟩
  have hnone := hs.closed f h0
  rw [h] at hnone
  cases hnone

/-- A file that stays open refers to the same inode, which was not freed. -/
theorem Ready.pinned (hs : Ready s) (h : Over s d K T s') (hold : Opened s f)
    (hip : (s'.ftable f).ip = (s.ftable f).ip) (hf : Opened s' f) :
    inumAt s' f = inumAt s f ∧ s'.disk (inumAt s f) = d (inumAt s f) := by
  have hpos' := hf.ref_pos (hs.over h)
  rw [hip] at hpos'
  have hpin := h.pins hs.cache _ (hold.ref_pos hs) hpos'
  rw [inumAt, inumAt, hip]
  exact hpin

end States

/-! ## Sequences of steps -/

section Leads
variable {α β : Type} {s : Sys}

def Leads (s : Sys) (x : Except Halt (α × Sys)) : Prop :=
  Ends (fun r => Steps s.fs r.2.fs) (fun _ => True) x

theorem Leads.bind {m : M α} {k : α → M β} (hs : Ready s.fs) (h : Leads s (m s))
    (hk : ∀ a s', Ready s'.fs → Leads s' (k a s')) : Leads s ((m >>= k) s) := by
  refine .seq h fun a s' hsteps => ?_
  refine (hk a s' (Steps.ready hsteps hs)).mono (fun r hr => ?_) fun _ he => he
  exact ReflTransGen.trans hsteps hr

theorem Leads.still {m : M α} {r : α × Sys} (h : m s = .ok r) (hfs : r.2.fs = s.fs) :
    Leads s (m s) := by
  rw [h]
  show Steps s.fs r.2.fs
  rw [hfs]
  exact ReflTransGen.refl

theorem Leads.look (look : Sys → α) : Leads s ((fun s => .ok (look s, s) : M α) s) :=
  ReflTransGen.refl

theorem look_ends {look : Sys → α} {k : α → M β} {P : β × Sys → Prop} {E : Halt → Prop}
    (h : Ends P E (k (look s) s)) : Ends P E (((fun s => .ok (look s, s) : M α) >>= k) s) := h

theorem names_spec {c : Call α} {P : α × State → Prop} {E : Stop → Prop} (h : Ends P E (c s.fs)) :
    Ends (fun r => P (r.1, r.2.fs) ∧ r.2 = { s with fs := r.2.fs }) (fun h => ∃ e, h = .fs e ∧ E e)
      (names c s) := by
  unfold names
  cases hc : c s.fs with
  | ok r =>
    rw [hc] at h
    exact ⟨h, rfl⟩
  | error e =>
    rw [hc] at h
    exact ⟨e, rfl, h⟩

theorem names_ends {c : Call α} {P : α × State → Prop} {E : Stop → Prop} (h : Ends P E (c s.fs)) :
    Ends (fun r => P (r.1, r.2.fs) ∧ r.2 = { s with fs := r.2.fs }) (fun _ => True)
      (names c s) :=
  (names_spec h).mono (fun _ hr => hr) fun _ _ => trivial

end Leads

/-! ## The file table -/

section Table
variable {s : Sys} {f : Fin NFILE} {p : Slot}

theorem filedup_leads (hs : Ready s.fs) : Leads s (filedup f s) := by
  unfold filedup
  split
  · trivial
  · next hpos =>
    refine ReflTransGen.single (.quiet ?_ (NoneOpened.set rfl fun _ htype => ?_))
    · refine over_setFile hs.owned hs.closed f (fun h0 => by simp at h0) (fun i => ?_) s.fs.ofile
      have hone : 0 < (s.fs.ftable f).ref := by omega
      simp only [File.pointsTo, hone, Nat.succ_pos]
    · exact ⟨⟨by omega, htype⟩, rfl, rfl⟩

theorem released_opened {s : State} (htype : (s.ftable f).released.type = .inode ∨
    (s.ftable f).released.type = .device) (hpos : 0 < (s.ftable f).released.ref) :
    Opened s f ∧ (s.ftable f).released.ip = (s.ftable f).ip ∧
      (s.ftable f).released.writable = (s.ftable f).writable := by
  unfold File.released at *
  split at hpos
  · next hmany =>
    rw [if_pos hmany] at htype ⊢
    exact ⟨⟨by omega, htype⟩, rfl, rfl⟩
  · exact absurd hpos (lt_irrefl 0)

theorem release_fs (o : Obj) (writable : Bool) (s : Sys) : (release o writable s).fs = s.fs := by
  unfold release
  split
  · rfl
  · split <;> rfl
  · rfl

def letGo (f : Fin NFILE) (s : Sys) (fs : State) : Sys :=
  if (s.fs.ftable f).ref = 1 ∧ (s.fs.ftable f).type = .other then
    release (s.obj f) (s.fs.ftable f).writable { s with fs := fs }
  else { s with fs := fs }

theorem fileclose_ends (hs : Ready s.fs) :
    Ends (fun r => Over s.fs s.fs.disk (locks s.fs) 0 r.2.fs ∧
      r.2.fs.ftable = update s.fs.ftable f (s.fs.ftable f).released ∧
      r.2.fs.ofile = s.fs.ofile ∧ r.2.fs.cwd = s.fs.cwd ∧ r.2 = letGo f s r.2.fs)
      (fun h => ∃ e, h = .fs e ∧ (e = .fileclose → (s.fs.ftable f).ref < 1)) (fileclose f s) := by
  unfold fileclose
  refine look_ends ?_
  refine .seq ((names_spec (fileclose_spec hs.owned hs.closed f s.fs.ofile)).mono
    (fun _ hr => hr) fun _ he => he.imp fun e he => ⟨he.1, he.2.2⟩) ?_
  rintro _ s1 ⟨⟨hf, hofile, hcwd, hover⟩, hs1⟩
  unfold letGo
  split
  · have hfs := release_fs (s1.obj f) (s.fs.ftable f).writable s1
    show Over _ _ _ _ (release _ _ s1).fs ∧ (release _ _ s1).fs.ftable = _ ∧
      (release _ _ s1).fs.ofile = _ ∧ (release _ _ s1).fs.cwd = _ ∧ release _ _ s1 = _
    rw [hfs]
    refine ⟨hover, hf, hofile, hcwd, ?_⟩
    simp only at hs1
    have hobj : s1.obj = s.obj := by rw [hs1]
    rw [← hs1, hobj]
  · exact ⟨hover, hf, hofile, hcwd, hs1⟩

theorem fileclose_leads (hs : Ready s.fs) : Leads s (fileclose f s) := by
  refine (fileclose_ends hs).mono (fun r hr => ?_) fun _ _ => trivial
  refine ReflTransGen.single (.quiet hr.1 (NoneOpened.set hr.2.1 fun hpos htype => ?_))
  exact released_opened htype hpos

theorem steps_ofile {s s' : State} (hs : Ready s) (O : Slot → Fin NOFILE → Option (Fin NFILE))
    (h : s' = { s with ofile := O }) : Steps s s' := by
  refine ReflTransGen.single (.quiet ?_ (NoneOpened.of_eq (by rw [h])))
  rw [h]
  exact ((Mid.start s).setFiles s.ftable O).over_files hs.owned (fun i => by omega) hs.closed

theorem setFd_leads (fd : Fin NOFILE) (g : Option (Fin NFILE)) (hs : Ready s.fs) :
    Leads s ((modify fun s => s.setFd p fd g : M Unit) s) :=
  steps_ofile hs _ rfl

theorem setVma_leads (i : Fin NVMA) (v : Option Vma) :
    Leads s ((modify fun s => s.setVma p i v : M Unit) s) :=
  .still (r := ((), s.setVma p i v)) rfl rfl

theorem fdalloc_leads (hs : Ready s.fs) : Leads s (names (fdalloc p f) s) := by
  refine (names_ends (@fdalloc_spec s.fs s.fs p f)).mono (fun r hr => ?_) fun _ he => he
  obtain ⟨⟨-, hsame⟩ | ⟨fd, -, -, hset⟩, -⟩ := hr
  · show Steps s.fs r.2.fs
    rw [show r.2.fs = s.fs from hsame]
    exact ReflTransGen.refl
  · exact steps_ofile hs _ hset

def Blank (s : State) (f : Fin NFILE) : Prop := (s.ftable f).ref = 1 ∧ (s.ftable f).type = .none

theorem steps_blank {s s' : State} {file : File} (hs : Ready s) (f : Fin NFILE)
    (hold : ∀ i, (s.ftable f).pointsTo i = 0) (hpos : 0 < file.ref)
    (htype : file.type = .none ∨ file.type = .other) (h : s' = s.setFile f file) : Steps s s' := by
  have hno : ¬ (file.type = .inode ∨ file.type = .device) := by
    rcases htype with hn | hn <;> simp [hn]
  refine ReflTransGen.single
    (.quiet ?_ (NoneOpened.set (by rw [h]; rfl) fun _ ht => absurd ht hno))
  rw [h]
  refine over_setFile hs.owned hs.closed f (fun h0 => by omega) (fun i => ?_) s.ofile
  rw [hold i]
  simp [File.pointsTo, hno]

theorem filealloc_ends (hs : Ready s.fs) :
    Ends (fun r => Steps s.fs r.2.fs ∧ ∀ f, r.1 = some f → (s.fs.ftable f).ref = 0 ∧
      Blank r.2.fs f ∧ ∀ g, g ≠ f → r.2.fs.ftable g = s.fs.ftable g) (fun _ => True)
      (names filealloc s) := by
  refine (names_ends (@filealloc_spec s.fs s.fs)).mono (fun r hr => ?_) fun _ he => he
  obtain ⟨⟨hnone, hsame⟩ | ⟨f, hsome, hfree, hset⟩, -⟩ := hr
  · simp only at hnone hsame
    rw [hsame, hnone]
    exact ⟨ReflTransGen.refl, fun f hf => by cases hf⟩
  simp only at hsome hset
  have hnone := hs.closed f hfree
  refine ⟨?_, fun g hg => ?_⟩
  · refine steps_blank hs f (fun i => pointsTo_free i hfree) ?_ ?_ hset
    · exact Nat.one_pos
    · exact .inl hnone
  obtain rfl : f = g := by
    rw [hsome] at hg
    exact Option.some.inj hg
  rw [hset]
  refine ⟨hfree, ⟨by simp [State.setFile], by simp [State.setFile, hnone]⟩, fun g hg => ?_⟩
  simp [State.setFile, hg]

theorem Blank.pointsTo {s : State} (h : Blank s f) (i : Ip) : (s.ftable f).pointsTo i = 0 := by
  simp [File.pointsTo, h.2]

theorem setPipe_leads {f0 f1 : Fin NFILE} (hs : Ready s.fs) (h0 : Blank s.fs f0)
    (h1 : Blank s.fs f1) (hne : f0 ≠ f1) (k : Nat) :
    Leads s ((modify fun s => s.setPipe f0 f1 k : M Unit) s) := by
  have hfirst : Steps s.fs (s.fs.setFile f0
      { s.fs.ftable f0 with type := .other, readable := true, writable := false }) :=
    steps_blank hs f0 h0.pointsTo (by simp [h0.1]) (.inr rfl) rfl
  refine hfirst.trans (steps_blank (hfirst.ready hs) f1 (fun i => ?_) ?_ (.inr rfl) rfl)
  · simp only [State.setFile, update_of_ne hne.symm]
    exact h1.pointsTo i
  · simp [Sys.setFile, State.setFile, update_of_ne hne.symm, h1.1]

theorem pipealloc_leads (hs : Ready s.fs) (page : Option Nat) : Leads s (pipealloc page s) := by
  unfold pipealloc
  refine .seq (filealloc_ends hs) ?_
  rintro r s1 ⟨h1, hblank⟩
  have hs1 := h1.ready hs
  cases r with
  | none => exact h1
  | some f0 =>
    obtain ⟨-, hb0, -⟩ := hblank f0 rfl
    refine .seq (filealloc_ends hs1) ?_
    rintro r s2 ⟨h2, hblank2⟩
    have hs2 := h2.ready hs1
    have h12 : Steps s.fs s2.fs := h1.trans h2
    cases r with
    | none =>
      refine (Leads.bind hs2 (fileclose_leads hs2) fun _ s3 _ => ?_).mono
        (fun r hr => h12.trans hr) fun _ he => he
      exact .still rfl rfl
    | some f1 =>
      obtain ⟨hfree, hb1, hother⟩ := hblank2 f1 rfl
      cases page with
      | none =>
        refine (Leads.bind hs2 (fileclose_leads hs2) fun _ s3 hs3 => ?_).mono
          (fun r hr => h12.trans hr) fun _ he => he
        refine .bind hs3 (fileclose_leads hs3) fun _ s4 _ => ?_
        exact .still rfl rfl
      | some k =>
        have hne : f0 ≠ f1 := by
          rintro rfl
          rw [hb0.1] at hfree
          cases hfree
        have hb0' : Blank s2.fs f0 := by
          rw [Blank, hother f0 hne]
          exact hb0
        refine (Leads.bind hs2 (setPipe_leads hs2 hb0' hb1 hne k) fun _ s3 _ => ?_).mono
          (fun r hr => h12.trans hr) fun _ he => he
        exact .still rfl rfl

theorem sockalloc_leads (hs : Ready s.fs) (page : Option Nat) (a : Address) :
    Leads s (sockalloc page a s) := by
  unfold sockalloc
  refine .seq (filealloc_ends hs) ?_
  rintro r s1 ⟨h1, hblank⟩
  have hs1 := h1.ready hs
  cases r with
  | none => exact h1
  | some g =>
    obtain ⟨-, hb, -⟩ := hblank g rfl
    cases page with
    | none =>
      refine (Leads.bind hs1 (fileclose_leads hs1) fun _ s3 _ => ?_).mono
        (fun r hr => h1.trans hr) fun _ he => he
      exact .still rfl rfl
    | some k =>
      simp only [insertSock]
      split
      · trivial
      refine h1.trans (steps_blank hs1 g hb.pointsTo ?_ ?_ rfl)
      · show 0 < (s1.fs.ftable g).ref
        rw [show (s1.fs.ftable g).ref = 1 from hb.1]
        exact Nat.one_pos
      · exact .inr rfl

end Table

/-! ## Reading and writing -/

section Transfer
variable {s : Sys} {f : Fin NFILE}

theorem unlock_ends {s1 : State} {d : Nat → Dinode} {ip : Ip} {s : State} (hs : Ready s)
    (h : Mid s d (insert ip (locks s)) 0 s1) (hK : ip ∉ locks s) (off : Nat) :
    Ends (fun r => Over s d (locks s) 0 r.2 ∧
      r.2.ftable = update s.ftable f { s.ftable f with off := off }) (Err s)
      (iunlock ip (s1.setFile f { s.ftable f with off := off })) := by
  have h1 := h.setFiles (update s.ftable f { s.ftable f with off := off }) s.ofile
  have hset : s1.setFile f { s.ftable f with off := off } =
      { s1 with
        ftable := update s.ftable f { s.ftable f with off := off }
        ofile := s.ofile } := by
    rw [State.setFile, h.ftable, ← h.ofile]
  rw [hset]
  refine (iunlock_spec h1 hK).mono (fun r hr => ?_) fun _ he => he
  refine ⟨hr.1.over_files hs.owned (fun i => ?_) (closed_setFile hs.closed f (hs.closed f)),
    hr.1.ftable⟩
  have hsum : tally (File.pointsTo i) (update s.ftable f { s.ftable f with off := off }) +
      (s.ftable f).pointsTo i = tally (File.pointsTo i) s.ftable + (s.ftable f).pointsTo i :=
    tally_update (File.pointsTo i) s.ftable f _
  omega

theorem lock_ends (hs : Ready s.fs) (hf : Opened s.fs f) :
    Ends (fun r => (s.fs.ftable f).ip ∉ locks s.fs ∧
      Mid s.fs s.fs.disk (insert (s.fs.ftable f).ip (locks s.fs)) 0 r.2.fs ∧
      r.2.fs.disk = s.fs.disk ∧ (r.2.fs.icache (s.fs.ftable f).ip).inum = inumAt s.fs f ∧
      r.2 = { s with fs := r.2.fs }) (fun _ => True) (names (ilock (s.fs.ftable f).ip) s) := by
  refine (names_ends (ilock_held (Mid.start s.fs) rfl (hf.ref_pos hs))).mono (fun r hr => ?_)
    fun _ he => he
  exact ⟨hr.1.1, hr.1.2.1, hr.1.2.2.1, hr.1.2.2.2.1, hr.2⟩

theorem noneOpened_off {s s' : State} {off : Nat} (hf : Opened s f)
    (h : s'.ftable = update s.ftable f { s.ftable f with off := off }) : NoneOpened s s' :=
  NoneOpened.set h fun _ _ => ⟨hf, rfl, rfl⟩

theorem unlock_same {s1 : Sys} {ip : Ip} (hs : Ready s.fs)
    (h : Mid s.fs s.fs.disk (insert ip (locks s.fs)) 0 s1.fs) (hK : ip ∉ locks s.fs) :
    Ends (fun r => Trans s.fs r.2.fs ∧ r.2.fs.ftable = s.fs.ftable) (fun _ => True)
      (names (iunlock ip) s1) := by
  refine (names_ends (iunlock_spec h hK)).mono (fun r hr => ?_) fun _ he => he
  exact ⟨.quiet (hr.1.1.over hs.owned hs.closed) (NoneOpened.of_eq hr.1.1.ftable), hr.1.1.ftable⟩

theorem readInode_leads (hs : Ready s.fs) (hf : Opened s.fs f) (n : Nat) (dst : Nat → Bool) :
    Leads s (readInode f n dst s) := by
  unfold readInode
  refine look_ends ?_
  refine .seq (lock_ends hs hf) ?_
  rintro _ s1 ⟨hK, h1, hd1, hinum, -⟩
  refine .seq (R := fun r => r = (s1.fs.disk (inumAt s.fs f), s1))
    (by rw [← hinum]; rfl) ?_
  rintro _ _ ⟨⟩
  split
  · refine .seq (unlock_same hs h1 hK) ?_
    rintro _ s2 ⟨htrans, -⟩
    exact ReflTransGen.single htrans
  refine .seq (R := fun r => r.2 = s1.setFile f _) rfl ?_
  rintro _ s2 rfl
  refine .seq (names_ends (unlock_ends hs h1 hK _)) ?_
  rintro _ s3 ⟨⟨hover, hftable⟩, -⟩
  exact ReflTransGen.single (.quiet hover (noneOpened_off hf hftable))

def Writes (s : State) (f : Fin NFILE) : Prop :=
  (s.ftable f).type = .inode ∧ (s.ftable f).writable = true

theorem written_type (v : Dinode) (off n : Nat) (new : List UInt8) :
    (written v off n new).type = v.type := by
  unfold written setBytes
  split <;> rfl

theorem writeChunk_ends (hs : Ready s.fs) (hf : Writes s.fs f) (src : Nat → Option UInt8)
    (i n1 : Nat) :
    Ends (fun r => Steps s.fs r.2.fs ∧ Writes r.2.fs f) (fun _ => True)
      (writeChunk f src i n1 s) := by
  have hopen := hs.opened hf.1
  unfold writeChunk
  refine look_ends ?_
  refine .seq (lock_ends hs hopen) ?_
  rintro _ s1 ⟨hK, h1, hd1, hinum, -⟩
  refine .seq (R := fun r => r = (s1.fs.disk (inumAt s.fs f), s1))
    (by rw [← hinum]; rfl) ?_
  rintro _ _ ⟨⟩
  split
  · refine .seq (unlock_same hs h1 hK) ?_
    rintro _ s2 ⟨htrans, hftable⟩
    exact ⟨ReflTransGen.single htrans, by rw [Writes, hftable]; exact hf⟩
  · next hmode =>
    split
    · refine .seq (unlock_same hs h1 hK) ?_
      rintro _ s2 ⟨htrans, hftable⟩
      exact ⟨ReflTransGen.single htrans, by rw [Writes, hftable]; exact hf⟩
    rw [hd1] at hmode
    have hupdate : iupdate (s.fs.ftable f).ip (fun v =>
        written v (s.fs.ftable f).off n1 (Fs.readable src i n1)) s1.fs =
        .ok ((), s1.fs.setInode (inumAt s.fs f) (written (s.fs.disk (inumAt s.fs f))
          (s.fs.ftable f).off n1 (Fs.readable src i n1))) := by
      rw [iupdate, hinum, hd1]
    have h2 := h1.setDisk (x := inumAt s.fs f) (v := written (s.fs.disk (inumAt s.fs f))
      (s.fs.ftable f).off n1 (Fs.readable src i n1)) fun hne => by rwa [written_type, ← hd1]
    rw [hd1] at h2
    refine .seq (names_ends (P := fun r => r.2 = s1.fs.setInode (inumAt s.fs f)
      (written (s.fs.disk (inumAt s.fs f)) (s.fs.ftable f).off n1 (Fs.readable src i n1)))
      (E := fun _ => True) (by rw [hupdate]; exact rfl)) ?_
    rintro _ s2 ⟨hs2, -⟩
    simp only at hs2
    rw [← hs2] at h2
    refine .seq (R := fun r => r.2 = s2.setFile f _) rfl ?_
    rintro _ s3 rfl
    refine .seq (names_ends (unlock_ends hs h2 hK _)) ?_
    rintro _ s4 ⟨⟨hover, hftable⟩, -⟩
    refine ⟨ReflTransGen.single (.write hopen hf.2 ?_ hover
      (noneOpened_off hopen hftable)), ?_⟩
    · cases hbit : (s.fs.disk (inumAt s.fs f)).mode.getLsbD 1 with
      | true => rfl
      | false => exact absurd hbit hmode
    · rw [Writes, hftable, update_self]
      exact hf

theorem writeLoop_leads (src : Nat → Option UInt8) (n : Nat) : ∀ (turns i : Nat) (s : Sys),
    Ready s.fs → Writes s.fs f → Leads s (writeLoop f src n turns i s) := by
  intro turns
  induction turns with
  | zero => exact fun i s _ _ => .still rfl rfl
  | succ turns ih =>
    intro i s hs hf
    unfold writeLoop
    split
    · exact .still rfl rfl
    refine .seq (writeChunk_ends hs hf src i _) ?_
    rintro r s1 ⟨h1, hf1⟩
    match r with
    | none => exact h1
    | some false => exact h1
    | some true =>
      refine (ih _ s1 (h1.ready hs) hf1).mono (fun r hr => ?_) fun _ he => he
      exact h1.trans hr

theorem filewrite_leads (hs : Ready s.fs) (src : Nat → Option UInt8) (n answer : Int) :
    Leads s (filewrite f src n answer s) := by
  unfold filewrite
  refine look_ends ?_
  split
  · exact ReflTransGen.refl
  · next hwritable =>
    cases htype : (s.fs.ftable f).type with
    | none => trivial
    | inode =>
      have hf : Writes s.fs f := by
        refine ⟨htype, ?_⟩
        cases hbit : (s.fs.ftable f).writable with
        | true => rfl
        | false => exact absurd hbit hwritable
      refine .seq (writeLoop_leads src n.toNat n.toNat 0 s hs hf) ?_
      intro r s1 h1
      cases r with
      | none | some i => exact h1
    | device | other => exact ReflTransGen.refl

theorem fileread_leads (hs : Ready s.fs) (n : Nat) (dst : Nat → Bool)
    (answer : Option (List UInt8)) : Leads s (fileread f n dst answer s) := by
  unfold fileread
  refine look_ends ?_
  split
  · exact ReflTransGen.refl
  cases htype : (s.fs.ftable f).type with
  | none => trivial
  | inode => exact readInode_leads hs (hs.opened htype) n dst
  | device | other => exact ReflTransGen.refl

end Transfer

/-! ## The calls -/

section Calls
variable {s : Sys} {f : Fin NFILE} {p q : Slot}

theorem argfd_eq (p : Slot) (fd : Fin NOFILE) (s : Sys) :
    argfd p fd s = .ok (s.fs.ofile p fd, s) := rfl

section
variable (hs : Ready s.fs)
include hs

theorem Leads.argfd {β : Type} {k : Option (Fin NFILE) → M β} (fd : Fin NOFILE)
    (hnone : ∀ s1, Ready s1.fs → Leads s1 (k none s1))
    (hsome : ∀ f s1, Ready s1.fs → Leads s1 (k (some f) s1)) :
    Leads s ((Files.argfd p fd >>= k) s) := by
  refine .bind hs (.still (argfd_eq p fd s) rfl) fun r s1 hs1 => ?_
  cases r with
  | none => exact hnone s1 hs1
  | some f => exact hsome f s1 hs1

theorem sys_dup_leads (fd : Fin NOFILE) : Leads s (sys_dup p fd s) := by
  unfold sys_dup
  refine .argfd hs fd (fun _ _ => .still rfl rfl) fun f s1 hs1 => ?_
  refine .bind hs1 (fdalloc_leads hs1) fun r s2 hs2 => ?_
  cases r with
  | none => exact .still rfl rfl
  | some fd => exact .bind hs2 (filedup_leads hs2) fun _ s3 _ => .still rfl rfl

theorem sys_dup_new_leads (fd newfd : Fin NOFILE) : Leads s (sys_dup_new p fd newfd s) := by
  unfold sys_dup_new
  refine .argfd hs fd (fun _ _ => .still rfl rfl) fun f s1 hs1 => ?_
  refine .bind hs1 (.look fun s => s.fs.ofile p newfd) fun g s2 hs2 => ?_
  have hclose : Leads s2 ((g.elim (pure ()) fileclose : M Unit) s2) := by
    cases g with
    | none => exact .still rfl rfl
    | some g => exact fileclose_leads hs2
  refine .bind hs2 hclose fun _ s3 hs3 => ?_
  refine .bind hs3 (fdalloc_leads hs3) fun r s4 hs4 => ?_
  cases r with
  | none => exact .still rfl rfl
  | some fd => exact .bind hs4 (filedup_leads hs4) fun _ s5 _ => .still rfl rfl

theorem sys_close_leads (fd : Fin NOFILE) : Leads s (Files.sys_close p fd s) := by
  unfold Files.sys_close
  refine .argfd hs fd (fun _ _ => .still rfl rfl) fun f s1 hs1 => ?_
  refine .bind hs1 (setFd_leads fd none hs1) fun _ s2 hs2 => ?_
  exact .bind hs2 (fileclose_leads hs2) fun _ s3 _ => .still rfl rfl

theorem sys_read_leads (fd : Fin NOFILE) (n : Nat) (dst : Nat → Bool)
    (answer : Option (List UInt8)) : Leads s (sys_read p fd n dst answer s) := by
  unfold sys_read
  refine .argfd hs fd (fun _ _ => .still rfl rfl) fun f s1 hs1 => ?_
  exact fileread_leads hs1 n dst answer

theorem sys_write_leads (fd : Fin NOFILE) (src : Nat → Option UInt8) (n answer : Int) :
    Leads s (sys_write p fd src n answer s) := by
  unfold sys_write
  refine .argfd hs fd (fun _ _ => .still rfl rfl) fun f s1 hs1 => ?_
  exact filewrite_leads hs1 src n answer

end

theorem close_both_leads {β : Type} (f g : Fin NFILE) (b : β) (hs : Ready s.fs) : Leads s ((do
      fileclose f
      fileclose g
      return b : M β) s) := by
  refine .bind hs (fileclose_leads hs) fun _ s1 hs1 => ?_
  exact .bind hs1 (fileclose_leads hs1) fun _ s2 _ => .still rfl rfl

theorem sys_pipe_leads (hs : Ready s.fs) (page : Option Nat) (copied : Bool) :
    Leads s (sys_pipe p page copied s) := by
  unfold sys_pipe
  refine .bind hs (pipealloc_leads hs page) fun r s1 hs1 => ?_
  match r with
  | none => exact .still rfl rfl
  | some (rf, wf) =>
    refine .bind hs1 (fdalloc_leads hs1) fun r s2 hs2 => ?_
    cases r with
    | none => exact close_both_leads rf wf _ hs2
    | some fd0 =>
      refine .bind hs2 (fdalloc_leads hs2) fun r s3 hs3 => ?_
      cases r with
      | none =>
        refine .bind hs3 (setFd_leads fd0 none hs3) fun _ s4 hs4 => ?_
        exact close_both_leads rf wf _ hs4
      | some fd1 =>
        cases copied with
        | true => exact .still rfl rfl
        | false =>
          refine .bind hs3 (?_ : Leads s3 _) fun _ s4 hs4 =>
            close_both_leads rf wf _ hs4
          exact steps_ofile hs3 _ rfl

theorem sys_connect_leads (hs : Ready s.fs) (page : Option Nat) (a : Address) :
    Leads s (sys_connect p page a s) := by
  unfold sys_connect
  refine .bind hs (sockalloc_leads hs page a) fun r s1 hs1 => ?_
  cases r with
  | none => exact .still rfl rfl
  | some f =>
    refine .bind hs1 (fdalloc_leads hs1) fun r s2 hs2 => ?_
    cases r with
    | none => exact .bind hs2 (fileclose_leads hs2) fun _ s3 _ => .still rfl rfl
    | some fd => exact .still rfl rfl

theorem sys_mmap_leads (hs : Ready s.fs) (fd : Fin NOFILE) (sz : Nat)
    (length prot flags : BitVec 32) : Leads s (sys_mmap p fd sz length prot flags s) := by
  unfold sys_mmap
  refine .argfd hs fd (fun _ _ => .still rfl rfl) fun f s1 hs1 => ?_
  refine .bind hs1 (.still (m := file f) rfl rfl) fun ff s2 hs2 => ?_
  split
  · exact .still rfl rfl
  split
  · exact .still rfl rfl
  split
  · exact .still rfl rfl
  refine .bind hs2 (.look fun s => freeVma s p) fun r s3 hs3 => ?_
  cases r with
  | none => exact .still rfl rfl
  | some i =>
    refine .bind hs3 (setVma_leads i _) fun _ s4 hs4 => ?_
    exact .bind hs4 (filedup_leads hs4) fun _ s5 _ => .still rfl rfl

theorem writeBack_leads (v : Vma) (hs : Ready s.fs) (src : Nat → Option UInt8) (n answer : Int) :
    Leads s (writeBack v src n answer s) := by
  unfold writeBack
  split
  · exact .bind hs (filewrite_leads hs src n answer) fun _ s1 _ => .still rfl rfl
  · exact .still rfl rfl

theorem sys_munmap_leads (hs : Ready s.fs) (addr : BitVec 64) (length : BitVec 32)
    (src : Nat → Option UInt8) (answer : Int) :
      Leads s (sys_munmap p addr length src answer s) := by
  unfold sys_munmap
  refine .bind hs (.look fun s => findCut s p addr length) fun r s1 hs1 => ?_
  match r with
  | none => exact .still rfl rfl
  | some (i, v) =>
    refine .bind hs1 (setVma_leads i _) fun _ s2 hs2 => ?_
    refine .bind hs2 (writeBack_leads v hs2 src _ answer) fun _ s3 hs3 => ?_
    split
    · refine .bind hs3 (fileclose_leads hs3) fun _ s4 hs4 => ?_
      exact .bind hs4 (setVma_leads i none) fun _ s5 _ => .still rfl rfl
    · exact .still rfl rfl

theorem forkFiles_leads (p q : Slot) : ∀ (fds : List (Fin NOFILE)) (s : Sys), Ready s.fs →
    Leads s (forkFiles p q fds s) := by
  intro fds
  induction fds with
  | nil => exact fun s _ => .still rfl rfl
  | cons fd rest ih =>
    intro s hs
    unfold forkFiles
    refine .argfd hs fd ih fun f s1 hs1 => ?_
    refine .bind hs1 (filedup_leads hs1) fun _ s2 hs2 => ?_
    exact .bind hs2 (setFd_leads fd _ hs2) fun _ s3 hs3 => ih s3 hs3

theorem forkFiles_cwd (p q : Slot) : ∀ (fds : List (Fin NOFILE)) (s : Sys),
    Ends (fun r => r.2.fs.cwd = s.fs.cwd) (fun _ => True) (forkFiles p q fds s) := by
  intro fds
  induction fds with
  | nil => exact fun s => rfl
  | cons fd rest ih =>
    intro s
    unfold forkFiles
    refine .seq (R := fun r => r = (s.fs.ofile p fd, s)) rfl ?_
    rintro r _ ⟨⟩
    cases s.fs.ofile p fd with
    | none => exact ih s
    | some f =>
      refine .seq (R := fun r => r.2.fs.cwd = s.fs.cwd) ?_ fun _ s1 h1 => ?_
      · unfold filedup
        split
        · trivial
        · rfl
      · exact (ih (s1.setFd q fd (some f))).mono (fun r hr => hr.trans h1) fun _ he => he

theorem forkVmas_leads (p q : Slot) : ∀ (vmas : List (Fin NVMA)) (s : Sys), Ready s.fs →
    Leads s (forkVmas p q vmas s) := by
  intro vmas
  induction vmas with
  | nil => exact fun s _ => .still rfl rfl
  | cons i rest ih =>
    intro s hs
    unfold forkVmas
    refine .bind hs (.look fun s => s.vma p i) fun r s1 hs1 => ?_
    cases r with
    | none => exact ih s1 hs1
    | some v =>
      refine .bind hs1 (setVma_leads i _) fun _ s2 hs2 => ?_
      exact .bind hs2 (filedup_leads hs2) fun _ s3 hs3 => ih s3 hs3

theorem forkCwd_ends {s : State} (hs : Ready s) (hq : s.cwd q = none) :
    Ends (fun r => Trans s r.2 ∧ r.2.ftable = s.ftable ∧ r.2.ofile = s.ofile ∧
      ∃ ip, r.2.cwd = update s.cwd q (some ip)) (Err s) (forkCwd p q s) := by
  unfold forkCwd
  cases hcwd : s.cwd p with
  | none => exact Err.of_ne (by decide)
  | some ip =>
    have hpos : 0 < (s.icache ip).ref := (isCwd_le hcwd).trans (hs.owned ip)
    refine .bind (idup_spec (Mid.start s) fun _ => hpos) ?_
    rintro ⟨_, s1⟩ ⟨hip, h1, -⟩
    simp only at hip h1
    have hsound := sound_of hs.owned hs.cache
    refine ⟨.quiet ⟨fun i => ?_, h1.locked, ?_, fun _ => ?_, h1.disk, fun _ => h1.pins hsound⟩
      (NoneOpened.of_eq h1.ftable), h1.ftable, h1.ofile, _, by rw [h1.cwd]⟩
    · have href := h1.ref i
      have hsum := tally_update (isCwd i) s.cwd q (some ip)
      rw [hq, isCwd_some] at hsum
      have hzero : isCwd i none = 0 := if_neg (by simp)
      rw [held_cons, held_zero] at href
      rw [hip]
      simp only [holders, h1.ftable, h1.cwd, held_zero]
      simp only at href
      omega
    · show Closed s1
      rw [Closed, h1.ftable]
      exact hs.closed
    · have hok := h1.cache hsound
      exact ⟨hok.unique, hok.valid⟩

theorem forkCwd_leads (hs : Ready s.fs) (hq : s.fs.cwd q = none) :
    Leads s (names (forkCwd p q) s) :=
  (names_ends (forkCwd_ends hs hq)).mono (fun _ hr => ReflTransGen.single hr.1.1)
    fun _ he => he

theorem exitFiles_leads (p : Slot) : ∀ (fds : List (Fin NOFILE)) (s : Sys), Ready s.fs →
    Leads s (exitFiles p fds s) := by
  intro fds
  induction fds with
  | nil => exact fun s _ => .still rfl rfl
  | cons fd rest ih =>
    intro s hs
    unfold exitFiles
    refine .argfd hs fd ih fun f s1 hs1 => ?_
    refine .bind hs1 (fileclose_leads hs1) fun _ s2 hs2 => ?_
    exact .bind hs2 (setFd_leads fd _ hs2) fun _ s3 hs3 => ih s3 hs3

theorem exitVmas_leads (p : Slot) (src : Fin NVMA → Nat → Option UInt8) (answer : Int) :
    ∀ (vmas : List (Fin NVMA)) (s : Sys), Ready s.fs → Leads s (exitVmas p src answer vmas s) := by
  intro vmas
  induction vmas with
  | nil => exact fun s _ => .still rfl rfl
  | cons i rest ih =>
    intro s hs
    unfold exitVmas
    refine .bind hs (.look fun s => s.vma p i) fun r s1 hs1 => ?_
    cases r with
    | none => exact ih s1 hs1
    | some v =>
      refine .bind hs1 (writeBack_leads v hs1 (src i) _ answer) fun _ s2 hs2 => ?_
      refine .bind hs2 (fileclose_leads hs2) fun _ s3 hs3 => ?_
      exact .bind hs3 (setVma_leads i none) fun _ s4 hs4 => ih s4 hs4

theorem exitCwd_ends {s : State} (hs : Ready s) :
    Ends (fun r => Trans s r.2 ∧ r.2.ftable = s.ftable ∧ r.2.ofile = s.ofile ∧
      r.2.cwd = update s.cwd p none) (Err s) (exitCwd p s) := by
  unfold exitCwd
  cases hcwd : s.cwd p with
  | none => exact Err.of_ne (by decide)
  | some ip =>
    refine .bind (iput_dropped s ip) ?_
    rintro ⟨_, s1⟩ hdrop
    simp only at hdrop
    refine ⟨.quiet (over_dropped (T := 0) hs.owned hdrop (fun i => rfl) (fun i => by simp [locks])
      (isCwd_le hcwd) id (Frees.refl _) (fun _ _ _ _ => ⟨rfl, rfl⟩) rfl rfl ?_ fun i => ?_)
      (NoneOpened.of_eq hdrop.ftable), hdrop.ftable, hdrop.ofile, by rw [hdrop.cwd]⟩
    · show Closed s1
      rw [Closed, hdrop.ftable]
      exact hs.closed
    · have hsum := tally_update (isCwd i) s.cwd p none
      have hzero : isCwd i none = 0 := if_neg (by simp)
      rw [hcwd, isCwd_some, hzero] at hsum
      simp only [holders, hdrop.ftable, hdrop.cwd, held_zero]
      omega

theorem exitCwd_leads (hs : Ready s.fs) : Leads s (names (exitCwd p) s) :=
  (names_ends (exitCwd_ends hs)).mono (fun _ hr => ReflTransGen.single hr.1.1) fun _ he =>
    he

end Calls

/-! ## Actions -/

section Acts
variable {ninodes : Nat} {s s' : Sys} {p : Slot}

theorem Leads.drop {α : Type} {m : M α} (h : Leads s (m s)) : Leads s ((do
      let _ ← m
      pure () : M Unit) s) :=
  Ends.seq h fun _ _ hsteps => hsteps

theorem inherit_leads {q : Slot} (hs : Ready s.fs) (hq : s.fs.cwd q = none) :
    Leads s (inherit p q s) := by
  unfold inherit
  refine .seq (Ends.and (forkFiles_leads p q _ s hs) (forkFiles_cwd p q _ s)) ?_
  rintro _ s1 ⟨h1, hcwd⟩
  have hs1 := Steps.ready h1 hs
  simp only at h1 hcwd hs1
  exact (forkCwd_leads hs1 (by rw [hcwd, hq])).mono
    (fun r hr => ReflTransGen.trans h1 hr) fun _ he => he

theorem fork_leads (hs : Ready s.fs) {child : Option Slot}
    (hfree : ∀ q, child = some q → s.fs.cwd q = none) : Leads s (fork p child s) := by
  unfold fork
  cases child with
  | none => exact .still rfl rfl
  | some q =>
    refine .bind hs (inherit_leads hs (hfree q rfl)) fun _ s1 hs1 => ?_
    exact .bind hs1 (forkVmas_leads p q _ s1 hs1) fun _ s2 _ => .still rfl rfl

theorem clone_leads (hs : Ready s.fs) {child : Option Slot}
    (hfree : ∀ q, child = some q → s.fs.cwd q = none) : Leads s (clone p child s) := by
  unfold clone
  cases child with
  | none => exact .still rfl rfl
  | some q => exact .bind hs (inherit_leads hs (hfree q rfl)) fun _ s1 _ => .still rfl rfl

theorem exit_leads (hs : Ready s.fs) (src : Fin NVMA → Nat → Option UInt8) (answer : Int) :
    Leads s (exit p src answer s) := by
  unfold exit
  refine .bind hs (exitFiles_leads p _ s hs) fun _ s1 hs1 => ?_
  refine .bind hs1 (exitVmas_leads p src answer _ s1 hs1) fun _ s2 hs2 => ?_
  exact exitCwd_leads hs2

theorem step_steps {act : Act} (hact : ∀ op, act ≠ .call op) (hs : Ready s.fs)
    (h : step ninodes s (p, act) = some s') : Steps s.fs s'.fs := by
  unfold step at h
  rw [Option.ite_none_right_eq_some] at h
  obtain ⟨hen, h⟩ := h
  have hleads : Leads s (exec ninodes p act s) := by
    cases act with
    | call op => exact absurd rfl (hact op)
    | dup fd => exact (sys_dup_leads hs fd).drop
    | dup_new fd newfd => exact (sys_dup_new_leads hs fd newfd).drop
    | close fd => exact (sys_close_leads hs fd).drop
    | read fd n dst answer => exact (sys_read_leads hs fd n dst answer).drop
    | write fd src n answer => exact (sys_write_leads hs fd src n answer).drop
    | pipe page copied => exact (sys_pipe_leads hs page copied).drop
    | connect page a => exact (sys_connect_leads hs page a).drop
    | mmap fd sz length prot flags => exact (sys_mmap_leads hs fd sz length prot flags).drop
    | munmap addr length src answer => exact (sys_munmap_leads hs addr length src answer).drop
    | fork child =>
      refine (fork_leads hs fun q hq => ?_).drop
      simpa [enabled, hq] using (Bool.and_eq_true_iff.mp hen).2
    | clone child =>
      refine (clone_leads hs fun q hq => ?_).drop
      simpa [enabled, hq] using (Bool.and_eq_true_iff.mp hen).2
    | exit src answer => exact exit_leads hs src answer
  cases hexec : exec ninodes p act s with
  | error e => simp [hexec] at h
  | ok r =>
    simp only [hexec, Option.some.injEq] at h
    rw [hexec] at hleads
    rw [← h]
    exact hleads

end Acts

end BirdOS.Files
