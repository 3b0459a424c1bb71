import BirdOS.Fs.NamesRefs

/-! # References and locks balance, but for three calls

`sys_mkf` returns with the lock and the reference that `create` gave it, and `sys_chmod`
and `sys_geti` return with the reference of `namei` (`leaks`).  All other calls, and these
when they find no inode, leave no lock and one reference for each open file and each
current directory (`Balanced`). -/

namespace BirdOS.Names

open Outcome Tally Machine Function

section Balance
open Finset Multiset

/-! ## What a call does to the tree -/

def Op.creates : Op → Option (List UInt8 × FType)
  | .openFile path omode => if O_CREATE omode then some (path, .file) else none
  | .mkdir path => some (path, .dir)
  | .mknod path _ _ => some (path, .device)
  | .symlink _ path => some (path, .symlink)
  | .mkf path => some (path, .file)
  | _ => none

def addsLink (p : Slot) (old new : List UInt8) (s : State) : Option Nat :=
  match linkOld p old s with
  | .ok (some _, s') => adds p new s'
  | _ => none

def Links (s : State) (p : Slot) (old new : List UInt8) (d d' : Nat → Dinode) : Prop :=
  ∃ y e e', Kept s d e ∧ (e y).type ≠ some .dir ∧ (Sound s → (e y).type ≠ none) ∧
    Kept s (linkedUp e y) e' ∧
    (d' = linkedDown e' y ∨
      ∃ x name, addsLink p old new s = some x ∧ Open e' x name ∧ d' = entered e' x y name)

inductive Effect (ninodes : Nat) (s : State) (p : Slot) (op : Op) : (Nat → Dinode) → Prop where
  | same : Effect ninodes s p op s.disk
  | create {path : List UInt8} {type : FType} {d : Nat → Dinode} :
      op.creates = some (path, type) → Creates ninodes p path type s s.disk d →
      Effect ninodes s p op d
  | link {old new : List UInt8} {d : Nat → Dinode} :
      op = .link old new → Links s p old new s.disk d → Effect ninodes s p op d
  | unlink {path : List UInt8} {d : Nat → Dinode} :
      op = .unlink path → Unlinks s s.disk d → Effect ninodes s p op d

/-! ## What a call does to the open files and to the contents of an inode -/

inductive Shift (ninodes : Nat) (s : State) (p : Slot) (d : Nat → Dinode) :
    Op → Int × State → (Nat → Dinode) → Prop where
  | quiet {op : Op} {r : Int × State} : r.2.ftable = s.ftable → r.2.ofile = s.ofile →
      Shift ninodes s p d op r d
  | opened {path : List UInt8} {omode : BitVec 32} {r : Int × State} {e : Nat → Dinode} {x : Nat}
      {f : Fin NFILE} {fd : Fin NOFILE} {ip : Ip} :
      r.1 = fd.val → Kept s d e →
      MayOpen s.disk s p path omode x (e x) →
      (s.ftable f).ref = 0 → s.ofile p fd = none →
      r.2.ftable = update s.ftable f (opened { s.ftable f with ref := 1 } ip (e x) omode) →
      r.2.ofile = update s.ofile p (update (s.ofile p) fd (some f)) →
      (r.2.icache ip).inum = x → r.2.disk x = truncated e x omode x →
      Shift ninodes s p d (.openFile path omode) r (truncated e x omode)
  | closed {fd : Fin NOFILE} {r : Int × State} {f : Fin NFILE} : s.ofile p fd = some f →
      r.2.ftable = update s.ftable f (s.ftable f).released →
      r.2.ofile = update s.ofile p (update (s.ofile p) fd none) →
      Shift ninodes s p d (.close fd) r d
  | chmod {path : List UInt8} {mode : BitVec 32} {r : Int × State} {e : Nat → Dinode} {x : Nat} :
      r.2.ftable = s.ftable → r.2.ofile = s.ofile → Kept s d e →
      (Sound s → named s.disk s p path = some x) →
      Shift ninodes s p d (.chmod path mode) r
        (update e x { e x with mode := mode.setWidth 8 })
  | target {target path : List UInt8} {r : Int × State} {e : Nat → Dinode} {x : Nat} :
      r.2.ftable = s.ftable → r.2.ofile = s.ofile → Kept s d e → (e x).type = some .symlink →
      Shift ninodes s p d (.symlink target path) r
        (update e x { e x with data := target ++ (e x).data.drop MAXPATH })

/-! ## The calls that keep a reference -/

def found {α : Type} (r : Except Stop (Option α × State)) : Bool :=
  match r with
  | .ok (some _, _) => true
  | _ => false

def leaks (ninodes : Nat) (s : State) (l : Slot × Op) : Bool :=
  match l.2 with
  | .mkf path => found (create ninodes l.1 path .file 0 0 s)
  | .chmod path _ => found (namei l.1 path s)
  | .geti path _ => found (namei l.1 path s)
  | _ => false

structure After (ninodes : Nat) (s : State) (p : Slot) (op : Op) (r : Int × State)
    (d d' : Nat → Dinode) (K : Finset Ip) (T : Held) : Prop where
  effect : Effect ninodes s p op d
  shift : Shift ninodes s p d op r d'
  counts : Over s d' K T r.2
  clean : leaks ninodes s (p, op) = false → K = locks s ∧ T = 0
  leak : leaks ninodes s (p, op) = true → T.card = 1

section Calls
variable {ninodes : Nat} {s : State} {p : Slot} {op : Op} {r : Int × State} {d d' : Nat → Dinode}

theorem After.quiet (heffect : Effect ninodes s p op d) (hshift : Shift ninodes s p d op r d')
    (hover : Over s d' (locks s) 0 r.2) (hleak : leaks ninodes s (p, op) = false) :
    After ninodes s p op r d d' (locks s) 0 :=
  ⟨heffect, hshift, hover, fun _ => ⟨rfl, rfl⟩, fun h => absurd h (by simp [hleak])⟩

theorem After.kept {K : Finset Ip} {ip : Ip} {x : Nat} (heffect : Effect ninodes s p op d)
    (hshift : Shift ninodes s p d op r d') (hover : Over s d' K ((ip, x) ::ₘ 0) r.2)
    (hleak : leaks ninodes s (p, op) = true) : After ninodes s p op r d d' K ((ip, x) ::ₘ 0) :=
  ⟨heffect, hshift, hover, fun h => absurd h (by simp [hleak]), fun _ => rfl⟩

theorem Mid.after (h : Mid s d (locks s) 0 r.2) (ho : Owned s) (hc : Closed s)
    (heffect : Effect ninodes s p op d) (hleak : leaks ninodes s (p, op) = false) :
    ∃ d d' K T, After ninodes s p op r d d' K T :=
  ⟨d, d, _, 0, .quiet heffect (.quiet h.ftable h.ofile) (h.over ho hc) hleak⟩

theorem effect_create {path : List UInt8} {type : FType} {P Q : Prop}
    (hop : op.creates = some (path, type))
    (h : d = s.disk ∧ P ∨ Creates ninodes p path type s s.disk d ∧ Q) :
      Effect ninodes s p op d := by
  rcases h with ⟨rfl, -⟩ | ⟨hnew, -⟩
  · exact .same
  · exact .create hop hnew

section
variable (ho : Owned s) (hc : Closed s)
include ho hc

theorem make_after (path : List UInt8) (type : FType)
    (major minor : BitVec 16) (hop : op.creates = some (path, type))
    (hleak : leaks ninodes s (p, op) = false) :
    Ends (fun r => ∃ d d' K T, After ninodes s p op r d d' K T) (Err s)
      (make ninodes p path type major minor s) := by
  unfold make
  refine .seq (create_spec (Mid.start s) p path type major minor) ?_
  intro r s1 hr
  cases r with
  | none => exact Mid.after (r := (_, _)) hr ho hc .same hleak
  | some ip =>
    obtain ⟨hK, y, d', hd', -, h1⟩ := hr
    refine .seq (iunlockput_spec h1 hK) ?_
    rintro _ s2 ⟨h2, -⟩
    exact Mid.after (r := (_, _)) h2 ho hc (effect_create hop hd') hleak

theorem sys_symlink_after (target path : List UInt8) :
    Ends (fun r => ∃ d d' K T, After ninodes s p (.symlink target path) r d d' K T) (Err s)
      (sys_symlink ninodes p target path s) := by
  unfold sys_symlink
  refine .seq (create_spec (Mid.start s) p path .symlink 0 0) ?_
  intro r s1 hr
  cases r with
  | none => exact Mid.after (r := (_, _)) hr ho hc .same rfl
  | some ip =>
    obtain ⟨hK, y, d', hd', hfits, h1⟩ := hr
    have htype : (s1.disk y).type = some .symlink := hfits.resolve_right (by simp)
    refine .seq (iupdate_mid h1 (mem_cons_self _ _) _ id) ?_
    rintro _ s2 ⟨hd2, h2⟩
    refine .seq (iunlockput_spec h2 hK) ?_
    rintro _ s3 ⟨h3, -⟩
    rw [hd2] at h3
    exact ⟨d', _, _, 0, .quiet (effect_create rfl hd')
      (.target h3.ftable h3.ofile h1.kept htype) (h3.over ho hc) rfl⟩

theorem sys_link_after (old new : List UInt8) :
    Ends (fun r => ∃ d d' K T, After ninodes s p (.link old new) r d d' K T) (Err s)
      (sys_link p old new s) := by
  unfold sys_link
  refine .seq (linkOld_spec (Mid.start s) p old).with_eq ?_
  rintro r s1 ⟨heq, hr⟩
  cases r with
  | none => exact Mid.after (r := (_, _)) hr ho hc .same rfl
  | some ip =>
    obtain ⟨y, e, hkept, hdir, halloc, h1⟩ := hr
    refine (linkNew_spec h1 p new).mono (fun r hr => ?_) fun _ he => he
    rcases hr with ⟨e', hkept', h2⟩ | ⟨e', x, name, hadds, hkept', hopen, h2⟩
    · exact h2.after ho hc (.link rfl ⟨y, e, e', hkept, hdir, halloc, hkept', .inl rfl⟩) rfl
    have hlink : addsLink p old new s = some x := by
      rw [addsLink, heq]
      exact hadds
    exact h2.after ho hc
      (.link rfl ⟨y, e, e', hkept, hdir, halloc, hkept', .inr ⟨x, name, hlink, hopen, rfl⟩⟩) rfl

theorem sys_exec_after (path : List UInt8) (v : Int) (hleak : leaks ninodes s (p, op) = false) :
    Ends (fun r => ∃ d d' K T, After ninodes s p op r d d' K T) (Err s) (sys_exec p path v s) := by
  unfold sys_exec
  refine .seq (namei_spec (Mid.start s) (by simp) p path) ?_
  intro r s1 hr
  cases r with
  | none => exact Mid.after (r := (_, _)) hr ho hc .same hleak
  | some ip =>
    obtain ⟨x, h1⟩ := hr
    refine .seq (ilock_spec h1 (mem_cons_self _ _)) ?_
    rintro _ s2 ⟨hK, h2, -, -⟩
    refine .seq (iunlockput_spec h2 hK) ?_
    rintro _ s3 ⟨h3, -⟩
    exact Mid.after (r := (_, _)) h3 ho hc .same hleak

theorem sys_mkf_after (path : List UInt8) :
    Ends (fun r => ∃ d d' K T, After ninodes s p (.mkf path) r d d' K T) (Err s)
      (sys_mkf ninodes p path s) := by
  unfold sys_mkf
  refine .seq (create_spec (Mid.start s) p path .file 0 0).with_eq ?_
  rintro r s1 ⟨heq, hr⟩
  cases r with
  | none => exact Mid.after (r := (_, _)) hr ho hc .same (congrArg found heq)
  | some ip =>
    obtain ⟨hK, y, d', hd', -, h1⟩ := hr
    refine .seq (inumOf_spec h1 (mem_cons_self _ _)) ?_
    rintro _ _ ⟨⟩
    exact ⟨d', d', _, _, .kept (effect_create rfl hd') (.quiet h1.ftable h1.ofile)
      (h1.over ho hc) (congrArg found heq)⟩

theorem namei_after (path : List UInt8) (body : Ip → Call Unit) {C : Nat → (Nat → Dinode) → Prop}
    (hbody : ∀ (ip : Ip) (x : Nat) (K : Finset Ip) (s1 : State), Mid s s.disk K ((ip, x) ::ₘ 0) s1 →
      Ends (fun r => ∃ d', C x d' ∧ Mid s d' K ((ip, x) ::ₘ 0) r.2) (Err s) (body ip s1)) (v : Int)
    (hshift : ∀ x d' r, (Sound s → named s.disk s p path = some x) → C x d' →
      r.2.ftable = s.ftable → r.2.ofile = s.ofile → Shift ninodes s p s.disk op r d')
    (hleak : leaks ninodes s (p, op) = found (namei p path s)) :
    Ends (fun r => ∃ d d' K T, After ninodes s p op r d d' K T) (Err s) ((do
        match ← namei p path with
        | none => return -1
        | some ip => do
          ilock ip
          body ip
          iunlock ip
          return v : Call Int) s) := by
  refine .seq (namei_named (Mid.start s) (by simp) p path).with_eq ?_
  rintro n s1 ⟨heq, hn, hnamed⟩
  cases n with
  | none =>
    refine Mid.after (r := (_, _)) hn ho hc .same ?_
    rw [hleak, heq]
    rfl
  | some ip =>
    obtain ⟨x, h1⟩ := hn
    have hx : Sound s → named s.disk s p path = some x := fun hs => by
      rw [← hnamed hs]
      exact congrArg some (h1.inum_eq (mem_cons_self _ _))
    refine .seq (ilock_spec h1 (mem_cons_self _ _)) ?_
    rintro _ s2 ⟨hK, h2, -, -⟩
    refine .seq (hbody ip x _ s2 h2) ?_
    rintro _ s3 ⟨d', hC, h3⟩
    refine .seq (iunlock_spec h3 hK) ?_
    rintro _ s4 ⟨h4, -⟩
    refine ⟨s.disk, d', _, _, .kept .same (hshift x d' _ hx hC h4.ftable h4.ofile)
      (h4.over ho hc) ?_⟩
    rw [hleak, heq]
    rfl

theorem sys_open_after (path : List UInt8) (omode : BitVec 32) :
    Ends (fun r => ∃ d d' K T, After ninodes s p (.openFile path omode) r d d' K T) (Err s)
      (sys_open ninodes p path omode s) := by
  refine (sys_open_spec ho hc (Mid.start s) p path omode).mono (fun r hr => ?_) fun _ he => he
  obtain ⟨d, hd, hopens⟩ := hr
  have heffect : Effect ninodes s p (.openFile path omode) d := by
    rcases hd with rfl | ⟨hcreate, hnew⟩
    · exact .same
    · exact .create (if_pos hcreate) hnew
  cases hopens with
  | failed hf hofile _ hover => exact ⟨d, d, _, 0, .quiet heffect (.quiet hf hofile) hover rfl⟩
  | opened hr hkept hv hfree hfd hf hofile _ hinum hdisk hover =>
    exact ⟨d, _, _, 0, .quiet heffect (.opened hr hkept hv hfree hfd hf hofile hinum hdisk) hover
      rfl⟩

theorem names_after (p : Slot) (op : Op) (hop : ∀ fd, op ≠ .close fd) :
    Ends (fun r => ∃ d d' K T, After ninodes s p op r d d' K T) (Err s) (call ninodes p op s) := by
  cases op with
  | openFile path omode => exact sys_open_after ho hc path omode
  | link old new => exact sys_link_after ho hc old new
  | unlink path =>
    refine (sys_unlink_spec (Mid.start s) p path).mono (fun r hr => ?_) fun _ he => he
    obtain ⟨d, rfl | hgone, hmid⟩ := hr
    · exact hmid.after ho hc .same rfl
    · exact hmid.after ho hc (.unlink rfl hgone) rfl
  | mkdir path => exact make_after ho hc path .dir 0 0 rfl rfl
  | mknod path major minor => exact make_after ho hc path .device _ _ rfl rfl
  | chdir path =>
    refine (sys_chdir_spec ho hc p path).mono (fun r hr => ?_) fun _ he => he
    exact ⟨_, _, _, 0, .quiet .same (.quiet hr.2.1 hr.2.2) hr.1 rfl⟩
  | symlink target path => exact sys_symlink_after ho hc target path
  | mkf path => exact sys_mkf_after ho hc path
  | chmod path mode =>
    refine namei_after ho hc path (fun ip => iupdate ip fun d => { d with mode := mode.setWidth 8 })
      (C := fun x d' => ∃ e, Kept s s.disk e ∧
        d' = update e x { e x with mode := mode.setWidth 8 })
      (fun ip x K s1 h1 => ?_) 0 (fun x d' r hx hC hf hofile => ?_) rfl
    · refine (iupdate_mid h1 (mem_cons_self _ _) _ id).mono (fun r hr => ?_) fun _ he => he
      exact ⟨_, ⟨_, h1.kept, hr.1⟩, hr.2⟩
    · obtain ⟨e, hkept, rfl⟩ := hC
      exact .chmod hf hofile hkept hx
  | geti path copied =>
    refine namei_after ho hc path (fun _ => pure ()) (C := fun _ d' => d' = s.disk)
      (fun ip x K s1 h1 => ⟨_, rfl, h1⟩) (if copied then 0 else -1)
      (fun x d' r _ hC hf hofile => ?_) rfl
    rw [hC]
    exact .quiet hf hofile
  | exec path v => exact sys_exec_after ho hc path v rfl
  | close fd => exact absurd rfl (hop fd)
  | failed => exact Mid.after (r := (_, _)) (Mid.start s) ho hc .same rfl

theorem call_after (p : Slot) (op : Op) :
    Ends (fun r => ∃ d d' K T, After ninodes s p op r d d' K T) (Spare s)
      (call ninodes p op s) := by
  by_cases hop : ∃ fd, op = .close fd
  · obtain ⟨fd, rfl⟩ := hop
    refine (sys_close_spec ho hc p fd).mono (fun r hr => ?_) fun _ he => he
    obtain ⟨hover, ⟨hf, hofile⟩ | ⟨f, hfd, hf, hofile⟩⟩ := hr
    · exact ⟨_, _, _, 0, .quiet .same (.quiet hf hofile) hover rfl⟩
    · exact ⟨_, _, _, 0, .quiet .same (.closed hfd hf hofile) hover rfl⟩
  · exact (names_after ho hc p op fun fd hfd => hop ⟨fd, hfd⟩).mono
      (fun _ hr => hr) fun _ he => he.1

end

end Calls

/-! ## Runs -/

/-- No lock is held, and the references are those of files and current directories. -/
structure Balanced (s : State) : Prop where
  ref : ∀ i, (s.icache i).ref = holders s i
  unlocked : ∀ i, (s.icache i).locked = false
  closed : Closed s

instance (s : State) : Decidable (Balanced s) :=
  decidable_of_iff ((∀ i, (s.icache i).ref = holders s i) ∧ (∀ i, (s.icache i).locked = false) ∧
    ∀ f, (s.ftable f).ref = 0 → (s.ftable f).type = .none)
    ⟨fun h => ⟨h.1, h.2.1, h.2.2⟩, fun h => ⟨h.ref, h.unlocked, h.closed⟩⟩

section Runs
variable {ninodes : Nat} {s s' : State} {l : Slot × Op}

theorem Balanced.owned (h : Balanced s) : Owned s := fun i => (h.ref i).ge

theorem step_after (ho : Owned s) (hc : Closed s) (hstep : step ninodes s l = some s') :
    ∃ r d d' K T, call ninodes l.1 l.2 s = .ok (r, s') ∧
      After ninodes s l.1 l.2 (r, s') d d' K T := by
  have hcall : Ends (fun r => ∃ d d' K T, After ninodes s l.1 l.2 r d d' K T) (Spare s)
      (call ninodes l.1 l.2 s) := call_after ho hc l.1 l.2
  unfold step at hstep
  split at hstep
  · next r s1 heq =>
    rw [heq] at hcall
    cases hstep
    exact ⟨r, hcall.imp fun d h => h.imp fun d' h => h.imp fun K h => h.imp fun T h => ⟨heq, h⟩⟩
  · cases hstep

theorem balanced_step_iff (h : Balanced s) (hstep : step ninodes s l = some s') :
    Balanced s' ↔ leaks ninodes s l = false := by
  obtain ⟨r, d, d', K, T, -, hafter⟩ := step_after h.owned h.closed hstep
  have href : ∀ i, (s'.icache i).ref = holders s' i + held T i := by
    intro i
    have hi : (s'.icache i).ref + holders s i = (s.icache i).ref + holders s' i + held T i :=
      hafter.counts.ref i
    rw [h.ref i] at hi
    omega
  constructor
  · intro h'
    by_contra hleak
    obtain ⟨g, rfl⟩ := card_eq_one.mp (hafter.leak (by simpa using hleak))
    have hpos := held_pos (mem_singleton_self g)
    have hi := href g.1
    rw [h'.ref g.1] at hi
    omega
  · intro hleak
    obtain ⟨rfl, rfl⟩ := hafter.clean hleak
    refine ⟨fun i => ?_, fun i => ?_, hafter.counts.closed⟩
    · rw [href i, held_zero, add_zero]
    · by_contra hlock
      have hmem := (hafter.counts.locked i).mp (by simpa using hlock)
      simp [locks, h.unlocked i] at hmem

def openFiles (s : State) : Finset (Fin NFILE) :=
  Finset.univ.filter fun f =>
    0 < (s.ftable f).ref ∧ ((s.ftable f).type = .inode ∨ (s.ftable f).type = .device)

def cwds (s : State) : Finset Slot := Finset.univ.filter fun p => (s.cwd p).isSome

theorem Balanced.busy_card (h : Balanced s) :
    (busy s).card ≤ (openFiles s).card + (cwds s).card := by
  have hcover : busy s ⊆ (openFiles s).image (fun f => (s.ftable f).ip) ∪
      (cwds s).image fun p => (s.cwd p).getD 0 := by
    intro i hi
    have hpos : 0 < holders s i := by
      rw [← h.ref i]
      simpa [busy] using hi
    unfold holders at hpos
    by_cases hfiles : tally (File.pointsTo i) s.ftable = 0
    · obtain ⟨p, hp⟩ := exists_of_tally_ne_zero (show tally (isCwd i) s.cwd ≠ 0 by omega)
      have hcwd : s.cwd p = some i := by
        by_contra hne
        exact hp (if_neg hne)
      refine mem_union_right _ (mem_image.mpr ⟨p, ?_, ?_⟩)
      · simp [cwds, hcwd]
      · simp [hcwd]
    · obtain ⟨f, hf⟩ := exists_of_tally_ne_zero hfiles
      have hfile : 0 < (s.ftable f).ref ∧
          ((s.ftable f).type = .inode ∨ (s.ftable f).type = .device) ∧ (s.ftable f).ip = i := by
        by_contra hne
        exact hf (if_neg hne)
      refine mem_union_left _ (mem_image.mpr ⟨f, ?_, hfile.2.2⟩)
      simp [openFiles, hfile.1, hfile.2.1]
  calc (busy s).card
      ≤ _ := card_le_card hcover
    _ ≤ _ := card_union_le _ _
    _ ≤ (openFiles s).card + (cwds s).card :=
        Nat.add_le_add card_image_le card_image_le

/-- As long as no call leaks, the references and locks balance, and the entries of the cache do
not run out. -/
theorem inode_references_balance (ninodes : Nat) (s : State) (h : Balanced s)
    (ls : List (Slot × Op)) (hclean :
      Along (step ninodes) (fun s l => leaks ninodes s l = false) s ls)
    (s' : State) (hrun : run (step ninodes) s ls = some s') :
    Balanced s' ∧ ∀ p op, (openFiles s').card + (cwds s').card + 3 ≤ NINODE →
      call ninodes p op s' ≠ .error .igetNoInodes := by
  have h' : Balanced s' := along_invariant (fun s l s₁ hs hgood hstep =>
    (balanced_step_iff hs hstep).mpr hgood) ls s s' h hclean hrun
  refine ⟨h', fun p op hspare herr => ?_⟩
  have hcall : Ends (fun r => ∃ d d' K T, After ninodes s' p op r d d' K T) (Spare s')
      (call ninodes p op s') := call_after h'.owned h'.closed p op
  rw [herr] at hcall
  exact hcall (by have := h'.busy_card; omega) rfl

end Runs

def twoAtRoot (disk : Nat → Dinode) : State where
  disk := disk
  icache := fun i => if i = 0 then ⟨ROOTINO, 2, false, false⟩ else ⟨0, 0, false, false⟩
  ftable := fun _ => ⟨.none, 0, false, false, 0, 0, 0⟩
  ofile := fun _ _ => none
  cwd := fun p => if p.val < 2 then some 0 else none

def bareDisk (inum : Nat) : Dinode :=
  if inum = ROOTINO then
    ⟨some .dir, 3, 0, 0, 1, [⟨ROOTINO, dot⟩, ⟨ROOTINO, dotdot⟩], []⟩
  else ⟨none, 0, 0, 0, 0, [], []⟩

def sharedOps : List (Slot × Op) :=
  [(0, .mkdir [100]), (0, .chdir [100]), (0, .openFile [102] 0x202),
    (1, .link [100, 47, 102] [103]), (1, .openFile [103] 0), (1, .unlink [103])]

theorem inode_references_balance_shared :
    ∃ s', run (step 200) (twoAtRoot bareDisk) sharedOps = some s' ∧ Balanced s' ∧
      ∀ p op, call 200 p op s' ≠ .error .igetNoInodes := by
  have hrun : ∃ s', run (step 200) (twoAtRoot bareDisk) sharedOps = some s' ∧
      (openFiles s').card + (cwds s').card + 3 ≤ NINODE :=
    run_test (step 200) (twoAtRoot bareDisk) sharedOps _ (by decide +kernel)
  obtain ⟨s', hrun, hspare⟩ := hrun
  obtain ⟨hbal, hcall⟩ := inode_references_balance 200 (twoAtRoot bareDisk) (by decide +kernel)
    sharedOps (by decide +kernel) s' hrun
  exact ⟨s', hrun, hbal, fun p op => hcall p op hspare⟩

def stop (r : Except Stop (Int × State)) : Option Stop :=
  match r with
  | .error e => some e
  | .ok _ => none

def mkfOps (n : Nat) : List (Slot × Op) :=
  (List.range n).map fun i => (0, .mkf [UInt8.ofNat (48 + i)])

/-- `mkf` of a file leaves its inode locked and referenced by nobody, and an `open` of the file
waits forever; after 49 of them the cache is full. -/
theorem mkf_keeps_lock : Balanced (twoAtRoot bareDisk) ∧
    (∃ s', run (step 200) (twoAtRoot bareDisk) (mkfOps 1) = some s' ∧
      (s'.icache 1).locked = true ∧ (s'.icache 1).ref = 1 ∧ holders s' 1 = 0 ∧
      stop (call 200 1 (.openFile [48] 0) s') = some .blocked) ∧
    ∃ s', run (step 200) (twoAtRoot bareDisk) (mkfOps 49) = some s' ∧ openFiles s' = ∅ ∧
      stop (call 200 1 (.mkdir [100]) s') = some .igetNoInodes := by
  refine ⟨by decide +kernel, ?_, ?_⟩
  all_goals exact run_test (step 200) (twoAtRoot bareDisk) _ _ (by decide +kernel)

end Balance

/-! ## What a link holds behind its target -/

section Symlink
open List

/-- The buffer of `sys_symlink` after `argstr`; the rest is what the stack held. -/
def fetchInto (stack target : List UInt8) : List UInt8 :=
  target ++ 0 :: stack.drop (target.length + 1)

def diskAfter (r : Except Stop (Int × State)) : Option (Nat → Dinode) := r.toOption.map (·.2.disk)

section
variable {ninodes : Nat} {p : Slot} {path : List UInt8} {s s' : State} {ip : Ip}

theorem symlink_refused (h : ∀ ip s', create ninodes p path .symlink 0 0 s ≠ .ok (some ip, s'))
    (target target' : List UInt8) :
    sys_symlink ninodes p target path s = sys_symlink ninodes p target' path s := by
  simp only [sys_symlink, bind, StateT.bind]
  cases hc : create ninodes p path .symlink 0 0 s with
  | error e => rfl
  | ok r =>
    obtain ⟨_ | ip, s'⟩ := r
    · rfl
    · exact absurd hc (h ip s')

theorem iunlockput_linked (hlocked : (s.icache ip).locked = true) (hpos : 0 < (s.icache ip).ref)
    (hlink : (s.disk (s.icache ip).inum).nlink ≠ 0) :
    ∃ s', iunlockput ip s = .ok ((), s') ∧ s'.disk = s.disk := by
  have hunlock : iunlock ip s =
      .ok ((), s.setEntry ip { s.icache ip with locked := false }) := by
    rw [iunlock, if_neg (by simp [hlocked]; omega)]
  simp only [iunlockput, bind, StateT.bind, Except.bind, hunlock, iput]
  rw [if_neg fun hf => hlink (by simpa [State.setEntry] using hf.2.2)]
  exact ⟨_, rfl, rfl⟩

theorem symlink_writes (hc : create ninodes p path .symlink 0 0 s = .ok (some ip, s'))
    (target : List UInt8) : diskAfter (sys_symlink ninodes p target path s) =
      some (update s'.disk (s'.icache ip).inum { s'.disk (s'.icache ip).inum with
        data := target ++ (s'.disk (s'.icache ip).inum).data.drop MAXPATH }) := by
  have hnew : Outcome.Ends _ _ (create ninodes p path .symlink 0 0 s) :=
    create_new (Mid.start s) p path .symlink 0 0
  rw [hc] at hnew
  obtain ⟨⟨-, y, d', -, -, hmid⟩, hlink⟩ := hnew
  have hlocked : (s'.icache ip).locked = true := (hmid.locked ip).mpr (Finset.mem_insert_self ..)
  have hpos : 0 < (s'.icache ip).ref := hmid.ref_pos (Multiset.mem_cons_self ..)
  have hone : (s'.disk (s'.icache ip).inum).nlink = 1 := hlink (by decide) ip rfl
  obtain ⟨s₂, hput, hdisk⟩ := iunlockput_linked (s := s'.setInode (s'.icache ip).inum
    { s'.disk (s'.icache ip).inum with
      data := target ++ (s'.disk (s'.icache ip).inum).data.drop MAXPATH }) hlocked hpos
    (by simp [State.setInode, hone])
  simp only [sys_symlink, bind, StateT.bind, hc, Except.bind, iupdate, hput]
  exact congrArg some hdisk

end

/-- What the stack held does not get to the disk exactly where the target fills the buffer or
no link is made. -/
theorem symlink_independent_iff (ninodes : Nat) (p : Slot) (target path : List UInt8) (s : State)
    (hlen : target.length < MAXPATH) :
    (∀ b b', b.length = MAXPATH → b'.length = MAXPATH →
      diskAfter (sys_symlink ninodes p (fetchInto b target) path s) =
        diskAfter (sys_symlink ninodes p (fetchInto b' target) path s)) ↔
      target.length + 1 = MAXPATH ∨
        ∀ ip s', create ninodes p path .symlink 0 0 s ≠ .ok (some ip, s') := by
  constructor
  · intro h
    by_contra hno
    simp only [not_or, not_forall, not_not] at hno
    obtain ⟨hshort, ip, s', hc⟩ := hno
    have heq := h (replicate MAXPATH 0) (replicate MAXPATH 1) length_replicate length_replicate
    rw [symlink_writes hc, symlink_writes hc] at heq
    have hdata := congrArg Dinode.data (congrFun (Option.some.inj heq) (s'.icache ip).inum)
    simp only [update_self, fetchInto, drop_replicate, append_cancel_right_eq,
      append_cancel_left_eq, cons.injEq, true_and, replicate_inj] at hdata
    have hroom : MAXPATH - (target.length + 1) ≠ 0 := by omega
    exact absurd (hdata.resolve_left hroom) (by decide)
  · rintro (hfull | hnone) b b' hb hb'
    · have hdrop : ∀ b : List UInt8, b.length = MAXPATH → fetchInto b target = target ++ [0] := by
        intro b hb
        rw [fetchInto, drop_eq_nil_of_le (by omega)]
      rw [hdrop b hb, hdrop b' hb']
    · rw [symlink_refused hnone]

theorem symlink_independent_full :
    diskAfter (sys_symlink 200 0 (fetchInto (replicate MAXPATH 0) (replicate 127 97)) [108]
      (twoAtRoot bareDisk)) =
    diskAfter (sys_symlink 200 0 (fetchInto (replicate MAXPATH 1) (replicate 127 97)) [108]
      (twoAtRoot bareDisk)) :=
  (symlink_independent_iff 200 0 (replicate 127 97) [108] (twoAtRoot bareDisk)
    (by simp [MAXPATH])).mpr (.inl (by simp [MAXPATH])) _ _ length_replicate length_replicate

theorem symlink_stores_stack :
    ((diskAfter (sys_symlink 200 0 (fetchInto (replicate MAXPATH 0) [102]) [108]
      (twoAtRoot bareDisk))).map fun d => (d 2).data) = some (102 :: replicate 127 0) ∧
    ((diskAfter (sys_symlink 200 0 (fetchInto (replicate MAXPATH 1) [102]) [108]
      (twoAtRoot bareDisk))).map fun d => (d 2).data) = some (102 :: 0 :: replicate 126 1) := by
  decide +kernel

end Symlink

end BirdOS.Names
