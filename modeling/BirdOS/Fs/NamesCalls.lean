import BirdOS.Fs.NamesSpec

/-! # What the system calls leave

One lemma for each of `create`, the parts of `sys_link` and `sys_unlink` and the other
calls: the references and locks of `Mid`, and the one change of the tree that the call is
for. -/

namespace BirdOS.Names

open Outcome Function Finset

section Create
variable {s₀ s : State} {d : Nat → Dinode} {K : Finset Ip} {dp ip : Ip} {x : Nat} {name : Name}
  {ninodes : Nat}

def dots (x y : Nat) : List Dirent := enter ⟨x % 2 ^ 16, dotdot⟩ [⟨y % 2 ^ 16, dot⟩]

def made (d : Nat → Dinode) (x y : Nat) (name : Name) (type : FType) (major minor : BitVec 16) :
    Nat → Dinode :=
  update
    (update d y
      ⟨some type, 3, major, minor, 1, if type = .dir then dots x y else [], []⟩) x
    { d x with
      nlink := if type = .dir then (d x).nlink + 1 else (d x).nlink
      entries := enter ⟨y % 2 ^ 16, name.take DIRSIZ⟩ (d x).entries }

theorem ialloc_spec {T : Held} (h : Mid s₀ d K T s) (hT : T.card ≤ 2) (type : FType) :
    Ends (fun r => ∃ y, 1 ≤ y ∧ y < ninodes ∧ (s.disk y).type = none ∧
      r.2.disk = update s.disk y (newDinode type) ∧
      Mid s₀ r.2.disk K ((r.1, y) ::ₘ T) r.2) (Err s₀) (ialloc ninodes type s) := by
  unfold ialloc
  split
  · exact Err.of_ne (by decide)
  · next y hfind =>
    have hrange := List.mem_range'_1.mp (List.mem_of_find?_eq_some hfind)
    have hfree := List.find?_some hfind
    simp only [decide_eq_true_eq] at hfree
    have hmid : Mid s₀ (s.setInode y (newDinode type)).disk K T (s.setInode y (newDinode type)) :=
      h.setDisk fun hne => absurd hfree hne
    refine (iget_spec hmid hT y).mono (fun r hr => ?_) fun _ he => he
    refine ⟨y, hrange.1, by omega, hfree, hr.2, ?_⟩
    rw [hr.2]
    exact hr.1

theorem dirlink_new {T : Held} (h : Mid s₀ d K T s) (hT : T.card ≤ 2) (hdp : (dp, x) ∈ T)
    (inum : Nat) (hnone : lookup name (s.disk x).entries = none) : Ends (fun r => r.1 = true ∧
      r.2.disk = update s.disk x { s.disk x with
        entries := enter ⟨inum % 2 ^ 16, name.take DIRSIZ⟩ (s.disk x).entries } ∧
      Mid s₀ r.2.disk K T r.2) (Err s₀) (dirlink dp name inum s) := by
  refine (dirlink_spec h hT hdp name inum).mono (fun r hr => ?_) fun _ he => he
  obtain ⟨-, ⟨-, hsome, -⟩ | ⟨htrue, -, hs⟩⟩ := hr
  · exact absurd hnone hsome
  · rw [hs]
    exact ⟨htrue, rfl, h.setDisk id⟩

theorem inumOf_spec {T : Held} (h : Mid s₀ d K T s) (hip : (ip, x) ∈ T) :
    Ends (fun r => r = (x, s)) (Err s₀) (inumOf ip s) := by
  simp only [inumOf, Ends, h.inum_eq hip]

theorem createDots_spec {y : Nat} (h : Mid s₀ d K ((ip, y) ::ₘ (dp, x) ::ₘ 0) s) (hne : x ≠ y)
    (hempty : (s.disk y).entries = []) : Ends (fun r => r.2.disk = update (update s.disk y
        { s.disk y with entries := dots x y }) x
        { s.disk x with nlink := (s.disk x).nlink + 1 } ∧
      Mid s₀ r.2.disk K ((ip, y) ::ₘ (dp, x) ::ₘ 0) r.2) (Err s₀) (createDots dp ip s) := by
  have hip : (ip, y) ∈ (ip, y) ::ₘ (dp, x) ::ₘ (0 : Held) := by simp
  have hdp : (dp, x) ∈ (ip, y) ::ₘ (dp, x) ::ₘ (0 : Held) := by simp
  have hcard : ((ip, y) ::ₘ (dp, x) ::ₘ (0 : Held)).card ≤ 2 := by simp
  unfold createDots
  refine .seq (iupdate_mid h hdp _ id) ?_
  rintro _ s1 ⟨hd1, h1⟩
  have hy1 : s1.disk y = s.disk y := by rw [hd1, update_of_ne hne.symm]
  refine .seq (inumOf_spec h1 hip) ?_
  rintro _ _ ⟨⟩
  refine .seq (inumOf_spec h1 hdp) ?_
  rintro _ _ ⟨⟩
  have hfirst : lookup dot (s1.disk y).entries = none := by
    rw [hy1, hempty]
    rfl
  refine .seq (dirlink_new h1 hcard hip y hfirst) ?_
  rintro _ s2 ⟨rfl, hd2, h2⟩
  have hy2 : (s2.disk y).entries = [⟨y % 2 ^ 16, dot⟩] := by
    rw [hd2, update_self, hy1, hempty]
    rfl
  have hnone : lookup dotdot (s2.disk y).entries = none := by
    rw [hy2]
    simp [lookup, dot, dotdot]
  refine .seq (dirlink_new h2 hcard hip x hnone) ?_
  rintro _ s3 ⟨rfl, hd3, h3⟩
  refine ⟨?_, h3⟩
  funext z
  rw [hd3, hy2, hd2, hd1]
  obtain rfl | hz := eq_or_ne z x
  · simp [hne]
  obtain rfl | hzy := eq_or_ne z y
  · simp [hz, dots, dotdot, DIRSIZ]
  · simp [hz, hzy]

theorem createIn_spec (h : Mid s₀ d (insert dp K) ((dp, x) ::ₘ 0) s) (hK : dp ∉ K)
    (htype : (s.disk x).type = some .dir) (hnone : lookup name (s.disk x).entries = none)
    (type : FType) (major minor : BitVec 16) :
    Ends (fun r => ∃ y, 1 ≤ y ∧ y < ninodes ∧ (s.disk y).type = none ∧ r.1 ∉ K ∧
      r.2.disk y = ⟨some type, 3, major, minor, 1, if type = .dir then dots x y else [], []⟩ ∧
      Mid s₀ (made s.disk x y name type major minor) (insert r.1 K) ((r.1, y) ::ₘ 0) r.2)
      (Err s₀) (createIn ninodes dp name type major minor s) := by
  unfold createIn
  refine .seq (ialloc_spec h (by simp) type) ?_
  rintro ip s1 ⟨y, hpos, hlt, hfree, hd1, h1⟩
  have hne : x ≠ y := by
    rintro rfl
    rw [hfree] at htype
    cases htype
  have hip : (ip, y) ∈ (ip, y) ::ₘ (dp, x) ::ₘ (0 : Held) := by simp
  have hdp : (dp, x) ∈ (ip, y) ::ₘ (dp, x) ::ₘ (0 : Held) := by simp
  refine .seq (ilock_spec h1 hip) ?_
  rintro _ s2 ⟨hKip, h2, hd2, -⟩
  refine .seq (iupdate_mid h2 hip _ fun _ => by simp) ?_
  rintro _ s3 ⟨hd3, h3⟩
  have hx3 : s3.disk x = s.disk x := by
    rw [hd3, update_of_ne hne, hd2, hd1, update_of_ne hne]
  have hy3 : s3.disk y = ⟨some type, 3, major, minor, 1, [], []⟩ := by
    rw [hd3, update_self, hd2, hd1, update_self]
    rfl
  -- the directory is as before but for the link of `..`
  refine .seq (R := fun r => r.2.disk = update (update s3.disk y
      { s3.disk y with entries := if type = .dir then dots x y else [] }) x
      { s3.disk x with nlink := if type = .dir then (s3.disk x).nlink + 1 else (s3.disk x).nlink } ∧
      Mid s₀ r.2.disk (insert ip (insert dp K)) ((ip, y) ::ₘ (dp, x) ::ₘ 0) r.2) ?_ ?_
  · unfold createContent
    by_cases hdir : type = .dir
    · simp only [if_pos hdir]
      exact createDots_spec h3 hne (by rw [hy3])
    simp only [if_neg hdir]
    refine ⟨?_, h3.rebase⟩
    funext z
    obtain rfl | hz := eq_or_ne z x
    · simp
    obtain rfl | hzy := eq_or_ne z y
    · simp [hz, hy3]
    · simp [hz, hzy]
  · rintro _ s4 ⟨hd4, h4⟩
    have hx4 : (s4.disk x).entries = (s.disk x).entries := by
      rw [hd4, update_self, hx3]
    refine .seq (inumOf_spec h4 hip) ?_
    rintro _ _ ⟨⟩
    refine .seq (dirlink_new h4 (by simp) hdp y (by rw [hx4]; exact hnone)) ?_
    rintro _ s5 ⟨rfl, hd5, h5⟩
    have hdpip : dp ≠ ip := fun heq => hKip (heq ▸ mem_insert_self dp K)
    have hmade : s5.disk = made s.disk x y name type major minor := by
      funext z
      rw [hd5, hd4, made]
      obtain rfl | hz := eq_or_ne z x
      · simp [hx3]
      obtain rfl | hzy := eq_or_ne z y
      · simp [hz, hy3]
      · simp only [update_of_ne hz, update_of_ne hzy]
        rw [hd3, update_of_ne hzy, hd2, hd1, update_of_ne hzy]
    rw [insert_comm, Multiset.cons_swap, hmade] at h5
    refine .seq (iunlockput_spec h5 (by simp [hdpip, hK])) ?_
    rintro _ s6 ⟨h6, -⟩
    have hnew : made s.disk x y name type major minor y =
        ⟨some type, 3, major, minor, 1, if type = .dir then dots x y else [], []⟩ := by
      rw [made, update_of_ne hne.symm, update_self]
    refine ⟨y, hpos, hlt, hfree, fun hin => hKip (mem_insert_of_mem hin), ?_, h6⟩
    rw [h6.disk.keeps (by rw [hnew]; exact (by decide : (1 : BitVec 16) ≠ 0)), hnew]

end Create

/-! ## Entries that a call makes -/

def adds (p : Slot) (path : List UInt8) (s : State) : Option Nat :=
  match nameiparent p path s with
  | .ok (some (dp, name), s') =>
    if lookup name (s'.disk (s'.icache dp).inum).entries = none then some (s'.icache dp).inum
    else none
  | _ => none

structure Open (d : Nat → Dinode) (x : Nat) (name : Name) : Prop where
  type : (d x).type = some .dir
  fits : name.length ≤ DIRSIZ
  absent : lookup name (d x).entries = none

def Creates (ninodes : Nat) (p : Slot) (path : List UInt8) (type : FType) (s : State)
    (d d' : Nat → Dinode) : Prop :=
  ∃ x y name major minor e, adds p path s = some x ∧ Kept s d e ∧ Open e x name ∧ 1 ≤ y ∧
    y < ninodes ∧ (e y).type = none ∧ d' = made e x y name type major minor

def Fits (type : FType) (v : Dinode) : Prop :=
  v.type = some type ∨ type = .file ∧ v.type = some .device

def Created (ninodes : Nat) (s : State) (d : Nat → Dinode) (K : Finset Ip) (p : Slot)
    (path : List UInt8) (type : FType) (r : Option Ip × State) : Prop :=
  match r.1 with
  | none => Mid s d K 0 r.2
  | some ip => ip ∉ K ∧ ∃ y d', (d' = d ∧ (Sound s → named d s p path = some y) ∨
        Creates ninodes p path type s d d' ∧ ((d y).type = none ∨ (d y).nlink = 0)) ∧
      Fits type (r.2.disk y) ∧ Mid s d' (insert ip K) ((ip, y) ::ₘ 0) r.2

section Calls
variable {s₀ s : State} {d : Nat → Dinode} {K : Finset Ip} {T : Held} {dp ip : Ip} {x y : Nat}
  {ninodes : Nat} {p : Slot} {path : List UInt8}

theorem adds_eq {s' : State} {name : Name} (h : nameiparent p path s = .ok (some (dp, name), s'))
    (hx : (s'.icache dp).inum = x) (hnone : lookup name (s'.disk x).entries = none) :
    adds p path s = some x := by
  simp only [adds, h, hx, hnone, if_true]

theorem create_new (h : Mid s d K 0 s) (p : Slot) (path : List UInt8) (type : FType)
    (major minor : BitVec 16) : Ends (fun r => Created ninodes s d K p path type r ∧
      (type ≠ .file → ∀ ip, r.1 = some ip → (r.2.disk (r.2.icache ip).inum).nlink = 1)) (Err s)
      (create ninodes p path type major minor s) := by
  unfold create
  refine .seq (namex_reaches h (by simp) p path true).with_eq ?_
  rintro r s1 ⟨heq, hr, hreach⟩
  cases r with
  | none => exact ⟨hr, by simp⟩
  | some found =>
    obtain ⟨dp, name⟩ := found
    obtain ⟨x, h1, hdir⟩ := hr
    obtain ⟨htype, hlen⟩ := hdir rfl
    refine .seq (ilock_spec h1 (Multiset.mem_cons_self _ _)) ?_
    rintro _ s2 ⟨hK, h2, hd2, -⟩
    refine .seq (dirlookup_spec h2 (by simp) (Multiset.mem_cons_self _ _) name) ?_
    rintro r s3 ⟨-, -, ⟨rfl, hnone, hs⟩ | ⟨ip, off, y, rfl, hfound, h3⟩⟩
    · obtain rfl : s3 = s2 := hs
      rw [hd2] at hnone
      have hadds := adds_eq heq (h1.inum_eq (Multiset.mem_cons_self _ _)) hnone
      refine .seq (createIn_spec h2 hK (by rw [hd2]; exact htype) (by rw [hd2]; exact hnone)
        type major minor) ?_
      rintro ip s4 ⟨y, hpos, hlt, hfree, hip, hnew, h4⟩
      rw [hd2] at hfree h4
      have hfresh : (d y).type = none ∨ (d y).nlink = 0 := by
        rcases h1.disk y with hsame | ⟨hlink, -⟩
        · exact .inl (by rw [← hsame]; exact hfree)
        · exact .inr hlink
      refine ⟨⟨hip, y, _, .inr ⟨⟨x, y, name, major, minor, s1.disk, hadds, h1.kept,
        ⟨htype, hlen, hnone⟩, hpos, hlt, hfree, rfl⟩, hfresh⟩, .inl (by rw [hnew]), h4⟩, ?_⟩
      rintro - _ ⟨⟩
      have hinum : (s4.icache ip).inum = y := h4.inum_eq (Multiset.mem_cons_self _ _)
      rw [hinum, hnew]
    · rw [Multiset.cons_swap] at h3
      refine .seq (iunlockput_spec h3 hK) ?_
      rintro _ s4 ⟨h4, -⟩
      refine .seq (ilock_spec h4 (Multiset.mem_cons_self _ _)) ?_
      rintro _ s5 ⟨hK5, h5, -, -⟩
      refine .seq (inode_spec h5 (Multiset.mem_cons_self _ _)) ?_
      rintro _ _ ⟨⟩
      split
      · next hold =>
        have hnamed : Sound s → named d s p path = some y := by
          intro hs
          have hx : s1.disk x = d x := h1.disk_eq (by rw [htype]; nofun)
          have hinum : (s1.icache dp).inum = x := h1.inum_eq (Multiset.mem_cons_self _ _)
          have hentry : lookup name (d (s1.icache dp).inum).entries = some (off, y) := by
            rw [hinum, ← hx, ← hd2]
            exact hfound
          exact resolve_of_reaches (hreach hs).symm hentry
        refine ⟨⟨hK5, y, d, .inl ⟨rfl, hnamed⟩, ?_, h5⟩, fun hne => absurd hold.1 hne⟩
        obtain ⟨rfl, hfile | hdev⟩ := hold
        · exact .inl hfile
        · exact .inr ⟨rfl, hdev⟩
      refine .seq (iunlockput_spec h5 hK5) ?_
      rintro _ s6 ⟨h6, -⟩
      exact ⟨h6, by simp⟩

theorem create_spec (h : Mid s d K 0 s) (p : Slot) (path : List UInt8) (type : FType)
    (major minor : BitVec 16) : Ends (Created ninodes s d K p path type) (Err s)
      (create ninodes p path type major minor s) :=
  (create_new h p path type major minor).mono (fun _ hr => hr.1) fun _ he => he

def linkedUp (d : Nat → Dinode) (y : Nat) : Nat → Dinode :=
  update d y { d y with nlink := (d y).nlink + 1 }

def linkedDown (d : Nat → Dinode) (y : Nat) : Nat → Dinode :=
  update d y { d y with nlink := (d y).nlink - 1 }

def entered (d : Nat → Dinode) (x y : Nat) (name : Name) : Nat → Dinode :=
  update d x { d x with
    entries := enter ⟨y % 2 ^ 16, name.take DIRSIZ⟩ (d x).entries }

theorem linkOld_spec (h : Mid s₀ d K 0 s) (p : Slot) (old : List UInt8) :
    Ends (fun r => match r.1 with
      | none => Mid s₀ d K 0 r.2
      | some ip => ∃ y e, Kept s₀ d e ∧ (e y).type ≠ some .dir ∧
          (Sound s₀ → (e y).type ≠ none) ∧ Mid s₀ (linkedUp e y) K ((ip, y) ::ₘ 0) r.2)
      (Err s₀) (linkOld p old s) := by
  unfold linkOld
  refine .seq (namei_spec h (by simp) p old) ?_
  intro r s1 hr
  cases r with
  | none => exact hr
  | some ip =>
    obtain ⟨y, h1⟩ := hr
    have hmem : (ip, y) ∈ (ip, y) ::ₘ (0 : Held) := Multiset.mem_cons_self _ _
    refine .seq (ilock_spec h1 hmem) ?_
    rintro _ s2 ⟨hK, h2, hd2, halloc⟩
    refine .seq (inode_spec h2 hmem) ?_
    rintro _ _ ⟨⟩
    split
    · refine .seq (iunlockput_spec h2 hK) ?_
      rintro _ s3 ⟨h3, -⟩
      exact h3
    · next hdir =>
      refine .seq (iupdate_mid h2 hmem _ id) ?_
      rintro _ s3 ⟨hd3, h3⟩
      refine .seq (iunlock_spec h3 hK) ?_
      rintro _ s4 ⟨h4, -⟩
      refine ⟨y, s2.disk, h2.kept, hdir, fun hs => by rw [hd2]; exact halloc hs, ?_⟩
      rw [hd3] at h4
      exact h4

theorem linkBad_spec (h : Mid s₀ d K ((ip, y) ::ₘ 0) s) :
    Ends (fun r => ∃ e, Kept s₀ d e ∧ Mid s₀ (linkedDown e y) K 0 r.2) (Err s₀) (linkBad ip s) := by
  have hmem : (ip, y) ∈ (ip, y) ::ₘ (0 : Held) := Multiset.mem_cons_self _ _
  unfold linkBad
  refine .seq (ilock_spec h hmem) ?_
  rintro _ s1 ⟨hK, h1, hd1, -⟩
  refine .seq (iupdate_mid h1 hmem _ id) ?_
  rintro _ s2 ⟨hd2, h2⟩
  refine .seq (iunlockput_spec h2 hK) ?_
  rintro _ s3 ⟨h3, -⟩
  rw [hd2] at h3
  exact ⟨s1.disk, h1.kept, h3⟩

theorem linkNew_spec (h : Mid s₀ d K ((ip, y) ::ₘ 0) s) (p : Slot) (new : List UInt8) :
    Ends (fun r => (∃ e, Kept s₀ d e ∧ Mid s₀ (linkedDown e y) K 0 r.2) ∨
      ∃ e x name, adds p new s = some x ∧ Kept s₀ d e ∧ Open e x name ∧
        Mid s₀ (entered e x y name) K 0 r.2) (Err s₀) (linkNew p ip new s) := by
  unfold linkNew
  refine .seq (namex_spec h (by simp) p new true).with_eq ?_
  rintro r s1 ⟨heq, hr⟩
  cases r with
  | none => exact (linkBad_spec hr).mono (fun _ hr => .inl hr) fun _ he => he
  | some found =>
    obtain ⟨dp, name⟩ := found
    obtain ⟨x, h1, hdir⟩ := hr
    obtain ⟨htype, hlen⟩ := hdir rfl
    have hdp : (dp, x) ∈ (dp, x) ::ₘ (ip, y) ::ₘ (0 : Held) := Multiset.mem_cons_self _ _
    refine .seq (ilock_spec h1 hdp) ?_
    rintro _ s2 ⟨hK, h2, hd2, -⟩
    refine .seq (inumOf_spec h2 (Multiset.mem_cons_of_mem (Multiset.mem_cons_self _ _))) ?_
    rintro _ _ ⟨⟩
    refine .seq (dirlink_spec h2 (by simp) hdp name y) ?_
    rintro _ s3 ⟨-, ⟨rfl, -, h3⟩ | ⟨rfl, hnone, hs⟩⟩
    · refine .seq (iunlockput_spec h3 hK) ?_
      rintro _ s4 ⟨h4, -⟩
      exact (linkBad_spec h4).mono (fun _ hr => .inl hr) fun _ he => he
    · obtain rfl : s3 = s2.setInode x _ := hs
      have h3 : Mid s₀ (entered s2.disk x y name) _ _ _ := h2.setDisk id
      refine .seq (iunlockput_spec h3 hK) ?_
      rintro _ s4 ⟨h4, -⟩
      refine .seq (iput_spec h4) ?_
      rintro _ s5 ⟨h5, -⟩
      rw [hd2] at hnone h5
      have hadds := adds_eq heq (h1.inum_eq hdp) hnone
      exact .inr ⟨s1.disk, x, name, hadds, h1.kept, ⟨htype, hlen, hnone⟩, h5⟩

def cleared (d : Nat → Dinode) (x y off : Nat) : Nat → Dinode :=
  update d x { d x with
    entries := (d x).entries.set off ⟨0, []⟩
    nlink := if (d y).type = some .dir then (d x).nlink - 1 else (d x).nlink }

def Unlinks (s₀ : State) (d d' : Nat → Dinode) : Prop :=
  ∃ e x y name off e', Kept s₀ d e ∧ (e x).type = some .dir ∧ name ≠ dot ∧ name ≠ dotdot ∧
    lookup name (e x).entries = some (off, y) ∧ (Sound s₀ → x ≠ y) ∧ 1 ≤ (e y).nlink.toInt ∧
    ((e y).type = some .dir → isdirempty (e y) = true) ∧
    MayFree x (cleared e x y off) e' ∧ Kept s₀ (cleared e x y off) e' ∧ d' = linkedDown e' y

theorem unlinkEntry_spec (h : Mid s₀ d (insert ip (insert dp K)) ((ip, y) ::ₘ (dp, x) ::ₘ 0) s)
    (hK : dp ∉ K) (hip : ip ∉ insert dp K) (off : Nat) :
    Ends (fun r => Mid s₀ d K 0 r.2 ∨ ∃ e', 1 ≤ (s.disk y).nlink.toInt ∧
      ((s.disk y).type = some .dir → isdirempty (s.disk y) = true) ∧
      MayFree x (cleared s.disk x y off) e' ∧ Kept s₀ (cleared s.disk x y off) e' ∧
      Mid s₀ (linkedDown e' y) K 0 r.2) (Err s₀) (unlinkEntry dp ip off s) := by
  have hmem : (ip, y) ∈ (ip, y) ::ₘ (dp, x) ::ₘ (0 : Held) := Multiset.mem_cons_self _ _
  have hdp : (dp, x) ∈ (ip, y) ::ₘ (dp, x) ::ₘ (0 : Held) := by simp
  have hne : dp ≠ ip := fun heq => hip (heq ▸ mem_insert_self dp K)
  have hip' : ip ∉ K := fun hin => hip (mem_insert_of_mem hin)
  unfold unlinkEntry
  refine .seq (inode_spec h hmem) ?_
  rintro _ _ ⟨⟩
  split
  · exact Err.of_ne (by decide)
  · next hlinks =>
    split
    · refine .seq (iunlockput_spec h hip) ?_
      rintro _ s1 ⟨h1, -⟩
      refine .seq (iunlockput_spec h1 hK) ?_
      rintro _ s2 ⟨h2, -⟩
      exact .inl h2
    · next hempty =>
      refine .seq (iupdate_mid h hdp _ id) ?_
      rintro _ s1 ⟨hd1, h1⟩
      rw [insert_comm, Multiset.cons_swap] at h1
      refine .seq (iunlockput_spec h1 (by simp [hne, hK])) ?_
      rintro _ s2 ⟨h2, hfree⟩
      have hmem2 : (ip, y) ∈ (ip, y) ::ₘ (0 : Held) := Multiset.mem_cons_self _ _
      refine .seq (iupdate_mid h2 hmem2 _ id) ?_
      rintro _ s3 ⟨hd3, h3⟩
      refine .seq (iunlockput_spec h3 hip') ?_
      rintro _ s4 ⟨h4, -⟩
      have hkept := h2.kept
      rw [hd1] at hfree hkept
      rw [hd3] at h4
      refine .inr ⟨s2.disk, by omega, fun hdir => ?_, hfree, hkept, h4⟩
      by_contra hfull
      exact hempty ⟨hdir, Bool.eq_false_iff.mpr hfull⟩

theorem sys_unlink_spec (h : Mid s₀ d K 0 s) (p : Slot) (path : List UInt8) :
    Ends (fun r => ∃ d', (d' = d ∨ Unlinks s₀ d d') ∧ Mid s₀ d' K 0 r.2) (Err s₀)
      (sys_unlink p path s) := by
  unfold sys_unlink
  refine .seq (namex_spec h (by simp) p path true) ?_
  intro r s1 hr
  cases r with
  | none => exact ⟨d, .inl rfl, hr⟩
  | some found =>
    obtain ⟨dp, name⟩ := found
    obtain ⟨x, h1, -⟩ := hr
    have hdp : (dp, x) ∈ (dp, x) ::ₘ (0 : Held) := Multiset.mem_cons_self _ _
    refine .seq (ilock_spec h1 hdp) ?_
    rintro _ s2 ⟨hK, h2, -, -⟩
    split
    · refine .seq (iunlockput_spec h2 hK) ?_
      rintro _ s3 ⟨h3, -⟩
      exact ⟨d, .inl rfl, h3⟩
    · next hname =>
      refine .seq (dirlookup_spec h2 (by simp) hdp name) ?_
      rintro r s3 ⟨htype, hd3, ⟨rfl, -, hs⟩ | ⟨ip, off, y, rfl, hfound, h3⟩⟩
      · obtain rfl : s3 = s2 := hs
        refine .seq (iunlockput_spec h2 hK) ?_
        rintro _ s4 ⟨h4, -⟩
        exact ⟨d, .inl rfl, h4⟩
      · have hmem : (ip, y) ∈ (ip, y) ::ₘ (dp, x) ::ₘ (0 : Held) := Multiset.mem_cons_self _ _
        have hdp3 : (dp, x) ∈ (ip, y) ::ₘ (dp, x) ::ₘ (0 : Held) := by simp
        refine .seq (ilock_spec h3 hmem) ?_
        rintro _ s4 ⟨hip, h4, hd4, -⟩
        have hxy : Sound s₀ → x ≠ y := by
          rintro hs rfl
          refine hip (mem_insert.mpr (.inl ?_))
          refine (h4.cache hs).unique ip dp (h4.ref_pos hmem) (h4.ref_pos hdp3) ?_
          rw [h4.inum_eq hmem, h4.inum_eq hdp3]
        refine (unlinkEntry_spec h4 hK hip off).mono (fun r hr => ?_) fun _ he => he
        rcases hr with hr | ⟨e', hlinks, hempty, hfree, hkept, hr⟩
        · exact ⟨d, .inl rfl, hr⟩
        have hdisk : s4.disk = s2.disk := hd4.trans hd3
        rw [← hdisk] at htype hfound
        exact ⟨_, .inr ⟨s4.disk, x, y, name, off, e', h4.kept, htype, fun hd => hname (.inl hd),
          fun hd => hname (.inr hd), hfound, hxy, hlinks, hempty, hfree, hkept, rfl⟩, hr⟩

end Calls

end BirdOS.Names
