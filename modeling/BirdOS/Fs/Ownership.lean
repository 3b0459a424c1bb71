import BirdOS.Fs.Transfer

/-! # Every block has one owner

`itrunc` frees the blocks of one inode and no others, and every operation leaves bitmap,
block maps and inodes in agreement (`Wf`). -/

namespace BirdOS.Fs

open PointerForest Outcome Function List

/-! ## Truncation -/

structure Freed (sb : Superblock) (X : Nat → Prop) (d d' : Disk) : Prop where
  keep : ∀ b, b < sb.bmapstart ∨ sb.datastart ≤ b → d' b = d b
  bits : ∀ b < sb.size, used sb d' b = true ↔ used sb d b = true ∧ ¬ X b

variable {d' : Disk} {b n : Nat} {ip' : Inode}

section Free
variable {sb : Superblock} {X Y : Nat → Prop} {d : Disk} {top : Root → Nat} {fs : Image}

theorem Freed.congr (h : Freed sb X d d') (hXY : ∀ b, X b ↔ Y b) : Freed sb Y d d' :=
  ⟨h.keep, fun b hb => by rw [h.bits b hb, hXY b]⟩

theorem bfree_spec (h : Freed sb X d fs.disk) (hb : b < sb.size)
    (hused : used sb d b = true) (hX : ¬ X b) :
    Ends (fun fs' => Freed sb (fun x => X x ∨ x = b) d fs'.disk) (fun _ => False)
      (bfree sb fs b) := by
  have hbit : bit (fs.disk (bblock sb b)) (b % BPB) = true := (h.bits b hb).mpr ⟨hused, hX⟩
  unfold bfree
  rw [if_pos hbit]
  refine ⟨?_, ?_⟩
  · intro x hx
    have hlow := bmapstart_le_bblock sb b
    have hhigh := bblock_lt sb hb
    rw [disk_logWrite, update_of_ne (by omega), h.keep x hx]
  · intro x hx
    rw [disk_logWrite, used_clearBit, Bool.and_eq_true, h.bits x hx, Bool.not_eq_true',
      decide_eq_false_iff_not, not_or, and_assoc]

theorem Consistent.under_used (h : Consistent sb d top) {t : Root} {ks : List Key}
    (hu : Under height (forest d top) t ks b) : b < sb.size ∧ used sb d b = true := by
  have hb := (h.range b hu.owned).2
  exact ⟨hb, (h.bitmap b hb).mpr (.inr hu.owned)⟩

/-- `freeTree` frees what is below its place.  The induction is on the levels left. -/
theorem freeTree_spec (h : Consistent sb d top) (t : Root) :
    ∀ (n : Nat) (ks : List Key) (X : Nat → Prop) (fs : Image), ks.length + n = height t →
      Freed sb X d fs.disk → (∀ b, Under height (forest d top) t ks b → ¬ X b) →
      Ends (fun fs' => Freed sb (fun b => X b ∨ Under height (forest d top) t ks b) d fs'.disk)
        (fun _ => False) (freeTree sb n fs (val (forest d top) t ks)) := by
  intro n
  induction n with
  | zero =>
    intro ks X fs hlen hf hX
    unfold freeTree
    split
    · rename_i hz
      exact hf.congr fun b => by simp [under_null hz]
    · rename_i hne
      have hself := under_self (le_of_eq hlen) hne
      obtain ⟨hb, hused⟩ := h.under_used hself
      refine (bfree_spec hf hb hused (hX _ hself)).mono (fun fs' hf' => hf'.congr fun b =>
        ?_) fun _ => id
      rw [under_leaf hlen]
      constructor
      · rintro (hx | rfl)
        · exact .inl hx
        · exact .inr ⟨hne, rfl⟩
      · rintro (hx | ⟨_, he⟩)
        · exact .inl hx
        · exact .inr he.symm
  | succ n ih =>
    intro ks X fs hlen hf hX
    have hle : ks.length ≤ height t := by omega
    unfold freeTree
    split
    · rename_i hz
      exact hf.congr fun b => by simp [under_null hz]
    · rename_i hne
      have hself := under_self hle hne
      obtain ⟨hb, hused⟩ := h.under_used hself
      have hdata := (h.bounds hle hne).1
      -- the entries done so far are freed with all below them
      have hloop : Ends (fun fs' => Freed sb (fun b => X b ∨ ∃ k ∈ finRange NINDIRECT,
          Under height (forest d top) t (k :: ks) b) d fs'.disk) (fun _ => False)
          ((finRange NINDIRECT).foldlM
            (fun fs (j : Key) =>
              freeTree sb n fs (word (fs.disk (val (forest d top) t ks)) j)) fs) := by
        refine Ends.foldlM (I := fun done (fs' : Image) => Freed sb (fun b => X b ∨ ∃ k ∈ done,
          Under height (forest d top) t (k :: ks) b) d fs'.disk) ?_ (nodup_finRange _)
          (hf.congr fun b => by simp)
        intro done j fs' hj hf'
        have hword : word (fs'.disk (val (forest d top) t ks)) j =
            val (forest d top) t (j :: ks) := by
          rw [val_cons_of_ne hne, hf'.keep _ (.inr hdata)]
          rfl
        rw [hword]
        refine (ih (j :: ks) _ fs' (by rw [length_cons]; omega) hf' ?_).mono
          (fun fs'' hf'' => hf''.congr fun b => ?_) fun _ => id
        · rintro b hu (hx | ⟨k, hk, hu'⟩)
          · exact hX b hu.of_cons hx
          · exact hj (h.sep.under_sibling hu hu' ▸ hk)
        · simp only [mem_append, mem_singleton, or_and_right, exists_or, exists_eq_left,
            or_assoc]
      refine .bind hloop fun fs' hf' => ?_
      refine (bfree_spec hf' hb hused ?_).mono (fun fs'' hf'' => hf''.congr fun b => ?_) fun _ => id
      · rintro (hx | ⟨k, _, hu⟩)
        · exact hX _ hself hx
        · exact h.sep.not_under_child hle hu
      · rw [under_step hle, or_assoc]
        constructor
        · rintro (hx | ⟨k, _, hu⟩ | rfl)
          · exact .inl hx
          · exact .inr (.inr ⟨k, hu⟩)
          · exact .inr (.inl ⟨hne, rfl⟩)
        · rintro (hx | ⟨_, he⟩ | ⟨k, hu⟩)
          · exact .inl hx
          · exact .inr (.inr he.symm)
          · exact .inr (.inl ⟨k, mem_finRange k, hu⟩)

def BlockOf (d : Disk) (top : Root → Nat) (inum b : Nat) : Prop :=
  ∃ i : Fin NADDR, Under height (forest d top) (inum, i) [] b

variable {inum : Nat} {ip : Inode}

theorem Consistent.root_eq (h : Consistent sb d top) {i j : Fin NADDR}
    (hi : Under height (forest d top) (inum, i) [] b)
    (hj : Under height (forest d top) (inum, j) [] b) : i = j :=
  (Prod.mk.inj (h.sep.under_under hi hj).1).2

theorem blockOf_iff : BlockOf d top inum b ↔
    ((∃ i ∈ finRange NDIRECT, Under height (forest d top) (inum, direct i i.isLt) [] b) ∨
      Under height (forest d top) (inum, single) [] b) ∨
      Under height (forest d top) (inum, double) [] b := by
  constructor
  · rintro ⟨i, hu⟩
    by_cases hd : (i : Nat) < NDIRECT
    · exact .inl (.inl ⟨⟨i, hd⟩, mem_finRange _, hu⟩)
    have hi := i.isLt
    by_cases hs : i = single
    · exact .inl (.inr (hs ▸ hu))
    have hne : (i : Nat) ≠ NDIRECT := fun he => hs (Fin.ext he)
    have hdbl : i = double := Fin.ext (show (i : Nat) = NDIRECT + 1 by
      unfold NADDR at hi
      omega)
    exact .inr (hdbl ▸ hu)
  · rintro ((⟨i, _, hu⟩ | hu) | hu)
    all_goals exact ⟨_, hu⟩

theorem Consistent.freeRoot (h : Consistent sb d (curTop sb d inum ip)) (i : Fin NADDR)
    (hn : n = height (inum, i)) (hf : Freed sb X d fs.disk)
    (hX : ∀ b, Under height (forest d (curTop sb d inum ip)) (inum, i) [] b → ¬ X b) :
    Ends (fun fs' => Freed sb
        (fun b => X b ∨ Under height (forest d (curTop sb d inum ip)) (inum, i) [] b) d fs'.disk)
      (fun _ => False) (freeTree sb n fs (ip.addrs i)) := by
  have hroot := freeTree_spec h (inum, i) n [] X fs (by simpa using hn) hf hX
  have hval : val (forest d (curTop sb d inum ip)) (inum, i) [] = ip.addrs i := curTop_self i
  rwa [hval] at hroot

theorem itrunc_spec (h : Consistent sb fs.disk (curTop sb fs.disk inum ip)) :
    Ends (fun r => ∃ d', Freed sb (BlockOf fs.disk (curTop sb fs.disk inum ip) inum) fs.disk d' ∧
        r.1 = { ip with addrs := fun _ => 0, size := 0 } ∧ r.2.disk = istore sb d' inum r.1)
      (fun _ => False) (itrunc sb fs inum ip) := by
  have hstart : Freed sb (fun _ => False) fs.disk fs.disk :=
    ⟨fun _ _ => rfl, fun _ _ => by simp⟩
  have hdirect : Ends (fun fs' => Freed sb (fun b => ∃ i ∈ finRange NDIRECT,
      Under height (forest fs.disk (curTop sb fs.disk inum ip)) (inum, direct i i.isLt) [] b)
      fs.disk fs'.disk) (fun _ => False) ((finRange NDIRECT).foldlM
        (fun fs (i : Fin NDIRECT) => freeTree sb 0 fs (ip.addrs (direct i i.isLt))) fs) := by
    refine Ends.foldlM (I := fun (done : List (Fin NDIRECT)) (fs' : Image) =>
      Freed sb (fun b => ∃ i ∈ done,
        Under height (forest fs.disk (curTop sb fs.disk inum ip)) (inum, direct i i.isLt) [] b)
        fs.disk fs'.disk) ?_ (nodup_finRange _) (hstart.congr fun b => by simp)
    intro done i fs' hi hf
    refine (h.freeRoot (direct i i.isLt) (if_pos i.isLt).symm hf ?_).mono
      (fun fs'' hf'' => hf''.congr fun b => ?_) fun _ => id
    · rintro b hu ⟨j, hj, hu'⟩
      have hval : (i : Nat) = j := Fin.mk.inj (h.root_eq hu hu')
      exact hi (Fin.ext hval ▸ hj)
    · simp only [mem_append, mem_singleton, or_and_right, exists_or, exists_eq_left]
  unfold itrunc
  refine .bind hdirect fun fs1 hf1 => ?_
  refine .bind (h.freeRoot single rfl hf1 ?_) fun fs2 hf2 => ?_
  · rintro b hu ⟨i, _, hu'⟩
    have heq : NDIRECT = (i : Nat) := congrArg Fin.val (h.root_eq hu hu')
    exact absurd i.isLt (by omega)
  refine .bind (h.freeRoot double rfl hf2 ?_) fun fs3 hf3 => ?_
  · rintro b hu (⟨i, _, hu'⟩ | hu')
    · have heq : NDIRECT + 1 = (i : Nat) := congrArg Fin.val (h.root_eq hu hu')
      exact absurd i.isLt (by omega)
    · exact absurd (h.root_eq hu hu') (by decide)
  · exact ⟨fs3.disk, hf3.congr fun b => blockOf_iff.symm, rfl, rfl⟩

theorem Freed.val_other (ip' : Inode) (h : Consistent sb d (curTop sb d inum ip))
    (hf : Freed sb X d d') {t : Root} {ks : List Key} (hv : ks.length ≤ height t)
    (ht : t.1 ≠ inum) :
    val (forest d' (curTop sb d' inum ip')) t ks = val (forest d (curTop sb d inum ip)) t ks := by
  refine h.val_congr ?_ (fun b hb => hf.keep b (.inr hb)) hv
  rw [curTop_other ht, curTop_other ht, diskTop_congr fun b hb => hf.keep b (.inl hb)]

theorem Consistent.truncated (h : Consistent sb d (curTop sb d inum ip))
    (hf : Freed sb (BlockOf d (curTop sb d inum ip) inum) d d') (hz : ∀ i, ip'.addrs i = 0) :
    Consistent sb d' (curTop sb d' inum ip') := by
  have hgone : ∀ t ks, t.1 = inum → val (forest d' (curTop sb d' inum ip')) t ks = 0 := by
    intro t ks ht
    have hroot : val (forest d' (curTop sb d' inum ip')) t [] = 0 := by
      obtain ⟨j, i⟩ := t
      subst ht
      exact (curTop_self i).trans (hz i)
    have := val_append_null hroot ks
    rwa [append_nil] at this
  have howned : ∀ b, Owned height (forest d' (curTop sb d' inum ip')) b ↔
      Owned height (forest d (curTop sb d inum ip)) b ∧
        ¬ BlockOf d (curTop sb d inum ip) inum b := by
    intro b
    constructor
    · rintro ⟨hb, t, ks, hv, he⟩
      have ht : t.1 ≠ inum := fun ht => hb (he.symm.trans (hgone t ks ht))
      rw [hf.val_other ip' h hv ht] at he
      refine ⟨⟨hb, t, ks, hv, he⟩, ?_⟩
      rintro ⟨i, hu⟩
      have hu' : Under height (forest d (curTop sb d inum ip)) t [] b :=
        ⟨hb, ks, hv, by simpa using he⟩
      exact ht (congrArg Prod.fst (h.sep.under_under hu' hu).1)
    · rintro ⟨⟨hb, t, ks, hv, he⟩, hnot⟩
      have ht : t.1 ≠ inum := by
        rintro rfl
        exact hnot ⟨t.2, hb, ks, hv, by simpa using he⟩
      exact ⟨hb, t, ks, hv, (hf.val_other ip' h hv ht).trans he⟩
  refine ⟨h.sep.of_sub ?_, ?_, ?_⟩
  · intro t ks hv
    by_cases ht : t.1 = inum
    · exact .inl (hgone t ks ht)
    · exact .inr (hf.val_other ip' h hv ht)
  · intro b hb
    exact h.range b ((howned b).mp hb).1
  · intro b hb
    rw [hf.bits b hb, h.bitmap b hb, howned b]
    constructor
    · rintro ⟨hlow | hown, hnot⟩
      · exact .inl hlow
      · exact .inr ⟨hown, hnot⟩
    · rintro (hlow | ⟨hown, hnot⟩)
      · refine ⟨.inl hlow, ?_⟩
        rintro ⟨i, hu⟩
        exact absurd (h.range b hu.owned).1 (not_le.mpr hlow)
      · exact ⟨.inr hown, hnot⟩

end Free

/-! ## Whole states -/

/-- A hole-free well-formed image, with an inode cache that is write-through. -/
structure Wf (sb : Superblock) (st : State) : Prop where
  consistent : Consistent sb st.fs.disk (diskTop sb st.fs.disk)
  filled : ∀ i < sb.ninodes, (iload sb st.fs.disk i).type ≠ 0 →
    ∀ x < (iload sb st.fs.disk i).size, leaf st.fs.disk (diskTop sb st.fs.disk) i (x / BSIZE) ≠ 0
  size_le : ∀ i < sb.ninodes, (iload sb st.fs.disk i).type ≠ 0 →
    (iload sb st.fs.disk i).size ≤ MAXFILE * BSIZE
  cached : ∀ i ip, st.icache i = some ip →
    i < sb.ninodes ∧ ip.type ≠ 0 ∧ ip = iload sb st.fs.disk i

section Whole
variable {sb : Superblock} {st : State} {inum : Nat}

theorem istore_keep (hin : inum < sb.ninodes) (d : Disk) (ip : Inode)
    (hb : sb.bmapstart ≤ b) : istore sb d inum ip b = d b := by
  have := iblock_lt sb hin
  exact update_of_ne (by omega) ..

/-- The inode area with `ip` as inode `inum`, and otherwise that of `d`. -/
structure Stored (sb : Superblock) (inum : Nat) (ip : Inode) (d d' : Disk) : Prop where
  self : iload sb d' inum = ip
  other : ∀ j, j ≠ inum → iload sb d' j = iload sb d j
  keep : ∀ b, sb.bmapstart ≤ b → d' b = d b

theorem stored_istore (hin : inum < sb.ninodes) (d : Disk) {ip : Inode} (hfit : ip.Fits) :
    Stored sb inum ip d (istore sb d inum ip) :=
  ⟨iload_istore sb d hfit, fun _ hj => iload_istore_other sb d ip hj,
    fun _ hb => istore_keep hin d ip hb⟩

theorem diskTop_stored {d : Disk} {ip : Inode} (h : Stored sb inum ip d d')
    (hin : inum < sb.ninodes) (hfree : ip.type = 0 → ∀ i, ip.addrs i = 0) :
    diskTop sb d' = curTop sb d inum ip := by
  funext t
  obtain ⟨j, i⟩ := t
  obtain rfl | hj := eq_or_ne j inum
  · rw [curTop_self]
    unfold diskTop
    simp only [h.self]
    by_cases ht : ip.type = 0
    · rw [if_neg fun hand => hand.2 ht, hfree ht i]
    · rw [if_pos ⟨hin, ht⟩]
  rw [curTop_other hj]
  unfold diskTop
  simp only [h.other j hj]

variable {st' : State}

theorem Wf.finish (h : Wf sb st) (hin : inum < sb.ninodes) {d : Disk} {ip : Inode}
    (hc : Consistent sb d (curTop sb d inum ip)) (hlow : ∀ b < sb.bmapstart, d b = st.fs.disk b)
    (hkept : ∀ t ks, ks.length = height t → t.1 ≠ inum →
      val (forest st.fs.disk (diskTop sb st.fs.disk)) t ks ≠ 0 →
      val (forest d (curTop sb d inum ip)) t ks ≠ 0) (hfree : ip.type = 0 → ∀ i, ip.addrs i = 0)
    (hfill : ip.type ≠ 0 → ip.size ≤ MAXFILE * BSIZE ∧
      ∀ x < ip.size, leaf d (curTop sb d inum ip) inum (x / BSIZE) ≠ 0)
    (hs : Stored sb inum ip d st'.fs.disk) (hcache : ∀ i ip', st'.icache i = some ip' →
      (i = inum ∧ ip' = ip ∧ ip.type ≠ 0) ∨ (i ≠ inum ∧ st.icache i = some ip')) : Wf sb st' := by
  have htop := diskTop_stored hs hin hfree
  have hdata : ∀ b, sb.datastart ≤ b → st'.fs.disk b = d b := by
    intro b hb
    refine hs.keep b (le_trans ?_ hb)
    simp only [Superblock.datastart, BPB, BSIZE]
    omega
  have hval : ∀ t ks, ks.length = height t →
      val (forest st'.fs.disk (diskTop sb st'.fs.disk)) t ks =
        val (forest d (curTop sb d inum ip)) t ks := by
    intro t ks hv
    rw [htop]
    exact hc.val_congr rfl hdata (le_of_eq hv)
  have hold : ∀ j < sb.ninodes, j ≠ inum → iload sb st'.fs.disk j = iload sb st.fs.disk j := by
    intro j hj hne
    rw [hs.other j hne, iload_congr sb (hlow _ (iblock_lt sb hj))]
  refine ⟨?_, ?_, ?_, ?_⟩
  · rw [htop]
    exact hc.congr hs.keep
  · intro i hi ht x hx
    unfold leaf
    rw [hval _ _ (place_leaf ..)]
    obtain rfl | hne := eq_or_ne i inum
    · rw [hs.self] at ht hx
      exact (hfill ht).2 x hx
    · rw [hold i hi hne] at ht hx
      exact hkept _ _ (place_leaf ..) (by rwa [place_root]) (h.filled i hi ht x hx)
  · intro i hi ht
    obtain rfl | hne := eq_or_ne i inum
    · rw [hs.self] at ht ⊢
      exact (hfill ht).1
    · rw [hold i hi hne] at ht ⊢
      exact h.size_le i hi ht
  · intro i ip' hc'
    rcases hcache i ip' hc' with ⟨rfl, rfl, ht⟩ | ⟨hne, hc''⟩
    · exact ⟨hin, ht, hs.self.symm⟩
    · obtain ⟨hi, ht, he⟩ := h.cached i ip' hc''
      exact ⟨hi, ht, by rw [he, hold i hi hne]⟩

theorem Stored.trans {ip : Inode} {d d'' : Disk} (h : Stored sb inum ip d d')
    (h' : Stored sb inum ip' d' d'') : Stored sb inum ip' d d'' where
  self := h'.self
  other := fun j hj => (h'.other j hj).trans (h.other j hj)
  keep := fun b hb => (h'.keep b hb).trans (h.keep b hb)

theorem ilock_spec (h : Wf sb st) (inum : Nat) :
    Ends (fun ip => ip = iload sb st.fs.disk inum ∧ ip.type ≠ 0) (fun e => e = .noType)
      (ilock sb st inum) := by
  unfold ilock
  split
  · rename_i ip hc
    obtain ⟨_, ht, he⟩ := h.cached inum ip hc
    exact ⟨he, ht⟩
  simp only
  split
  · rfl
  · rename_i ht
    exact ⟨rfl, ht⟩

theorem Wf.locked (h : Wf sb st) (hin : inum < sb.ninodes)
    (ht : (iload sb st.fs.disk inum).type ≠ 0) :
    Consistent sb st.fs.disk (curTop sb st.fs.disk inum (iload sb st.fs.disk inum)) := by
  rw [curTop_iload hin ht]
  exact h.consistent

theorem Consistent.addrs_lt {d : Disk} {ip : Inode} (h : Consistent sb d (curTop sb d inum ip))
    (i : Fin NADDR) : ip.addrs i < 2 ^ 32 := by
  have hself : val (forest d (curTop sb d inum ip)) (inum, i) [] = ip.addrs i := curTop_self i
  have hsize := sb.size_lt
  by_cases hz : ip.addrs i = 0
  · omega
  have hb := (h.bounds zero_le (by rwa [hself])).2
  rw [hself] at hb
  omega

theorem put_icache (st : State) (fs : Image) {ip : Inode} (ht : ip.type ≠ 0) :
    ∀ i ip', (st.put inum ip fs).icache i = some ip' →
      (i = inum ∧ ip' = ip ∧ ip.type ≠ 0) ∨ (i ≠ inum ∧ st.icache i = some ip') := by
  intro i ip' hc
  simp only [State.put] at hc
  obtain rfl | hi := eq_or_ne i inum
  · rw [update_self, Option.some.injEq] at hc
    exact .inl ⟨rfl, hc.symm, ht⟩
  · rw [update_of_ne hi] at hc
    exact .inr ⟨hi, hc⟩

theorem Wf.keep (h : Wf sb st) (hin : inum < sb.ninodes)
    (ht : (iload sb st.fs.disk inum).type ≠ 0) :
    Wf sb (st.put inum (iload sb st.fs.disk inum) st.fs) := by
  refine ⟨h.consistent, h.filled, h.size_le, ?_⟩
  intro i ip hc
  rcases put_icache st st.fs ht i ip hc with ⟨rfl, rfl, _⟩ | ⟨_, hc'⟩
  · exact ⟨hin, ht, rfl⟩
  · exact h.cached i ip hc'

variable {off : Nat}

theorem Wrote.fits {src : Nat → Option UInt8} {s off' : Nat} {d : Disk} {ip : Inode}
    (hw : Wrote sb inum src s off n d ip off' d' ip') (hfit : ip.Fits) {size : Nat}
    (hsize : size < 2 ^ 32) : { ip' with size := size }.Fits := by
  have hfields := hw.grown.fields
  refine ⟨?_, ?_, ?_, ?_, ?_, hsize, hw.grown.consistent.addrs_lt⟩
  · rw [hfields]
    exact hfit.type
  · rw [hfields]
    exact hfit.mode
  · rw [hfields]
    exact hfit.major
  · rw [hfields]
    exact hfit.minor
  · rw [hfields]
    exact hfit.nlink

def Safe (e : Panic) : Prop := e ≠ .freeingFreeBlock

theorem ilock_safe (h : Wf sb st) (inum : Nat) :
    Ends (fun ip => ip = iload sb st.fs.disk inum ∧ ip.type ≠ 0) Safe (ilock sb st inum) := by
  refine (ilock_spec h inum).mono (fun _ hip => hip) ?_
  rintro e rfl
  exact Panic.noConfusion

theorem Wrote.wf {src : Nat → Option UInt8} {s off' : Nat}
    {fs : Image} (h : Wf sb st) (hin : inum < sb.ninodes) (ht : (iload sb st.fs.disk inum).type ≠ 0)
    (hoff : off ≤ (iload sb st.fs.disk inum).size) (hmax : off + n ≤ MAXFILE * BSIZE)
    (hw : Wrote sb inum src s off n st.fs.disk (iload sb st.fs.disk inum) off' d' ip')
    (hdisk : fs.disk = istore sb d' inum
      { ip' with size := max (iload sb st.fs.disk inum).size off' }) :
    Wf sb (st.put inum { ip' with size := max (iload sb st.fs.disk inum).size off' } fs) := by
  have hends := hw.ends
  have hsize := h.size_le inum hin ht
  have hlimit : MAXFILE * BSIZE < 2 ^ 32 := by decide
  have htype : ip'.type = (iload sb st.fs.disk inum).type := by rw [hw.grown.fields]
  have hkept : ∀ t ks, ks.length = height t →
      val (forest st.fs.disk (diskTop sb st.fs.disk)) t ks ≠ 0 →
      val (forest d' (curTop sb d' inum ip')) t ks ≠ 0 := by
    intro t ks hv hne
    rw [← curTop_iload hin ht] at hne
    rwa [hw.grown.kept (le_of_eq hv) hne]
  have hc : Consistent sb d' (curTop sb d' inum
      { ip' with size := max (iload sb st.fs.disk inum).size off' }) := hw.grown.consistent
  refine h.finish hin hc hw.grown.low (fun t ks hv _ => hkept t ks hv) ?_ ?_ ?_
    (put_icache st fs ?_)
  · intro hz
    exact absurd (htype ▸ hz) ht
  · intro _
    have hfill := h.filled inum hin ht
    rw [← curTop_iload hin ht] at hfill
    exact ⟨Nat.max_le.mpr ⟨hsize, by omega⟩, fun x hx => hw.leaf_ne hoff hfill hx⟩
  · rw [State.put, hdisk]
    exact stored_istore hin d' (hw.fits (iload_fits ..) (by omega))
  · rwa [← htype] at ht

theorem writeInode_spec (h : Wf sb st) (hin : inum < sb.ninodes) (src : Nat → Option UInt8)
    (s off : Nat) (hn : n < 2 ^ 32) :
    Ends (fun r => Wf sb r.2) Safe (writeInode sb st inum src s off n) := by
  refine .bind (ilock_safe h inum) ?_
  rintro ip ⟨rfl, ht⟩
  by_cases hrun : n ≠ 0 ∧ off ≤ (iload sb st.fs.disk inum).size ∧ off + n ≤ MAXFILE * BSIZE
  · obtain ⟨hn0, hoff, hmax⟩ := hrun
    refine .bind ((writei_spec src s (h.locked hin ht) hoff hmax hn0).mono (fun _ hr => hr) ?_) ?_
    · rintro e ⟨rfl, _⟩
      exact Panic.noConfusion
    · rintro ⟨r, ip1, fs1⟩ ⟨off', d', ip', hw, _, rfl, hdisk⟩
      exact hw.wf h hin ht hoff hmax hdisk
  have hsame : ∃ r, writei sb st.fs inum (iload sb st.fs.disk inum) src s off n =
      .ok (r, iload sb st.fs.disk inum, st.fs) :=
    writei_unchanged (h.size_le inum hin ht) hn (by omega)
  obtain ⟨r, hr⟩ := hsame
  rw [hr]
  exact h.keep hin ht

theorem readInode_spec (h : Wf sb st) (hin : inum < sb.ninodes) (dst : Nat → Bool)
    (hoff : off < 2 ^ 32) (hn : n < 2 ^ 32) :
    Ends (fun r => Wf sb r.2) Safe (readInode sb st inum dst off n) := by
  refine .bind (ilock_safe h inum) ?_
  rintro ip ⟨rfl, ht⟩
  have hfill := h.filled inum hin ht
  rw [← curTop_iload hin ht] at hfill
  obtain ⟨t, out, hr⟩ := readi_unchanged dst hoff hn (h.size_le inum hin ht) hfill
  rw [hr]
  exact h.keep hin ht

theorem Freed.wf (h : Wf sb st) (hin : inum < sb.ninodes) (ht : (iload sb st.fs.disk inum).type ≠ 0)
    (hf : Freed sb (BlockOf st.fs.disk (curTop sb st.fs.disk inum (iload sb st.fs.disk inum)) inum)
      st.fs.disk d') (hz : ∀ i, ip'.addrs i = 0) (hsize : ip'.size = 0)
    (hs : Stored sb inum ip' d' st'.fs.disk) (hcache : ∀ i ip, st'.icache i = some ip →
      (i = inum ∧ ip = ip' ∧ ip'.type ≠ 0) ∨ (i ≠ inum ∧ st.icache i = some ip)) : Wf sb st' := by
  have hc := h.locked hin ht
  refine h.finish hin (hc.truncated hf hz) (fun b hb => hf.keep b (.inl hb)) ?_ (fun _ => hz) ?_
    hs hcache
  · intro t ks hv hne hval
    rw [← curTop_iload hin ht] at hval
    rwa [hf.val_other ip' hc (le_of_eq hv) hne]
  · intro _
    rw [hsize]
    exact ⟨zero_le, fun x hx => absurd hx (Nat.not_lt_zero x)⟩

theorem fits_truncated {ip : Inode} (h : ip.Fits) :
    { ip with addrs := fun _ => 0, size := 0 }.Fits :=
  { h with size := Nat.two_pow_pos 32, addrs := fun _ => Nat.two_pow_pos 32 }

theorem fits_freed {ip : Inode} (h : ip.Fits) : { ip with type := 0 }.Fits :=
  { h with type := Nat.two_pow_pos 8 }

theorem itruncOp_spec (h : Wf sb st) (hin : inum < sb.ninodes) :
    Ends (Wf sb) Safe (exec sb st (.itrunc inum)) := by
  refine .bind (ilock_safe h inum) ?_
  rintro ip ⟨rfl, ht⟩
  refine .bind ((itrunc_spec (h.locked hin ht)).mono (fun _ hr => hr) fun _ => False.elim) ?_
  rintro ⟨ip1, fs1⟩ ⟨d', hf, rfl, hdisk⟩
  refine hf.wf h hin ht (fun _ => rfl) rfl ?_ (put_icache st fs1 ht)
  rw [State.put, hdisk]
  exact stored_istore hin d' (fits_truncated (iload_fits ..))

theorem iput_spec (h : Wf sb st) : Ends (Wf sb) Safe (iput sb st inum) := by
  unfold iput
  split
  · exact h
  · rename_i ip hc
    obtain ⟨hin, ht, rfl⟩ := h.cached inum ip hc
    split
    · refine .bind ((itrunc_spec (h.locked hin ht)).mono (fun _ hr => hr) fun _ => False.elim) ?_
      rintro ⟨ip1, fs1⟩ ⟨d', hf, rfl, hdisk⟩
      have hfit := fits_truncated (iload_fits sb st.fs.disk inum)
      have hs := (stored_istore hin d' hfit).trans (stored_istore hin _ (fits_freed hfit))
      rw [← hdisk, ← iupdate_disk] at hs
      refine hf.wf h hin ht (fun _ => rfl) rfl hs ?_
      intro i ip hc'
      obtain rfl | hi := eq_or_ne i inum
      · simp only [update_self, reduceCtorEq] at hc'
      · simp only [update_of_ne hi] at hc'
        exact .inr ⟨hi, hc'⟩
    · exact h

theorem setMeta_spec (h : Wf sb st) (hin : inum < sb.ninodes) (mode : UInt8)
    (major minor nlink : UInt16) :
    Ends (Wf sb) Safe (exec sb st (.setMeta inum mode major minor nlink)) := by
  refine .bind (ilock_safe h inum) ?_
  rintro ip ⟨rfl, ht⟩
  have hfit := iload_fits sb st.fs.disk inum
  have hc : Consistent sb st.fs.disk (curTop sb st.fs.disk inum
      { iload sb st.fs.disk inum with mode := mode.toNat, major := major.toNat,
                                      minor := minor.toNat, nlink := nlink.toNat }) :=
    h.locked hin ht
  have hfill := h.filled inum hin ht
  rw [← curTop_iload hin ht] at hfill
  refine h.finish hin hc (fun _ _ => rfl) ?_ (fun hz => absurd hz ht)
    (fun _ => ⟨h.size_le inum hin ht, hfill⟩) ?_ (put_icache st _ ht)
  · intro t ks _ _ hval
    rw [← curTop_iload hin ht] at hval
    exact hval
  · exact stored_istore hin _ ⟨hfit.type, mode.toNat_lt, major.toNat_lt, minor.toNat_lt,
      nlink.toNat_lt, hfit.size, hfit.addrs⟩

theorem stored_ialloc (hin : inum < sb.ninodes) (d : Disk) {type : Nat} (ht : type < 2 ^ 8) :
    Stored sb inum (Inode.fresh type) d (update d (iblock sb inum)
      (newDinode (d (iblock sb inum)) (dinodeOff inum) type)) where
  self := by
    unfold iload
    rw [update_self]
    exact getDinode_newDinode _ _ ht
  other := fun j hj => iload_update_other sb d hj fun _ hx => newDinode_other _ type hx
  keep := fun b hb => by
    have := iblock_lt sb hin
    exact update_of_ne (by omega) ..

theorem curTop_fresh {d : Disk} (h : (iload sb d inum).type = 0) (type : Nat) :
    curTop sb d inum (Inode.fresh type) = diskTop sb d := by
  funext t
  obtain ⟨j, i⟩ := t
  obtain rfl | hj := eq_or_ne j inum
  · rw [curTop_self, diskTop, if_neg fun hand => hand.2 h]
    rfl
  · exact curTop_other hj

theorem ialloc_spec (h : Wf sb st) {type : Nat} (ht : type < 2 ^ 8) :
    Ends (fun r => Wf sb { st with fs := r.2 }) Safe (ialloc sb st.fs type) := by
  unfold ialloc
  split
  · exact Panic.noConfusion
  · rename_i inum hfind
    have hmem := mem_range'_1.mp (mem_of_find?_eq_some hfind)
    have hin : inum < sb.ninodes := by omega
    have hz : (iload sb st.fs.disk inum).type = 0 := by simpa using find?_some hfind
    have hc := h.consistent
    rw [← curTop_fresh hz type] at hc
    refine h.finish hin hc (fun _ _ => rfl) ?_ (fun _ _ => rfl) ?_
      (stored_ialloc hin st.fs.disk ht) ?_
    · intro t ks _ _ hval
      rwa [curTop_fresh hz type]
    · intro _
      exact ⟨zero_le, fun x hx => absurd hx (Nat.not_lt_zero x)⟩
    · intro i ip hc'
      refine .inr ⟨?_, hc'⟩
      rintro rfl
      obtain ⟨_, hne, he⟩ := h.cached i ip hc'
      exact hne (he ▸ hz)

theorem recycle_spec (h : Wf sb st) : Wf sb { st with icache := update st.icache inum none } := by
  refine ⟨h.consistent, h.filled, h.size_le, ?_⟩
  intro i ip hc
  obtain rfl | hi := eq_or_ne i inum
  · simp only [update_self, reduceCtorEq] at hc
  · simp only [update_of_ne hi] at hc
    exact h.cached i ip hc

theorem exec_spec (h : Wf sb st) (op : Op) (hin : op.inum < sb.ninodes) :
    Ends (Wf sb) Safe (exec sb st op) := by
  cases op with
  | ialloc type => exact .bind (ialloc_spec h type.toNat_lt) fun _ hr => hr
  | writei inum src off n =>
    exact .bind (writeInode_spec h hin src 0 off.toNat n.toNat_lt) fun _ hr => hr
  | readi inum dst off n =>
    exact .bind (readInode_spec h hin dst off.toNat_lt n.toNat_lt) fun _ hr => hr
  | itrunc inum => exact itruncOp_spec h hin
  | iput inum => exact iput_spec h
  | setMeta inum mode major minor nlink => exact setMeta_spec h hin mode major minor nlink
  | recycle inum => exact recycle_spec h

theorem Wf.step (h : Wf sb st) {op : Op} (hs : step sb st op = some st') : Wf sb st' := by
  unfold Fs.step at hs
  split at hs
  · rename_i hin
    have hspec := exec_spec h op hin
    cases hr : exec sb st op with
    | error e =>
      rw [hr] at hs
      cases hs
    | ok st1 =>
      rw [hr] at hs hspec
      cases hs
      exact hspec
  · cases hs

theorem wf_empty (hfree : ∀ i < sb.ninodes, (iload sb st.fs.disk i).type = 0)
    (hbits : ∀ b < sb.size, used sb st.fs.disk b = decide (b < sb.datastart))
    (hcache : ∀ i, st.icache i = none) : Wf sb st := by
  have htop : ∀ t, diskTop sb st.fs.disk t = 0 := by
    intro t
    exact if_neg fun hand => hand.2 (hfree t.1 hand.1)
  have hval : ∀ t ks, val (forest st.fs.disk (diskTop sb st.fs.disk)) t ks = 0 := by
    intro t ks
    have hroot : val (forest st.fs.disk (diskTop sb st.fs.disk)) t [] = 0 := htop t
    have := val_append_null hroot ks
    rwa [append_nil] at this
  have howned : ∀ b, ¬ Owned height (forest st.fs.disk (diskTop sb st.fs.disk)) b := by
    rintro b ⟨hb, t, ks, _, he⟩
    exact hb (he.symm.trans (hval t ks))
  refine ⟨⟨?_, ?_, ?_⟩, ?_, ?_, ?_⟩
  · intro t ks _ _ _ _ hne
    exact absurd (hval t ks) hne
  · intro b hb
    exact absurd hb (howned b)
  · intro b hb
    rw [hbits b hb, decide_eq_true_iff]
    exact ⟨.inl, fun h => h.resolve_right (howned b)⟩
  · intro i hi ht
    exact absurd (hfree i hi) ht
  · intro i hi ht
    exact absurd (hfree i hi) ht
  · intro i ip hc
    rw [hcache i] at hc
    cases hc

end Whole

/-- In every state that the operations reach from a well-formed image, each block has one
place in the block maps, the bitmap is exact, `balloc` hands out blocks of nobody, `bfree`
does not panic, and `itrunc` returns all blocks of its inode. -/
theorem block_ownership {sb : Superblock} {image st : State} (himage : Wf sb image)
    (hreach : Machine.Reachable (step sb) image st) :
    Consistent sb st.fs.disk (diskTop sb st.fs.disk) ∧
    (∀ b fs, balloc sb st.fs = .ok (b, fs) → sb.datastart ≤ b ∧ b < sb.size ∧
      ¬ Owned height (forest st.fs.disk (diskTop sb st.fs.disk)) b) ∧
    (∀ op : Op, op.inum < sb.ninodes → exec sb st op ≠ .error .freeingFreeBlock) ∧
    ∀ inum ip, inum < sb.ninodes → ilock sb st inum = .ok ip →
      ∃ ip' fs, itrunc sb st.fs inum ip = .ok (ip', fs) ∧ ∀ b < sb.size, (used sb fs.disk b = true ↔
          used sb st.fs.disk b = true ∧ ¬ BlockOf st.fs.disk (diskTop sb st.fs.disk) inum b) := by
  have h : Wf sb st := Machine.reachable_invariant himage (fun _ _ _ hs he => hs.step he) hreach
  refine ⟨h.consistent, ?_, ?_, ?_⟩
  · intro b fs hb
    have hspec := balloc_spec sb st.fs
    rw [hb] at hspec
    obtain ⟨hlt, hfree, _⟩ := hspec
    obtain ⟨hdata, hnew⟩ := h.consistent.fresh hlt hfree
    exact ⟨hdata, hlt, hnew⟩
  · intro op hin he
    have hspec := exec_spec h op hin
    rw [he] at hspec
    exact hspec rfl
  · intro inum ip hin hl
    have hlock := ilock_spec h inum
    rw [hl] at hlock
    obtain ⟨rfl, ht⟩ := hlock
    obtain ⟨⟨ip', fs⟩, hr, d', hf, _, hdisk⟩ := (itrunc_spec (h.locked hin ht)).returns
    refine ⟨ip', fs, hr, fun b hb => ?_⟩
    rw [curTop_iload hin ht] at hf
    rw [← hf.bits b hb, hdisk, used_congr sb (istore_keep hin d' ip' (bmapstart_le_bblock sb b))]

def tiny : Superblock where
  size := 9
  ninodes := 3
  nlog := 1
  logstart := 2
  inodestart := 3
  bmapstart := 4
  log_le := by decide
  inode_le := by decide
  bmap_le := by decide
  data_le := by decide
  size_lt := by decide

def tinyImage : State where
  fs := ⟨fun b x => if b = 4 ∧ x = 0 then 31 else 0, []⟩
  icache := fun _ => none

theorem tinyImage_wf : Wf tiny tinyImage :=
  wf_empty (by decide +kernel) (by decide +kernel) fun _ => rfl

def tinyOps : List Op :=
  [.ialloc 2, .writei 1 (fun i => some (UInt8.ofNat i)) 0 1500,
    .writei 1 (fun i => if i < 600 then some 7 else none) 1500 700, .readi 1 (fun _ => true) 0 9,
    .ialloc 2, .writei 2 (fun _ => some 1) 0 10, .iput 2]

theorem block_ownership_tiny : ∃ st, Machine.run (step tiny) tinyImage tinyOps = some st ∧
    used tiny st.fs.disk 7 = true ∧ used tiny st.fs.disk 8 = false ∧
    Consistent tiny st.fs.disk (diskTop tiny st.fs.disk) := by
  obtain ⟨st, hrun, hst⟩ := Machine.run_test (step tiny) tinyImage tinyOps
    (fun st => used tiny st.fs.disk 7 = true ∧ used tiny st.fs.disk 8 = false) (by decide +kernel)
  exact ⟨st, hrun, hst.1, hst.2, (block_ownership tinyImage_wf ⟨tinyOps, hrun⟩).1⟩

end BirdOS.Fs
