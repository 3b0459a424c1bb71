import Mathlib.Data.List.GetD
import BirdOS.Fs.Ownership

/-! # A file is an array of bytes

The content of a file is what `bmap` leads to.  `writei` replaces a range of it, `readi`
returns a range of it, and `filewrite` composes its chunks to one `writei`. -/

namespace BirdOS.Fs

open Machine PointerForest Outcome List

def contentByte (sb : Superblock) (fs : Image) (ip : Inode) (x : Nat) : UInt8 :=
  match bmap sb fs ip (x / BSIZE) with
  | .ok (addr, _, fs') => fs'.disk addr (x % BSIZE)
  | .error _ => 0

def content (sb : Superblock) (fs : Image) (inum : Nat) : List UInt8 :=
  (List.range (iload sb fs.disk inum).size).map (contentByte sb fs (iload sb fs.disk inum))

structure Intact (sb : Superblock) (d : Disk) (inum : Nat) : Prop where
  consistent : Consistent sb d (diskTop sb d)
  inum_lt : inum < sb.ninodes
  allocated : (iload sb d inum).type ≠ 0
  size_le : (iload sb d inum).size ≤ MAXFILE * BSIZE
  filled : ∀ x < (iload sb d inum).size, leaf d (diskTop sb d) inum (x / BSIZE) ≠ 0

theorem Wf.intact {sb : Superblock} {st : State} (h : Wf sb st) {inum : Nat}
    (hin : inum < sb.ninodes) (ht : (iload sb st.fs.disk inum).type ≠ 0) :
    Intact sb st.fs.disk inum :=
  ⟨h.consistent, hin, ht, h.size_le inum hin ht, h.filled inum hin ht⟩

section Content
variable {sb : Superblock} {fs fs' : Image} {inum : Nat}

theorem contentByte_eq (hc : Consistent sb fs.disk (diskTop sb fs.disk)) (hin : inum < sb.ninodes)
    (ht : (iload sb fs.disk inum).type ≠ 0) {x : Nat} (hx : x < MAXFILE * BSIZE) :
    contentByte sb fs (iload sb fs.disk inum) x = fileByte fs.disk (diskTop sb fs.disk) inum x := by
  have hbn : x / BSIZE < MAXFILE := Nat.div_lt_of_lt_mul (by rwa [mul_comm])
  have htop := curTop_iload hin ht
  rw [← htop] at hc ⊢
  by_cases hne : leaf fs.disk (curTop sb fs.disk inum (iload sb fs.disk inum)) inum (x / BSIZE) = 0
  · -- a hole reads as a block of zeros, as the one that `bmap` would allocate
    have hzero : fileByte fs.disk (curTop sb fs.disk inum (iload sb fs.disk inum)) inum x = 0 := by
      unfold leaf at hne
      unfold fileByte dataAt
      rw [if_pos hne]
    have hspec := bmap_spec hc hbn
    unfold contentByte
    cases hr : bmap sb fs (iload sb fs.disk inum) (x / BSIZE) with
    | error e => exact hzero.symm
    | ok r =>
      obtain ⟨addr, ip', fs'⟩ := r
      rw [hr] at hspec
      simp only [Ends] at hspec
      obtain ⟨hm, rfl, hne'⟩ := hspec
      simp only
      rw [← fileByte_of_leaf hne']
      unfold fileByte
      rw [hm.data _ _ (place_leaf ..)]
  · unfold contentByte
    rw [bmap_existing hbn hne, fileByte_of_leaf hne]

theorem contentByte_beyond (fs : Image) (ip : Inode) {x : Nat} (hx : MAXFILE * BSIZE ≤ x) :
    contentByte sb fs ip x = 0 := by
  have hbn : MAXFILE ≤ x / BSIZE := (Nat.le_div_iff_mul_le (by decide)).mpr hx
  unfold MAXFILE at hbn
  unfold contentByte bmap
  rw [dif_neg (by omega), if_neg (by omega), if_neg (by omega)]

theorem contentByte_congr (hc : Consistent sb fs.disk (diskTop sb fs.disk))
    (hc' : Consistent sb fs'.disk (diskTop sb fs'.disk)) (hin : inum < sb.ninodes)
    (ht : (iload sb fs.disk inum).type ≠ 0) (hip : iload sb fs'.disk inum = iload sb fs.disk inum)
    (hdata : ∀ t ks, ks.length = height t → t.1 = inum →
      dataAt fs'.disk (diskTop sb fs'.disk) t ks = dataAt fs.disk (diskTop sb fs.disk) t ks) :
    content sb fs' inum = content sb fs inum := by
  unfold content
  rw [hip]
  apply map_congr_left
  intro x _
  by_cases hx : x < MAXFILE * BSIZE
  · have heq := contentByte_eq hc' hin (hip ▸ ht) hx
    rw [hip] at heq
    rw [heq, contentByte_eq hc hin ht hx]
    unfold fileByte
    rw [hdata _ _ (place_leaf ..) (place_root ..)]
  · rw [contentByte_beyond fs' _ (Nat.le_of_not_lt hx), contentByte_beyond fs _
      (Nat.le_of_not_lt hx)]

end Content

/-! ## What a write does -/

structure Effect (sb : Superblock) (inum : Nat) (src : Nat → Option UInt8) (s off n : Nat)
    (d d' : Disk) : Prop where
  intact : Intact sb d' inum
  size : (iload sb d' inum).size = max (iload sb d inum).size (off + n)
  mode : (iload sb d' inum).mode = (iload sb d inum).mode
  bytes : ∀ x < MAXFILE * BSIZE, fileByte d' (diskTop sb d') inum x =
    if off ≤ x ∧ x < off + n then (src (s + (x - off))).getD 0 else fileByte d (diskTop sb d) inum x
  others : ∀ t ks, ks.length = height t → t.1 ≠ inum →
    dataAt d' (diskTop sb d') t ks = dataAt d (diskTop sb d) t ks
  inodes : ∀ j < sb.ninodes, j ≠ inum → iload sb d' j = iload sb d j
  room : ∀ M, touched inum off n ⊆ M → Room sb M d (diskTop sb d) → Room sb M d' (diskTop sb d')

variable {t : Root} {ks : List Key}

section Effect
variable {sb : Superblock} {inum : Nat} {src : Nat → Option UInt8} {s off n m : Nat}
  {d d' d'' : Disk}

theorem Effect.refl (h : Intact sb d inum) (hoff : off ≤ (iload sb d inum).size) :
    Effect sb inum src s off 0 d d where
  intact := h
  size := by omega
  mode := rfl
  bytes := fun x _ => by rw [if_neg (by omega)]
  others := fun _ _ _ _ => rfl
  inodes := fun _ _ _ => rfl
  room := fun _ _ hroom => hroom

theorem Effect.trans (h : Effect sb inum src s off n d d')
    (h' : Effect sb inum src (s + n) (off + n) m d' d'') : Effect sb inum src s off
      (n + m) d d'' where
  intact := h'.intact
  size := by
    rw [h'.size, h.size]
    omega
  mode := h'.mode.trans h.mode
  bytes := by
    intro x hx
    rw [h'.bytes x hx, h.bytes x hx]
    by_cases hlast : off + n ≤ x ∧ x < off + n + m
    · rw [if_pos hlast, if_pos (by omega)]
      congr 2
      omega
    rw [if_neg hlast]
    by_cases hfirst : off ≤ x ∧ x < off + n
    · rw [if_pos hfirst, if_pos (by omega)]
    · rw [if_neg hfirst, if_neg (by omega)]
  others := fun t ks hv ht => (h'.others t ks hv ht).trans (h.others t ks hv ht)
  inodes := fun j hj hne => (h'.inodes j hj hne).trans (h.inodes j hj hne)
  room := fun M hM hroom => h'.room M ((touched_mono (by omega) (by omega)).trans hM)
    (h.room M ((touched_mono (by omega) (by omega)).trans hM) hroom)

theorem Stored.val_eq {ip : Inode} (hs : Stored sb inum ip d d')
    (hc : Consistent sb d (curTop sb d inum ip)) (hin : inum < sb.ninodes)
    (hfree : ip.type = 0 → ∀ i, ip.addrs i = 0) (hv : ks.length ≤ height t) :
    val (forest d' (diskTop sb d')) t ks = val (forest d (curTop sb d inum ip)) t ks := by
  rw [diskTop_stored hs hin hfree]
  refine hc.val_congr rfl (fun b hb => hs.keep b (le_trans ?_ hb)) hv
  simp only [Superblock.datastart, BPB, BSIZE]
  omega

theorem Stored.dataAt_eq {ip : Inode} (hs : Stored sb inum ip d d')
    (hc : Consistent sb d (curTop sb d inum ip)) (hin : inum < sb.ninodes)
    (hfree : ip.type = 0 → ∀ i, ip.addrs i = 0) (hv : ks.length = height t) :
    dataAt d' (diskTop sb d') t ks = dataAt d (curTop sb d inum ip) t ks := by
  unfold dataAt
  rw [hs.val_eq hc hin hfree (le_of_eq hv)]
  split
  · rfl
  · rename_i hne
    have hdata := (hc.bounds (le_of_eq hv) hne).1
    refine hs.keep _ (le_trans ?_ hdata)
    simp only [Superblock.datastart, BPB, BSIZE]
    omega

theorem Stored.room {ip : Inode} (hs : Stored sb inum ip d d')
    (hc : Consistent sb d (curTop sb d inum ip)) (hin : inum < sb.ninodes)
    (hfree : ip.type = 0 → ∀ i, ip.addrs i = 0) {M : Finset Place}
    (hroom : Room sb M d (curTop sb d inum ip)) : Room sb M d' (diskTop sb d') := by
  have hmiss : missing M d' (diskTop sb d') = missing M d (curTop sb d inum ip) := by
    apply Finset.filter_congr
    intro p _
    constructor
    · rintro ⟨hv, hz⟩
      exact ⟨hv, by rwa [hs.val_eq hc hin hfree hv] at hz⟩
    · rintro ⟨hv, hz⟩
      exact ⟨hv, by rwa [hs.val_eq hc hin hfree hv]⟩
  have hcount : freeCount sb d' = freeCount sb d := by
    unfold freeCount
    congr 1
    apply Finset.filter_congr
    intro b _
    rw [used_congr sb (hs.keep _ (bmapstart_le_bblock sb b))]
  unfold Room
  rw [hmiss, hcount]
  exact hroom

section Wrote
variable {off' : Nat} {ip' : Inode} {fs fs' : Image}

section
variable (hw : Wrote sb inum src s off n fs.disk (iload sb fs.disk inum) off' d' ip')
include hw

theorem Wrote.stored (h : Intact sb fs.disk inum) (hmax : off + n ≤ MAXFILE * BSIZE)
    (hdisk : fs'.disk = istore sb d' inum
      { ip' with size := max (iload sb fs.disk inum).size off' }) :
    Stored sb inum { ip' with size := max (iload sb fs.disk inum).size off' } d' fs'.disk := by
  have hends := hw.ends
  have hsize := h.size_le
  have hlimit : MAXFILE * BSIZE < 2 ^ 32 := by decide
  rw [hdisk]
  exact stored_istore h.inum_lt d' (hw.fits (iload_fits ..) (by omega))

theorem Wrote.effect (h : Intact sb fs.disk inum) (hoff : off ≤ (iload sb fs.disk inum).size)
    (hmax : off + n ≤ MAXFILE * BSIZE) (hsrc : ∀ i < n, (src (s + i)).isSome)
    (hdisk : fs'.disk = istore sb d' inum
      { ip' with size := max (iload sb fs.disk inum).size off' }) :
    Effect sb inum src s off n fs.disk fs'.disk := by
  have hs := hw.stored h hmax hdisk
  have htop := curTop_iload h.inum_lt h.allocated
  have htype : ip'.type = (iload sb fs.disk inum).type := by rw [hw.grown.fields]
  have hmode : ip'.mode = (iload sb fs.disk inum).mode := by rw [hw.grown.fields]
  have hne : ip'.type ≠ 0 := htype ▸ h.allocated
  have hfree : ip'.type = 0 → ∀ i, ip'.addrs i = 0 := fun hz => absurd hz hne
  have hc : Consistent sb d' (curTop sb d' inum
      { ip' with size := max (iload sb fs.disk inum).size off' }) := hw.grown.consistent
  have hfill := h.filled
  rw [← htop] at hfill
  obtain ⟨hoff', hbytes⟩ := hw.bytes hsrc
  refine ⟨⟨?_, h.inum_lt, ?_, ?_, ?_⟩, ?_, ?_, ?_, ?_, ?_, ?_⟩
  · rw [diskTop_stored hs h.inum_lt hfree]
    exact hc.congr hs.keep
  · rw [hs.self]
    exact hne
  · rw [hs.self]
    exact Nat.max_le.mpr ⟨h.size_le, by omega⟩
  · rw [hs.self]
    intro x hx
    unfold leaf
    rw [hs.val_eq hc h.inum_lt hfree (le_of_eq (place_leaf ..))]
    exact hw.leaf_ne hoff hfill hx
  · rw [hs.self, hoff']
  · rw [hs.self]
    exact hmode
  · intro x hx
    unfold fileByte
    rw [hs.dataAt_eq hc h.inum_lt hfree (place_leaf ..), ← htop]
    exact hbytes x hx
  · intro t ks hv ht
    rw [hs.dataAt_eq hc h.inum_lt hfree hv, ← htop]
    exact hw.others t ks hv ht
  · intro j hj hjne
    rw [hs.other j hjne, iload_congr sb (hw.grown.low _ (iblock_lt sb hj))]
  · intro M hM hroom
    rw [← htop] at hroom
    exact hs.room hc h.inum_lt hfree (hw.grown.room hM hroom)

theorem Wrote.intact_other (h : Intact sb fs.disk inum) (hoff : off ≤ (iload sb fs.disk inum).size)
    (hmax : off + n ≤ MAXFILE * BSIZE) (hsrc : ∀ i < n, (src (s + i)).isSome)
    (hdisk : fs'.disk = istore sb d' inum
      { ip' with size := max (iload sb fs.disk inum).size off' })
    {j : Nat} (hj : Intact sb fs.disk j) (hne : j ≠ inum) : Intact sb fs'.disk j := by
  have he := hw.effect h hoff hmax hsrc hdisk
  have hs := hw.stored h hmax hdisk
  have htype : ip'.type ≠ 0 := by
    rw [hw.grown.fields]
    exact h.allocated
  have hiload := he.inodes j hj.inum_lt hne
  refine ⟨he.intact.consistent, hj.inum_lt, hiload ▸ hj.allocated, hiload ▸ hj.size_le, ?_⟩
  rw [hiload]
  intro x hx
  have hfilled := hj.filled x hx
  rw [← curTop_iload h.inum_lt h.allocated] at hfilled
  unfold leaf at hfilled ⊢
  rw [hs.val_eq hw.grown.consistent h.inum_lt (fun hz => absurd hz htype)
    (le_of_eq (place_leaf ..))]
  have hkept := hw.grown.kept (le_of_eq (place_leaf ..)) hfilled
  exact fun hz => hfilled (hkept ▸ hz)

end

end Wrote

theorem writei_ends {fs : Image} (h : Intact sb fs.disk inum)
    (hoff : off ≤ (iload sb fs.disk inum).size) (hmax : off + n ≤ MAXFILE * BSIZE) (hn : n ≠ 0)
    (hsrc : ∀ i < n, (src (s + i)).isSome) :
    Ends (fun r => r.1 = (n : Int) ∧ r.2.1 = iload sb r.2.2.disk inum ∧
        Effect sb inum src s off n fs.disk r.2.2.disk ∧
        (iload sb r.2.2.disk inum).type = (iload sb fs.disk inum).type ∧
        ∀ j, j ≠ inum → Intact sb fs.disk j → Intact sb r.2.2.disk j)
      (Lacks sb (touched inum off n) fs.disk (diskTop sb fs.disk))
      (writei sb fs inum (iload sb fs.disk inum) src s off n) := by
  have hc := h.consistent
  have htop := curTop_iload h.inum_lt h.allocated
  rw [← htop] at hc ⊢
  refine (writei_spec src s hc hoff hmax hn).mono (fun r hr => ?_) fun _ he => he
  obtain ⟨off', d', ip', hw, hcount, hip, hdisk⟩ := hr
  rw [hip] at hdisk
  refine ⟨hcount, ?_, hw.effect h hoff hmax hsrc hdisk, ?_, fun j hj hint => ?_⟩
  · rw [hip, (hw.stored h hmax hdisk).self]
  · rw [(hw.stored h hmax hdisk).self, hw.grown.fields]
  · exact hw.intact_other h hoff hmax hsrc hdisk hint hj

theorem writei_zero (fs : Image) {ip : Inode} (hoff : off ≤ ip.size)
    (hmax : off ≤ MAXFILE * BSIZE) :
    writei sb fs inum ip src s off 0 = .ok (0, ip, fs) := by
  have hlimit : MAXFILE * BSIZE < 2 ^ 32 := by decide
  unfold writei
  rw [Nat.mod_eq_of_lt (by omega), if_neg (by omega), if_neg (by omega), writeLoop]
  rfl

theorem writei_effect {fs : Image} (h : Intact sb fs.disk inum)
    (hoff : off ≤ (iload sb fs.disk inum).size) (hmax : off + n ≤ MAXFILE * BSIZE)
    (hsrc : ∀ i < n, (src (s + i)).isSome)
    (hroom : Room sb (touched inum off n) fs.disk (diskTop sb fs.disk)) :
    ∃ fs', writei sb fs inum (iload sb fs.disk inum) src s off n =
        .ok (n, iload sb fs'.disk inum, fs') ∧
      Effect sb inum src s off n fs.disk fs'.disk := by
  obtain rfl | hn := eq_or_ne n 0
  · exact ⟨fs, writei_zero fs hoff hmax, Effect.refl h hoff⟩
  have hends := (writei_ends h hoff hmax hn hsrc).mono (fun _ hr => hr)
    fun _ he => he.2 _ (Finset.Subset.refl _) hroom
  obtain ⟨⟨r, ip', fs'⟩, hr, rfl, hip, he, -, -⟩ := hends.returns
  replace hip : ip' = iload sb fs'.disk inum := hip
  exact ⟨fs', hip ▸ hr, he⟩

/-- `writei` returns `-1`. -/
def Rejected (size off n : Nat) : Prop := size < off ∨ MAXFILE * BSIZE < off + n

theorem writei_result {fs fs' : Image} {ip ip' : Inode} {r : Int} (hoff : off < 2 ^ 32)
    (hn : n < 2 ^ 32) (hr : writei sb fs inum ip src s off n = .ok (r, ip', fs')) :
    Rejected ip.size off n ∧ r = -1 ∧ ip' = ip ∧ fs' = fs ∨
      r = n ∧ off ≤ ip.size ∧ off + n ≤ MAXFILE * BSIZE := by
  have hlimit : MAXFILE * BSIZE < 2 ^ 32 := by decide
  unfold Rejected
  unfold writei at hr
  split at hr
  · cases hr
    exact .inl ⟨by omega, rfl, rfl, rfl⟩
  split at hr
  · cases hr
    exact .inl ⟨by omega, rfl, rfl, rfl⟩
  refine .inr ⟨?_, by omega, by omega⟩
  split at hr
  · cases hr
  · split at hr <;> cases hr <;> rfl

theorem writei_counted {fs fs' : Image} {ip' : Inode} (h : Intact sb fs.disk inum)
    (hoff : off ≤ (iload sb fs.disk inum).size) (hmax : off + n ≤ MAXFILE * BSIZE)
    (hsrc : ∀ i < n, (src (s + i)).isSome)
    (hr : writei sb fs inum (iload sb fs.disk inum) src s off n = .ok ((n : Int), ip', fs')) :
    ip' = iload sb fs'.disk inum ∧ Effect sb inum src s off n fs.disk fs'.disk := by
  obtain rfl | hn := eq_or_ne n 0
  · rw [writei_zero fs hoff hmax] at hr
    cases hr
    exact ⟨rfl, Effect.refl h hoff⟩
  have hends := writei_ends h hoff hmax hn hsrc
  rw [hr] at hends
  exact ⟨hends.2.1, hends.2.2.1⟩

end Effect

/-! ## The chunks of `filewrite` -/

section Chunks
variable {sb : Superblock} {src : Nat → Option UInt8}

theorem ilock_put (st : State) (inum : Nat) (ip : Inode) (fs : Image) :
    ilock sb (st.put inum ip fs) inum = .ok ip := by
  unfold ilock State.put
  simp only [Function.update_self]

theorem filewriteLoop_effect {i rem : Nat} {f : File} {st : State} {M : Finset Place}
    (h : Intact sb st.fs.disk f.inum)
    (hlock : ilock sb st f.inum = .ok (iload sb st.fs.disk f.inum))
    (hmode : (iload sb st.fs.disk f.inum).mode / 2 % 2 ≠ 0)
    (hoff : f.off ≤ (iload sb st.fs.disk f.inum).size) (hmax : f.off + rem ≤ MAXFILE * BSIZE)
    (hsrc : ∀ j < rem, (src (i + j)).isSome) (hM : touched f.inum f.off rem ⊆ M)
    (hroom : Room sb M st.fs.disk (diskTop sb st.fs.disk)) :
    ∃ st', filewriteLoop sb src i rem f st =
        .ok (some (i + rem), { f with off := f.off + rem }, st') ∧
      Effect sb f.inum src i f.off rem st.fs.disk st'.fs.disk := by
  have hlimit : MAXFILE * BSIZE < 2 ^ 32 := by decide
  induction rem using Nat.strong_induction_on generalizing i f st with
  | _ rem ih =>
    rw [filewriteLoop]
    split
    · rename_i hzero
      subst hzero
      exact ⟨st, rfl, Effect.refl h hoff⟩
    · rename_i hrem
      have hpos : 0 < min rem maxWrite := Nat.lt_min.mpr ⟨pos_of_ne_zero hrem, by decide⟩
      have hle : min rem maxWrite ≤ rem := Nat.min_le_left ..
      generalize min rem maxWrite = n1 at hpos hle
      have hsub : touched f.inum f.off n1 ⊆ M :=
        (touched_mono le_rfl (by omega)).trans hM
      obtain ⟨fs', hwrite, heff⟩ := writei_effect h hoff (by omega)
        (fun j hj => hsrc j (by omega)) (hroom.subset hsub)
      rw [hlock]
      have hcast : ¬ (n1 : Int) < 0 := by omega
      have hpos' : (n1 : Int) > 0 := by omega
      have hoff' : (f.off + n1) % 2 ^ 32 = f.off + n1 := Nat.mod_eq_of_lt (by omega)
      simp only [if_neg hmode, hwrite, if_neg hcast, if_pos hpos', Int.toNat_natCast, hoff', ne_eq,
        not_true_eq_false, if_false]
      -- the rest of the chunks start where this one ended
      have hsize := heff.size
      obtain ⟨st', hr, hrest⟩ := @ih (rem - n1) (by omega) (i + n1) { f with off := f.off + n1 }
        (st.put f.inum (iload sb fs'.disk f.inum) fs') heff.intact (ilock_put ..)
          (by rw [State.put, heff.mode]; exact hmode)
        (by simp only [State.put]; omega) (by simp only; omega)
        (fun j hj => by rw [add_assoc]; exact hsrc _ (by omega))
        ((touched_mono (by simp only; omega) (by simp only; omega)).trans hM)
        (heff.room M hsub hroom)
      have htotal := heff.trans hrest
      rw [Nat.add_sub_cancel' hle] at htotal
      refine ⟨st', ?_, htotal⟩
      rw [hr]
      simp only [add_assoc, Nat.add_sub_cancel' hle]

theorem filewriteLoop_result {i rem : Nat} {f f' : File} {st st' : State} {o : Option Nat}
    (hoff : f.off < 2 ^ 32) (hr : filewriteLoop sb src i rem f st = .ok (o, f', st')) :
    f.off ≤ f'.off ∧ (Intact sb st.fs.disk f.inum →
      ilock sb st f.inum = .ok (iload sb st.fs.disk f.inum) →
      (∀ j < f'.off - f.off, (src (i + j)).isSome) → f'.off = f.off ∧ st'.fs = st.fs ∨
        f.off ≤ (iload sb st.fs.disk f.inum).size ∧ f'.off ≤ MAXFILE * BSIZE ∧
        Effect sb f.inum src i f.off (f'.off - f.off) st.fs.disk st'.fs.disk) := by
  have hlimit : MAXFILE * BSIZE < 2 ^ 32 := by decide
  have hchunk : maxWrite < 2 ^ 32 := by decide
  induction rem using Nat.strong_induction_on generalizing i f st with
  | _ rem ih =>
    rw [filewriteLoop] at hr
    split at hr
    · cases hr
      exact ⟨le_rfl, fun _ _ _ => .inl ⟨rfl, rfl⟩⟩
    next hrem =>
    split at hr
    · cases hr
    next ip hip =>
    split at hr
    · cases hr
      exact ⟨le_rfl, fun _ _ _ => .inl ⟨rfl, rfl⟩⟩
    have hpos : 0 < min rem maxWrite := Nat.lt_min.mpr ⟨pos_of_ne_zero hrem, by decide⟩
    have hle : min rem maxWrite ≤ maxWrite := Nat.min_le_right ..
    generalize min rem maxWrite = n1 at hpos hle hr
    simp only at hr
    split at hr
    · cases hr
    next r ip' fs' hwrite =>
    obtain ⟨-, rfl, rfl, rfl⟩ | ⟨rfl, hsize, hmax⟩ := writei_result hoff (by omega) hwrite
    · cases hr
      exact ⟨le_rfl, fun _ _ _ => .inl ⟨rfl, rfl⟩⟩
    rw [if_neg (by omega), if_neg (by simp), if_pos (by omega), Int.toNat_natCast,
      Nat.mod_eq_of_lt (by omega)] at hr
    obtain ⟨hmono, hrest⟩ := ih (rem - n1) (by omega) (by simp only; omega) hr
    simp only at hmono hrest
    refine ⟨by omega, fun h hlock hsrc => ?_⟩
    rw [hip] at hlock
    cases hlock
    obtain ⟨rfl, heff⟩ := writei_counted h hsize hmax (fun j hj => hsrc j (by omega)) hwrite
    obtain ⟨hsame, hfs⟩ | ⟨-, hmax', htail⟩ := hrest heff.intact (ilock_put ..)
      fun j hj => by rw [add_assoc]; exact hsrc _ (by omega)
    · rw [hfs, hsame, Nat.add_sub_cancel_left]
      exact .inr ⟨hsize, hmax, heff⟩
    have htotal := heff.trans htail
    rw [show n1 + (f'.off - (f.off + n1)) = f'.off - f.off by omega] at htotal
    exact .inr ⟨hsize, hmax', htotal⟩

/-- How far the chunks of `rem` bytes from `off` on stay below the largest size. -/
def fitting (off rem : Nat) : Nat :=
  if off + rem ≤ MAXFILE * BSIZE then rem else (MAXFILE * BSIZE - off) / maxWrite * maxWrite

/-- The offset moves over all chunks that fit, or over a byte that cannot be read. -/
theorem filewriteLoop_moves {i rem : Nat} {f f' : File} {st st' : State} {o : Option Nat}
    (h : Intact sb st.fs.disk f.inum)
    (hlock : ilock sb st f.inum = .ok (iload sb st.fs.disk f.inum))
    (hmode : (iload sb st.fs.disk f.inum).mode / 2 % 2 ≠ 0)
    (hoff : f.off ≤ (iload sb st.fs.disk f.inum).size)
    (hr : filewriteLoop sb src i rem f st = .ok (o, f', st')) :
    f'.off = f.off + fitting f.off rem ∨
      ∃ j < fitting f.off rem, src (i + j) = none ∧ f.off + j < f'.off := by
  have hlimit : MAXFILE * BSIZE < 2 ^ 32 := by decide
  have hchunk : maxWrite = 3072 := by decide
  induction rem using Nat.strong_induction_on generalizing i f st with
  | _ rem ih =>
    have hsize := h.size_le
    rw [filewriteLoop] at hr
    split at hr
    · next hzero =>
      cases hr
      subst hzero
      exact .inl (by rw [fitting, if_pos (by omega), add_zero])
    next hrem =>
    rw [hlock] at hr
    simp only [if_neg hmode] at hr
    split at hr
    · cases hr
    next r ip fs hwrite =>
    obtain ⟨hreject, rfl, -, -⟩ | ⟨rfl, -, hmax⟩ :=
      writei_result (by omega) (by omega) hwrite
    · cases hr
      have hnone : fitting f.off rem = 0 := by
        simp only [Rejected, fitting, hchunk] at hreject ⊢
        split <;> omega
      exact .inl (by rw [hnone]; rfl)
    rw [if_neg (by omega), if_neg (by simp), if_pos (by omega), Int.toNat_natCast,
      Nat.mod_eq_of_lt (by omega)] at hr
    have hfits : fitting f.off rem = min rem maxWrite +
        fitting (f.off + min rem maxWrite) (rem - min rem maxWrite) := by
      simp only [fitting, hchunk] at hmax ⊢
      split <;> split <;> omega
    by_cases hsrc : ∀ j < min rem maxWrite, (src (i + j)).isSome
    · obtain ⟨rfl, heff⟩ := writei_counted h hoff hmax hsrc hwrite
      have hgrown := heff.size
      have hrest := ih (rem - min rem maxWrite) (by omega)
        (f := { f with off := f.off + min rem maxWrite }) heff.intact (ilock_put ..)
        (by rw [State.put, heff.mode]; exact hmode) (by simp only [State.put]; omega) hr
      simp only at hrest
      rcases hrest with hall | ⟨j, hj, hnone, hlt⟩
      · exact .inl (by omega)
      · exact .inr ⟨min rem maxWrite + j, by omega, by rw [← add_assoc]; exact hnone, by omega⟩
    · -- the chunk is counted although a byte of it was not read
      simp only [not_forall, Option.not_isSome_iff_eq_none, exists_prop] at hsrc
      obtain ⟨j, hj, hnone⟩ := hsrc
      have hmono := (filewriteLoop_result (by simp only; omega) hr).1
      simp only at hmono
      exact .inr ⟨j, by omega, hnone, by omega⟩

theorem filewriteLoop_stops {i rem : Nat} {f f' : File} {st st' : State} {o : Option Nat}
    (hlock : ilock sb st f.inum = .ok (iload sb st.fs.disk f.inum)) (hoff : f.off < 2 ^ 32)
    (hstop : (iload sb st.fs.disk f.inum).mode / 2 % 2 = 0 ∨
      (iload sb st.fs.disk f.inum).size < f.off)
    (hr : filewriteLoop sb src i rem f st = .ok (o, f', st')) :
    f'.off = f.off ∧ st'.fs = st.fs := by
  have hchunk : maxWrite = 3072 := by decide
  rw [filewriteLoop] at hr
  split at hr
  · cases hr
    exact ⟨rfl, rfl⟩
  rw [hlock] at hr
  simp only at hr
  split at hr
  · cases hr
    exact ⟨rfl, rfl⟩
  next hmode =>
  split at hr
  · cases hr
  next r ip fs hwrite =>
  obtain ⟨-, rfl, rfl, rfl⟩ | ⟨-, hsize, -⟩ := writei_result hoff (by omega) hwrite
  · cases hr
    exact ⟨rfl, rfl⟩
  · exact absurd hsize (not_le.mpr (hstop.resolve_left hmode))

end Chunks

/-! ## Contents -/

def patch (c : List UInt8) (off : Nat) (bs : List UInt8) : List UInt8 :=
  c.take off ++ bs ++ c.drop (off + bs.length)

structure Patched (sb : Superblock) (inum off : Nat) (bs : List UInt8) (fs fs' : Image) : Prop where
  size : (iload sb fs'.disk inum).size = max (iload sb fs.disk inum).size (off + bs.length)
  content : content sb fs' inum = patch (content sb fs inum) off bs
  others : ∀ j < sb.ninodes, j ≠ inum → (iload sb fs.disk j).type ≠ 0 →
    Fs.content sb fs' j = Fs.content sb fs j

section Patch
variable {sb : Superblock} {inum : Nat} {fs fs' : Image} {src : Nat → Option UInt8} {s off n : Nat}
  {ip : Inode}

theorem content_eq (h : Intact sb fs.disk inum) :
    content sb fs inum = (range (iload sb fs.disk inum).size).map
      (fileByte fs.disk (diskTop sb fs.disk) inum) := by
  unfold content
  apply map_congr_left
  intro x hx
  exact contentByte_eq h.consistent h.inum_lt h.allocated
    (lt_of_lt_of_le (mem_range.mp hx) h.size_le)

theorem patch_map (g : Nat → UInt8) {len : Nat} (hoff : off ≤ len) (bs : List UInt8) :
    patch ((range len).map g) off bs = (range (max len (off + bs.length))).map fun x =>
      if off ≤ x ∧ x < off + bs.length then bs.getD (x - off) 0 else g x := by
  have htake : ((range len).map g).take off = (range off).map g := by
    rw [← map_take, take_range, Nat.min_eq_left hoff]
  apply ext_getElem
  · simp only [patch, length_append, length_take, length_drop, length_map,
      length_range]
    omega
  intro i hi hi'
  simp only [patch, htake, getElem_append, length_append, length_map,
    length_range, getElem_map, getElem_range, getElem_drop]
  by_cases hkeep : i < off
  · rw [dif_pos (by omega), dif_pos hkeep, if_neg (by omega)]
  by_cases hnew : i < off + bs.length
  · rw [dif_pos hnew, dif_neg hkeep, if_pos (by omega), getD_eq_getElem _ _ (by omega)]
  rw [dif_neg hnew, if_neg (by omega)]
  congr 1
  omega

def sourceBytes (src : Nat → Option UInt8) (n : Nat) : List UInt8 :=
  (List.range n).map fun i => (src i).getD 0

theorem Effect.patched (h : Intact sb fs.disk inum) (hoff : off ≤ (iload sb fs.disk inum).size)
    (hmax : off + n ≤ MAXFILE * BSIZE) (he : Effect sb inum src 0 off n fs.disk fs'.disk) :
    Patched sb inum off (sourceBytes src n) fs fs' := by
  have hlen : (sourceBytes src n).length = n := by simp [sourceBytes]
  refine ⟨by rw [hlen, he.size], ?_, ?_⟩
  · rw [content_eq h, content_eq he.intact, patch_map _ hoff, hlen, he.size]
    apply map_congr_left
    intro x hx
    have hx' : x < MAXFILE * BSIZE := by
      have := h.size_le
      have := mem_range.mp hx
      omega
    rw [he.bytes x hx']
    by_cases hin : off ≤ x ∧ x < off + n
    · rw [if_pos hin, if_pos hin, getD_eq_getElem _ _ (by omega)]
      simp [sourceBytes]
    · rw [if_neg hin, if_neg hin]
  · intro j hj hne ht
    exact contentByte_congr h.consistent he.intact.consistent hj ht (he.inodes j hj hne)
      fun t ks hv hroot => he.others t ks hv (by rwa [hroot])

theorem content_slice (h : Intact sb fs.disk inum) (off n : Nat) :
    ((content sb fs inum).drop off).take n =
      (range (min n ((iload sb fs.disk inum).size - off))).map fun i =>
        fileByte fs.disk (diskTop sb fs.disk) inum (off + i) := by
  apply ext_getElem
  · simp [content_eq h]
  · intro i hi hi'
    simp [content_eq h]

theorem readi_slice (h : Intact sb fs.disk inum) (hoff : off ≤ (iload sb fs.disk inum).size)
    (hn : off + n < 2 ^ 32) {dst : Nat → Bool} (hdst : ∀ i < n, dst i = true) :
    readi sb fs (iload sb fs.disk inum) dst off n =
      .ok (min n ((iload sb fs.disk inum).size - off), ((content sb fs inum).drop off).take n,
        iload sb fs.disk inum, fs) := by
  have htop := curTop_iload h.inum_lt h.allocated
  have hfill := h.filled
  rw [← htop] at hfill
  obtain ⟨t, out, hr, hall⟩ := readi_spec dst hoff hn h.size_le hfill
  obtain ⟨rfl, rfl⟩ := hall hdst
  rw [hr, content_slice h, htop]

end Patch

/-- A file without holes is the array of bytes that `bmap` leads to: `writei` of a readable
source replaces the bytes it covers, `readi` returns the bytes asked for, and `filewrite`
with its chunks does what one `writei` does, if there are free blocks enough. -/
theorem file_is_byte_array {sb : Superblock} {st : State} {inum off n : Nat}
    (h : Intact sb st.fs.disk inum) (hoff : off ≤ (iload sb st.fs.disk inum).size)
    (hmax : off + n ≤ MAXFILE * BSIZE) : (∀ dst : Nat → Bool, (∀ i < n, dst i = true) →
      readi sb st.fs (iload sb st.fs.disk inum) dst off n =
        .ok (min n ((iload sb st.fs.disk inum).size - off),
          ((content sb st.fs inum).drop off).take n, iload sb st.fs.disk inum, st.fs)) ∧
    ∀ src : Nat → Option UInt8, (∀ i < n, (src i).isSome) →
      Room sb (touched inum off n) st.fs.disk (diskTop sb st.fs.disk) →
      (∃ fs', writei sb st.fs inum (iload sb st.fs.disk inum) src 0 off n =
          .ok (n, iload sb fs'.disk inum, fs') ∧
        Patched sb inum off (sourceBytes src n) st.fs fs') ∧
      ∀ f : File, f.writable = true → f.inum = inum → f.off = off →
        ilock sb st inum = .ok (iload sb st.fs.disk inum) →
        (iload sb st.fs.disk inum).mode / 2 % 2 = 1 →
        ∃ st', filewrite sb st f src n = .ok (n, { f with off := off + n }, st') ∧
          Patched sb inum off (sourceBytes src n) st.fs st'.fs := by
  refine ⟨?_, ?_⟩
  · intro dst hdst
    have hlimit : MAXFILE * BSIZE < 2 ^ 32 := by decide
    exact readi_slice h hoff (by omega) hdst
  · intro src hsrc hroom
    have hsrc' : ∀ i < n, (src (0 + i)).isSome := by simpa using hsrc
    refine ⟨?_, ?_⟩
    · obtain ⟨fs', hr, he⟩ := writei_effect h hoff hmax hsrc' hroom
      exact ⟨fs', hr, he.patched h hoff hmax⟩
    · rintro f hw rfl rfl hlock hmode
      obtain ⟨st', hr, he⟩ := filewriteLoop_effect h hlock (by omega) hoff hmax hsrc'
        (Finset.Subset.refl _) hroom
      refine ⟨st', ?_, he.patched h hoff hmax⟩
      unfold filewrite
      rw [if_pos hw, Int.toNat_natCast, hr]
      simp

theorem file_is_byte_array_tiny : ∃ st, run (step tiny) tinyImage
        [.ialloc 2, .writei 1 (fun i => some (UInt8.ofNat i)) 0 5] = some st ∧
      content tiny st.fs 1 = [0, 1, 2, 3, 4] ∧
      ∃ fs', writei tiny st.fs 1 (iload tiny st.fs.disk 1) (fun _ => some 9) 0 3 4 =
          .ok (4, iload tiny fs'.disk 1, fs') ∧ content tiny fs' 1 = [0, 1, 2, 9, 9, 9, 9] := by
  obtain ⟨st, hrun, ht, hsize, hroom, hcontent⟩ := run_test (step tiny) tinyImage
    [.ialloc 2, .writei 1 (fun i => some (UInt8.ofNat i)) 0 5]
    (fun st => (iload tiny st.fs.disk 1).type ≠ 0 ∧ (iload tiny st.fs.disk 1).size = 5 ∧
      Room tiny (touched 1 3 4) st.fs.disk (diskTop tiny st.fs.disk) ∧
      content tiny st.fs 1 = [0, 1, 2, 3, 4]) (by decide +kernel)
  have hwf : Wf tiny st := reachable_invariant tinyImage_wf
    (fun _ _ _ hs he => hs.step he) ⟨_, hrun⟩
  have hoff : 3 ≤ (iload tiny st.fs.disk 1).size := by omega
  have hmax : 3 + 4 ≤ MAXFILE * BSIZE := by decide
  have harray := (file_is_byte_array (hwf.intact (by decide) ht) hoff hmax).2
    (fun _ => some 9) (fun _ _ => rfl) hroom
  obtain ⟨fs', hr, hp⟩ := harray.1
  refine ⟨st, hrun, hcontent, fs', hr, ?_⟩
  rw [hp.content, hcontent]
  rfl

/-- The first `k` bytes of the source are stored at `off`; the rest is unchanged. -/
structure Stores (sb : Superblock) (inum : Nat) (src : Nat → Option UInt8) (off k : Nat)
    (fs fs' : Image) : Prop where
  size : (iload sb fs'.disk inum).size = max (iload sb fs.disk inum).size (off + k)
  bytes : ∀ i < k, (content sb fs' inum)[off + i]? = src i
  beyond : ∀ x, x < off ∨ off + k ≤ x → (content sb fs' inum)[x]? = (content sb fs inum)[x]?
  others : ∀ j < sb.ninodes, j ≠ inum → (iload sb fs.disk j).type ≠ 0 →
    content sb fs' j = content sb fs j

section Stores
variable {sb : Superblock} {inum off k : Nat} {src : Nat → Option UInt8} {fs fs' : Image}

/-- What is stored has been read: the file has a byte wherever its size says so. -/
theorem Stores.readable (h : Stores sb inum src off k fs fs') : ∀ i < k, (src i).isSome := by
  intro i hi
  have hsize := h.size
  rw [← h.bytes i hi, getElem?_eq_getElem (by simp only [content, length_map, length_range]; omega)]
  rfl

theorem Patched.stores (h : Patched sb inum off (sourceBytes src k) fs fs')
    (hoff : off ≤ (iload sb fs.disk inum).size) (hsrc : ∀ i < k, (src i).isSome) :
    Stores sb inum src off k fs fs' := by
  have hlen : (sourceBytes src k).length = k := by simp [sourceBytes]
  have hold : (Fs.content sb fs inum).length = (iload sb fs.disk inum).size := by
    simp [Fs.content]
  refine ⟨by rw [h.size, hlen], fun i hi => ?_, fun x hx => ?_, h.others⟩
  · obtain ⟨b, hb⟩ := Option.isSome_iff_exists.mp (hsrc i hi)
    rw [h.content, patch, append_assoc, getElem?_append_right (by simp)]
    simp only [length_take, hold, Nat.min_eq_left hoff, Nat.add_sub_cancel_left]
    rw [getElem?_append_left (by omega)]
    simp [sourceBytes, hi, hb]
  · rw [h.content, patch, hlen]
    rcases hx with hx | hx
    · rw [append_assoc, getElem?_append_left (by simp only [length_take]; omega),
        getElem?_take_of_lt hx]
    · rw [getElem?_append_right (by simp only [length_append, length_take, hlen]; omega),
        getElem?_drop]
      congr 1
      simp only [length_append, length_take, hlen]
      omega

end Stores

/-- The bytes that `filewrite` moves the offset over, if it reads all of them. -/
def toStore (ip : Inode) (f : File) (n : Int) : Nat :=
  if f.writable = false ∨ ip.mode / 2 % 2 = 0 ∨ ip.size < f.off then 0 else fitting f.off n.toNat

/-- `writei` stores the bytes that it counts if and only if it rejects the range or all bytes of
the source can be read, and `filewrite` those that it moves the offset over if and only if all
bytes of the chunks that fit can be read. -/
theorem writes_stored_iff {sb : Superblock} {st : State} {inum : Nat}
    (h : Intact sb st.fs.disk inum) (src : Nat → Option UInt8) :
    (∀ off n r ip fs', off < 2 ^ 32 → n < 2 ^ 32 →
      writei sb st.fs inum (iload sb st.fs.disk inum) src 0 off n = .ok (r, ip, fs') →
      ((0 ≤ r → Stores sb inum src off r.toNat st.fs fs') ↔
        Rejected (iload sb st.fs.disk inum).size off n ∨ ∀ i < n, (src i).isSome)) ∧
    ∀ (f : File) n r f' st', f.inum = inum → f.off < 2 ^ 32 →
      ilock sb st inum = .ok (iload sb st.fs.disk inum) →
      filewrite sb st f src n = .ok (r, f', st') →
      ((∃ k, f'.off = f.off + k ∧
          (k = 0 ∧ st'.fs = st.fs ∨ Stores sb inum src f.off k st.fs st'.fs)) ↔
        ∀ i < toStore (iload sb st.fs.disk inum) f n, (src i).isSome) := by
  refine ⟨fun off n r ip fs' hoff hn hr => ?_, ?_⟩
  · obtain ⟨hreject, rfl, -, -⟩ | ⟨rfl, hsize, hmax⟩ := writei_result hoff hn hr
    · exact ⟨fun _ => .inl hreject, fun _ hneg => absurd hneg (by decide)⟩
    rw [Int.toNat_natCast]
    refine ⟨fun hs => .inr (hs (by omega)).readable, fun hsrc _ => ?_⟩
    replace hsrc := hsrc.resolve_left fun hreject => by
      rcases hreject with hlow | hhigh <;> omega
    have he := (writei_counted h hsize hmax (by simpa using hsrc) hr).2
    exact (he.patched h hsize hmax).stores hsize hsrc
  · rintro f n r f' st' rfl hoff hlock hr
    unfold filewrite at hr
    split at hr
    · next hwritable =>
      obtain ⟨o, hloop⟩ : ∃ o, filewriteLoop sb src 0 n.toNat f st = .ok (o, f', st') := by
        split at hr <;> cases hr <;> exact ⟨_, ‹_›⟩
      by_cases hstop : (iload sb st.fs.disk f.inum).mode / 2 % 2 = 0 ∨
          (iload sb st.fs.disk f.inum).size < f.off
      · obtain ⟨hsame, hfs⟩ := filewriteLoop_stops hlock hoff hstop hloop
        rw [toStore, if_pos (.inr hstop)]
        exact ⟨fun _ i hi => absurd hi (Nat.not_lt_zero i), fun _ => ⟨0, hsame, .inl ⟨rfl, hfs⟩⟩⟩
      rw [toStore, if_neg (by simp only [hwritable, reduceCtorEq, false_or]; exact hstop)]
      rw [not_or, not_lt] at hstop
      have hmoves := filewriteLoop_moves h hlock hstop.1 hstop.2 hloop
      simp only [zero_add] at hmoves
      constructor
      · rintro ⟨k, hk, hstored⟩
        -- the offset has passed every byte of the chunks, or one that was not stored
        rcases hmoves with hall | ⟨j, hj, hnone, hlt⟩
        · obtain rfl : k = fitting f.off n.toNat := by omega
          rcases hstored with ⟨hzero, -⟩ | hs
          · exact fun i hi => by omega
          · exact hs.readable
        · rcases hstored with ⟨rfl, -⟩ | hs
          · omega
          · have hsome := hs.readable j (by omega)
            rw [hnone] at hsome
            cases hsome
      · intro hsrc
        have hall : f'.off = f.off + fitting f.off n.toNat := by
          refine hmoves.resolve_right ?_
          rintro ⟨j, hj, hnone, -⟩
          have hsome := hsrc j hj
          rw [hnone] at hsome
          cases hsome
        refine ⟨fitting f.off n.toNat, hall, ?_⟩
        have hread : ∀ j < f'.off - f.off, (src (0 + j)).isSome := by
          intro j hj
          rw [zero_add]
          exact hsrc j (by omega)
        obtain ⟨hsame, hfs⟩ | ⟨hsize, hmax, he⟩ :=
          (filewriteLoop_result hoff hloop).2 h hlock hread
        · exact .inl ⟨by omega, hfs⟩
        · rw [hall, Nat.add_sub_cancel_left] at he
          exact .inr ((he.patched h hsize (by omega)).stores hsize hsrc)
    · next hwritable =>
      cases hr
      rw [toStore, if_pos (.inl (by simpa using hwritable))]
      exact ⟨fun _ i hi => absurd hi (Nat.not_lt_zero i), fun _ => ⟨0, rfl, .inl ⟨rfl, rfl⟩⟩⟩

def writeTwo (src : Nat → Option UInt8) (st : State) : Option Int :=
  (writei tiny st.fs 1 (iload tiny st.fs.disk 1) src 0 0 2).toOption.map Prod.fst

theorem writes_stored_iff_tiny : ∃ st fs', run (step tiny) tinyImage [.ialloc 2] = some st ∧
    Stores tiny 1 (fun _ => some 9) 0 2 st.fs fs' := by
  obtain ⟨st, hrun, ht, htwo⟩ := run_test (step tiny) tinyImage [.ialloc 2]
    (fun st => (iload tiny st.fs.disk 1).type ≠ 0 ∧ writeTwo (fun _ => some 9) st = some 2)
    (by decide +kernel)
  have hwf : Wf tiny st := reachable_invariant tinyImage_wf
    (fun _ _ _ hs he => hs.step he) ⟨_, hrun⟩
  have hiff := (writes_stored_iff (hwf.intact (by decide) ht) fun _ => some 9).1 0 2
  unfold writeTwo at htwo
  cases hw : writei tiny st.fs 1 (iload tiny st.fs.disk 1) (fun _ => some 9) 0 0 2 with
  | error e => simp [hw, Except.toOption] at htwo
  | ok r =>
    obtain ⟨r, ip, fs'⟩ := r
    obtain rfl : r = 2 := by simpa [hw, Except.toOption] using htwo
    have hstores := (hiff 2 ip fs' (by decide) (by decide) hw).mpr (.inr fun _ _ => rfl)
    exact ⟨st, fs', hrun, hstores (by decide)⟩

theorem writei_counts_unread : ∃ st, run (step tiny) tinyImage [.ialloc 2] = some st ∧
    writeTwo (fun _ => none) st = some 2 :=
  run_test (step tiny) tinyImage [.ialloc 2] _ (by decide +kernel)

end BirdOS.Fs
