import Mathlib.Order.Interval.Finset.Nat
import BirdOS.Fs.BlockMap

/-! # The loops of `readi` and `writei`

`fileByte` reads a file through the block map.  `bmap` leaves it alone, and a store to the
block it returns changes the bytes of one file in one block. -/

namespace BirdOS.Fs

open PointerForest Outcome Function List Finset

def fileByte (d : Disk) (top : Root → Nat) (inum x : Nat) : UInt8 :=
  dataAt d top (place inum (x / BSIZE)).1 (place inum (x / BSIZE)).2 (x % BSIZE)

def touched (inum off n : Nat) : Finset Place :=
  (Finset.Ico off (off + n)).biUnion fun x => path (place inum (x / BSIZE))

section Geometry
variable {inum off rem : Nat}

theorem path_subset_touched (inum off : Nat) (h : rem ≠ 0) :
    path (place inum (off / BSIZE)) ⊆ touched inum off rem :=
  subset_biUnion_of_mem (fun x => path (place inum (x / BSIZE)))
    (mem_Ico.mpr ⟨le_rfl, by omega⟩)

theorem touched_mono {off' rem' : Nat} (h : off ≤ off') (h' : off' + rem' ≤ off + rem) :
    touched inum off' rem' ⊆ touched inum off rem := by
  apply biUnion_subset_biUnion_of_subset_left
  exact Finset.Ico_subset_Ico h h'

theorem chunk_le (off rem : Nat) : chunk off rem ≤ rem := Nat.min_le_left ..

theorem chunk_end (off rem : Nat) :
    off % BSIZE + chunk off rem ≤ BSIZE ∧
      (chunk off rem = rem ∨ off % BSIZE + chunk off rem = BSIZE) := by
  simp only [chunk, BSIZE]
  omega

theorem chunk_block {x : Nat} (h : off ≤ x) (h' : x < off + chunk off rem) :
    x / BSIZE = off / BSIZE ∧ x % BSIZE = off % BSIZE + (x - off) := by
  have hend := (chunk_end off rem).1
  simp only [BSIZE] at *
  omega

end Geometry

section Source
variable {src : Nat → Option UInt8} {s m : Nat}

theorem readable_length_le (src : Nat → Option UInt8) (s m : Nat) :
    (readable src s m).length ≤ m := by
  induction m generalizing s with
  | zero => exact Nat.le_refl 0
  | succ m ih =>
    unfold readable
    split
    · exact Nat.succ_le_succ (ih (s + 1))
    · exact zero_le

theorem readable_all (h : ∀ i < m, (src (s + i)).isSome) : (readable src s m).length = m ∧
      ∀ i < m, (readable src s m).getD i 0 = (src (s + i)).getD 0 := by
  induction m generalizing s with
  | zero => exact ⟨rfl, fun i hi => absurd hi (Nat.not_lt_zero i)⟩
  | succ m ih =>
    obtain ⟨b, hb⟩ := Option.isSome_iff_exists.mp (h 0 (Nat.succ_pos m))
    have hrest := ih (s := s + 1) fun i hi => by
      have := h (i + 1) (Nat.succ_lt_succ hi)
      rwa [show s + 1 + i = s + (i + 1) by omega]
    rw [add_zero] at hb
    simp only [readable, hb]
    refine ⟨congrArg Nat.succ hrest.1, ?_⟩
    intro i hi
    cases i with
    | zero => simp [hb]
    | succ i =>
      rw [show s + (i + 1) = s + 1 + i by omega, ← hrest.2 i (Nat.lt_of_succ_lt_succ hi)]
      rfl

theorem writableLen_all {dst : Nat → Bool} {t : Nat} (h : ∀ i < m, dst (t + i) = true) :
    writableLen dst t m = m := by
  induction m generalizing t with
  | zero => rfl
  | succ m ih =>
    have hrest := ih (t := t + 1) fun i hi => by
      have := h (i + 1) (Nat.succ_lt_succ hi)
      rwa [show t + 1 + i = t + (i + 1) by omega]
    have hfirst := h 0 (Nat.succ_pos m)
    rw [add_zero] at hfirst
    rw [writableLen, if_pos hfirst, hrest]

end Source

/-! ## One block of a file -/

section Store
variable {sb : Superblock} {inum : Nat} {d d' : Disk} {ip ip' : Inode} {P : Finset Place} {bn : Nat}
  (blk : Block)

theorem Grown.writeLeaf (h : Grown sb inum P d ip d' ip')
    (hne : leaf d' (curTop sb d' inum ip') inum bn ≠ 0) :
    Grown sb inum P d ip (update d' (leaf d' (curTop sb d' inum ip') inum bn) blk) ip' := by
  have hleaf := place_leaf inum bn
  have hbound := h.consistent.bounds (le_of_eq hleaf) hne
  have hle : sb.bmapstart ≤ sb.datastart := by
    simp only [Superblock.datastart, BPB, BSIZE]
    omega
  have hlow : ∀ b < sb.bmapstart,
      update d' (leaf d' (curTop sb d' inum ip') inum bn) blk b = d' b := by
    intro b hb
    exact update_of_ne (by unfold leaf; omega) ..
  have htop : curTop sb (update d' (leaf d' (curTop sb d' inum ip') inum bn) blk) inum ip' =
      curTop sb d' inum ip' := curTop_congr hlow
  obtain ⟨L, hL, hg⟩ := h.grows
  refine ⟨?_, ⟨L, hL, ?_⟩, h.fields⟩
  · rw [htop]
    exact h.consistent.writeLeaf blk hleaf hne
  · have hsame : Grows sb ∅ d' (curTop sb d' inum ip')
        (update d' (leaf d' (curTop sb d' inum ip') inum bn) blk)
        (curTop sb (update d' (leaf d' (curTop sb d' inum ip') inum bn) blk) inum ip') := by
      rw [htop]
      refine ⟨fun t ks hv _ => h.consistent.val_writeLeaf blk hleaf hv,
        fun _ _ hm => absurd hm (Finset.notMem_empty _), hlow, ?_⟩
      rw [Finset.card_empty, add_zero]
      unfold freeCount
      congr 1
      apply Finset.filter_congr
      intro x hx
      have hused := used_update_data (d := d') hbound.1 (Finset.mem_range.mp hx) blk
      unfold leaf
      rw [hused]
    have htrans := hg.trans hsame
    rwa [Finset.union_empty] at htrans

theorem fileByte_writeLeaf (h : Consistent sb d' (curTop sb d' inum ip')) (hbn : bn < MAXFILE)
    (hne : leaf d' (curTop sb d' inum ip') inum bn ≠ 0) {x : Nat} (hx : x < MAXFILE * BSIZE) :
    fileByte (update d' (leaf d' (curTop sb d' inum ip') inum bn) blk)
        (curTop sb d' inum ip') inum x =
      if x / BSIZE = bn then blk (x % BSIZE) else fileByte d' (curTop sb d' inum ip') inum x := by
  have hxbn : x / BSIZE < MAXFILE := Nat.div_lt_of_lt_mul (by rwa [mul_comm])
  unfold fileByte leaf
  rw [h.dataAt_writeLeaf blk (place_leaf inum bn) hne (place_leaf inum (x / BSIZE))]
  by_cases he : x / BSIZE = bn
  · rw [if_pos (by rw [he]), if_pos he]
  · rw [if_neg (fun hp => he (place_inj hxbn hbn hp)), if_neg he]

theorem dataAt_writeLeaf_other (h : Consistent sb d' (curTop sb d' inum ip'))
    (hne : leaf d' (curTop sb d' inum ip') inum bn ≠ 0) {t : Root} {ks : List Key}
    (hv : ks.length = height t) (ht : t.1 ≠ inum) :
    dataAt (update d' (leaf d' (curTop sb d' inum ip') inum bn) blk)
        (curTop sb d' inum ip') t ks = dataAt d' (curTop sb d' inum ip') t ks := by
  unfold leaf
  rw [h.dataAt_writeLeaf blk (place_leaf inum bn) hne hv, if_neg]
  intro he
  exact ht ((congrArg (fun p : Place => p.1.1) he).trans (place_root inum bn))

end Store

section Put
variable {sb : Superblock} {inum : Nat} {d : Disk} {ip : Inode} {off : Nat} {bs : List UInt8}

theorem fileByte_of_leaf {top : Root → Nat} {x : Nat} (hne : leaf d top inum (x / BSIZE) ≠ 0) :
    fileByte d top inum x = d (leaf d top inum (x / BSIZE)) (x % BSIZE) := by
  unfold leaf at hne ⊢
  unfold fileByte dataAt
  rw [if_neg hne]

theorem fileByte_put (h : Consistent sb d (curTop sb d inum ip)) (hoff : off < MAXFILE * BSIZE)
    (hne : leaf d (curTop sb d inum ip) inum (off / BSIZE) ≠ 0)
    (hlen : off % BSIZE + bs.length ≤ BSIZE) {x : Nat} (hx : x < MAXFILE * BSIZE) :
    fileByte (update d (leaf d (curTop sb d inum ip) inum (off / BSIZE))
        (ByteMem.put (d (leaf d (curTop sb d inum ip) inum (off / BSIZE))) (off % BSIZE) bs))
        (curTop sb d inum ip) inum x =
      if off ≤ x ∧ x < off + bs.length then bs.getD (x - off) 0
      else fileByte d (curTop sb d inum ip) inum x := by
  have hbn : off / BSIZE < MAXFILE := Nat.div_lt_of_lt_mul (by rwa [mul_comm])
  rw [fileByte_writeLeaf _ h hbn hne hx]
  by_cases he : x / BSIZE = off / BSIZE
  · have hiff : (off % BSIZE ≤ x % BSIZE ∧ x % BSIZE < off % BSIZE + bs.length) ↔
        off ≤ x ∧ x < off + bs.length := by
      simp only [BSIZE] at *
      omega
    have hsub : x % BSIZE - off % BSIZE = x - off := by
      simp only [BSIZE] at *
      omega
    rw [← he] at hne
    rw [if_pos he, ByteMem.put, hsub, fileByte_of_leaf hne, he]
    simp only [hiff]
  · have hnot : ¬ (off ≤ x ∧ x < off + bs.length) := by
      simp only [BSIZE] at *
      omega
    rw [if_neg he, if_neg hnot]

end Put

/-! ## The loop of `writei` -/

/-- The file has grown by blocks that lead to the bytes written, other files are as they were,
and from a readable source all bytes arrive. -/
structure Wrote (sb : Superblock) (inum : Nat) (src : Nat → Option UInt8) (s off rem : Nat)
    (d : Disk) (ip : Inode) (off' : Nat) (d' : Disk) (ip' : Inode) : Prop where
  grown : Grown sb inum (touched inum off rem) d ip d' ip'
  others : ∀ t ks, ks.length = height t → t.1 ≠ inum →
    dataAt d' (curTop sb d' inum ip') t ks = dataAt d (curTop sb d inum ip) t ks
  ends : off ≤ off' ∧ off' ≤ off + rem
  filled : ∀ x, off ≤ x → x < off' → leaf d' (curTop sb d' inum ip') inum (x / BSIZE) ≠ 0
  bytes : (∀ i < rem, (src (s + i)).isSome) → off' = off + rem ∧
    ∀ x < MAXFILE * BSIZE, fileByte d' (curTop sb d' inum ip') inum x =
      if off ≤ x ∧ x < off + rem then (src (s + (x - off))).getD 0
      else fileByte d (curTop sb d inum ip) inum x

section Write
variable {sb : Superblock} {inum : Nat} {src : Nat → Option UInt8}

theorem Mapped.store {d d' : Disk} {ip ip' : Inode} {off : Nat} {P : Finset Place}
    (h : Mapped sb inum P d ip d' ip') (hoff : off < MAXFILE * BSIZE)
    (hne : leaf d' (curTop sb d' inum ip') inum (off / BSIZE) ≠ 0) (bs : List UInt8)
    (hlen : off % BSIZE + bs.length ≤ BSIZE) {d2 : Disk}
    (hd2 : d2 = update d' (leaf d' (curTop sb d' inum ip') inum (off / BSIZE))
      (ByteMem.put (d' (leaf d' (curTop sb d' inum ip') inum (off / BSIZE))) (off % BSIZE) bs)) :
    Grown sb inum P d ip d2 ip' ∧ (∀ t ks, ks.length = height t → t.1 ≠ inum →
        dataAt d2 (curTop sb d2 inum ip') t ks = dataAt d (curTop sb d inum ip) t ks) ∧
      leaf d2 (curTop sb d2 inum ip') inum (off / BSIZE) ≠ 0 ∧
      ∀ x < MAXFILE * BSIZE, fileByte d2 (curTop sb d2 inum ip') inum x =
        if off ≤ x ∧ x < off + bs.length then bs.getD (x - off) 0
        else fileByte d (curTop sb d inum ip) inum x := by
  have hgrown := h.toGrown.writeLeaf
    (ByteMem.put (d' (leaf d' (curTop sb d' inum ip') inum (off / BSIZE))) (off % BSIZE) bs) hne
  rw [← hd2] at hgrown
  have htop : curTop sb d2 inum ip' = curTop sb d' inum ip' := by
    apply curTop_congr
    intro b hb
    rw [hgrown.low b hb, h.low b hb]
  refine ⟨hgrown, ?_, ?_, ?_⟩
  · intro t ks hv ht
    rw [htop, hd2, dataAt_writeLeaf_other _ h.consistent hne hv ht, h.data t ks hv]
  · rw [htop, hd2]
    unfold leaf
    rw [h.consistent.val_writeLeaf _ (place_leaf ..) (le_of_eq (place_leaf ..))]
    exact hne
  · intro x hx
    rw [htop, hd2, fileByte_put h.consistent hoff hne hlen hx]
    unfold fileByte
    rw [h.data _ _ (place_leaf ..)]

theorem writeLoop_spec (src : Nat → Option UInt8) (s : Nat) {off rem : Nat} {ip : Inode}
    {fs : Image}
    (h : Consistent sb fs.disk (curTop sb fs.disk inum ip)) (hmax : off + rem ≤ MAXFILE * BSIZE) :
    Ends (fun r => Wrote sb inum src s off rem fs.disk ip r.1 r.2.2.disk r.2.1)
      (Lacks sb (touched inum off rem) fs.disk (curTop sb fs.disk inum ip))
      (writeLoop sb src s off rem ip fs) := by
  induction rem using Nat.strong_induction_on generalizing s off ip fs with
  | _ rem ih =>
    rw [writeLoop]
    split
    · rename_i hzero
      subst hzero
      refine ⟨Grown.refl h _, fun _ _ _ _ => rfl, ⟨le_rfl, le_rfl⟩, ?_, ?_⟩
      · intro x hx hx'
        exact absurd hx' (not_lt.mpr hx)
      · intro _
        refine ⟨rfl, fun x _ => (if_neg ?_).symm⟩
        omega
    · rename_i hrem
      have hoff : off < MAXFILE * BSIZE := by omega
      have hbn : off / BSIZE < MAXFILE := Nat.div_lt_of_lt_mul (by rwa [mul_comm])
      have hspec := bmap_spec h hbn
      have hpath := path_subset_touched inum off hrem
      cases hb : bmap sb fs ip (off / BSIZE) with
      | error e =>
        rw [hb] at hspec
        exact Lacks.mono hspec hpath
      | ok r =>
        obtain ⟨addr, ip1, fs1⟩ := r
        rw [hb] at hspec
        simp only [Ends] at hspec
        obtain ⟨hm, rfl, hne⟩ := hspec
        have hlen := readable_length_le src s (chunk off rem)
        have hend := (chunk_end off rem).1
        have hpos := chunk_pos off hrem
        have hle := chunk_le off rem
        obtain ⟨hg, hother, hleaf, hbytes⟩ := hm.store hoff hne
          (readable src s (chunk off rem)) (by omega) rfl
        have hsub : path (place inum (off / BSIZE)) ∪
            touched inum (off + chunk off rem) (rem - chunk off rem) ⊆ touched inum off rem :=
          union_subset hpath (touched_mono (by omega) (by omega))
        simp only
        split
        · rename_i hshort
          refine ⟨hg.mono hpath, hother, ⟨le_rfl, by omega⟩, ?_, ?_⟩
          · intro x hx hx'
            exact absurd hx' (not_lt.mpr hx)
          · intro hall
            have := (readable_all fun i hi => hall i (lt_of_lt_of_le hi hle)).1
            omega
        · rename_i hfull
          refine (ih (rem - chunk off rem) (by omega) _ hg.consistent (by omega)).mono ?_ ?_
          · rintro ⟨off', ip2, fs2⟩ hw
            refine ⟨(hg.trans hw.grown).mono hsub, ?_, ?_, ?_, ?_⟩
            · intro t ks hv ht
              exact (hw.others t ks hv ht).trans (hother t ks hv ht)
            · have := hw.ends
              omega
            · intro x hx hx'
              by_cases hin : x < off + chunk off rem
              · rw [(chunk_block hx hin).1]
                have hkept := hw.grown.kept (le_of_eq (place_leaf inum (off / BSIZE))) hleaf
                unfold leaf at hleaf ⊢
                rwa [hkept]
              · exact hw.filled x (Nat.le_of_not_lt hin) hx'
            · intro hall
              have hread := readable_all fun i hi => hall i (lt_of_lt_of_le hi hle)
              obtain ⟨hoff', hrest⟩ := hw.bytes fun i hi => by
                rw [add_assoc]
                exact hall _ (by omega)
              refine ⟨by omega, fun x hx => ?_⟩
              rw [hrest x hx, disk_logWrite, hbytes x hx, hread.1]
              by_cases hlast : off + chunk off rem ≤ x ∧ x < off + rem
              · rw [if_pos (by omega), if_pos (by omega)]
                congr 2
                omega
              rw [if_neg (by omega)]
              by_cases hfirst : off ≤ x ∧ x < off + chunk off rem
              · rw [if_pos hfirst, if_pos (by omega), hread.2 (x - off) (by omega)]
              · rw [if_neg hfirst, if_neg (by omega)]
          · intro e he
            exact (he.after hg).mono hsub

theorem Wrote.leaf_ne {s off n off' : Nat} {d d' : Disk} {ip ip' : Inode}
    (hw : Wrote sb inum src s off n d ip off' d' ip') (hoff : off ≤ ip.size)
    (hfill : ∀ x < ip.size, leaf d (curTop sb d inum ip) inum (x / BSIZE) ≠ 0) {x : Nat}
    (hx : x < max ip.size off') : leaf d' (curTop sb d' inum ip') inum (x / BSIZE) ≠ 0 := by
  by_cases hold : x < ip.size
  · have hne := hfill x hold
    have hkept := hw.grown.kept (le_of_eq (place_leaf inum (x / BSIZE))) hne
    unfold leaf at hne ⊢
    rwa [hkept]
  · exact hw.filled x (by omega) (by omega)

theorem iupdate_disk (sb : Superblock) (fs : Image) (inum : Nat) (ip : Inode) :
    (iupdate sb fs inum ip).disk = istore sb fs.disk inum ip := rfl

variable {s off n : Nat} {ip : Inode} {fs : Image}

theorem writei_spec (src : Nat → Option UInt8) (s : Nat)
    (h : Consistent sb fs.disk (curTop sb fs.disk inum ip)) (hoff : off ≤ ip.size)
    (hmax : off + n ≤ MAXFILE * BSIZE) (hn : n ≠ 0) :
    Ends (fun r => ∃ off' d' ip', Wrote sb inum src s off n fs.disk ip off' d' ip' ∧
        r.1 = (n : Int) ∧ r.2.1 = { ip' with size := max ip.size off' } ∧
        r.2.2.disk = istore sb d' inum r.2.1)
      (Lacks sb (touched inum off n) fs.disk (curTop sb fs.disk inum ip))
      (writei sb fs inum ip src s off n) := by
  have hlimit : MAXFILE * BSIZE < 2 ^ 32 := by decide
  have hspec := writeLoop_spec src s h hmax
  unfold writei
  rw [Nat.mod_eq_of_lt (by omega), if_neg (by omega), if_neg (by omega)]
  cases hr : writeLoop sb src s off n ip fs with
  | error e =>
    rw [hr] at hspec
    exact hspec
  | ok r =>
    obtain ⟨off', ip', fs'⟩ := r
    rw [hr] at hspec
    simp only [Ends] at hspec
    have hsize : ip'.size = ip.size := by rw [hspec.grown.fields]
    simp only [if_pos (pos_of_ne_zero hn)]
    refine ⟨off', fs'.disk, ip', hspec, rfl, ?_, iupdate_disk ..⟩
    simp only
    split
    · rename_i hgt
      rw [Nat.max_eq_right (by omega)]
    · rename_i hle
      rw [Nat.max_eq_left (by omega), ← hsize]

theorem writei_unchanged (hsize : ip.size ≤ MAXFILE * BSIZE) (hn : n < 2 ^ 32)
    (h : n = 0 ∨ ¬ (off ≤ ip.size ∧ off + n ≤ MAXFILE * BSIZE)) :
    ∃ r, writei sb fs inum ip src s off n = .ok (r, ip, fs) := by
  have hlimit : MAXFILE * BSIZE < 2 ^ 31 := by decide
  unfold writei
  split
  · exact ⟨-1, rfl⟩
  split
  · exact ⟨-1, rfl⟩
  have hzero : n = 0 := by omega
  subst hzero
  rw [writeLoop]
  exact ⟨0, rfl⟩

end Write

/-! ## The loop of `readi` -/

section Read
variable {sb : Superblock} {inum : Nat} {dst : Nat → Bool} {ip : Inode} {fs : Image}

theorem bytes_chunk {d : Disk} {top : Root → Nat} {off rem : Nat}
    (hne : leaf d top inum (off / BSIZE) ≠ 0) :
    ByteMem.bytes (d (leaf d top inum (off / BSIZE))) (off % BSIZE) (chunk off rem) =
      (List.range (chunk off rem)).map fun i => fileByte d top inum (off + i) := by
  unfold ByteMem.bytes
  apply List.map_congr_left
  intro i hi
  obtain ⟨hblk, hmod⟩ := chunk_block (Nat.le_add_right off i)
    (Nat.add_lt_add_left (List.mem_range.mp hi) off)
  rw [← hblk] at hne
  rw [fileByte_of_leaf hne, hblk, hmod, Nat.add_sub_cancel_left]

theorem readLoop_spec (dst : Nat → Bool) (t off : Nat) {rem : Nat} (out : List UInt8)
    (hmax : off + rem ≤ MAXFILE * BSIZE)
    (hfill : ∀ x, off ≤ x → x < off + rem →
      leaf fs.disk (curTop sb fs.disk inum ip) inum (x / BSIZE) ≠ 0) :
    ∃ t' out', readLoop sb dst t off rem out ip fs = .ok (t', out', ip, fs) ∧
      ((∀ i < rem, dst (t + i) = true) → t' = t + rem ∧ out' = out ++ (List.range rem).map fun i =>
          fileByte fs.disk (curTop sb fs.disk inum ip) inum (off + i)) := by
  induction rem using Nat.strong_induction_on generalizing t off out with
  | _ rem ih =>
    rw [readLoop]
    split
    · rename_i hzero
      subst hzero
      exact ⟨t, out, rfl, fun _ => ⟨rfl, (List.append_nil out).symm⟩⟩
    · rename_i hrem
      have hbn : off / BSIZE < MAXFILE := Nat.div_lt_of_lt_mul (by rw [mul_comm]; omega)
      have hne := hfill off le_rfl (by omega)
      have hpos := chunk_pos off hrem
      have hle := chunk_le off rem
      rw [bmap_existing hbn hne]
      simp only
      split
      · rename_i hshort
        refine ⟨_, _, rfl, fun hall => ?_⟩
        rw [writableLen_all fun i hi => hall i (lt_of_lt_of_le hi hle)] at hshort
        exact absurd hshort (lt_irrefl _)
      obtain ⟨t', out', hr, hout⟩ := ih (rem - chunk off rem) (by omega)
        (t + chunk off rem) (off + chunk off rem) _
        (by omega) fun x hx hx' => hfill x (by omega) (by omega)
      refine ⟨t', out', hr, fun hall => ?_⟩
      obtain ⟨ht', hout'⟩ := hout fun i hi => by
        rw [add_assoc]
        exact hall _ (by omega)
      refine ⟨by omega, ?_⟩
      rw [hout', writableLen_all fun i hi => hall i (lt_of_lt_of_le hi hle), bytes_chunk hne,
        List.append_assoc]
      congr 1
      have hsplit : rem = chunk off rem + (rem - chunk off rem) := by omega
      conv_rhs => rw [hsplit, List.range_add, List.map_append, List.map_map]
      simp only [Function.comp_def, add_assoc]

theorem readi_spec (dst : Nat → Bool) {off n : Nat} (hoff : off ≤ ip.size) (hn : off + n < 2 ^ 32)
    (hsize : ip.size ≤ MAXFILE * BSIZE)
    (hfill : ∀ x < ip.size, leaf fs.disk (curTop sb fs.disk inum ip) inum (x / BSIZE) ≠ 0) :
    ∃ t out, readi sb fs ip dst off n = .ok (t, out, ip, fs) ∧
      ((∀ i < n, dst i = true) → t = min n (ip.size - off) ∧
        out = (List.range (min n (ip.size - off))).map fun i =>
          fileByte fs.disk (curTop sb fs.disk inum ip) inum (off + i)) := by
  have hmin : (if off + n > ip.size then ip.size - off else n) = min n (ip.size - off) := by
    split <;> omega
  unfold readi
  rw [Nat.mod_eq_of_lt hn, if_neg (by omega)]
  simp only [hmin]
  have hmax : off + min n (ip.size - off) ≤ MAXFILE * BSIZE := by omega
  obtain ⟨t, out, hr, hout⟩ := readLoop_spec dst 0 off [] hmax fun x _ hx => hfill x (by omega)
  refine ⟨t, out, hr, fun hall => ?_⟩
  obtain ⟨ht, hbytes⟩ := hout fun i hi => hall _ (by omega)
  exact ⟨by omega, hbytes⟩

theorem readi_unchanged (dst : Nat → Bool) {off n : Nat} (hoff : off < 2 ^ 32) (hn : n < 2 ^ 32)
    (hsize : ip.size ≤ MAXFILE * BSIZE)
    (hfill : ∀ x < ip.size, leaf fs.disk (curTop sb fs.disk inum ip) inum (x / BSIZE) ≠ 0) :
    ∃ t out, readi sb fs ip dst off n = .ok (t, out, ip, fs) := by
  by_cases hrej : off > ip.size ∨ (off + n) % 2 ^ 32 < off
  · exact ⟨0, [], if_pos hrej⟩
  have hsum : off + n < 2 ^ 32 := by omega
  obtain ⟨t, out, hr, _⟩ := readi_spec dst (by omega) hsum hsize hfill
  exact ⟨t, out, hr⟩

end Read

end BirdOS.Fs
