import BirdOS.Fs.Journal

/-! # What `commit` and `recover_from_log` do to the disk

The functions of `log.c` seen from the inside, as if nothing else ran: the logger's two
buffers, the disk, and the blocks whose pins it has to drop.  `Safe` says that whatever the
statements to come do, the disk stands for the durable groups after each one of them. -/

namespace BirdOS.Journal

open Bio Fs Function List

variable {blk : Nat}

section Holds
variable (sb : Superblock)

/-- The disk has header `bs`, and recovery would make its home blocks equal to `C`. -/
structure Holds (D : Disk) (bs : List Nat) (C : Disk) : Prop where
  header : getHeader (D sb.logstart) = bs
  nodup : bs.Nodup
  home : ∀ blk ∈ bs, Home sb blk ∧ blk < 2 ^ 32
  fits : bs.length < sb.nlog
  rest : ∀ blk, Home sb blk → blk ∉ bs → D blk = C blk
  slot : ∀ i blk, bs[i]? = some blk → D (sb.logstart + i + 1) = C blk

variable {sb}

theorem nlog_lt (sb : Superblock) : sb.logstart + sb.nlog < 2 ^ 31 := by
  have := sb.inode_le
  have := sb.bmap_le
  have := sb.data_le
  have := sb.size_lt
  have := Nat.zero_le (sb.ninodes / IPB)
  have := Nat.zero_le (sb.size / BPB)
  omega

variable {i : Nat}

theorem slot_notHome (hi : i + 1 < sb.nlog) : ¬ Home sb (sb.logstart + i + 1) := by
  unfold Home
  omega

theorem Home.ne_slot (h : Home sb blk) (hi : i + 1 < sb.nlog) :
    blk ≠ sb.logstart + i + 1 := fun e => slot_notHome hi (e ▸ h)

theorem logstart_notHome (h : 0 < sb.nlog) : ¬ Home sb sb.logstart := by
  unfold Home
  omega

theorem Home.ne_logstart (h : Home sb blk) (hlog : 0 < sb.nlog) :
    blk ≠ sb.logstart := fun e => logstart_notHome hlog (e ▸ h)

theorem Holds.nlog_pos {D C : Disk} {bs : List Nat} (h : Holds sb D bs C) : 0 < sb.nlog := by
  have := h.fits
  omega

variable {D C : Disk} {bs : List Nat}

theorem Holds.writeSlot (h : Holds sb D [] C) (hi : i + 1 < sb.nlog) (v : Block) :
    Holds sb (update D (sb.logstart + i + 1) v) [] C where
  header := by
    rw [update_of_ne (by omega)]
    exact h.header
  nodup := h.nodup
  home := h.home
  fits := h.fits
  rest := by
    intro blk hb hnot
    rw [update_of_ne (hb.ne_slot hi)]
    exact h.rest blk hb hnot
  slot := by simp

theorem Holds.writeHead (h : Holds sb D [] C) (C' : Disk) (hnodup : bs.Nodup)
    (hhome : ∀ blk ∈ bs, Home sb blk ∧ blk < 2 ^ 32) (hfits : bs.length < sb.nlog)
    (hrest : ∀ blk, Home sb blk → blk ∉ bs → C' blk = C blk)
    (hslot : ∀ i blk, bs[i]? = some blk → D (sb.logstart + i + 1) = C' blk) (B : Block) :
    Holds sb (update D sb.logstart (putHeader B bs)) bs C' where
  header := by
    rw [update_self]
    refine getHeader_putHeader B ?_ fun blk hb => (hhome blk hb).2
    have := nlog_lt sb
    omega
  nodup := hnodup
  home := hhome
  fits := hfits
  rest := by
    intro blk hb hnot
    rw [update_of_ne (hb.ne_logstart h.nlog_pos), hrest blk hb hnot]
    exact h.rest blk hb (by simp)
  slot := by
    intro i blk hi
    rw [update_of_ne (by omega)]
    exact hslot i blk hi

theorem Holds.install (h : Holds sb D bs C) (hb : blk ∈ bs) (v : Block) :
    Holds sb (update D blk v) bs C := by
  have hhome := (h.home blk hb).1
  refine ⟨?_, h.nodup, h.home, h.fits, ?_, ?_⟩
  · rw [update_of_ne (Ne.symm (hhome.ne_logstart h.nlog_pos))]
    exact h.header
  · intro x hx hnot
    have hne : x ≠ blk := fun e => hnot (e ▸ hb)
    rw [update_of_ne hne]
    exact h.rest x hx hnot
  · intro i x hi
    have hlt : i < bs.length := (List.getElem?_eq_some_iff.mp hi).1
    have hfits := h.fits
    rw [update_of_ne (Ne.symm (hhome.ne_slot (by omega)))]
    exact h.slot i x hi

theorem Holds.eraseHead (h : Holds sb D bs C) (hall : ∀ blk, Home sb blk → D blk = C blk)
    (B : Block) : Holds sb (update D sb.logstart (putHeader B [])) [] C where
  header := by
    rw [update_self]
    exact getHeader_putHeader B (by simp) (by simp)
  nodup := nodup_nil
  home := by simp
  fits := h.nlog_pos
  rest := by
    intro blk hb _
    rw [update_of_ne (hb.ne_logstart h.nlog_pos)]
    exact hall blk hb
  slot := by simp

/-- A header as `write_head` makes them. -/
structure HeaderOk (sb : Superblock) (bs : List Nat) : Prop where
  nodup : bs.Nodup
  home : ∀ blk ∈ bs, Home sb blk ∧ blk < 2 ^ 32
  fits : bs.length < sb.nlog

theorem holds_installed (D : Disk) (h : HeaderOk sb (getHeader (D sb.logstart))) :
    Holds sb D (getHeader (D sb.logstart)) (installed sb D) where
  header := rfl
  nodup := h.nodup
  home := h.home
  fits := h.fits
  rest := by
    intro blk _ hnot
    exact (if_neg hnot).symm
  slot := by
    intro i blk hi
    obtain ⟨hlt, rfl⟩ := List.getElem?_eq_some_iff.mp hi
    unfold installed
    rw [if_pos (List.getElem_mem hlt), h.nodup.idxOf_getElem i hlt]

end Holds

/-! ## The logger on its own -/

/-- The disk, the logger's buffers, `log.lh`, the durable groups, the blocks still pinned and
those that recovery has unpinned without a pin. -/
structure Hand where
  disk : Disk
  log : Option (Nat × Block)
  home : Option (Nat × Block)
  block : List Nat
  durable : Nat
  plus : List Nat
  minus : List Nat

namespace Hand

def reg (h : Hand) : Reg → Option (Nat × Block)
  | .log => h.log
  | .home => h.home

def setReg (h : Hand) (r : Reg) (x : Option (Nat × Block)) : Hand :=
  match r with
  | .log => { h with log := x }
  | .home => { h with home := x }

def loaded (h : Hand) : Nat := h.log.toList.length + h.home.toList.length

def write (h : Hand) (sb : Superblock) (H : History) (x : Nat × Block) : Hand :=
  { h with
    disk := update h.disk x.1 x.2
    durable := if x.1 = sb.logstart ∧ h.block ≠ [] then H.groups.length else h.durable }

def unpin (h : Hand) (live : Bool) (blk : Nat) : Hand :=
  if live then { h with plus := h.plus.erase blk } else { h with minus := blk :: h.minus }

end Hand

section Safe
variable (sb : Superblock) (live : Bool) (H : History)

/-- What `bread` gives: the current contents of a home block, at boot those of the disk. -/
def seen (D : Disk) : Disk := fun blk => if live = true ∧ Home sb blk then H.current blk else D blk

structure Sound (D : Disk) (durable : Nat) (plus : List Nat) : Prop where
  holds : ∃ bs, Holds sb D bs (H.contents durable)
  settled : live = true → ∀ blk, Home sb blk → blk ∉ plus → D blk = H.current blk

/-- Every statement finds what it needs, and the disk is sound before each and at the end. -/
inductive Safe (post : Hand → Prop) : List Instr → Hand → Prop
  | done {h : Hand} (sound : Sound sb live H h.disk h.durable h.plus) (last : post h) :
      Safe post [] h
  | bread {h : Hand} {r : Reg} {blk : Nat} {c : List Instr}
      (sound : Sound sb live H h.disk h.durable h.plus) (free : h.reg r = none)
      (small : blk < 2 ^ 32) (fresh : blk ∉ h.minus)
      (others : ∀ r' x, h.reg r' = some x → x.1 ∉ h.minus ∧ x.1 ≠ blk)
      (room : live = false →
        h.plus = [] ∧ (sb.nlog ≤ LOGSIZE → h.minus.length + h.loaded < NBUF))
      (rest : Safe post c (h.setReg r (some (blk, seen sb live H h.disk blk)))) :
      Safe post (.bread r blk :: c) h
  | memmove {h : Hand} {dst src : Reg} {x y : Nat × Block} {c : List Instr}
      (sound : Sound sb live H h.disk h.durable h.plus) (hdst : h.reg dst = some x)
      (hsrc : h.reg src = some y) (rest : Safe post c (h.setReg dst (some (x.1, y.2)))) :
      Safe post (.memmove dst src :: c) h
  | bwrite {h : Hand} {r : Reg} {x : Nat × Block} {c : List Instr}
      (sound : Sound sb live H h.disk h.durable h.plus) (hr : h.reg r = some x)
      (rest : Safe post c (h.write sb H x)) : Safe post (.bwrite r :: c) h
  | bunpin {h : Hand} {r : Reg} {x : Nat × Block} {c : List Instr}
      (sound : Sound sb live H h.disk h.durable h.plus) (hr : h.reg r = some x)
      (home : Home sb x.1) (pinned : live = true → x.1 ∈ h.plus)
      (unpinned : live = false → x.1 ∉ h.plus) (once : x.1 ∉ h.minus)
        (rest : Safe post c (h.unpin live x.1)) :
      Safe post (.bunpin r :: c) h
  | brelse {h : Hand} {r : Reg} {x : Nat × Block} {c : List Instr}
      (sound : Sound sb live H h.disk h.durable h.plus) (hr : h.reg r = some x)
      (same : x.2 = seen sb live H h.disk x.1) (rest : Safe post c (h.setReg r none)) :
      Safe post (.brelse r :: c) h
  | getHead {h : Hand} {x : Nat × Block} {c : List Instr}
      (sound : Sound sb live H h.disk h.durable h.plus) (hr : h.log = some x)
      (rest : Safe post c { h with block := getHeader x.2 }) : Safe post (.getHead :: c) h
  | putHead {h : Hand} {x : Nat × Block} {c : List Instr}
      (sound : Sound sb live H h.disk h.durable h.plus) (hr : h.log = some x)
      (rest : Safe post c { h with log := some (x.1, putHeader x.2 h.block) }) :
      Safe post (.putHead :: c) h
  | clear {h : Hand} {c : List Instr} (sound : Sound sb live H h.disk h.durable h.plus)
      (rest : Safe post c { h with block := [] }) : Safe post (.clear :: c) h

variable {sb live H}

theorem seen_of_notHome {D : Disk} (h : ¬ Home sb blk) : seen sb live H D blk = D blk :=
  if_neg fun hl => h hl.2

theorem seen_of_boot {D : Disk} : seen sb false H D blk = D blk :=
  if_neg fun hl => Bool.false_ne_true hl.1

theorem seen_of_live {D : Disk} (h : Home sb blk) :
    seen sb true H D blk = H.current blk := if_pos ⟨rfl, h⟩

theorem Safe.sound {post : Hand → Prop} {c : List Instr} {h : Hand} (hs : Safe sb live H post c h) :
    Sound sb live H h.disk h.durable h.plus := by
  cases hs <;> assumption

theorem write_other {h : Hand} {x : Nat × Block} (hx : x.1 ≠ sb.logstart) :
    h.write sb H x = { h with disk := update h.disk x.1 x.2 } := by
  unfold Hand.write
  rw [if_neg fun hl => hx hl.1]

/-! ## `write_log` -/

section WriteLog
variable {post : Hand → Prop} {c : List Instr} {block plus minus : List Nat} {k : Nat}

theorem safe_writeLog : ∀ (bs : List Nat) (i : Nat) (D : Disk),
    Sound sb true H D k plus → Holds sb D [] (H.contents k) → i + bs.length < sb.nlog →
    (∀ blk ∈ bs, Home sb blk ∧ blk < 2 ^ 32 ∧ blk ∉ minus) → (∀ blk ∈ minus, Home sb blk) →
    (∀ D', (∀ x, (∀ j, j < bs.length → x ≠ sb.logstart + (i + j) + 1) → D' x = D x) →
      (∀ j blk, bs[j]? = some blk → D' (sb.logstart + (i + j) + 1) = H.current blk) →
      Sound sb true H D' k plus → Holds sb D' [] (H.contents k) →
      Safe sb true H post c ⟨D', none, none, block, k, plus, minus⟩) →
    Safe sb true H post (writeLogCode sb i bs ++ c) ⟨D, none, none, block, k, plus, minus⟩ := by
  intro bs
  induction bs with
  | nil =>
    intro i D hs hholds _ _ _ hrest
    exact hrest D (fun _ _ => rfl) (by simp) hs hholds
  | cons blk bs ih =>
    intro i D hs hholds hfits hbs hminus hrest
    obtain ⟨hhome, hsmall, hfresh⟩ := hbs blk (mem_cons_self ..)
    have hlen : i + (bs.length + 1) < sb.nlog := hfits
    have hslot : i + 1 < sb.nlog := by omega
    have hin := nlog_lt sb
    have hslotFresh : sb.logstart + i + 1 ∉ minus := fun h => slot_notHome hslot (hminus _ h)
    let D' := update D (sb.logstart + i + 1) (H.current blk)
    have hholds' : Holds sb D' [] (H.contents k) := hholds.writeSlot hslot _
    have hs' : Sound sb true H D' k plus := by
      refine ⟨⟨[], hholds'⟩, ?_⟩
      intro hl x hx hxp
      rw [show D' x = D x from update_of_ne (hx.ne_slot hslot) _ _]
      exact hs.settled hl x hx hxp
    refine .bread hs rfl (by omega) hslotFresh ?_ (fun h => by cases h) ?_
    · intro r' x hx
      cases r' <;> cases hx
    refine .bread hs rfl hsmall hfresh ?_ (fun h => by cases h) ?_
    · intro r' x hx
      cases r' <;> cases hx
      exact ⟨hslotFresh, Ne.symm (hhome.ne_slot hslot)⟩
    refine .memmove hs rfl rfl (.bwrite hs rfl ?_)
    rw [write_other (by simp only; omega)]
    simp only [Hand.setReg, seen_of_live hhome]
    refine .brelse hs' rfl (seen_of_live hhome).symm ?_
    refine .brelse hs' rfl ?_ ?_
    · rw [seen_of_notHome (slot_notHome hslot)]
      exact (update_self (sb.logstart + i + 1) (H.current blk) D).symm
    refine ih (i + 1) D' hs' hholds' (by omega)
      (fun x hx => hbs x (mem_cons_of_mem _ hx)) hminus ?_
    intro D'' hother hcopy hs'' hholds''
    refine hrest D'' ?_ ?_ hs'' hholds''
    · intro x hx
      have hx0 : x ≠ sb.logstart + i + 1 := hx 0 (by simp)
      have hkeep : D'' x = D' x := by
        refine hother x fun j hj => ?_
        have := hx (j + 1) (by simpa using hj)
        omega
      rw [hkeep]
      exact update_of_ne hx0 _ D
    · intro j x hj
      cases j with
      | zero =>
        cases hj
        rw [hother _ fun j hj => by omega]
        exact update_self ..
      | succ j =>
        rw [show i + (j + 1) = i + 1 + j by omega]
        exact hcopy j x (by simpa using hj)

end WriteLog

/-! ## `write_head`, `read_head` and `install_trans` -/

section Head
variable {post : Hand → Prop} {c : List Instr} {D : Disk} {block plus minus : List Nat} {k : Nat}

theorem safe_writeHead (hs : Sound sb live H D k plus) (hlog : 0 < sb.nlog)
    (hminus : ∀ blk ∈ minus, Home sb blk)
    (hroom : live = false → plus = [] ∧ (sb.nlog ≤ LOGSIZE → minus.length < NBUF))
    (hrest : Safe sb live H post c ⟨update D sb.logstart (putHeader (D sb.logstart) block), none,
      none, block, if block ≠ [] then H.groups.length else k, plus, minus⟩) :
    Safe sb live H post (writeHeadCode sb ++ c) ⟨D, none, none, block, k, plus, minus⟩ := by
  have hin := nlog_lt sb
  have hnot := logstart_notHome hlog
  refine .bread hs rfl (by omega) (fun h => hnot (hminus _ h)) ?_ hroom ?_
  · intro r' x hx
    cases r' <;> cases hx
  simp only [Hand.setReg, seen_of_notHome hnot]
  refine .putHead hs rfl (.bwrite hs rfl ?_)
  simp only [Hand.write, true_and]
  refine .brelse hrest.sound rfl ?_ hrest
  rw [seen_of_notHome hnot]
  exact (update_self sb.logstart _ D).symm

theorem safe_readHead (hs : Sound sb live H D k plus) (hlog : 0 < sb.nlog)
    (hminus : ∀ blk ∈ minus, Home sb blk)
    (hroom : live = false → plus = [] ∧ (sb.nlog ≤ LOGSIZE → minus.length < NBUF))
    (hrest : Safe sb live H post c
      ⟨D, none, none, getHeader (D sb.logstart), k, plus, minus⟩) :
    Safe sb live H post (readHeadCode sb ++ c) ⟨D, none, none, block, k, plus, minus⟩ := by
  have hin := nlog_lt sb
  have hnot := logstart_notHome hlog
  refine .bread hs rfl (by omega) (fun h => hnot (hminus _ h)) ?_ hroom ?_
  · intro r' x hx
    cases r' <;> cases hx
  simp only [Hand.setReg, seen_of_notHome hnot]
  refine .getHead hs rfl (.brelse hs rfl ?_ hrest)
  exact (seen_of_notHome hnot).symm

def stillPinned (live : Bool) (bs : List Nat) : List Nat := if live then bs else []

theorem unpin_stillPinned (D : Disk) (l h : Option (Nat × Block)) (k blk : Nat)
    (block rest minus : List Nat) :
    (Hand.mk D l h block k (stillPinned live (blk :: rest)) minus).unpin live blk =
      ⟨D, l, h, block, k, stillPinned live rest, if live then minus else blk :: minus⟩ := by
  cases live <;> simp [Hand.unpin, stillPinned]

/-- It drops the pins of a commit, and in a recovery, where there are none, it drops them too. -/
theorem safe_installTrans {bs : List Nat}
    (hcur : live = true → ∀ blk, Home sb blk → H.current blk = H.contents k blk) :
    ∀ (rest : List Nat) (i : Nat) (D : Disk) (minus : List Nat),
    Sound sb live H D k (stillPinned live rest) → Holds sb D bs (H.contents k) →
    i + rest.length = bs.length → (∀ j, rest[j]? = bs[i + j]?) →
    (∀ blk ∈ rest, blk ∉ minus) → (∀ blk ∈ minus, Home sb blk) → (live = false → minus.length = i) →
    (∀ D' minus', (∀ x, x ∉ rest → D' x = D x) → (∀ x ∈ rest, D' x = H.contents k x) →
      (minus' = if live then minus else rest.reverse ++ minus) →
      Sound sb live H D' k [] → Holds sb D' bs (H.contents k) →
      Safe sb live H post c ⟨D', none, none, block, k, [], minus'⟩) →
    Safe sb live H post (installTransCode sb i rest ++ c)
      ⟨D, none, none, block, k, stillPinned live rest, minus⟩ := by
  intro rest
  induction rest with
  | nil =>
    intro i D minus hs hholds _ _ _ _ _ hrest
    have hnone : stillPinned live [] = [] := by simp [stillPinned]
    rw [hnone] at hs ⊢
    exact hrest D minus (fun _ _ => rfl) (by simp) (by simp) hs hholds
  | cons blk rest ih =>
    intro i D minus hs hholds hlen hbs hfresh hminus hi hrest
    have hlen' : i + (rest.length + 1) = bs.length := hlen
    have hget : bs[i]? = some blk := (hbs 0).symm
    have hmem : blk ∈ bs := mem_of_getElem? hget
    obtain ⟨hhome, hsmall⟩ := hholds.home blk hmem
    have hfits := hholds.fits
    have hslot : i + 1 < sb.nlog := by omega
    have hin := nlog_lt sb
    have hslotFresh : sb.logstart + i + 1 ∉ minus := fun h => slot_notHome hslot (hminus _ h)
    have hblk : blk ∉ minus := hfresh blk (mem_cons_self ..)
    have hnotin : blk ∉ rest := by
      intro hm
      obtain ⟨j, hj⟩ := mem_iff_getElem?.mp hm
      have hj' : bs[i + (j + 1)]? = some blk := (hbs (j + 1)).symm.trans hj
      have := (getElem?_inj (by omega) hholds.nodup).mp (hget.trans hj'.symm)
      omega
    have hvalue : D (sb.logstart + i + 1) = H.contents k blk := hholds.slot i blk hget
    let D' := update D blk (D (sb.logstart + i + 1))
    have hholds' : Holds sb D' bs (H.contents k) := hholds.install hmem _
    have hself : D' blk = H.contents k blk := (update_self ..).trans hvalue
    have hother (x : Nat) (hx : x ≠ blk) : D' x = D x := update_of_ne hx _ D
    have hs' (P : List Nat) (hP : live = true → ∀ x, x ∉ P → x ∉ blk :: rest ∨ x = blk) :
        Sound sb live H D' k P := by
      refine ⟨⟨bs, hholds'⟩, ?_⟩
      intro hl x hx hxp
      obtain rfl | hxb := eq_or_ne x blk
      · rw [hself, hcur hl x hx]
      rw [hother x hxb]
      refine hs.settled hl x hx ?_
      rw [stillPinned, if_pos hl]
      exact (hP hl x hxp).resolve_right hxb
    have hroom : live = false → stillPinned live (blk :: rest) = [] ∧
        (sb.nlog ≤ LOGSIZE → minus.length + 1 < NBUF) := by
      intro hl
      refine ⟨by simp [stillPinned, hl], ?_⟩
      intro hn
      rw [hi hl]
      have : LOGSIZE = NBUF := rfl
      omega
    refine .bread hs rfl (by omega) hslotFresh ?_ ?_ ?_
    · intro r' x hx
      cases r' <;> cases hx
    · exact fun hl => ⟨(hroom hl).1, fun hn => Nat.lt_of_succ_lt ((hroom hl).2 hn)⟩
    refine .bread hs rfl hsmall hblk ?_ hroom ?_
    · intro r' x hx
      cases r' <;> cases hx
      exact ⟨hslotFresh, Ne.symm (hhome.ne_slot hslot)⟩
    refine .memmove hs rfl rfl (.bwrite hs rfl ?_)
    rw [write_other (hhome.ne_logstart hholds.nlog_pos)]
    simp only [Hand.setReg, seen_of_notHome (slot_notHome hslot)]
    refine .bunpin (hs' _ ?_) rfl hhome ?_ ?_ hblk ?_
    · intro hl x hx
      rw [stillPinned, if_pos hl] at hx
      exact .inl hx
    · intro hl
      simp [stillPinned, hl]
    · intro hl
      simp [stillPinned, hl]
    rw [unpin_stillPinned]
    have hs'' : Sound sb live H D' k (stillPinned live rest) := by
      refine hs' _ ?_
      intro hl x hx
      rw [stillPinned, if_pos hl] at hx
      by_cases hxb : x = blk
      · exact .inr hxb
      · exact .inl (by simp [hxb, hx])
    refine .brelse hs'' rfl ?_ (.brelse hs'' rfl ?_ ?_)
    · rw [seen_of_notHome (slot_notHome hslot)]
      exact (hother _ (Ne.symm (hhome.ne_slot hslot))).symm
    · cases live with
      | true => exact hvalue.trans ((hcur rfl blk hhome).symm.trans (seen_of_live hhome).symm)
      | false => exact hvalue.trans (hself.symm.trans seen_of_boot.symm)
    refine ih (i + 1) D' (if live then minus else blk :: minus) hs'' hholds'
      (by omega) ?_ ?_ ?_ ?_ ?_
    · intro j
      rw [show i + 1 + j = i + (j + 1) by omega]
      exact hbs (j + 1)
    · intro x hx hxm
      cases live with
      | true => exact hfresh x (mem_cons_of_mem _ hx) hxm
      | false =>
        rcases mem_cons.mp hxm with rfl | hxm
        · exact hnotin hx
        · exact hfresh x (mem_cons_of_mem _ hx) hxm
    · intro x hxm
      cases live with
      | true => exact hminus x hxm
      | false =>
        rcases mem_cons.mp hxm with rfl | hxm
        · exact hhome
        · exact hminus x hxm
    · intro hl
      subst hl
      exact congrArg (· + 1) (hi rfl)
    · intro D'' minus' hkeep hnew hm hs3 hholds3
      refine hrest D'' minus' ?_ ?_ ?_ hs3 hholds3
      · intro x hx
        rw [mem_cons, not_or] at hx
        rw [hkeep x hx.2]
        exact hother x hx.1
      · intro x hx
        rcases mem_cons.mp hx with rfl | hx
        · rw [hkeep x hnotin]
          exact hself
        · exact hnew x hx
      · cases live <;> simp [hm]

end Head

/-! ## Whole functions -/

def Post (sb : Superblock) (H : History) (next : Next) (h : Hand) : Prop :=
  h.log = none ∧ h.home = none ∧ h.plus = [] ∧ h.durable = H.groups.length ∧
    match next with
    | .recover => h.minus = [] ∧ h.block = getHeader (h.disk sb.logstart)
    | .booted | .finish => h.block = [] ∧ getHeader (h.disk sb.logstart) = []

section Functions
variable {D : Disk} {block minus : List Nat} {k : Nat} {next : Next}

theorem safe_installAndErase {bs : List Nat} (hnext : next ≠ .recover)
    (hcur : live = true → ∀ blk, Home sb blk → H.current blk = H.contents H.groups.length blk)
    (hs : Sound sb live H D H.groups.length (stillPinned live bs))
    (hholds : Holds sb D bs (H.contents H.groups.length)) (hfresh : ∀ blk ∈ bs, blk ∉ minus)
    (hminus : ∀ blk ∈ minus, Home sb blk) (hnone : live = false → minus = []) :
    Safe sb live H (Post sb H next) (installTransCode sb 0 bs ++ (.clear :: writeHeadCode sb))
      ⟨D, none, none, block, H.groups.length, stillPinned live bs, minus⟩ := by
  refine safe_installTrans hcur bs 0 D minus hs hholds (Nat.zero_add _) (by simp) hfresh hminus
    (fun hl => by rw [hnone hl]; rfl) ?_
  intro D' minus' hkeep hnew hm hs' hholds'
  have hall : ∀ blk, Home sb blk → D' blk = H.contents H.groups.length blk := by
    intro blk hb
    by_cases hmem : blk ∈ bs
    · exact hnew blk hmem
    · rw [hkeep blk hmem]
      exact hholds.rest blk hb hmem
  have hend := hholds'.eraseHead hall (D' sb.logstart)
  refine .clear hs' ?_
  rw [← append_nil (writeHeadCode sb)]
  refine safe_writeHead hs' hholds.nlog_pos ?_ ?_ (.done ⟨⟨[], hend⟩, ?_⟩ ?_)
  · intro blk hb
    rw [hm] at hb
    split at hb
    · exact hminus blk hb
    rcases mem_append.mp hb with hb | hb
    · exact (hholds.home blk (mem_reverse.mp hb)).1
    · exact hminus blk hb
  · intro hl
    refine ⟨rfl, ?_⟩
    intro hn
    have hfits := hholds.fits
    have hsize : LOGSIZE = NBUF := rfl
    rw [hm, hl, hnone hl]
    simp only [Bool.false_eq_true, if_false, append_nil, length_reverse]
    omega
  · intro hl blk hb _
    rw [hcur hl blk hb]
    exact hend.rest blk hb (by simp)
  · refine ⟨rfl, rfl, rfl, rfl, ?_⟩
    cases next with
    | recover => exact absurd rfl hnext
    | booted | finish => exact ⟨rfl, hend.header⟩

theorem safe_recover {bs : List Nat} (hs : Sound sb false H D H.groups.length [])
    (hholds : Holds sb D bs (H.contents H.groups.length)) :
    Safe sb false H (Post sb H .booted) (recoverCode sb bs)
      ⟨D, none, none, bs, H.groups.length, [], []⟩ :=
  safe_installAndErase (by decide) (fun h => by cases h) hs hholds (by simp)
    (by simp) (fun _ => rfl)

theorem safe_boot (hs : Sound sb false H D H.groups.length []) :
    Safe sb false H (Post sb H .recover) (bootCode sb)
      ⟨D, none, none, [], H.groups.length, [], []⟩ := by
  obtain ⟨bs, hholds⟩ := hs.holds
  have hroom : 0 < NBUF := by decide
  have hnone : ∀ blk ∈ ([] : List Nat), Home sb blk := by simp
  refine .bread hs rfl (by decide) (by simp) ?_ (fun _ => ⟨rfl, fun _ => hroom⟩) ?_
  · intro r' x hx
    cases r' <;> cases hx
  refine .brelse hs rfl rfl ?_
  rw [← append_nil (readHeadCode sb)]
  refine safe_readHead hs hholds.nlog_pos hnone (fun _ => ⟨rfl, fun _ => hroom⟩) (.done hs ?_)
  exact ⟨rfl, rfl, rfl, rfl, rfl, rfl⟩

theorem safe_commit {bs : List Nat} (hs : Sound sb true H D k bs)
    (hholds : Holds sb D [] (H.contents k)) (hok : HeaderOk sb bs) (hne : bs ≠ [])
    (hcur : ∀ blk, Home sb blk → H.current blk = H.contents H.groups.length blk)
    (hsame : ∀ blk, Home sb blk → blk ∉ bs → H.current blk = H.contents k blk)
    (hfresh : ∀ blk ∈ bs, blk ∉ minus) (hminus : ∀ blk ∈ minus, Home sb blk) :
    Safe sb true H (Post sb H .finish) (commitCode sb bs) ⟨D, none, none, bs, k, bs, minus⟩ := by
  rw [commitCode, if_neg hne]
  refine safe_writeLog bs 0 D hs hholds (by simpa using hok.fits) ?_ hminus ?_
  · intro blk hb
    exact ⟨(hok.home blk hb).1, (hok.home blk hb).2, hfresh blk hb⟩
  intro D' hkeep hcopy hs' hholds'
  have hcommit := hholds'.writeHead (H.contents H.groups.length) hok.nodup hok.home hok.fits
    (fun blk hb hnot => (hcur blk hb).symm.trans (hsame blk hb hnot))
    (fun i blk hi => by
      have := hcopy i blk hi
      rw [Nat.zero_add] at this
      rw [this, hcur blk (hok.home blk (mem_of_getElem? hi)).1])
    (D' sb.logstart)
  have hs'' : Sound sb true H (update D' sb.logstart (putHeader (D' sb.logstart) bs))
      H.groups.length bs := by
    refine ⟨⟨bs, hcommit⟩, ?_⟩
    intro hl blk hb hnot
    rw [update_of_ne (hb.ne_logstart hholds.nlog_pos)]
    exact hs'.settled hl blk hb hnot
  refine safe_writeHead hs' hholds.nlog_pos hminus (fun h => by cases h) ?_
  rw [if_pos hne]
  exact safe_installAndErase (by decide) (fun _ => hcur) hs'' hcommit hfresh hminus
    (fun h => by cases h)

end Functions

end Safe

end BirdOS.Journal
