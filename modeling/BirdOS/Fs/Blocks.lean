import Mathlib.Data.Finset.Card
import BirdOS.Lib.PointerForest
import BirdOS.Lib.Outcome
import BirdOS.Fs.Inode

/-! # The forest of block pointers

The entries `addrs[i]` of all inodes and the entries of their index blocks form a forest.
`Consistent` relates it to the free bitmap.  It is stated for any view `top` of the
entries `addrs`, since during an operation those of the locked inode are in memory. -/

namespace BirdOS.Fs

open PointerForest Outcome Function Finset

abbrev Root := Nat × Fin NADDR

abbrev Key := Fin NINDIRECT

abbrev Place := Root × List Key

def height (t : Root) : Nat := if (t.2 : Nat) < NDIRECT then 0 else t.2 - NDIRECT + 1

def forest (d : Disk) (top : Root → Nat) : PointerForest.Mem Root Key where
  top := top
  word := fun b k => word (d b) k

theorem forest_word (d : Disk) (top : Root → Nat) (b : Nat) (k : Key) :
    (forest d top).word b k = word (d b) k := rfl

/-- Blocks have one place each, in the data area, and the bitmap marks them and those before it. -/
structure Consistent (sb : Superblock) (d : Disk) (top : Root → Nat) : Prop where
  sep : Sep height (forest d top)
  range : ∀ b, Owned height (forest d top) b → sb.datastart ≤ b ∧ b < sb.size
  bitmap : ∀ b < sb.size, used sb d b = true ↔ b < sb.datastart ∨ Owned height (forest d top) b

def freeCount (sb : Superblock) (d : Disk) : Nat :=
  ((range sb.size).filter fun b => used sb d b = false).card

section Frame
variable {sb : Superblock} {d d' : Disk} {top top' : Root → Nat} {t : Root}
  {ks : List Key} {b : Nat}

section
variable (h : Consistent sb d top)
include h

theorem Consistent.bounds (hv : ks.length ≤ height t) (hne : val (forest d top) t ks ≠ 0) :
    sb.datastart ≤ val (forest d top) t ks ∧ val (forest d top) t ks < sb.size :=
  h.range _ (owned_val hv hne)

theorem Consistent.of_val
    (hval : ∀ t ks, ks.length ≤ height t → val (forest d' top') t ks = val (forest d top) t ks)
    (hused : ∀ b < sb.size, used sb d' b = used sb d b) : Consistent sb d' top' where
  sep := h.sep.of_sub fun t ks hv => Or.inr (hval t ks hv)
  range := fun b hb => h.range b ((owned_congr hval).mp hb)
  bitmap := fun b hb => by rw [hused b hb, h.bitmap b hb, owned_congr hval]

theorem Consistent.val_congr (htop : top' t = top t)
    (hd : ∀ b, sb.datastart ≤ b → d' b = d b) (hv : ks.length ≤ height t) :
    val (forest d' top') t ks = val (forest d top) t ks := by
  refine PointerForest.val_congr htop ?_ ks hv
  intro ks k hlt hne
  rw [forest_word, forest_word, hd _ (h.bounds (le_of_lt hlt) hne).1]

theorem Consistent.congr (hd : ∀ b, sb.bmapstart ≤ b → d' b = d b) :
    Consistent sb d' top := by
  have hdata : ∀ b, sb.datastart ≤ b → d' b = d b := by
    intro b hb
    refine hd b (le_trans ?_ hb)
    simp only [Superblock.datastart, BPB, BSIZE]
    omega
  exact h.of_val (fun t ks hv => h.val_congr rfl hdata hv)
    fun b _ => used_congr sb (hd _ (bmapstart_le_bblock sb b))

theorem Consistent.fresh (hb : b < sb.size) (hfree : used sb d b = false) :
    sb.datastart ≤ b ∧ ¬ Owned height (forest d top) b := by
  have hnot : ¬ (b < sb.datastart ∨ Owned height (forest d top) b) := by
    rw [← h.bitmap b hb, hfree]
    exact Bool.false_ne_true
  exact ⟨Nat.le_of_not_lt fun hlt => hnot (Or.inl hlt), fun ho => hnot (Or.inr ho)⟩

end

theorem datastart_pos (sb : Superblock) : 0 < sb.datastart := Nat.succ_pos _

end Frame

/-! ## Allocation -/

section Alloc
variable {sb : Superblock} {d : Disk}

theorem bblock_add {q bi : Nat} (h : bi < BPB) : bblock sb (q * BPB + bi) = bblock sb
    (q * BPB) := by
  simp only [bblock, BPB, BSIZE] at h ⊢
  omega

theorem add_mod_BPB {q bi : Nat} (h : bi < BPB) : (q * BPB + bi) % BPB = bi := by
  simp only [BPB, BSIZE] at h ⊢
  omega

theorem findFree_some {b : Nat} (h : findFree sb d = some b) : b < sb.size ∧
    used sb d b = false := by
  obtain ⟨q, _, hq⟩ := List.exists_of_findSome?_eq_some h
  obtain ⟨bi, hbi, rfl⟩ := Option.map_eq_some_iff.mp hq
  have hmem := List.mem_range.mp (List.mem_of_find?_eq_some hbi)
  have hbit := List.find?_some hbi
  have hlt : bi < BPB := by omega
  refine ⟨by omega, ?_⟩
  unfold used
  rw [bblock_add hlt, add_mod_BPB hlt]
  simpa using hbit

theorem findFree_none (h : findFree sb d = none) {b : Nat} (hb : b < sb.size) :
    used sb d b = true := by
  have hq := List.findSome?_eq_none_iff.mp h (b / BPB)
    (by rw [List.mem_range]; simp only [BPB, BSIZE]; omega)
  rw [Option.map_eq_none_iff, List.find?_eq_none] at hq
  have hbit := hq (b % BPB) (by rw [List.mem_range]; simp only [BPB, BSIZE]; omega)
  have hblk : bblock sb (b / BPB * BPB) = bblock sb b := by
    simp only [bblock, BPB, BSIZE]
    omega
  unfold used
  rw [hblk] at hbit
  simpa using hbit

def marked (sb : Superblock) (d : Disk) (b : Nat) : Disk :=
  update
    (update d (bblock sb b) (setBit (d (bblock sb b)) (b % BPB))) b fun _ => 0

theorem balloc_spec (sb : Superblock) (fs : Image) :
    Ends (fun r => r.1 < sb.size ∧ used sb fs.disk r.1 = false ∧ r.2.disk = marked sb fs.disk r.1)
      (fun e => e = .outOfBlocks ∧ ∀ b < sb.size, used sb fs.disk b = true) (balloc sb fs) := by
  unfold balloc
  split
  · rename_i hnone
    exact ⟨rfl, fun b hb => findFree_none hnone hb⟩
  · rename_i b hsome
    obtain ⟨hb, hfree⟩ := findFree_some hsome
    exact ⟨hb, hfree, rfl⟩

theorem marked_self (sb : Superblock) (d : Disk) (b : Nat) : marked sb d b b = fun _ => 0 :=
  update_self ..

variable {b : Nat}

theorem marked_data (hb : b < sb.size) {x : Nat} (hx : sb.datastart ≤ x) (hne : x ≠ b) :
    marked sb d b x = d x := by
  have := bblock_lt sb hb
  unfold marked
  rw [update_of_ne hne, update_of_ne (by omega)]

theorem marked_low (hd : sb.datastart ≤ b) {x : Nat} (hx : x < sb.bmapstart) :
    marked sb d b x = d x := by
  have := bmapstart_le_bblock sb b
  have : sb.bmapstart ≤ sb.datastart := by
    simp only [Superblock.datastart, BPB, BSIZE]
    omega
  unfold marked
  rw [update_of_ne (by omega), update_of_ne (by omega)]

theorem used_update_data {x v : Nat} (hv : sb.datastart ≤ v) (hx : x < sb.size) (blk : Block) :
    used sb (update d v blk) x = used sb d x := by
  have := bblock_lt sb hx
  exact used_congr sb (update_of_ne (by omega) ..)

theorem used_marked (hd : sb.datastart ≤ b) {x : Nat} (hx : x < sb.size) :
    used sb (marked sb d b) x = (used sb d x || decide (x = b)) := by
  unfold marked
  rw [used_update_data hd hx, used_setBit]

theorem freeCount_alloc {d' : Disk} (hb : b < sb.size) (hfree : used sb d b = false)
    (hused : ∀ x < sb.size, used sb d' x = (used sb d x || decide (x = b))) :
    freeCount sb d' + 1 = freeCount sb d := by
  have herase : (range sb.size).filter (fun x => used sb d' x = false) =
      ((range sb.size).filter fun x => used sb d x = false).erase b := by
    ext x
    simp only [mem_filter, mem_range, mem_erase]
    constructor
    · rintro ⟨hx, hu⟩
      rw [hused x hx, Bool.or_eq_false_iff, decide_eq_false_iff_not] at hu
      exact ⟨hu.2, hx, hu.1⟩
    · rintro ⟨hne, hx, hu⟩
      refine ⟨hx, ?_⟩
      rw [hused x hx, hu, decide_eq_false hne]
      rfl
  unfold freeCount
  rw [herase, card_erase_add_one]
  rw [mem_filter, mem_range]
  exact ⟨hb, hfree⟩

theorem freeCount_full (h : ∀ b < sb.size, used sb d b = true) : freeCount sb d = 0 := by
  unfold freeCount
  rw [card_eq_zero, filter_eq_empty_iff]
  intro x hx
  rw [h x (mem_range.mp hx)]
  exact Bool.true_eq_false_eq_False

end Alloc

/-! ## Setting a pointer -/

section Link
variable {sb : Superblock} {d d' : Disk} {top top' : Root → Nat} {t : Root} {ks : List Key}
  {k : Key} {b : Nat}

theorem Consistent.linked (h : Consistent sb d top) (hb : b < sb.size)
    (hfree : used sb d b = false) (hlink : Linked height (forest d top) (forest d' top') t ks b)
    (hv : ks.length ≤ height t) (hz : val (forest d top) t ks = 0)
    (hused : ∀ x < sb.size, used sb d' x = (used sb d x || decide (x = b))) :
    Consistent sb d' top' := by
  obtain ⟨hdata, hnew⟩ := h.fresh hb hfree
  have hpos := datastart_pos sb
  have howned := hlink.owned_iff hv (by omega) hz
  refine ⟨hlink.sep h.sep hnew, ?_, ?_⟩
  · intro x hx
    rcases (howned x).mp hx with hold | rfl
    · exact h.range x hold
    · exact ⟨hdata, hb⟩
  · intro x hx
    rw [hused x hx, Bool.or_eq_true, decide_eq_true_iff, h.bitmap x hx, howned x, or_assoc]

theorem Consistent.linkTop (h : Consistent sb d top) (hb : b < sb.size)
    (hfree : used sb d b = false) (hz : top t = 0) :
    Linked height (forest d top) (forest (marked sb d b) (update top t b)) t [] b := by
  obtain ⟨hdata, hnew⟩ := h.fresh hb hfree
  have hpos := datastart_pos sb
  refine linked_top (by omega) hz rfl ?_ ?_
  · intro t' ks' k' hlt hne
    have hown := owned_val (le_of_lt hlt) hne
    rw [forest_word, forest_word, marked_data hb (h.range _ hown).1 fun he => hnew (he ▸ hown)]
  · intro k'
    rw [forest_word, marked_self, word_zero]

def entered (sb : Superblock) (d : Disk) (p k b : Nat) : Disk :=
  update (marked sb d b) p (setWord (marked sb d b p) k b)

theorem Consistent.linkWord (h : Consistent sb d top) (hb : b < sb.size)
    (hfree : used sb d b = false) (hv : ks.length < height t) (hp : val (forest d top) t ks ≠ 0)
    (hz : word (d (val (forest d top) t ks)) k = 0) :
    Linked height (forest d top) (forest (entered sb d (val (forest d top) t ks) k b) top)
      t (k :: ks) b := by
  obtain ⟨hdata, hnew⟩ := h.fresh hb hfree
  have hpos := datastart_pos sb
  have hsize := sb.size_lt
  have hown := owned_val (le_of_lt hv) hp
  have hpb : val (forest d top) t ks ≠ b := fun he => hnew (he ▸ hown)
  have hpd := marked_data (d := d) hb (h.range _ hown).1 hpb
  refine linked_word h.sep (by omega) hv hp hz rfl ?_ ?_
  · intro t' ks' k' hlt hne
    have hown' := owned_val (le_of_lt hlt) hne
    have hpb' : val (forest d top) t' ks' ≠ b := fun he => hnew (he ▸ hown')
    rw [forest_word, forest_word, entered]
    by_cases he : val (forest d top) t' ks' = val (forest d top) t ks
    · simp only [he, update_self, true_and]
      rw [word_setWord _ _ (by omega), hpd]
      simp only [Fin.ext_iff]
    · rw [if_neg fun hand => he hand.1, update_of_ne he, marked_data hb (h.range _ hown').1 hpb']
  · intro k'
    rw [forest_word, entered, update_of_ne (Ne.symm hpb), marked_self, word_zero]

theorem used_entered (hd : sb.datastart ≤ b) {p k x : Nat} (hp : sb.datastart ≤ p)
    (hx : x < sb.size) : used sb (entered sb d p k b) x = (used sb d x || decide (x = b)) := by
  unfold entered
  rw [used_update_data hp hx, used_marked hd hx]

end Link

/-! ## Writing a data block -/

/-- The block of a lowest place; zeros where none is allocated. -/
def dataAt (d : Disk) (top : Root → Nat) (t : Root) (ks : List Key) : Block :=
  if val (forest d top) t ks = 0 then fun _ => 0 else d (val (forest d top) t ks)

section Leaf
variable {sb : Superblock} {d : Disk} {top : Root → Nat} {t : Root} {ks : List Key}
  (blk : Block)

theorem Consistent.val_writeLeaf (h : Consistent sb d top) (hv : ks.length = height t)
    {t' : Root} {ks' : List Key} (hv' : ks'.length ≤ height t') :
    val (forest (update d (val (forest d top) t ks) blk) top) t' ks' =
      val (forest d top) t' ks' := by
  refine PointerForest.val_congr ?_ ?_ ks' hv'
  · rfl
  · intro ks1 k hlt hne1
    have hdiff : val (forest d top) t' ks1 ≠ val (forest d top) t ks := by
      intro he
      obtain ⟨ht, hks⟩ := h.sep _ _ _ _ (le_of_lt hlt) (le_of_eq hv) hne1 he
      rw [hks, ht, hv] at hlt
      exact lt_irrefl _ hlt
    rw [forest_word, forest_word, update_of_ne hdiff]

theorem Consistent.writeLeaf (h : Consistent sb d top) (hv : ks.length = height t)
    (hne : val (forest d top) t ks ≠ 0) :
    Consistent sb (update d (val (forest d top) t ks) blk) top := by
  refine h.of_val (fun t' ks' hv' => h.val_writeLeaf blk hv hv') ?_
  intro b hb
  exact used_update_data (h.bounds (le_of_eq hv) hne).1 hb blk

theorem Consistent.dataAt_writeLeaf (h : Consistent sb d top) (hv : ks.length = height t)
    (hne : val (forest d top) t ks ≠ 0) {t' : Root} {ks' : List Key}
      (hv' : ks'.length = height t') :
    dataAt (update d (val (forest d top) t ks) blk) top t' ks' =
      if (t', ks') = (t, ks) then blk else dataAt d top t' ks' := by
  have hval := h.val_writeLeaf blk hv (le_of_eq hv')
  unfold dataAt
  rw [hval]
  by_cases hsame : (t', ks') = (t, ks)
  · rw [if_pos hsame]
    cases hsame
    rw [if_neg hne, update_self]
  rw [if_neg hsame]
  by_cases hz : val (forest d top) t' ks' = 0
  · rw [if_pos hz, if_pos hz]
  rw [if_neg hz, if_neg hz, update_of_ne]
  intro he
  obtain ⟨rfl, rfl⟩ := h.sep _ _ _ _ (le_of_eq hv') (le_of_eq hv) hz he
  exact hsame rfl

end Leaf

end BirdOS.Fs
