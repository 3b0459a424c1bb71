import BirdOS.Fs.Blocks

/-! # `bmap`

`bmap` leads to the block of a file block number and creates what is missing on the way.
`Mapped` says what it may change: the places it fills were null and get blocks of zeros,
so that no byte of any file is seen to change.  It fails only when the bitmap has no room
for the missing places (`Lacks`). -/

namespace BirdOS.Fs

open PointerForest Outcome Function Finset

def diskTop (sb : Superblock) (d : Disk) (t : Root) : Nat :=
  if t.1 < sb.ninodes ∧ (iload sb d t.1).type ≠ 0 then (iload sb d t.1).addrs t.2 else 0

def curTop (sb : Superblock) (d : Disk) (inum : Nat) (ip : Inode) (t : Root) : Nat :=
  if t.1 = inum then ip.addrs t.2 else diskTop sb d t

def key (k : Nat) : Key := ⟨k % NINDIRECT, Nat.mod_lt k (by decide)⟩

def place (inum bn : Nat) : Place :=
  if h : bn < NDIRECT then ((inum, direct bn h), [])
  else if bn - NDIRECT < NINDIRECT then ((inum, single), [key (bn - NDIRECT)])
  else ((inum, double), [key (bn - NDIRECT - NINDIRECT),
    key ((bn - NDIRECT - NINDIRECT) / NINDIRECT)])

def path (p : Place) : Finset Place := p.2.tails.toFinset.image (Prod.mk p.1)

def leaf (d : Disk) (top : Root → Nat) (inum bn : Nat) : Nat :=
  val (forest d top) (place inum bn).1 (place inum bn).2

theorem place_leaf (inum bn : Nat) : (place inum bn).2.length = height (place inum bn).1 := by
  unfold place
  split
  · rename_i h
    exact (if_pos h).symm
  · split <;> rfl

theorem place_root (inum bn : Nat) : (place inum bn).1.1 = inum := by
  unfold place
  split
  · rfl
  · split <;> rfl

def blockNo (p : Place) : Nat :=
  match p.2 with
  | [] => p.1.2
  | [k] => NDIRECT + k
  | j :: k :: _ => NDIRECT + NINDIRECT + (NINDIRECT * k + j)

theorem blockNo_place {inum bn : Nat} (h : bn < MAXFILE) : blockNo (place inum bn) = bn := by
  unfold place
  split
  · rfl
  · rename_i hd
    split
    · rename_i hs
      simp only [blockNo, key, NDIRECT, NINDIRECT, BSIZE] at *
      omega
    · simp only [blockNo, key, NDIRECT, NINDIRECT, NDINDIRECT, MAXFILE, BSIZE] at *
      omega

theorem place_inj {inum bn bn' : Nat} (h : bn < MAXFILE) (h' : bn' < MAXFILE)
    (he : place inum bn = place inum bn') : bn = bn' := by
  rw [← blockNo_place h, he, blockNo_place h']

section Top
variable {sb : Superblock} {d d' : Disk} {inum : Nat} {ip : Inode}

theorem diskTop_congr (hlow : ∀ b < sb.bmapstart, d' b = d b) : diskTop sb d' = diskTop sb d := by
  funext t
  unfold diskTop
  by_cases ht : t.1 < sb.ninodes
  · rw [iload_congr sb (hlow _ (iblock_lt sb ht))]
  · rw [if_neg fun h => ht h.1, if_neg fun h => ht h.1]

theorem curTop_congr (hlow : ∀ b < sb.bmapstart, d' b = d b) :
    curTop sb d' inum ip = curTop sb d inum ip := by
  funext t
  unfold curTop
  rw [diskTop_congr hlow]

theorem curTop_self (i : Fin NADDR) : curTop sb d inum ip (inum, i) = ip.addrs i := if_pos rfl

theorem curTop_other {t : Root} (h : t.1 ≠ inum) : curTop sb d inum ip t =
    diskTop sb d t := if_neg h

theorem curTop_update (i : Fin NADDR) (b : Nat) :
    curTop sb d inum { ip with addrs := update ip.addrs i b } =
      update (curTop sb d inum ip) (inum, i) b := by
  funext t
  obtain ⟨j, s⟩ := t
  obtain rfl | hj := eq_or_ne j inum
  · rw [curTop_self]
    obtain rfl | hs := eq_or_ne s i
    · simp only [update_self]
    have hne : (j, s) ≠ (j, i) := fun he => hs (Prod.mk.inj he).2
    rw [update_of_ne hne, curTop_self]
    exact update_of_ne hs ..
  · have hne : (j, s) ≠ (inum, i) := fun he => hj (Prod.mk.inj he).1
    rw [update_of_ne hne, curTop_other hj, curTop_other hj]

theorem curTop_iload (hin : inum < sb.ninodes) (ht : (iload sb d inum).type ≠ 0) :
    curTop sb d inum (iload sb d inum) = diskTop sb d := by
  funext t
  by_cases h : t.1 = inum
  · obtain ⟨j, s⟩ := t
    subst h
    rw [curTop_self, diskTop, if_pos ⟨hin, ht⟩]
  · exact curTop_other h

end Top

/-! ## Filling null places -/

structure Grows (sb : Superblock) (L : Finset Place) (d : Disk) (top : Root → Nat) (d' : Disk)
    (top' : Root → Nat) : Prop where
  old : ∀ t ks, ks.length ≤ height t → (t, ks) ∉ L →
    val (forest d' top') t ks = val (forest d top) t ks
  new : ∀ t ks, (t, ks) ∈ L →
    ks.length ≤ height t ∧ val (forest d top) t ks = 0 ∧ val (forest d' top') t ks ≠ 0
  low : ∀ b < sb.bmapstart, d' b = d b
  free : freeCount sb d' + L.card = freeCount sb d

def missing (M : Finset Place) (d : Disk) (top : Root → Nat) : Finset Place :=
  M.filter fun p => p.2.length ≤ height p.1 ∧ val (forest d top) p.1 p.2 = 0

def Room (sb : Superblock) (M : Finset Place) (d : Disk) (top : Root → Nat) : Prop :=
  (missing M d top).card ≤ freeCount sb d

instance (sb : Superblock) (M : Finset Place) (d : Disk) (top : Root → Nat) :
    Decidable (Room sb M d top) :=
  inferInstanceAs (Decidable ((missing M d top).card ≤ freeCount sb d))

def Lacks (sb : Superblock) (P : Finset Place) (d : Disk) (top : Root → Nat) (e : Panic) : Prop :=
  e = .outOfBlocks ∧ ∀ M, P ⊆ M → ¬ Room sb M d top

section Grows
variable {sb : Superblock} {L L' P M : Finset Place} {d d' d'' : Disk} {top top' top'' : Root → Nat}
  {t : Root} {ks : List Key}

theorem Grows.refl (sb : Superblock) (d : Disk) (top : Root → Nat) : Grows sb ∅ d top d top where
  old := fun _ _ _ _ => rfl
  new := fun _ _ h => absurd h (notMem_empty _)
  low := fun _ _ => rfl
  free := rfl

theorem Grows.kept (h : Grows sb L d top d' top') (hv : ks.length ≤ height t)
    (hne : val (forest d top) t ks ≠ 0) :
    val (forest d' top') t ks = val (forest d top) t ks := by
  refine h.old t ks hv fun hL => ?_
  exact hne (h.new t ks hL).2.1

theorem Grows.trans (h : Grows sb L d top d' top') (h' : Grows sb L' d' top' d'' top'') :
    Grows sb (L ∪ L') d top d'' top'' := by
  have hdisj : Disjoint L L' := by
    rw [disjoint_left]
    intro p hp hp'
    exact (h.new p.1 p.2 hp).2.2 (h'.new p.1 p.2 hp').2.1
  refine ⟨?_, ?_, ?_, ?_⟩
  · intro t ks hv hL
    rw [mem_union, not_or] at hL
    rw [h'.old t ks hv hL.2, h.old t ks hv hL.1]
  · intro t ks hL
    rcases mem_union.mp hL with hp | hp
    · obtain ⟨hv, hz, hne⟩ := h.new t ks hp
      exact ⟨hv, hz, by rwa [h'.kept hv hne]⟩
    obtain ⟨hv, hz, hne⟩ := h'.new t ks hp
    have hnot : (t, ks) ∉ L := fun hm => disjoint_left.mp hdisj hm hp
    exact ⟨hv, by rwa [h.old t ks hv hnot] at hz, hne⟩
  · intro b hb
    rw [h'.low b hb, h.low b hb]
  · rw [card_union_of_disjoint hdisj, ← h.free, ← h'.free]
    omega

theorem Room.grows (hroom : Room sb M d top) (h : Grows sb L d top d' top') (hL : L ⊆ M) :
    Room sb M d' top' := by
  have hsub : L ⊆ missing M d top := by
    intro p hp
    obtain ⟨hv, hz, _⟩ := h.new p.1 p.2 hp
    exact mem_filter.mpr ⟨hL hp, hv, hz⟩
  have hmiss : missing M d' top' ⊆ missing M d top \ L := by
    intro p hp
    obtain ⟨hM, hv, hz⟩ := mem_filter.mp hp
    have hnot : p ∉ L := fun hm => (h.new p.1 p.2 hm).2.2 hz
    rw [mem_sdiff]
    exact ⟨mem_filter.mpr ⟨hM, hv, by rwa [← h.old p.1 p.2 hv hnot]⟩, hnot⟩
  have hcard := card_le_card hmiss
  rw [card_sdiff_of_subset hsub] at hcard
  have hfree := h.free
  unfold Room at hroom ⊢
  omega

theorem Room.subset (hroom : Room sb M d top) (h : P ⊆ M) : Room sb P d top :=
  le_trans (card_le_card (filter_subset_filter _ h)) hroom

theorem Lacks.of_full {e : Panic} (he : e = .outOfBlocks) (hfull : ∀ b < sb.size,
    used sb d b = true)
    (hv : ks.length ≤ height t) (hz : val (forest d top) t ks = 0) :
    Lacks sb {(t, ks)} d top e := by
  refine ⟨he, ?_⟩
  intro M hM hroom
  have hmem : (t, ks) ∈ missing M d top :=
    mem_filter.mpr ⟨hM (mem_singleton_self _), hv, hz⟩
  have hpos := card_pos.mpr ⟨_, hmem⟩
  unfold Room at hroom
  rw [freeCount_full hfull] at hroom
  omega

theorem Lacks.mono {e : Panic} (h : Lacks sb L d top e) (hsub : L ⊆ P) : Lacks sb P d top e :=
  ⟨h.1, fun M hM => h.2 M (hsub.trans hM)⟩

variable {b : Nat}

theorem Grows.linked (h : Consistent sb d top) (hb : b < sb.size) (hfree : used sb d b = false)
    (hlink : Linked height (forest d top) (forest d' top') t ks b)
    (hv : ks.length ≤ height t) (hz : val (forest d top) t ks = 0)
    (hused : ∀ x < sb.size, used sb d' x = (used sb d x || decide (x = b)))
    (hlow : ∀ x < sb.bmapstart, d' x = d x) : Grows sb {(t, ks)} d top d' top' := by
  have hpos := datastart_pos sb
  have hdata := (h.fresh hb hfree).1
  refine ⟨?_, ?_, hlow, freeCount_alloc hb hfree hused⟩
  · intro t' ks' hv' hnot
    rw [hlink t' ks' hv', if_neg]
    rintro ⟨rfl, rfl⟩
    exact hnot (mem_singleton_self _)
  · intro t' ks' hmem
    cases mem_singleton.mp hmem
    refine ⟨hv, hz, ?_⟩
    rw [hlink t ks hv, if_pos ⟨rfl, rfl⟩]
    omega

theorem dataAt_linked (hb : b ≠ 0) (hlink : Linked height (forest d top) (forest d' top') t ks b)
    (hz : val (forest d top) t ks = 0)
    (hkeep : ∀ t' ks', ks'.length = height t' → val (forest d top) t' ks' ≠ 0 →
      d' (val (forest d top) t' ks') = d (val (forest d top) t' ks'))
    (hzero : d' b = fun _ => 0) {t' : Root} {ks' : List Key} (hv' : ks'.length = height t') :
    dataAt d' top' t' ks' = dataAt d top t' ks' := by
  unfold dataAt
  rw [hlink t' ks' (le_of_eq hv')]
  by_cases hsame : t' = t ∧ ks' = ks
  · obtain ⟨rfl, rfl⟩ := hsame
    simp only [and_self, if_true, hb, if_false, hz, hzero]
  rw [if_neg hsame]
  by_cases hne : val (forest d top) t' ks' = 0
  · rw [if_pos hne, if_pos hne]
  · rw [if_neg hne, if_neg hne, hkeep t' ks' hv' hne]

end Grows

/-! ## What `bmap` does -/

structure Grown (sb : Superblock) (inum : Nat) (P : Finset Place) (d : Disk) (ip : Inode)
    (d' : Disk) (ip' : Inode) : Prop where
  consistent : Consistent sb d' (curTop sb d' inum ip')
  grows : ∃ L ⊆ P, Grows sb L d (curTop sb d inum ip) d' (curTop sb d' inum ip')
  fields : ip' = { ip with addrs := ip'.addrs }

structure Mapped (sb : Superblock) (inum : Nat) (P : Finset Place) (d : Disk) (ip : Inode)
    (d' : Disk) (ip' : Inode) : Prop extends Grown sb inum P d ip d' ip' where
  data : ∀ t ks, ks.length = height t →
    dataAt d' (curTop sb d' inum ip') t ks = dataAt d (curTop sb d inum ip) t ks

section Map
variable {sb : Superblock} {inum : Nat} {P P' : Finset Place} {d d' d'' : Disk}
  {ip ip' ip'' : Inode} {fs : Image} {t : Root} {ks : List Key} {k : Key} {e : Panic}

theorem Grown.refl (h : Consistent sb d (curTop sb d inum ip)) (P : Finset Place) :
    Grown sb inum P d ip d ip :=
  ⟨h, ⟨∅, empty_subset P, Grows.refl ..⟩, rfl⟩

section
variable (h : Grown sb inum P d ip d' ip')
include h

theorem Grown.mono (hsub : P ⊆ P') :
    Grown sb inum P' d ip d' ip' := by
  obtain ⟨L, hL, hg⟩ := h.grows
  exact ⟨h.consistent, ⟨L, hL.trans hsub, hg⟩, h.fields⟩

theorem Grown.trans (h' : Grown sb inum P' d' ip' d'' ip'') :
    Grown sb inum (P ∪ P') d ip d'' ip'' := by
  obtain ⟨L, hL, hg⟩ := h.grows
  obtain ⟨L', hL', hg'⟩ := h'.grows
  refine ⟨h'.consistent, ⟨L ∪ L', union_subset_union hL hL', hg.trans hg'⟩, ?_⟩
  have hfields := h'.fields
  rw [h.fields] at hfields
  exact hfields

theorem Grown.low : ∀ b < sb.bmapstart, d' b = d b := by
  obtain ⟨L, _, hg⟩ := h.grows
  exact hg.low

theorem Grown.kept (hv : ks.length ≤ height t)
    (hne : val (forest d (curTop sb d inum ip)) t ks ≠ 0) :
    val (forest d' (curTop sb d' inum ip')) t ks = val (forest d (curTop sb d inum ip)) t ks := by
  obtain ⟨L, _, hg⟩ := h.grows
  exact hg.kept hv hne

theorem Grown.room {M : Finset Place} (hsub : P ⊆ M)
    (hroom : Room sb M d (curTop sb d inum ip)) : Room sb M d' (curTop sb d' inum ip') := by
  obtain ⟨L, hL, hg⟩ := h.grows
  exact hroom.grows hg (hL.trans hsub)

end

theorem Lacks.after (hl : Lacks sb P' d' (curTop sb d' inum ip') e)
    (h : Grown sb inum P d ip d' ip') : Lacks sb (P ∪ P') d (curTop sb d inum ip) e := by
  refine ⟨hl.1, ?_⟩
  intro M hM hroom
  rw [union_subset_iff] at hM
  exact hl.2 M hM.2 (h.room hM.1 hroom)

theorem Mapped.refl (h : Consistent sb d (curTop sb d inum ip)) (P : Finset Place) :
    Mapped sb inum P d ip d ip :=
  ⟨Grown.refl h P, fun _ _ _ => rfl⟩

theorem Mapped.trans (h : Mapped sb inum P d ip d' ip') (h' : Mapped sb inum P' d' ip' d'' ip'') :
    Mapped sb inum (P ∪ P') d ip d'' ip'' := by
  refine ⟨h.toGrown.trans h'.toGrown, ?_⟩
  intro t ks hv
  rw [h'.data t ks hv, h.data t ks hv]

theorem Mapped.linked {b : Nat} (h : Consistent sb d (curTop sb d inum ip)) (hb : b < sb.size)
    (hfree : used sb d b = false) (hlow : ∀ x < sb.bmapstart, d' x = d x)
    (hlink : Linked height (forest d (curTop sb d inum ip))
      (forest d' (curTop sb d inum ip')) t ks b)
    (hv : ks.length ≤ height t) (hz : val (forest d (curTop sb d inum ip)) t ks = 0)
    (hused : ∀ x < sb.size, used sb d' x = (used sb d x || decide (x = b)))
    (hkeep : ∀ t' ks', ks'.length = height t' → val (forest d (curTop sb d inum ip)) t' ks' ≠ 0 →
      d' (val (forest d (curTop sb d inum ip)) t' ks') =
        d (val (forest d (curTop sb d inum ip)) t' ks'))
    (hzero : d' b = fun _ => 0) (hfields : ip' = { ip with addrs := ip'.addrs }) :
    Mapped sb inum {(t, ks)} d ip d' ip' ∧
      val (forest d' (curTop sb d' inum ip')) t ks = b ∧ b ≠ 0 := by
  have hpos := datastart_pos sb
  have hdata := (h.fresh hb hfree).1
  have hb0 : b ≠ 0 := by omega
  have hval := hlink t ks hv
  rw [if_pos ⟨rfl, rfl⟩] at hval
  have htop : curTop sb d' inum ip' = curTop sb d inum ip' := curTop_congr hlow
  rw [← htop] at hlink hval
  refine ⟨⟨⟨h.linked hb hfree hlink hv hz hused, ⟨_, Finset.Subset.refl _, ?_⟩, hfields⟩, ?_⟩, hval,
    hb0⟩
  · exact Grows.linked h hb hfree hlink hv hz hused hlow
  · intro t' ks' hv'
    exact dataAt_linked hb0 hlink hz hkeep hzero hv'

theorem bmapTop_spec (h : Consistent sb fs.disk (curTop sb fs.disk inum ip)) (i : Fin NADDR) :
    Ends (fun r => Mapped sb inum (path ((inum, i), [])) fs.disk ip r.2.2.disk r.2.1 ∧
        val (forest r.2.2.disk (curTop sb r.2.2.disk inum r.2.1)) (inum, i) [] = r.1 ∧ r.1 ≠ 0)
      (Lacks sb (path ((inum, i), [])) fs.disk (curTop sb fs.disk inum ip))
        (bmapTop sb fs ip i) := by
  have hself : val (forest fs.disk (curTop sb fs.disk inum ip)) (inum, i) [] = ip.addrs i :=
    curTop_self i
  unfold bmapTop
  split
  · rename_i hz
    have hspec := balloc_spec sb fs
    cases hr : balloc sb fs with
    | error e =>
      rw [hr] at hspec
      exact Lacks.of_full hspec.1 hspec.2 zero_le (hself.trans hz)
    | ok r =>
      rw [hr] at hspec
      obtain ⟨hb, hfree, hdisk⟩ := hspec
      have hfresh := h.fresh hb hfree
      refine Mapped.linked h hb hfree ?_ ?_ zero_le (hself.trans hz) ?_ ?_ ?_ rfl
      · intro x hx
        rw [hdisk, marked_low hfresh.1 hx]
      · rw [curTop_update, hdisk]
        exact h.linkTop hb hfree (hself.trans hz)
      · intro x hx
        rw [hdisk, used_marked hfresh.1 hx]
      · intro t' ks' hv' hne
        have hown := owned_val (le_of_eq hv') hne
        rw [hdisk, marked_data hb (h.range _ hown).1 fun he => hfresh.2 (he ▸ hown)]
      · rw [hdisk, marked_self]
  · rename_i hne
    exact ⟨Mapped.refl h _, hself, hne⟩

theorem bmapEntry_spec {p : Nat} (h : Consistent sb fs.disk (curTop sb fs.disk inum ip))
    (hv : ks.length < height t) (hp : val (forest fs.disk (curTop sb fs.disk inum ip)) t ks = p)
    (hp0 : p ≠ 0) : Ends (fun r => Mapped sb inum {(t, k :: ks)} fs.disk ip r.2.disk ip ∧
        val (forest r.2.disk (curTop sb r.2.disk inum ip)) t (k :: ks) = r.1 ∧ r.1 ≠ 0)
      (Lacks sb {(t, k :: ks)} fs.disk (curTop sb fs.disk inum ip)) (bmapEntry sb fs p k) := by
  subst hp
  have hself := val_cons_of_ne (k := k) hp0
  rw [forest_word] at hself
  unfold bmapEntry
  split
  · rename_i hz
    have hspec := balloc_spec sb fs
    cases hr : balloc sb fs with
    | error e =>
      rw [hr] at hspec
      exact Lacks.of_full hspec.1 hspec.2 hv (hself.trans hz)
    | ok r =>
      rw [hr] at hspec
      obtain ⟨hb, hfree, hdisk⟩ := hspec
      have hfresh := h.fresh hb hfree
      have hown := owned_val (le_of_lt hv) hp0
      have hbound := h.range _ hown
      have henter : (r.2.logWrite (val (forest fs.disk (curTop sb fs.disk inum ip)) t ks)
          (setWord (r.2.disk (val (forest fs.disk (curTop sb fs.disk inum ip)) t ks)) k r.1)).disk =
          entered sb fs.disk (val (forest fs.disk (curTop sb fs.disk inum ip)) t ks) k r.1 := by
        rw [disk_logWrite, hdisk, entered]
      have hle : sb.bmapstart ≤ sb.datastart := by
        simp only [Superblock.datastart, BPB, BSIZE]
        omega
      refine Mapped.linked h hb hfree ?_ ?_ hv (hself.trans hz) ?_ ?_ ?_ rfl
      · intro x hx
        rw [henter, entered, update_of_ne (by omega), marked_low hfresh.1 hx]
      · rw [henter]
        exact h.linkWord hb hfree hv hp0 hz
      · intro x hx
        rw [henter, used_entered hfresh.1 hbound.1 hx]
      · -- a data block is not an index block
        intro t' ks' hv' hne
        have hown' := owned_val (le_of_eq hv') hne
        rw [henter, entered, update_of_ne,
          marked_data hb (h.range _ hown').1 fun he => hfresh.2 (he ▸ hown')]
        intro he
        obtain ⟨rfl, rfl⟩ := h.sep _ _ _ _ (le_of_eq hv') (le_of_lt hv) hne he
        exact lt_irrefl _ (hv' ▸ hv)
      · rw [henter, entered, update_of_ne, marked_self]
        intro he
        exact hfresh.2 (he ▸ hown)
  · rename_i hne
    exact ⟨Mapped.refl h _, hself, hne⟩

theorem path_cons (t : Root) (k : Key) (ks : List Key) :
    path (t, k :: ks) = insert (t, k :: ks) (path (t, ks)) := by
  simp [path]

theorem path_subset_cons (t : Root) (k : Key) (ks : List Key) :
    path (t, ks) ⊆ path (t, k :: ks) := by
  rw [path_cons]
  exact subset_insert ..

theorem Mapped.entry {p : Nat} (hm : Mapped sb inum (path (t, ks)) d ip fs.disk ip')
    (hv : ks.length < height t) (hp : val (forest fs.disk (curTop sb fs.disk inum ip')) t ks = p)
    (hp0 : p ≠ 0) (k : Nat) :
    Ends (fun r => Mapped sb inum (path (t, key k :: ks)) d ip r.2.disk ip' ∧
        val (forest r.2.disk (curTop sb r.2.disk inum ip')) t (key k :: ks) = r.1 ∧ r.1 ≠ 0)
      (Lacks sb (path (t, key k :: ks)) d (curTop sb d inum ip))
      (bmapEntry sb fs p (k % NINDIRECT)) := by
  have hpath : path (t, ks) ∪ {(t, key k :: ks)} = path (t, key k :: ks) := by
    rw [path_cons, union_comm]
    rfl
  have hentry := bmapEntry_spec (k := key k) hm.consistent hv hp hp0
  rw [← hpath]
  exact hentry.mono (fun r hr => ⟨hm.trans hr.1, hr.2⟩) fun e he => he.after hm.toGrown

theorem bmap_spec {bn : Nat} (h : Consistent sb fs.disk (curTop sb fs.disk inum ip))
    (hbn : bn < MAXFILE) :
    Ends (fun r => Mapped sb inum (path (place inum bn)) fs.disk ip r.2.2.disk r.2.1 ∧
        leaf r.2.2.disk (curTop sb r.2.2.disk inum r.2.1) inum bn = r.1 ∧ r.1 ≠ 0)
      (Lacks sb (path (place inum bn)) fs.disk (curTop sb fs.disk inum ip)) (bmap sb fs ip bn) := by
  unfold bmap leaf place
  split
  · exact bmapTop_spec h _
  split
  · rename_i hs
    refine .bind ((bmapTop_spec h single).mono (fun r hr => hr) fun e he => ?_) ?_
    · exact he.mono (path_subset_cons ..)
    rintro ⟨p, ip1, fs1⟩ ⟨hm, hp, hp0⟩
    have hentry := hm.entry Nat.zero_lt_one hp hp0 (bn - NDIRECT)
    rw [Nat.mod_eq_of_lt hs] at hentry
    exact .bind hentry fun r hr => hr
  · rename_i hs
    have hd : bn - NDIRECT - NINDIRECT < NDINDIRECT := by
      simp only [NDIRECT, NINDIRECT, NDINDIRECT, MAXFILE, BSIZE] at *
      omega
    rw [if_pos hd]
    refine .bind ((bmapTop_spec h double).mono (fun r hr => hr) fun e he => ?_) ?_
    · exact he.mono ((path_subset_cons ..).trans (path_subset_cons ..))
    rintro ⟨q, ip1, fs1⟩ ⟨hm, hq, hq0⟩
    have hupper := hm.entry Nat.zero_lt_two hq hq0 ((bn - NDIRECT - NINDIRECT) / NINDIRECT)
    rw [Nat.mod_eq_of_lt (Nat.div_lt_of_lt_mul hd)] at hupper
    refine .bind (hupper.mono (fun r hr => hr) fun e he => ?_) ?_
    · exact he.mono (path_subset_cons ..)
    rintro ⟨p, fs2⟩ ⟨hm', hp, hp0⟩
    exact .bind (hm'.entry Nat.one_lt_two hp hp0 (bn - NDIRECT - NINDIRECT))
      fun r hr => hr

theorem bmap_existing {bn : Nat} (hbn : bn < MAXFILE)
    (hne : leaf fs.disk (curTop sb fs.disk inum ip) inum bn ≠ 0) :
    bmap sb fs ip bn = .ok (leaf fs.disk (curTop sb fs.disk inum ip) inum bn, ip, fs) := by
  have htop : ∀ i, val (forest fs.disk (curTop sb fs.disk inum ip)) (inum, i) [] ≠ 0 →
      bmapTop sb fs ip i =
        .ok (val (forest fs.disk (curTop sb fs.disk inum ip)) (inum, i) [], ip, fs) := by
    intro i hi
    have hself : val (forest fs.disk (curTop sb fs.disk inum ip)) (inum, i) [] = ip.addrs i :=
      curTop_self i
    rw [hself] at hi ⊢
    exact if_neg hi
  have hentry : ∀ t ks k, val (forest fs.disk (curTop sb fs.disk inum ip)) t (key k :: ks) ≠ 0 →
      bmapEntry sb fs (val (forest fs.disk (curTop sb fs.disk inum ip)) t ks) (k % NINDIRECT) =
        .ok (val (forest fs.disk (curTop sb fs.disk inum ip)) t (key k :: ks), fs) := by
    intro t ks k hk
    have hpar := val_parent_ne hk
    rw [val_cons_of_ne hpar] at hk ⊢
    exact if_neg hk
  unfold leaf place at hne ⊢
  unfold bmap
  split
  · rename_i hdir
    simp only [hdir, ↓reduceDIte] at hne ⊢
    exact htop _ hne
  · rename_i hdir
    simp only [hdir, ↓reduceDIte] at hne ⊢
    split
    · rename_i hs
      simp only [hs, ↓reduceIte] at hne ⊢
      have hlast := hentry _ _ _ hne
      rw [Nat.mod_eq_of_lt hs] at hlast
      rw [htop _ (val_parent_ne hne)]
      simp only [ok_bind, hlast]
      rfl
    · rename_i hs
      have hd : bn - NDIRECT - NINDIRECT < NDINDIRECT := by
        simp only [NDIRECT, NINDIRECT, NDINDIRECT, MAXFILE, BSIZE] at *
        omega
      simp only [hs, hd, ↓reduceIte] at hne ⊢
      have hupper := hentry _ _ _ (val_parent_ne hne)
      rw [Nat.mod_eq_of_lt (Nat.div_lt_of_lt_mul hd)] at hupper
      rw [htop _ (val_parent_ne (val_parent_ne hne))]
      simp only [ok_bind, hupper, hentry _ _ _ hne]
      rfl

end Map

end BirdOS.Fs
