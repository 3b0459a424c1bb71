import Mathlib.Data.Fintype.Card
import BirdOS.Fs.Inode
import BirdOS.Lib.CircularList

/-! # The buffer cache (`bio.c`)

The bookkeeping of the cache: which block a buffer stands for, its reference count and
the thirteen circular lists that hold the buffers.  `bget` looks for the block in the
list of its hash and otherwise takes the least recently used free buffer of that list,
or of the first list after it that has one.

A buffer's bytes and its sleep lock are kept by the modules that use the cache. -/

namespace BirdOS.Bio

open CircularList Function List

def NBUCKET : Nat := 13
def NBUF : Nat := Fs.MAXOPBLOCKS * 3

abbrev Bucket := Fin NBUCKET
abbrev BufId := Fin NBUF

instance : NeZero NBUCKET := ⟨by decide⟩

instance : NeZero NBUF := ⟨by decide⟩

def HASH (id : Nat) : Bucket := Fin.ofNat NBUCKET id

structure Buf where
  valid : Bool
  dev : Nat
  blockno : Nat
  refcnt : UInt32
  timestamp : UInt32

inductive Node where
  | head (k : Bucket)
  | buf (b : BufId)
  deriving DecidableEq

structure Cache where
  buf : BufId → Buf
  next : Node → Node
  prev : Node → Node
  ticks : UInt32

def Cache.setBuf (c : Cache) (b : BufId) (v : Buf) : Cache :=
  { c with buf := update c.buf b v }

attribute [local simp] Cache.setBuf

def pushFront (c : Cache) (k : Bucket) (b : BufId) : Cache :=
  { c with
    next := insertNext c.next (.head k) (.buf b)
    prev := insertPrev c.next c.prev (.head k) (.buf b) }

def unlink (c : Cache) (b : BufId) : Cache :=
  { c with
    next := unlinkNext c.next c.prev (.buf b)
    prev := unlinkPrev c.next c.prev (.buf b) }

def empty : Cache := ⟨fun _ => ⟨false, 0, 0, 0, 0⟩, fun n => n, fun n => n, 0⟩

def binit : Cache := (List.finRange NBUF).foldl (fun c b => pushFront c 0 b) empty

def Node.buf? : Node → Option BufId
  | .buf b => some b
  | .head _ => none

def bucket (c : Cache) (k : Bucket) : List BufId :=
  (walk c.next (.head k) NBUF (c.next (.head k))).filterMap Node.buf?

def lookup (c : Cache) (dev blockno : Nat) : Option BufId :=
  (bucket c (HASH blockno)).find? fun b => (c.buf b).dev = dev ∧ (c.buf b).blockno = blockno

/-- `if (tmp->refcnt == 0 && (b == 0 || tmp->timestamp < b->timestamp)) b = tmp`. -/
def older (c : Cache) (b : Option BufId) (tmp : BufId) : Option BufId :=
  match b with
  | none => if (c.buf tmp).refcnt = 0 then some tmp else none
  | some b =>
    if (c.buf tmp).refcnt = 0 ∧ (c.buf tmp).timestamp < (c.buf b).timestamp then some tmp
    else some b

def victim (c : Cache) (k : Bucket) : Option BufId := (bucket c k).foldl (older c) none

def claim (c : Cache) (b : BufId) (dev blockno : Nat) : Cache :=
  c.setBuf b { c.buf b with valid := false, dev := dev, blockno := blockno, refcnt := 1 }

def stamp (c : Cache) (b : BufId) : Cache := c.setBuf b { c.buf b with timestamp := c.ticks }

def incref (c : Cache) (b : BufId) : Cache :=
  c.setBuf b { c.buf b with refcnt := (c.buf b).refcnt + 1 }

def decref (c : Cache) (b : BufId) : Cache :=
  c.setBuf b { c.buf b with refcnt := (c.buf b).refcnt - 1 }

/-! ## Whole calls -/

def around (bid : Bucket) : List Bucket := (List.range NBUCKET).map fun i =>
    bid + Fin.ofNat NBUCKET i

def scan (c : Cache) : List Bucket → Option (Bucket × BufId)
  | [] => none
  | i :: is =>
    match victim c i with
    | some b => some (i, b)
    | none => scan c is

def steal (c : Cache) (i bid : Bucket) (b : BufId) : Cache :=
  if i = bid then c else pushFront (unlink c b) bid b

/-- `bget` up to `acquiresleep`; `none` is `panic("bget: no buffers")`. -/
def bget (c : Cache) (dev blockno : Nat) : Option (Cache × BufId) :=
  match lookup c dev blockno with
  | some b => some (stamp (incref c b) b, b)
  | none =>
    match scan c (around (HASH blockno)) with
    | some (i, b) => some (stamp (claim (steal c i (HASH blockno) b) b dev blockno) b, b)
    | none => none

def brelse (c : Cache) (b : BufId) : Cache := stamp (decref c b) b

def bpin (c : Cache) (b : BufId) : Cache := incref c b

def bunpin (c : Cache) (b : BufId) : Cache := decref c b

/-! ## Well-formed lists -/

def Cache.ident (c : Cache) (b : BufId) : Nat × Nat := ((c.buf b).dev, (c.buf b).blockno)

/-- `lists k` are the buffers of bucket `k`; a buffer that is being moved is in none. -/
structure Wf (c : Cache) (lists : Bucket → List BufId) : Prop where
  ring : ∀ k, Path c.next c.prev (.head k) ((lists k).map .buf) (.head k)
  nodup : ∀ k, (lists k).Nodup
  disjoint : ∀ j k, j ≠ k → ∀ b ∈ lists j, b ∉ lists k
  home : ∀ k, ∀ b ∈ lists k, (c.buf b).dev ≠ 0 → HASH (c.buf b).blockno = k
  unique : ∀ j k, ∀ a ∈ lists j, ∀ b ∈ lists k, (c.buf a).dev ≠ 0 → c.ident a = c.ident b → a = b

variable {dev blockno : Nat} {b : BufId} {i : Bucket}

section Wf
variable {c : Cache} {lists : Bucket → List BufId}

theorem buf_injective : Function.Injective Node.buf := by
  intro a b h
  cases h
  rfl

theorem head_notMem (k : Bucket) (bs : List BufId) : Node.head k ∉ bs.map Node.buf := by
  simp

theorem Wf.length_le (h : Wf c lists) (k : Bucket) : ((lists k).map Node.buf).length ≤ NBUF := by
  rw [length_map]
  have := (h.nodup k).length_le_card
  rwa [Fintype.card_fin] at this

theorem Wf.bucket_eq (h : Wf c lists) (k : Bucket) : bucket c k = lists k := by
  rw [bucket, walk_path _ _ _ (h.ring k) (head_notMem k _) (h.length_le k), filterMap_map]
  exact filterMap_some

theorem Wf.lookup_some (h : Wf c lists) (hl : lookup c dev blockno = some b) :
    b ∈ lists (HASH blockno) ∧ c.ident b = (dev, blockno) := by
  rw [lookup, h.bucket_eq] at hl
  refine ⟨mem_of_find?_eq_some hl, ?_⟩
  have := find?_some hl
  simpa [Cache.ident] using this

variable {k : Bucket}

theorem Wf.lookup_none (h : Wf c lists) (hdev : dev ≠ 0)
    (hl : lookup c dev blockno = none) (hb : b ∈ lists k) : c.ident b ≠ (dev, blockno) := by
  intro hid
  have hdev' : (c.buf b).dev = dev := congrArg Prod.fst hid
  have hno' : (c.buf b).blockno = blockno := congrArg Prod.snd hid
  have hk : HASH blockno = k := by
    rw [← hno']
    exact h.home k b hb (hdev' ▸ hdev)
  rw [lookup, h.bucket_eq, hk, find?_eq_none] at hl
  exact hl b hb (by simp [hdev', hno'])

theorem foldl_older_some : ∀ (bs : List BufId) (o : Option BufId),
    bs.foldl (older c) o = some b → o = some b ∨ b ∈ bs ∧ (c.buf b).refcnt = 0 := by
  intro bs
  induction bs with
  | nil => exact fun o h => .inl h
  | cons x bs ih =>
    intro o h
    rcases ih (older c o x) h with hx | ⟨hb, h0⟩
    · cases o with
      | none =>
        obtain ⟨h0, hx⟩ := Option.ite_none_right_eq_some.mp hx
        cases hx
        exact .inr ⟨mem_cons_self .., h0⟩
      | some y =>
        simp only [older] at hx
        split at hx
        · rename_i h0
          cases hx
          exact .inr ⟨mem_cons_self .., h0.1⟩
        · exact .inl hx
    · exact .inr ⟨mem_cons_of_mem x hb, h0⟩

theorem foldl_older_none : ∀ (bs : List BufId) (o : Option BufId),
    bs.foldl (older c) o = none → o = none ∧ ∀ b ∈ bs, (c.buf b).refcnt ≠ 0 := by
  intro bs
  induction bs with
  | nil => exact fun o h => ⟨h, by simp⟩
  | cons x bs ih =>
    intro o h
    obtain ⟨hx, hbs⟩ := ih (older c o x) h
    cases o with
    | none =>
      have h0 : (c.buf x).refcnt ≠ 0 := by
        intro h0
        rw [older, if_pos h0] at hx
        cases hx
      exact ⟨rfl, forall_mem_cons.mpr ⟨h0, hbs⟩⟩
    | some y =>
      simp only [older] at hx
      split at hx <;> cases hx

theorem Wf.victim_some (h : Wf c lists) (hv : victim c k = some b) :
    b ∈ lists k ∧ (c.buf b).refcnt = 0 := by
  rw [victim, h.bucket_eq] at hv
  rcases foldl_older_some _ _ hv with hn | hb
  · cases hn
  · exact hb

theorem Wf.victim_none (h : Wf c lists) (hv : victim c k = none) :
    ∀ b ∈ lists k, (c.buf b).refcnt ≠ 0 := by
  rw [victim, h.bucket_eq] at hv
  exact (foldl_older_none _ _ hv).2

theorem Wf.congr {c' : Cache} (h : Wf c lists) (hn : c'.next = c.next) (hp : c'.prev = c.prev)
    (hid : ∀ k, ∀ b ∈ lists k, c'.ident b = c.ident b) : Wf c' lists where
  ring := by
    rw [hn, hp]
    exact h.ring
  nodup := h.nodup
  disjoint := h.disjoint
  home := by
    intro k b hb hdev
    have hd : (c'.buf b).dev = (c.buf b).dev := congrArg Prod.fst (hid k b hb)
    have hno : (c'.buf b).blockno = (c.buf b).blockno := congrArg Prod.snd (hid k b hb)
    rw [hno]
    rw [hd] at hdev
    exact h.home k b hb hdev
  unique := by
    intro j k a ha b hb hdev hab
    rw [hid j a ha, hid k b hb] at hab
    have hd : (c'.buf a).dev = (c.buf a).dev := congrArg Prod.fst (hid j a ha)
    rw [hd] at hdev
    exact h.unique j k a ha b hb hdev hab

theorem ident_setBuf_of_ne {a : BufId} (v : Buf) (h : a ≠ b) :
    (c.setBuf b v).ident a = c.ident a := by
  simp [Cache.ident, h]

theorem ident_setBuf_self (b : BufId) (v : Buf) : (c.setBuf b v).ident b = (v.dev, v.blockno) := by
  simp [Cache.ident]

theorem ident_setBuf (b : BufId) (v : Buf) (hv : (v.dev, v.blockno) = c.ident b) (a : BufId) :
    (c.setBuf b v).ident a = c.ident a := by
  obtain rfl | ha := eq_or_ne a b
  · rw [ident_setBuf_self, hv]
  · exact ident_setBuf_of_ne v ha

@[simp] theorem ident_stamp (b a : BufId) : (stamp c b).ident a = c.ident a :=
  ident_setBuf b { c.buf b with timestamp := c.ticks } rfl a

@[simp] theorem ident_incref (b a : BufId) : (incref c b).ident a = c.ident a :=
  ident_setBuf b { c.buf b with refcnt := (c.buf b).refcnt + 1 } rfl a

@[simp] theorem ident_decref (b a : BufId) : (decref c b).ident a = c.ident a :=
  ident_setBuf b { c.buf b with refcnt := (c.buf b).refcnt - 1 } rfl a

theorem ident_claim_self (b : BufId) (dev blockno : Nat) :
    (claim c b dev blockno).ident b = (dev, blockno) := ident_setBuf_self ..

theorem ident_claim_of_ne {a : BufId} (h : a ≠ b) (dev blockno : Nat) :
    (claim c b dev blockno).ident a = c.ident a := ident_setBuf_of_ne _ h

section
variable (h : Wf c lists)
include h

theorem Wf.setBuf (b : BufId) (v : Buf) (hv : (v.dev, v.blockno) = c.ident b) :
    Wf (c.setBuf b v) lists :=
  h.congr rfl rfl fun _ a _ => ident_setBuf b v hv a

theorem Wf.setBuf_loose (hb : ∀ k, b ∉ lists k) (v : Buf) :
    Wf (c.setBuf b v) lists := by
  refine h.congr rfl rfl ?_
  intro k a ha
  exact ident_setBuf_of_ne v (fun e => hb k (e ▸ ha))

theorem Wf.stamp (b : BufId) : Wf (stamp c b) lists := h.setBuf b _ rfl

theorem Wf.incref (b : BufId) : Wf (incref c b) lists := h.setBuf b _ rfl

theorem Wf.decref (b : BufId) : Wf (decref c b) lists := h.setBuf b _ rfl

theorem Wf.claim (hb : b ∈ lists (HASH blockno))
    (hnew : dev ≠ 0 → ∀ k, ∀ a ∈ lists k, c.ident a ≠ (dev, blockno)) :
    Wf (claim c b dev blockno) lists where
  ring := h.ring
  nodup := h.nodup
  disjoint := h.disjoint
  home := by
    intro k a ha hdev
    obtain rfl | hab := eq_or_ne a b
    · have hk : HASH blockno = k := by
        by_contra hne
        exact h.disjoint _ _ hne a hb ha
      simpa [Bio.claim] using hk
    · simp only [Bio.claim, Cache.setBuf, update_of_ne hab] at hdev ⊢
      exact h.home k a ha hdev
  unique := by
    intro j k x hx y hy hdev hxy
    have hself : (Bio.claim c b dev blockno).ident b = (dev, blockno) := ident_claim_self ..
    have hother (z : BufId) (hz : z ≠ b) : (Bio.claim c b dev blockno).ident z = c.ident z :=
      ident_claim_of_ne hz ..
    by_cases hxb : x = b
    · by_cases hyb : y = b
      · rw [hxb, hyb]
      rw [hxb, hself, hother y hyb] at hxy
      have hd : dev ≠ 0 := by simpa [hxb, Bio.claim] using hdev
      exact absurd hxy.symm (hnew hd k y hy)
    have hd : (c.buf x).dev ≠ 0 := by
      simpa [Bio.claim, hxb] using hdev
    by_cases hyb : y = b
    · rw [hyb, hself, hother x hxb] at hxy
      have hfst : (c.buf x).dev = dev := congrArg Prod.fst hxy
      exact absurd hxy (hnew (hfst ▸ hd) j x hx)
    · rw [hother x hxb, hother y hyb] at hxy
      exact h.unique j k x hx y hy hd hxy

end

def nodes (lists : Bucket → List BufId) (k : Bucket) : List Node := .head k :: (lists k).map .buf

section
variable (h : Wf c lists)
include h

theorem Wf.nodes_disjoint {j : Bucket} (hjk : j ≠ k) {u : Node}
    (hu : u ∈ nodes lists j) : u ∉ nodes lists k := by
  cases u with
  | head i =>
    have hi : i = j := by simpa [nodes] using hu
    simpa [nodes, hi] using hjk
  | buf b =>
    have hb : b ∈ lists j := by simpa [nodes] using hu
    simpa [nodes] using h.disjoint j k hjk b hb

theorem Wf.nodup_nodes (k : Bucket) : (nodes lists k).Nodup :=
  nodup_cons.mpr ⟨head_notMem k _, (nodup_map_iff buf_injective).mpr (h.nodup k)⟩

theorem Wf.unlink (hb : b ∈ lists i) :
    Wf (unlink c b) (update lists i ((lists i).erase b)) := by
  obtain ⟨as, bs, hsplit⟩ := append_of_mem hb
  have hnd := h.nodup i
  rw [hsplit] at hnd
  have hb_as : b ∉ as := by
    intro hm
    rw [nodup_append] at hnd
    exact hnd.2.2 b hm b (mem_cons_self ..) rfl
  have herase : (lists i).erase b = as ++ bs := by
    rw [hsplit, erase_append_right _ hb_as, erase_cons_head]
  have hring := h.ring i
  rw [hsplit, map_append, map_cons, path_append] at hring
  obtain ⟨hpa, hpb⟩ := hring
  have hmem (k : Bucket) (a : BufId)
      (ha : a ∈ update lists i ((lists i).erase b) k) : a ∈ lists k := by
    obtain rfl | hk := eq_or_ne k i
    · rw [update_self] at ha
      exact mem_of_mem_erase ha
    · rwa [update_of_ne hk] at ha
  refine ⟨?_, ?_, ?_, ?_, ?_⟩
  · intro k
    obtain rfl | hk := eq_or_ne k i
    · rw [update_self, herase, map_append]
      have hnodes := h.nodup_nodes k
      rw [nodes, hsplit, map_append, map_cons] at hnodes
      obtain ⟨hhead, hrest⟩ := nodup_cons.mp hnodes
      rw [nodup_append, nodup_cons] at hrest
      obtain ⟨hndas, ⟨-, hndbs⟩, hdis⟩ := hrest
      refine path_unlink hpb (nodup_cons.mpr ⟨head_notMem k bs, hndbs⟩) _ _ hpa
        (nodup_cons.mpr ⟨head_notMem k as, hndas⟩) (head_notMem k as) ?_
      intro u hu hub
      rcases mem_cons.mp hu with rfl | hu
      · exact head_notMem k bs hub
      · exact hdis u hu u (mem_cons_of_mem _ hub) rfl
    · rw [update_of_ne hk]
      refine path_unlink_other (h.ring k) ?_ ?_
      · refine h.nodes_disjoint (Ne.symm hk) ?_
        have := prev_mem _ _ hpa
        rw [nodes, hsplit, map_append]
        exact mem_cons.mpr ((mem_cons.mp this).imp_right (mem_append_left _))
      · refine h.nodes_disjoint (Ne.symm hk) ?_
        rw [nodes, hsplit, map_append, map_cons]
        rcases mem_append.mp (next_mem hpb) with hm | hm
        · exact mem_cons_of_mem _ (mem_append_right _ (mem_cons_of_mem _ hm))
        · rw [mem_singleton.mp hm]
          exact mem_cons_self ..
  · intro k
    obtain rfl | hk := eq_or_ne k i
    · rw [update_self]
      exact (h.nodup k).erase b
    · rw [update_of_ne hk]
      exact h.nodup k
  · intro j k hjk a ha ha'
    exact h.disjoint j k hjk a (hmem j a ha) (hmem k a ha')
  · exact fun k a ha => h.home k a (hmem k a ha)
  · exact fun j k x hx y hy => h.unique j k x (hmem j x hx) y (hmem k y hy)

theorem Wf.not_mem_unlinked (hb : b ∈ lists i)
    (k : Bucket) : b ∉ update lists i ((lists i).erase b) k := by
  obtain rfl | hk := eq_or_ne k i
  · rw [update_self]
    exact (h.nodup k).not_mem_erase
  · rw [update_of_ne hk]
    exact h.disjoint i k (Ne.symm hk) b hb

theorem Wf.pushFront (hb : ∀ j, b ∉ lists j)
    (hhome : (c.buf b).dev ≠ 0 → HASH (c.buf b).blockno = k)
    (hnew : (c.buf b).dev ≠ 0 → ∀ j, ∀ a ∈ lists j, c.ident a ≠ c.ident b) :
    Wf (pushFront c k b) (update lists k (b :: lists k)) := by
  have hbuf (j : Bucket) : Node.buf b ∉ nodes lists j := by
    simpa [nodes] using hb j
  have hmem (j : Bucket) (a : BufId) (ha : a ∈ update lists k (b :: lists k) j) :
      (a = b ∧ j = k) ∨ a ∈ lists j := by
    obtain rfl | hj := eq_or_ne j k
    · rw [update_self] at ha
      exact (mem_cons.mp ha).imp_left fun e => ⟨e, rfl⟩
    · rw [update_of_ne hj] at ha
      exact .inr ha
  refine ⟨?_, ?_, ?_, ?_, ?_⟩
  · intro j
    obtain rfl | hj := eq_or_ne j k
    · rw [update_self, map_cons]
      refine path_insert (h.ring j) ?_ (head_notMem j _) (h.nodup_nodes j)
      simpa using hb j
    rw [update_of_ne hj]
    refine path_insert_other (h.ring j) ?_ (hbuf j) (hbuf j) ?_
    · exact h.nodes_disjoint (Ne.symm hj) (mem_cons_self ..)
    · refine h.nodes_disjoint (Ne.symm hj) ?_
      rcases mem_append.mp (next_mem (h.ring k)) with hm | hm
      · exact mem_cons_of_mem _ hm
      · rw [mem_singleton.mp hm]
        exact mem_cons_self ..
  · intro j
    obtain rfl | hj := eq_or_ne j k
    · rw [update_self]
      exact nodup_cons.mpr ⟨hb j, h.nodup j⟩
    · rw [update_of_ne hj]
      exact h.nodup j
  · intro i j hij a ha ha'
    rcases hmem i a ha with ⟨rfl, rfl⟩ | hai
    · rcases hmem j a ha' with ⟨-, rfl⟩ | haj
      · exact hij rfl
      · exact hb j haj
    rcases hmem j a ha' with ⟨rfl, -⟩ | haj
    · exact hb i hai
    · exact h.disjoint i j hij a hai haj
  · intro j a ha hdev
    rcases hmem j a ha with ⟨rfl, rfl⟩ | ha
    · exact hhome hdev
    · exact h.home j a ha hdev
  · intro i j x hx y hy hdev hxy
    rcases hmem i x hx with ⟨rfl, -⟩ | hxi
    · rcases hmem j y hy with ⟨rfl, -⟩ | hyj
      · rfl
      · exact absurd hxy.symm (hnew hdev j y hyj)
    rcases hmem j y hy with ⟨rfl, -⟩ | hyj
    · have hd : (c.buf x).dev = (c.buf y).dev := congrArg Prod.fst hxy
      exact absurd hxy (hnew (fun h0 => hdev (hd.trans h0)) i x hxi)
    · exact h.unique i j x hxi y hyj hdev hxy

theorem Wf.place (hb : ∀ k, b ∉ lists k)
    (hnew : dev ≠ 0 → ∀ k, ∀ a ∈ lists k, c.ident a ≠ (dev, blockno)) :
    Wf (Bio.claim (Bio.pushFront c (HASH blockno) b) b dev blockno)
      (update lists (HASH blockno) (b :: lists (HASH blockno))) := by
  have hclaimed : Wf (Bio.claim c b dev blockno) lists := h.setBuf_loose hb _
  have hself : (Bio.claim c b dev blockno).ident b = (dev, blockno) := ident_claim_self ..
  refine hclaimed.pushFront (b := b) hb ?_ ?_
  · intro _
    rw [show ((Bio.claim c b dev blockno).buf b).blockno = blockno from congrArg Prod.snd hself]
  · intro hdev k a ha
    have hne : a ≠ b := fun e => hb k (e ▸ ha)
    rw [hself, ident_claim_of_ne hne]
    refine hnew ?_ k a ha
    rwa [show ((Bio.claim c b dev blockno).buf b).dev = dev from congrArg Prod.fst hself] at hdev

end

end Wf

/-! ## Reference counts -/

section Count
variable {c : Cache}

def Cache.count (c : Cache) (b : BufId) : Nat := (c.buf b).refcnt.toNat

theorem count_eq_zero : c.count b = 0 ↔ (c.buf b).refcnt = 0 := by
  constructor
  · intro h
    exact UInt32.toNat_inj.mp h
  · intro h
    rw [Cache.count, h]
    rfl

theorem count_setBuf (b : BufId) (v : Buf) (x : BufId) :
    (c.setBuf b v).count x = if x = b then v.refcnt.toNat else c.count x := by
  obtain rfl | hx := eq_or_ne x b
  · simp [Cache.count]
  · simp [Cache.count, hx]

@[simp] theorem count_stamp (b x : BufId) : (stamp c b).count x = c.count x := by
  rw [stamp, count_setBuf]
  split
  · rename_i hx
    rw [hx]
    rfl
  · rfl

theorem count_incref (h : c.count b + 1 < 2 ^ 32) (x : BufId) :
    (incref c b).count x = c.count x + if b = x then 1 else 0 := by
  rw [incref, count_setBuf]
  obtain rfl | hx := eq_or_ne x b
  · rw [if_pos rfl, if_pos rfl]
    exact (UInt32.toNat_add ..).trans (Nat.mod_eq_of_lt h)
  · rw [if_neg hx, if_neg (Ne.symm hx), add_zero]

theorem count_decref (h : 0 < c.count b) (x : BufId) :
    (decref c b).count x + (if b = x then 1 else 0) = c.count x := by
  rw [decref, count_setBuf]
  obtain rfl | hx := eq_or_ne x b
  · rw [if_pos rfl, if_pos rfl]
    have hle : 1 ≤ (c.buf x).refcnt := UInt32.le_iff_toNat_le.mpr h
    have hsub : ((c.buf x).refcnt - 1).toNat = (c.buf x).refcnt.toNat - 1 :=
      UInt32.toNat_sub_of_le _ _ hle
    rw [Cache.count] at h ⊢
    simp only [hsub]
    omega
  · rw [if_neg hx, if_neg (Ne.symm hx), add_zero]

theorem count_claim (h : c.count b = 0) (dev blockno : Nat) (x : BufId) :
    (claim c b dev blockno).count x = c.count x + if b = x then 1 else 0 := by
  rw [claim, count_setBuf]
  obtain rfl | hx := eq_or_ne x b
  · rw [if_pos rfl, if_pos rfl, h]
    rfl
  · rw [if_neg hx, if_neg (Ne.symm hx), add_zero]

end Count

/-! ## What `bget` does -/

theorem scan_some {c : Cache} : ∀ is : List Bucket,
    scan c is = some (i, b) → victim c i = some b := by
  intro is
  induction is with
  | nil => intro h; cases h
  | cons j is ih =>
    intro h
    rw [scan] at h
    cases hv : victim c j with
    | some x =>
      rw [hv] at h
      cases h
      exact hv
    | none =>
      rw [hv] at h
      exact ih h

theorem scan_none {c : Cache} : ∀ is : List Bucket, scan c is = none → ∀ i ∈ is,
    victim c i = none := by
  intro is
  induction is with
  | nil => intro _ i hi; cases hi
  | cons j is ih =>
    intro h i hi
    rw [scan] at h
    cases hv : victim c j with
    | some x => rw [hv] at h; cases h
    | none =>
      rw [hv] at h
      rcases mem_cons.mp hi with rfl | hi
      · exact hv
      · exact ih h i hi

theorem mem_around : ∀ bid k : Bucket, k ∈ around bid := by decide

def Full (lists : Bucket → List BufId) : Prop := ∀ b, ∃ k, b ∈ lists k

structure Got (c : Cache) (dev blockno : Nat) (c' : Cache) (b : BufId) : Prop where
  ident : c'.ident b = (dev, blockno)
  refcnt : (c'.buf b).refcnt = (c.buf b).refcnt + 1
  other : ∀ x, x ≠ b → c'.buf x = c.buf x
  /-- A hit, or a free buffer for a block that was in no buffer. -/
  source : (c.ident b = (dev, blockno) ∧ (c'.buf b).valid = (c.buf b).valid) ∨
    ((c.buf b).refcnt = 0 ∧ (∀ x, c.ident x ≠ (dev, blockno)) ∧ (c'.buf b).valid = false)

theorem buf_steal (c : Cache) (i bid : Bucket) (b : BufId) : (steal c i bid b).buf = c.buf := by
  unfold steal
  split <;> rfl

theorem Wf.steal {c : Cache} {lists : Bucket → List BufId} (h : Wf c lists) (hfull : Full lists)
    (hb : b ∈ lists i) (hnew : dev ≠ 0 → ∀ k, ∀ a ∈ lists k, c.ident a ≠ (dev, blockno)) :
    ∃ lists', Wf (Bio.claim (Bio.steal c i (HASH blockno) b) b dev blockno) lists' ∧
      Full lists' := by
  by_cases hi : i = HASH blockno
  · subst hi
    rw [Bio.steal, if_pos rfl]
    exact ⟨lists, h.claim hb hnew, hfull⟩
  rw [Bio.steal, if_neg hi]
  refine ⟨_, (h.unlink hb).place (h.not_mem_unlinked hb) ?_, ?_⟩
  · intro hd k a ha
    refine hnew hd k a ?_
    obtain rfl | hk := eq_or_ne k i
    · rw [update_self] at ha
      exact mem_of_mem_erase ha
    · rwa [update_of_ne hk] at ha
  · intro a
    by_cases hab : a = b
    · exact ⟨HASH blockno, by rw [hab, update_self]; exact mem_cons_self ..⟩
    obtain ⟨k, hk⟩ := hfull a
    refine ⟨k, ?_⟩
    have hk' : a ∈ update lists i ((lists i).erase b) k := by
      obtain rfl | hki := eq_or_ne k i
      · rw [update_self]
        exact (mem_erase_of_ne hab).mpr hk
      · rwa [update_of_ne hki]
    by_cases hkh : k = HASH blockno
    · subst hkh
      rw [update_self]
      exact mem_cons_of_mem b hk'
    · rwa [update_of_ne hkh]

theorem bget_spec {c c' : Cache} {lists : Bucket → List BufId}
    (h : Wf c lists) (hfull : Full lists) (hdev : dev ≠ 0)
    (hget : bget c dev blockno = some (c', b)) :
    Got c dev blockno c' b ∧ ∃ lists', Wf c' lists' ∧ Full lists' := by
  unfold bget at hget
  cases hl : lookup c dev blockno with
  | some x =>
    rw [hl] at hget
    cases hget
    obtain ⟨-, hid⟩ := h.lookup_some hl
    refine ⟨⟨by simpa using hid, ?_, ?_, .inl ⟨hid, ?_⟩⟩, lists, (h.incref b).stamp b, hfull⟩
    · simp [stamp, incref]
    · intro y hy
      simp [stamp, incref, hy]
    · simp [stamp, incref]
  | none =>
    rw [hl] at hget
    cases hs : scan c (around (HASH blockno)) with
    | none => rw [hs] at hget; cases hget
    | some found =>
      obtain ⟨i, x⟩ := found
      rw [hs] at hget
      cases hget
      obtain ⟨hmem, hzero⟩ := h.victim_some (scan_some _ hs)
      have hnew : ∀ y, c.ident y ≠ (dev, blockno) := by
        intro y
        obtain ⟨k, hk⟩ := hfull y
        exact h.lookup_none hdev hl hk
      obtain ⟨lists', hwf, hfull'⟩ := h.steal hfull hmem fun (_ : dev ≠ 0) _ a _ => hnew a
      refine ⟨⟨?_, ?_, ?_, .inr ⟨hzero, hnew, ?_⟩⟩, lists', hwf.stamp b, hfull'⟩
      · rw [ident_stamp, ident_claim_self]
      · simp [stamp, claim, hzero]
      · intro y hy
        simp [stamp, claim, hy, buf_steal]
      · simp [stamp, claim]

theorem bget_none {c : Cache} {lists : Bucket → List BufId} (h : Wf c lists)
    (hfull : Full lists) (hget : bget c dev blockno = none) (b : BufId) :
    (c.buf b).refcnt ≠ 0 := by
  unfold bget at hget
  cases hl : lookup c dev blockno with
  | some x => rw [hl] at hget; cases hget
  | none =>
    rw [hl] at hget
    cases hs : scan c (around (HASH blockno)) with
    | some found => rw [hs] at hget; cases hget
    | none =>
      obtain ⟨k, hk⟩ := hfull b
      exact h.victim_none (scan_none _ hs k (mem_around _ k)) b hk

/-! ## The lists after `binit` -/

def initLists : Bucket → List BufId := update (fun _ => []) 0 (List.finRange NBUF).reverse

theorem full_initLists : Full initLists := by
  intro b
  refine ⟨0, ?_⟩
  rw [initLists, update_self]
  simp

theorem wf_empty : Wf empty fun _ => [] where
  ring := fun _ => ⟨rfl, rfl⟩
  nodup := fun _ => nodup_nil
  disjoint := fun _ _ _ _ h => by cases h
  home := fun _ _ h => by cases h
  unique := fun _ _ _ h => by cases h

theorem wf_foldl_pushFront : ∀ (bs : List BufId) (c : Cache) (lists : Bucket → List BufId),
    Wf c lists → (∀ b, (c.buf b).dev = 0) → bs.Nodup → (∀ b ∈ bs, ∀ k, b ∉ lists k) →
    Wf (bs.foldl (fun c b => pushFront c 0 b) c) (update lists 0 (bs.reverse ++ lists 0)) := by
  intro bs
  induction bs with
  | nil =>
    intro c lists h _ _ _
    simpa using h
  | cons b bs ih =>
    intro c lists h hdev hnd hfresh
    obtain ⟨hb, hnd⟩ := nodup_cons.mp hnd
    have hpush := h.pushFront (k := 0) (hfresh b (mem_cons_self ..))
      (fun hd => absurd (hdev b) hd) (fun hd => absurd (hdev b) hd)
    have := ih _ _ hpush hdev hnd (by
      intro a ha k hm
      obtain rfl | hk := eq_or_ne k 0
      · rw [update_self] at hm
        rcases mem_cons.mp hm with rfl | hm
        · exact hb ha
        · exact hfresh a (mem_cons_of_mem b ha) 0 hm
      · rw [update_of_ne hk] at hm
        exact hfresh a (mem_cons_of_mem b ha) k hm)
    simpa using this

theorem foldl_pushFront_buf : ∀ (bs : List BufId) (c : Cache),
    (bs.foldl (fun c b => pushFront c 0 b) c).buf = c.buf := by
  intro bs
  induction bs with
  | nil => exact fun _ => rfl
  | cons b bs ih => exact fun c => ih (pushFront c 0 b)

theorem count_binit (b : BufId) : binit.count b = 0 := by
  rw [Cache.count, binit, foldl_pushFront_buf]
  rfl

theorem wf_binit : Wf binit initLists := by
  have := wf_foldl_pushFront (finRange NBUF) empty _ wf_empty (fun _ => rfl)
    (nodup_finRange NBUF) (fun _ _ _ h => by cases h)
  rw [append_nil] at this
  exact this

end BirdOS.Bio
