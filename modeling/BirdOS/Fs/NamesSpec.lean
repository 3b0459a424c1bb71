import Mathlib.Data.Fintype.Card
import BirdOS.Lib.Outcome
import BirdOS.Fs.Names

/-! # What the functions of a system call leave

`Mid` describes a state inside a call that began in `s₀`: besides the references that
were there, the call has those of `T`, each an entry of the cache with the number of its
inode, and the locks of `K`.  On the disk inodes without links may have been freed since
`d`; every other change is stated where it is made. -/

namespace BirdOS.Names

open Outcome Function List Finset

attribute [local simp] State.setEntry

/-! ## The disk -/

def Frees (d d' : Nat → Dinode) : Prop :=
  ∀ x, d' x = d x ∨ (d x).nlink = 0 ∧ d' x = (d x).freed

theorem Frees.refl (d : Nat → Dinode) : Frees d d := fun _ => .inl rfl

variable {d' : Nat → Dinode}

theorem Frees.trans {d d'' : Nat → Dinode} (h : Frees d d') (h' : Frees d' d'') : Frees d d'' := by
  intro x
  rcases h x with hk | ⟨hz, hk⟩
  · have hx := h' x
    rwa [hk] at hx
  rcases h' x with hk' | ⟨-, hk'⟩
  · exact .inr ⟨hz, hk'.trans hk⟩
  · rw [hk] at hk'
    exact .inr ⟨hz, hk'⟩

theorem Frees.keeps {d : Nat → Dinode} (h : Frees d d') {x : Nat} (hx : (d x).nlink ≠ 0) :
    d' x = d x :=
  (h x).resolve_right fun hf => hx hf.1

theorem Frees.free {d : Nat → Dinode} {x : Nat} (h : (d x).nlink = 0) :
    Frees d (update d x (d x).freed) := by
  intro y
  obtain rfl | hy := eq_or_ne y x
  · exact .inr ⟨h, update_self ..⟩
  · exact .inl (update_of_ne hy ..)

/-! ## Inside a call -/

/-- Entries that a call has a reference to, with the numbers of their inodes. -/
abbrev Held := Multiset (Ip × Nat)

def held (T : Held) (i : Ip) : Nat := (T.map Prod.fst).count i

theorem held_zero (i : Ip) : held 0 i = 0 := by
  simp [held]

theorem held_cons (h : Ip × Nat) (T : Held) (i : Ip) :
    held (h ::ₘ T) i = held T i + if i = h.1 then 1 else 0 := by
  simp [held, Multiset.count_cons]

theorem held_pos {h : Ip × Nat} {T : Held} (hh : h ∈ T) : 0 < held T h.1 :=
  Multiset.count_pos.mpr (Multiset.mem_map_of_mem _ hh)

structure CacheOk (s : State) : Prop where
  unique : ∀ i j, 0 < (s.icache i).ref → 0 < (s.icache j).ref →
    (s.icache i).inum = (s.icache j).inum → i = j
  valid : ∀ i, 0 < (s.icache i).ref → (s.icache i).valid = true →
    (s.disk (s.icache i).inum).type ≠ none

structure Sound (s : State) : Prop extends CacheOk s where
  cwd : ∀ p i, s.cwd p = some i → 0 < (s.icache i).ref

/-- An entry in use since `s₀` is the same inode, and it was not freed. -/
def Pins (s₀ : State) (d : Nat → Dinode) (s : State) : Prop :=
  ∀ i, 0 < (s₀.icache i).ref → 0 < (s.icache i).ref →
    (s.icache i).inum = (s₀.icache i).inum ∧ s.disk (s₀.icache i).inum = d (s₀.icache i).inum

structure Mid (s₀ : State) (d : Nat → Dinode) (K : Finset Ip) (T : Held) (s : State) : Prop where
  ref : ∀ i, (s.icache i).ref = (s₀.icache i).ref + held T i
  locked : ∀ i, (s.icache i).locked = true ↔ i ∈ K
  inum : ∀ h ∈ T, (s.icache h.1).inum = h.2
  ftable : s.ftable = s₀.ftable
  ofile : s.ofile = s₀.ofile
  cwd : s.cwd = s₀.cwd
  disk : Frees d s.disk
  cache : Sound s₀ → CacheOk s
  pins : Sound s₀ → Pins s₀ d s

def busy (s : State) : Finset Ip := Finset.univ.filter fun i => 0 < (s.icache i).ref

def Spare (s₀ : State) (e : Stop) : Prop := (busy s₀).card + 3 ≤ NINODE → e ≠ .igetNoInodes

def Err (s₀ : State) (e : Stop) : Prop := Spare s₀ e ∧ e ≠ .fileclose

theorem Err.of_ne {s₀ : State} {e : Stop} (h : e ≠ .igetNoInodes ∧ e ≠ .fileclose) : Err s₀ e :=
  ⟨fun _ => h.1, h.2⟩

section Cache
variable {s₀ s : State} {d : Nat → Dinode} {K : Finset Ip} {T : Held} {ip : Ip} {x inum : Nat}

theorem Mid.ref_pos (h : Mid s₀ d K T s) (hT : (ip, x) ∈ T) : 0 < (s.icache ip).ref := by
  have hheld := held_pos hT
  have href := h.ref ip
  simp only at hheld
  omega

theorem Mid.inum_eq (h : Mid s₀ d K T s) (hT : (ip, x) ∈ T) : (s.icache ip).inum = x :=
  h.inum _ hT

/-- What is in use was not freed on the way. -/
theorem Mid.disk_eq (h : Mid s₀ d K T s) (hx : (s.disk x).type ≠ none) : s.disk x = d x :=
  (h.disk x).resolve_right fun hf => hx (by rw [hf.2]; rfl)

theorem Pins.rebase (h : Pins s₀ d s) : Pins s₀ s.disk s := fun i hi hpos =>
  ⟨(h i hi hpos).1, rfl⟩

theorem Mid.rebase (h : Mid s₀ d K T s) : Mid s₀ s.disk K T s :=
  { h with disk := Frees.refl _, pins := fun hs => (h.pins hs).rebase }

theorem Mid.ref_old (h : Mid s₀ d K T s) {i : Ip} (hi : 0 < (s₀.icache i).ref) :
    0 < (s.icache i).ref := by
  have href := h.ref i
  omega

/-- Unused inodes without links are freed, and nothing else changes. -/
def Kept (s₀ : State) (d e : Nat → Dinode) : Prop :=
  Frees d e ∧
    (Sound s₀ → ∀ i, 0 < (s₀.icache i).ref → e (s₀.icache i).inum = d (s₀.icache i).inum)

theorem Mid.kept (h : Mid s₀ d K T s) : Kept s₀ d s.disk :=
  ⟨h.disk, fun hs i hi => (h.pins hs i hi (h.ref_old hi)).2⟩

variable {e : Entry}

theorem Pins.setEntry (h : Pins s₀ d s) (href : ∀ i, 0 < (s₀.icache i).ref → 0 < (s.icache i).ref)
    (hinum : (s.icache ip).ref ≠ 0 → e.inum = (s.icache ip).inum) :
    Pins s₀ d (s.setEntry ip e) := by
  intro i hi _
  obtain ⟨hin, hdisk⟩ := h i hi (href i hi)
  simp only [State.setEntry]
  obtain rfl | hip := eq_or_ne i ip
  · rw [update_self]
    exact ⟨(hinum (Nat.pos_iff_ne_zero.mp (href i hi))).trans hin, hdisk⟩
  · rw [update_of_ne hip]
    exact ⟨hin, hdisk⟩

theorem CacheOk.setEntry (h : CacheOk s)
    (hunique : 0 < e.ref → ∀ j, j ≠ ip → 0 < (s.icache j).ref → (s.icache j).inum ≠ e.inum)
    (hvalid : 0 < e.ref → e.valid = true → (s.disk e.inum).type ≠ none) :
    CacheOk (s.setEntry ip e) := by
  refine ⟨fun i j hi hj heq => ?_, fun i hi hv => ?_⟩
  · simp only [State.setEntry] at hi hj heq
    by_cases hip : i = ip <;> by_cases hjp : j = ip
    · rw [hip, hjp]
    · subst hip
      rw [update_self] at hi heq
      rw [update_of_ne hjp] at hj heq
      exact absurd heq.symm (hunique hi j hjp hj)
    · subst hjp
      rw [update_self] at hj heq
      rw [update_of_ne hip] at hi heq
      exact absurd heq (hunique hj i hip hi)
    rw [update_of_ne hip] at hi heq
    rw [update_of_ne hjp] at hj heq
    exact h.unique i j hi hj heq
  · simp only [State.setEntry] at hi hv ⊢
    obtain rfl | hip := eq_or_ne i ip
    · rw [update_self] at hi hv ⊢
      exact hvalid hi hv
    · rw [update_of_ne hip] at hi hv ⊢
      exact h.valid i hi hv

theorem CacheOk.same (h : CacheOk s) (hpos : 0 < (s.icache ip).ref)
    (hinum : e.inum = (s.icache ip).inum) (hvalid : e.valid = true → (s.icache ip).valid = true ∨
      (s.disk (s.icache ip).inum).type ≠ none) : CacheOk (s.setEntry ip e) := by
  refine h.setEntry (fun _ j hj hjpos heq => hj ?_) fun _ hv => ?_
  · exact h.unique j ip hjpos hpos (heq.trans hinum)
  · rw [hinum]
    exact (hvalid hv).elim (h.valid ip hpos) id

theorem CacheOk.setInode {v : Dinode} (h : CacheOk s)
    (hv : (s.disk x).type ≠ none → v.type ≠ none) : CacheOk (s.setInode x v) := by
  refine ⟨h.unique, fun i hi hvalid => ?_⟩
  have hold := h.valid i hi hvalid
  simp only [State.setInode]
  by_cases hx : (s.icache i).inum = x
  · rw [hx] at hold ⊢
    rw [update_self]
    exact hv hold
  · rw [update_of_ne hx]
    exact hold

section
variable (h : Mid s₀ d K T s)
include h

theorem Mid.take (hinum : e.inum = inum)
    (href : e.ref = (s.icache ip).ref + 1) (hlocked : e.locked = (s.icache ip).locked)
    (hsame : (s.icache ip).ref ≠ 0 → (s.icache ip).inum = inum)
    (hcache : Sound s₀ → CacheOk (s.setEntry ip e)) :
    Mid s₀ d K ((ip, inum) ::ₘ T) (s.setEntry ip e) := by
  refine ⟨fun i => ?_, fun i => ?_, fun g hg => ?_, h.ftable, h.ofile, h.cwd, h.disk, hcache,
    fun hs => (h.pins hs).setEntry (fun i => h.ref_old) fun hne => hinum.trans (hsame hne).symm⟩
  · rw [held_cons]
    obtain rfl | hi := eq_or_ne i ip
    · rw [if_pos rfl]
      simp only [State.setEntry, update_self, href, h.ref i]
      omega
    rw [if_neg hi]
    simp only [State.setEntry, update_of_ne hi, h.ref i]
    omega
  · obtain rfl | hi := eq_or_ne i ip
    · simp only [State.setEntry, update_self, hlocked]
      exact h.locked i
    · simp only [State.setEntry, update_of_ne hi]
      exact h.locked i
  · rcases Multiset.mem_cons.mp hg with rfl | hT
    · simpa using hinum
    by_cases hi : g.1 = ip
    · have hpos : (s.icache ip).ref ≠ 0 := by
        have := h.ref_pos (show (g.1, g.2) ∈ T from hT)
        rw [hi] at this
        omega
      simp only [State.setEntry, hi, update_self, hinum]
      rw [← hsame hpos, ← hi]
      exact h.inum g hT
    · simp only [State.setEntry, update_of_ne hi]
      exact h.inum g hT

theorem iget_spec (hT : T.card ≤ 2) (inum : Nat) :
    Ends (fun r => Mid s₀ d K ((r.1, inum) ::ₘ T) r.2 ∧ r.2.disk = s.disk) (Err s₀)
      (iget inum s) := by
  unfold iget
  split
  · next i hfind =>
    have hfound := find?_some hfind
    simp only [decide_eq_true_eq] at hfound
    refine ⟨h.take hfound.2 rfl rfl (fun _ => hfound.2) fun hs => ?_, rfl⟩
    exact (h.cache hs).same hfound.1 rfl fun hv => .inl hv
  · next hmiss =>
    have hother : ∀ j : Ip, 0 < (s.icache j).ref → (s.icache j).inum ≠ inum := by
      intro j hj heq
      have := find?_eq_none.mp hmiss j (mem_finRange j)
      simp [hj, heq] at this
    split
    · next i hfree =>
      have hzero := find?_some hfree
      simp only [decide_eq_true_eq] at hzero
      refine ⟨h.take rfl (by rw [hzero]) rfl (fun hne => absurd hzero hne) fun hs => ?_, rfl⟩
      exact (h.cache hs).setEntry (fun _ j _ hj => hother j hj) fun _ hv => by cases hv
    · next hfull =>
      refine ⟨fun hspare _ => ?_, by decide⟩
      have hall : ∀ i : Ip, (s.icache i).ref ≠ 0 := by
        intro i hi
        have := find?_eq_none.mp hfull i (mem_finRange i)
        simp [hi] at this
      -- every entry has a reference from before or one of this call
      have hcover : (univ : Finset Ip) ⊆ busy s₀ ∪ (T.map Prod.fst).toFinset := by
        intro i _
        have href := h.ref i
        have hpos := hall i
        by_cases hb : 0 < (s₀.icache i).ref
        · exact mem_union_left _ (by simp [busy, hb])
        refine mem_union_right _ (Multiset.mem_toFinset.mpr ?_)
        refine Multiset.count_pos.mp (show 0 < held T i from ?_)
        omega
      have hcard := (card_le_card hcover).trans (card_union_le _ _)
      have hheld : (T.map Prod.fst).toFinset.card ≤ T.card :=
        (Multiset.toFinset_card_le _).trans_eq (Multiset.card_map _ _)
      rw [card_univ, Fintype.card_fin] at hcard
      omega

theorem idup_spec (hpos : Sound s₀ → 0 < (s.icache ip).ref) :
    Ends (fun r => r.1 = ip ∧ Mid s₀ d K ((ip, (s.icache ip).inum) ::ₘ T) r.2 ∧ r.2.disk = s.disk)
      (Err s₀) (idup ip s) :=
  ⟨rfl, h.take rfl rfl rfl (fun _ => rfl) fun hs =>
    (h.cache hs).same (hpos hs) rfl fun hv => .inl hv, rfl⟩

theorem Mid.setLock {K' : Finset Ip}
    (hinum : e.inum = (s.icache ip).inum) (href : e.ref = (s.icache ip).ref)
    (hlocked : e.locked = true ↔ ip ∈ K') (hother : ∀ i, i ≠ ip → (i ∈ K' ↔ i ∈ K))
    (hcache : Sound s₀ → CacheOk (s.setEntry ip e)) : Mid s₀ d K' T (s.setEntry ip e) := by
  refine ⟨fun i => ?_, fun i => ?_, fun g hg => ?_, h.ftable, h.ofile, h.cwd, h.disk, hcache,
    fun hs => (h.pins hs).setEntry (fun i => h.ref_old) fun _ => hinum⟩
  · obtain rfl | hi := eq_or_ne i ip
    · simpa [href] using h.ref i
    · simpa [hi] using h.ref i
  · obtain rfl | hi := eq_or_ne i ip
    · simpa using hlocked
    · rw [hother i hi]
      simpa [hi] using h.locked i
  · by_cases hi : g.1 = ip
    · have hg' := h.inum g hg
      rw [hi] at hg'
      simpa [hi, hinum] using hg'
    · simpa [hi] using h.inum g hg

theorem ilock_held (hx : (s.icache ip).inum = x) (hpos : 0 < (s.icache ip).ref) :
    Ends (fun r => ip ∉ K ∧ Mid s₀ d (insert ip K) T r.2 ∧ r.2.disk = s.disk ∧
      (r.2.icache ip).inum = x ∧ (Sound s₀ → (s.disk x).type ≠ none)) (Err s₀) (ilock ip s) := by
  unfold ilock
  split
  · exact Err.of_ne (by decide)
  split
  · exact Err.of_ne (by decide)
  · next hfree =>
    split
    · exact Err.of_ne (by decide)
    · next hok =>
      have htype : Sound s₀ → (s.disk (s.icache ip).inum).type ≠ none := by
        intro hs hnone
        by_cases hv : (s.icache ip).valid = true
        · exact (h.cache hs).valid ip hpos hv hnone
        · exact hok ⟨Bool.eq_false_iff.mpr hv, hnone⟩
      refine ⟨fun hK => hfree ((h.locked ip).mpr hK), ?_, rfl, ?_, hx ▸ htype⟩
      swap
      · simpa using hx
      exact h.setLock rfl rfl (iff_of_true rfl (mem_insert_self ip K))
        (fun i hi => by simp [hi]) fun hs => (h.cache hs).same hpos rfl fun _ => .inr (htype hs)

theorem ilock_spec (hT : (ip, x) ∈ T) :
    Ends (fun r => ip ∉ K ∧ Mid s₀ d (insert ip K) T r.2 ∧ r.2.disk = s.disk ∧
      (Sound s₀ → (s.disk x).type ≠ none)) (Err s₀) (ilock ip s) :=
  (ilock_held h (h.inum_eq hT) (h.ref_pos hT)).mono
    (fun _ hr => ⟨hr.1, hr.2.1, hr.2.2.1, hr.2.2.2.2⟩) fun _ he => he

end

theorem iunlock_spec (h : Mid s₀ d (insert ip K) T s) (hK : ip ∉ K) :
    Ends (fun r => Mid s₀ d K T r.2 ∧ r.2.disk = s.disk) (Err s₀) (iunlock ip s) := by
  unfold iunlock
  split
  · exact Err.of_ne (by decide)
  · next hok =>
    have hpos : 0 < (s.icache ip).ref := by omega
    refine ⟨h.setLock rfl rfl (iff_of_false (by simp) hK) (fun i hi => ?_) fun hs => ?_, rfl⟩
    · simp [hi]
    · exact (h.cache hs).same hpos rfl fun hv => .inl hv

theorem Mid.setDisk (h : Mid s₀ d K T s) {x : Nat} {v : Dinode}
    (hv : (s.disk x).type ≠ none → v.type ≠ none) :
    Mid s₀ (update s.disk x v) K T (s.setInode x v) :=
  ⟨h.ref, h.locked, h.inum, h.ftable, h.ofile, h.cwd, Frees.refl _,
    fun hs => (h.cache hs).setInode hv, fun hs i hi hpos => ⟨(h.pins hs i hi hpos).1, rfl⟩⟩

def MayFree (x : Nat) (d d' : Nat → Dinode) : Prop :=
  d' = d ∨ (d x).nlink = 0 ∧ d' = update d x (d x).freed

theorem MayFree.frees {d : Nat → Dinode} (h : MayFree x d d') : Frees d d' := by
  rcases h with rfl | ⟨hz, rfl⟩
  · exact Frees.refl _
  · exact Frees.free hz

structure Dropped (ip : Ip) (s s' : State) : Prop where
  ref_self : (s'.icache ip).ref = (s.icache ip).ref - 1
  ref_other : ∀ i, i ≠ ip → (s'.icache i).ref = (s.icache i).ref
  inum : ∀ i, (s'.icache i).inum = (s.icache i).inum
  locked : ∀ i, (s'.icache i).locked = (s.icache i).locked
  ftable : s'.ftable = s.ftable
  ofile : s'.ofile = s.ofile
  cwd : s'.cwd = s.cwd
  disk : MayFree (s.icache ip).inum s.disk s'.disk
  last : 0 < (s'.icache ip).ref → s'.disk = s.disk
  cache : 0 < (s.icache ip).ref → CacheOk s → CacheOk s'

theorem dropped_setEntry (e : Entry) (hinum : e.inum = (s.icache ip).inum)
    (href : e.ref = (s.icache ip).ref - 1) (hlocked : e.locked = (s.icache ip).locked)
    (hdisk : MayFree (s.icache ip).inum s.disk d') (hlast : 0 < e.ref → d' = s.disk)
    (hcache : 0 < (s.icache ip).ref → CacheOk s →
      CacheOk { s.setEntry ip e with disk := d' }) :
    Dropped ip s { s.setEntry ip e with disk := d' } := by
  refine ⟨?_, fun i hi => ?_, fun i => ?_, fun i => ?_, rfl, rfl, rfl, hdisk, fun hpos => ?_,
    hcache⟩
  · simp [href]
  · simp [hi]
  · obtain rfl | hi := eq_or_ne i ip
    · simp [hinum]
    · simp [hi]
  · obtain rfl | hi := eq_or_ne i ip
    · simp [hlocked]
    · simp [hi]
  · simp only [State.setEntry, update_self] at hpos
    exact hlast hpos

theorem CacheOk.free (h : CacheOk s) (hpos : 0 < (s.icache ip).ref) :
    CacheOk { s.setEntry ip { s.icache ip with ref := 0, valid := false } with
      disk := update s.disk (s.icache ip).inum (s.disk (s.icache ip).inum).freed } := by
  have hset : CacheOk (s.setEntry ip { s.icache ip with ref := 0, valid := false }) :=
    h.setEntry (fun h0 => absurd h0 (lt_irrefl 0)) fun _ hv => by cases hv
  refine ⟨hset.unique, fun i hi hv => ?_⟩
  obtain rfl | hip := eq_or_ne i ip
  · simp at hi
  have hold := hset.valid i hi hv
  simp only [State.setEntry, update_of_ne hip] at hi hold ⊢
  have hne : (s.icache i).inum ≠ (s.icache ip).inum := fun heq => hip (h.unique i ip hi hpos heq)
  rw [update_of_ne hne]
  exact hold

theorem iput_dropped (s : State) (ip : Ip) :
    Ends (fun r => Dropped ip s r.2) (Err s₀) (iput ip s) := by
  unfold iput
  split
  · next hlast =>
    split
    · exact Err.of_ne (by decide)
    exact dropped_setEntry { s.icache ip with ref := 0, valid := false } rfl (by simp [hlast.1])
      rfl (.inr ⟨hlast.2.2, rfl⟩) (fun hpos => absurd hpos (lt_irrefl 0))
      fun hpos h => h.free hpos
  · exact dropped_setEntry { s.icache ip with ref := (s.icache ip).ref - 1 } rfl rfl rfl (.inl rfl)
      (fun _ => rfl) fun hpos h => h.same hpos rfl fun hv => .inl hv

theorem Dropped.pins {s' : State} (hd : Dropped ip s s') (hpos : 0 < (s.icache ip).ref)
    (hok : CacheOk s) (href : ∀ i, 0 < (s₀.icache i).ref → 0 < (s.icache i).ref)
    (h : Pins s₀ d s) : Pins s₀ d s' := by
  intro i hi hpos'
  obtain ⟨hin, hdisk⟩ := h i hi (href i hi)
  refine ⟨(hd.inum i).trans hin, ?_⟩
  obtain rfl | hip := eq_or_ne i ip
  · rw [hd.last hpos', hdisk]
  rcases hd.disk with heq | ⟨-, heq⟩
  · rw [heq, hdisk]
  have hne : (s₀.icache i).inum ≠ (s.icache ip).inum := by
    rw [← hin]
    exact fun hsame => hip (hok.unique i ip (href i hi) hpos hsame)
  rw [heq, update_of_ne hne, hdisk]

theorem Mid.dropped (h : Mid s₀ d K ((ip, x) ::ₘ T) s) {s' : State} (hd : Dropped ip s s') :
    Mid s₀ d K T s' ∧ MayFree x s.disk s'.disk := by
  have hmem : (ip, x) ∈ (ip, x) ::ₘ T := Multiset.mem_cons_self _ _
  have hfree : MayFree x s.disk s'.disk := h.inum_eq hmem ▸ hd.disk
  refine ⟨⟨fun i => ?_, fun i => ?_, fun g hg => ?_, hd.ftable.trans h.ftable,
    hd.ofile.trans h.ofile, hd.cwd.trans h.cwd, h.disk.trans hfree.frees,
    fun hs => hd.cache (h.ref_pos hmem) (h.cache hs),
    fun hs => hd.pins (h.ref_pos hmem) (h.cache hs) (fun i => h.ref_old) (h.pins hs)⟩, hfree⟩
  · have href := h.ref i
    rw [held_cons] at href
    obtain rfl | hi := eq_or_ne i ip
    · rw [if_pos rfl] at href
      rw [hd.ref_self]
      omega
    rw [if_neg hi] at href
    rw [hd.ref_other i hi]
    omega
  · rw [hd.locked]
    exact h.locked i
  · rw [hd.inum]
    exact h.inum g (Multiset.mem_cons_of_mem hg)

theorem iput_spec (h : Mid s₀ d K ((ip, x) ::ₘ T) s) :
    Ends (fun r => Mid s₀ d K T r.2 ∧ MayFree x s.disk r.2.disk) (Err s₀) (iput ip s) :=
  (iput_dropped s ip).mono (fun _ hr => h.dropped hr) fun _ he => he

theorem iunlockput_spec (h : Mid s₀ d (insert ip K) ((ip, x) ::ₘ T) s) (hK : ip ∉ K) :
    Ends (fun r => Mid s₀ d K T r.2 ∧ MayFree x s.disk r.2.disk) (Err s₀) (iunlockput ip s) := by
  unfold iunlockput
  refine .seq (iunlock_spec h hK) ?_
  intro _ s' hs
  rw [← hs.2]
  exact iput_spec hs.1

theorem inode_spec (h : Mid s₀ d K T s) (hT : (ip, x) ∈ T) :
    Ends (fun r => r = (s.disk x, s)) (Err s₀) (inode ip s) := by
  simp only [inode, Ends, h.inum_eq hT]

theorem iupdate_mid (h : Mid s₀ d K T s) (hip : (ip, x) ∈ T) (f : Dinode → Dinode)
    (hf : (s.disk x).type ≠ none → (f (s.disk x)).type ≠ none) :
    Ends (fun r => r.2.disk = update s.disk x (f (s.disk x)) ∧ Mid s₀ r.2.disk K T r.2)
      (Err s₀) (iupdate ip f s) := by
  simp only [iupdate, Ends, h.inum_eq hip]
  exact ⟨rfl, h.setDisk hf⟩

end Cache

/-! ## Directories and paths -/

section Paths
variable {s₀ s : State} {d : Nat → Dinode} {K : Finset Ip} {T : Held} {dp ip : Ip} {x inum : Nat}
  {name : Name}

theorem dirlookup_spec (h : Mid s₀ d K T s) (hT : T.card ≤ 2) (hdp : (dp, x) ∈ T) (name : Name) :
    Ends (fun r => (s.disk x).type = some .dir ∧ r.2.disk = s.disk ∧
      (r.1 = none ∧ lookup name (s.disk x).entries = none ∧ r.2 = s ∨
        ∃ ip off y, r.1 = some (ip, off) ∧ lookup name (s.disk x).entries = some (off, y) ∧
          Mid s₀ d K ((ip, y) ::ₘ T) r.2)) (Err s₀) (dirlookup dp name s) := by
  unfold dirlookup
  refine .seq (inode_spec h hdp) ?_
  rintro _ _ ⟨⟩
  split
  · exact Err.of_ne (by decide)
  · next htype =>
    have htype : (s.disk x).type = some .dir := by simpa using htype
    cases hl : lookup name (s.disk x).entries with
    | none => exact ⟨htype, rfl, .inl ⟨rfl, rfl, rfl⟩⟩
    | some found =>
      obtain ⟨off, y⟩ := found
      refine .seq (iget_spec h hT y) ?_
      intro i s' hs
      exact ⟨htype, hs.2, .inr ⟨i, off, y, rfl, rfl, hs.1⟩⟩

theorem dirlink_spec (h : Mid s₀ d K T s) (hT : T.card ≤ 2) (hdp : (dp, x) ∈ T) (name : Name)
    (inum : Nat) : Ends (fun r => (s.disk x).type = some .dir ∧
      (r.1 = false ∧ lookup name (s.disk x).entries ≠ none ∧ Mid s₀ d K T r.2 ∨
        r.1 = true ∧ lookup name (s.disk x).entries = none ∧
          r.2 = s.setInode x { s.disk x with
            entries := enter ⟨inum % 2 ^ 16, name.take DIRSIZ⟩ (s.disk x).entries }))
      (Err s₀) (dirlink dp name inum s) := by
  unfold dirlink
  refine .seq (dirlookup_spec h hT hdp name) ?_
  rintro r s' ⟨htype, -, ⟨rfl, hnone, hs⟩ | ⟨ip, off, y, rfl, hsome, hmid⟩⟩
  · obtain rfl : s' = s := hs
    refine .seq (inode_spec h hdp) ?_
    rintro _ _ ⟨⟩
    split
    · exact Err.of_ne (by decide)
    refine .seq (R := fun r => r.2 = s'.setInode x _)
      (by simp only [iupdate, Ends, h.inum_eq hdp]; rfl) ?_
    rintro _ _ rfl
    exact ⟨htype, .inr ⟨rfl, hnone, rfl⟩⟩
  · refine .seq (iput_spec hmid) ?_
    intro _ s' hs
    exact ⟨htype, .inl ⟨rfl, by simp [hsome], hs.1⟩⟩

theorem skipelem_length {path rest : List UInt8} (h : skipelem path = some (name, rest)) :
    name.length ≤ DIRSIZ := by
  simp only [skipelem] at h
  split at h
  · cases h
  · cases h
    exact length_take_le _ _

theorem elems_length (f : Nat) : ∀ path, ∀ name ∈ elems f path, name.length ≤ DIRSIZ := by
  induction f with
  | zero => simp [elems]
  | succ f ih =>
    intro path name hname
    unfold elems at hname
    split at hname
    · cases hname
    · next n rest hskip =>
      rcases mem_cons.mp hname with rfl | hrest
      · exact skipelem_length hskip
      · exact ih rest name hrest

def Walked (s₀ : State) (d : Nat → Dinode) (K : Finset Ip) (T : Held) (parent : Bool)
    (r : Option (Ip × Name) × State) : Prop :=
  match r.1 with
  | none => Mid s₀ d K T r.2
  | some (ip, name) => ∃ x, Mid s₀ d K ((ip, x) ::ₘ T) r.2 ∧
      (parent = true → (r.2.disk x).type = some .dir ∧ name.length ≤ DIRSIZ)

def resolve (d : Nat → Dinode) : Nat → List Name → Option Nat
  | x, [] => some x
  | x, name :: rest =>
    if (d x).type = some .dir then
      (lookup name (d x).entries).bind fun r => resolve d r.2 rest
    else none

/-- The directory of the last name, and that name; without `parent` the inode. -/
def reaches (d : Nat → Dinode) (parent : Bool) (x : Nat) (names : List Name) :
    Option (Nat × Name) :=
  if parent then names.getLast?.bind fun name => (resolve d x names.dropLast).bind fun y =>
    if (d y).type = some .dir then some (y, name) else none
  else (resolve d x names).map fun y => (y, [])

theorem reaches_of_not_dir {x : Nat} (h : (d x).type ≠ some .dir) (parent : Bool) (name : Name)
    (rest : List Name) : reaches d parent x (name :: rest) = none := by
  cases rest <;> simp [reaches, resolve, h]

theorem reaches_cons {x : Nat} (h : (d x).type = some .dir) {parent : Bool} {name : Name}
    {rest : List Name} (hrest : ¬ (parent = true ∧ rest = [])) :
    reaches d parent x (name :: rest) =
      (lookup name (d x).entries).bind fun r => reaches d parent r.2 rest := by
  cases parent with
  | false => cases hl : lookup name (d x).entries <;> simp [reaches, resolve, h, hl]
  | true =>
    cases rest with
    | nil => simp at hrest
    | cons b bs => cases hl : lookup name (d x).entries <;> simp [reaches, resolve, h, hl]

theorem resolve_of_reaches {off y z : Nat} {name : Name} {names : List Name} :
    ∀ {x : Nat}, reaches d true x names = some (y, name) →
      lookup name (d y).entries = some (off, z) → resolve d x names = some z := by
  induction names with
  | nil =>
    intro x h
    simp [reaches] at h
  | cons n rest ih =>
    intro x h hl
    by_cases hdir : (d x).type = some .dir
    · by_cases hrest : rest = []
      · subst hrest
        simp only [reaches, resolve, hdir, if_true] at h
        simp only [List.getLast?_singleton, List.dropLast_singleton, resolve, Option.bind_some,
          hdir, if_true, Option.some.injEq, Prod.mk.injEq] at h
        obtain ⟨rfl, rfl⟩ := h
        simp [resolve, hdir, hl]
      · rw [reaches_cons hdir (by simp [hrest])] at h
        obtain ⟨r, hr, h⟩ := Option.bind_eq_some_iff.mp h
        simp only [resolve, hdir, if_true, hr, Option.bind_some]
        exact ih h hl
    · rw [reaches_of_not_dir hdir] at h
      cases h

theorem namexLoop_spec (hT : T.card ≤ 1) (parent : Bool) (names : List Name)
    (hnames : ∀ name ∈ names, name.length ≤ DIRSIZ) : ∀ (ip : Ip) (x : Nat) (s : State),
    Mid s₀ d K ((ip, x) ::ₘ T) s →
    Ends (fun r => Walked s₀ d K T parent r ∧ (Sound s₀ →
      r.1.map (fun g => ((r.2.icache g.1).inum, g.2)) = reaches d parent x names)) (Err s₀)
      (namexLoop parent ip names s) := by
  induction names with
  | nil =>
    intro ip x s h
    unfold namexLoop
    split
    · next hparent =>
      refine .seq (iput_spec h) ?_
      intro _ s' hs
      exact ⟨hs.1, fun _ => by simp [reaches, hparent]⟩
    · next hparent =>
      refine ⟨⟨x, h, fun hp => absurd hp hparent⟩, fun _ => ?_⟩
      simp [reaches, resolve, hparent, h.inum_eq (Multiset.mem_cons_self _ _)]
  | cons name rest ih =>
    intro ip x s h
    have hmem : ∀ {g : Ip × Nat} {T : Held}, g ∈ g ::ₘ T := Multiset.mem_cons_self _ _
    unfold namexLoop
    refine .seq (ilock_spec h hmem) ?_
    rintro _ s1 ⟨hK, h1, hd1, hused⟩
    -- an inode that is freed on the way is not locked again
    have hx : Sound s₀ → s1.disk x = d x := fun hs => h1.disk_eq (by rw [hd1]; exact hused hs)
    refine .seq (inode_spec h1 hmem) ?_
    rintro _ _ ⟨⟩
    split
    · next htype =>
      refine .seq (iunlockput_spec h1 hK) ?_
      intro _ s2 hs
      refine ⟨hs.1, fun hsound => (reaches_of_not_dir ?_ parent name rest).symm⟩
      rw [← hx hsound]
      exact htype
    · next htype =>
      have htype : (s1.disk x).type = some .dir := by simpa using htype
      have hdir : Sound s₀ → (d x).type = some .dir := fun hs => by rw [← hx hs, htype]
      split
      · next hlast =>
        obtain ⟨rfl, rfl⟩ := hlast
        refine .seq (iunlock_spec h1 hK) ?_
        rintro _ s2 ⟨h2, hd2⟩
        refine ⟨⟨x, h2, fun _ => ⟨hd2 ▸ htype, hnames name (mem_cons_self ..)⟩⟩, fun hs => ?_⟩
        have hinum : (s2.icache ip).inum = x := h2.inum_eq hmem
        simp [reaches, resolve, hdir hs, hinum]
      next hrest =>
      refine .seq (dirlookup_spec h1 (by simpa using hT) hmem name) ?_
      rintro r s2 ⟨-, -, ⟨rfl, hnone, hs⟩ | ⟨next, off, y, rfl, hfound, h2⟩⟩
      · obtain rfl : s2 = s1 := hs
        refine .seq (iunlockput_spec h1 hK) ?_
        intro _ s3 hs
        refine ⟨hs.1, fun hsound => ?_⟩
        rw [reaches_cons (hdir hsound) hrest, ← hx hsound, hnone]
        rfl
      · rw [Multiset.cons_swap] at h2
        refine .seq (iunlockput_spec h2 hK) ?_
        rintro _ s3 ⟨h3, -⟩
        refine (ih (fun n hn => hnames n (mem_cons_of_mem _ hn)) next y s3 h3).mono
          (fun r hr => ⟨hr.1, fun hsound => ?_⟩) fun _ he => he
        rw [hr.2 hsound, reaches_cons (hdir hsound) hrest, ← hx hsound, hfound]
        rfl

def origin (s : State) (p : Slot) (path : List UInt8) : Nat :=
  if path.head? = some slash then ROOTINO else (s.cwd p).elim 0 fun ip => (s.icache ip).inum

theorem Mid.origin_eq (h : Mid s₀ d K T s) (hs : Sound s₀) (p : Slot) (path : List UInt8) :
    origin s p path = origin s₀ p path := by
  unfold origin
  rw [h.cwd]
  cases hcwd : s₀.cwd p with
  | none => rfl
  | some ip =>
    have hpos := hs.cwd p ip hcwd
    simp only [Option.elim_some, (h.pins hs ip hpos (h.ref_old hpos)).1]

/-- The inode that a path of the process leads to. -/
def named (d : Nat → Dinode) (s : State) (p : Slot) (path : List UInt8) : Option Nat :=
  resolve d (origin s p path) (elems path.length path)

theorem start_spec (h : Mid s₀ d K T s) (hT : T.card ≤ 1) (p : Slot) (path : List UInt8) :
    Ends (fun r => Mid s₀ d K ((r.1, origin s p path) ::ₘ T) r.2) (Err s₀) (start p path s) := by
  unfold start origin
  split
  · exact (iget_spec h (by omega) ROOTINO).mono (fun r hr => hr.1) fun _ he => he
  split
  · next ip hcwd =>
    have hpos : Sound s₀ → 0 < (s.icache ip).ref := by
      intro hs
      have hbase := hs.cwd p ip (h.cwd ▸ hcwd)
      have href := h.ref ip
      omega
    refine (idup_spec h hpos).mono (fun r hr => ?_) fun _ he => he
    rw [hr.1, hcwd]
    exact hr.2.1
  · exact Err.of_ne (by decide)

theorem namex_reaches (h : Mid s₀ d K T s) (hT : T.card ≤ 1) (p : Slot) (path : List UInt8)
    (parent : Bool) : Ends (fun r => Walked s₀ d K T parent r ∧ (Sound s₀ →
      r.1.map (fun g => ((r.2.icache g.1).inum, g.2)) =
        reaches d parent (origin s p path) (elems path.length path))) (Err s₀)
      (namex p path parent s) := by
  unfold namex
  refine .seq (start_spec h hT p path) ?_
  exact fun ip s' h' => namexLoop_spec hT parent _ (elems_length _ path) ip _ s' h'

theorem namex_spec (h : Mid s₀ d K T s) (hT : T.card ≤ 1) (p : Slot) (path : List UInt8)
    (parent : Bool) : Ends (Walked s₀ d K T parent) (Err s₀) (namex p path parent s) :=
  (namex_reaches h hT p path parent).mono (fun _ hr => hr.1) fun _ he => he

def Got (s₀ : State) (d : Nat → Dinode) (K : Finset Ip) (T : Held) (r : Option Ip × State) : Prop :=
  match r.1 with
  | none => Mid s₀ d K T r.2
  | some ip => ∃ x, Mid s₀ d K ((ip, x) ::ₘ T) r.2

theorem namei_named (h : Mid s₀ d K T s) (hT : T.card ≤ 1) (p : Slot) (path : List UInt8) :
    Ends (fun r => Got s₀ d K T r ∧
      (Sound s₀ → r.1.map (fun i => (r.2.icache i).inum) = named d s₀ p path)) (Err s₀)
      (namei p path s) := by
  unfold namei
  refine .seq (namex_reaches h hT p path false) ?_
  rintro r s' ⟨hr, hreach⟩
  have hnamed : Sound s₀ →
      (r.map Prod.fst).map (fun i => (s'.icache i).inum) = named d s₀ p path := by
    intro hs
    have hfst := congrArg (Option.map Prod.fst) (hreach hs)
    rw [h.origin_eq hs] at hfst
    simpa [reaches, named, Function.comp_def] using hfst
  cases r with
  | none => exact ⟨hr, hnamed⟩
  | some r =>
    obtain ⟨x, hx, -⟩ := hr
    exact ⟨⟨x, hx⟩, hnamed⟩

theorem namei_spec (h : Mid s₀ d K T s) (hT : T.card ≤ 1) (p : Slot) (path : List UInt8) :
    Ends (Got s₀ d K T) (Err s₀) (namei p path s) :=
  (namei_named h hT p path).mono (fun _ hr => hr.1) fun _ he => he

end Paths

end BirdOS.Names
