import BirdOS.Fs.JournalCode

/-! # Reference counts and pins

A buffer counts the callers that have it from `bread` and the pins of the log.  The pins are
known from the blocks: `plus` are the blocks with a pin, `minus` those whose pin recovery
has dropped without there being one.  The counter has 32 bits and wraps. -/

namespace BirdOS.Journal

open Bio Fs Function List

attribute [local simp] Cache.setBuf

def level (plus minus : List Nat) (id : Nat × Nat) : Int :=
  if id.1 = ROOTDEV ∧ id.2 ∈ plus then 1 else if id.1 = ROOTDEV ∧ id.2 ∈ minus then -1 else 0

variable {blk : Nat}

section Level
variable {plus minus : List Nat} {id : Nat × Nat}

theorem level_bounds (plus minus : List Nat) (id : Nat × Nat) : -1 ≤ level plus minus id ∧
    level plus minus id ≤ 1 := by
  unfold level
  split
  · decide
  · split <;> decide

theorem level_eq_zero (hp : id.2 ∉ plus) (hm : id.2 ∉ minus) : level plus minus id = 0 := by
  unfold level
  rw [if_neg fun h => hp h.2, if_neg fun h => hm h.2]

theorem level_of_plus (h : blk ∈ plus) : level plus minus (ROOTDEV, blk) = 1 :=
  if_pos ⟨rfl, h⟩

theorem level_of_minus (hp : blk ∉ plus) (h : blk ∈ minus) :
    level plus minus (ROOTDEV, blk) = -1 := by
  unfold level
  rw [if_neg fun h => hp h.2, if_pos ⟨rfl, h⟩]

theorem notMem_of_level_eq_zero (h : level plus minus (ROOTDEV, blk) = 0) :
    blk ∉ plus ∧ blk ∉ minus := by
  refine ⟨?_, ?_⟩
  · intro hp
    rw [level_of_plus hp] at h
    cases h
  · intro hm
    by_cases hp : blk ∈ plus
    · rw [level_of_plus hp] at h
      cases h
    · rw [level_of_minus hp hm] at h
      cases h

theorem level_congr {plus' minus' : List Nat} (hp : id.1 = ROOTDEV → (id.2 ∈ plus' ↔ id.2 ∈ plus))
    (hm : id.1 = ROOTDEV → (id.2 ∈ minus' ↔ id.2 ∈ minus)) :
    level plus' minus' id = level plus minus id := by
  unfold level
  have hp' : (id.1 = ROOTDEV ∧ id.2 ∈ plus') ↔ (id.1 = ROOTDEV ∧ id.2 ∈ plus) := and_congr_right hp
  have hm' : (id.1 = ROOTDEV ∧ id.2 ∈ minus') ↔ (id.1 = ROOTDEV ∧ id.2 ∈ minus) :=
    and_congr_right hm
  simp only [hp', hm']

end Level

structure Counts (c : Cache) (users : BufId → Nat) (pins : BufId → Int) (plus minus : List Nat) :
    Prop where
  lists : ∃ lists, Wf c lists ∧ Full lists
  count : ∀ b, ((c.buf b).refcnt.toNat : Int) = (users b + pins b) % 2 ^ 32
  pins : ∀ b, pins b = level plus minus (c.ident b)
  cached : ∀ blk, blk ∈ plus ∨ blk ∈ minus → ∃ b, c.ident b = (ROOTDEV, blk)
  nodup : plus.Nodup
  disjoint : ∀ blk ∈ plus, blk ∉ minus
  dev : ∀ b, users b ≠ 0 ∨ (c.buf b).valid = true → (c.buf b).dev = ROOTDEV
  few : ∀ b, users b ≤ NPROC + 1

theorem counts_binit : Counts binit (fun _ => 0) (fun _ => 0) [] [] where
  lists := ⟨initLists, wf_binit, full_initLists⟩
  count := by
    intro b
    rw [show (binit.buf b).refcnt.toNat = 0 from count_binit b]
    rfl
  pins := fun _ => (level_eq_zero (by simp) (by simp)).symm
  cached := by simp
  nodup := nodup_nil
  disjoint := by simp
  dev := by
    intro b h
    rcases h with h | h
    · exact absurd rfl h
    · rw [binit, foldl_pushFront_buf] at h
      cases h
  few := fun _ => zero_le

namespace Counts
variable {c : Cache} {users : BufId → Nat} {pins : BufId → Int} {plus minus : List Nat}

variable {b : BufId}

theorem unique (h : Counts c users pins plus minus) {a : BufId}
    (ha : c.ident a = (ROOTDEV, blk)) (hb : c.ident b = (ROOTDEV, blk)) : a = b := by
  obtain ⟨lists, hwf, hfull⟩ := h.lists
  obtain ⟨j, hj⟩ := hfull a
  obtain ⟨k, hk⟩ := hfull b
  refine hwf.unique j k a hj b hk ?_ (ha.trans hb.symm)
  rw [show (c.buf a).dev = ROOTDEV from congrArg Prod.fst ha]
  decide

theorem ident_of_dev (h : (c.buf b).dev = ROOTDEV) :
    c.ident b = (ROOTDEV, (c.buf b).blockno) := Prod.ext h rfl

theorem unused (h : Counts c users pins plus minus) (h0 : (c.buf b).refcnt = 0)
    (hclean : users b ≠ 0 → (c.buf b).blockno ∉ minus) : users b = 0 ∧ pins b = 0 := by
  have hcount := h.count b
  rw [h0] at hcount
  have hbounds := level_bounds plus minus (c.ident b)
  rw [← h.pins b] at hbounds
  have hfew := h.few b
  unfold NPROC at hfew
  have hzero : (UInt32.toNat 0 : Int) = 0 := rfl
  rw [hzero] at hcount
  have hcases : users b = 0 ∧ pins b = 0 ∨ users b = 1 ∧ pins b = -1 := by omega
  rcases hcases with hz | ⟨hu, hp⟩
  · exact hz
  have hne : users b ≠ 0 := by omega
  have hid := ident_of_dev (h.dev b (.inl hne))
  rw [h.pins b, hid, level] at hp
  split at hp
  · cases hp
  split at hp
  · rename_i hm
    exact absurd hm.2 (hclean hne)
  · cases hp

variable {users' : BufId → Nat}

section
variable (h : Counts c users pins plus minus)
include h

theorem bget {c' : Cache}
    (hgot : Got c ROOTDEV blk c' b) (hlists : ∃ lists, Wf c' lists ∧ Full lists)
    (hclean : ∀ x, users x ≠ 0 → (c.buf x).blockno ∉ minus)
    (husers : ∀ x, users' x = users x + if b = x then 1 else 0) (hfew : ∀ x, users' x ≤ NPROC + 1) :
    Counts c' users' pins plus minus := by
  have hother (x : BufId) (hx : x ≠ b) : c'.ident x = c.ident x := by
    simp [Cache.ident, hgot.other x hx]
  -- on a miss neither the old block of the buffer nor the new one is pinned
  have hpins : pins b = level plus minus (ROOTDEV, blk) := by
    rcases hgot.source with ⟨hid, -⟩ | ⟨h0, hmiss, -⟩
    · rw [h.pins b, hid]
    rw [(h.unused h0 (hclean b)).2]
    symm
    apply level_eq_zero
    · intro hp
      obtain ⟨x, hx⟩ := h.cached blk (.inl hp)
      exact hmiss x hx
    intro hm
    obtain ⟨x, hx⟩ := h.cached blk (.inr hm)
    exact hmiss x hx
  refine ⟨hlists, ?_, ?_, ?_, h.nodup, h.disjoint, ?_, hfew⟩
  · intro x
    have hcount := h.count x
    rw [husers x]
    obtain rfl | hx := eq_or_ne x b
    · rw [hgot.refcnt, if_pos rfl, UInt32.toNat_add, show UInt32.toNat 1 = 1 from rfl]
      push_cast
      omega
    · rw [hgot.other x hx, if_neg (Ne.symm hx)]
      exact hcount
  · intro x
    obtain rfl | hx := eq_or_ne x b
    · rw [hgot.ident]
      exact hpins
    · rw [hother x hx]
      exact h.pins x
  · intro y hy
    obtain ⟨x, hx⟩ := h.cached y hy
    obtain rfl | hxb := eq_or_ne x b
    · rcases hgot.source with ⟨hid, -⟩ | ⟨h0, -, -⟩
      · exact ⟨x, by rw [hgot.ident, ← hid, hx]⟩
      have hz := (h.unused h0 (hclean x)).2
      rw [h.pins x, hx] at hz
      obtain ⟨hp, hm⟩ := notMem_of_level_eq_zero hz
      exact absurd hy (not_or.mpr ⟨hp, hm⟩)
    · exact ⟨x, by rw [hother x hxb, hx]⟩
  · intro x hx
    obtain rfl | hxb := eq_or_ne x b
    · exact congrArg Prod.fst hgot.ident
    rw [hgot.other x hxb] at hx ⊢
    rw [husers x, if_neg (Ne.symm hxb), add_zero] at hx
    exact h.dev x hx

theorem congr {c' : Cache} (hlists : ∃ lists, Wf c' lists ∧ Full lists)
    (hcount : ∀ x, ((c'.buf x).refcnt.toNat : Int) = (users' x + pins x) % 2 ^ 32)
    (hid : ∀ x, c'.ident x = c.ident x)
    (hdev : ∀ x, users' x ≠ 0 ∨ (c'.buf x).valid = true → users x ≠ 0 ∨ (c.buf x).valid = true)
    (hfew : ∀ x, users' x ≤ NPROC + 1) : Counts c' users' pins plus minus where
  lists := hlists
  count := hcount
  pins := by
    intro x
    rw [hid x]
    exact h.pins x
  cached := by
    intro blk hblk
    obtain ⟨x, hx⟩ := h.cached blk hblk
    exact ⟨x, (hid x).trans hx⟩
  nodup := h.nodup
  disjoint := h.disjoint
  dev := by
    intro x hx
    rw [show (c'.buf x).dev = (c.buf x).dev from congrArg Prod.fst (hid x)]
    exact h.dev x (hdev x hx)
  few := hfew

theorem validate (hb : users b ≠ 0) :
    Counts (c.setBuf b { c.buf b with valid := true }) users pins plus minus := by
  obtain ⟨lists, hwf, hfull⟩ := h.lists
  refine h.congr ⟨lists, hwf.setBuf b _ rfl, hfull⟩ ?_ (ident_setBuf b _ rfl) ?_ h.few
  · intro x
    rw [← h.count x]
    obtain rfl | hx := eq_or_ne x b
    · simp
    · simp [hx]
  · intro x hx
    obtain rfl | hxb := eq_or_ne x b
    · exact .inl hb
    · simpa [hxb] using hx

theorem tick (t : UInt32) :
    Counts { c with ticks := t } users pins plus minus := by
  obtain ⟨lists, hwf, hfull⟩ := h.lists
  exact h.congr ⟨lists, hwf.congr rfl rfl fun _ _ _ => rfl, hfull⟩ h.count (fun _ => rfl)
    (fun _ hx => hx) h.few

end

theorem toNat_pred (a : UInt32) : ((a - 1).toNat : Int) = ((a.toNat : Int) - 1) % 2 ^ 32 := by
  have ha := a.toNat_lt
  rw [UInt32.toNat_sub, show UInt32.toNat 1 = 1 from rfl]
  omega

theorem toNat_succ (a : UInt32) : ((a + 1).toNat : Int) = ((a.toNat : Int) + 1) % 2 ^ 32 := by
  rw [UInt32.toNat_add, show UInt32.toNat 1 = 1 from rfl]
  omega

section
variable (h : Counts c users pins plus minus)
include h

theorem brelse (husers : ∀ x, users' x + (if b = x then 1 else 0) = users x) :
    Counts (Bio.brelse c b) users' pins plus minus := by
  obtain ⟨lists, hwf, hfull⟩ := h.lists
  refine h.congr ⟨lists, (hwf.decref b).stamp b, hfull⟩ ?_ ?_ ?_ ?_
  · intro x
    have hcount := h.count x
    have hu := husers x
    obtain rfl | hx := eq_or_ne x b
    · rw [if_pos rfl] at hu
      have hdec : ((Bio.brelse c x).buf x).refcnt = (c.buf x).refcnt - 1 := by
        simp [Bio.brelse, stamp, decref]
      rw [hdec, toNat_pred, hcount]
      omega
    rw [if_neg (Ne.symm hx)] at hu
    have hsame : (Bio.brelse c b).buf x = c.buf x := by
      simp [Bio.brelse, stamp, decref, hx]
    rw [hsame, hcount]
    omega
  · intro x
    rw [Bio.brelse, ident_stamp, ident_decref]
  · intro x hx
    have hu := husers x
    have hvalid : ((Bio.brelse c b).buf x).valid = (c.buf x).valid := by
      obtain rfl | hxb := eq_or_ne x b
      · simp [Bio.brelse, stamp, decref]
      · simp [Bio.brelse, stamp, decref, hxb]
    rw [hvalid] at hx
    exact hx.imp_left (by omega)
  · intro x
    have hu := husers x
    have := h.few x
    omega

theorem repin {plus' minus' : List Nat}
    (v : Buf) (hb : c.ident b = (ROOTDEV, blk)) (hv : (v.dev, v.blockno) = c.ident b)
    (hvalid : v.valid = (c.buf b).valid) (n : Int)
    (hcount : (v.refcnt.toNat : Int) = ((c.buf b).refcnt.toNat + (n - pins b)) % 2 ^ 32)
    (hn : n = level plus' minus' (ROOTDEV, blk))
    (hplus : ∀ x, x ≠ blk → (x ∈ plus' ↔ x ∈ plus)) (hminus : ∀ x, x ≠ blk →
      (x ∈ minus' ↔ x ∈ minus))
    (hnodup : plus'.Nodup) (hdis : blk ∈ plus' → blk ∉ minus') :
    Counts (c.setBuf b v) users (update pins b n) plus' minus' := by
  obtain ⟨lists, hwf, hfull⟩ := h.lists
  have hid := ident_setBuf b v hv
  refine ⟨⟨lists, hwf.setBuf b v hv, hfull⟩, ?_, ?_, ?_, hnodup, ?_, ?_, h.few⟩
  · intro x
    obtain rfl | hx := eq_or_ne x b
    · have hself : (c.setBuf x v).buf x = v := by simp
      rw [hself, update_self, hcount, h.count x]
      omega
    have hsame : (c.setBuf b v).buf x = c.buf x := by simp [hx]
    rw [hsame, update_of_ne hx]
    exact h.count x
  · intro x
    rw [hid x]
    obtain rfl | hx := eq_or_ne x b
    · rw [update_self, hb]
      exact hn
    rw [update_of_ne hx, h.pins x]
    have hne : (c.ident x).1 = ROOTDEV → (c.ident x).2 ≠ blk := by
      intro hdev hblk
      exact hx (h.unique (Prod.ext hdev hblk) hb)
    exact (level_congr (fun hd => hplus _ (hne hd)) fun hd => hminus _ (hne hd)).symm
  · intro x hx
    by_cases hxb : x = blk
    · exact ⟨b, by rw [hid b, hb, hxb]⟩
    rw [hplus x hxb, hminus x hxb] at hx
    obtain ⟨y, hy⟩ := h.cached x hx
    exact ⟨y, (hid y).trans hy⟩
  · intro x hx
    by_cases hxb : x = blk
    · rw [hxb] at hx ⊢
      exact hdis hx
    rw [hplus x hxb] at hx
    rw [hminus x hxb]
    exact h.disjoint x hx
  · intro x hx
    rw [show ((c.setBuf b v).buf x).dev = (c.buf x).dev from congrArg Prod.fst (hid x)]
    refine h.dev x (hx.imp_right ?_)
    intro hxv
    obtain rfl | hxb := eq_or_ne x b
    · rw [← hvalid]
      simpa using hxv
    · simpa [hxb] using hxv

theorem bpin (hb : c.ident b = (ROOTDEV, blk)) (hp : blk ∉ plus) (hm : blk ∉ minus) :
    Counts (Bio.bpin c b) users (update pins b (pins b + 1)) (plus ++ [blk]) minus := by
  have h0 : pins b = 0 := by
    rw [h.pins b, hb]
    exact level_eq_zero hp hm
  refine h.repin { c.buf b with refcnt := (c.buf b).refcnt + 1 } hb rfl rfl (pins b + 1) ?_ ?_ ?_
    (fun _ _ => Iff.rfl) ?_ fun _ => hm
  · rw [toNat_succ, h0]
    rfl
  · rw [h0, level_of_plus (by simp)]
    rfl
  · intro x hx
    simp [hx]
  · rw [nodup_append]
    refine ⟨h.nodup, nodup_singleton blk, ?_⟩
    intro x hx y hy e
    rw [mem_singleton.mp hy] at e
    exact hp (e ▸ hx)

theorem bunpin (hb : c.ident b = (ROOTDEV, blk)) (hp : blk ∈ plus) :
    Counts (Bio.bunpin c b) users (update pins b (pins b - 1)) (plus.erase blk) minus := by
  have h1 : pins b = 1 := by
    rw [h.pins b, hb]
    exact level_of_plus hp
  have hgone : blk ∉ plus.erase blk := h.nodup.not_mem_erase
  refine h.repin { c.buf b with refcnt := (c.buf b).refcnt - 1 } hb rfl rfl (pins b - 1) ?_ ?_ ?_
    (fun _ _ => Iff.rfl) (h.nodup.erase blk) (fun hmem => absurd hmem hgone)
  · rw [toNat_pred, h1]
    rfl
  · rw [h1, level_eq_zero hgone (h.disjoint blk hp)]
    rfl
  · intro x hx
    exact mem_erase_of_ne hx

theorem bunpin_unpinned (hb : c.ident b = (ROOTDEV, blk)) (hp : blk ∉ plus) (hm : blk ∉ minus) :
    Counts (Bio.bunpin c b) users (update pins b (pins b - 1)) plus (blk :: minus) := by
  have h0 : pins b = 0 := by
    rw [h.pins b, hb]
    exact level_eq_zero hp hm
  refine h.repin { c.buf b with refcnt := (c.buf b).refcnt - 1 } hb rfl rfl (pins b - 1) ?_ ?_
    (fun _ _ => Iff.rfl) ?_ h.nodup (fun hmem => absurd hmem hp)
  · rw [toNat_pred, h0]
    rfl
  · rw [h0, level_of_minus hp (by simp)]
    rfl
  · intro x hx
    simp [hx]

end

end Counts

end BirdOS.Journal
