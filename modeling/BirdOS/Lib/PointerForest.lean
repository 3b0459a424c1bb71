import Mathlib.Logic.Function.Basic

/-! # Forests of pointers to blocks

Block numbers are stored in root cells `top t` and, under a root of positive height, in
the cells `word b k` of the blocks they name; `0` is the null pointer.  A place in the
forest is a root and the list of the cells from there on, the last one first.

`Sep` says that no block is named twice.  It is what keeps a store to one cell from being
seen anywhere else in the forest. -/

namespace PointerForest

open List

structure Mem (T K : Type*) where
  top : T → Nat
  word : Nat → K → Nat

section Defs
variable {T K : Type*}

def val (m : Mem T K) (t : T) : List K → Nat
  | [] => m.top t
  | k :: ks => if val m t ks = 0 then 0 else m.word (val m t ks) k

def Owned (height : T → Nat) (m : Mem T K) (b : Nat) : Prop :=
  b ≠ 0 ∧ ∃ t ks, ks.length ≤ height t ∧ val m t ks = b

def Sep (height : T → Nat) (m : Mem T K) : Prop :=
  ∀ t ks t' ks', ks.length ≤ height t → ks'.length ≤ height t' → val m t ks ≠ 0 →
    val m t ks = val m t' ks' → t = t' ∧ ks = ks'

end Defs

section Frame
variable {T K : Type*} {height : T → Nat} {m m' : Mem T K} {t : T} {ks : List K} {k : K} {b : Nat}

theorem val_cons_of_ne (h : val m t ks ≠ 0) : val m t (k :: ks) = m.word (val m t ks) k := by
  rw [val, if_neg h]

theorem val_cons_of_eq (h : val m t ks = 0) : val m t (k :: ks) = 0 := by
  rw [val, if_pos h]

theorem val_parent_ne (h : val m t (k :: ks) ≠ 0) : val m t ks ≠ 0 := by
  intro hz
  exact h (val_cons_of_eq hz)

theorem owned_val (hv : ks.length ≤ height t) (h : val m t ks ≠ 0) : Owned height m (val m t ks) :=
  ⟨h, t, ks, hv, rfl⟩

theorem val_congr (htop : m'.top t = m.top t)
    (hword : ∀ ks k, ks.length < height t → val m t ks ≠ 0 →
      m'.word (val m t ks) k = m.word (val m t ks) k) :
    ∀ ks, ks.length ≤ height t → val m' t ks = val m t ks := by
  intro ks
  induction ks with
  | nil =>
    intro _
    exact htop
  | cons k ks ih =>
    intro hv
    have hlt : ks.length < height t := hv
    have hpar := ih (Nat.le_of_lt hlt)
    by_cases hz : val m t ks = 0
    · rw [val_cons_of_eq hz, val_cons_of_eq (hpar.trans hz)]
    · rw [val_cons_of_ne hz, val_cons_of_ne (by rw [hpar]; exact hz), hpar]
      exact hword ks k hlt hz

theorem val_append_null (h : val m t ks = 0) (js : List K) : val m t (js ++ ks) = 0 := by
  induction js with
  | nil => exact h
  | cons k js ih => exact val_cons_of_eq ih

theorem Sep.of_sub (h : Sep height m)
    (hsub : ∀ t ks, ks.length ≤ height t → val m' t ks = 0 ∨ val m' t ks = val m t ks) :
    Sep height m' := by
  intro t ks t' ks' hv hv' hne heq
  have hold := (hsub t ks hv).resolve_left hne
  have hold' := (hsub t' ks' hv').resolve_left (heq ▸ hne)
  rw [hold] at hne heq
  rw [hold'] at heq
  exact h t ks t' ks' hv hv' hne heq

theorem owned_congr (hval : ∀ t ks, ks.length ≤ height t → val m' t ks = val m t ks) :
    Owned height m' b ↔ Owned height m b := by
  constructor
  · rintro ⟨hb, t, ks, hv, he⟩
    exact ⟨hb, t, ks, hv, (hval t ks hv) ▸ he⟩
  · rintro ⟨hb, t, ks, hv, he⟩
    exact ⟨hb, t, ks, hv, (hval t ks hv).trans he⟩

end Frame

/-! ## The blocks below a place -/

section Under
variable {T K : Type*} {height : T → Nat} {m : Mem T K} {t t' : T} {ks ks' : List K} {k k' : K}
  {b : Nat}

def Under (height : T → Nat) (m : Mem T K) (t : T) (ks : List K) (b : Nat) : Prop :=
  b ≠ 0 ∧ ∃ js : List K, js.length + ks.length ≤ height t ∧ val m t (js ++ ks) = b

theorem Under.owned (h : Under height m t ks b) : Owned height m b := by
  obtain ⟨hb, js, hv, he⟩ := h
  exact ⟨hb, t, js ++ ks, by rwa [length_append], he⟩

theorem under_self (hv : ks.length ≤ height t) (h : val m t ks ≠ 0) :
    Under height m t ks (val m t ks) :=
  ⟨h, [], by simpa using hv, rfl⟩

theorem under_null (h : val m t ks = 0) : ¬ Under height m t ks b := by
  rintro ⟨hb, js, _, he⟩
  exact hb (he.symm.trans (val_append_null h js))

theorem Under.of_cons (h : Under height m t (k :: ks) b) : Under height m t ks b := by
  obtain ⟨hb, js, hv, he⟩ := h
  refine ⟨hb, js ++ [k], ?_, ?_⟩
  · simp only [length_append, length_cons, length_nil] at hv ⊢
    omega
  · rwa [append_assoc]

theorem under_leaf (hv : ks.length = height t) :
    Under height m t ks b ↔ b ≠ 0 ∧ val m t ks = b := by
  constructor
  · rintro ⟨hb, js, hlen, he⟩
    have hnil : js = [] := eq_nil_of_length_eq_zero (by omega)
    subst hnil
    exact ⟨hb, he⟩
  · rintro ⟨hb, rfl⟩
    exact under_self (Nat.le_of_eq hv) hb

theorem under_step (hv : ks.length ≤ height t) :
    Under height m t ks b ↔ (b ≠ 0 ∧ val m t ks = b) ∨ ∃ k, Under height m t (k :: ks) b := by
  constructor
  · rintro ⟨hb, js, hlen, he⟩
    rcases eq_nil_or_concat js with rfl | ⟨js', k, rfl⟩
    · exact .inl ⟨hb, he⟩
    rw [concat_eq_append] at hlen he
    refine .inr ⟨k, hb, js', ?_, ?_⟩
    · simp only [length_append, length_cons, length_nil] at hlen ⊢
      omega
    · rwa [append_assoc] at he
  · rintro (⟨hb, rfl⟩ | ⟨k, h⟩)
    · exact under_self hv hb
    · exact h.of_cons

theorem Sep.under_under (hsep : Sep height m) (h : Under height m t ks b)
    (h' : Under height m t' ks' b) : t = t' ∧ ∃ js js', js ++ ks = js' ++ ks' := by
  obtain ⟨hb, js, hv, he⟩ := h
  obtain ⟨_, js', hv', he'⟩ := h'
  rw [← length_append] at hv hv'
  obtain ⟨ht, hks⟩ := hsep _ _ _ _ hv hv' (he ▸ hb) (he.trans he'.symm)
  exact ⟨ht, js, js', hks⟩

theorem Sep.under_sibling (hsep : Sep height m) (h : Under height m t (k :: ks) b)
    (h' : Under height m t (k' :: ks) b) : k = k' := by
  obtain ⟨_, js, js', he⟩ := hsep.under_under h h'
  exact (cons.inj (append_inj_right' he rfl)).1

theorem Sep.not_under_child (hsep : Sep height m) (hv : ks.length ≤ height t) :
    ¬ Under height m t (k :: ks) (val m t ks) := by
  rintro ⟨hb, js, hlen, he⟩
  rw [← length_append] at hlen
  obtain ⟨_, hks⟩ := hsep _ _ _ _ hv hlen hb he.symm
  have := congrArg length hks
  simp only [length_append, length_cons] at this
  omega

end Under

/-! ## A new pointer -/

section Link
variable {T K : Type*} [DecidableEq T] [DecidableEq K] {height : T → Nat} {m m' : Mem T K}
  {t : T} {ks : List K} {k : K} {b : Nat}

/-- The place that was null in `m` names `b`, and every other place is as it was. -/
def Linked (height : T → Nat) (m m' : Mem T K) (t : T) (ks : List K) (b : Nat) : Prop :=
  ∀ t' ks', ks'.length ≤ height t' →
    val m' t' ks' = if t' = t ∧ ks' = ks then b else val m t' ks'

theorem linked_top (hb : b ≠ 0) (hz : m.top t = 0) (htop : m'.top = Function.update m.top t b)
    (hword : ∀ t ks k, ks.length < height t → val m t ks ≠ 0 →
      m'.word (val m t ks) k = m.word (val m t ks) k)
    (hnew : ∀ k, m'.word b k = 0) : Linked height m m' t [] b := by
  intro t' ks'
  induction ks' with
  | nil =>
    intro _
    simp only [val, htop, and_true]
    by_cases ht : t' = t
    · subst ht
      simp
    · simp [ht]
  | cons k ks' ih =>
    intro hv
    have hlt : ks'.length < height t' := hv
    have hpar := ih (Nat.le_of_lt hlt)
    rw [if_neg (by simp)]
    by_cases hr : t' = t ∧ ks' = []
    · rw [if_pos hr] at hpar
      obtain ⟨rfl, rfl⟩ := hr
      rw [val_cons_of_ne (by rw [hpar]; exact hb), hpar, hnew]
      have hnull : val m t' [] = 0 := hz
      exact (val_cons_of_eq hnull).symm
    rw [if_neg hr] at hpar
    by_cases hzero : val m t' ks' = 0
    · rw [val_cons_of_eq hzero, val_cons_of_eq (hpar.trans hzero)]
    · rw [val_cons_of_ne hzero, val_cons_of_ne (by rw [hpar]; exact hzero), hpar]
      exact hword t' ks' k hlt hzero

theorem linked_word (h : Sep height m) (hb : b ≠ 0) (hv : ks.length < height t)
    (hp : val m t ks ≠ 0) (hz : m.word (val m t ks) k = 0) (htop : m'.top = m.top)
    (hword : ∀ t' ks' k', ks'.length < height t' → val m t' ks' ≠ 0 → m'.word (val m t' ks') k' =
        if val m t' ks' = val m t ks ∧ k' = k then b else m.word (val m t' ks') k')
    (hnew : ∀ k, m'.word b k = 0) : Linked height m m' t (k :: ks) b := by
  intro t' ks'
  induction ks' with
  | nil =>
    intro _
    rw [if_neg (by simp)]
    simp only [val, htop]
  | cons k' ks' ih =>
    intro hv'
    have hlt : ks'.length < height t' := hv'
    have hpar := ih (Nat.le_of_lt hlt)
    by_cases hr : t' = t ∧ ks' = k :: ks
    · -- below the new pointer there is only the empty block
      rw [if_pos hr] at hpar
      obtain ⟨rfl, rfl⟩ := hr
      rw [val_cons_of_ne (by rw [hpar]; exact hb), hpar, hnew, if_neg (by simp)]
      exact (val_cons_of_eq ((val_cons_of_ne hp).trans hz)).symm
    rw [if_neg hr] at hpar
    by_cases hzero : val m t' ks' = 0
    · rw [val_cons_of_eq (hpar.trans hzero), val_cons_of_eq hzero]
      split
      · rename_i he
        obtain ⟨rfl, he⟩ := he
        cases he
        exact absurd hzero hp
      · rfl
    · rw [val_cons_of_ne (by rw [hpar]; exact hzero), hpar, hword t' ks' k' hlt hzero,
        val_cons_of_ne hzero]
      congr 1
      simp only [eq_iff_iff, cons.injEq]
      constructor
      · rintro ⟨he, hk⟩
        obtain ⟨rfl, rfl⟩ := h t' ks' t ks (Nat.le_of_lt hlt) (Nat.le_of_lt hv) hzero he
        exact ⟨rfl, hk, rfl⟩
      · rintro ⟨ht, hk, hks⟩
        rw [ht, hks]
        exact ⟨rfl, hk⟩

theorem Linked.owned_iff (h : Linked height m m' t ks b) (hv : ks.length ≤ height t) (hb : b ≠ 0)
    (hz : val m t ks = 0) (x : Nat) : Owned height m' x ↔ Owned height m x ∨ x = b := by
  constructor
  · rintro ⟨hx, t', ks', hv', he⟩
    rw [h t' ks' hv'] at he
    split at he
    · exact .inr he.symm
    · exact .inl ⟨hx, t', ks', hv', he⟩
  · rintro (⟨hx, t', ks', hv', he⟩ | rfl)
    · refine ⟨hx, t', ks', hv', ?_⟩
      rw [h t' ks' hv', if_neg, he]
      rintro ⟨rfl, rfl⟩
      rw [hz] at he
      exact hx he.symm
    · exact ⟨hb, t, ks, hv, by rw [h t ks hv, if_pos ⟨rfl, rfl⟩]⟩

theorem Linked.sep (h : Linked height m m' t ks b) (hsep : Sep height m)
    (hfresh : ¬ Owned height m b) : Sep height m' := by
  intro t1 ks1 t2 ks2 hv1 hv2 hne heq
  rw [h t1 ks1 hv1] at hne heq
  rw [h t2 ks2 hv2] at heq
  split at heq
  · rename_i h1
    rw [if_pos h1] at hne
    split at heq
    · rename_i h2
      exact ⟨h1.1.trans h2.1.symm, h1.2.trans h2.2.symm⟩
    · exact absurd ⟨hne, t2, ks2, hv2, heq.symm⟩ hfresh
  · rename_i h1
    rw [if_neg h1] at hne
    split at heq
    · exact absurd ⟨heq ▸ hne, t1, ks1, hv1, heq⟩ hfresh
    · exact hsep t1 ks1 t2 ks2 hv1 hv2 hne heq

end Link

end PointerForest
