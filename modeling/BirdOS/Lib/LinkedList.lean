import Mathlib.Data.List.Nodup

/-! # Lists threaded through pointer maps

`Chain next p xs` says that following `next` from `p` visits exactly the nodes
`xs` and then reaches the null pointer `none`.  `Seg next prev pr hd xs nx tl` is
its doubly linked form for a piece of a list: `hd` points at the first node, `pr`
at the node before it, `nx` at the node after the last one and `tl` at the last
node (`pr` when the piece is empty). -/

namespace LinkedList

open Function List

section Single
variable {α : Type*}

def Chain (next : α → Option α) : Option α → List α → Prop
  | p, [] => p = none
  | p, x :: xs => p = some x ∧ Chain next (next x) xs

variable {next : α → Option α}

theorem chain_none_iff (xs : List α) : Chain next none xs ↔ xs = [] := by
  cases xs with
  | nil | cons x xs => simp [Chain]

theorem chain_eq_nil_iff {p : Option α} {xs : List α} (h : Chain next p xs) :
    xs = [] ↔ p = none := by
  cases xs with
  | nil => simpa [Chain] using h
  | cons x xs => simp [h.1]

theorem chain_some {x : α} {xs : List α} (h : Chain next (some x) xs) :
    ∃ ys, xs = x :: ys ∧ Chain next (next x) ys := by
  cases xs with
  | nil => simp [Chain] at h
  | cons y ys =>
    obtain ⟨hp, ht⟩ := h
    cases hp
    exact ⟨ys, rfl, ht⟩

theorem chain_unique : ∀ (xs ys : List α) (p : Option α),
    Chain next p xs → Chain next p ys → xs = ys := by
  intro xs
  induction xs with
  | nil =>
    intro ys p hx hy
    rw [show p = none from hx] at hy
    exact ((chain_none_iff ys).mp hy).symm
  | cons x xs ih =>
    intro ys p hx hy
    rw [hx.1] at hy
    obtain ⟨zs, rfl, hz⟩ := chain_some hy
    rw [ih zs (next x) hx.2 hz]

theorem chain_suffix : ∀ (xs : List α) (p : Option α) (x : α), Chain next p xs → x ∈ xs → ∃ ys,
    Chain next (some x) ys ∧ ys.length ≤ xs.length := by
  intro xs
  induction xs with
  | nil => intro p x _ hx; simp at hx
  | cons y xs ih =>
    intro p x h hx
    rcases mem_cons.mp hx with rfl | hx
    · exact ⟨x :: xs, ⟨rfl, h.2⟩, Nat.le_refl _⟩
    · obtain ⟨ys, hy, hl⟩ := ih (next y) x h.2 hx
      exact ⟨ys, hy, by rw [length_cons]; omega⟩

theorem chain_nodup : ∀ (xs : List α) (p : Option α), Chain next p xs → xs.Nodup := by
  intro xs
  induction xs with
  | nil => intro p _; exact nodup_nil
  | cons x xs ih =>
    intro p h
    refine nodup_cons.mpr ⟨?_, ih (next x) h.2⟩
    intro hx
    obtain ⟨ys, hy, hl⟩ := chain_suffix xs (next x) x h.2 hx
    have hsame : ys = x :: xs := chain_unique ys (x :: xs) (some x) hy ⟨rfl, h.2⟩
    rw [hsame, length_cons] at hl
    omega

theorem chain_update [DecidableEq α] (x : α) (v : Option α) : ∀ (xs : List α) (p : Option α),
    x ∉ xs → (Chain (update next x v) p xs ↔ Chain next p xs) := by
  intro xs
  induction xs with
  | nil => intro p _; exact Iff.rfl
  | cons y xs ih =>
    intro p hx
    rw [mem_cons, not_or] at hx
    simp only [Chain]
    rw [update_of_ne (Ne.symm hx.1), ih (next y) hx.2]

theorem chain_push [DecidableEq α] {p : Option α} {x : α} {xs : List α} (h : Chain next p xs)
    (hx : x ∉ xs) : Chain (update next x p) (some x) (x :: xs) := by
  refine ⟨rfl, ?_⟩
  rw [update_self]
  exact (chain_update x p xs p hx).mpr h

theorem chain_congr {next' : α → Option α} : ∀ (xs : List α) (p : Option α),
    (∀ x ∈ xs, next' x = next x) → Chain next p xs → Chain next' p xs := by
  intro xs
  induction xs with
  | nil => exact fun _ _ h => h
  | cons x xs ih =>
    intro p hsame h
    refine ⟨h.1, ?_⟩
    rw [hsame x mem_cons_self]
    exact ih _ (fun y hy => hsame y (mem_cons_of_mem x hy)) h.2

theorem chain_snoc [DecidableEq α] {x t : α} : ∀ (xs : List α) (p : Option α),
    Chain next p (xs ++ [t]) → x ∉ xs ++ [t] →
    Chain (update (update next x none) t (some x)) p (xs ++ [t] ++ [x]) := by
  intro xs
  induction xs with
  | nil =>
    intro p h hx
    have hxt : x ≠ t := fun h => hx (h ▸ mem_singleton_self x)
    exact ⟨h.1, update_self .., by rw [update_of_ne hxt]; exact update_self ..⟩
  | cons y xs ih =>
    intro p h hx
    have hnd : y ∉ xs ++ [t] := (nodup_cons.mp (chain_nodup _ _ h)).1
    have hyt : y ≠ t := fun h => hnd (h ▸ mem_append_right xs (mem_singleton_self y))
    have hyx : y ≠ x := fun h => hx (h ▸ mem_cons_self)
    refine ⟨h.1, ?_⟩
    rw [update_of_ne hyt, update_of_ne hyx]
    exact ih _ h.2 fun hm => hx (mem_cons_of_mem y hm)

theorem chain_splice [DecidableEq α] {a x : α} {ys : List α} : ∀ (xs : List α) (p : Option α),
    Chain next p (xs ++ a :: x :: ys) → Chain (update next a (next x)) p (xs ++ a :: ys) := by
  intro xs
  induction xs with
  | nil =>
    intro p h
    have ha : a ∉ ys := fun hm =>
      (nodup_cons.mp (chain_nodup _ _ h)).1 (mem_cons_of_mem x hm)
    refine ⟨h.1, ?_⟩
    rw [update_self]
    exact (chain_update a _ ys _ ha).mpr h.2.2
  | cons y xs ih =>
    intro p h
    have hya : y ≠ a := fun hy => (nodup_cons.mp (chain_nodup _ _ h)).1
      (hy ▸ mem_append_right xs mem_cons_self)
    refine ⟨h.1, ?_⟩
    rw [update_of_ne hya]
    exact ih _ h.2

end Single

section Double
variable {α : Type*}

def Seg (next prev : α → Option α) : Option α → Option α → List α → Option α → Option α → Prop
  | pr, hd, [], nx, tl => hd = nx ∧ tl = pr
  | pr, hd, x :: xs, nx, tl => hd = some x ∧ prev x = pr ∧ Seg next prev (some x) (next x) xs nx tl

variable {next prev : α → Option α}

theorem seg_chain : ∀ (xs : List α) (pr hd tl : Option α), Seg next prev pr hd xs none tl →
    Chain next hd xs := by
  intro xs
  induction xs with
  | nil => intro pr hd tl h; exact h.1
  | cons x xs ih => intro pr hd tl h; exact ⟨h.1, ih (some x) (next x) tl h.2.2⟩

variable {pr hd tl : Option α}

theorem seg_nodup {xs : List α} (h : Seg next prev pr hd xs none tl) : xs.Nodup :=
  chain_nodup xs hd (seg_chain xs pr hd tl h)

theorem seg_append : ∀ (xs ys : List α) (pr hd nx tl : Option α),
    Seg next prev pr hd (xs ++ ys) nx tl ↔
      ∃ m t, Seg next prev pr hd xs m t ∧ Seg next prev t m ys nx tl := by
  intro xs
  induction xs with
  | nil =>
    intro ys pr hd nx tl
    simp only [nil_append, Seg]
    constructor
    · intro h
      exact ⟨hd, pr, ⟨rfl, rfl⟩, h⟩
    · rintro ⟨m, t, ⟨rfl, rfl⟩, h⟩
      exact h
  | cons x xs ih =>
    intro ys pr hd nx tl
    simp only [cons_append, Seg, ih]
    constructor
    · rintro ⟨h1, h2, m, t, h3, h4⟩
      exact ⟨m, t, ⟨h1, h2, h3⟩, h4⟩
    · rintro ⟨m, t, ⟨h1, h2, h3⟩, h4⟩
      exact ⟨h1, h2, m, t, h3, h4⟩

theorem seg_congr {next' prev' : α → Option α} : ∀ (xs : List α) (pr hd nx tl : Option α),
    (∀ x ∈ xs, next' x = next x ∧ prev' x = prev x) →
    Seg next prev pr hd xs nx tl → Seg next' prev' pr hd xs nx tl := by
  intro xs
  induction xs with
  | nil => intro pr hd nx tl _ h; exact h
  | cons x xs ih =>
    intro pr hd nx tl hx h
    obtain ⟨hn, hp⟩ := hx x (mem_cons_self ..)
    refine ⟨h.1, hp.trans h.2.1, ?_⟩
    rw [hn]
    exact ih _ _ _ _ (fun y hy => hx y (mem_cons_of_mem x hy)) h.2.2

variable {nx : Option α}

theorem seg_tail_nil (h : Seg next prev pr hd [] nx tl) :
    hd = nx ∧ tl = pr := h

theorem seg_tail_snoc {pr hd nx tl : Option α} {ys : List α} {t : α}
    (h : Seg next prev pr hd (ys ++ [t]) nx tl) : tl = some t := by
  obtain ⟨m, p, _, h2⟩ := (seg_append ys [t] pr hd nx tl).mp h
  exact h2.2.2.2

theorem seg_head_cons {b : α} {bs : List α}
    (h : Seg next prev pr hd (b :: bs) nx tl) : hd = some b := h.1

variable [DecidableEq α]

theorem seg_set_next {ys : List α} {t : α}
    (h : Seg next prev pr hd (ys ++ [t]) nx tl) (ht : t ∉ ys) (nx' : Option α) :
    Seg (update next t nx') prev pr hd (ys ++ [t]) nx' tl := by
  obtain ⟨m, p, h1, h2⟩ := (seg_append ys [t] pr hd nx tl).mp h
  rw [seg_append]
  refine ⟨m, p, ?_, h2.1, h2.2.1, ?_, h2.2.2.2⟩
  · apply seg_congr ys _ _ _ _ _ h1
    intro x hx
    have hne : x ≠ t := fun e => ht (e ▸ hx)
    exact ⟨update_of_ne hne _ _, rfl⟩
  · exact update_self ..

theorem seg_set_prev {b : α} {bs : List α}
    (h : Seg next prev pr hd (b :: bs) nx tl) (hb : b ∉ bs) (pr' : Option α) :
    Seg next (update prev b pr') pr' hd (b :: bs) nx tl := by
  refine ⟨h.1, update_self .., ?_⟩
  apply seg_congr bs _ _ _ _ _ h.2.2
  intro x hx
  have hne : x ≠ b := fun e => hb (e ▸ hx)
  exact ⟨rfl, update_of_ne hne _ _⟩

theorem seg_update_other {pr hd nx tl : Option α} {xs : List α} {x : α}
    (h : Seg next prev pr hd xs nx tl) (hx : x ∉ xs) (v w : Option α) :
    Seg (update next x v) (update prev x w) pr hd xs nx tl := by
  apply seg_congr xs _ _ _ _ _ h
  intro y hy
  have hne : y ≠ x := fun e => hx (e ▸ hy)
  exact ⟨update_of_ne hne _ _, update_of_ne hne _ _⟩

/-- `f` with `v` written at the node that the third argument points at, if any. -/
def linkAt (f : α → Option α) (v : Option α) : Option α → α → Option α
  | some a => update f a v
  | none => f

def headOr (hd tl v : Option α) : Option α :=
  match tl with
  | some _ => hd
  | none => v

theorem seg_push_back {hd tl : Option α} {xs : List α} {x : α}
    (h : Seg next prev none hd xs none tl) (hx : x ∉ xs) :
    Seg (linkAt (update next x none) (some x) tl) (update prev x tl) none
      (headOr hd tl (some x)) (xs ++ [x]) none (some x) := by
  rcases eq_nil_or_concat' xs with rfl | ⟨ys, t, rfl⟩
  · obtain ⟨rfl, rfl⟩ := h
    refine ⟨rfl, update_self .., ?_, rfl⟩
    exact update_self ..
  have hnd := seg_nodup h
  have hty : t ∉ ys := by
    rw [nodup_append] at hnd
    exact fun hm => hnd.2.2 t hm t (mem_singleton_self t) rfl
  have htx : t ≠ x := fun e => hx (by rw [e]; simp)
  cases seg_tail_snoc h
  have h' := seg_set_next (seg_update_other h hx none (some t)) hty (some x)
  rw [seg_append]
  refine ⟨some x, some t, h', rfl, update_self .., ?_, rfl⟩
  rw [linkAt, update_of_ne (Ne.symm htx), update_self]

theorem linkAt_other (f : α → Option α) (v a : Option α) (x : α) (hx : a ≠ some x) :
    linkAt f v a x = f x := by
  cases a with
  | none => rfl
  | some a =>
    have hne : x ≠ a := fun e => hx (by rw [e])
    exact update_of_ne hne _ _

theorem seg_remove {hd tl : Option α} {as bs : List α} {x : α}
    (h : Seg next prev none hd (as ++ x :: bs) none tl) :
    Seg (update (linkAt next (next x) (prev x)) x none)
      (update (linkAt prev (prev x) (next x)) x none) none
      (headOr hd (prev x) (next x)) (as ++ bs) none (headOr tl (next x) (prev x)) := by
  have hnd := seg_nodup h
  rw [nodup_append, nodup_cons] at hnd
  obtain ⟨hnda, ⟨hxb, hndb⟩, hdisj⟩ := hnd
  have hxa : x ∉ as := fun hm => hdisj x hm x (mem_cons_self ..) rfl
  obtain ⟨m, pa, ha, hm, hpx, hb⟩ := (seg_append as (x :: bs) none hd none tl).mp h
  subst hm
  have hxab : x ∉ as ++ bs := by simp [hxa, hxb]
  suffices hmid : Seg (linkAt next (next x) (prev x)) (linkAt prev (prev x) (next x)) none
      (headOr hd (prev x) (next x)) (as ++ bs) none (headOr tl (next x) (prev x)) from
    seg_update_other hmid hxab none none
  rw [seg_append]
  refine ⟨next x, prev x, ?_, ?_⟩
  · -- the nodes before `x`: the last of them gets the successor of `x`
    have hprev : ∀ y ∈ as, linkAt prev (prev x) (next x) y = prev y := by
      intro y hy
      apply linkAt_other
      intro he
      rw [he] at hb
      cases bs with
      | nil => exact absurd hb.1 (by simp)
      | cons b bs =>
        have hyb : y = b := Option.some.inj hb.1
        exact hdisj y hy y (by rw [hyb]; simp) rfl
    rw [hpx]
    rcases eq_nil_or_concat' as with rfl | ⟨ys, a, rfl⟩
    · obtain ⟨_, rfl⟩ := ha
      exact ⟨rfl, rfl⟩
    have hay : a ∉ ys := by
      rw [nodup_append] at hnda
      exact fun hm => hnda.2.2 a hm a (mem_singleton_self a) rfl
    cases seg_tail_snoc ha
    have h' := seg_set_next ha hay (next x)
    rw [headOr]
    rw [hpx] at hprev
    exact seg_congr _ _ _ _ _ (fun y hy => ⟨rfl, hprev y hy⟩) h'
  · -- the nodes after `x`: the first of them gets the predecessor of `x`
    have hnext : ∀ y ∈ bs, linkAt next (next x) (prev x) y = next y := by
      intro y hy
      apply linkAt_other
      intro he
      rw [hpx] at he
      rcases eq_nil_or_concat' as with rfl | ⟨ys, a, rfl⟩
      · exact absurd (ha.2.symm.trans he) (by simp)
      · have hya : a = y := Option.some.inj ((seg_tail_snoc ha).symm.trans he)
        exact hdisj a (by simp) y (mem_cons_of_mem x hy) hya
    cases bs with
    | nil =>
      obtain ⟨hn, ht⟩ := hb
      rw [hn]
      exact ⟨rfl, rfl⟩
    | cons b bs =>
      have hbb : b ∉ bs := (nodup_cons.mp hndb).1
      have h' := seg_set_prev hb hbb (prev x)
      rw [hb.1] at hnext h' ⊢
      exact seg_congr _ _ _ _ _ (fun y hy => ⟨hnext y hy, rfl⟩) h'

end Double

end LinkedList
