import Mathlib.Data.List.Nodup
import Mathlib.Data.List.Perm.Basic

/-! # Reference-counted cells

References name cells, a reference may be writable, and every cell carries a count that
is at least the number of its references.  A cell with a writable reference has no other.
Each rule below says what one kind of change keeps: it is stated for any later heap with
the changed reference and counts that did not shrink elsewhere. -/

namespace SharedCells

open Function List

structure Heap (X C : Type*) where
  ref : X → Option (C × Bool)
  cnt : C → Int

section Rules
variable {X C : Type*} {H H' : Heap X C} {x y : X} {c : C} {w w' : Bool}

def Points (H : Heap X C) (x : X) (c : C) : Prop := ∃ w, H.ref x = some (c, w)

structure Ok (H : Heap X C) : Prop where
  counted : ∀ c l, l ≠ [] → l.Nodup → (∀ x ∈ l, Points H x c) → (l.length : Int) ≤ H.cnt c
  sole : ∀ x y c, H.ref x = some (c, true) → Points H y c → x = y

theorem Ok.pos (h : Ok H) (hx : Points H x c) : 1 ≤ H.cnt c := by
  have := h.counted c [x] (by simp) (by simp) (by simpa using hx)
  simpa using this

theorem Ok.unique (h : Ok H) (hc : H.cnt c ≤ 1) (hx : Points H x c) (hy : Points H y c) :
    y = x := by
  by_contra hne
  have := h.counted c [y, x] (by simp) (by simpa using hne) (by simp [hx, hy])
  simp only [length_cons, length_nil] at this
  omega

theorem Ok.two (h : Ok H) (hx : Points H x c) (hy : Points H y c) (hne : y ≠ x) : 1 < H.cnt c := by
  by_contra hle
  exact hne (h.unique (by omega) hx hy)

theorem Ok.not_points (h : Ok H) (hc : H.cnt c ≤ 0) : ¬ Points H x c := by
  intro hx
  have := h.pos hx
  omega

theorem Ok.mono (h : Ok H) (href : ∀ x c w, H'.ref x = some (c, w) → H.ref x = some (c, w))
    (hcnt : ∀ d z, Points H z d → H.cnt d ≤ H'.cnt d) : Ok H' := by
  have hold : ∀ z d, Points H' z d → Points H z d := fun z d ⟨w, hw⟩ => ⟨w, href z d w hw⟩
  refine ⟨?_, ?_⟩
  · intro d l hl hnd hall
    obtain ⟨z, hz⟩ := exists_mem_of_ne_nil l hl
    have := h.counted d l hl hnd fun z hz => hold z d (hall z hz)
    have := hcnt d z (hold z d (hall z hz))
    omega
  · intro a b d ha hb
    exact h.sole a b d (href a d true ha) (hold b d hb)

def Exact (P : C → Prop) (H : Heap X C) : Prop :=
  ∀ c, P c → ∃ l : List X, l.Nodup ∧ (∀ x, x ∈ l ↔ Points H x c) ∧ (l.length : Int) = H.cnt c

def weight [DecidableEq C] (r : Option (C × Bool)) (c : C) : Int :=
  if r.map Prod.fst = some c then 1 else 0

@[simp] theorem weight_none [DecidableEq C] (c : C) : weight none c = 0 := rfl

@[simp] theorem weight_some [DecidableEq C] (d : C) (w : Bool) (c : C) :
    weight (some (d, w)) c = if d = c then 1 else 0 := by
  simp [weight]

theorem points_iff : Points H x c ↔ (H.ref x).map Prod.fst = some c := by
  simp [Points]

theorem Exact.congr {P : C → Prop} (h : Exact P H) (hr : H'.ref = H.ref)
    (hcnt : ∀ d, P d → H'.cnt d = H.cnt d) : Exact P H' := by
  intro d hd
  obtain ⟨l, hnd, hmem, hlen⟩ := h d hd
  refine ⟨l, hnd, fun x => ?_, hlen.trans (hcnt d hd).symm⟩
  rw [hmem x, points_iff, points_iff, hr]

theorem Exact.unreferenced {P : C → Prop} (h : Exact P H) (hc : P c)
    (hnone : ∀ x, ¬ Points H x c) : H.cnt c = 0 := by
  obtain ⟨l, -, hmem, hlen⟩ := h c hc
  have hnil : l = [] := eq_nil_iff_forall_not_mem.mpr fun x hx => hnone x ((hmem x).mp hx)
  rw [← hlen, hnil]
  rfl

variable [DecidableEq X]

theorem points_update {r : Option (C × Bool)} (hr : H'.ref = update H.ref x r) {z : X}
    (hz : z ≠ x) {d : C} : Points H' z d ↔ Points H z d := by
  unfold Points
  rw [hr]
  simp only [update_of_ne hz]

theorem Ok.retag (h : Ok H) (hx : H.ref x = some (c, w))
    (hr : H'.ref = update H.ref x (some (c, w'))) (hcnt : ∀ d z, Points H z d → H.cnt d ≤ H'.cnt d)
    (hw : w' = true → ∀ z, Points H z c → z = x) : Ok H' := by
  have hiff : ∀ z d, Points H' z d ↔ Points H z d := by
    intro z d
    obtain rfl | hz := eq_or_ne z x
    · unfold Points
      rw [hr, update_self, hx]
      simp
    · exact points_update hr hz
  refine ⟨?_, ?_⟩
  · intro d l hl hnd hall
    obtain ⟨z, hz⟩ := exists_mem_of_ne_nil l hl
    have hold : ∀ z ∈ l, Points H z d := fun z hz => (hiff z d).mp (hall z hz)
    have := h.counted d l hl hnd hold
    have := hcnt d z (hold z hz)
    omega
  · intro a b d ha hb
    rw [hiff] at hb
    obtain rfl | hax := eq_or_ne a x
    · rw [hr, update_self] at ha
      cases ha
      exact (hw rfl b hb).symm
    · rw [hr, update_of_ne hax] at ha
      exact h.sole a b d ha hb

theorem Ok.share (h : Ok H) (hx : H.ref x = some (c, false)) (hy : H.ref y = none)
    (hr : H'.ref = update H.ref y (some (c, false))) (hc : H.cnt c + 1 ≤ H'.cnt c)
    (hcnt : ∀ d z, d ≠ c → Points H z d → H.cnt d ≤ H'.cnt d) : Ok H' := by
  have hyc : ∀ d, Points H' y d ↔ d = c := by
    intro d
    unfold Points
    rw [hr, update_self]
    simp only [Option.some.injEq, Prod.mk.injEq]
    exact ⟨fun ⟨_, h, _⟩ => h.symm, fun e => ⟨false, e.symm, rfl⟩⟩
  refine ⟨?_, ?_⟩
  · intro d l hl hnd hall
    have hold : ∀ z ∈ l, z ≠ y → Points H z d := fun z hz hne =>
      (points_update hr hne).mp (hall z hz)
    by_cases hyl : y ∈ l
    · obtain rfl : d = c := (hyc d).mp (hall y hyl)
      by_cases hone : l.erase y = []
      · have hlen := length_erase_of_mem hyl
        rw [hone, length_nil] at hlen
        have := h.pos ⟨false, hx⟩
        omega
      have hcount := h.counted d (l.erase y) hone (hnd.erase y) fun z hz =>
        hold z (mem_of_mem_erase hz) fun e => by
          subst e
          exact hnd.not_mem_erase hz
      rw [length_erase_of_mem hyl] at hcount
      omega
    · obtain ⟨z, hz⟩ := exists_mem_of_ne_nil l hl
      have hne : ∀ z ∈ l, z ≠ y := fun z hz e => hyl (e ▸ hz)
      have hcount := h.counted d l hl hnd fun z hz => hold z hz (hne z hz)
      obtain rfl | hdc := eq_or_ne d c
      · omega
      · have := hcnt d z hdc (hold z hz (hne z hz))
        omega
  · intro a b d ha hb
    obtain rfl | hay := eq_or_ne a y
    · rw [hr, update_self] at ha
      simp at ha
    rw [hr, update_of_ne hay] at ha
    obtain rfl | hby := eq_or_ne b y
    · obtain rfl := (hyc d).mp hb
      have hax := h.sole a x d ha ⟨false, hx⟩
      subst hax
      rw [hx] at ha
      simp at ha
    · exact h.sole a b d ha ((points_update hr hby).mp hb)

theorem Ok.drop (h : Ok H) (hx : H.ref x = some (c, w))
    (hr : H'.ref = update H.ref x none) (hc : H.cnt c - 1 ≤ H'.cnt c)
    (hcnt : ∀ d z, d ≠ c → Points H z d → H.cnt d ≤ H'.cnt d) : Ok H' := by
  have hnone : ∀ d, ¬ Points H' x d := by
    intro d
    unfold Points
    rw [hr, update_self]
    simp
  have hold : ∀ z d, Points H' z d → z ≠ x ∧ Points H z d := by
    intro z d hz
    have hne : z ≠ x := fun e => hnone d (e ▸ hz)
    exact ⟨hne, (points_update hr hne).mp hz⟩
  refine ⟨?_, ?_⟩
  · intro d l hl hnd hall
    obtain rfl | hdc := eq_or_ne d c
    · have hcount := h.counted d (x :: l) (by simp)
        (nodup_cons.mpr ⟨fun hm => hnone d (hall x hm), hnd⟩) (by
          intro z hz
          rcases mem_cons.mp hz with rfl | hz
          · exact ⟨w, hx⟩
          · exact (hold z d (hall z hz)).2)
      simp only [length_cons] at hcount
      omega
    · obtain ⟨z, hz⟩ := exists_mem_of_ne_nil l hl
      have hcount := h.counted d l hl hnd fun z hz => (hold z d (hall z hz)).2
      have := hcnt d z hdc (hold z d (hall z hz)).2
      omega
  · intro a b d ha hb
    have hax : a ≠ x := by
      intro e
      exact hnone d (e ▸ ⟨true, ha⟩)
    rw [hr, update_of_ne hax] at ha
    exact h.sole a b d ha (hold b d hb).2

theorem Ok.fresh (h : Ok H) (hnone : ∀ z, ¬ Points H z c)
    (hr : H'.ref = update H.ref x (some (c, w))) (hc' : 1 ≤ H'.cnt c)
    (hcnt : ∀ d z, d ≠ c → Points H z d → H.cnt d ≤ H'.cnt d) : Ok H' := by
  have hxc : ∀ d, Points H' x d ↔ d = c := by
    intro d
    unfold Points
    rw [hr, update_self]
    simp only [Option.some.injEq, Prod.mk.injEq]
    exact ⟨fun ⟨_, h, _⟩ => h.symm, fun e => ⟨w, e.symm, rfl⟩⟩
  have honly : ∀ z, Points H' z c → z = x := by
    intro z hz
    by_contra hne
    exact hnone z ((points_update hr hne).mp hz)
  refine ⟨?_, ?_⟩
  · intro d l hl hnd hall
    obtain ⟨z, hz⟩ := exists_mem_of_ne_nil l hl
    obtain rfl | hdc := eq_or_ne d c
    · have hle : l.length ≤ 1 := by
        cases l with
        | nil => simp
        | cons a l =>
          cases l with
          | nil => simp
          | cons b l =>
            have hab : a = b := (honly a (hall a (by simp))).trans (honly b (hall b (by simp))).symm
            simp [hab] at hnd
      omega
    · have hne : ∀ z ∈ l, z ≠ x := fun z hz e => hdc ((hxc d).mp (e ▸ hall z hz))
      have hcount := h.counted d l hl hnd fun z hz => (points_update hr (hne z hz)).mp (hall z hz)
      have := hcnt d z hdc ((points_update hr (hne z hz)).mp (hall z hz))
      omega
  · intro a b d ha hb
    obtain rfl | hdc := eq_or_ne d c
    · exact (honly a ⟨true, ha⟩).trans (honly b hb).symm
    have hax : a ≠ x := fun e => hdc ((hxc d).mp (e ▸ ⟨true, ha⟩))
    have hbx : b ≠ x := fun e => hdc ((hxc d).mp (e ▸ hb))
    rw [hr, update_of_ne hax] at ha
    exact h.sole a b d ha ((points_update hr hbx).mp hb)

theorem Exact.assign [DecidableEq C] {P : C → Prop} {r : Option (C × Bool)} (h : Exact P H)
    (hr : H'.ref = update H.ref x r)
    (hcnt : ∀ d, P d → H'.cnt d = H.cnt d - weight (H.ref x) d + weight r d) : Exact P H' := by
  intro d hd
  obtain ⟨l, hnd, hmem, hlen⟩ := h d hd
  have hcount := hcnt d hd
  have hself : Points H' x d ↔ r.map Prod.fst = some d := by
    rw [points_iff, hr, update_self]
  have hx : x ∈ l ↔ (H.ref x).map Prod.fst = some d := (hmem x).trans points_iff
  have hother : ∀ z, z ≠ x → (Points H' z d ↔ z ∈ l) := fun z hz =>
    (points_update hr hz).trans (hmem z).symm
  by_cases hold : (H.ref x).map Prod.fst = some d <;> by_cases hnew : r.map Prod.fst = some d
  · refine ⟨l, hnd, fun z => ?_, ?_⟩
    · obtain rfl | hz := eq_or_ne z x
      · exact iff_of_true (hx.mpr hold) (hself.mpr hnew)
      · exact (hother z hz).symm
    · simp only [weight, hold, hnew, if_true] at hcount
      omega
  · refine ⟨l.erase x, hnd.erase x, fun z => ?_, ?_⟩
    · obtain rfl | hz := eq_or_ne z x
      · exact iff_of_false hnd.not_mem_erase fun hp => hnew (hself.mp hp)
      · rw [mem_erase_of_ne hz]
        exact (hother z hz).symm
    · simp only [weight, hold, hnew, if_true, if_false] at hcount
      have hlen' := length_erase_of_mem (hx.mpr hold)
      have hpos := length_pos_of_mem (hx.mpr hold)
      omega
  · have hnot : x ∉ l := fun hm => hold (hx.mp hm)
    refine ⟨x :: l, nodup_cons.mpr ⟨hnot, hnd⟩, fun z => ?_, ?_⟩
    · obtain rfl | hz := eq_or_ne z x
      · exact iff_of_true mem_cons_self (hself.mpr hnew)
      · rw [mem_cons, or_iff_right hz]
        exact (hother z hz).symm
    · simp only [weight, hold, hnew, if_true, if_false] at hcount
      simp only [length_cons]
      omega
  · refine ⟨l, hnd, fun z => ?_, ?_⟩
    · obtain rfl | hz := eq_or_ne z x
      · exact iff_of_false (fun hm => hold (hx.mp hm)) fun hp => hnew (hself.mp hp)
      · exact (hother z hz).symm
    · simp only [weight, hold, hnew, if_false] at hcount
      omega

end Rules

end SharedCells
