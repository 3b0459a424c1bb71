import Mathlib.Data.List.Nodup

/-! # Circular doubly linked lists

`Path next prev a xs z` says that `next` leads from `a` through exactly the nodes `xs` to
`z` and `prev` leads back; a circular list with head `h` is a path from `h` to `h`.
`insert` puts a node behind the head and `unlink` takes one out, with the assignments a
program makes; both leave paths through other nodes alone.  `walk` is the loop over such
a list. -/

namespace CircularList

open Function List

section Path
variable {α : Type*} {next prev next' prev' : α → α}

def Path (next prev : α → α) : α → List α → α → Prop
  | a, [], z => next a = z ∧ prev z = a
  | a, x :: xs, z => (next a = x ∧ prev x = a) ∧ Path next prev x xs z

theorem path_append {y z : α} {ys : List α} : ∀ (xs : List α) (a : α),
    Path next prev a (xs ++ y :: ys) z ↔ Path next prev a xs y ∧ Path next prev y ys z := by
  intro xs
  induction xs with
  | nil => intro a; exact Iff.rfl
  | cons x xs ih =>
    intro a
    simp only [cons_append, Path, ih x]
    exact and_assoc.symm

theorem path_congr {z : α} : ∀ (xs : List α) (a : α), (∀ u ∈ a :: xs, next' u = next u) →
    (∀ v ∈ z :: xs, prev' v = prev v) → Path next prev a xs z → Path next' prev' a xs z := by
  intro xs
  induction xs with
  | nil =>
    intro a hn hp h
    exact ⟨(hn a (mem_cons_self ..)).trans h.1, (hp z (mem_cons_self ..)).trans h.2⟩
  | cons x xs ih =>
    intro a hn hp h
    refine ⟨⟨?_, ?_⟩, ih x ?_ ?_ h.2⟩
    · exact (hn a (mem_cons_self ..)).trans h.1.1
    · exact (hp x (by simp)).trans h.1.2
    · exact fun u hu => hn u (mem_cons_of_mem a hu)
    · intro v hv
      apply hp v
      rcases mem_cons.mp hv with rfl | hv
      · exact mem_cons_self ..
      · exact mem_cons_of_mem z (mem_cons_of_mem x hv)

theorem next_mem {a z : α} {xs : List α} (h : Path next prev a xs z) : next a ∈ xs ++ [z] := by
  cases xs with
  | nil => simp [h.1]
  | cons x xs => simp [h.1.1]

theorem prev_mem {z : α} : ∀ (xs : List α) (a : α), Path next prev a xs z → prev z ∈ a :: xs := by
  intro xs
  induction xs with
  | nil => intro a h; simp [h.2]
  | cons x xs ih => intro a h; exact mem_cons_of_mem a (ih x h.2)

end Path

section Update
variable {α : Type*} [DecidableEq α] {next prev : α → α}

def insertNext (next : α → α) (h b : α) : α → α :=
  update (update next b (next h)) h b

def insertPrev (next prev : α → α) (h b : α) : α → α :=
  update (update prev b h) (next h) b

theorem path_insert {h z b : α} {xs : List α} (hp : Path next prev h xs z) (hb : b ∉ z :: h :: xs)
    (hh : h ∉ xs) (hz : (z :: xs).Nodup) :
    Path (insertNext next h b) (insertPrev next prev h b) h (b :: xs) z := by
  simp only [mem_cons, not_or] at hb
  obtain ⟨hbz, hbh, hbx⟩ := hb
  have hnext : insertNext next h b b = next h := by
    rw [insertNext, update_of_ne hbh, update_self]
  have hmem : next h ≠ b := by
    intro e
    have := next_mem hp
    rw [e] at this
    rcases mem_append.mp this with hm | hm
    · exact hbx hm
    · exact hbz (mem_singleton.mp hm)
  refine ⟨⟨update_self .., ?_⟩, ?_⟩
  · rw [insertPrev, update_of_ne (Ne.symm hmem), update_self]
  · cases xs with
    | nil =>
      refine ⟨hnext.trans hp.1, ?_⟩
      rw [insertPrev, hp.1, update_self]
    | cons x xs =>
      refine ⟨⟨hnext.trans hp.1.1, ?_⟩, path_congr xs x ?_ ?_ hp.2⟩
      · rw [insertPrev, hp.1.1, update_self]
      · intro u hu
        have huh : u ≠ h := fun e => hh (e ▸ hu)
        have hub : u ≠ b := fun e => hbx (e ▸ hu)
        rw [insertNext, update_of_ne huh, update_of_ne hub]
      · intro v hv
        have hvx : v ≠ x := by
          intro e
          subst e
          rw [nodup_cons, nodup_cons] at hz
          rcases mem_cons.mp hv with e | hv
          · exact hz.1 (by simp [e])
          · exact hz.2.1 hv
        have hvb : v ≠ b := by
          rintro rfl
          rcases mem_cons.mp hv with e | hv
          · exact hbz e
          · exact hbx (mem_cons_of_mem x hv)
        rw [insertPrev, hp.1.1, update_of_ne hvx, update_of_ne hvb]

theorem path_insert_other {h b a z : α} {ys : List α} (hy : Path next prev a ys z)
    (hh : h ∉ a :: ys) (hb : b ∉ a :: ys) (hbz : b ∉ z :: ys) (hn : next h ∉ z :: ys) :
    Path (insertNext next h b) (insertPrev next prev h b) a ys z := by
  apply path_congr ys a _ _ hy
  · intro u hu
    have huh : u ≠ h := fun e => hh (e ▸ hu)
    have hub : u ≠ b := fun e => hb (e ▸ hu)
    rw [insertNext, update_of_ne huh, update_of_ne hub]
  intro v hv
  have hvn : v ≠ next h := fun e => hn (e ▸ hv)
  have hvb : v ≠ b := fun e => hbz (e ▸ hv)
  rw [insertPrev, update_of_ne hvn, update_of_ne hvb]

def unlinkNext (next prev : α → α) (x : α) : α → α :=
  update next (prev x) (next x)

def unlinkPrev (next prev : α → α) (x : α) : α → α :=
  update prev (next x) (prev x)

theorem path_unlink {x z : α} {bs : List α} (hb : Path next prev x bs z) (hz : (z :: bs).Nodup) :
    ∀ (as : List α) (a : α), Path next prev a as x → (a :: as).Nodup → z ∉ as →
      (∀ u ∈ a :: as, u ∉ bs) →
      Path (unlinkNext next prev x) (unlinkPrev next prev x) a (as ++ bs) z := by
  intro as
  induction as with
  | nil =>
    intro a ha _ _ hdisj
    have hp : prev x = a := ha.2
    have hab : a ∉ bs := hdisj a (mem_cons_self ..)
    rw [nil_append]
    cases bs with
    | nil =>
      refine ⟨?_, ?_⟩
      · rw [unlinkNext, hp, update_self, hb.1]
      · rw [unlinkPrev, hb.1, update_self, hp]
    | cons y bs =>
      have hy : next x = y := hb.1.1
      refine ⟨⟨?_, ?_⟩, path_congr bs y ?_ ?_ hb.2⟩
      · rw [unlinkNext, hp, update_self, hy]
      · rw [unlinkPrev, hy, update_self, hp]
      · intro u hu
        have hua : u ≠ a := fun e => hab (e ▸ hu)
        rw [unlinkNext, hp, update_of_ne hua]
      · intro v hv
        have hvy : v ≠ y := by
          intro e
          subst e
          rw [nodup_cons, nodup_cons] at hz
          rcases mem_cons.mp hv with e | hv
          · exact hz.1 (by simp [e])
          · exact hz.2.1 hv
        rw [unlinkPrev, hy, update_of_ne hvy]
  | cons c as ih =>
    intro a ha hnd hzas hdisj
    obtain ⟨hac, hnd'⟩ := nodup_cons.mp hnd
    rw [mem_cons, not_or] at hzas
    refine ⟨⟨?_, ?_⟩, ih c ha.2 hnd' hzas.2 ?_⟩
    · have hne : a ≠ prev x := fun e => hac (e ▸ prev_mem as c ha.2)
      rw [unlinkNext, update_of_ne hne]
      exact ha.1.1
    · have hne : c ≠ next x := by
        intro e
        have hm := next_mem hb
        rw [← e] at hm
        rcases mem_append.mp hm with hm | hm
        · exact hdisj c (by simp) hm
        · exact hzas.1 (mem_singleton.mp hm).symm
      rw [unlinkPrev, update_of_ne hne]
      exact ha.1.2
    · exact fun u hu => hdisj u (mem_cons_of_mem a hu)

theorem path_unlink_other {x a z : α} {ys : List α} (hy : Path next prev a ys z)
    (hp : prev x ∉ a :: ys) (hn : next x ∉ z :: ys) :
    Path (unlinkNext next prev x) (unlinkPrev next prev x) a ys z := by
  apply path_congr ys a _ _ hy
  · intro u hu
    have hne : u ≠ prev x := fun e => hp (e ▸ hu)
    rw [unlinkNext, update_of_ne hne]
  intro v hv
  have hne : v ≠ next x := fun e => hn (e ▸ hv)
  rw [unlinkPrev, update_of_ne hne]

/-- The loop `for (x = a; x != stop; x = x->next)`, for at most `fuel` nodes. -/
def walk (next : α → α) (stop : α) : Nat → α → List α
  | 0, _ => []
  | fuel + 1, a => if a = stop then [] else a :: walk next stop fuel (next a)

theorem walk_path {z : α} : ∀ (xs : List α) (a : α) (fuel : Nat), Path next prev a xs z → z ∉ xs →
    xs.length ≤ fuel → walk next z fuel (next a) = xs := by
  intro xs
  induction xs with
  | nil =>
    intro a fuel h _ _
    cases fuel with
    | zero => rfl
    | succ fuel => rw [walk, if_pos h.1]
  | cons x xs ih =>
    intro a fuel h hz hlen
    rw [mem_cons, not_or] at hz
    obtain ⟨fuel, rfl⟩ : ∃ n, fuel = n + 1 := ⟨fuel - 1, by rw [length_cons] at hlen; omega⟩
    rw [h.1.1, walk, if_neg (Ne.symm hz.1), ih x fuel h.2 hz.2 (by simpa using hlen)]

end Update

end CircularList
