import Mathlib.Data.List.Basic

/-! # Postconditions of computations that may fail

`Ends P E x` says that `x` returns a value in `P` or fails with an error in `E`. -/

namespace Outcome

universe u

section Rules
variable {ε ι : Type*} {α β : Type u} {P : α → Prop} {Q : β → Prop} {E : ε → Prop}

def Ends (P : α → Prop) (E : ε → Prop) : Except ε α → Prop
  | .ok a => P a
  | .error e => E e

instance [DecidablePred P] [DecidablePred E] (x : Except ε α) : Decidable (Ends P E x) :=
  match x with
  | .ok a => inferInstanceAs (Decidable (P a))
  | .error e => inferInstanceAs (Decidable (E e))

theorem ok_bind (a : α) (f : α → Except ε β) : (Except.ok a >>= f) = f a := rfl

variable {x : Except ε α}

theorem Ends.mono {P' : α → Prop} {E' : ε → Prop} (h : Ends P E x)
    (hP : ∀ a, P a → P' a) (hE : ∀ e, E e → E' e) : Ends P' E' x := by
  cases x with
  | ok a => exact hP a h
  | error e => exact hE e h

theorem Ends.and {P' : α → Prop} {E' : ε → Prop} (h : Ends P E x)
    (h' : Ends P' E' x) : Ends (fun a => P a ∧ P' a) E x := by
  cases x with
  | ok a => exact ⟨h, h'⟩
  | error e => exact h

theorem Ends.bind {f : α → Except ε β} (h : Ends P E x)
    (hf : ∀ a, P a → Ends Q E (f a)) : Ends Q E (x >>= f) := by
  cases x with
  | ok a => exact hf a h
  | error e => exact h

theorem Ends.map {f : α → β} (h : Ends (fun a => Q (f a)) E x) : Ends Q E (f <$> x) := by
  cases x <;> exact h

theorem Ends.seq {σ : Type u} {x : StateT σ (Except ε) α} {f : α → StateT σ (Except ε) β} {s : σ}
    {R : α × σ → Prop} {T : β × σ → Prop} (h : Ends R E (x s))
    (hf : ∀ a s', R (a, s') → Ends T E (f a s')) : Ends T E ((x >>= f) s) :=
  Ends.bind h fun r hr => hf r.1 r.2 hr

theorem Ends.with_eq (h : Ends P E x) : Ends (fun a => x = .ok a ∧ P a) E x := by
  cases x with
  | ok a => exact ⟨rfl, h⟩
  | error e => exact h

theorem Ends.of_returns (h : Ends P (fun _ => False) x) : Ends P E x :=
  h.mono (fun _ ha => ha) fun _ he => he.elim

theorem Ends.eq_ok (x : Except ε α) : Ends (fun a => x = .ok a) (fun _ => True) x := by
  cases x <;> trivial

theorem Ends.returns (h : Ends P (fun _ => False) x) : ∃ a, x = .ok a ∧ P a := by
  cases x with
  | ok a => exact ⟨a, rfl, h⟩
  | error e => exact h.elim

/-- The loop rule; the invariant speaks of the part of the list already done. -/
theorem Ends.foldlM {f : α → ι → Except ε α} {I : List ι → α → Prop} {l : List ι}
    (hstep : ∀ done j a, j ∉ done → I done a → Ends (I (done ++ [j])) E (f a j))
    (hl : l.Nodup) {a : α} (h : I [] a) : Ends (I l) E (l.foldlM f a) := by
  suffices hrest : ∀ (rest done : List ι) (a : α), (done ++ rest).Nodup → I done a →
      Ends (I (done ++ rest)) E (rest.foldlM f a) from hrest l [] a hl h
  intro rest
  induction rest with
  | nil =>
    intro done a _ ha
    rw [List.append_nil]
    exact ha
  | cons j rest ih =>
    intro done a hnd ha
    have hj : j ∉ done := by
      intro hmem
      exact (List.nodup_append.mp hnd).2.2 j hmem j (List.mem_cons_self ..) rfl
    have hassoc : done ++ j :: rest = (done ++ [j]) ++ rest := by simp
    rw [List.foldlM_cons, hassoc]
    rw [hassoc] at hnd
    exact Ends.bind (hstep done j a hj ha) fun a' ha' => ih (done ++ [j]) a' hnd ha'

end Rules

end Outcome
