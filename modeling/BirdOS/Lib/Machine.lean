import Mathlib.Data.List.Basic

/-! # Machines with partial labelled steps

A machine is a step function `step : σ → ω → Option σ`; a label resolves every
choice of the environment, and `none` says that the labelled step is not enabled
(or that it stops the machine).  A run is the monadic fold of `step` over a list
of labels.  The invariant and simulation rules below are the only inductions over
runs that a development needs. -/

namespace Machine

section Run
variable {σ ω : Type*} (step : σ → ω → Option σ)

def run (s : σ) (ls : List ω) : Option σ := ls.foldlM step s

def Reachable (init s : σ) : Prop := ∃ ls, run step init ls = some s

@[simp] theorem run_nil (s : σ) : run step s [] = some s := rfl

theorem run_cons (s : σ) (l : ω) (ls : List ω) :
    run step s (l :: ls) = (step s l).bind fun s' => run step s' ls := by
  simp [run, List.foldlM_cons]

theorem run_append (s : σ) (ls ms : List ω) :
    run step s (ls ++ ms) = (run step s ls).bind fun s' => run step s' ms := by
  simp [run, List.foldlM_append]

variable {step}

theorem run_cons_some {s t : σ} {l : ω} {ls : List ω} (h : run step s (l :: ls) = some t) :
    ∃ s', step s l = some s' ∧ run step s' ls = some t := by
  rw [run_cons] at h
  exact Option.bind_eq_some_iff.mp h

theorem of_guard {c : Prop} [Decidable c] {x : Option σ} {s : σ}
    (h : (if c then x else none) = some s) : x = some s :=
  (Option.ite_none_right_eq_some.mp h).2

variable {I : σ → Prop}

theorem run_invariant (hstep : ∀ s l s', I s → step s l = some s' → I s') :
    ∀ (ls : List ω) (s t : σ), I s → run step s ls = some t → I t := by
  intro ls
  induction ls with
  | nil =>
    intro s t hs h
    cases h
    exact hs
  | cons l ls ih =>
    intro s t hs h
    obtain ⟨s', hl, hr⟩ := run_cons_some h
    exact ih s' t (hstep s l s' hs hl) hr

theorem reachable_invariant {init s : σ} (h0 : I init)
    (hstep : ∀ s l s', I s → step s l = some s' → I s') (h : Reachable step init s) : I s := by
  obtain ⟨ls, hr⟩ := h
  exact run_invariant hstep ls init s h0 hr

def Along (step : σ → ω → Option σ) (good : σ → ω → Prop) : σ → List ω → Prop
  | _, [] => True
  | s, l :: ls => good s l ∧ ∀ s', step s l = some s' → Along step good s' ls

instance Along.decidable (step : σ → ω → Option σ) (good : σ → ω → Prop)
    [∀ s l, Decidable (good s l)] : ∀ ls s, Decidable (Along step good s ls)
  | [], _ => isTrue trivial
  | l :: ls, s =>
    match h : step s l with
    | none => decidable_of_iff (good s l) (by simp [Along, h])
    | some s' =>
      have := Along.decidable step good ls s'
      decidable_of_iff (good s l ∧ Along step good s' ls) (by simp [Along, h])

variable {good : σ → ω → Prop}

theorem along_and {good' : σ → ω → Prop} :
    ∀ (ls : List ω) (s : σ), Along step good s ls → Along step good' s ls →
      Along step (fun s l => good s l ∧ good' s l) s ls := by
  intro ls
  induction ls with
  | nil => exact fun _ _ _ => trivial
  | cons l ls ih =>
    intro s h h'
    exact ⟨⟨h.1, h'.1⟩, fun s' hl => ih s' (h.2 s' hl) (h'.2 s' hl)⟩

theorem along_of_mem :
    ∀ (ls : List ω) (s : σ), (∀ l ∈ ls, ∀ s, good s l) → Along step good s ls := by
  intro ls
  induction ls with
  | nil => exact fun _ _ => trivial
  | cons l ls ih =>
    intro s h
    exact ⟨h l List.mem_cons_self s, fun s' _ => ih s' fun m hm => h m (List.mem_cons_of_mem l hm)⟩

theorem along_invariant
    (hstep : ∀ s l s', I s → good s l → step s l = some s' → I s') :
    ∀ (ls : List ω) (s t : σ), I s → Along step good s ls → run step s ls = some t → I t := by
  intro ls
  induction ls with
  | nil =>
    intro s t hs _ hr
    rw [run_nil] at hr
    cases hr
    exact hs
  | cons l ls ih =>
    intro s t hs hgood hr
    obtain ⟨s', hl, hr'⟩ := run_cons_some hr
    exact ih s' t (hstep s l s' hs hgood.1 hl) (hgood.2 s' hl) hr'

theorem run_test (step : σ → ω → Option σ) (s : σ) (os : List ω) (P : σ → Prop) [DecidablePred P]
    (h : (run step s os).map (fun t => decide (P t)) = some true) :
    ∃ t, run step s os = some t ∧ P t := by
  obtain ⟨t, ht, hP⟩ := Option.map_eq_some_iff.mp h
  exact ⟨t, ht, of_decide_eq_true hP⟩

end Run

section Simulation
variable {σ τ ω : Type*} {step : σ → ω → Option σ} {astep : τ → ω → Option τ}

/-- Every concrete run is matched, label by label, by a run of the abstract machine. -/
theorem run_simulation {R : σ → τ → Prop}
    (hstep : ∀ s a l s', R s a → step s l = some s' → ∃ a', astep a l = some a' ∧ R s' a') :
    ∀ (ls : List ω) (s t : σ) (a : τ), R s a → run step s ls = some t →
      ∃ b, run astep a ls = some b ∧ R t b := by
  intro ls
  induction ls with
  | nil =>
    intro s t a hR h
    cases h
    exact ⟨a, rfl, hR⟩
  | cons l ls ih =>
    intro s t a hR h
    obtain ⟨s', hl, hr⟩ := run_cons_some h
    obtain ⟨a', ha, hR'⟩ := hstep s a l s' hR hl
    obtain ⟨b, hb, hRb⟩ := ih s' t a' hR' hr
    refine ⟨b, ?_, hRb⟩
    rw [run_cons, ha, Option.bind_some]
    exact hb

end Simulation

end Machine
