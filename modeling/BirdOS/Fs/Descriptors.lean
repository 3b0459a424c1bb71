import BirdOS.Fs.FilesGuard

/-! # `sys_dup_new`

The call closes the file of `newfd` but leaves the descriptor in place, and it takes the first free
descriptor whatever `newfd` is. -/

namespace BirdOS.Files

open Function Names Outcome Tally

def slots (s : State) (f : Fin NFILE) : Nat :=
  tally (tally fun o => if o = some f then 1 else 0) s.ofile

def Counted (s : State) : Prop := ∀ f, (s.ftable f).ref = slots s f

section
variable {s : State} {p : Slot} {d : Fin NOFILE} {f : Fin NFILE}

theorem slots_pos (h : s.ofile p d = some f) : 0 < slots s f := by
  have hrow := le_tally (fun o => if o = some f then 1 else 0) (s.ofile p) d
  have htable := le_tally (tally fun o => if o = some f then 1 else 0) s.ofile p
  rw [h, if_pos rfl] at hrow
  unfold slots
  omega

theorem slots_set (h : s.ofile p d = none) (F : Fin NFILE → File) (g : Fin NFILE) :
    slots { s with ftable := F, ofile := update s.ofile p (update (s.ofile p) d (some f)) } g =
      slots s g + if f = g then 1 else 0 := by
  have hrow := tally_update (fun o => if o = some g then 1 else 0) (s.ofile p) d (some f)
  have htable := tally_update (tally fun o => if o = some g then 1 else 0) s.ofile p
    (update (s.ofile p) d (some f))
  rw [h] at hrow
  simp only [reduceCtorEq, if_false, Option.some.injEq] at hrow
  simp only [slots]
  omega

theorem first_free : (List.finRange NOFILE).find? (fun d => (s.ofile p d).isNone) = some d ↔
    s.ofile p d = none ∧ ∀ e < d, s.ofile p e ≠ none := by
  rw [List.find?_eq_some_iff_getElem]
  simp only [Option.isNone_iff_eq_none, List.getElem_finRange]
  refine and_congr_right fun _ => ⟨?_, fun h => ⟨d, by simp, by simp, fun j hj => ?_⟩⟩
  · rintro ⟨i, hi, rfl, hlow⟩ e he
    simpa [← Option.isSome_iff_ne_none] using hlow e he
  · simpa [← Option.isSome_iff_ne_none] using h ⟨j, by omega⟩ hj

end

theorem fileclose_ofile (f : Fin NFILE) (s : Sys) :
    Ends (fun r => r.2.fs.ofile = s.fs.ofile) (fun _ => True) (fileclose f s) := by
  unfold fileclose
  refine look_ends ?_
  refine .seq (names_ends (P := fun r => r.2.ofile = s.fs.ofile) (E := fun _ => True) ?_) ?_
  · unfold Names.fileclose iput
    repeat' split
    all_goals trivial
  rintro _ s1 ⟨hofile, -⟩
  split
  · exact (congrArg State.ofile (release_fs _ _ s1)).trans hofile
  · exact hofile

theorem sys_dup_new_takes (p : Slot) (fd newfd : Fin NOFILE) (s : Sys) :
    Ends (fun r => ∀ d : Fin NOFILE, r.1 = (d.val : Int) → s.fs.ofile p d = none ∧
      ∀ e < d, s.fs.ofile p e ≠ none) (fun _ => True) (sys_dup_new p fd newfd s) := by
  unfold sys_dup_new
  refine look_ends ?_
  cases s.fs.ofile p fd with
  | none => exact fun d hd => absurd hd (by dsimp only; omega)
  | some f =>
    refine look_ends ?_
    refine .seq (R := fun r => r.2.fs.ofile = s.fs.ofile) ?_ ?_
    · cases s.fs.ofile p newfd with
      | none => rfl
      | some g => exact fileclose_ofile g s
    rintro _ s1 hofile
    refine .seq (names_ends (P := fun r => ∀ d, r.1 = some d → s.fs.ofile p d = none ∧
      ∀ e < d, s.fs.ofile p e ≠ none) (E := fun _ => True) ?_) ?_
    · unfold fdalloc
      split
      · exact fun d hd => by cases hd
      · next d hfind =>
        rintro _ ⟨⟩
        rw [← hofile]
        exact first_free.mp hfind
    · rintro (_ | d) s2 ⟨hd, -⟩
      · exact fun d hd => absurd hd (by dsimp only; omega)
      · unfold filedup
        refine .seq (R := fun _ => True) (by split <;> trivial) fun _ _ _ e he => ?_
        exact hd e (congrArg some (Fin.ext (Int.ofNat.inj he)))

/-- `newfd` is returned and alone points to the file of `fd` now, and every file counts its
descriptors (so the file that `newfd` pointed to was closed once), just when `newfd` was the first
free descriptor. -/
theorem sys_dup_new_iff (s : Sys) (hs : Counted s.fs) (p : Slot) (fd newfd : Fin NOFILE)
    (f : Fin NFILE) (hf : s.fs.ofile p fd = some f) :
    (∃ s', sys_dup_new p fd newfd s = .ok ((newfd.val : Int), s') ∧
      s'.fs.ofile = update s.fs.ofile p (update (s.fs.ofile p) newfd (some f)) ∧ Counted s'.fs) ↔
    s.fs.ofile p newfd = none ∧ ∀ d < newfd, s.fs.ofile p d ≠ none := by
  constructor
  · rintro ⟨s', hcall, -, -⟩
    have htakes := sys_dup_new_takes p fd newfd s
    rw [hcall] at htakes
    exact htakes newfd rfl
  · intro hfree
    have hpos : ¬ (s.fs.ftable f).ref < 1 := by
      have := slots_pos hf
      rw [hs f]
      omega
    obtain ⟨s', hdup⟩ : ∃ s', filedup f (s.setFd p newfd (some f)) = .ok ((), s') :=
      ⟨_, if_neg hpos⟩
    have hends : Ends (fun r => r = ((newfd.val : Int), s')) (fun _ => False)
        (sys_dup_new p fd newfd s) := by
      refine look_ends ?_
      rw [hf]
      refine look_ends ?_
      rw [hfree.1]
      refine .seq (R := fun r => r = ((), s)) rfl ?_
      rintro _ _ ⟨⟩
      refine .seq (R := fun r => r = (some newfd, s.setFd p newfd (some f))) ?_ ?_
      · rw [names, fdalloc, first_free.mpr hfree]
        rfl
      rintro _ _ ⟨⟩
      refine .seq (R := fun r => r = ((), s')) (by rw [hdup]; rfl) ?_
      rintro _ _ ⟨⟩
      rfl
    obtain ⟨_, hcall, rfl⟩ := hends.returns
    cases (if_neg hpos).symm.trans hdup
    refine ⟨_, hcall, rfl, fun g => ?_⟩
    refine Eq.trans ?_ (slots_set hfree.1 _ g).symm
    rw [← hs g]
    obtain rfl | hg := eq_or_ne f g
    · simp [Sys.setFile, Sys.setFd, State.setFile]
    · simp [Sys.setFile, Sys.setFd, State.setFile, hg, update_of_ne (Ne.symm hg)]

def oneOpen : Sys :=
  ((boot bareDisk).setFd 0 0 (some 0)).setFile 0 ⟨.none, 1, true, true, 0, 0, 0⟩

theorem oneOpen_counted : Counted oneOpen.fs := by
  intro g
  refine Eq.trans ?_ (slots_set (s := twoAtRoot bareDisk) rfl _ g).symm
  have hnone : slots (twoAtRoot bareDisk) g = 0 := by
    simp [slots, tally_eq_zero, twoAtRoot]
  rw [hnone]
  obtain rfl | hg := eq_or_ne g 0
  · rfl
  · simp [oneOpen, boot, Sys.setFile, Sys.setFd, State.setFile, twoAtRoot, hg, Ne.symm hg]

theorem sys_dup_new_iff_one : ∃ s', sys_dup_new 0 0 1 oneOpen = .ok (1, s') ∧
    s'.fs.ofile = update oneOpen.fs.ofile 0 (update (oneOpen.fs.ofile 0) 1 (some 0)) ∧
    Counted s'.fs :=
  (sys_dup_new_iff oneOpen oneOpen_counted 0 0 1 0 rfl).mpr ⟨rfl, by decide⟩

/-- `dup_new(0, 0)` closes the file for good and stops in `filedup`; `dup_new(0, 5)` returns 1. -/
theorem sys_dup_new_wrong_slot : Counted oneOpen.fs ∧ oneOpen.fs.ofile 0 0 = some 0 ∧
    (∃ e, sys_dup_new 0 0 0 oneOpen = .error e) ∧ ∃ s', sys_dup_new 0 0 5 oneOpen = .ok (1, s') :=
  ⟨oneOpen_counted, rfl, ⟨.filedup, rfl⟩, _, rfl⟩

end BirdOS.Files
