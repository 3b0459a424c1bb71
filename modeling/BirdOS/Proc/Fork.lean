import BirdOS.Mm.Image

/-! # A `fork` that fails (`proc.c`, `vm.c`)

`allocproc` takes two trapframes and the pages of a table, and `uvmcopy` shares the pages of the
parent.  Whatever the point of failure, all of it is given back, but for the first trapframe when
there is no page for the second.  `R` are the counted objects of the kernel: files, inodes,
segments of shared memory, message queues. -/

namespace BirdOS.Fork

open Image Outcome Function List Option
open Kalloc (Layout IsPage)
open Vm (Flags Pte)

variable {R : Type}

structure State (R : Type) where
  mem : Mem
  used : Slot → Bool
  ref : R → Int

structure Parent (R : Type) where
  pagetable : Table
  sz : Nat
  holds : List R

def kaddrefcnt (L : Layout) (m : Mem) (pa : Nat) : Mem :=
  if IsPage L pa then { m with cnt := update m.cnt pa (m.cnt pa + 1) } else m

/-- `freeproc` of a child that has not run. -/
def freeproc (L : Layout) (trapframe : Nat) (pagetable : Option Table) (alarm_trapframe : Nat)
    (m : Mem) : Except Panic Mem := do
  let m ← kfree L m trapframe
  let m ← match pagetable with
    | none => .ok m
    | some t => procFreepagetable L 0 t m
  kfree L m alarm_trapframe

def allocproc (L : Layout) (trampoline : Nat) (m : Mem) :
    Except Panic (Option (Nat × Nat × Table) × Mem) :=
  match kalloc m with
  | none => .ok (none, m)
  | some (trapframe, m) =>
    match kalloc m with
    | none => .ok (none, m)
    | some (alarm_trapframe, m) => do
      let (t, m) ← procPagetable L trampoline trapframe m
      match t with
      | none => do
        let m ← freeproc L trapframe none alarm_trapframe m
        return (none, m)
      | some t => return (some (trapframe, alarm_trapframe, t), m)

def cowPte (e : Pte) : Pte := ⟨e.pa, e.flags.cow⟩

def uvmcopy (L : Layout) : Nat → Nat → Table → Table → Mem →
    Except Panic (Bool × Table × Table × Mem)
  | 0, _, old, new, m => .ok (true, old, new, m)
  | left + 1, n, old, new, m =>
    if maxPage ≤ n then .error .walk
    else
      match old.pte n with
      | none => uvmcopy L left (n + 1) old new m
      | some e => do
        let old := { old with pte := update old.pte n (some (cowPte e)) }
        let (done, new, m) ← mappages n (cowPte e) new m
        if done then uvmcopy L left (n + 1) old new (kaddrefcnt L m e.pa)
        else do
          let (new, m) ← uvmunmap L true n 0 new m
          return (false, old, new, m)

/-- `fork`; `false` is `-1`. -/
def fork [DecidableEq R] (L : Layout) (trampoline : Nat) (s : State R) (p : Parent R) :
    Except Panic (Bool × State R × Parent R) :=
  match (List.finRange NPROC).find? fun i => !s.used i with
  | none => .ok (false, s, p)
  | some np => do
    let (child, m) ← allocproc L trampoline s.mem
    match child with
    | none => return (false, { s with mem := m }, p)
    | some (trapframe, alarm_trapframe, new) => do
      let (done, old, new, m) ← uvmcopy L (pgroundup p.sz / PGSIZE) 0 p.pagetable new m
      if done then
        return (true, ⟨m, update s.used np true, fun r => s.ref r + p.holds.count r⟩,
          { p with pagetable := old })
      else do
        let m ← freeproc L trapframe (some new) alarm_trapframe m
        return (false, { s with mem := m }, { p with pagetable := old })

/-! ## What is the same -/

def CanWrite (m : Mem) (t : Table) (n : Nat) : Prop :=
  ∃ e, t.pte n = some e ∧ e.flags.u = true ∧
    (e.flags.w = true ∨ e.flags.f = true ∧ (m.cnt e.pa = 1 ∨ m.free ≠ []))

def view (m : Mem) (t : Table) (n : Nat) : Option ((Nat → UInt8) × Bool × Bool × Bool) :=
  (t.pte n).map fun e => (m.data e.pa, e.flags.u, e.flags.r, e.flags.x)

structure Unchanged (s s' : State R) (p p' : Parent R) : Prop where
  free : s'.mem.free.Perm s.mem.free
  cnt : ∀ b, s'.mem.cnt b = s.mem.cnt b
  used : s'.used = s.used
  ref : s'.ref = s.ref
  view : ∀ n, view s'.mem p'.pagetable n = view s.mem p.pagetable n
  writes : ∀ n, CanWrite s'.mem p'.pagetable n ↔ CanWrite s.mem p.pagetable n

/-- The pages are counted and not free, and one that may be written is not shared. -/
structure Sane (L : Layout) (m : Mem) (t : Table) : Prop where
  held : ∀ n e, t.pte n = some e → e.pa ∉ m.free
  page : ∀ n e, t.pte n = some e → n < trapframePage →
    IsPage L e.pa ∧ 1 ≤ m.cnt e.pa ∧ e.flags ≠ noFlags
  alone : ∀ n e, t.pte n = some e → n < trapframePage → e.flags.w = true → m.cnt e.pa = 1

/-! ## Shared pages -/

def addRefs (m : Mem) (xs : List Nat) : Mem := { m with cnt := fun b => m.cnt b + xs.count b }

section Specs
variable {L : Layout} {m₀ m m' : Mem} {bs xs : List Nat} {pa n trampoline trapframe : Nat}
  {t old new : Table} {e : Pte}

theorem addRefs_nil (m : Mem) : addRefs m [] = m := by
  simp [addRefs]

theorem takes_share (h : Takes (addRefs m₀ xs) m bs) (hpage : IsPage L pa) (hpa : pa ∉ m₀.free) :
    Takes (addRefs m₀ (xs ++ [pa])) (kaddrefcnt L m pa) bs := by
  have hout : pa ∉ bs := fun hmem => hpa (h.mem hmem)
  rw [kaddrefcnt, if_pos hpage]
  refine ⟨h.free, fun b => ?_, h.data⟩
  simp only [update_apply, h.cnt, addRefs, count_append, count_singleton]
  by_cases hb : b = pa
  · simp [hb, hout]
    omega
  · have hne : (pa == b) = false := by simp [Ne.symm hb]
    simp [hb, hne]

theorem kfrees_shared (hxs : ∀ x ∈ xs, IsPage L x ∧ 1 ≤ m₀.cnt x ∧ x ∉ m₀.free) :
    ∀ m, Takes (addRefs m₀ xs) m bs →
      Ends (fun m' => Takes m₀ m' bs) (fun _ => False) (kfrees L xs m) := by
  induction xs with
  | nil =>
    intro m h
    rw [addRefs_nil] at h
    exact h
  | cons x xs ih =>
    intro m h
    obtain ⟨hpage, hcnt, hfree⟩ := hxs x (mem_cons_self ..)
    have hout : x ∉ bs := fun hmem => hfree (h.mem hmem)
    have htwo : ¬ m.cnt x - 1 = 0 := by
      rw [h.cnt x, if_neg hout]
      simp only [addRefs, count_cons_self]
      omega
    rw [kfrees, foldlM_cons, kfree, if_pos hpage, if_neg htwo]
    refine ih (fun y hy => hxs y (mem_cons_of_mem x hy)) _ ⟨h.free, fun b => ?_, h.data⟩
    simp only [update_apply, h.cnt, addRefs, count_cons]
    by_cases hb : b = x
    · simp [hb, hout]
      omega
    · have hne : (x == b) = false := by simp [Ne.symm hb]
      simp [hb, hne]

/-! ## The copy -/

def HasPath (n : Nat) (t : Table) : Prop :=
  (t.nodes.lookup (2, n / 2 ^ 18)).isSome ∧ (t.nodes.lookup (1, n / 2 ^ 9)).isSome

theorem lookup_descend (key key' : Nat × Nat) (h : (t.nodes.lookup key').isSome) :
    ((descend key t m).2.1.nodes.lookup key').isSome := by
  rw [descend]
  split
  · exact h
  cases kalloc m with
  | none => exact h
  | some r =>
    simp only [lookup_cons]
    split
    · rfl
    · exact h

theorem descend_found {key : Nat × Nat} (h : (descend key t m).1 = true) :
    ((descend key t m).2.1.nodes.lookup key).isSome := by
  rw [descend] at h ⊢
  split
  · next hsome => exact hsome
  · next hnone =>
    rw [if_neg hnone] at h
    cases hk : kalloc m with
    | none =>
      rw [hk] at h
      cases h
    | some r => simp

theorem mappages_path (k : Nat) :
    Ends (fun r => (HasPath k t → HasPath k r.2.1) ∧ (r.1 = true → HasPath n r.2.1))
      (fun _ => True) (mappages n e t m) := by
  have hwalk : Ends (fun r => (HasPath k t → HasPath k r.2.1) ∧ (r.1 = true → HasPath n r.2.1))
      (fun _ => True) (walk n t m) := by
    rw [walk]
    split
    · trivial
    have hfirst : (descend (2, n / 2 ^ 18) t m).1 = true → _ := descend_found
    have hkeep := fun key => lookup_descend (t := t) (m := m) (2, n / 2 ^ 18) key
    rcases hd : descend (2, n / 2 ^ 18) t m with ⟨_ | _, t1, m1⟩
    · rw [hd] at hkeep
      exact ⟨fun h => ⟨hkeep _ h.1, hkeep _ h.2⟩, fun h => by cases h⟩
    rw [hd] at hkeep hfirst
    have hkeep1 := fun key => lookup_descend (t := t1) (m := m1) (1, n / 2 ^ 9) key
    exact ⟨fun h => ⟨hkeep1 _ (hkeep _ h.1), hkeep1 _ (hkeep _ h.2)⟩,
      fun hr => ⟨hkeep1 _ (hfirst rfl), descend_found hr⟩⟩
  apply Ends.bind hwalk
  rintro ⟨found, t1, m1⟩ hr
  cases found with
  | false => exact ⟨hr.1, fun h => by cases h⟩
  | true =>
    simp only [Bool.true_eq_false, if_false]
    split
    · trivial
    · exact ⟨hr.1, fun _ => hr.2 rfl⟩

theorem walk_of_path (hn : n < maxPage) (h : HasPath n t) : walk n t m = .ok (true, t, m) := by
  rw [walk, if_neg (not_le.mpr hn), descend, if_pos h.1]
  simp only [descend, h.2, if_true]

theorem mappages_of_path (hn : n < maxPage) (h : HasPath n t) : mappages n e t m =
    if (t.pte n).isSome then .error .remap
    else .ok (true, { t with pte := update t.pte n (some e) }, m) := by
  rw [mappages, walk_of_path hn h]
  rfl

theorem hasPath_top {k : Nat} (hk : trapframePage ≤ k) (hmax : k < maxPage)
    (h : HasPath trapframePage t) : HasPath k t := by
  simp only [HasPath, trapframePage, maxPage, Vm.MAXVA, PGSIZE] at hk hmax h ⊢
  have h2 : k / 2 ^ 18 = (2 ^ 38 / 4096 - 2) / 2 ^ 18 := by omega
  have h1 : k / 2 ^ 9 = (2 ^ 38 / 4096 - 2) / 2 ^ 9 := by omega
  rw [h1, h2]
  exact h

theorem uvmcopy_top (left : Nat) : ∀ (n : Nat) (old new : Table) (m : Mem), trapframePage ≤ n →
    HasPath trapframePage new →
    Ends (fun r => r.1 = true) (fun _ => True) (uvmcopy L left n old new m) := by
  induction left with
  | zero => exact fun _ _ _ _ _ _ => rfl
  | succ left ih =>
    intro n old new m hn hpath
    rw [uvmcopy]
    split
    · trivial
    · next hmax =>
      cases old.pte n with
      | none => exact ih (n + 1) old new m (by omega) hpath
      | some e =>
        simp only [mappages_of_path (by omega) (hasPath_top hn (by omega) hpath)]
        split
        · trivial
        · exact ih (n + 1) _ _ _ (by omega) hpath

def marked (pte : Nat → Option Pte) (n : Nat) : Nat → Option Pte :=
  fun k => if k < n then (pte k).map cowPte else pte k

def copied (pte top : Nat → Option Pte) (n : Nat) : Nat → Option Pte :=
  fun k => if k < n then (pte k).map cowPte else top k

theorem leaves_copied (pte top : Nat → Option Pte) (n : Nat) :
    leaves (copied pte top n) 0 n = leaves pte 0 n := by
  refine List.filterMap_congr fun k hk => ?_
  obtain ⟨i, hi, rfl⟩ := List.mem_range'.mp hk
  rw [copied, if_pos (by omega), Option.map_map]
  rfl

theorem cow_flags (fl : Flags) (h : fl ≠ noFlags) : fl.cow ≠ noFlags := by
  revert fl
  rintro ⟨r, w, x, u, f⟩
  revert r w x u f
  decide

theorem uvmcopy_fails {pte : Nat → Option Pte} (hpage : ∀ k e, pte k = some e → k < trapframePage →
      IsPage L e.pa ∧ 1 ≤ m₀.cnt e.pa ∧ e.pa ∉ m₀.free ∧ e.flags ≠ noFlags) (left : Nat) :
    ∀ (n : Nat) (old new : Table) (m : Mem), n ≤ trapframePage → old.pte = marked pte n →
      new.pte = copied pte (tops trampoline trapframe) n → HasPath trapframePage new →
      Takes (addRefs m₀ (leaves pte 0 n)) m (new.pages ++ bs) →
      Ends (fun r => r.1 = false → (∃ c, c ≤ trapframePage ∧ r.2.1.pte = marked pte c) ∧
          r.2.2.1.pte = tops trampoline trapframe ∧ Takes m₀ r.2.2.2 (r.2.2.1.pages ++ bs))
        (fun _ => True) (uvmcopy L left n old new m) := by
  have hleaf : ∀ c, c ≤ trapframePage → ∀ x ∈ leaves pte 0 c,
      IsPage L x ∧ 1 ≤ m₀.cnt x ∧ x ∉ m₀.free := by
    intro c hc x hx
    obtain ⟨k, hk, hk'⟩ := mem_filterMap.mp hx
    obtain ⟨i, hi, rfl⟩ := mem_range'.mp hk
    obtain ⟨e, he, rfl⟩ := map_eq_some_iff.mp hk'
    obtain ⟨h1, h2, h3, -⟩ := hpage _ e he (by omega)
    exact ⟨h1, h2, h3⟩
  have hbelow : trapframePage < maxPage := by decide
  induction left with
  | zero => exact fun _ _ _ _ _ _ _ _ _ h => by cases h
  | succ left ih =>
    intro n old new m hn hold hnew hpath h
    by_cases htop : n = trapframePage
    · exact (uvmcopy_top (left + 1) n old new m (by omega) hpath).mono
        (fun r hr hfalse => absurd hr (by rw [hfalse]; decide)) fun _ _ => trivial
    have hentry : old.pte n = pte n := by
      rw [hold, marked, if_neg (lt_irrefl n)]
    have hnone : new.pte n = none := by
      rw [hnew, copied, if_neg (lt_irrefl n)]
      exact tops_below (by omega)
    rw [uvmcopy, if_neg (by omega), hentry]
    cases he : pte n with
    | none =>
      have hleaves : leaves pte 0 (n + 1) = leaves pte 0 n := by
        rw [leaves_snoc, zero_add, he]
        exact append_nil _
      refine ih (n + 1) old new m (by omega) ?_ ?_ hpath (hleaves ▸ h)
      · rw [hold]
        funext k
        simp only [marked]
        grind
      · rw [hnew]
        funext k
        have hz : tops trampoline trapframe n = none := tops_below (by omega)
        simp only [copied]
        grind
    | some e =>
      obtain ⟨hp, hc, hfree, hflags⟩ := hpage n e he (by omega)
      have hmark : update old.pte n (some (cowPte e)) = marked pte (n + 1) := by
        rw [hold]
        funext k
        simp only [marked, update_apply]
        grind
      apply Ends.bind ((mappages_spec (by omega) hnone h).of_returns.and
        (mappages_path trapframePage))
      rintro ⟨done, new', m'⟩ ⟨⟨h', hpte'⟩, hpath', -⟩
      cases done with
      | true =>
        have hleaves : leaves pte 0 (n + 1) = leaves pte 0 n ++ [e.pa] := by
          rw [leaves_snoc, zero_add, he]
          rfl
        refine ih (n + 1) _ new' _ (by omega) hmark ?_ (hpath' hpath) ?_
        · have hpte : new'.pte = update new.pte n (some (cowPte e)) := hpte'
          rw [hpte, hnew]
          funext k
          simp only [copied, update_apply]
          grind
        · rw [hleaves]
          exact takes_share h' hp hfree
      | false =>
        have hpte : new'.pte = copied pte (tops trampoline trapframe) n := by
          rw [← hnew]
          exact hpte'
        have hfl : ∀ k e, 0 ≤ k → k < 0 + n → new'.pte k = some e → e.flags ≠ noFlags := by
          intro k e' _ hk hk'
          rw [hpte, copied, if_pos (by omega)] at hk'
          obtain ⟨e0, he0, rfl⟩ := map_eq_some_iff.mp hk'
          exact cow_flags _ (hpage k e0 he0 (by omega)).2.2.2
        have hclear : clear new'.pte 0 n = tops trampoline trapframe := by
          funext k
          rw [clear, hpte, copied]
          split
          · exact (tops_below (by omega)).symm
          · rw [if_neg (by omega)]
        simp only [Bool.false_eq_true, if_false]
        rw [uvmunmap_eq n 0 new' m' (by omega) hfl, hclear, hpte, leaves_copied]
        refine .bind (P := fun r => r.1 = { new' with pte := tops trampoline trapframe } ∧
          Takes m₀ r.2 (new'.pages ++ bs)) (Ends.map ?_) ?_
        · exact ((kfrees_shared (hleaf n hn) m' h').mono (fun _ hm => ⟨rfl, hm⟩)
            fun _ hf => hf).of_returns
        rintro ⟨t2, m2⟩ ⟨ht2, h₂⟩
        simp only at ht2
        subst ht2
        exact fun _ => ⟨⟨n + 1, by omega, hmark⟩, rfl, h₂⟩

/-! ## `fork` -/

theorem freeproc_spec (h0 : Fair L m₀) {alarm : Nat} (hnew : new.pte = tops trampoline trapframe)
    (h : Takes m₀ m (new.pages ++ [alarm, trapframe])) :
    Ends (fun m' => Takes m₀ m' []) (fun _ => False) (freeproc L trapframe (some new) alarm m) := by
  have hperm : (new.pages ++ [alarm, trapframe]).Perm (trapframe :: (new.pages ++ [alarm])) := by
    rw [show [alarm, trapframe] = [alarm] ++ [trapframe] from rfl, ← append_assoc]
    exact perm_append_singleton _ _
  refine .bind ((h.perm hperm).kfree h0) fun m1 h1 => ?_
  refine .bind (P := fun m' => Takes m₀ m' [alarm])
    (procFreepagetable_spec h0 (fun k e he => ?_) zero_le h1) fun m2 h2 => h2.kfree h0
  rw [hnew] at he
  exact tops_flags he

theorem hasPath_of_tops (h : procPagetable L trampoline trapframe m = .ok (some t, m')) :
    HasPath trapframePage t := by
  have hspec : Ends (fun r => ∀ t, r.1 = some t → HasPath trapframePage t) (fun _ => True)
      (procPagetable L trampoline trapframe m) := by
    rw [procPagetable]
    cases kalloc m with
    | none => exact fun _ h => by cases h
    | some r =>
      apply Ends.bind (Ends.eq_ok _)
      rintro ⟨done, t1, m1⟩ -
      cases done with
      | false => exact .bind (Ends.eq_ok _) fun _ _ _ h => by cases h
      | true =>
        apply Ends.bind (mappages_path 0)
        rintro ⟨done, t2, m2⟩ hr
        cases done with
        | false =>
          exact .bind (Ends.eq_ok _) fun _ _ => Ends.bind (Ends.eq_ok _) fun _ _ _ h => by cases h
        | true =>
          rintro t' ⟨⟩
          exact hr.2 rfl
  rw [h] at hspec
  exact hspec t rfl

theorem marked_view {c : Nat} (hs : Sane L m₀ t) (hold : old.pte = marked t.pte c)
    (h : Takes m₀ m []) (n : Nat) : view m old n = view m₀ t n := by
  have hcow : ∀ fl : Flags, fl.cow.u = fl.u ∧ fl.cow.r = fl.r ∧ fl.cow.x = fl.x := by
    intro fl
    rw [Flags.cow]
    split <;> exact ⟨rfl, rfl, rfl⟩
  rw [view, view, hold, marked]
  cases hp : t.pte n with
  | none => simp
  | some e =>
    have hdata := h.data e.pa (hs.held n e hp)
    obtain ⟨hu, hr, hx⟩ := hcow e.flags
    split <;> simp [cowPte, hdata, hu, hr, hx]

theorem marked_writes {c : Nat} (hs : Sane L m₀ t) (hc : c ≤ trapframePage)
    (hold : old.pte = marked t.pte c) (h : Takes m₀ m []) (n : Nat) :
    CanWrite m old n ↔ CanWrite m₀ t n := by
  have hfree : m.free ≠ [] ↔ m₀.free ≠ [] := by
    have hperm := h.free
    rw [append_nil] at hperm
    exact not_congr ⟨fun he => perm_nil.mp (he ▸ hperm).symm,
      fun he => perm_nil.mp (he ▸ hperm)⟩
  have hcnt : ∀ b, m.cnt b = m₀.cnt b := fun b => by
    rw [h.cnt b]
    simp
  simp only [CanWrite, hcnt, hfree, hold, marked]
  split
  · next hn =>
    cases hp : t.pte n with
    | none => simp
    | some e =>
      have halone := hs.alone n e hp (by omega)
      simp only [map_some, Option.some.injEq, exists_eq_left', cowPte, Flags.cow]
      by_cases hw : e.flags.w = true
      · simp [hw, halone hw]
      · simp [hw]
  · rfl

theorem unchanged_of_takes {s : State R} {p : Parent R} {c : Nat} (hs : Sane L s.mem p.pagetable)
    (hc : c ≤ trapframePage) (hold : old.pte = marked p.pagetable.pte c) (h : Takes s.mem m []) :
    Unchanged s { s with mem := m } p { p with pagetable := old } := by
  refine ⟨?_, fun b => ?_, rfl, rfl, marked_view hs hold h, marked_writes hs hc hold h⟩
  · have hfree := h.free
    rw [append_nil] at hfree
    exact hfree
  · rw [h.cnt b]
    simp

theorem allocproc_spec (h0 : Fair L m) :
    Ends (fun r => (r.1 = none → Takes m r.2 [] ∧ m.free.length ≠ 1 ∨
          m.free.length = 1 ∧ r.2.free = []) ∧
        ∀ trapframe alarm t, r.1 = some (trapframe, alarm, t) → m.free.length ≠ 1 ∧
          t.pte = tops trampoline trapframe ∧ HasPath trapframePage t ∧
          Takes m r.2 (t.pages ++ [alarm, trapframe]))
      (fun _ => False) (allocproc L trampoline m) := by
  have hnil : ∀ {m : Mem}, kalloc m = none → m.free = [] := by
    intro m hk
    cases hf : m.free with
    | nil => rfl
    | cons b rest => simp [kalloc, hf] at hk
  rw [allocproc]
  cases hk : kalloc m with
  | none => exact ⟨fun _ => .inl ⟨Takes.refl m, by simp [hnil hk]⟩, fun _ _ _ h => by cases h⟩
  | some r =>
    obtain ⟨trapframe, m1⟩ := r
    have h1 := (Takes.refl m).kalloc hk
    simp only
    cases hk1 : kalloc m1 with
    | none =>
      refine ⟨fun _ => .inr ⟨?_, hnil hk1⟩, fun _ _ _ h => by cases h⟩
      rw [← h1.length, hnil hk1]
      rfl
    | some r =>
      obtain ⟨alarm, m2⟩ := r
      have h2 := h1.kalloc hk1
      have htwo : m.free.length ≠ 1 := by
        have hlen := h2.length
        simp only [length_cons] at hlen
        omega
      apply Ends.bind (procPagetable_spec h0 h2 trampoline trapframe).with_eq
      rintro ⟨t, m3⟩ ⟨heq, hr⟩
      cases t with
      | none =>
        have hboth : Takes m m3 (trapframe :: [alarm]) := (hr.1 rfl).perm (List.Perm.swap ..)
        refine .bind (P := fun m' => Takes m m' []) ?_ fun m4 h4 =>
          ⟨fun _ => .inl ⟨h4, htwo⟩, fun _ _ _ h => by cases h⟩
        exact .bind (hboth.kfree h0) fun m5 h5 => h5.kfree h0
      | some t =>
        refine ⟨by simp, fun trapframe' alarm' t' he => ?_⟩
        cases he
        obtain ⟨hpte, htakes⟩ := hr.2 t rfl
        exact ⟨htwo, hpte, hasPath_of_tops heq, htakes⟩

end Specs

/-- A `fork` that returns `-1` has changed nothing, unless there was a slot for the child and
exactly one free page. -/
theorem failed_fork_changes_nothing_iff [DecidableEq R] (L : Layout) (trampoline : Nat)
    (s : State R) (p : Parent R) (hm : Fair L s.mem) (hp : Sane L s.mem p.pagetable) (s' : State R)
    (p' : Parent R) (h : fork L trampoline s p = .ok (false, s', p')) :
    Unchanged s s' p p' ↔ ¬ ((∃ i, s.used i = false) ∧ s.mem.free.length = 1) := by
  have hsame : ∀ m, Takes s.mem m [] → Unchanged s { s with mem := m } p p := fun m htakes =>
    unchanged_of_takes (c := 0) hp zero_le (by
      funext k
      rw [marked, if_neg (Nat.not_lt_zero k)]) htakes
  have hspec : Ends (fun r => r.1 = false → (Unchanged s r.2.1 p r.2.2 ∧
        ((∃ i, s.used i = false) → s.mem.free.length ≠ 1)) ∨
        ((∃ i, s.used i = false) ∧ s.mem.free.length = 1 ∧ r.2.1.mem.free = []))
      (fun _ => True) (fork L trampoline s p) := by
    rw [fork]
    cases hfind : (List.finRange NPROC).find? fun i => !s.used i with
    | none =>
      intro _
      refine .inl ⟨hsame s.mem (Takes.refl s.mem), ?_⟩
      rintro ⟨i, hi⟩
      have hused := List.find?_eq_none.mp hfind i (List.mem_finRange i)
      simp [hi] at hused
    | some np =>
      have hslot : ∃ i, s.used i = false := ⟨np, by simpa using List.find?_some hfind⟩
      refine .bind (allocproc_spec hm).of_returns fun ⟨child, m⟩ hr => ?_
      cases child with
      | none =>
        rcases hr.1 rfl with ⟨htakes, htwo⟩ | ⟨hone, hempty⟩
        · exact fun _ => .inl ⟨hsame m htakes, fun _ => htwo⟩
        · exact fun _ => .inr ⟨hslot, hone, hempty⟩
      | some child =>
        obtain ⟨trapframe, alarm, new⟩ := child
        obtain ⟨htwo, hpte, hpath, htakes⟩ := hr.2 trapframe alarm new rfl
        have hpage : ∀ k e, p.pagetable.pte k = some e → k < trapframePage →
            IsPage L e.pa ∧ 1 ≤ s.mem.cnt e.pa ∧ e.pa ∉ s.mem.free ∧ e.flags ≠ noFlags := by
          intro k e he hk
          obtain ⟨h1, h2, h3⟩ := hp.page k e he hk
          exact ⟨h1, h2, hp.held k e he, h3⟩
        have hstart : p.pagetable.pte = marked p.pagetable.pte 0 := by
          funext k
          rw [marked, if_neg (Nat.not_lt_zero k)]
        have hchild : new.pte = copied p.pagetable.pte (tops trampoline trapframe) 0 := by
          rw [hpte]
          funext k
          rw [copied, if_neg (Nat.not_lt_zero k)]
        have hbase : Takes (addRefs s.mem (leaves p.pagetable.pte 0 0)) m
            (new.pages ++ [alarm, trapframe]) := by
          rw [show leaves p.pagetable.pte 0 0 = [] from rfl, addRefs_nil]
          exact htakes
        refine .bind (uvmcopy_fails hpage _ 0 p.pagetable new m zero_le hstart hchild
          hpath hbase) fun ⟨done, old, new', m'⟩ hc => ?_
        cases done with
        | true => exact nofun
        | false =>
          obtain ⟨⟨c, hcle, hold⟩, hnew, ht⟩ := hc rfl
          exact .bind (freeproc_spec hm hnew ht).of_returns fun m₂ h₂ _ =>
            .inl ⟨unchanged_of_takes hp hcle hold h₂, fun _ => htwo⟩
  rw [h] at hspec
  rcases hspec rfl with ⟨hun, hone⟩ | ⟨hslot, hone, hempty⟩
  · exact ⟨fun _ hc => hone hc.1 hc.2, fun _ => hun⟩
  refine ⟨fun hun => ?_, fun hno => absurd ⟨hslot, hone⟩ hno⟩
  have hlen := hun.free.length_eq
  simp only at hempty
  rw [hempty, hone] at hlen
  cases hlen

def idle (n : Nat) : State Unit :=
  ⟨⟨fun _ _ => 0, (List.range n).map fun i => KERNBASE + i * PGSIZE, fun _ => 0⟩,
    fun i => decide (i = 0), fun _ => 0⟩

def bare : Parent Unit := ⟨⟨0, [], fun _ => none⟩, 0, []⟩

def busy : State Unit :=
  { idle 6 with mem := { (idle 6).mem with cnt := fun b => if b = PHYSTOP - PGSIZE then 1 else 0 } }

def writer : Parent Unit :=
  ⟨⟨0, [], fun k => if k = 0 then some ⟨PHYSTOP - PGSIZE, ⟨true, true, false, true, false⟩⟩
    else none⟩, PGSIZE, []⟩

/-- The page of the parent is marked before the child's table runs out of memory. -/
theorem failed_fork_changes_nothing_iff_two : ∃ s' p',
    fork noKernel 0 busy writer = .ok (false, s', p') ∧ Unchanged busy s' writer p' := by
  have hfair : Fair noKernel busy.mem := by
    refine ⟨?_, ?_, ?_⟩ <;> decide +kernel
  have hsane : Sane noKernel busy.mem writer.pagetable := by
    refine ⟨?_, ?_, ?_⟩
    all_goals
      intro k e he
      obtain ⟨rfl, ⟨⟩⟩ := Option.ite_none_right_eq_some.mp he
      decide +kernel
  obtain ⟨⟨_, s', p'⟩, hrun, rfl⟩ := Ends.returns (P := fun r => r.1 = false)
    (x := fork noKernel 0 busy writer) (by decide +kernel)
  exact ⟨s', p', hrun, (failed_fork_changes_nothing_iff noKernel 0 busy writer hfair hsane s' p'
    hrun).mpr (by decide)⟩

theorem fork_loses_trapframe : ∃ s' p', fork noKernel 0 (idle 1) bare = .ok (false, s', p') ∧
    (idle 1).mem.free.length = 1 ∧ s'.mem.free = [] :=
  ⟨_, _, rfl, rfl, rfl⟩

end BirdOS.Fork
