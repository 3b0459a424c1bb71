import BirdOS.Lib.Locks
import BirdOS.Mm.Kalloc

/-! # The locks of the page allocator

`kalloc` and `kfree` on all CPUs at once.  A step is one lock operation of one CPU with
the code up to its next lock operation, so a CPU at `acquire` waits as long as another
one holds the lock.  `kalloc` holds the lock of its own list while it looks for a page
in the other lists, and takes `ref.lock` while it holds both.

Interrupts are off from `push_off` to `pop_off`, so a CPU is in at most one call there.
`kfree` can move to another CPU after it has dropped the last reference: such pages are
`loose` until a CPU puts them on its list. -/

namespace BirdOS.KallocLocks

open Machine Kalloc Function Option

abbrev Cpu := Fin NCPU

inductive Phase where
  | outside
  /-- `kalloc`: `acquire(&kmem[id].lock)`. -/
  | entering
  /-- `kalloc` has the page `r` of list `i`: `acquire(&ref.lock)`. -/
  | counting (i : Cpu) (r : Nat)
  /-- `release(&ref.lock)`. -/
  | counted (i : Cpu) (r : Nat)
  /-- `release(&kmem[i].lock)` after a theft. -/
  | robbed (i : Cpu) (r : Nat)
  /-- `acquire(&kmem[antid].lock)`, with the lists that come after it. -/
  | probing (antid : Cpu) (rest : List Cpu)
  /-- `release(&kmem[antid].lock)` of an empty list. -/
  | passing (antid : Cpu) (rest : List Cpu)
  /-- `release(&kmem[id].lock)` at the end of `kalloc`. -/
  | leaving (r : Option Nat)
  /-- `kfree`: `acquire(&ref.lock)`. -/
  | dropping (pa : Nat)
  /-- `release(&ref.lock)`, `last` when the count is zero. -/
  | dropped (pa : Nat) (last : Bool)
  /-- `kfree`: `acquire(&kmem[id].lock)`. -/
  | freeing (pa : Nat)
  /-- `release(&kmem[id].lock)` at the end of `kfree`. -/
  | freed
  deriving DecidableEq

open Phase

structure State where
  kmem : Kmem
  lock : Cpu → Option Cpu
  refLock : Option Cpu
  phase : Cpu → Phase
  loose : List Nat

open State

def State.goto (s : State) (id : Cpu) (ph : Phase) : State :=
  { s with phase := update s.phase id ph }

def State.acquire (s : State) (id i : Cpu) : Option State :=
  match s.lock i with
  | none => some { s with lock := update s.lock i (some id) }
  | some _ => none

def State.release (s : State) (i : Cpu) : State :=
  { s with lock := update s.lock i none }

def State.acquireRef (s : State) (id : Cpu) : Option State :=
  match s.refLock with
  | none => some { s with refLock := some id }
  | some _ => none

def unlink (k : Kmem) (i : Cpu) (r : Nat) : Kmem :=
  { k with freelist := update k.freelist i (k.next r) }

def seek (id : Cpu) : List Cpu → Phase
  | [] => .leaving none
  | antid :: rest => if antid = id then seek id rest else .probing antid rest

def look (s : State) (id i : Cpu) (ph : Phase) : State :=
  match s.kmem.freelist i with
  | some r => { s with kmem := unlink s.kmem i r }.goto id (.counting i r)
  | none => s.goto id ph

def fill (k : Kmem) : Option Nat → Kmem
  | some r => memset k r 5
  | none => k

def go (s : State) (id : Cpu) : Option State :=
  match s.phase id with
  | .outside => none
  | .entering => do
    let s ← s.acquire id id
    some (look s id id (seek id (List.finRange NCPU)))
  | .counting i r => do
    let s ← s.acquireRef id
    some ({ s with kmem := setCnt s.kmem r 1 }.goto id (.counted i r))
  | .counted i r =>
    some ({ s with refLock := none }.goto id (if i = id then .leaving (some r) else .robbed i r))
  | .robbed i r => some ((s.release i).goto id (.leaving (some r)))
  | .probing antid rest => do
    let s ← s.acquire id antid
    some (look s id antid (.passing antid rest))
  | .passing antid rest => some ((s.release antid).goto id (seek id rest))
  | .leaving r => some ({ s.release id with kmem := fill s.kmem r }.goto id .outside)
  | .dropping pa => do
    let s ← s.acquireRef id
    let c := krefcnt s.kmem pa - 1
    some ({ s with kmem := setCnt s.kmem pa c }.goto id (.dropped pa (c = 0)))
  | .dropped pa last =>
    let s := { s with refLock := none }.goto id .outside
    some (if last then { s with kmem := memset s.kmem pa 1, loose := pa :: s.loose } else s)
  | .freeing pa => do
    let s ← s.acquire id id
    some ({ s with kmem := push s.kmem id pa }.goto id .freed)
  | .freed => some ((s.release id).goto id .outside)

inductive Op where
  | kalloc (id : Cpu)
  | kfree (id : Cpu) (pa : Nat)
  /-- A `kfree` of a loose page goes on, on CPU `id`. -/
  | resume (id : Cpu) (pa : Nat)
  | go (id : Cpu)

def step (L : Layout) (s : State) : Op → Option State
  | .kalloc id => if s.phase id = .outside then some (s.goto id .entering) else none
  | .kfree id pa =>
    if s.phase id = .outside ∧ IsPage L pa then some (s.goto id (.dropping pa)) else none
  | .resume id pa =>
    if s.phase id = .outside ∧ pa ∈ s.loose then
      some ({ s with loose := s.loose.erase pa }.goto id (.freeing pa))
    else none
  | .go id => KallocLocks.go s id

def idle (k : Kmem) : State := ⟨k, fun _ => none, none, fun _ => .outside, []⟩

def Phase.locks (id : Cpu) : Phase → List Cpu
  | .outside | .entering | .dropping _ | .dropped _ _ | .freeing _ => []
  | .counting i _ | .counted i _ | .robbed i _ => [i, id]
  | .probing _ _ | .leaving _ | .freed => [id]
  | .passing i _ => [i, id]

def Phase.wants (id : Cpu) : Phase → Option Cpu
  | .entering | .freeing _ => some id
  | .probing antid _ => some antid
  | _ => none

def State.wants (s : State) (id : Cpu) : Option Cpu := (s.phase id).wants id

/-! ## Which locks a CPU holds -/

def Phase.Foreign (id : Cpu) : Phase → Prop
  | .probing i _ | .passing i _ | .robbed i _ => i ≠ id
  | _ => True

structure Inv (s : State) : Prop where
  agrees : Locks.Agrees s.lock locks s.phase
  foreign : ∀ id, (s.phase id).Foreign id

theorem seek_foreign (id : Cpu) (is : List Cpu) : (seek id is).Foreign id := by
  induction is with
  | nil => exact trivial
  | cons i is ih =>
    by_cases hi : i = id
    · rw [seek, if_pos hi]
      exact ih
    · rw [seek, if_neg hi]
      exact hi

theorem seek_locks (id : Cpu) (is : List Cpu) : (seek id is).locks id = [id] := by
  induction is with
  | nil => rfl
  | cons i is ih =>
    by_cases hi : i = id
    · rw [seek, if_pos hi]
      exact ih
    · rw [seek, if_neg hi]
      rfl

theorem acquire_some {s s' : State} {id i : Cpu} (h : s.acquire id i = some s') :
    s.lock i = none ∧ s' = { s with lock := update s.lock i (some id) } := by
  unfold acquire at h
  cases hl : s.lock i with
  | none => exact ⟨rfl, by rw [hl] at h; exact (some.inj h).symm⟩
  | some j => rw [hl] at h; cases h

theorem acquireRef_some {s s' : State} {id : Cpu} (h : s.acquireRef id = some s') :
    s' = { s with refLock := some id } := by
  unfold acquireRef at h
  cases hl : s.refLock with
  | none => rw [hl] at h; exact (some.inj h).symm
  | some j => rw [hl] at h; cases h

theorem look_cases (s : State) (id i : Cpu) (ph : Phase) :
    ∃ k ph', look s id i ph = { s with kmem := k }.goto id ph' ∧
      (ph' = ph ∨ ∃ r, ph' = .counting i r) := by
  unfold look
  cases s.kmem.freelist i with
  | none => exact ⟨s.kmem, ph, rfl, .inl rfl⟩
  | some r => exact ⟨unlink s.kmem i r, _, rfl, .inr ⟨r, rfl⟩⟩

inductive Moves (s : State) (id : Cpu) : (Cpu → Option Cpu) → Phase → Prop where
  | stay (ph : Phase) (hf : ph.Foreign id) (hl : ∀ k, k ∈ ph.locks id ↔ k ∈ (s.phase id).locks id) :
      Moves s id s.lock ph
  | take (i : Cpu) (ph : Phase) (hf : ph.Foreign id) (hfree : s.lock i = none)
      (hl : ∀ k, k ∈ ph.locks id ↔ k = i ∨ k ∈ (s.phase id).locks id) :
      Moves s id (update s.lock i (some id)) ph
  | give (i : Cpu) (ph : Phase) (hf : ph.Foreign id) (hheld : i ∈ (s.phase id).locks id)
      (hl : ∀ k, k ∈ ph.locks id ↔ k ≠ i ∧ k ∈ (s.phase id).locks id) :
      Moves s id (update s.lock i none) ph

theorem Inv.moves {s s' : State} {id : Cpu} {lock : Cpu → Option Cpu} {ph : Phase} (hi : Inv s)
    (h : Moves s id lock ph) (hlock : s'.lock = lock)
    (hphase : s'.phase = update s.phase id ph) : Inv s' := by
  have hforeign (hf : ph.Foreign id) : ∀ j, (s'.phase j).Foreign j := by
    intro j
    rw [hphase]
    obtain rfl | hj := eq_or_ne j id
    · rw [update_self]
      exact hf
    · rw [update_of_ne hj]
      exact hi.foreign j
  cases h with
  | stay ph hf hl => exact ⟨by rw [hlock, hphase]; exact hi.agrees.move hl, hforeign hf⟩
  | take i ph hf hfree hl =>
    exact ⟨by rw [hlock, hphase]; exact hi.agrees.acquire hfree hl, hforeign hf⟩
  | give i ph hf hheld hl =>
    exact ⟨by rw [hlock, hphase]; exact hi.agrees.release hheld hl, hforeign hf⟩

theorem look_moves {s t s' : State} {id i : Cpu} {ph : Phase} (ht : s.acquire id i = some t)
    (h : some (look t id i ph) = some s') (hf : ph.Foreign id)
    (hph : ∀ k, k ∈ ph.locks id ↔ k = i ∨ k ∈ (s.phase id).locks id)
    (hr : ∀ k, (k = i ∨ k = id) ↔ k = i ∨ k ∈ (s.phase id).locks id) :
    ∃ lock ph', Moves s id lock ph' ∧ s'.lock = lock ∧ s'.phase = update s.phase id ph' := by
  obtain ⟨hfree, rfl⟩ := acquire_some ht
  cases h
  obtain ⟨k, ph', heq, hcase⟩ :=
    look_cases { s with lock := update s.lock i (some id) } id i ph
  refine ⟨_, ph', .take i ph' ?_ hfree ?_, by rw [heq]; rfl, by rw [heq]; rfl⟩
  · rcases hcase with rfl | ⟨r, rfl⟩
    · exact hf
    · exact trivial
  · rcases hcase with rfl | ⟨r, rfl⟩
    · exact hph
    · simpa [locks] using hr

theorem go_moves {s s' : State} {id : Cpu} (hi : Inv s) (h : go s id = some s') :
    ∃ lock ph, Moves s id lock ph ∧ s'.lock = lock ∧
      s'.phase = update s.phase id ph := by
  have hforeign := hi.foreign id
  unfold go at h
  cases hp : s.phase id with
  | outside => rw [hp] at h; cases h
  | entering =>
    rw [hp] at h
    obtain ⟨t, ht, h⟩ := bind_eq_some_iff.mp h
    refine look_moves ht h (seek_foreign id _) ?_ ?_
    · intro k
      rw [seek_locks, hp]
      simp [locks]
    · simp [hp, locks]
  | counting i r =>
    rw [hp] at h
    obtain ⟨t, ht, h⟩ := bind_eq_some_iff.mp h
    obtain rfl := acquireRef_some ht
    cases h
    exact ⟨_, _, .stay (.counted i r) trivial (by simp [hp, locks]), rfl, rfl⟩
  | counted i r =>
    rw [hp] at h
    cases h
    obtain rfl | hid := eq_or_ne i id
    · exact ⟨_, _, .stay (.leaving (some r)) trivial (by simp [hp, locks]), rfl,
        by rw [if_pos rfl]; rfl⟩
    · exact ⟨_, _, .stay (.robbed i r) hid (by simp [hp, locks]), rfl,
        by rw [if_neg hid]; rfl⟩
  | robbed i r =>
    rw [hp] at h hforeign
    cases h
    refine ⟨_, _, .give i (.leaving (some r)) trivial ?_ ?_, rfl, rfl⟩
    · simp [hp, locks]
    · intro k
      simp only [hp, locks, List.mem_cons, List.not_mem_nil, or_false]
      exact ⟨fun hk => ⟨hk ▸ Ne.symm hforeign, .inr hk⟩, fun hk => hk.2.resolve_left hk.1⟩
  | probing i rest =>
    rw [hp] at h hforeign
    obtain ⟨t, ht, h⟩ := bind_eq_some_iff.mp h
    refine look_moves ht h hforeign ?_ ?_
    · simp [hp, locks]
    · simp [hp, locks]
  | passing i rest =>
    rw [hp] at h hforeign
    cases h
    refine ⟨_, _, .give i (seek id rest) (seek_foreign id rest) ?_ ?_, rfl, rfl⟩
    · simp [hp, locks]
    · intro k
      rw [seek_locks]
      simp only [hp, locks, List.mem_cons, List.not_mem_nil, or_false]
      exact ⟨fun hk => ⟨hk ▸ Ne.symm hforeign, .inr hk⟩, fun hk => hk.2.resolve_left hk.1⟩
  | leaving r | freed =>
    rw [hp] at h
    cases h
    exact ⟨_, _, .give id .outside trivial (by simp [hp, locks])
      (by simp [hp, locks]), rfl, rfl⟩
  | dropping pa =>
    rw [hp] at h
    obtain ⟨t, ht, h⟩ := bind_eq_some_iff.mp h
    obtain rfl := acquireRef_some ht
    cases h
    exact ⟨_, _, .stay (.dropped pa _) trivial (by simp [hp, locks]), rfl, rfl⟩
  | dropped pa last =>
    rw [hp] at h
    cases h
    refine ⟨_, _, .stay .outside trivial (by simp [hp, locks]), ?_, ?_⟩
    · cases last <;> rfl
    · cases last <;> rfl
  | freeing pa =>
    rw [hp] at h
    obtain ⟨t, ht, h⟩ := bind_eq_some_iff.mp h
    obtain ⟨hfree, rfl⟩ := acquire_some ht
    cases h
    exact ⟨_, _, .take id .freed trivial hfree (by simp [hp, locks]), rfl, rfl⟩

theorem Inv.step {L : Layout} {s s' : State} {op : Op} (hi : Inv s)
    (h : step L s op = some s') : Inv s' := by
  cases op with
  | kalloc id =>
    obtain ⟨hout, ⟨⟩⟩ := ite_none_right_eq_some.mp h
    exact hi.moves (.stay .entering trivial (by simp [hout, locks])) rfl rfl
  | kfree id pa =>
    obtain ⟨⟨hout, -⟩, ⟨⟩⟩ := ite_none_right_eq_some.mp h
    exact hi.moves (.stay (.dropping pa) trivial (by simp [hout, locks])) rfl rfl
  | resume id pa =>
    obtain ⟨⟨hout, -⟩, ⟨⟩⟩ := ite_none_right_eq_some.mp h
    exact hi.moves (.stay (.freeing pa) trivial (by simp [hout, locks])) rfl rfl
  | go id =>
    obtain ⟨lock, ph, hm, hlock, hphase⟩ := go_moves hi h
    exact hi.moves hm hlock hphase

theorem inv_idle (k : Kmem) : Inv (idle k) where
  agrees := by
    intro l id
    simp [idle, locks]
  foreign := fun _ => trivial

/-! ## An undisturbed call is a call of the sequential allocator -/

def Goes (id : Cpu) (s t : State) : Prop := ∃ n, run go s (List.replicate n id) = some t

theorem Goes.refl (id : Cpu) (s : State) : Goes id s s := ⟨0, rfl⟩

theorem Goes.head {id : Cpu} {s t u : State} (h : go s id = some t) (hu : Goes id t u) :
    Goes id s u := by
  obtain ⟨n, hn⟩ := hu
  refine ⟨n + 1, ?_⟩
  rw [List.replicate_succ, run_cons, h]
  exact hn

def State.during (s : State) (id : Cpu) (k : Kmem) (lock : Cpu → Option Cpu) (ph : Phase) : State :=
  { s with kmem := k, lock := lock, phase := update s.phase id ph }

section Undisturbed
variable {s : State} {id : Cpu}

theorem goes_leave (k : Kmem) (lock : Cpu → Option Cpu) (r : Option Nat) :
    Goes id (s.during id k lock (.leaving r))
      (s.during id (fill k r) (update lock id none) .outside) := by
  refine Goes.head ?_ (Goes.refl id _)
  simp [go, during, release, goto]

theorem goes_take (href : s.refLock = none) (k : Kmem) (lock : Cpu → Option Cpu) (i : Cpu)
    (r : Nat) : Goes id (s.during id k lock (.counting i r))
      (s.during id (fill (setCnt k r 1) (some r))
        (update (if i = id then lock else update lock i none) id none) .outside) := by
  have hcount : Goes id
      (s.during id (setCnt k r 1) lock (if i = id then .leaving (some r) else .robbed i r))
      (s.during id (fill (setCnt k r 1) (some r))
        (update (if i = id then lock else update lock i none) id none)
        .outside) := by
    by_cases hid : i = id
    · rw [if_pos hid, if_pos hid]
      exact goes_leave _ _ _
    rw [if_neg hid, if_neg hid]
    refine Goes.head ?_ (goes_leave _ _ _)
    simp [go, during, release, goto]
  have hacquire : go (s.during id k lock (.counting i r)) id =
      some { s.during id (setCnt k r 1) lock (.counted i r) with refLock := some id } := by
    simp [go, during, acquireRef, goto, href]
  refine Goes.head hacquire (Goes.head ?_ hcount)
  simp [go, during, goto, href]

theorem goes_steal (hlock : ∀ i, s.lock i = none) (href : s.refLock = none) (k : Kmem) :
    ∀ is : List Cpu, Goes id (s.during id k (update s.lock id (some id)) (seek id is))
        (s.during id (fill (steal k id is).1 (steal k id is).2) s.lock .outside) := by
  have hback : update s.lock id none = s.lock := by
    rw [← hlock id, update_eq_self]
  intro is
  induction is with
  | nil =>
    have hleave : Goes id (s.during id k (update s.lock id (some id)) (.leaving none)) _ :=
      goes_leave k _ none
    rw [update_idem, hback] at hleave
    exact hleave
  | cons i is ih =>
    by_cases hid : i = id
    · rw [seek, if_pos hid, steal, if_pos hid]
      exact ih
    rw [seek, if_neg hid, steal, if_neg hid]
    have hfree : update s.lock id (some id) i = none := by
      rw [update_of_ne hid]
      exact hlock i
    have hundo : update
        (update (update s.lock id (some id)) i (some id)) i none =
        update s.lock id (some id) := by
      rw [update_idem, ← hfree, update_eq_self]
    cases hr : k.freelist i with
    | some r =>
      have htake : Goes id (s.during id (unlink k i r)
          (update (update s.lock id (some id)) i (some id))
          (.counting i r)) _ := goes_take href _ _ i r
      rw [if_neg hid, hundo, update_idem, hback] at htake
      refine Goes.head ?_ htake
      simp [go, during, acquire, look, goto, hfree, hr]
    | none =>
      have hempty : go (s.during id k (update s.lock id (some id))
          (.probing i is)) id = some (s.during id k
            (update (update s.lock id (some id)) i (some id))
            (.passing i is)) := by
        simp [go, during, acquire, look, goto, hfree, hr]
      refine Goes.head hempty (Goes.head ?_ ih)
      simp [go, during, release, goto, hundo]

/-- A `kalloc` that no other CPU disturbs does what the sequential `kalloc` does. -/
theorem kalloc_undisturbed (hlock : ∀ i, s.lock i = none) (href : s.refLock = none)
    (hout : s.phase id = .outside) :
    Goes id (s.goto id .entering) { s with kmem := (Kalloc.kalloc s.kmem id).1 } := by
  have hback : update s.lock id none = s.lock := by
    rw [← hlock id, update_eq_self]
  have hend (k : Kmem) : s.during id k s.lock .outside = { s with kmem := k } := by
    rw [during, ← hout, update_eq_self]
  rw [← hend]
  cases hr : s.kmem.freelist id with
  | some r =>
    have htake : Goes id (s.during id (unlink s.kmem id r)
        (update s.lock id (some id)) (.counting id r)) _ := goes_take href _ _ id r
    rw [if_pos rfl, update_idem, hback] at htake
    have hk : (Kalloc.kalloc s.kmem id).1 = fill (setCnt (unlink s.kmem id r) r 1) (some r) := by
      simp [Kalloc.kalloc, hr, fill, take, unlink]
    rw [hk]
    refine Goes.head ?_ htake
    simp [go, during, acquire, look, goto, hlock, hr]
  | none =>
    have hk : (Kalloc.kalloc s.kmem id).1 =
        fill (steal s.kmem id (List.finRange NCPU)).1 (steal s.kmem id (List.finRange NCPU)).2 := by
      simp only [Kalloc.kalloc, hr]
      cases steal s.kmem id (List.finRange NCPU) with
      | mk k r => cases r <;> rfl
    rw [hk]
    refine Goes.head ?_ (goes_steal hlock href s.kmem (List.finRange NCPU))
    simp [go, during, acquire, look, goto, hlock, hr]

end Undisturbed

/-! ## Deadlock -/

def Phase.probes : Phase → Option Cpu
  | .probing antid _ => some antid
  | _ => none

/-- Two CPUs wait in that loop at once only if both are at the list of CPU 0. -/
def Staggered (s : State) : Prop :=
  ∀ c d, c ≠ d → ∀ i ∈ (s.phase c).probes, ∀ j ∈ (s.phase d).probes, i = hart0 ∧ j = hart0

instance (s : State) : Decidable (Staggered s) := by
  dsimp only [Staggered]
  infer_instance

def listRank (i : Cpu) : Nat := if i = hart0 then 1 else 0

theorem probing_of_probes {ph : Phase} {i : Cpu} (h : ph.probes = some i) :
    ∃ rest, ph = .probing i rest := by
  cases ph with
  | probing antid rest => cases h; exact ⟨rest, rfl⟩
  | _ => cases h

theorem probes_of_wants {id : Cpu} {ph : Phase} {i k : Cpu} (hw : ph.wants id = some i)
    (hk : k ∈ ph.locks id) : ph.probes = some i := by
  cases ph with
  | probing antid rest => exact hw
  | entering | freeing pa => simp [locks] at hk
  | _ => cases hw

theorem Inv.ordered {s : State} (hi : Inv s) {c : Cpu}
    (hp : ∀ i ∈ (s.phase c).probes, i = hart0) : Locks.Ordered s.lock s.wants listRank c := by
  intro l hw k hk
  have hlocks := (hi.agrees k c).mp hk
  have hprobes := probes_of_wants hw hlocks
  obtain ⟨rest, hph⟩ := probing_of_probes hprobes
  have hforeign := hi.foreign c
  rw [hph] at hforeign hlocks
  have hl : l = hart0 := hp l hprobes
  have hkc : k = c := List.mem_singleton.mp hlocks
  have hkl : k ≠ hart0 := by
    rw [hkc, ← hl]
    exact Ne.symm hforeign
  rw [listRank, listRank, if_neg hkl, if_pos hl]
  exact Nat.one_pos

theorem Inv.not_deadlock {s : State} (hi : Inv s) (hs : Staggered s) (D : Set Cpu) :
    ¬ Locks.Deadlock s.lock s.wants D := by
  have hbound : ∀ i, listRank i ≤ 1 := by
    intro i
    unfold listRank
    split <;> omega
  refine Locks.not_deadlock_of_rank listRank 1 hbound ?_ D
  intro c
  by_cases hp : ∀ i ∈ (s.phase c).probes, i = hart0
  · exact .inl (hi.ordered hp)
  right
  push Not at hp
  obtain ⟨i, hic, hi0⟩ := hp
  intro d hd k hk
  by_contra hw
  obtain ⟨l, hl⟩ := ne_none_iff_exists'.mp hw
  have hprobes := probes_of_wants hl ((hi.agrees k d).mp hk)
  exact hi0 (hs c d (Ne.symm hd) i hic l hprobes).1

/-- The step leaves no two CPUs waiting in the loop, except at the list of CPU 0. -/
def Disciplined (L : Layout) (s : State) (op : Op) : Prop :=
  ∀ s' ∈ step L s op, Staggered s'

instance (L : Layout) (s : State) (op : Op) : Decidable (Disciplined L s op) :=
  inferInstanceAs (Decidable (∀ s' ∈ step L s op, Staggered s'))

/-- No run from free lists of any lengths in which at most one CPU at a time waits in
the loop over the other lists, those at the list of CPU 0 apart, reaches a deadlock. -/
theorem kmem_locks_free_of_deadlock (L : Layout) (k : Kmem) (ops : List Op) (s : State)
    (hgood : Along (step L) (Disciplined L) (idle k) ops)
    (hrun : run (step L) (idle k) ops = some s) (D : Set Cpu) :
    ¬ Locks.Deadlock s.lock s.wants D := by
  have hinv : Inv s ∧ Staggered s := by
    refine along_invariant (I := fun s => Inv s ∧ Staggered s) ?_ ops (idle k) s ?_ hgood hrun
    · intro t op t' ht hop hstep
      exact ⟨ht.1.step hstep, hop t' hstep⟩
    · refine ⟨inv_idle k, ?_⟩
      intro c d _ i hi
      cases hi
  exact hinv.1.not_deadlock hinv.2 D

def onePage : Kmem where
  cnt := fun _ => 0
  freelist := fun i => if i = 2 then some (PHYSTOP - PGSIZE) else none
  next := fun _ => none
  mem := fun _ _ => 0

def lowEnd : Layout := ⟨KERNBASE, Nat.le_refl _⟩

/-- CPU 0 takes the page of CPU 2. -/
theorem kalloc_undisturbed_steals : Goes 0 ((idle onePage).goto 0 .entering)
    { idle onePage with kmem := (Kalloc.kalloc onePage 0).1 } :=
  kalloc_undisturbed (fun _ => rfl) rfl rfl

theorem kmem_locks_free_of_deadlock_two : ∃ s, run (step lowEnd) (idle onePage)
    [.kalloc 1, .kalloc 3, .go 1, .go 3, .go 1] = some s ∧
    ∀ D, ¬ Locks.Deadlock s.lock s.wants D := by
  have hrun : (run (step lowEnd) (idle onePage)
      [.kalloc 1, .kalloc 3, .go 1, .go 3, .go 1]).isSome := by decide +kernel
  obtain ⟨s, hs⟩ := isSome_iff_exists.mp hrun
  exact ⟨s, hs, fun D => kmem_locks_free_of_deadlock lowEnd onePage _ s (by decide +kernel) hs D⟩

/-- CPU 0 and CPU 1 have empty lists: each holds its own lock and waits for the other's. -/
theorem kalloc_deadlocks : ∃ s, run (step lowEnd) (idle onePage)
    [.kalloc 0, .kalloc 1, .go 0, .go 1] = some s ∧ Locks.Deadlock s.lock s.wants {0, 1} := by
  obtain ⟨s, hs, h0, h1, w0, w1⟩ := run_test (step lowEnd) (idle onePage)
    [.kalloc 0, .kalloc 1, .go 0, .go 1]
    (fun s => s.lock 0 = some 0 ∧ s.lock 1 = some 1 ∧ s.wants 0 = some 1 ∧ s.wants 1 = some 0)
    (by decide +kernel)
  exact ⟨s, hs, Locks.deadlock_pair (by decide) h0 h1 w0 w1⟩

end BirdOS.KallocLocks
