import BirdOS.Lib.Outcome
import BirdOS.Mm.Vm

/-! # Page tables with the pages they take (`vm.c`, `proc.c`)

A page table is its root, the page-table pages of the two lower levels and the entries that map
pages.  The allocator hands out the pages of one list, whichever CPU it runs on.

`Takes m₀ m bs` says that `m` differs from `m₀` by the pages `bs`, which are taken. -/

namespace BirdOS.Image

open List Function Outcome
open Kalloc (Layout IsPage)
open Vm (Flags Pte MAXVA)

structure Mem where
  data : Nat → Nat → UInt8
  free : List Nat
  cnt : Nat → Int

inductive Panic where
  /-- "walk" -/
  | walk
  /-- "remap" -/
  | remap
  /-- "uvmunmap: not a leaf" -/
  | notLeaf
  /-- "uvmclear" -/
  | uvmclear
  /-- "kfree" -/
  | kfree
  /-- "kfree: found a null physical address" -/
  | nullPage
  /-- "loadseg: va must be page aligned" -/
  | notAligned
  /-- "loadseg: address should exist" -/
  | notMapped
  deriving DecidableEq

/-- A page-table page is known by its level and the number of the range under it. -/
structure Table where
  root : Nat
  nodes : List ((Nat × Nat) × Nat)
  pte : Nat → Option Pte

def Table.pages (t : Table) : List Nat := t.root :: t.nodes.map Prod.snd

def maxPage : Nat := MAXVA / PGSIZE

def trampolinePage : Nat := maxPage - 1

def trapframePage : Nat := maxPage - 2

def wxru : Flags := ⟨true, true, true, true, false⟩

def rx : Flags := ⟨true, false, true, false, false⟩

def rw : Flags := ⟨true, true, false, false, false⟩

def noFlags : Flags := ⟨false, false, false, false, false⟩

/-! ## The functions of `kalloc.c` and `vm.c` -/

def Mem.setPage (m : Mem) (pa : Nat) (content : Nat → UInt8) : Mem :=
  { m with data := update m.data pa content }

def kalloc (m : Mem) : Option (Nat × Mem) :=
  match m.free with
  | [] => none
  | r :: free => some (r, { m with free := free, cnt := update m.cnt r 1 }.setPage r fun _ => 5)

def kfree (L : Layout) (m : Mem) (pa : Nat) : Except Panic Mem :=
  if IsPage L pa then
    if m.cnt pa - 1 = 0 then
      .ok ({ m with free := pa :: m.free, cnt := update m.cnt pa 0 }.setPage pa fun _ => 1)
    else .ok { m with cnt := update m.cnt pa (m.cnt pa - 1) }
  else .error .kfree

def kfrees (L : Layout) (bs : List Nat) (m : Mem) : Except Panic Mem := bs.foldlM (kfree L) m

def descend (key : Nat × Nat) (t : Table) (m : Mem) : Bool × Table × Mem :=
  if (t.nodes.lookup key).isSome then (true, t, m)
  else
    match kalloc m with
    | none => (false, t, m)
    | some (new, m) =>
      (true, { t with nodes := (key, new) :: t.nodes }, m.setPage new fun _ => 0)

def walk (n : Nat) (t : Table) (m : Mem) : Except Panic (Bool × Table × Mem) :=
  if maxPage ≤ n then .error .walk
  else
    match descend (2, n / 2 ^ 18) t m with
    | (false, t, m) => .ok (false, t, m)
    | (true, t, m) => .ok (descend (1, n / 2 ^ 9) t m)

def mappages (n : Nat) (e : Pte) (t : Table) (m : Mem) : Except Panic (Bool × Table × Mem) := do
  let (found, t, m) ← walk n t m
  if found = false then return (false, t, m)
  else if (t.pte n).isSome then throw .remap
  else return (true, { t with pte := update t.pte n (some e) }, m)

def uvmunmap (L : Layout) (do_free : Bool) : Nat → Nat → Table → Mem → Except Panic (Table × Mem)
  | 0, _, t, m => .ok (t, m)
  | npages + 1, n, t, m =>
    if maxPage ≤ n then .error .walk
    else
      match t.pte n with
      | none => uvmunmap L do_free npages (n + 1) t m
      | some e =>
        if e.flags = noFlags then .error .notLeaf
        else do
          let m ← if do_free then kfree L m e.pa else .ok m
          uvmunmap L do_free npages (n + 1) { t with pte := update t.pte n none } m

def uvmdealloc (L : Layout) (oldsz newsz : Nat) (t : Table) (m : Mem) :
    Except Panic (Table × Mem) :=
  if oldsz ≤ newsz then .ok (t, m)
  else if pgroundup newsz < pgroundup oldsz then
    uvmunmap L true ((pgroundup oldsz - pgroundup newsz) / PGSIZE) (pgroundup newsz / PGSIZE) t m
  else .ok (t, m)

def allocLoop (L : Layout) (n : Nat) : Nat → Nat → Table → Mem → Except Panic (Bool × Table × Mem)
  | 0, _, t, m => .ok (true, t, m)
  | rest + 1, i, t, m =>
    match kalloc m with
    | none => do
      let (t, m) ← uvmdealloc L ((n + i) * PGSIZE) (n * PGSIZE) t m
      return (false, t, m)
    | some (mem, m) => do
      let (done, t, m) ← mappages (n + i) ⟨mem, wxru⟩ t (m.setPage mem fun _ => 0)
      if done then allocLoop L n rest (i + 1) t m
      else do
        let m ← kfree L m mem
        let (t, m) ← uvmdealloc L ((n + i) * PGSIZE) (n * PGSIZE) t m
        return (false, t, m)

/-- The loop stops at `MAXVA` with a panic, if not before. -/
def uvmalloc (L : Layout) (oldsz newsz : Nat) (t : Table) (m : Mem) :
    Except Panic (Nat × Table × Mem) :=
  if newsz < oldsz then .ok (oldsz, t, m)
  else do
    let (done, t, m) ← allocLoop L (pgroundup oldsz / PGSIZE)
      ((newsz - pgroundup oldsz + PGSIZE - 1) / PGSIZE) 0 t m
    return (if done then newsz else 0, t, m)

def freewalk (L : Layout) (t : Table) (m : Mem) : Except Panic Mem :=
  kfrees L (t.nodes.map Prod.snd ++ [t.root]) m

def uvmfree (L : Layout) (sz : Nat) (t : Table) (m : Mem) : Except Panic Mem := do
  let (t, m) ← if 0 < sz then uvmunmap L true (pgroundup sz / PGSIZE) 0 t m else .ok (t, m)
  freewalk L t m

def procPagetable (L : Layout) (trampoline trapframe : Nat) (m : Mem) :
    Except Panic (Option Table × Mem) :=
  match kalloc m with
  | none => .ok (none, m)
  | some (root, m) => do
    let (done, t, m) ← mappages trampolinePage ⟨trampoline, rx⟩
      ⟨root, [], fun _ => none⟩ (m.setPage root fun _ => 0)
    if done = false then do
      let m ← uvmfree L 0 t m
      return (none, m)
    else do
      let (done, t, m) ← mappages trapframePage ⟨trapframe, rw⟩ t m
      if done = false then do
        let (t, m) ← uvmunmap L false 1 trampolinePage t m
        let m ← uvmfree L 0 t m
        return (none, m)
      else return (some t, m)

def procFreepagetable (L : Layout) (sz : Nat) (t : Table) (m : Mem) : Except Panic Mem := do
  let (t, m) ← uvmunmap L false 1 trampolinePage t m
  let (t, m) ← uvmunmap L false 1 trapframePage t m
  uvmfree L sz t m

/-! ## Taken pages -/

structure Fair (L : Layout) (m : Mem) : Prop where
  once : m.free.Nodup
  page : ∀ b ∈ m.free, IsPage L b
  zero : ∀ b ∈ m.free, m.cnt b = 0

def noKernel : Layout := ⟨KERNBASE, Nat.le_refl _⟩

structure Takes (m₀ m : Mem) (bs : List Nat) : Prop where
  free : (m.free ++ bs).Perm m₀.free
  cnt : ∀ b, m.cnt b = if b ∈ bs then 1 else m₀.cnt b
  data : ∀ b, b ∉ m₀.free → m.data b = m₀.data b

section Takes
variable {L : Layout} {m₀ m m' : Mem} {bs bs' ps : List Nat} {b n : Nat} {t : Table} {e : Pte}

theorem Takes.refl (m : Mem) : Takes m m [] := by
  constructor <;> simp

section
variable (h : Takes m₀ m bs)
include h

theorem Takes.perm (hp : bs.Perm bs') : Takes m₀ m bs' := by
  refine ⟨(hp.symm.append_left m.free).trans h.free, fun b => ?_, h.data⟩
  rw [h.cnt b]
  simp only [hp.mem_iff]

theorem Takes.mem (hb : b ∈ bs) : b ∈ m₀.free :=
  h.free.mem_iff.mp (mem_append_right _ hb)

theorem Takes.setPage (hb : b ∈ bs) (content : Nat → UInt8) :
    Takes m₀ (m.setPage b content) bs := by
  refine ⟨h.free, h.cnt, fun b' hb' => ?_⟩
  have hne : b' ≠ b := fun he => hb' (he ▸ h.mem hb)
  rw [← h.data b' hb']
  exact update_of_ne hne _ _

theorem Takes.kalloc (hk : kalloc m = some (b, m')) : Takes m₀ m' (b :: bs) := by
  cases hfree : m.free with
  | nil => simp [Image.kalloc, hfree] at hk
  | cons r rest =>
    simp only [Image.kalloc, hfree, Option.some.injEq, Prod.mk.injEq] at hk
    obtain ⟨rfl, rfl⟩ := hk
    have hperm : (rest ++ r :: bs).Perm m₀.free := by
      refine Perm.trans ?_ h.free
      rw [hfree]
      exact perm_middle
    have htaken : Takes m₀ { m with free := rest, cnt := update m.cnt r 1 } (r :: bs) := by
      refine ⟨hperm, fun b => ?_, h.data⟩
      simp only [update_apply, h.cnt b, mem_cons]
      by_cases hb : b = r <;> simp [hb]
    exact htaken.setPage (mem_cons_self ..) _

end

theorem Takes.kfree (h : Takes m₀ m (b :: bs)) (h0 : Fair L m₀) :
    Ends (fun m' => Takes m₀ m' bs) (fun _ => False) (kfree L m b) := by
  have hmem : b ∈ m₀.free := h.mem (mem_cons_self ..)
  have hout : b ∉ bs := by
    have hnd := h.free.nodup_iff.mpr h0.once
    exact (nodup_cons.mp (nodup_append.mp hnd).2.1).1
  have hone : m.cnt b - 1 = 0 := by
    rw [h.cnt b]
    simp
  rw [Image.kfree, if_pos (h0.page b hmem), if_pos hone]
  refine ⟨?_, fun b' => ?_, fun b' hb' => ?_⟩
  · exact perm_middle.symm.trans h.free
  · simp only [Mem.setPage, update_apply, h.cnt b', mem_cons]
    by_cases hb : b' = b
    · simp [hb, hout, h0.zero b hmem]
    · simp [hb]
  · have hne : b' ≠ b := fun he => hb' (he ▸ hmem)
    rw [← h.data b' hb']
    exact update_of_ne hne _ _

theorem Takes.kfrees (h0 : Fair L m₀) (xs : List Nat) :
    ∀ m, Takes m₀ m (xs ++ bs) → Ends (fun m' => Takes m₀ m' bs) (fun _ => False)
      (kfrees L xs m) := by
  induction xs with
  | nil => exact fun m h => h
  | cons x xs ih =>
    intro m h
    rw [Image.kfrees, foldlM_cons]
    exact .bind (h.kfree h0) fun m' h' => ih m' h'

theorem kfree_spec {pa : Nat} (m : Mem) (hpa : IsPage L pa) :
    Ends (fun m' => ∀ b, b ≠ pa → m'.data b = m.data b) (fun _ => False) (Image.kfree L m pa) := by
  rw [Image.kfree, if_pos hpa]
  split
  · exact fun b hb => update_of_ne hb _ _
  · exact fun b _ => rfl

theorem kfrees_spec (bs : List Nat) : ∀ m : Mem, (∀ b ∈ bs, IsPage L b) →
    Ends (fun m' => ∀ b, b ∉ bs → m'.data b = m.data b) (fun _ => False) (Image.kfrees L bs m) := by
  induction bs with
  | nil => exact fun _ _ _ _ => rfl
  | cons x bs ih =>
    intro m hpage
    rw [Image.kfrees, foldlM_cons]
    refine .bind (kfree_spec m (hpage x (mem_cons_self ..))) fun m1 h1 =>
      (ih m1 fun b hb => hpage b (mem_cons_of_mem x hb)).mono (fun m2 h2 b hb => ?_) fun _ he => he
    rw [mem_cons, not_or] at hb
    rw [h2 b hb.2, h1 b hb.1]

theorem Takes.length (h : Takes m₀ m bs) : m.free.length + bs.length = m₀.free.length := by
  rw [← h.free.length_eq, length_append]

theorem Fair.length_lt (h : Fair L m) : m.free.length < trapframePage := by
  have hsub : m.free ⊆ (range (PHYSTOP / PGSIZE)).map (· * PGSIZE) := by
    intro b hb
    obtain ⟨halign, -, hlt⟩ := h.page b hb
    refine mem_map.mpr ⟨b / PGSIZE, mem_range.mpr ?_, ?_⟩
    · have hstop : PHYSTOP = PHYSTOP / PGSIZE * PGSIZE := by decide
      exact (Nat.div_lt_iff_lt_mul (by decide)).mpr (hstop ▸ hlt)
    · exact Nat.div_mul_cancel (Nat.dvd_of_mod_eq_zero halign)
  have hle := (h.once.subperm hsub).length_le
  rw [length_map, length_range] at hle
  exact lt_of_le_of_lt hle (by decide)

/-! ## Tables -/

theorem descend_spec (key : Nat × Nat) (h : Takes m₀ m (t.pages ++ ps)) :
    Takes m₀ (descend key t m).2.2 ((descend key t m).2.1.pages ++ ps) ∧
      (descend key t m).2.1.pte = t.pte := by
  rw [descend]
  split
  · exact ⟨h, rfl⟩
  cases hk : kalloc m with
  | none => exact ⟨h, rfl⟩
  | some r =>
    refine ⟨((h.kalloc hk).setPage (mem_cons_self ..) _).perm ?_, rfl⟩
    exact Perm.swap ..

theorem walk_spec (hn : n < maxPage) (h : Takes m₀ m (t.pages ++ ps)) :
    Ends (fun r => Takes m₀ r.2.2 (r.2.1.pages ++ ps) ∧ r.2.1.pte = t.pte) (fun _ => False)
      (walk n t m) := by
  rw [walk, if_neg (not_le.mpr hn)]
  obtain ⟨h1, hpte1⟩ := descend_spec (2, n / 2 ^ 18) h
  rcases hd : descend (2, n / 2 ^ 18) t m with ⟨_ | _, t1, m1⟩
  · rw [hd] at h1 hpte1
    exact ⟨h1, hpte1⟩
  rw [hd] at h1 hpte1
  obtain ⟨h2, hpte2⟩ := descend_spec (1, n / 2 ^ 9) h1
  exact ⟨h2, hpte2.trans hpte1⟩

theorem mappages_spec (hn : n < maxPage) (hnone : t.pte n = none) (h : Takes m₀ m (t.pages ++ ps)) :
    Ends (fun r => Takes m₀ r.2.2 (r.2.1.pages ++ ps) ∧
        r.2.1.pte = if r.1 then update t.pte n (some e) else t.pte) (fun _ => False)
      (mappages n e t m) := by
  refine .bind (walk_spec hn h) fun ⟨found, t1, m1⟩ ⟨h1, hpte⟩ => ?_
  cases found with
  | false => exact ⟨h1, hpte⟩
  | true =>
    have hfree : (t1.pte n).isSome = false := by
      rw [hpte, hnone]
      rfl
    simp only [hfree, Bool.true_eq_false, if_false, Bool.false_eq_true]
    exact ⟨h1, congrArg (update · n (some e)) hpte⟩

def leaves (pte : Nat → Option Pte) (n c : Nat) : List Nat :=
  (range' n c).filterMap fun k => (pte k).map Pte.pa

def clear (pte : Nat → Option Pte) (n c : Nat) : Nat → Option Pte :=
  fun k => if n ≤ k ∧ k < n + c then none else pte k

variable {pte : Nat → Option Pte}

theorem leaves_congr {pte' : Nat → Option Pte} {c : Nat}
    (h : ∀ k, n ≤ k → k < n + c → pte' k = pte k) : leaves pte' n c = leaves pte n c := by
  apply filterMap_congr
  intro k hk
  obtain ⟨i, hi, rfl⟩ := mem_range'.mp hk
  rw [h _ (by omega) (by omega)]

theorem clear_none {c : Nat} (h : ∀ k, n ≤ k → k < n + c → pte k = none) :
    clear pte n c = pte := by
  funext k
  rw [clear]
  split
  · next hk => exact (h k hk.1 hk.2).symm
  · rfl

theorem clear_succ (pte : Nat → Option Pte) (n c : Nat) :
    clear (update pte n none) (n + 1) c = clear pte n (c + 1) := by
  funext k
  simp only [clear, update_apply]
  grind

theorem uvmunmap_eq (c : Nat) : ∀ (n : Nat) (t : Table) (m : Mem), n + c ≤ maxPage →
    (∀ k e, n ≤ k → k < n + c → t.pte k = some e → e.flags ≠ noFlags) → uvmunmap L true c n t m =
      (fun m => ({ t with pte := clear t.pte n c }, m)) <$> kfrees L (leaves t.pte n c) m := by
  induction c with
  | zero =>
    intro n t m _ _
    rw [clear_none (by omega)]
    rfl
  | succ c ih =>
    intro n t m hn hflags
    have hstep : leaves t.pte n (c + 1) = ((t.pte n).map Pte.pa).toList ++ leaves t.pte
      (n + 1) c := by
      rw [leaves, range'_succ]
      cases hp : t.pte n <;> simp [leaves, hp]
    rw [uvmunmap, if_neg (by omega), hstep]
    cases hp : t.pte n with
    | none =>
      simp only
      rw [ih (n + 1) t m (by omega) fun k e hk hk' => hflags k e (by omega) (by omega),
        ← clear_succ,
        ← hp, update_eq_self]
      simp [hp]
    | some e =>
      have hrest : ∀ k, n + 1 ≤ k → k < n + 1 + c → update t.pte n none k = t.pte k :=
        fun k hk _ => update_of_ne (by omega) _ _
      simp only [if_neg (hflags n e le_rfl (by omega) hp), if_true]
      simp only [Option.map_some, Option.toList_some, singleton_append, kfrees, foldlM_cons]
      rw [map_bind]
      congr 1
      funext m'
      rw [ih (n + 1) _ m' (by omega), leaves_congr hrest, clear_succ]
      · rfl
      · intro k e' hk hk' he'
        exact hflags k e' (by omega) (by omega) ((hrest k hk hk').symm.trans he')

theorem uvmunmap_top (hn : n < maxPage) (he : ∀ e, t.pte n = some e → e.flags ≠ noFlags) :
    uvmunmap L false 1 n t m = .ok ({ t with pte := update t.pte n none }, m) := by
  rw [uvmunmap, if_neg (not_le.mpr hn)]
  cases hp : t.pte n with
  | none =>
    have hsame : update t.pte n none = t.pte := by rw [← hp, update_eq_self]
    rw [hsame]
    rfl
  | some e =>
    simp only [if_neg (he e hp)]
    rfl

theorem freewalk_spec (h0 : Fair L m₀) (h : Takes m₀ m (t.pages ++ ps)) :
    Ends (fun m' => Takes m₀ m' ps) (fun _ => False) (freewalk L t m) := by
  refine Takes.kfrees h0 _ m (h.perm ?_)
  rw [Table.pages]
  exact (perm_append_singleton _ _).symm.append_right ps

/-! ## `uvmalloc` -/

def fill (pte : Nat → Option Pte) (n : Nat) (rs : List Nat) : Nat → Option Pte :=
  fun k => if n ≤ k ∧ k < n + rs.length then rs[k - n]?.map fun r => ⟨r, wxru⟩ else pte k

theorem fill_snoc (pte : Nat → Option Pte) (n r : Nat) (rs : List Nat) :
    fill pte n (rs ++ [r]) = update (fill pte n rs) (n + rs.length) (some ⟨r, wxru⟩) := by
  funext k
  simp only [fill, update_apply, length_append, length_singleton]
  by_cases hk : k = n + rs.length
  · simp [hk]
  rw [if_neg hk]
  by_cases hin : n ≤ k ∧ k < n + rs.length
  · rw [if_pos hin, if_pos ⟨hin.1, by omega⟩, getElem?_append_left (by omega)]
  · rw [if_neg hin, if_neg (by omega)]

theorem leaves_snoc (pte : Nat → Option Pte) (n c : Nat) :
    leaves pte n (c + 1) = leaves pte n c ++ ((pte (n + c)).map Pte.pa).toList := by
  rw [leaves, range'_1_concat, filterMap_append]
  cases hp : pte (n + c) <;> simp [leaves, hp]

theorem leaves_fill (pte : Nat → Option Pte) (n : Nat) (rs : List Nat) :
    leaves (fill pte n rs) n rs.length = rs := by
  induction rs using reverseRecOn with
  | nil => rfl
  | append_singleton rs r ih =>
    have hlow : leaves (update (fill pte n rs) (n + rs.length) (some ⟨r, wxru⟩)) n rs.length =
        leaves (fill pte n rs) n rs.length :=
      leaves_congr fun k _ hk => update_of_ne (Nat.ne_of_lt hk) _ _
    rw [length_append, length_singleton, leaves_snoc, fill_snoc, update_self, hlow, ih]
    rfl

variable {k : Nat}

theorem fill_flags {rs : List Nat}
    (hk : n ≤ k ∧ k < n + rs.length) (h : fill pte n rs k = some e) : e.flags = wxru := by
  rw [fill, if_pos hk] at h
  obtain ⟨r, -, rfl⟩ := Option.map_eq_some_iff.mp h
  rfl

theorem fill_append (pte : Nat → Option Pte) (ps rs : List Nat) :
    fill (fill pte 0 ps) ps.length rs = fill pte 0 (ps ++ rs) := by
  induction rs using reverseRecOn with
  | nil =>
    funext k
    rw [append_nil, fill, if_neg (by simp)]
  | append_singleton rs r ih =>
    rw [fill_snoc, ih, ← append_assoc, fill_snoc, length_append, zero_add]

theorem pgroundup_mul (k : Nat) : pgroundup (k * PGSIZE) = k * PGSIZE := by
  simp only [pgroundup, PGSIZE]
  omega

theorem uvmdealloc_pages (L : Layout) (n i : Nat) (t : Table) (m : Mem) :
    uvmdealloc L ((n + i) * PGSIZE) (n * PGSIZE) t m = uvmunmap L true i n t m := by
  rw [uvmdealloc, pgroundup_mul, pgroundup_mul]
  obtain rfl | hi := eq_or_ne i 0
  · rw [add_zero, if_pos le_rfl, uvmunmap]
  have hlt : n * PGSIZE < (n + i) * PGSIZE := Nat.mul_lt_mul_of_pos_right (by omega) (by decide)
  rw [if_neg (not_le.mpr hlt), if_pos hlt, ← Nat.sub_mul, Nat.add_sub_cancel_left,
    Nat.mul_div_cancel _ (by decide), Nat.mul_div_cancel _ (by decide)]

theorem rollback_spec (h0 : Fair L m₀) {rs : List Nat} (hpte : t.pte = fill pte n rs)
    (hroom : ∀ k, n ≤ k → k < n + rs.length → k < maxPage ∧ pte k = none)
    (h : Takes m₀ m (t.pages ++ (rs ++ ps))) (hn : n + rs.length ≤ maxPage) :
    Ends (fun r => r.1.pte = pte ∧ Takes m₀ r.2 (r.1.pages ++ ps)) (fun _ => False)
      (uvmdealloc L ((n + rs.length) * PGSIZE) (n * PGSIZE) t m) := by
  have hflags : ∀ k e, n ≤ k → k < n + rs.length → t.pte k = some e → e.flags ≠ noFlags := by
    intro k e hk hk' he
    rw [hpte] at he
    rw [fill_flags ⟨hk, hk'⟩ he]
    decide
  have hclear : clear t.pte n rs.length = pte := by
    funext k
    rw [hpte, clear]
    split
    · next hk => exact (hroom k hk.1 hk.2).2.symm
    · next hk => rw [fill, if_neg hk]
  rw [uvmdealloc_pages, uvmunmap_eq _ n t m hn hflags, hclear, hpte, leaves_fill]
  refine Ends.map ?_
  have hperm : (t.pages ++ (rs ++ ps)).Perm (rs ++ (t.pages ++ ps)) := by
    rw [← append_assoc, ← append_assoc]
    exact perm_append_comm.append_right ps
  exact (Takes.kfrees h0 rs m (h.perm hperm)).mono (fun _ h' => ⟨rfl, h'⟩) fun _ he => he

theorem allocLoop_spec (h0 : Fair L m₀) (hstart : n ≤ maxPage)
    (hroom : ∀ k, n ≤ k → k < n + (m₀.free.length - ps.length) → k < maxPage ∧ pte k = none)
    (rest : Nat) : ∀ (rs : List Nat) (t : Table) (m : Mem), t.pte = fill pte n rs →
      Takes m₀ m (t.pages ++ (rs ++ ps)) → Ends (fun r =>
        (r.1 = false → r.2.1.pte = pte ∧ Takes m₀ r.2.2 (r.2.1.pages ++ ps)) ∧
        (r.1 = true → ∃ rs', rs'.length = rs.length + rest ∧ r.2.1.pte = fill pte n rs' ∧
          Takes m₀ r.2.2 (r.2.1.pages ++ (rs' ++ ps)))) (fun _ => False)
        (allocLoop L n rest rs.length t m) := by
  induction rest with
  | zero => exact fun rs t m hpte h => ⟨nofun, fun _ => ⟨rs, rfl, hpte, h⟩⟩
  | succ rest ih =>
    intro rs t m hpte h
    have hlen := h.length
    simp only [length_append] at hlen
    have hback : ∀ (t : Table) (m : Mem), t.pte = fill pte n rs →
        Takes m₀ m (t.pages ++ (rs ++ ps)) →
        Ends (fun r => r.1.pte = pte ∧ Takes m₀ r.2 (r.1.pages ++ ps)) (fun _ => False)
          (uvmdealloc L ((n + rs.length) * PGSIZE) (n * PGSIZE) t m) := by
      intro t m hpte h
      refine rollback_spec h0 hpte (fun k hk hk' => hroom k hk (by omega)) h ?_
      by_cases hnil : rs.length = 0
      · omega
      · have hlast := (hroom (n + rs.length - 1) (by omega) (by omega)).1
        omega
    rw [allocLoop]
    cases hk : kalloc m with
    | none =>
      exact .bind (hback t m hpte h) fun r hr => ⟨fun _ => hr, nofun⟩
    | some r =>
      obtain ⟨b, m1⟩ := r
      have hmid : ∀ t' : Table, (t'.pages ++ (b :: (rs ++ ps))).Perm
        (b :: (t'.pages ++ (rs ++ ps))) :=
        fun _ => perm_middle
      have h1 := (h.kalloc hk).setPage (mem_cons_self ..) fun _ => 0
      have hlen1 := h1.length
      simp only [length_append, length_cons] at hlen1
      obtain ⟨hmax, hnone⟩ := hroom (n + rs.length) (by omega) (by omega)
      have hhere : t.pte (n + rs.length) = none := by
        rw [hpte, fill, if_neg (by omega)]
        exact hnone
      refine .bind (mappages_spec hmax hhere (h1.perm (hmid t).symm)) fun ⟨done, t2, m2⟩ hr => ?_
      obtain ⟨h2, hpte2⟩ := hr
      cases done with
      | true =>
        have hsnoc : t2.pte = fill pte n (rs ++ [b]) := by
          rw [fill_snoc, ← hpte]
          exact hpte2
        have hlast : (t2.pages ++ (b :: (rs ++ ps))).Perm (t2.pages ++ (rs ++ [b] ++ ps)) := by
          rw [append_assoc]
          exact perm_middle.symm.append_left _
        have hnext := ih (rs ++ [b]) t2 m2 hsnoc (h2.perm hlast)
        rw [length_append, length_singleton] at hnext
        refine hnext.mono (fun r hr => ⟨hr.1, fun hd => ?_⟩) fun _ he => he
        obtain ⟨rs', hlen', hrest⟩ := hr.2 hd
        exact ⟨rs', by omega, hrest⟩
      | false =>
        have hsame : t2.pte = fill pte n rs := by
          rw [← hpte]
          exact hpte2
        refine .bind ((h2.perm (hmid t2)).kfree h0) fun m3 h3 => ?_
        exact .bind (hback t2 m3 hsame h3) fun r hr => ⟨fun _ => hr, nofun⟩

structure Grown (top : Nat → Option Pte) (m₀ : Mem) (sz : Nat) (t : Table) (m : Mem)
    (ps : List Nat) : Prop where
  pte : t.pte = fill top 0 ps
  length : ps.length = pgroundup sz / PGSIZE
  takes : Takes m₀ m (t.pages ++ ps)

variable {sz : Nat}

theorem Grown.length_lt {top : Nat → Option Pte} (h : Grown top m₀ sz t m ps)
    (h0 : Fair L m₀) : ps.length < trapframePage := by
  have hlen := h.takes.length
  have hmax := h0.length_lt
  rw [length_append] at hlen
  omega

theorem Grown.uvmalloc {top : Nat → Option Pte} (h : Grown top m₀ sz t m ps)
    (h0 : Fair L m₀) (htop : ∀ k, k < trapframePage → top k = none) (newsz : Nat) :
    Ends (fun r => (r.1 = 0 → Grown top m₀ sz r.2.1 r.2.2 ps) ∧
        (r.1 ≠ 0 → r.1 = max sz newsz ∧ ∃ ps', Grown top m₀ r.1 r.2.1 r.2.2 ps'))
      (fun _ => False) (uvmalloc L sz newsz t m) := by
  have hstart := h.length
  have hmem := h0.length_lt
  have hbelow : trapframePage < maxPage := by decide
  have hlow : ps.length ≤ maxPage := by
    have := h.length_lt h0
    omega
  rw [Image.uvmalloc]
  split
  · next hlt => exact ⟨fun _ => h, fun _ => ⟨(max_eq_left (le_of_lt hlt)).symm, ps, h⟩⟩
  · next hge =>
    rw [← hstart]
    have hroom : ∀ k, ps.length ≤ k → k < ps.length + (m₀.free.length - ps.length) →
        k < maxPage ∧ t.pte k = none := by
      intro k hk hk'
      refine ⟨by omega, ?_⟩
      rw [h.pte, fill, if_neg (by omega)]
      exact htop k (by omega)
    have hnil : t.pte = fill t.pte ps.length [] := by
      funext k
      rw [fill, if_neg (by simp)]
    refine .bind (allocLoop_spec h0 hlow hroom _ [] t m hnil h.takes) fun ⟨done, t', m'⟩ hr => ?_
    cases done with
    | false =>
      obtain ⟨hpte, htakes⟩ := hr.1 rfl
      exact ⟨fun _ => ⟨hpte.trans h.pte, hstart, htakes⟩, fun hne => absurd rfl hne⟩
    | true =>
      obtain ⟨rs, hlen, hpte, htakes⟩ := hr.2 rfl
      rw [h.pte, fill_append] at hpte
      have hcount : (ps ++ rs).length = pgroundup newsz / PGSIZE := by
        simp only [length_append, hlen, length_nil, pgroundup, PGSIZE] at hstart ⊢
        omega
      have hgrown : Grown top m₀ newsz t' m' (ps ++ rs) :=
        ⟨hpte, hcount, htakes.perm (perm_append_comm.append_left _)⟩
      refine ⟨fun hz => ?_, fun _ => ⟨(max_eq_right (not_lt.mp hge)).symm, _, hgrown⟩⟩
      have hzero : newsz = 0 := hz
      have hnew : newsz = sz := by omega
      rw [hnew] at hcount hgrown
      have hrs : rs = [] := by
        rw [length_append] at hcount
        exact eq_nil_of_length_eq_zero (by omega)
      rw [hrs, append_nil] at hgrown
      exact hgrown

/-! ## Making and freeing a table -/

def tops (trampoline trapframe : Nat) : Nat → Option Pte :=
  update (update (fun _ => none) trampolinePage
    (some ⟨trampoline, rx⟩)) trapframePage
    (some ⟨trapframe, rw⟩)

theorem tops_below {trampoline trapframe : Nat} (hk : k < trapframePage) :
    tops trampoline trapframe k = none := by
  have hne : k ≠ trampolinePage := by
    have hle : trapframePage ≤ trampolinePage := by decide
    omega
  rw [tops, update_of_ne (Nat.ne_of_lt hk), update_of_ne hne]

theorem tops_flags {trampoline trapframe : Nat} (h : tops trampoline trapframe k = some e) :
    e.flags ≠ noFlags := by
  simp only [tops, update_apply] at h
  split at h
  · cases h
    show rw ≠ noFlags
    decide
  split at h
  · cases h
    show rx ≠ noFlags
    decide
  · cases h

theorem uvmfree_empty (h0 : Fair L m₀) (h : Takes m₀ m (t.pages ++ ps)) :
    Ends (fun m' => Takes m₀ m' ps) (fun _ => False) (uvmfree L 0 t m) :=
  freewalk_spec h0 h

theorem procPagetable_spec (h0 : Fair L m₀) (h : Takes m₀ m ps) (trampoline trapframe : Nat) :
    Ends (fun r => (r.1 = none → Takes m₀ r.2 ps) ∧ ∀ t, r.1 = some t →
        t.pte = tops trampoline trapframe ∧ Takes m₀ r.2 (t.pages ++ ps)) (fun _ => False)
      (procPagetable L trampoline trapframe m) := by
  have hfirst : trampolinePage < maxPage := by decide
  have hsecond : trapframePage < maxPage := by decide
  rw [procPagetable]
  cases hk : kalloc m with
  | none => exact ⟨fun _ => h, nofun⟩
  | some r =>
    obtain ⟨root, m1⟩ := r
    have h1 : Takes m₀ (m1.setPage root fun _ => 0)
        ((⟨root, [], fun _ => none⟩ : Table).pages ++ ps) :=
      (h.kalloc hk).setPage (mem_cons_self ..) _
    refine .bind (mappages_spec hfirst rfl h1) fun ⟨done, t, m2⟩ hr => ?_
    obtain ⟨h2, hpte⟩ := hr
    cases done with
    | false => exact .bind (uvmfree_empty h0 h2) fun m3 h3 => ⟨fun _ => h3, nofun⟩
    | true =>
      have hpte' : t.pte = update (fun _ => none) trampolinePage
          (some ⟨trampoline, rx⟩) := hpte
      have hnone : t.pte trapframePage = none := by
        rw [hpte']
        exact update_of_ne (by decide) _ _
      refine .bind (mappages_spec hsecond hnone h2) fun ⟨done, t', m3⟩ hr => ?_
      obtain ⟨h3, hpte3⟩ := hr
      cases done with
      | false =>
        have hflags : ∀ e, t'.pte trampolinePage = some e → e.flags ≠ noFlags := by
          intro e he
          have hsame : t'.pte = t.pte := hpte3
          rw [hsame, hpte', update_self] at he
          cases he
          show rx ≠ noFlags
          decide
        have hpages : Takes m₀ m3
            (({ t' with pte := update t'.pte trampolinePage none } : Table).pages ++ ps) := h3
        simp only [uvmunmap_top hfirst hflags]
        rw [ok_bind]
        exact .bind (uvmfree_empty h0 hpages) fun m4 h4 => ⟨fun _ => h4, nofun⟩
      | true =>
        refine ⟨nofun, fun t'' ht => ?_⟩
        cases ht
        refine ⟨?_, h3⟩
        rw [tops, ← hpte']
        exact hpte3

theorem procFreepagetable_eq (hflags : ∀ k e, t.pte k = some e → e.flags ≠ noFlags)
    (hsz : pgroundup sz / PGSIZE ≤ trapframePage) : procFreepagetable L sz t m =
      kfrees L (leaves t.pte 0 (pgroundup sz / PGSIZE)) m >>= freewalk L t := by
  have hmax : trapframePage ≤ maxPage := by decide
  have hlt : trapframePage < trampolinePage := by decide
  let pte' := update (update t.pte trampolinePage none) trapframePage none
  have hkeep : ∀ k e, pte' k = some e → t.pte k = some e := by
    intro k e he
    simp only [pte', update_apply] at he
    grind
  have hlow : leaves pte' 0 (pgroundup sz / PGSIZE) = leaves t.pte 0 (pgroundup sz / PGSIZE) := by
    refine leaves_congr fun k _ hk => ?_
    simp only [pte', update_apply]
    grind
  have hsecond : ∀ e, update t.pte trampolinePage none trapframePage = some e →
      e.flags ≠ noFlags := by
    intro e he
    rw [update_of_ne (Nat.ne_of_lt hlt)] at he
    exact hflags _ e he
  rw [procFreepagetable, uvmunmap_top (by decide) (hflags _), ok_bind]
  simp only
  rw [uvmunmap_top (t := { t with pte := update t.pte trampolinePage none }) (by decide) hsecond,
    ok_bind, uvmfree]
  by_cases hpos : 0 < sz
  · simp only [if_pos hpos]
    rw [uvmunmap_eq _ 0 _ m (by omega) fun k e _ _ he => hflags k e (hkeep k e he), hlow,
      bind_map_left]
    rfl
  have hz : pgroundup sz / PGSIZE = 0 := by
    simp only [pgroundup, PGSIZE]
    omega
  rw [if_neg hpos, hz]
  rfl

theorem procFreepagetable_spec (h0 : Fair L m₀)
    (hflags : ∀ k e, t.pte k = some e → e.flags ≠ noFlags)
    (hsz : pgroundup sz / PGSIZE ≤ trapframePage)
    (h : Takes m₀ m (t.pages ++ (leaves t.pte 0 (pgroundup sz / PGSIZE) ++ ps))) :
    Ends (fun m' => Takes m₀ m' ps) (fun _ => False) (procFreepagetable L sz t m) := by
  have hperm : (t.pages ++ (leaves t.pte 0 (pgroundup sz / PGSIZE) ++ ps)).Perm
      (leaves t.pte 0 (pgroundup sz / PGSIZE) ++ (t.pages ++ ps)) := by
    rw [← append_assoc, ← append_assoc]
    exact perm_append_comm.append_right ps
  rw [procFreepagetable_eq hflags hsz]
  exact .bind (Takes.kfrees h0 _ m (h.perm hperm)) fun m' h' => freewalk_spec h0 h'

end Takes

end BirdOS.Image
