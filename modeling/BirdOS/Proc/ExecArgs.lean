import BirdOS.Proc.Exec

/-! # The arguments of a new program

`exec` puts the strings one below the other at the top of the stack page, each at a multiple of
16, and under them the array of their addresses. -/

namespace BirdOS.Exec

open Image Outcome Function List
open Kalloc (Layout IsPage)
open Vm (Flags Pte MAXVA)

def round16 (n : Nat) : Nat := (n + 15) / 16 * 16

def stringsSize (argv : List (List UInt8)) : Nat := (argv.map fun x => round16 (x.length + 1)).sum

def blockSize (argv : List (List UInt8)) : Nat :=
  stringsSize argv + round16 ((argv.length + 1) * 8)

def slots (sp : Nat) : List (List UInt8) → List Nat
  | [] => []
  | x :: rest => (sp - round16 (x.length + 1)) :: slots (sp - round16 (x.length + 1)) rest

def byteAt (t : Table) (m : Mem) (va : Nat) : Option UInt8 :=
  (walkaddr t va).map fun pa => m.data pa (va % PGSIZE)

def Reads (t : Table) (m : Mem) (va : Nat) (xs : List UInt8) : Prop :=
  ∀ k (hk : k < xs.length), byteAt t m (va + k) = some xs[k]

/-- The strings at `addrs`, and these addresses and a null pointer at `sp`. -/
structure ArgumentBlock {α : Type} (p : Proc α) (m : Mem) (argv : List (List UInt8))
    (addrs : List Nat) : Prop where
  strings : List.Forall₂ (fun a x => Reads p.pagetable m a (x ++ [0])) addrs argv
  array : Reads p.pagetable m p.sp ((addrs ++ [0]).flatMap (leBytes 8))
  a1 : p.a1 = p.sp
  aligned : p.sp % 16 = 0 ∧ ∀ a ∈ addrs, a % 16 = 0
  base : p.sz - PGSIZE ≤ p.sp
  inside : ∀ y ∈ addrs.zip argv, p.sp + (argv.length + 1) * 8 ≤ y.1 ∧ y.1 + y.2.length + 1 ≤ p.sz
  above : p.sp + (argv.length + 1) * 8 ≤ p.sz
  disjoint : (addrs.zip argv).Pairwise fun y z => z.1 + z.2.length + 1 ≤ y.1

structure Caller {α : Type} (L : Layout) (m : Mem) (p : Proc α) (s : Sys) : Prop where
  image : Releasable L p s
  apart : ∀ b ∈ m.free, Foreign p s b

section Layout
variable {sp n : Nat} {x : List UInt8} {argv : List (List UInt8)}

theorem lower_eq (hsp : sp % 16 = 0) (hlt : sp < 2 ^ 64) (hn : n ≤ sp) :
    lower sp n = sp - round16 n := by
  rw [lower, round16]
  omega

theorem lower_wraps (hn : sp < n) (hsmall : n < 2 ^ 63) : 2 ^ 63 - 16 ≤ lower sp n := by
  rw [lower]
  omega

theorem le_round16 (n : Nat) : n ≤ round16 n := by
  rw [round16]
  omega

theorem round16_mod (n : Nat) : round16 n % 16 = 0 := Nat.mul_mod_left _ _

theorem stringsSize_cons (x : List UInt8) (rest : List (List UInt8)) :
    stringsSize (x :: rest) = round16 (x.length + 1) + stringsSize rest := by
  simp [stringsSize]

theorem stringsSize_mod (argv : List (List UInt8)) : stringsSize argv % 16 = 0 := by
  induction argv with
  | nil => rfl
  | cons x rest ih =>
    have := round16_mod (x.length + 1)
    rw [stringsSize_cons]
    omega

theorem length_slots (sp : Nat) (argv : List (List UInt8)) :
    (slots sp argv).length = argv.length := by
  induction argv generalizing sp with
  | nil => rfl
  | cons x rest ih => rw [slots, length_cons, ih, length_cons]

theorem slots_spec (hfit : stringsSize argv ≤ sp) (hsp : sp % 16 = 0) :
    (∀ a ∈ slots sp argv, a % 16 = 0) ∧
    (∀ y ∈ (slots sp argv).zip argv, sp - stringsSize argv ≤ y.1 ∧ y.1 + y.2.length + 1 ≤ sp) ∧
    ((slots sp argv).zip argv).Pairwise fun y z => z.1 + z.2.length + 1 ≤ y.1 := by
  induction argv generalizing sp with
  | nil => exact ⟨nofun, nofun, List.Pairwise.nil⟩
  | cons x rest ih =>
    have hround := round16_mod (x.length + 1)
    have hle := le_round16 (x.length + 1)
    rw [stringsSize_cons] at hfit ⊢
    obtain ⟨hmod, hin, hpair⟩ := @ih (sp - round16 (x.length + 1)) (by omega) (by omega)
    simp only [slots, zip_cons_cons, forall_mem_cons, pairwise_cons]
    refine ⟨⟨by omega, hmod⟩, ⟨by omega, fun y hy => ?_⟩, fun y hy => (hin y hy).2, hpair⟩
    have := hin y hy
    omega

end Layout

section Push
variable {m₀ m : Mem} {t : Table} {sz pa : Nat}

theorem Stacked.walkaddr (h : Stacked m₀ sz t m pa) (va : Nat) (hlow : sz - PGSIZE ≤ va)
    (hhigh : va < sz) : walkaddr t va = some pa := by
  have haligned := h.aligned
  have hroom := h.room
  have hpage : va / PGSIZE = sz / PGSIZE - 1 := by
    simp only [PGSIZE] at haligned hroom hlow ⊢
    omega
  rw [Exec.walkaddr, if_neg (not_le.mpr (Nat.lt_trans hhigh h.below)), hpage, h.stack]
  rfl

theorem Stacked.copyout (h : Stacked m₀ sz t m pa) (va : Nat) (xs : List UInt8) (m1 : Mem)
    (hne : xs ≠ []) (hlow : sz - PGSIZE ≤ va) (hhigh : va + xs.length ≤ sz) :
    copyout t xs.length va xs m1 =
      (true, m1.setPage pa (ByteMem.put (m1.data pa) (va - (sz - PGSIZE)) xs)) := by
  have haligned := h.aligned
  have hroom := h.room
  cases xs with
  | nil => exact absurd rfl hne
  | cons b xs =>
    have hdown : pgrounddown va = sz - PGSIZE := by
      simp only [length_cons, pgrounddown, PGSIZE] at haligned hroom hlow hhigh ⊢
      omega
    have hn : min (PGSIZE - (va - (sz - PGSIZE))) (b :: xs).length = (b :: xs).length := by
      simp only [PGSIZE] at hroom hlow ⊢
      omega
    have hwalk := h.walkaddr _ (Nat.le_refl (sz - PGSIZE)) (by simp only [PGSIZE] at hroom ⊢; omega)
    have hnil : ∀ fuel va m, Exec.copyout t fuel va [] m = (true, m) := fun fuel _ _ => by
      cases fuel <;> rfl
    simp only [length_cons, Exec.copyout, hdown, hwalk]
    rw [← length_cons (a := b), hn, drop_length, take_length, hnil]

theorem copyout_high (fuel va : Nat) (xs : List UInt8) (hne : xs ≠ []) (hva : MAXVA + PGSIZE ≤ va) :
    (copyout t fuel va xs m).1 = false := by
  cases xs with
  | nil => exact absurd rfl hne
  | cons b xs =>
    cases fuel with
    | zero => rfl
    | succ fuel =>
      have hnone : walkaddr t (pgrounddown va) = none := by
        rw [walkaddr, if_pos]
        simp only [pgrounddown, MAXVA, PGSIZE] at hva ⊢
        omega
      rw [copyout, hnone]

def Holds (page : Nat → UInt8) (off : Nat) (xs : List UInt8) : Prop :=
  ∀ k (hk : k < xs.length), page (off + k) = xs[k]

theorem holds_put (page : Nat → UInt8) (off : Nat) (xs : List UInt8) :
    Holds (ByteMem.put page off xs) off xs := by
  intro k hk
  rw [ByteMem.put, if_pos ⟨by omega, by omega⟩, Nat.add_sub_cancel_left,
    getD_eq_getElem?_getD, getElem?_eq_getElem hk]
  rfl

theorem Stacked.pushStrings (h : Stacked m₀ sz t m pa) (argv : List (List UInt8)) :
    ∀ (sp : Nat) (ustack : List Nat) (m1 : Mem), (∀ x ∈ argv, x.length < 2 ^ 31) → sp % 16 = 0 →
      sz - PGSIZE ≤ sp → sp ≤ sz → ustack.length ≤ MAXARG →
      if ustack.length + argv.length ≤ MAXARG ∧ sz - PGSIZE + stringsSize argv ≤ sp then
        ∃ page, pushStrings t (sz - PGSIZE) argv sp ustack m1 =
            (some (sp - stringsSize argv, ustack ++ slots sp argv), m1.setPage pa page) ∧
          List.Forall₂ (fun a x => Holds page (a - (sz - PGSIZE)) (x ++ [0])) (slots sp argv) argv ∧
          ∀ o, sp - (sz - PGSIZE) ≤ o → page o = m1.data pa o
      else (pushStrings t (sz - PGSIZE) argv sp ustack m1).1 = none := by
  have hroom := h.room
  have hbelow := h.below
  simp only [PGSIZE, MAXVA] at hroom hbelow
  have hbase : 0 < sz - PGSIZE := by
    simp only [PGSIZE]
    omega
  induction argv with
  | nil =>
    intro sp ustack m1 _ _ hlow _ hfew
    have hin : ustack.length + ([] : List (List UInt8)).length ≤ MAXARG ∧
        sz - PGSIZE + stringsSize [] ≤ sp := by
      simpa [stringsSize] using And.intro hfew hlow
    rw [if_pos hin]
    refine ⟨m1.data pa, ?_, List.Forall₂.nil, fun _ _ => rfl⟩
    have hsame : m1.setPage pa (m1.data pa) = m1 := by rw [Mem.setPage, update_eq_self]
    rw [Exec.pushStrings, slots, append_nil, hsame]
    rfl
  | cons x rest ih =>
    intro sp ustack m1 hx hmod hlow hhigh hfew
    have hlen := hx x (mem_cons_self ..)
    have hround := round16_mod (x.length + 1)
    have hle := le_round16 (x.length + 1)
    rw [stringsSize_cons, length_cons]
    by_cases hmany : MAXARG ≤ ustack.length
    · rw [if_neg (by omega), Exec.pushStrings, if_pos (Or.inl hmany)]
    by_cases hfit : sz - PGSIZE + round16 (x.length + 1) ≤ sp
    · obtain ⟨sp', hsp'⟩ : ∃ sp', sp' = sp - round16 (x.length + 1) := ⟨_, rfl⟩
      have hlower : lower sp (x.length + 1) = sp' := by
        rw [lower_eq hmod (by omega) (by omega), hsp']
      have hout := h.copyout sp' (x ++ [0]) m1 (by simp) (by omega) (by simp; omega)
      rw [length_append, length_singleton] at hout
      obtain ⟨m2, hm2⟩ : ∃ m2, m2 = m1.setPage pa
          (ByteMem.put (m1.data pa) (sp' - (sz - PGSIZE)) (x ++ [0])) := ⟨_, rfl⟩
      have hpage : m2.data pa = ByteMem.put (m1.data pa) (sp' - (sz - PGSIZE)) (x ++ [0]) := by
        rw [hm2]
        exact update_self ..
      have hstep : Exec.pushStrings t (sz - PGSIZE) (x :: rest) sp ustack m1 =
          Exec.pushStrings t (sz - PGSIZE) rest sp' (ustack ++ [sp']) m2 := by
        rw [Exec.pushStrings, hlower, if_neg (by omega), hout, hm2]
      have hrest := ih sp' (ustack ++ [sp']) m2 (fun y hy => hx y (mem_cons_of_mem x hy))
        (by omega) (by omega) (by omega) (by simp; omega)
      rw [length_append, length_singleton] at hrest
      rw [hstep]
      split at hrest
      · next hok =>
        obtain ⟨page, hrun, hall, hkeep⟩ := hrest
        rw [if_pos ⟨by omega, by omega⟩]
        refine ⟨page, ?_, ?_, fun o ho => ?_⟩
        · rw [hrun, slots, ← hsp', hsp', Nat.sub_sub, hm2]
          simp [Mem.setPage]
        · rw [slots, ← hsp']
          refine List.Forall₂.cons (fun k hk => ?_) hall
          rw [hkeep _ (by omega), hpage]
          exact holds_put _ _ _ k hk
        · rw [hkeep o (by omega), hpage, ByteMem.put, if_neg]
          simp only [length_append, length_singleton]
          omega
      · next hno =>
        rw [if_neg (by omega)]
        exact hrest
    · rw [if_neg (by omega), Exec.pushStrings]
      split
      · rfl
      · next hgo =>
        -- the pointer has wrapped around, and there is no page at such an address
        have hwrap : sp < x.length + 1 := by
          by_contra hge
          rw [lower_eq hmod (by omega) (by omega)] at hgo
          omega
        have hhighva := lower_wraps hwrap (by omega)
        have hfail := copyout_high (t := t) (m := m1) (x.length + 1) (lower sp (x.length + 1))
          (x ++ [0])
          (by simp) (by simp only [MAXVA, PGSIZE]; omega)
        split
        · rfl
        · next m2 hc =>
          rw [hc] at hfail
          cases hfail

theorem flatMap_leBytes_length (ws : List Nat) :
    (ws.flatMap (leBytes 8)).length = ws.length * 8 := by
  induction ws with
  | nil => rfl
  | cons w ws ih =>
    rw [flatMap_cons, length_append, ih, leBytes, length_map, length_range,
      length_cons]
    omega

theorem Stacked.reads (h : Stacked m₀ sz t m pa) {m1 : Mem} {va : Nat} {xs : List UInt8}
    (hlow : sz - PGSIZE ≤ va) (hhigh : va + xs.length ≤ sz)
    (hxs : Holds (m1.data pa) (va - (sz - PGSIZE)) xs) : Reads t m1 va xs := by
  intro k hk
  have haligned := h.aligned
  have hroom := h.room
  have hoff : (va + k) % PGSIZE = va - (sz - PGSIZE) + k := by
    simp only [PGSIZE] at haligned hroom hlow ⊢
    omega
  rw [byteAt, h.walkaddr (va + k) (by omega) (by omega), Option.map_some, hoff, hxs k hk]

theorem Stacked.pushArgs {α : Type} (h : Stacked m₀ sz t m pa) {argv : List (List UInt8)}
    (hargs : ∀ x ∈ argv, x.length < 2 ^ 31) : if argv.length ≤ MAXARG ∧ blockSize argv ≤ PGSIZE then
      ∃ sp page, pushArgs t sz argv m = (some sp, m.setPage pa page) ∧
        ∀ (p : Proc α) (m' : Mem), p.pagetable = t → p.sz = sz → p.sp = sp → p.a1 = sp →
          m'.data pa = page → ArgumentBlock p m' argv (slots sz argv)
    else (pushArgs t sz argv m).1 = none := by
  have hroom := h.room
  have hbelow := h.below
  have haligned := h.aligned
  have hsz : sz % 16 = 0 := by
    simp only [PGSIZE] at haligned
    omega
  have hmod := stringsSize_mod argv
  have hround := round16_mod ((argv.length + 1) * 8)
  have hle := le_round16 ((argv.length + 1) * 8)
  have hpush := h.pushStrings argv sz [] m hargs hsz (Nat.sub_le _ _) le_rfl zero_le
  rw [length_nil, zero_add] at hpush
  simp only [PGSIZE, MAXVA] at hroom hbelow
  have hpage : PGSIZE = 4096 := rfl
  have hblock : blockSize argv = stringsSize argv + round16 ((argv.length + 1) * 8) := rfl
  by_cases hstr : argv.length ≤ MAXARG ∧ sz - PGSIZE + stringsSize argv ≤ sz
  · rw [if_pos hstr] at hpush
    obtain ⟨page, hrun, hall, -⟩ := hpush
    obtain ⟨hmods, hin, hpair⟩ := @slots_spec sz argv (by omega) hsz
    have hlower : lower (sz - stringsSize argv) ((argv.length + 1) * 8) =
        sz - blockSize argv := by
      have hfew := hstr.1
      simp only [MAXARG] at hfew
      rw [lower_eq (by omega) (by omega) (by omega), hblock, Nat.sub_sub]
    rw [Exec.pushArgs, hrun]
    simp only [nil_append, length_slots, hlower]
    by_cases hfit : blockSize argv ≤ PGSIZE
    · rw [if_pos ⟨hstr.1, hfit⟩]
      have hbytes := flatMap_leBytes_length (slots sz argv ++ [0])
      rw [length_append, length_slots, length_singleton] at hbytes
      have hout := h.copyout (sz - blockSize argv)
        ((slots sz argv ++ [0]).flatMap (leBytes 8)) (m.setPage pa page) (by
          intro hnil
          rw [hnil] at hbytes
          simp at hbytes) (by omega) (by omega)
      rw [hbytes] at hout
      refine ⟨sz - blockSize argv, ByteMem.put page (sz - blockSize argv - (sz - PGSIZE))
        ((slots sz argv ++ [0]).flatMap (leBytes 8)), ?_, ?_⟩
      · rw [pushArray, if_neg (by omega), length_slots, hout]
        simp only [Mem.setPage, update_self, update_idem]
      · intro p m' ht hz hsp ha1 hdata
        subst ht hz
        have hpage' : Holds (m'.data pa) (p.sp - (p.sz - PGSIZE))
            ((slots p.sz argv ++ [0]).flatMap (leBytes 8)) := by
          rw [hdata, hsp]
          exact holds_put _ _ _
        refine ⟨?_, ?_, ha1.trans hsp.symm, ⟨by omega, hmods⟩, by omega, fun y hy => ?_, by omega,
          hpair⟩
        · -- the array lies under the strings
          refine forall₂_iff_zip.mpr ⟨length_slots _ _, fun {a x} hax => ?_⟩
          have hins : p.sz - stringsSize argv ≤ a ∧ a + x.length + 1 ≤ p.sz := hin (a, x) hax
          refine h.reads (by omega) (by simp; omega) fun k hk => ?_
          have hhold := (forall₂_iff_zip.mp hall).2 hax k hk
          rw [hdata, ByteMem.put, if_neg (by omega)]
          exact hhold
        · exact h.reads (by omega) (by omega) hpage'
        · have hins := hin y hy
          omega
    · rw [if_neg fun hc => hfit hc.2, pushArray, if_pos (by omega)]
  · rw [if_neg hstr] at hpush
    have hno : ¬ (argv.length ≤ MAXARG ∧ blockSize argv ≤ PGSIZE) := by
      rintro ⟨hfew, hfit⟩
      exact hstr ⟨hfew, by omega⟩
    rw [if_neg hno, Exec.pushArgs]
    split
    · rfl
    · next hp =>
      rw [hp] at hpush
      cases hpush

end Push

section Main
variable {α : Type} {L : Layout} {trampoline : Nat} {path : List UInt8} {file : Executable}
  {argv : List (List UInt8)} {p : Proc α} {s : Sys} {m : Mem}

structure Loaded (L : Layout) (trampoline : Nat) (file : Executable) (p : Proc α) (m : Mem)
    (sz : Nat) (t : Table) (m' : Mem) : Prop where
  image : ∃ sz₀ t₀ m₀, loadFile L trampoline p.trapframe file.bytes m =
    .ok (true, some (sz₀, t₀), m₀) ∧
    addStack L sz₀ t₀ m₀ = .ok (sz, t, m')
  size : sz ≠ 0

theorem Loaded.exec_eq {sz : Nat} {t : Table} {m' : Mem}
    (h : Loaded L trampoline file p m sz t m') : exec L trampoline path (some file) argv p s m =
      finish L path file.bytes argv p s.hold.letGo sz t m' := by
  obtain ⟨sz0, t0, m₀, hload, hstack⟩ := h.image
  simp only [exec, hload, ok_bind, hstack, lift, if_neg h.size]

theorem loaded_of_exec {argc : Nat} {p' : Proc α} {s' : Sys} {m' : Mem}
    (h : exec L trampoline path (some file) argv p s m = .ok (some argc, p', s', m')) :
    ∃ sz t m1, Loaded L trampoline file p m sz t m1 := by
  have hspec : Ends (fun r => ∀ argc, r.1 = some argc →
      ∃ sz t m1, Loaded L trampoline file p m sz t m1) (fun _ => True)
      (exec L trampoline path (some file) argv p s m) := by
    refine .bind (Ends.eq_ok _) fun ⟨done, image, m1⟩ hload => ?_
    cases image with
    | none =>
      cases done <;> exact .bind (Ends.eq_ok _) fun _ _ => nofun
    | some image =>
      obtain ⟨sz, t⟩ := image
      cases done with
      | false => exact .bind (Ends.eq_ok _) fun _ _ => nofun
      | true =>
        refine .bind (Ends.eq_ok _) fun ⟨sz1, t1, m2⟩ hstack => ?_
        by_cases hz : sz1 = 0
        · simp only [if_pos hz]
          exact .bind (Ends.eq_ok _) fun _ _ => nofun
        have hadd : addStack L sz t m1 = .ok (sz1, t1, m2) := by
          cases ha : addStack L sz t m1 with
          | ok r =>
            rw [ha] at hstack
            exact congrArg Except.ok (Except.ok.inj hstack)
          | error e =>
            rw [ha] at hstack
            cases hstack
        have hloaded : Loaded L trampoline file p m sz1 t1 m2 :=
          ⟨⟨sz, t, m1, hload, hadd⟩, hz⟩
        simp only [if_neg hz]
        exact (Ends.eq_ok _).mono (fun _ _ _ _ => ⟨sz1, t1, m2, hloaded⟩) fun _ _ => trivial
  rw [h] at hspec
  exact hspec argc rfl

theorem Loaded.stacked {sz : Nat} {t : Table} {m' : Mem} (hm : Fair L m)
    (h : Loaded L trampoline file p m sz t m') : ∃ pa, Stacked m sz t m' pa := by
  obtain ⟨sz0, t0, m₀, hload, hstack⟩ := h.image
  have hl := loadFile_spec hm file.length_le trampoline p.trapframe
  rw [hload] at hl
  obtain ⟨ps, hgrown⟩ := hl.2 sz0 t0 rfl
  have ha := addStack_spec hm hgrown
  rw [hstack] at ha
  exact ha.2 h.size

end Main

section Result
variable {α : Type} (L : Layout) (trampoline : Nat) (path : List UInt8) (file : Executable)
  (argv : List (List UInt8)) (p : Proc α) (s : Sys) (m : Mem)

/-- A new program finds its arguments on its stack; `exec` of a file that can be loaded fails
exactly when there are too many of them or they do not fit. -/
theorem exec_argument_block (hm : Fair L m) (hp : Caller L m p s)
    (hargs : ∀ x ∈ argv, x.length < 2 ^ 31) :
    (∀ argc p' s' m', exec L trampoline path (some file) argv p s m = .ok (some argc, p', s', m') →
      argc = argv.length ∧ ∃ addrs, ArgumentBlock p' m' argv addrs) ∧
    ∀ sz t m₁, Loaded L trampoline file p m sz t m₁ →
      ((∃ p' s' m', exec L trampoline path (some file) argv p s m = .ok (none, p', s', m')) ↔
        MAXARG < argv.length ∨ PGSIZE < blockSize argv) := by
  have hcases : ∀ sz t m₁, Loaded L trampoline file p m sz t m₁ →
      if argv.length ≤ MAXARG ∧ blockSize argv ≤ PGSIZE then
        ∀ argc p' s' m', exec L trampoline path (some file) argv p s m = .ok (argc, p', s', m') →
          argc = some argv.length ∧ ∃ addrs, ArgumentBlock p' m' argv addrs
      else ∃ p' s' m', exec L trampoline path (some file) argv p s m = .ok (none, p', s', m') := by
    intro sz t m₁ h
    obtain ⟨pa, hstack⟩ := h.stacked hm
    have hpush := hstack.pushArgs (α := α) hargs
    rw [h.exec_eq, finish]
    split
    · next hfit =>
      rw [if_pos hfit] at hpush
      obtain ⟨sp, page, hrun, hblock⟩ := hpush
      rw [hrun]
      intro argc p' s' m' hexec
      simp only at hexec
      have hkeep := hp.image.free (m₁.setPage pa page)
      rw [letGo_hold] at hexec
      cases hfree : release L p s (m₁.setPage pa page) with
      | error e =>
        rw [hfree] at hexec
        cases hexec
      | ok r =>
        rw [hfree] at hexec hkeep
        cases hexec
        have hpa : pa ∈ m.free := by
          refine hstack.whole.takes.mem (List.mem_append_right _ ?_)
          have hwalk := hstack.walkaddr (sz - PGSIZE) le_rfl
            (Nat.sub_lt (pos_of_ne_zero h.size) (by decide))
          exact hstack.user _ _ hwalk
        refine ⟨rfl, slots sz argv, hblock _ _ rfl rfl rfl rfl ?_⟩
        exact (hkeep pa (hp.apart pa hpa)).trans (update_self ..)
    · next hfit =>
      rw [if_neg hfit] at hpush
      have htouch := pushArgs_touches hstack.user sz argv m₁
      rcases hrun : pushArgs t sz argv m₁ with ⟨r, m₂⟩
      rw [hrun] at hpush htouch
      have hnone : r = none := hpush
      subst hnone
      have hwhole : Whole m sz t m₂ := ⟨hstack.whole.flags, hstack.whole.small,
        takes_touch hstack.whole.takes htouch fun b hb => List.mem_append_right _ hb⟩
      obtain ⟨m₃, hfree, -⟩ := (hwhole.free hm).returns
      refine ⟨p, s.hold.letGo, m₃, ?_⟩
      simp only [cleanup, hfree, ok_bind]
      rfl
  refine ⟨fun argc p' s' m' hexec => ?_, fun sz t m₁ h => ?_⟩
  · obtain ⟨sz, t, m₁, h⟩ := loaded_of_exec hexec
    have hc := hcases sz t m₁ h
    split at hc
    · obtain ⟨hargc, hblock⟩ := hc _ _ _ _ hexec
      exact ⟨Option.some.inj hargc, hblock⟩
    obtain ⟨p'', s'', m'', hnone⟩ := hc
    rw [hexec] at hnone
    cases hnone
  · have hc := hcases sz t m₁ h
    split at hc
    · next hfit =>
      refine ⟨?_, fun hor => by omega⟩
      rintro ⟨p', s', m', hexec⟩
      exact absurd (hc _ _ _ _ hexec).1 (by simp)
    · next hfit => exact ⟨fun _ => by omega, fun _ => hc⟩

end Result

def otherProc : Proc Unit :=
  { bareProc with pagetable := ⟨KERNBASE + 64 * PGSIZE, [], fun _ => none⟩ }

theorem succeeded_of_ends {x : Except Stop (Option Nat × Proc Unit × Sys × Mem)}
    (h : Ends (fun r => r.1 = some 1) (fun _ => False) x) : ∃ p s m, x = .ok (some 1, p, s, m) := by
  obtain ⟨⟨r, p, s, m⟩, rfl, hr⟩ := h.returns
  cases hr
  exact ⟨p, s, m, rfl⟩

theorem exec_argument_block_one : ∃ p' s' m' addrs,
    exec noKernel 0 [] (some smallFile) [[104, 105]] otherProc noSys (freePages 8) =
      .ok (some 1, p', s', m') ∧ ArgumentBlock p' m' [[104, 105]] addrs := by
  obtain ⟨p', s', m', hexec⟩ := succeeded_of_ends
    (x := exec noKernel 0 [] (some smallFile) [[104, 105]] otherProc noSys (freePages 8))
    (by decide +kernel)
  have hrel : Releasable noKernel otherProc noSys :=
    ⟨zero_le, fun _ _ he => (by cases he), fun _ _ _ he => (by cases he), by decide, by decide,
      by decide, by decide⟩
  have hcaller : Caller noKernel (freePages 8) otherProc noSys := by
    refine ⟨hrel, fun b hb => ⟨fun _ _ _ he => (by cases he), ?_, Option.not_mem_none b⟩⟩
    exact (by decide +kernel : ∀ b ∈ (freePages 8).free, b ∉ otherProc.pagetable.pages) b hb
  obtain ⟨addrs, hblock⟩ :=
    ((exec_argument_block noKernel 0 [] smallFile [[104, 105]] otherProc noSys
    (freePages 8) freePages_fair.2 hcaller (by decide)).1 1 p' s' m' hexec).2
  exact ⟨p', s', m', addrs, hexec, hblock⟩

/-! ## Files of any content -/

section Survive
variable {α : Type} (L : Layout) (trampoline : Nat) (path : List UInt8) (file : Option Executable)
  (argv : List (List UInt8)) (p : Proc α) (s : Sys) (m : Mem)

end Survive

def shared (refcount : Int) : Sys :=
  { noSys with
    shm := KERNBASE - PGSIZE
    shmkeymask := 2
    shmtab := update noSys.shmtab 1 ⟨refcount, 1, fun _ => KERNBASE + 66 * PGSIZE⟩ }

section Fetch
variable {π : Type}

inductive UserArg where
  | unreadable
  | null
  | badString
  | string

inductive ArgPtr (π : Type) where
  | path
  /-- A page from `kalloc`. -/
  | page (a : π)

/-- The loop, with `n` places of `argv` left; `kalloc` will return the pages `free`. -/
def fetchArgs (user : Nat → UserArg) : Nat → Nat → List π → List (ArgPtr π) →
    Bool × List (ArgPtr π) × List π
  | 0, _, free, argv => (false, argv, free)
  | n + 1, i, free, argv =>
    match user i, free with
    | .unreadable, _ => (false, argv, free)
    | .null, _ => (true, argv, free)
    | _, [] => (false, argv, [])
    | .badString, a :: free => (false, argv ++ [.page a], free)
    | .string, a :: free => fetchArgs user n (i + 1) free (argv ++ [.page a])

/-- Calls of `kfree`, which panics for an address beyond `PHYSTOP`. -/
def kfreeArgs : List (ArgPtr π) → Option (List π)
  | [] => some []
  | .path :: _ => none
  | .page a :: rest => (kfreeArgs rest).map (a :: ·)

variable (args : Bool) (exec : List (ArgPtr π) → Int) (user : Nat → UserArg) (free : List π)

/-- `own` is at the start of `argv`; `args` says whether `argstr` and `argaddr` succeed. -/
def execCall (own : List (ArgPtr π)) : Option (Int × List π × List π) :=
  if args = false then some (-1, [], free)
  else
    match fetchArgs user (MAXARG - own.length) 0 free own with
    | (true, argv, left) => (kfreeArgs (argv.drop own.length)).map (exec argv, ·, left)
    | (false, argv, left) => (kfreeArgs argv).map (-1, ·, left)

def sys_exec : Option (Int × List π × List π) := execCall args exec user free []

/-- The null pointer is found in time, behind strings that all get a page. -/
def Ended (n i pages : Nat) : Prop :=
  ∃ k < n, user (i + k) = .null ∧ k ≤ pages ∧ ∀ j < k, user (i + j) = .string

end Fetch

end BirdOS.Exec
