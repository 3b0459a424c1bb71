import BirdOS.Fs.Content
import BirdOS.Mm.MmapRead

/-! # What a mapping leaves in its file

`munmap` and `exit` write a shared mapping back with `filewrite`, at the offset that the open
file has at that time, and `filewrite` moves this offset unless it refuses to write. -/

namespace BirdOS.Space

open Kalloc Vm Fs Function List Option Machine
open Fs (content)
open Shm (proc0)

structure World where
  space : State
  fs : Fs.State
  files : Nat → Fs.File
  vfile : Slot → Area → Nat

def userByte (s : Vm.State) (p : Slot) (va : Nat) : Option UInt8 :=
  (walkaddr s p va).map fun pa => s.kmem.mem pa (va % PGSIZE)

def writeBack (sb : Superblock) (w : World) (p : Slot) (a : Vma) (x addr : Nat) (length : Int) :
    Option World :=
  if a.Shared then
    match filewrite sb w.fs (w.files x) (fun i => userByte w.space.toState p (addr + i)) length with
    | .error _ => none
    | .ok (_, f, fs) => some { w with fs := fs, files := update w.files x f }
  else some w

/-- `sys_munmap`; the bytes of the files are those on the disk. -/
def munmapBack (sb : Superblock) (L : Layout) (id : Fin NCPU) (w : World) (p : Slot) (addr : Nat)
    (length : Int) : Option World :=
  match findUnmap (w.space.vma p) addr length with
  | none => some w
  | some i => do
    let w ← writeBack sb w p (cutVma (w.space.vma p i) addr length) (w.vfile p i) addr length
    let s ← munmap L id w.space p addr length fun inum => content sb w.fs.fs inum
    some { w with space := s }

def exitArea (sb : Superblock) (L : Layout) (id : Fin NCPU) (p : Slot) (w : World) (i : Area) :
    Option World :=
  if (w.space.vma p i).used then do
    let w ← writeBack sb w p (w.space.vma p i) (w.vfile p i) (w.space.vma p i).addr
      (w.space.vma p i).len
    let s ← unmapVmas L id p w.space i
    some { w with space := s }
  else some w

def exitBack (sb : Superblock) (L : Layout) (id : Fin NCPU) (w : World) (p : Slot) : Option World :=
  Machine.run (exitArea sb L id p) w (List.finRange NVMA)

/-! ## Where the bytes belong -/

structure Part where
  file : Nat
  base : Nat
  addr : Nat
  len : Int

def Part.Has (c : Part) (va : Nat) : Prop := c.addr ≤ va ∧ va < c.addr + c.len

def munmapParts (w : World) (p : Slot) (addr : Nat) (length : Int) : List Part :=
  match findUnmap (w.space.vma p) addr length with
  | none => []
  | some i =>
    if (w.space.vma p i).Shared then
      [⟨w.vfile p i, (w.space.region p i).start, addr, length⟩] else []

def exitPart (w : World) (p : Slot) (i : Area) : Option Part :=
  if (w.space.vma p i).used = true ∧ (w.space.vma p i).Shared then
    some ⟨w.vfile p i, (w.space.region p i).start, (w.space.vma p i).addr, (w.space.vma p i).len⟩
  else none

def exitParts (w : World) (p : Slot) : List Part := (List.finRange NVMA).filterMap (exitPart w p)

/-- The user's bytes are in the file where the mapping shows them, and nothing else changed. -/
structure WroteBack (sb : Superblock) (p : Slot) (stored : Nat → Prop) (parts : List Part)
    (w w' : World) : Prop where
  bytes : ∀ c ∈ parts, ∀ va b, c.Has va → stored va → userByte w.space.toState p va = some b →
    (content sb w'.fs.fs (w.files c.file).inum)[va - c.base]? = some b
  others : ∀ inum x, (∀ c ∈ parts, (w.files c.file).inum = inum → ∀ va, c.Has va → stored va →
      va - c.base ≠ x) →
    (content sb w'.fs.fs inum)[x]? = (content sb w.fs.fs inum)[x]?
  offset : ∀ x, (w'.files x).off = (w.files x).off

/-- The first `writei` of `filewrite` is not made or returns `-1`. -/
def Refused (sb : Superblock) (st : Fs.State) (f : Fs.File) (n : Int) : Prop :=
  f.writable = false ∨ n ≤ 0 ∨ ∃ ip, ilock sb st f.inum = .ok ip ∧
    (ip.mode / 2 % 2 = 0 ∨ ip.size < f.off ∨ (f.off + min n.toNat maxWrite) % 2 ^ 32 < f.off ∨
      MAXFILE * BSIZE < (f.off + min n.toNat maxWrite) % 2 ^ 32)

section Filewrite
variable {sb : Superblock} {st st' : Fs.State} {f f' : Fs.File} {src : Nat → Option UInt8}
  {n r : Int}

/-- The same bytes on the disk, and the same inodes once they are locked. -/
structure SameFiles (sb : Superblock) (st st' : Fs.State) : Prop where
  fs : st'.fs = st.fs
  inode : ∀ m, ilock sb st' m = ilock sb st m

theorem SameFiles.refl (st : Fs.State) : SameFiles sb st st := ⟨rfl, fun _ => rfl⟩

theorem SameFiles.trans {st1 : Fs.State} (h : SameFiles sb st st1) (h' : SameFiles sb st1 st') :
    SameFiles sb st st' :=
  ⟨h'.fs.trans h.fs, fun m => (h'.inode m).trans (h.inode m)⟩

theorem sameFiles_put {inum : Nat} {ip : Inode} (h : ilock sb st inum = .ok ip) :
    SameFiles sb st (st.put inum ip st.fs) := by
  refine ⟨rfl, fun m => ?_⟩
  obtain rfl | hm := eq_or_ne m inum
  · rw [ilock_put, h]
  unfold ilock
  simp only [State.put, update_of_ne hm]
  rfl

theorem Refused.congr (h : SameFiles sb st st') : Refused sb st' f n ↔ Refused sb st f n := by
  unfold Refused
  rw [h.inode]

theorem filewrite_refused (h : Refused sb st f n) (src : Nat → Option UInt8) :
    ∃ r st', filewrite sb st f src n = .ok (r, f, st') ∧ SameFiles sb st st' := by
  unfold filewrite
  by_cases hw : f.writable = true
  · rw [if_pos hw]
    by_cases hn : n ≤ 0
    · rw [Int.toNat_of_nonpos hn, filewriteLoop, dif_pos rfl]
      exact ⟨_, _, rfl, SameFiles.refl st⟩
    obtain ⟨ip, hlock, hcases⟩ := (h.resolve_left (by simp [hw])).resolve_left hn
    have hpos : ¬ n.toNat = 0 := by omega
    rw [filewriteLoop, dif_neg hpos, hlock]
    simp only
    by_cases hmode : ip.mode / 2 % 2 = 0
    · rw [if_pos hmode]
      exact ⟨_, _, rfl, sameFiles_put hlock⟩
    rw [if_neg hmode]
    have hwrite : writei sb st.fs f.inum ip src 0 f.off (min n.toNat maxWrite) =
        .ok (-1, ip, st.fs) := by
      unfold writei
      rcases hcases with hmode' | hsize | hwrap | hmax
      · exact absurd hmode' hmode
      · rw [if_pos (.inl hsize)]
      · rw [if_pos (.inr hwrap)]
      by_cases hfirst : f.off > ip.size ∨ (f.off + min n.toNat maxWrite) % 2 ^ 32 < f.off
      · rw [if_pos hfirst]
      · rw [if_neg hfirst, if_pos hmax]
    rw [hwrite]
    exact ⟨_, _, rfl, sameFiles_put hlock⟩
  · rw [if_neg hw]
    exact ⟨_, _, rfl, SameFiles.refl st⟩

theorem writei_count {fs fs' : Image} {inum s off n : Nat} {ip ip' : Inode}
    (h : writei sb fs inum ip src s off n = .ok (r, ip', fs')) :
    (r = -1 ∧ (ip.size < off ∨ (off + n) % 2 ^ 32 < off ∨ MAXFILE * BSIZE < (off + n) % 2 ^ 32)) ∨
    (r = n ∧ off ≤ (off + n) % 2 ^ 32 ∧ (off + n) % 2 ^ 32 ≤ MAXFILE * BSIZE) := by
  unfold writei at h
  split at h
  · next hc =>
    cases h
    exact .inl ⟨rfl, hc.imp_right .inl⟩
  · next hc =>
    push Not at hc
    split at h
    · next hmax =>
      cases h
      exact .inl ⟨rfl, .inr (.inr hmax)⟩
    · next hmax =>
      split at h
      · cases h
      split at h
      all_goals
        cases h
        exact .inr ⟨rfl, hc.2, not_lt.mp hmax⟩

theorem filewriteLoop_off {i rem : Nat} {o : Option Nat}
    (h : filewriteLoop sb src i rem f st = .ok (o, f', st')) : f.off ≤ f'.off := by
  induction rem using Nat.strong_induction_on generalizing i f st with
  | _ rem ih =>
    rw [filewriteLoop] at h
    split at h
    · cases h
      exact le_rfl
    · next hrem =>
      split at h
      · cases h
      · next ip hlock =>
        split at h
        · cases h
          exact le_rfl
        simp only at h
        split at h
        · cases h
        · next r ip' fs' hwrite =>
          have hpos : 0 < min rem maxWrite :=
            Nat.lt_min.mpr ⟨pos_of_ne_zero hrem, by decide⟩
          rcases writei_count hwrite with ⟨rfl, -⟩ | ⟨rfl, hle, -⟩
          · rw [if_pos (by decide)] at h
            cases h
            exact le_rfl
          have hneg : ¬ ((min rem maxWrite : Nat) : Int) < 0 := by omega
          have hcount : ((min rem maxWrite : Nat) : Int) > 0 := by omega
          simp only [if_neg hneg, if_pos hcount, Int.toNat_natCast, ne_eq,
            not_true_eq_false, if_false] at h
          exact le_trans hle (ih (rem - min rem maxWrite) (by omega) h)

theorem filewrite_off (h : filewrite sb st f src n = .ok (r, f', st')) : f.off ≤ f'.off := by
  unfold filewrite at h
  split at h
  · split at h
    · cases h
    all_goals
      next hloop =>
      cases h
      exact filewriteLoop_off hloop
  · cases h
    exact le_rfl

theorem filewrite_moves (h : ¬ Refused sb st f n)
    (hr : filewrite sb st f src n = .ok (r, f', st')) : f.off < f'.off := by
  unfold Refused at h
  push Not at h
  obtain ⟨hw, hn, hlock⟩ := h
  have hmax : maxWrite = 3072 := rfl
  have hloop : ∃ o, filewriteLoop sb src 0 n.toNat f st = .ok (o, f', st') := by
    unfold filewrite at hr
    rw [if_pos (by simpa using hw)] at hr
    split at hr
    · cases hr
    all_goals
      next hloop =>
      cases hr
      exact ⟨_, hloop⟩
  obtain ⟨o, hloop⟩ := hloop
  rw [filewriteLoop, dif_neg (by omega)] at hloop
  split at hloop
  · cases hloop
  · next ip hip =>
    obtain ⟨hmode, hsize, hwrap, hlimit⟩ := hlock ip hip
    rw [if_neg hmode] at hloop
    simp only at hloop
    split at hloop
    · cases hloop
    · next r' ip' fs' hwrite =>
      have hpos : 0 < min n.toNat maxWrite := Nat.lt_min.mpr ⟨by omega, by decide⟩
      rcases writei_count hwrite with ⟨-, hfail⟩ | ⟨rfl, hle, -⟩
      · omega
      have hneg : ¬ ((min n.toNat maxWrite : Nat) : Int) < 0 := by omega
      have hcount : ((min n.toNat maxWrite : Nat) : Int) > 0 := by omega
      simp only [if_neg hneg, if_pos hcount, Int.toNat_natCast, ne_eq, not_true_eq_false,
        if_false] at hloop
      have hrest : (f.off + min n.toNat maxWrite) % 2 ^ 32 ≤ f'.off := filewriteLoop_off hloop
      omega

end Filewrite

/-! ## The two calls -/

section Back
variable {sb : Superblock} {L : Layout} {id : Fin NCPU} {w w' : World} {p : Slot} {i : Area}
  {a : Vma} {x addr : Nat} {length : Int}

structure Kept (sb : Superblock) (w w' : World) : Prop where
  files : w'.files = w.files
  vfile : w'.vfile = w.vfile
  same : SameFiles sb w.fs w'.fs

theorem Kept.refl (w : World) : Kept sb w w := ⟨rfl, rfl, SameFiles.refl w.fs⟩

theorem Kept.trans {w1 : World} (h : Kept sb w w1) (h' : Kept sb w1 w') : Kept sb w w' :=
  ⟨h'.files.trans h.files, h'.vfile.trans h.vfile, h.same.trans h'.same⟩

theorem Kept.space {s : State} (h : Kept sb w w') : Kept sb w { w' with space := s } :=
  { h with }

theorem writeBack_refused (h : a.Shared → Refused sb w.fs (w.files x) length) (p : Slot)
    (addr : Nat) : ∃ w', writeBack sb w p a x addr length = some w' ∧ w'.space = w.space ∧
      Kept sb w w' := by
  unfold writeBack
  by_cases hs : a.Shared
  · obtain ⟨r, st', hr, hsame⟩ := filewrite_refused (h hs)
      fun i => userByte w.space.toState p (addr + i)
    rw [if_pos hs, hr]
    refine ⟨_, rfl, rfl, ?_, rfl, hsame⟩
    exact update_eq_self x w.files
  · rw [if_neg hs]
    exact ⟨w, rfl, rfl, Kept.refl w⟩

theorem writeBack_off (h : writeBack sb w p a x addr length = some w') (y : Nat) :
    (w.files y).off ≤ (w'.files y).off := by
  unfold writeBack at h
  split at h
  · split at h
    · cases h
    · next r f fs hr =>
      cases h
      obtain rfl | hy := eq_or_ne y x
      · simp only [update_self]
        exact filewrite_off hr
      · simp only [update_of_ne hy]
        exact le_rfl
  · cases h
    exact le_rfl

theorem writeBack_kept (h : writeBack sb w p a x addr length = some w')
    (hoff : ∀ y, (w'.files y).off = (w.files y).off) :
    (a.Shared → Refused sb w.fs (w.files x) length) ∧ w'.space = w.space ∧ Kept sb w w' := by
  have hrefused : a.Shared → Refused sb w.fs (w.files x) length := by
    intro hs
    by_contra hmoves
    unfold writeBack at h
    rw [if_pos hs] at h
    split at h
    · cases h
    · next r f fs hr =>
      cases h
      have hsame := hoff x
      simp only [update_self] at hsame
      have hlt := filewrite_moves hmoves hr
      omega
  obtain ⟨w1, hw1, hspace, hkept⟩ := writeBack_refused hrefused p addr
  rw [h] at hw1
  cases hw1
  exact ⟨hrefused, hspace, hkept⟩

theorem munmap_isSome (s : State) (c c' : Nat → List UInt8)
    (h : ∃ s', munmap L id s p addr length c = some s') :
    ∃ s', munmap L id s p addr length c' = some s' := by
  unfold munmap at h ⊢
  split
  · exact ⟨s, rfl⟩
  · next i hi =>
    rw [hi] at h
    obtain ⟨s', hs'⟩ := h
    obtain ⟨t, ht, -⟩ := map_eq_some_iff.mp hs'
    simp only [ht, map_some]
    exact ⟨_, rfl⟩

theorem cutVma_shared (a : Vma) (addr : Nat) (length : Int) :
    (cutVma a addr length).Shared ↔ a.Shared := by
  unfold cutVma
  split <;> exact Iff.rfl

/-! ## The loop of `exit` -/

theorem exitArea_off (h : exitArea sb L id p w i = some w') (y : Nat) :
    (w.files y).off ≤ (w'.files y).off := by
  unfold exitArea at h
  split at h
  · obtain ⟨w1, hw1, h⟩ := bind_eq_some_iff.mp h
    obtain ⟨s, -, h⟩ := bind_eq_some_iff.mp h
    cases h
    exact writeBack_off hw1 y
  · cases h
    exact le_rfl

theorem exitArea_kept (h : exitArea sb L id p w i = some w')
    (hoff : ∀ y, (w'.files y).off = (w.files y).off) :
    ((w.space.vma p i).used = true → (w.space.vma p i).Shared →
      Refused sb w.fs (w.files (w.vfile p i)) (w.space.vma p i).len) ∧
    unmapVmas L id p w.space i = some w'.space ∧ Kept sb w w' := by
  unfold exitArea at h
  split at h
  · obtain ⟨w1, hw1, h⟩ := bind_eq_some_iff.mp h
    obtain ⟨s, hs, h⟩ := bind_eq_some_iff.mp h
    cases h
    obtain ⟨hrefused, hspace, hkept⟩ := writeBack_kept hw1 hoff
    rw [hspace] at hs
    exact ⟨fun _ => hrefused, hs, hkept.space⟩
  · next hunused =>
    cases h
    refine ⟨fun hused => absurd hused hunused, ?_, Kept.refl w⟩
    simp only [unmapVmas]
    rw [if_neg hunused]

theorem exitArea_refused {s : State} (h : (w.space.vma p i).used = true → (w.space.vma p i).Shared →
      Refused sb w.fs (w.files (w.vfile p i)) (w.space.vma p i).len)
    (hs : unmapVmas L id p w.space i = some s) :
    ∃ w', exitArea sb L id p w i = some w' ∧ w'.space = s ∧ Kept sb w w' := by
  unfold exitArea
  by_cases hused : (w.space.vma p i).used = true
  · obtain ⟨w1, hw1, hspace, hkept⟩ := writeBack_refused (h hused) p (w.space.vma p i).addr
    rw [if_pos hused, hw1, bind_eq_bind, bind_some, hspace, hs]
    exact ⟨_, rfl, rfl, hkept.space⟩
  rw [if_neg hused]
  simp only [unmapVmas] at hs
  rw [if_neg hused] at hs
  cases hs
  exact ⟨w, rfl, rfl, Kept.refl w⟩

theorem unmapVmas_other {s s' : State} {j : Area} (h : unmapVmas L id p s i = some s')
    (hj : j ≠ i) : s'.vma p j = s.vma p j := by
  simp only [unmapVmas] at h
  split at h
  · obtain ⟨t, -, rfl⟩ := map_eq_some_iff.mp h
    simp only [State.setVma, update_self, update_of_ne hj]
  · cases h
    rfl

theorem exitAreas_kept : ∀ (l : List Area) (w w' : World), l.Nodup →
    run (exitArea sb L id p) w l = some w' → (∀ y, (w'.files y).off = (w.files y).off) →
    (∀ i ∈ l, (w.space.vma p i).used = true → (w.space.vma p i).Shared →
      Refused sb w.fs (w.files (w.vfile p i)) (w.space.vma p i).len) ∧
    run (unmapVmas L id p) w.space l = some w'.space ∧ Kept sb w w' := by
  intro l
  induction l with
  | nil =>
    intro w w' _ h _
    cases h
    exact ⟨fun i hi => absurd hi not_mem_nil, rfl, Kept.refl w⟩
  | cons i l ih =>
    intro w w' hnd h hoff
    obtain ⟨w1, hw1, hrest⟩ := run_cons_some h
    have hmono : ∀ y, (w1.files y).off ≤ (w'.files y).off := fun y =>
      run_invariant (I := fun v => (w1.files y).off ≤ (v.files y).off)
        (fun v j v' hv hj => le_trans hv (exitArea_off hj y)) l w1 w' le_rfl hrest
    have hoff1 : ∀ y, (w1.files y).off = (w.files y).off := fun y =>
      le_antisymm (le_trans (hmono y) (le_of_eq (hoff y))) (exitArea_off hw1 y)
    obtain ⟨hfirst, hspace, hkept⟩ := exitArea_kept hw1 hoff1
    obtain ⟨hlater, hspaces, hkept'⟩ := ih w1 w' (nodup_cons.mp hnd).2 hrest fun y =>
      (hoff y).trans (hoff1 y).symm
    refine ⟨fun j hj => ?_, ?_, hkept.trans hkept'⟩
    · rcases mem_cons.mp hj with rfl | hj
      · exact hfirst
      have hne : j ≠ i := fun hji => (nodup_cons.mp hnd).1 (hji ▸ hj)
      have hrefused := hlater j hj
      rw [unmapVmas_other hspace hne, hkept.files, hkept.vfile, Refused.congr hkept.same]
        at hrefused
      exact hrefused
    · rw [run_cons, hspace]
      exact hspaces

theorem exitAreas_refused : ∀ (l : List Area) (w : World) (s : State), l.Nodup →
    (∀ i ∈ l, (w.space.vma p i).used = true → (w.space.vma p i).Shared →
      Refused sb w.fs (w.files (w.vfile p i)) (w.space.vma p i).len) →
    run (unmapVmas L id p) w.space l = some s →
    ∃ w', run (exitArea sb L id p) w l = some w' ∧ w'.space = s ∧ Kept sb w w' := by
  intro l
  induction l with
  | nil =>
    intro w s _ _ h
    cases h
    exact ⟨w, rfl, rfl, Kept.refl w⟩
  | cons i l ih =>
    intro w s hnd hall h
    obtain ⟨s1, hs1, hrest⟩ := run_cons_some h
    obtain ⟨w1, hw1, rfl, hkept⟩ := exitArea_refused (hall i mem_cons_self) hs1
    obtain ⟨w', hw', hspace, hkept'⟩ := ih w1 s (nodup_cons.mp hnd).2
      (fun j hj => by
        have hne : j ≠ i := fun hji => (nodup_cons.mp hnd).1 (hji ▸ hj)
        rw [unmapVmas_other hs1 hne, hkept.files, hkept.vfile, Refused.congr hkept.same]
        exact hall j (mem_cons_of_mem i hj)) hrest
    refine ⟨w', ?_, hspace, hkept.trans hkept'⟩
    rw [run_cons, hw1]
    exact hw'

end Back

/-! ## When the files are right -/

structure NothingToWrite (sb : Superblock) (p : Slot) (stored : Nat → Prop) (parts : List Part)
    (w : World) : Prop where
  refused : ∀ c ∈ parts, Refused sb w.fs (w.files c.file) c.len
  bytes : ∀ c ∈ parts, ∀ va b, c.Has va → stored va → userByte w.space.toState p va = some b →
    (content sb w.fs.fs (w.files c.file).inum)[va - c.base]? = some b

section Right
variable {sb : Superblock} {w w' : World} {p : Slot} {stored : Nat → Prop} {parts : List Part}

theorem Kept.wroteBack_iff (h : Kept sb w w')
    (hrefused : ∀ c ∈ parts, Refused sb w.fs (w.files c.file) c.len) :
    WroteBack sb p stored parts w w' ↔ NothingToWrite sb p stored parts w := by
  constructor
  · intro hw
    refine ⟨hrefused, fun c hc va b hva hst hb => ?_⟩
    have hbyte := hw.bytes c hc va b hva hst hb
    rw [h.same.fs] at hbyte
    exact hbyte
  · intro hn
    refine ⟨fun c hc va b hva hst hb => ?_, fun inum x _ => ?_, fun y => ?_⟩
    · rw [h.same.fs]
      exact hn.bytes c hc va b hva hst hb
    · rw [h.same.fs]
    · rw [h.files]

theorem munmapParts_refused {addr : Nat} {length : Int} {i : Area}
    (hi : findUnmap (w.space.vma p) addr length = some i) :
    (∀ c ∈ munmapParts w p addr length, Refused sb w.fs (w.files c.file) c.len) ↔
      ((cutVma (w.space.vma p i) addr length).Shared →
        Refused sb w.fs (w.files (w.vfile p i)) length) := by
  rw [cutVma_shared]
  unfold munmapParts
  rw [hi]
  by_cases hs : (w.space.vma p i).Shared
  · simp [hs]
  · simp [hs]

theorem munmapBack_iff {L : Layout} {id : Fin NCPU} {addr : Nat} {length : Int} :
    (∃ w', munmapBack sb L id w p addr length = some w' ∧
      WroteBack sb p stored (munmapParts w p addr length) w w') ↔
    (∃ s, munmap L id w.space p addr length w.space.contents = some s) ∧
      NothingToWrite sb p stored (munmapParts w p addr length) w := by
  cases hi : findUnmap (w.space.vma p) addr length with
  | none =>
    have hparts : munmapParts w p addr length = [] := by
      unfold munmapParts
      rw [hi]
    have hback : munmapBack sb L id w p addr length = some w := by
      unfold munmapBack
      rw [hi]
    have hsome : munmap L id w.space p addr length w.space.contents = some w.space := by
      unfold munmap
      rw [hi]
    rw [hparts, hback, hsome]
    have hkept : Kept sb w w := Kept.refl w
    have hiff : WroteBack sb p stored [] w w ↔ NothingToWrite sb p stored [] w :=
      hkept.wroteBack_iff fun c hc => absurd hc not_mem_nil
    exact ⟨fun ⟨w', hw', h⟩ => ⟨⟨_, rfl⟩, hiff.mp (Option.some.inj hw' ▸ h)⟩,
      fun h => ⟨w, rfl, hiff.mpr h.2⟩⟩
  | some i =>
    unfold munmapBack
    rw [hi]
    simp only [bind_eq_bind]
    constructor
    · rintro ⟨w', hw', h⟩
      obtain ⟨w1, hw1, hw'⟩ := bind_eq_some_iff.mp hw'
      obtain ⟨s, hs, hw'⟩ := bind_eq_some_iff.mp hw'
      cases hw'
      obtain ⟨hrefused, hspace, hkept⟩ := writeBack_kept hw1 h.offset
      rw [hspace] at hs
      exact ⟨munmap_isSome _ _ _ ⟨s, hs⟩,
        (hkept.space.wroteBack_iff ((munmapParts_refused hi).mpr hrefused)).mp h⟩
    · rintro ⟨hsome, hn⟩
      obtain ⟨w1, hw1, hspace, hkept⟩ :=
        writeBack_refused ((munmapParts_refused hi).mp hn.refused) p addr
      obtain ⟨s, hs⟩ := munmap_isSome _ _ (fun inum => content sb w1.fs.fs inum) hsome
      rw [hw1, bind_some, hspace, hs]
      exact ⟨_, rfl, (hkept.space.wroteBack_iff hn.refused).mpr hn⟩

theorem exitParts_refused : (∀ c ∈ exitParts w p, Refused sb w.fs (w.files c.file) c.len) ↔
      ∀ i ∈ finRange NVMA, (w.space.vma p i).used = true → (w.space.vma p i).Shared →
        Refused sb w.fs (w.files (w.vfile p i)) (w.space.vma p i).len := by
  unfold exitParts
  constructor
  · intro h i hi hused hs
    refine h ⟨w.vfile p i, (w.space.region p i).start, (w.space.vma p i).addr,
      (w.space.vma p i).len⟩ (mem_filterMap.mpr ⟨i, hi, ?_⟩)
    unfold exitPart
    rw [if_pos ⟨hused, hs⟩]
  · intro h c hc
    obtain ⟨i, hi, hc⟩ := mem_filterMap.mp hc
    unfold exitPart at hc
    split at hc
    · next hs =>
      cases hc
      exact h i hi hs.1 hs.2
    · cases hc

theorem exitBack_iff {L : Layout} {id : Fin NCPU} :
    (∃ w', exitBack sb L id w p = some w' ∧ WroteBack sb p stored (exitParts w p) w w') ↔
    (∃ s, exit L id w.space p w.space.contents = some s) ∧
      NothingToWrite sb p stored (exitParts w p) w := by
  have hnd : (finRange NVMA).Nodup := nodup_finRange NVMA
  constructor
  · rintro ⟨w', hw', h⟩
    obtain ⟨hrefused, hspace, hkept⟩ := exitAreas_kept _ w w' hnd hw' h.offset
    refine ⟨⟨_, map_eq_some_iff.mpr ⟨w'.space, hspace, rfl⟩⟩, ?_⟩
    exact (hkept.wroteBack_iff (exitParts_refused.mpr hrefused)).mp h
  · rintro ⟨⟨s, hs⟩, hn⟩
    obtain ⟨t, ht, -⟩ := map_eq_some_iff.mp hs
    obtain ⟨w', hw', -, hkept⟩ :=
      exitAreas_refused _ w t hnd (exitParts_refused.mp hn.refused) ht
    exact ⟨w', hw', (hkept.wroteBack_iff hn.refused).mpr hn⟩

end Right

/-- `munmap` and `exit` leave the files as the mapping says, and the offsets of the open files as
they are, exactly if they return, write nothing at all, and the files hold the stored bytes
already. -/
theorem wrote_back_iff_nothing_to_write (sb : Superblock) (L : Layout) (id : Fin NCPU) (w : World)
    (p : Slot) (stored : Nat → Prop) :
    (∀ addr length, (∃ w', munmapBack sb L id w p addr length = some w' ∧
        WroteBack sb p stored (munmapParts w p addr length) w w') ↔
      (∃ s, munmap L id w.space p addr length w.space.contents = some s) ∧
        NothingToWrite sb p stored (munmapParts w p addr length) w) ∧
    ((∃ w', exitBack sb L id w p = some w' ∧ WroteBack sb p stored (exitParts w p) w w') ↔
      (∃ s, exit L id w.space p w.space.contents = some s) ∧
        NothingToWrite sb p stored (exitParts w p) w) :=
  ⟨fun _ _ => munmapBack_iff, exitBack_iff⟩

def fileOps : List Fs.Op :=
  [.ialloc 2, .writei 1 (fun i => some (UInt8.ofNat i)) 0 5, .setMeta 1 3 0 0 1]

def sharedOps : List Op :=
  [.exec hart0 proc0 [fun _ => 0] (fun _ => 0),
    .mmap hart0 proc0 12000 0 true 2 3 1 ⟨true, true, some 1⟩ 0,
    .fault hart0 proc0 12000 12288 .store true, .store proc0 12288 5]

def sharedWorld (s : State) (st : Fs.State) : World := ⟨s, st, fun _ => ⟨true, 1, 1⟩, fun _ _ => 0⟩

/-- The stored byte arrives at offset 1 in place of 0, its neighbour is written too, and the
offset has moved. -/
theorem munmap_writes_at_open_offset : ∃ k s st w', kinit fivePages (fun _ _ => 0) = some k ∧
      Machine.run (step fivePages) (boot k fun _ => [0, 1, 2, 3, 4]) sharedOps = some s ∧
      Machine.run (Fs.step tiny) tinyImage fileOps = some st ∧
      munmapBack tiny fivePages hart0 (sharedWorld s st) proc0 12288 2 = some w' ∧
      (s.region proc0 area0).start = 12288 ∧ userByte s.toState proc0 12288 = some 5 ∧
      content tiny st.fs 1 = [0, 1, 2, 3, 4] ∧ content tiny w'.fs.fs 1 = [0, 5, 1, 3, 4] ∧
      (w'.files 0).off = 3 := by
  obtain ⟨k, s, hk, hs, hstart, hbyte, hrest⟩ :
      ∃ k s, kinit fivePages (fun _ _ => 0) = some k ∧
        Machine.run (step fivePages) (boot k fun _ => [0, 1, 2, 3, 4]) sharedOps = some s ∧
        (s.region proc0 area0).start = 12288 ∧ userByte s.toState proc0 12288 = some 5 ∧
        ((Machine.run (Fs.step tiny) tinyImage fileOps).bind fun st =>
          (munmapBack tiny fivePages hart0 (sharedWorld s st) proc0 12288 2).map fun w' =>
            decide (content tiny st.fs 1 = [0, 1, 2, 3, 4] ∧
              content tiny w'.fs.fs 1 = [0, 5, 1, 3, 4] ∧ (w'.files 0).off = 3)) = some true :=
    boot_test (by decide +kernel)
  obtain ⟨st, hst, hrest⟩ := Option.bind_eq_some_iff.mp hrest
  obtain ⟨w', hw', hrest⟩ := Option.map_eq_some_iff.mp hrest
  exact ⟨k, s, st, w', hk, hs, hst, hw', hstart, hbyte, of_decide_eq_true hrest⟩

end BirdOS.Space
