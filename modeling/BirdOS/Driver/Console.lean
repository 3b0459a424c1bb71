import Mathlib.Data.BitVec
import BirdOS.Param
import BirdOS.Lib.Machine
import BirdOS.Lib.Ring

/-! # The console's line discipline (`consoleintr` and `consoleread` of `console.c`)

`cons.lock` is held from the start of a call to its end, but for `sleep` in `consoleread`; a
step is what runs under one hold of the lock.  A woken reader may run at any time.  Every
character that is to be stored is numbered, and histories record which of them are typed,
erased, dropped because the buffer is full, committed by `cons.w = cons.e` and copied out. -/

namespace BirdOS.Console

open Machine Ring Function List

def INPUT_BUF : Nat := 128

structure Key where
  id : Nat
  ch : UInt8
  deriving DecidableEq

def eof : UInt8 := 4

def newline : UInt8 := 10

inductive Reader where
  | idle
  /-- In `sleep`, with `target` and what is left of `n`. -/
  | asleep (target n : Nat)

structure State where
  buf : Nat → Key
  r : BitVec 32
  w : BitVec 32
  e : BitVec 32
  reader : Slot → Reader
  killed : Slot → Bool
  /-- What the last call of a process returned. -/
  ret : Slot → Int
  typed : List Key
  erased : List Key
  dropped : List Key
  committed : List Key
  delivered : List Key

section Code
variable (s : State)

def erase : State :=
  { s with e := s.e - 1, erased := s.erased ++ [s.buf ((s.e - 1).toNat % INPUT_BUF)] }

/-- The loop of `C('U')`, which ends at `cons.w`. -/
def killLine : Nat → State → State
  | 0, s => s
  | fuel + 1, s =>
    if s.e ≠ s.w ∧ (s.buf ((s.e - 1).toNat % INPUT_BUF)).ch ≠ newline then killLine fuel (erase s)
    else s

def store (key : Key) : State :=
  { s with buf := update s.buf (s.e.toNat % INPUT_BUF) key, e := s.e + 1 }

/-- The line that is being edited. -/
def State.line : List Key := window s.buf INPUT_BUF s.w.toNat (s.e - s.w).toNat

def commit : State := { s with w := s.e, committed := s.committed ++ s.line }

def input (c : UInt8) : State :=
  if c ≠ 0 then
    let key := ⟨s.typed.length, if c = 13 then newline else c⟩
    let t := { s with typed := s.typed ++ [key] }
    if (s.e - s.r).toNat < INPUT_BUF then
      let t := store t key
      if key.ch = newline ∨ key.ch = eof ∨ t.e = t.r + BitVec.ofNat 32 INPUT_BUF then commit t
      else t
    else { t with dropped := t.dropped ++ [key] }
  else s

/-- `C('P')` prints, `C('U')` kills the line, `C('H')` and DEL erase one character. -/
def consoleintr (c : UInt8) : State :=
  if c = 16 then s
  else if c = 21 then killLine (s.e - s.w).toNat s
  else if c = 8 ∨ c = 127 then if s.e ≠ s.w then erase s else s
  else input s c

variable (p : Slot)

def leave (result : Int) : State :=
  { s with reader := update s.reader p .idle, ret := update s.ret p result }

def readLoop (target : Nat) : Nat → State → State
  | 0, s => leave s p target
  | n + 1, s =>
    if s.r = s.w then
      if s.killed p then leave s p (-1)
      else { s with reader := update s.reader p (.asleep target (n + 1)) }
    else
      let key := s.buf (s.r.toNat % INPUT_BUF)
      let t := { s with r := s.r + 1 }
      if key.ch = eof then
        leave (if n + 1 < target then { t with r := t.r - 1 } else t) p (target - (n + 1))
      else
        let t := { t with delivered := t.delivered ++ [key] }
        if key.ch = newline then leave t p (target - n) else readLoop target n t

def consoleread (n : Int) : State := readLoop p n.toNat n.toNat s

end Code

inductive Op where
  | intr (c : UInt8)
  | read (p : Slot) (n : Int)
  | wake (p : Slot)
  | kill (p : Slot)

def step (s : State) : Op → Option State
  | .intr c => some (consoleintr s c)
  | .read p n =>
    match s.reader p with
    | .idle => some (consoleread s p n)
    | .asleep .. => none
  | .wake p =>
    match s.reader p with
    | .idle => none
    | .asleep target n => some (readLoop p target n s)
  | .kill p => some { s with killed := update s.killed p true }

def start (x : BitVec 32) : State :=
  { buf := fun _ => ⟨0, 0⟩, r := x, w := x, e := x, reader := fun _ => .idle
    killed := fun _ => false
    ret := fun _ => 0, typed := [], erased := [], dropped := [], committed := [], delivered := [] }

/-- What `c` makes of the line, the erased and the committed characters: `C('U')` erases the line
from its end, `C('H')` and DEL its last character; a newline, `C('D')` and the character that
fills the buffer commit it. -/
def edited (s : State) (c : UInt8) : List Key × List Key × List Key :=
  let key : Key := ⟨s.typed.length, if c = 13 then newline else c⟩
  if c = 16 then (s.line, s.erased, s.committed)
  else if c = 21 then ([], s.erased ++ s.line.reverse, s.committed)
  else if c = 8 ∨ c = 127 then
    (s.line.dropLast, s.erased ++ s.line.getLast?.toList, s.committed)
  else if c = 0 ∨ INPUT_BUF ≤ (s.e - s.r).toNat then (s.line, s.erased, s.committed)
  else if key.ch = newline ∨ key.ch = eof ∨ (s.e - s.r).toNat + 1 = INPUT_BUF then
    ([], s.erased, s.committed ++ (s.line ++ [key]))
  else (s.line ++ [key], s.erased, s.committed)

/-! ## The ring as two lists -/

/-- From `r` on the ring has the committed characters and then the line being edited. -/
structure Holds (s : State) (R : Nat) (unread line : List Key) : Prop where
  r : s.r = BitVec.ofNat 32 R
  w : s.w = BitVec.ofNat 32 (R + unread.length)
  e : s.e = BitVec.ofNat 32 (R + unread.length + line.length)
  room : unread.length + line.length ≤ INPUT_BUF
  ring : window s.buf INPUT_BUF R (unread.length + line.length) = unread ++ line

structure Accounted (s : State) (unread line : List Key) : Prop where
  fate : (s.committed ++ line ++ s.erased ++ s.dropped).Perm s.typed
  numbered : ∀ k ∈ s.typed, k.id < s.typed.length
  sorted : s.typed.Pairwise (·.id < ·.id)
  order : (s.committed ++ line).Pairwise (·.id < ·.id)
  read : s.committed.filter (·.ch ≠ eof) = s.delivered ++ unread.filter (·.ch ≠ eof)

def At (s : State) (unread line : List Key) : Prop :=
  ∃ R, Holds s R unread line ∧ Accounted s unread line

def Inv (s : State) : Prop := ∃ unread line, At s unread line ∧ ∀ k ∈ line, k.ch ≠ newline

theorem index_eq (n : Nat) : (BitVec.ofNat 32 n).toNat % INPUT_BUF = n % INPUT_BUF := by
  rw [BitVec.toNat_ofNat]
  exact Nat.mod_mod_of_dvd n (by decide)

theorem ofNat_sub {a n : Nat} (h : n < 2 ^ 32) :
    (BitVec.ofNat 32 (a + n) - BitVec.ofNat 32 a).toNat = n := by
  have heq : BitVec.ofNat 32 (a + n) - BitVec.ofNat 32 a = BitVec.ofNat 32 n := by
    rw [BitVec.ofNat_add]
    exact add_sub_cancel_left _ _
  rw [heq, BitVec.toNat_ofNat, Nat.mod_eq_of_lt h]

theorem ofNat_succ_sub_one (n : Nat) : BitVec.ofNat 32 (n + 1) - 1 = BitVec.ofNat 32 n := by
  rw [BitVec.ofNat_add]
  exact add_sub_cancel_right _ _

section Lists
variable {s : State} {R : Nat} {unread line : List Key}

section
variable (h : Holds s R unread line)
include h

theorem Holds.small : unread.length + line.length < 2 ^ 32 := by
  have := h.room
  unfold INPUT_BUF at this
  omega

theorem Holds.unread_eq : (s.w - s.r).toNat = unread.length := by
  have := h.small
  rw [h.w, h.r, ofNat_sub (by omega)]

theorem Holds.line_eq : (s.e - s.w).toNat = line.length := by
  have := h.small
  rw [h.e, h.w, ofNat_sub (by omega)]

theorem Holds.total_eq : (s.e - s.r).toNat = unread.length + line.length := by
  rw [h.e, h.r, Nat.add_assoc, ofNat_sub h.small]

theorem Holds.line_nil : s.e = s.w ↔ line = [] := by
  rw [← length_eq_zero_iff, ← h.line_eq]
  constructor
  · intro he
    rw [he, sub_self]
    rfl
  · intro hz
    exact sub_eq_zero.mp (BitVec.eq_of_toNat_eq hz)

theorem Holds.unread_nil : s.r = s.w ↔ unread = [] := by
  rw [← length_eq_zero_iff, ← h.unread_eq]
  constructor
  · intro hr
    rw [hr, sub_self]
    rfl
  · intro hz
    exact (sub_eq_zero.mp (BitVec.eq_of_toNat_eq hz)).symm

theorem Holds.full_iff :
    s.e = s.r + BitVec.ofNat 32 INPUT_BUF ↔ unread.length + line.length = INPUT_BUF := by
  rw [← h.total_eq, ← sub_eq_iff_eq_add', BitVec.toNat_eq]
  rfl

theorem Holds.windows :
    window s.buf INPUT_BUF s.r.toNat (s.w - s.r).toNat = unread ∧
      s.line = line := by
  have hring := h.ring
  rw [window_append] at hring
  obtain ⟨hunread, hline⟩ := append_inj hring (length_window ..)
  rw [State.line, h.unread_eq, h.line_eq]
  refine ⟨Eq.trans (window_congr ?_ _ _) hunread, Eq.trans (window_congr ?_ _ _) hline⟩
  · rw [h.r, index_eq]
  · rw [h.w, index_eq]

end

theorem At.erase {k : Key} (h : At s unread (line ++ [k])) : At (erase s) unread line ∧
    s.e ≠ s.w ∧ s.buf ((s.e - 1).toNat % INPUT_BUF) = k ∧ (erase s).erased = s.erased ++ [k] := by
  obtain ⟨R, hh, ha⟩ := h
  have hlen : unread.length + (line ++ [k]).length = unread.length + line.length + 1 :=
    by simp; omega
  have he : s.e - 1 = BitVec.ofNat 32 (R + unread.length + line.length) := by
    rw [hh.e, length_append, length_singleton, ← Nat.add_assoc, ofNat_succ_sub_one]
  have hring := hh.ring
  rw [hlen, window_snoc, ← append_assoc] at hring
  obtain ⟨hring, hk⟩ := append_inj' hring rfl
  have hlast : s.buf ((s.e - 1).toNat % INPUT_BUF) = k := by
    rw [he, index_eq, Nat.add_assoc]
    exact singleton_inj.mp hk
  have hroom := hh.room
  refine ⟨⟨R, ⟨hh.r, hh.w, he, by omega, hring⟩, ?_, ha.numbered, ha.sorted, ?_, ha.read⟩,
    fun h => by simpa using hh.line_nil.mp h, hlast, by rw [Console.erase, hlast]⟩
  · refine List.Perm.trans ?_ ha.fate
    rw [Console.erase, hlast, perm_iff_count]
    intro x
    simp only [count_append]
    omega
  · have horder := ha.order
    rw [← append_assoc] at horder
    exact horder.sublist (sublist_append_left _ _)

/-- No newline is in the line, so the loop gets to its start. -/
theorem At.killLine (hplain : ∀ k ∈ line, k.ch ≠ newline) : ∀ s, At s unread line →
    At (killLine line.length s) unread [] ∧
      (killLine line.length s).erased = s.erased ++ line.reverse ∧
      (killLine line.length s).committed = s.committed := by
  induction line using reverseRecOn with
  | nil => exact fun s h => ⟨h, by simp [Console.killLine]⟩
  | append_singleton line k ih =>
    intro s h
    obtain ⟨h1, hne, hk, hlast⟩ := h.erase
    obtain ⟨h2, herased, hcommitted⟩ := ih (fun j hj => hplain j (mem_append_left _ hj)) _ h1
    rw [length_append, length_singleton, Console.killLine,
      if_pos ⟨hne, by rw [hk]; exact hplain k (by simp)⟩]
    exact ⟨h2, by simp [herased, hlast], hcommitted⟩

theorem At.commit (h : At s unread line) : At (commit s) (unread ++ line) [] := by
  obtain ⟨R, hh, ha⟩ := h
  refine ⟨R, ⟨hh.r, ?_, ?_, ?_, ?_⟩, ?_, ha.numbered, ha.sorted, ?_, ?_⟩
  · simp [Console.commit, hh.e, Nat.add_assoc]
  · simp [Console.commit, hh.e, Nat.add_assoc]
  · simpa using hh.room
  · simpa [Console.commit] using hh.ring
  · rw [Console.commit, hh.windows.2, append_nil]
    exact ha.fate
  · rw [Console.commit, hh.windows.2, append_nil]
    exact ha.order
  · rw [Console.commit, hh.windows.2, filter_append, filter_append, ha.read, append_assoc]

theorem Accounted.typed (ha : Accounted s unread line) (ch : UInt8) :
    (∀ k ∈ s.typed ++ [(⟨s.typed.length, ch⟩ : Key)], k.id < s.typed.length + 1) ∧
      (s.typed ++ [(⟨s.typed.length, ch⟩ : Key)]).Pairwise (·.id < ·.id) := by
  refine ⟨fun k hk => ?_, pairwise_append.mpr ⟨ha.sorted, pairwise_singleton _ _, ?_⟩⟩
  · rcases mem_append.mp hk with hk | hk
    · exact Nat.lt_succ_of_lt (ha.numbered k hk)
    · rw [mem_singleton.mp hk]
      exact Nat.lt_succ_self _
  · intro a ha' b hb
    rw [mem_singleton.mp hb]
    exact ha.numbered a ha'

theorem At.store (h : At s unread line) (hroom : unread.length + line.length < INPUT_BUF)
    (ch : UInt8) :
    At (store { s with typed := s.typed ++ [⟨s.typed.length, ch⟩] } ⟨s.typed.length, ch⟩) unread
      (line ++ [⟨s.typed.length, ch⟩]) := by
  obtain ⟨R, hh, ha⟩ := h
  obtain ⟨hnumbered, hsorted⟩ := ha.typed ch
  refine ⟨R, ⟨hh.r, hh.w, ?_, ?_, ?_⟩, ?_, by simpa [Console.store] using hnumbered, hsorted, ?_,
    ha.read⟩
  · simp only [Console.store, hh.e, length_append, length_singleton, ← Nat.add_assoc,
      BitVec.ofNat_add]
    rfl
  · simp
    omega
  · rw [length_append, length_singleton, ← Nat.add_assoc, ← append_assoc,
      ← hh.ring, ← window_push hroom]
    simp only [Console.store, hh.e, index_eq, Nat.add_assoc]
  · refine List.Perm.trans ?_ (ha.fate.append_right [(⟨s.typed.length, ch⟩ : Key)])
    rw [perm_iff_count]
    intro x
    simp only [Console.store, count_append]
    omega
  · rw [← append_assoc, pairwise_append]
    refine ⟨ha.order, pairwise_singleton _ _, fun a ha' b hb => ?_⟩
    rw [mem_singleton.mp hb]
    refine ha.numbered a (ha.fate.subset ?_)
    simp only [Console.store] at ha'
    simp only [mem_append] at ha' ⊢
    tauto

theorem At.inv (h : At s unread line) (hplain : ∀ k ∈ line, k.ch ≠ newline) :
    Inv s ∧ s.line = line :=
  ⟨⟨unread, line, h, hplain⟩, h.choose_spec.1.windows.2⟩

theorem Inv.intr (h : Inv s) (c : UInt8) : Inv (consoleintr s c) ∧
    ((consoleintr s c).line, (consoleintr s c).erased, (consoleintr s c).committed) =
      edited s c := by
  have hinv := h
  obtain ⟨unread, line, h, hplain⟩ := h
  have hline := (h.inv hplain).2
  have ⟨_, hh, ha⟩ := h
  simp only [consoleintr, edited, hline]
  by_cases h16 : c = 16
  · simp [h16, hinv, hline]
  by_cases h21 : c = 21
  · obtain ⟨h1, herased, hcommitted⟩ := h.killLine hplain
    obtain ⟨hinv1, hline1⟩ := h1.inv (by simp)
    simp [h21, hh.line_eq, hinv1, hline1, herased, hcommitted]
  by_cases h8 : c = 8 ∨ c = 127
  · rcases eq_nil_or_concat' line with rfl | ⟨line, k, rfl⟩
    · simp [h16, h21, h8, hh.line_nil.mpr rfl, hinv, hline]
    · obtain ⟨h1, hne, -, hlast⟩ := h.erase
      obtain ⟨hinv1, hline1⟩ := h1.inv fun j hj => hplain j (mem_append_left _ hj)
      simp [h16, h21, h8, hne, hinv1, hline1, hlast]
      rfl
  by_cases h0 : c = 0
  · simp [h0, input, hinv, hline]
  simp only [h16, h21, h8, h0, if_false, false_or, input, ne_eq, not_false_iff, if_true,
    hh.total_eq]
  generalize (if c = 13 then newline else c) = ch
  by_cases hroom : unread.length + line.length < INPUT_BUF
  · have h1 := h.store hroom ch
    have ⟨_, hh1, _⟩ := h1
    simp only [hroom, if_true, Nat.not_le.mpr hroom, if_false, hh1.full_iff, length_append,
      length_singleton, ← Nat.add_assoc]
    split
    · obtain ⟨hinv2, hline2⟩ := h1.commit.inv (by simp)
      exact ⟨hinv2, by rw [hline2, Console.commit, hh1.windows.2]; rfl⟩
    · next hend =>
      obtain ⟨hinv1, hline1⟩ := h1.inv (by
        simp only [mem_append, mem_singleton]
        rintro j (hj | rfl)
        · exact hplain j hj
        · exact fun hch => hend (.inl hch))
      exact ⟨hinv1, by rw [hline1]; rfl⟩
  · obtain ⟨hnumbered, hsorted⟩ := ha.typed ch
    simp only [hroom, if_false, Nat.not_lt.mp hroom, if_true]
    refine ⟨⟨unread, line, ⟨_, { hh with }, ?_, by simpa using hnumbered, hsorted, ha.order,
      ha.read⟩, hplain⟩, by rw [← hline]; rfl⟩
    rw [← append_assoc]
    exact ha.fate.append_right _

theorem Inv.leave (h : Inv s) (p : Slot) (result : Int) : Inv (leave s p result) := by
  obtain ⟨unread, line, ⟨R, hh, ha⟩, hplain⟩ := h
  exact ⟨unread, line, ⟨R, { hh with }, { ha with }⟩, hplain⟩

theorem Inv.take (h : Inv s) (hne : s.r ≠ s.w) (out : List Key)
    (hout : out = [s.buf (s.r.toNat % INPUT_BUF)].filter (·.ch ≠ eof)) :
    Inv { s with r := s.r + 1, delivered := s.delivered ++ out } := by
  obtain ⟨unread, line, ⟨R, hh, ha⟩, hplain⟩ := h
  cases unread with
  | nil => exact absurd (hh.unread_nil.mpr rfl) hne
  | cons k unread =>
    have hlen : (k :: unread).length + line.length = unread.length + line.length + 1 :=
      by simp; omega
    have hring := hh.ring
    rw [hlen, window_pop, cons_append] at hring
    obtain ⟨hk, hring⟩ := cons.inj hring
    have hroom := hh.room
    have hread := ha.read
    rw [hh.r, index_eq, hk] at hout
    refine ⟨unread, line, ⟨R + 1, ⟨?_, ?_, ?_, by omega, hring⟩, ha.fate, ha.numbered, ha.sorted,
      ha.order, ?_⟩, hplain⟩
    · rw [BitVec.ofNat_add, hh.r]
      rfl
    · rw [hh.w, length_cons]
      congr 1
      omega
    · rw [hh.e, length_cons]
      congr 1
      omega
    · rw [hread, hout, append_assoc, ← filter_append]
      rfl

theorem Inv.readLoop (p : Slot) (target : Nat) : ∀ (n : Nat) (s : State), Inv s →
    Inv (readLoop p target n s) := by
  intro n
  induction n with
  | zero => exact fun s h => h.leave p _
  | succ n ih =>
    intro s h
    rw [Console.readLoop]
    split
    · split
      · exact h.leave p _
      obtain ⟨unread, line, ⟨R, hh, ha⟩, hplain⟩ := h
      exact ⟨unread, line, ⟨R, { hh with }, { ha with }⟩, hplain⟩
    · next hne =>
      simp only
      split
      · next heof =>
        -- the mark is put back, or it is taken and nothing is copied out
        apply Inv.leave
        split
        · have hback : ({ s with r := s.r + 1 - 1 } : State) = s := by
            rw [add_sub_cancel_right]
          rw [hback]
          exact h
        · have htaken := h.take hne [] (by simp [heof])
          simpa using htaken
      · next heof =>
        have htaken := h.take hne [s.buf (s.r.toNat % INPUT_BUF)] (by simp [heof])
        split
        · exact htaken.leave p _
        · exact ih _ htaken

theorem Inv.step {s' : State} {o : Op} (h : Inv s) (hs : step s o = some s') : Inv s' := by
  cases o with
  | intr c =>
    cases hs
    exact (h.intr c).1
  | read p n =>
    simp only [Console.step] at hs
    split at hs
    · cases hs
      exact Inv.readLoop p _ _ s h
    · cases hs
  | wake p =>
    simp only [Console.step] at hs
    split at hs
    · cases hs
    · cases hs
      exact Inv.readLoop p _ _ s h
  | kill p =>
    cases hs
    obtain ⟨unread, line, ⟨R, hh, ha⟩, hplain⟩ := h
    exact ⟨unread, line, ⟨R, { hh with }, { ha with }⟩, hplain⟩

theorem start_inv (x : BitVec 32) : Inv (start x) := by
  refine ⟨[], [], ⟨x.toNat, ⟨?_, ?_, ?_, Nat.zero_le _, rfl⟩, List.Perm.refl _, ?_,
    List.Pairwise.nil, List.Pairwise.nil, rfl⟩, ?_⟩
  all_goals simp [start]

end Lists

/-- Indices in order, no character lost or taken twice, readers get what was committed, and the
next character edits the line as it should. -/
structure Disciplined (s : State) : Prop where
  bounds : (s.w - s.r).toNat ≤ (s.e - s.r).toNat ∧ (s.e - s.r).toNat ≤ INPUT_BUF
  order : s.committed.Pairwise (·.id < ·.id)
  kept : ∀ k ∈ s.committed, k ∈ s.typed ∧ k ∉ s.erased ∧ k ∉ s.dropped
  fate : ∀ k ∈ s.typed, k ∈ s.committed ∨ k ∈ s.erased ∨ k ∈ s.dropped ∨
    k ∈ s.line
  delivered : s.committed.filter (·.ch ≠ eof) = s.delivered ++
    (window s.buf INPUT_BUF s.r.toNat (s.w - s.r).toNat).filter (·.ch ≠ eof)
  edits : ∀ c, ((consoleintr s c).line, (consoleintr s c).erased, (consoleintr s c).committed) =
    edited s c

theorem Inv.disciplined {s : State} (h : Inv s) : Disciplined s := by
  have hedits := h.intr
  obtain ⟨unread, line, ⟨R, hh, ha⟩, hplain⟩ := h
  have hnodup : (s.committed ++ line ++ s.erased ++ s.dropped).Nodup := by
    refine ha.fate.nodup_iff.mpr (ha.sorted.imp fun hab => ?_)
    rintro rfl
    exact Nat.lt_irrefl _ hab
  refine ⟨⟨?_, ?_⟩, (pairwise_append.mp ha.order).1, fun k hk => ?_, fun k hk => ?_, ?_,
    fun c => (hedits c).2⟩
  · rw [hh.unread_eq, hh.total_eq]
    exact Nat.le_add_right _ _
  · rw [hh.total_eq]
    exact hh.room
  · have hleft := mem_append_left line hk
    obtain ⟨hce, -, hdrop⟩ := nodup_append.mp hnodup
    exact ⟨ha.fate.subset (mem_append_left _ (mem_append_left _ hleft)),
      fun he => (nodup_append.mp hce).2.2 k hleft k he rfl,
      fun hd => hdrop k (mem_append_left _ hleft) k hd rfl⟩
  · have hmem := ha.fate.mem_iff.mpr hk
    rw [hh.windows.2]
    simp only [mem_append] at hmem
    tauto
  · rw [hh.windows.1]
    exact ha.read

/-- Over every interleaving of input characters and readers, from any value of the counters. -/
theorem console_line_discipline (x : BitVec 32) (ops : List Op) (s : State)
    (hrun : run step (start x) ops = some s) : Disciplined s :=
  Inv.disciplined (run_invariant (I := Inv) (fun _ _ _ h hs => h.step hs) ops _ s
    (start_inv x) hrun)

theorem console_line_discipline_wrapped : ∃ s, run step (start (BitVec.ofNat 32 (2 ^ 32 - 1)))
    [.intr 97, .intr 98, .intr 8, .intr 13, .read 0 5] = some s ∧
    s.delivered.map Key.ch = [97, 10] ∧ s.r = 1 ∧ Disciplined s := by
  obtain ⟨s, hrun, hd, hr⟩ := run_test step (start (BitVec.ofNat 32 (2 ^ 32 - 1)))
    [.intr 97, .intr 98, .intr 8, .intr 13, .read 0 5]
    (fun s => s.delivered.map Key.ch = [97, 10] ∧ s.r = 1) (by decide +kernel)
  exact ⟨s, hrun, hd, hr, console_line_discipline _ _ s hrun⟩

end BirdOS.Console
