import Mathlib.Data.Fintype.Card
import BirdOS.Lib.LinkedList
import BirdOS.Lib.Machine
import BirdOS.Net.Udp

/-! # The socket table (`sysnet.c`, and the queues of `net.c`)

`sockalloc`, `sockclose`, `sockrecvudp` and `sockread`, as calls that succeed and do not overlap.
Sockets and packet buffers are pages; `kalloc` may return any free page, whose old contents stay
until they are overwritten (so does the `tail` of a queue that becomes empty).  A null pointer
that is followed, and a search that does not end, are `none`.  Each socket records the datagrams
queued on it since it was allocated and those that its reads have returned. -/

namespace BirdOS.Sockets

open LinkedList Machine Function Option
open List hiding Chain

variable {N : Nat} {α : Type}

structure Sock (N : Nat) (α : Type) where
  next : Option (Fin N)
  raddr : Nat
  lport : Nat
  rport : Nat
  head : Option (Fin N)
  tail : Option (Fin N)
  arrived : List α
  returned : List α

def Sock.triple (si : Sock N α) : Nat × Nat × Nat := (si.raddr, si.lport, si.rport)

inductive Kind where
  | free
  | sock
  | mbuf
  deriving DecidableEq

structure State (N : Nat) (α : Type) where
  sockets : Option (Fin N)
  sock : Fin N → Sock N α
  /-- `m->next` -/
  mnext : Fin N → Option (Fin N)
  /-- The datagram in a packet buffer. -/
  msg : Fin N → α
  kind : Fin N → Kind
  /-- The pages that were given to `kfree`, in order. -/
  freed : List (Fin N)

section Code
variable (s : State N α)

def kfree (a : Fin N) : State N α :=
  { s with kind := update s.kind a .free, freed := s.freed ++ [a] }

def setSock (a : Fin N) (si : Sock N α) : State N α := { s with sock := update s.sock a si }

def mbufq_pushtail (a m : Fin N) : Option (State N α) :=
  let s := { s with mnext := update s.mnext m none }
  match (s.sock a).head with
  | none => some (setSock s a { s.sock a with head := some m, tail := some m })
  | some _ =>
    (s.sock a).tail.map fun t =>
      setSock { s with mnext := update s.mnext t (some m) } a { s.sock a with tail := some m }

def mbufq_pophead (a m : Fin N) : State N α := setSock s a { s.sock a with head := s.mnext m }

def search (key : Nat × Nat × Nat) : Nat → Option (Fin N) → Option (Option (Fin N))
  | _, none => some none
  | 0, some _ => none
  | fuel + 1, some a =>
    if (s.sock a).triple = key then some (some a) else search key fuel (s.sock a).next

/-- `kalloc` returns the page `a`; the call fails when the triple is in use. -/
def sockalloc (a : Fin N) (raddr lport rport : Nat) : Option (State N α) :=
  if s.kind a = .free then
    match search s (raddr, lport, rport) N s.sockets with
    | some none =>
      some { s with
        kind := update s.kind a .sock
        sock := update s.sock a
          { next := s.sockets, raddr := raddr, lport := lport, rport := rport, head := none
            tail := (s.sock a).tail, arrived := [], returned := [] }
        sockets := some a }
    | _ => none
  else none

def setPos (pos v : Option (Fin N)) : State N α :=
  match pos with
  | none => { s with sockets := v }
  | some a => setSock s a { s.sock a with next := v }

def unlink (si : Fin N) : Nat → Option (Fin N) → Option (Fin N) → Option (State N α)
  | _, _, none => some s
  | 0, _, some _ => none
  | fuel + 1, pos, some a =>
    if a = si then some (setPos s pos (s.sock si).next) else unlink si fuel (some a) (s.sock a).next

def drain (si : Fin N) : Nat → State N α → Option (State N α)
  | fuel, s =>
    match fuel, (s.sock si).head with
    | _, none => some s
    | 0, some _ => none
    | fuel + 1, some m => drain si fuel (kfree (mbufq_pophead s si m) m)

def sockclose (si : Fin N) : Option (State N α) :=
  if s.kind si = .sock then do
    let s ← unlink s si N none s.sockets
    let s ← drain si N s
    some (kfree s si)
  else none

def sockrecvudp (m : Fin N) (d : α) (raddr lport rport : Nat) : Option (State N α) :=
  if s.kind m = .free then
    let s := { s with kind := update s.kind m .mbuf, msg := update s.msg m d }
    match search s (raddr, lport, rport) N s.sockets with
    | some none => some (kfree s m)
    | some (some a) =>
      mbufq_pushtail (setSock s a { s.sock a with arrived := (s.sock a).arrived ++ [d] }) a m
    | none => none
  else none

def sockread (si : Fin N) : Option (State N α) :=
  if s.kind si = .sock then
    match (s.sock si).head with
    | none => none
    | some m =>
      let t := mbufq_pophead s si m
      some (kfree (setSock t si { t.sock si with
        returned := (t.sock si).returned ++ [s.msg m] }) m)
  else none

end Code

inductive Op (N : Nat) (α : Type) where
  | alloc (a : Fin N) (raddr lport rport : Nat)
  | close (si : Fin N)
  | recv (m : Fin N) (d : α) (raddr lport rport : Nat)
  | read (si : Fin N)

def step (s : State N α) : Op N α → Option (State N α)
  | .alloc a raddr lport rport => sockalloc s a raddr lport rport
  | .close si => sockclose s si
  | .recv m d raddr lport rport => sockrecvudp s m d raddr lport rport
  | .read si => sockread s si

/-! ## The table and the queues as lists -/

/-- The sockets `ts` of the table, and the buffers `qs t` in the queue of `t`. -/
structure Holds (s : State N α) (ts : List (Fin N)) (qs : Fin N → List (Fin N)) : Prop where
  table : Chain (fun a => (s.sock a).next) s.sockets ts
  socks : ∀ a, s.kind a = .sock ↔ a ∈ ts
  queue : ∀ t ∈ ts, Chain s.mnext (s.sock t).head (qs t)
  tail : ∀ t ∈ ts, ∀ m, (qs t).getLast? = some m → (s.sock t).tail = some m
  mbufs : ∀ t ∈ ts, ∀ m ∈ qs t, s.kind m = .mbuf
  apart : ∀ t ∈ ts, ∀ u ∈ ts, ∀ m ∈ qs t, m ∈ qs u → t = u
  unique : ∀ t ∈ ts, ∀ u ∈ ts, (s.sock t).triple = (s.sock u).triple → t = u
  fifo : ∀ t ∈ ts, (s.sock t).arrived = (s.sock t).returned ++ (qs t).map s.msg

section Lists
variable {s s' : State N α} {ts : List (Fin N)} {qs : Fin N → List (Fin N)} {a m : Fin N}

section
variable (h : Holds s ts qs)
include h

theorem Holds.length_le : ts.length ≤ N := by
  have hcard := Nodup.length_le_card (chain_nodup _ _ h.table)
  rwa [Fintype.card_fin] at hcard

theorem Holds.queue_length_le (ha : a ∈ ts) : (qs a).length ≤ N := by
  have hcard := Nodup.length_le_card (chain_nodup _ _ (h.queue a ha))
  rwa [Fintype.card_fin] at hcard

theorem Holds.free_not_sock (hm : s.kind m = .free) : m ∉ ts := by
  intro hts
  rw [(h.socks m).mpr hts] at hm
  cases hm

theorem Holds.free_not_queued (hm : s.kind m = .free) :
    ∀ t ∈ ts, m ∉ qs t := by
  intro t ht hq
  rw [h.mbufs t ht m hq] at hm
  cases hm

theorem Holds.sock_not_queued (ha : a ∈ ts) : ∀ t ∈ ts, a ∉ qs t := by
  intro t ht hq
  have hkind := h.mbufs t ht a hq
  rw [(h.socks a).mpr ha] at hkind
  cases hkind

end

theorem search_eq (key : Nat × Nat × Nat) : ∀ (ts : List (Fin N)) (fuel : Nat) (p : Option (Fin N)),
    Chain (fun a => (s.sock a).next) p ts → ts.length ≤ fuel →
    search s key fuel p = some (ts.find? fun a => (s.sock a).triple = key) := by
  intro ts
  induction ts with
  | nil =>
    intro fuel p h _
    rw [show p = none from h]
    cases fuel <;> rfl
  | cons t ts ih =>
    intro fuel p h hfuel
    cases fuel with
    | zero => simp at hfuel
    | succ fuel =>
      rw [h.1, search, find?_cons]
      by_cases hkey : (s.sock t).triple = key
      · simp [hkey]
      · simp only [hkey, if_false, decide_false]
        exact ih fuel _ h.2 (by simpa using hfuel)

theorem Holds.sockalloc {raddr lport rport : Nat} (h : Holds s ts qs)
    (hs : sockalloc s a raddr lport rport = some s') : Holds s' (a :: ts) (update qs a []) := by
  unfold Sockets.sockalloc at hs
  obtain ⟨hfree, hs⟩ := ite_none_right_eq_some.mp hs
  rw [search_eq _ ts N _ h.table h.length_le] at hs
  cases hfind : ts.find? fun b => (s.sock b).triple = (raddr, lport, rport) with
  | some b =>
    rw [hfind] at hs
    cases hs
  | none =>
    rw [hfind] at hs
    cases hs
    have hne : ∀ t ∈ ts, t ≠ a := fun t ht hta => h.free_not_sock hfree (hta ▸ ht)
    have hnew : ∀ t ∈ ts, (s.sock t).triple ≠ (raddr, lport, rport) := by
      intro t ht htr
      simpa [htr] using find?_eq_none.mp hfind t ht
    constructor
    · refine ⟨rfl, ?_⟩
      simp only [update_self]
      exact chain_congr ts _ (fun t ht => by rw [update_of_ne (hne t ht)]) h.table
    · intro b
      by_cases hba : b = a
      · simp [hba]
      · simp [hba, h.socks b]
    · refine forall_mem_cons.mpr ⟨by simp [Chain], fun t ht => ?_⟩
      simp only [update_of_ne (hne t ht)]
      exact h.queue t ht
    · refine forall_mem_cons.mpr ⟨by simp, fun t ht => ?_⟩
      simp only [update_of_ne (hne t ht)]
      exact h.tail t ht
    · refine forall_mem_cons.mpr ⟨by simp, fun t ht m hm => ?_⟩
      rw [update_of_ne (hne t ht)] at hm
      have hma : m ≠ a := fun hma => h.free_not_queued hfree t ht (hma ▸ hm)
      simp only [update_of_ne hma]
      exact h.mbufs t ht m hm
    · refine forall_mem_cons.mpr ⟨by simp, fun t ht => forall_mem_cons.mpr
        ⟨by simp, fun u hu m hmt hmu => ?_⟩⟩
      rw [update_of_ne (hne t ht)] at hmt
      rw [update_of_ne (hne u hu)] at hmu
      exact h.apart t ht u hu m hmt hmu
    · refine forall_mem_cons.mpr ⟨forall_mem_cons.mpr ⟨fun _ => rfl, fun u hu htr => ?_⟩,
        fun t ht => forall_mem_cons.mpr ⟨fun htr => ?_, fun u hu htr => ?_⟩⟩
      · simp only [update_self, update_of_ne (hne u hu)] at htr
        exact absurd htr.symm (hnew u hu)
      · simp only [update_self, update_of_ne (hne t ht)] at htr
        exact absurd htr (hnew t ht)
      · simp only [update_of_ne (hne t ht), update_of_ne (hne u hu)] at htr
        exact h.unique t ht u hu htr
    · refine forall_mem_cons.mpr ⟨by simp, fun t ht => ?_⟩
      simp only [update_of_ne (hne t ht)]
      exact h.fifo t ht

theorem Holds.pushtail (h : Holds s ts qs) (ha : a ∈ ts) (hm : s.kind m = .free) (d : α) :
    ∃ s', mbufq_pushtail
      (setSock { s with kind := update s.kind m .mbuf, msg := update s.msg m d } a
        { s.sock a with arrived := (s.sock a).arrived ++ [d] }) a m = some s' ∧
      Holds s' ts (update qs a (qs a ++ [m])) ∧ s'.freed = s.freed ∧
      (s'.sock a).arrived = (s.sock a).arrived ++ [d] ∧ ∀ b, b ≠ a → s'.sock b = s.sock b := by
  have hmts := h.free_not_sock hm
  have hmq := h.free_not_queued hm
  -- whatever the links are, the table and the records are those of `s` but for the queue of `a`
  have hbuild : ∀ (mnext : Fin N → Option (Fin N)) (hd tl : Option (Fin N)),
      Chain mnext hd (qs a ++ [m]) → tl = some m →
      (∀ t ∈ ts, t ≠ a → ∀ x ∈ qs t, mnext x = s.mnext x) →
      Holds { s with
        kind := update s.kind m .mbuf, msg := update s.msg m d, mnext := mnext
        sock := update s.sock a
          { s.sock a with head := hd, tail := tl, arrived := (s.sock a).arrived ++ [d] } }
        ts (update qs a (qs a ++ [m])) := by
    intro mnext hd tl hchain htl hsame
    have hmsg : ∀ t ∈ ts, (qs t).map (update s.msg m d) = (qs t).map s.msg := fun t ht =>
      map_congr_left fun x hx => update_of_ne (fun hxm => hmq t ht (by rwa [← hxm])) _ _
    constructor
    · refine chain_congr ts _ (fun t _ => ?_) h.table
      obtain rfl | hta := eq_or_ne t a
      · simp
      · simp [hta]
    · intro b
      obtain rfl | hbm := eq_or_ne b m
      · simp [hmts]
      · simp [hbm, h.socks b]
    · intro t ht
      obtain rfl | hta := eq_or_ne t a
      · simpa using hchain
      · simp only [update_of_ne hta]
        exact chain_congr _ _ (hsame t ht hta) (h.queue t ht)
    · intro t ht x hx
      obtain rfl | hta := eq_or_ne t a
      · simp only [update_self, getLast?_concat] at hx ⊢
        rw [htl, hx]
      · simp only [update_of_ne hta] at hx ⊢
        exact h.tail t ht x hx
    · intro t ht x hx
      by_cases hxm : x = m
      · simp [hxm]
      simp only [update_of_ne hxm]
      refine h.mbufs t ht x ?_
      obtain rfl | hta := eq_or_ne t a
      · simpa [hxm] using hx
      · rwa [update_of_ne hta] at hx
    · intro t ht u hu x hxt hxu
      obtain rfl | hxm := eq_or_ne x m
      · have honly : ∀ v ∈ ts, x ∈ update qs a (qs a ++ [x]) v → v = a := by
          intro v hv hx
          by_contra hva
          rw [update_of_ne hva] at hx
          exact hmq v hv hx
        rw [honly t ht hxt, honly u hu hxu]
      have hold : ∀ v, x ∈ update qs a (qs a ++ [m]) v → x ∈ qs v := by
        intro v hx
        obtain rfl | hva := eq_or_ne v a
        · simpa [hxm] using hx
        · rwa [update_of_ne hva] at hx
      exact h.apart t ht u hu x (hold t hxt) (hold u hxu)
    · intro t ht u hu htr
      refine h.unique t ht u hu ?_
      by_cases hta : t = a <;> by_cases hua : u = a <;> simp_all [Sock.triple]
    · intro t ht
      obtain rfl | hta := eq_or_ne t a
      · simp [hmsg t ht, h.fifo t ht]
      · simp only [update_of_ne hta, hmsg t ht]
        exact h.fifo t ht
  unfold mbufq_pushtail
  simp only [setSock, update_self, update_idem]
  cases hhead : (s.sock a).head with
  | none =>
    have hnil : qs a = [] := (chain_eq_nil_iff (h.queue a ha)).mpr hhead
    refine ⟨_, rfl, hbuild _ _ _ ?_ rfl fun t ht _ x hx => update_of_ne ?_ _ _, rfl, by simp,
      fun b hb => by simp [hb]⟩
    · rw [hnil]
      exact ⟨rfl, update_self ..⟩
    · exact fun hxm => hmq t ht (by rwa [← hxm])
  | some y =>
    rcases eq_nil_or_concat' (qs a) with hnil | ⟨ys, t, hys⟩
    · rw [(chain_eq_nil_iff (h.queue a ha)).mp hnil] at hhead
      cases hhead
    have htail := h.tail a ha t (by rw [hys, getLast?_concat])
    have hchain := h.queue a ha
    rw [hys, hhead] at hchain
    simp only [htail, map_some]
    refine ⟨_, rfl, hbuild _ _ _ ?_ rfl fun u hu hua x hx => ?_, rfl, by simp,
      fun b hb => by simp [hb]⟩
    · rw [hys]
      exact chain_snoc ys _ hchain (by rw [← hys]; exact hmq a ha)
    · have hxt : x ≠ t := fun hxt => hua (h.apart u hu a ha x hx (by rw [hys, hxt]; simp))
      have hxm : x ≠ m := fun hxm => hmq u hu (by rwa [← hxm])
      rw [update_of_ne hxt, update_of_ne hxm]

theorem Holds.sockrecvudp {d : α} {raddr lport rport : Nat} (h : Holds s ts qs)
    (hm : s.kind m = .free) :
    ∃ s' qs', sockrecvudp s m d raddr lport rport = some s' ∧ Holds s' ts qs' ∧
      ((∃ a ∈ ts, (s.sock a).triple = (raddr, lport, rport) ∧ s'.freed = s.freed ∧
        (s'.sock a).arrived = (s.sock a).arrived ++ [d] ∧ ∀ b, b ≠ a → s'.sock b = s.sock b) ∨
      (∀ a ∈ ts, (s.sock a).triple ≠ (raddr, lport, rport)) ∧ s'.freed = s.freed ++ [m] ∧
        s'.sock = s.sock) := by
  unfold Sockets.sockrecvudp
  rw [if_pos hm]
  simp only
  rw [search_eq (s := { s with kind := update s.kind m .mbuf, msg := update s.msg m d }) _ ts N _
    h.table h.length_le]
  cases hfind : ts.find? fun a => (s.sock a).triple = (raddr, lport, rport) with
  | some a =>
    have ha := mem_of_find?_eq_some hfind
    obtain ⟨s', hpush, hholds, hfreed, harrived, hother⟩ := h.pushtail ha hm d
    have hkey := find?_some hfind
    exact ⟨s', _, hpush, hholds, .inl ⟨a, ha, of_decide_eq_true hkey, hfreed, harrived, hother⟩⟩
  | none =>
    have hno : ∀ a ∈ ts, (s.sock a).triple ≠ (raddr, lport, rport) := by
      intro a ha htr
      simpa [htr] using find?_eq_none.mp hfind a ha
    refine ⟨_, qs, rfl, ?_, .inr ⟨hno, rfl, rfl⟩⟩
    have hkind : update (update s.kind m .mbuf) m .free = s.kind := by
      rw [update_idem, ← hm, update_eq_self]
    refine ⟨h.table, ?_, h.queue, h.tail, ?_, h.apart, h.unique, fun t ht => ?_⟩
    · simp only [kfree, hkind]
      exact h.socks
    · simp only [kfree, hkind]
      exact h.mbufs
    · simp only [kfree]
      rw [h.fifo t ht]
      refine congrArg _ (map_congr_left fun x hx => ?_)
      exact (update_of_ne (fun hxm => h.free_not_queued hm t ht (by rwa [← hxm])) _ _).symm

theorem enqueue_isSome (q : Net.Page × Net.Mbuf) (raddr lport rport : Nat) (ss : List Net.Sock) :
    (Net.enqueue q raddr lport rport ss).isSome = true ↔
      (raddr, lport, rport) ∈ ss.map fun si => (si.raddr, si.lport, si.rport) := by
  induction ss with
  | nil => simp [Net.enqueue]
  | cons si ss ih =>
    rw [Net.enqueue, map_cons, mem_cons, ← ih]
    by_cases hsi : si.matches raddr lport rport = true
    · rw [if_pos hsi]
      simp only [Net.Sock.matches, Bool.and_eq_true, decide_eq_true_eq] at hsi
      simp [hsi]
    · rw [if_neg hsi]
      simp only [Net.Sock.matches, Bool.and_eq_true, decide_eq_true_eq] at hsi
      simp only [isSome_map, Prod.mk.injEq]
      tauto

/-- The stack that keeps the table as a list queues the same datagrams and frees the others. -/
theorem Holds.sockrecvudp_stack (h : Holds s ts qs) (hm : s.kind m = .free) (d : α)
    (raddr lport rport : Nat) {st : Net.Stack}
    (hst : st.sockets.map (fun si => (si.raddr, si.lport, si.rport)) =
      ts.map fun a => (s.sock a).triple) (page : Net.Page) (b : Net.Mbuf) :
    ∃ s', Sockets.sockrecvudp s m d raddr lport rport = some s' ∧ (s'.freed = s.freed ↔
      (Net.sockrecvudp st page b raddr lport rport).freed = st.freed) := by
  obtain ⟨s', -, hs', -, hfate⟩ := @Holds.sockrecvudp _ _ _ _ _ _ d raddr lport rport h hm
  have hmem := enqueue_isSome (page, b) raddr lport rport st.sockets
  rw [hst, List.mem_map] at hmem
  refine ⟨s', hs', ?_⟩
  rw [Net.sockrecvudp]
  rcases hfate with ⟨a, ha, hkey, hfreed, -⟩ | ⟨hno, hfreed, -⟩
  · obtain ⟨ss, hss⟩ := isSome_iff_exists.mp (hmem.mpr ⟨a, ha, hkey⟩)
    simp [hss, hfreed]
  · have hnone : Net.enqueue (page, b) raddr lport rport st.sockets = none := by
      rw [← not_isSome_iff_eq_none, hmem]
      rintro ⟨a, ha, hkey⟩
      exact hno a ha hkey
    simp [hnone, hfreed]

theorem Holds.sockread (h : Holds s ts qs) (hs : sockread s a = some s') :
    ∃ m rest, qs a = m :: rest ∧ Holds s' ts (update qs a rest) ∧
      (s'.sock a).returned = (s.sock a).returned ++ [s.msg m] ∧ s'.freed = s.freed ++ [m] := by
  unfold Sockets.sockread at hs
  obtain ⟨hsock, hs⟩ := ite_none_right_eq_some.mp hs
  have ha := (h.socks a).mp hsock
  have hchain := h.queue a ha
  cases hhead : (s.sock a).head with
  | none =>
    rw [hhead] at hs
    cases hs
  | some m =>
    rw [hhead] at hs hchain
    obtain ⟨rest, hq, hrest⟩ := chain_some hchain
    cases hs
    simp only [mbufq_pophead, setSock, kfree, update_self, update_idem]
    have hmrest : m ∉ rest := (nodup_cons.mp (hq ▸ chain_nodup _ _ hchain)).1
    have hsub : ∀ t, ∀ x ∈ update qs a rest t, x ∈ qs t ∧ (t ∈ ts → x ≠ m) := by
      intro t x hx
      obtain rfl | hta := eq_or_ne t a
      · rw [update_self] at hx
        exact ⟨hq ▸ mem_cons_of_mem m hx, fun _ hxm => hmrest (hxm ▸ hx)⟩
      rw [update_of_ne hta] at hx
      refine ⟨hx, fun ht hxm => hta (h.apart t ht a ha x hx ?_)⟩
      rw [hq, hxm]
      exact mem_cons_self
    refine ⟨m, rest, hq, ⟨?_, fun b => ?_, fun t ht => ?_, fun t ht x hx => ?_, fun t ht x hx => ?_,
      fun t ht u hu x hxt hxu => h.apart t ht u hu x (hsub t x hxt).1 (hsub u x hxu).1, ?_,
      fun t ht => ?_⟩, rfl, rfl⟩
    · refine chain_congr ts _ (fun t _ => ?_) h.table
      obtain rfl | hta := eq_or_ne t a
      · simp
      · simp [hta]
    · obtain rfl | hbm := eq_or_ne b m
      · have hb : b ∉ ts := fun hb => h.sock_not_queued hb a ha (by rw [hq]; simp)
        simp [hb]
      · simp [hbm, h.socks b]
    · obtain rfl | hta := eq_or_ne t a
      · simpa using hrest
      · simp only [update_of_ne hta]
        exact h.queue t ht
    · obtain rfl | hta := eq_or_ne t a
      · simp only [update_self] at hx ⊢
        refine h.tail t ht x ?_
        rw [hq]
        cases rest with
        | nil => cases hx
        | cons y ys => simpa using hx
      · simp only [update_of_ne hta] at hx ⊢
        exact h.tail t ht x hx
    · simp only [update_of_ne ((hsub t x hx).2 ht)]
      exact h.mbufs t ht x (hsub t x hx).1
    · intro t ht u hu htr
      refine h.unique t ht u hu ?_
      by_cases hta : t = a <;> by_cases hua : u = a <;> simp_all [Sock.triple]
    · obtain rfl | hta := eq_or_ne t a
      · simp [h.fifo t ht, hq]
      · simp only [update_of_ne hta]
        exact h.fifo t ht

theorem unlink_eq {si : Fin N} {bs : List (Fin N)} : ∀ (as : List (Fin N)) (fuel : Nat)
    (pos p : Option (Fin N)), Chain (fun a => (s.sock a).next) p (as ++ si :: bs) →
    (as ++ si :: bs).length ≤ fuel →
    unlink s si fuel pos p = some (setPos s (as.getLast?.or pos) (s.sock si).next) := by
  intro as
  induction as with
  | nil =>
    intro fuel pos p h hfuel
    cases fuel with
    | zero => simp at hfuel
    | succ fuel => rw [h.1, unlink, if_pos rfl]; rfl
  | cons a as ih =>
    intro fuel pos p h hfuel
    cases fuel with
    | zero => simp at hfuel
    | succ fuel =>
      have hne : a ≠ si := fun hne => (nodup_cons.mp (chain_nodup _ _ h)).1
        (hne ▸ mem_append_right as mem_cons_self)
      rw [h.1, unlink, if_neg hne, ih fuel (some a) _ h.2 (by simpa using hfuel)]
      congr 2
      rcases eq_nil_or_concat' as with rfl | ⟨ys, y, rfl⟩
      · rfl
      · rw [← cons_append, getLast?_concat, getLast?_concat]
        rfl

theorem chain_setPos {si : Fin N} {as bs : List (Fin N)}
    (h : Chain (fun a => (s.sock a).next) s.sockets (as ++ si :: bs)) :
    Chain (fun a => ((setPos s as.getLast? (s.sock si).next).sock a).next)
      (setPos s as.getLast? (s.sock si).next).sockets (as ++ bs) := by
  rcases eq_nil_or_concat' as with rfl | ⟨ys, y, rfl⟩
  · exact h.2
  rw [getLast?_concat]
  rw [append_assoc] at h ⊢
  have hsplice := chain_splice ys _ h
  refine chain_congr _ _ (fun x _ => ?_) hsplice
  obtain rfl | hxy := eq_or_ne x y
  · simp [setPos, setSock]
  · simp [setPos, setSock, hxy]

theorem drain_eq {si : Fin N} : ∀ (q : List (Fin N)) (fuel : Nat) (s : State N α),
    Chain s.mnext (s.sock si).head q → q.length ≤ fuel →
    drain si fuel s = some { s with
      sock := update s.sock si { s.sock si with head := none }
      kind := fun x => if x ∈ q then .free else s.kind x
      freed := s.freed ++ q } := by
  intro q
  induction q with
  | nil =>
    intro fuel s h _
    have hhead : (s.sock si).head = none := h
    have hsame : update s.sock si { s.sock si with head := none } = s.sock := by
      rw [← hhead]
      exact update_eq_self si s.sock
    cases fuel <;> simp [drain, hhead, hsame]
  | cons m q ih =>
    intro fuel s h hfuel
    have hm : m ∉ q := (nodup_cons.mp (chain_nodup _ _ h)).1
    cases fuel with
    | zero => simp at hfuel
    | succ fuel =>
      have hturn : drain si (fuel + 1) s = drain si fuel (kfree (mbufq_pophead s si m) m) := by
        rw [drain.eq_def]
        simp only [h.1]
      rw [hturn, ih fuel _ (by simpa [kfree, mbufq_pophead, setSock] using h.2)
        (by simpa using hfuel)]
      simp only [kfree, mbufq_pophead, setSock, update_self, update_idem, append_assoc,
        singleton_append]
      congr 2
      funext x
      by_cases hxm : x = m
      · simp [hxm]
      · simp [hxm]

theorem Holds.sockclose (h : Holds s ts qs) (ha : a ∈ ts) :
    ∃ s', sockclose s a = some s' ∧ Holds s' (ts.erase a) qs ∧ s'.freed = s.freed ++
      qs a ++ [a] := by
  obtain ⟨as, bs, rfl⟩ := append_of_mem ha
  have hnd := chain_nodup _ _ h.table
  have hna : a ∉ as ++ bs := (nodup_cons.mp (nodup_middle.mp hnd)).1
  have hmem : ∀ t ∈ as ++ bs, t ∈ as ++ a :: bs ∧ t ≠ a := by
    intro t ht
    refine ⟨?_, fun hta => hna (hta ▸ ht)⟩
    simp only [mem_append, mem_cons] at ht ⊢
    tauto
  have herase : (as ++ a :: bs).erase a = as ++ bs := by
    rw [erase_append_right _ fun hm => hna (mem_append_left bs hm), erase_cons_head]
  -- unlinking changes nothing of a socket but `next`
  have hpos : ∀ x v, (setPos s as.getLast? v).sock x = { s.sock x with
      next := ((setPos s as.getLast? v).sock x).next } := by
    intro x v
    cases hlast : as.getLast? with
    | none => rfl
    | some y =>
      obtain rfl | hxy := eq_or_ne x y
      · simp [setPos, setSock]
      · simp [setPos, setSock, hxy]
  have hframe : ∀ v, (setPos s as.getLast? v).mnext = s.mnext ∧
    (setPos s as.getLast? v).kind = s.kind ∧
      (setPos s as.getLast? v).msg = s.msg ∧ (setPos s as.getLast? v).freed = s.freed := by
    intro v
    cases as.getLast? <;> exact ⟨rfl, rfl, rfl, rfl⟩
  obtain ⟨hmnext, hkind, hmsg, hfreed⟩ := hframe (s.sock a).next
  have htable := chain_setPos h.table
  unfold Sockets.sockclose
  rw [if_pos ((h.socks a).mpr ha), unlink_eq as N none _ h.table h.length_le, or_none]
  generalize hs1 : setPos s as.getLast? (s.sock a).next =
    s1 at htable hpos hmnext hkind hmsg hfreed ⊢
  have hpos : ∀ x, s1.sock x = { s.sock x with next := (s1.sock x).next } := by
    intro x
    rw [← hs1]
    exact hpos x _
  have hqueue := h.queue a ha
  rw [bind_eq_bind, bind_some, drain_eq (qs a) N s1 ?_ (h.queue_length_le ha)]
  · refine ⟨_, rfl, ?_, by rw [← hfreed]; rfl⟩
    rw [herase]
    constructor
    · refine chain_congr _ _ (fun t ht => ?_) htable
      simp [kfree, (hmem t ht).2]
    · intro b
      obtain rfl | hba := eq_or_ne b a
      · simp [kfree, hna]
      simp only [kfree, update_of_ne hba, hkind]
      split
      · next hb =>
        have hbts : b ∉ as ++ a :: bs := fun hbts => h.sock_not_queued hbts a ha hb
        simp only [mem_append, mem_cons] at hbts ⊢
        simp
        tauto
      · rw [h.socks b]
        simp [hba]
    · intro t ht
      simp only [kfree, update_of_ne (hmem t ht).2, hmnext]
      rw [hpos t]
      exact h.queue t (hmem t ht).1
    · intro t ht m hm
      simp only [kfree, update_of_ne (hmem t ht).2]
      rw [hpos t]
      exact h.tail t (hmem t ht).1 m hm
    · intro t ht m hm
      have hma : m ≠ a := fun hma => h.sock_not_queued ha t (hmem t ht).1 (hma ▸ hm)
      have hmq : m ∉ qs a := fun hmq => (hmem t ht).2 (h.apart t (hmem t ht).1 a ha m hm hmq)
      simp only [kfree, update_of_ne hma, hmq, if_false, hkind]
      exact h.mbufs t (hmem t ht).1 m hm
    · exact fun t ht u hu => h.apart t (hmem t ht).1 u (hmem u hu).1
    · intro t ht u hu htr
      simp only [kfree, update_of_ne (hmem t ht).2, update_of_ne (hmem u hu).2] at htr
      rw [hpos t, hpos u] at htr
      exact h.unique t (hmem t ht).1 u (hmem u hu).1 htr
    · intro t ht
      simp only [kfree, update_of_ne (hmem t ht).2, hmsg]
      rw [hpos t]
      exact h.fifo t (hmem t ht).1
  · rw [hmnext, hpos a]
    exact hqueue

theorem Holds.step {o : Op N α} (h : Holds s ts qs) (hs : step s o = some s') :
    ∃ ts' qs', Holds s' ts' qs' := by
  cases o with
  | alloc a raddr lport rport => exact ⟨_, _, h.sockalloc hs⟩
  | close a =>
    have ha := (h.socks a).mp (ite_none_right_eq_some.mp hs).1
    obtain ⟨s1, hclose, hholds, -⟩ := h.sockclose ha
    cases hclose.symm.trans hs
    exact ⟨_, _, hholds⟩
  | recv m d raddr lport rport =>
    obtain ⟨s1, qs', hrecv, hholds, -⟩ :=
      h.sockrecvudp (d := d) (ite_none_right_eq_some.mp hs).1
    cases hrecv.symm.trans hs
    exact ⟨_, _, hholds⟩
  | read a =>
    obtain ⟨m, rest, -, hholds, -⟩ := h.sockread hs
    exact ⟨_, _, hholds⟩

end Lists

def Empty (s : State N α) : Prop := s.sockets = none ∧ ∀ a, s.kind a = .free

theorem Empty.holds {s : State N α} (h : Empty s) : Holds s [] fun _ => [] where
  table := h.1
  socks := fun a => by simp [h.2 a]
  queue := nofun
  tail := nofun
  mbufs := nofun
  apart := nofun
  unique := nofun
  fifo := nofun

/-- Different triples; a datagram goes to the socket of its triple, or is freed; reads return
what was queued, in order; closing frees what is left. -/
def Demultiplexed (s : State N α) : Prop :=
  ∃ (ts : List (Fin N)) (qs : Fin N → List (Fin N)),
    Chain (fun a => (s.sock a).next) s.sockets ts ∧ (∀ a, s.kind a = .sock ↔ a ∈ ts) ∧
    (∀ t ∈ ts, ∀ u ∈ ts, (s.sock t).triple = (s.sock u).triple → t = u) ∧
    (∀ t ∈ ts, Chain s.mnext (s.sock t).head (qs t) ∧
      (s.sock t).arrived = (s.sock t).returned ++ (qs t).map s.msg) ∧
    (∀ m d raddr lport rport, s.kind m = .free →
      ∃ s', sockrecvudp s m d raddr lport rport = some s' ∧
        ((∃ a ∈ ts, (s.sock a).triple = (raddr, lport, rport) ∧ s'.freed = s.freed ∧
          (s'.sock a).arrived = (s.sock a).arrived ++ [d] ∧ ∀ b, b ≠ a → s'.sock b = s.sock b) ∨
        (∀ a ∈ ts, (s.sock a).triple ≠ (raddr, lport, rport)) ∧ s'.freed = s.freed ++ [m] ∧
          s'.sock = s.sock)) ∧
    (∀ a s', sockread s a = some s' → ∃ m rest, qs a = m :: rest ∧
      (s'.sock a).returned = (s.sock a).returned ++ [s.msg m] ∧ s'.freed = s.freed ++ [m]) ∧
    ∀ a ∈ ts, ∃ s', sockclose s a = some s' ∧ s'.freed = s.freed ++ qs a ++ [a]

theorem sockets_demultiplexed (s₀ : State N α) (h₀ : Empty s₀) (ops : List (Op N α)) (s : State N α)
    (hrun : run step s₀ ops = some s) : Demultiplexed s := by
  obtain ⟨ts, qs, h⟩ := run_invariant (I := fun s => ∃ ts qs, Holds s ts qs)
    (fun _ _ _ ⟨_, _, h⟩ hs => h.step hs) ops s₀ s ⟨_, _, h₀.holds⟩ hrun
  refine ⟨ts, qs, h.table, h.socks, h.unique, fun t ht => ⟨h.queue t ht, h.fifo t ht⟩,
    fun m d raddr lport rport hm => ?_, fun a s' hs => ?_, fun a ha => ?_⟩
  · obtain ⟨s', -, hrecv, -, hfate⟩ := h.sockrecvudp (d := d) hm
    exact ⟨s', hrecv, hfate⟩
  · obtain ⟨m, rest, hq, -, hret, hfreed⟩ := h.sockread hs
    exact ⟨m, rest, hq, hret, hfreed⟩
  · obtain ⟨s', hclose, -, hfreed⟩ := h.sockclose ha
    exact ⟨s', hclose, hfreed⟩

theorem sockets_demultiplexed_one_read :
    ∃ s, run step (⟨none, fun _ => ⟨none, 0, 0, 0, none, some 3, [], []⟩, fun _ => none, fun _ => 0,
      fun _ => .free, []⟩ : State 4 Nat)
      [.alloc 0 7 80 90, .recv 1 100 7 80 90, .recv 2 200 7 80 90, .read 0] = some s ∧
      (s.sock 0).returned = [100] ∧ Demultiplexed s := by
  obtain ⟨s, hrun, hret⟩ := run_test step (⟨none, fun _ => ⟨none, 0, 0, 0, none, some 3, [], []⟩,
      fun _ => none, fun _ => 0, fun _ => .free, []⟩ : State 4 Nat)
    [.alloc 0 7 80 90, .recv 1 100 7 80 90, .recv 2 200 7 80 90, .read 0]
    (fun s => (s.sock 0).returned = [100]) (by decide +kernel)
  exact ⟨s, hrun, hret, sockets_demultiplexed _ ⟨rfl, fun _ => rfl⟩ _ s hrun⟩

/-! ## A call of `sockalloc` that fails

With the triple in use the page is freed twice: by `sockalloc`, and through the file that already
owns it. -/

section Failure
variable {K : Nat}

structure File (N : Nat) where
  ref : Nat
  sock : Option (Fin N)

def fileclose (s : State N α) (t : Fin K → File N) (f : Fin K) :
    Option (State N α × (Fin K → File N)) :=
  if (t f).ref < 1 then none
  else if 1 < (t f).ref then some (s, update t f { t f with ref := (t f).ref - 1 })
  else
    match (t f).sock with
    | none => some (s, update t f ⟨0, none⟩)
    | some si => (sockclose s si).map (·, update t f ⟨0, none⟩)

/-- `sockalloc` with the file table; `page` is what `kalloc` returns. -/
def sockallocFile (s : State N α) (t : Fin K → File N) (page : Option (Fin N))
    (raddr lport rport : Nat) : Option (Int × State N α × (Fin K → File N)) :=
  match (finRange K).find? fun f => decide ((t f).ref = 0) with
  | none => some (-1, s, t)
  | some f =>
    match page with
    | none => (fileclose s (update t f { t f with ref := 1 }) f).map (-1, ·)
    | some a =>
      match search s (raddr, lport, rport) N s.sockets with
      | none => none
      | some none => (sockalloc s a raddr lport rport).map (0, ·, update t f ⟨1, some a⟩)
      | some (some _) =>
        let si : Sock N α :=
          { s.sock a with raddr := raddr, lport := lport, rport := rport, head := none }
        (fileclose (kfree (setSock { s with kind := update s.kind a .sock } a si) a)
          (update t f ⟨1, some a⟩) f).map (-1, ·)

/-- `-1`, with sockets, queues and files as they were, and an allocated page freed once. -/
def NoTrace (s : State N α) (t : Fin K → File N) (page : Option (Fin N))
    (r : Option (Int × State N α × (Fin K → File N))) : Prop :=
  ∃ s', r = some (-1, s', t) ∧ s'.sockets = s.sockets ∧ s'.kind = s.kind ∧
    (∀ a, s.kind a = .sock → s'.sock a = s.sock a) ∧ s'.mnext = s.mnext ∧ s'.msg = s.msg ∧
    s'.freed = s.freed ++ if ∃ f, (t f).ref = 0 then page.toList else []

theorem sockalloc_no_trace_iff {s : State N α} {ts : List (Fin N)} {qs : Fin N → List (Fin N)}
    (h : Holds s ts qs) (t : Fin K → File N) (ht : ∀ f, (t f).ref = 0 → (t f).sock = none)
    (page : Option (Fin N)) (raddr lport rport : Nat)
    (hfail : (∀ f, (t f).ref ≠ 0) ∨ page = none ∨
      ∃ a ∈ ts, (s.sock a).triple = (raddr, lport, rport)) :
    NoTrace s t page (sockallocFile s t page raddr lport rport) ↔
      (∀ f, (t f).ref ≠ 0) ∨ page = none := by
  unfold sockallocFile
  cases hfind : (finRange K).find? fun f => decide ((t f).ref = 0) with
  | none =>
    have hfull : ∀ f, (t f).ref ≠ 0 := by simpa using hfind
    exact iff_of_true ⟨s, by simp [hfull]⟩ (.inl hfull)
  | some f =>
    have hfree : (t f).ref = 0 := by simpa using find?_some hfind
    have hnot : ¬ ∀ f, (t f).ref ≠ 0 := fun hfull => hfull f hfree
    have hnone := ht f hfree
    cases page with
    | none =>
      have hback : update t f ⟨0, none⟩ = t := by
        rw [← hfree, ← hnone, update_eq_self]
      exact iff_of_true ⟨s, by simp [fileclose, hnone, hback]⟩ (.inr rfl)
    | some a =>
      obtain ⟨b, hb⟩ : ∃ b, search s (raddr, lport, rport) N s.sockets = some (some b) := by
        rw [search_eq _ ts N _ h.table h.length_le]
        simpa [← isSome_iff_exists, hnot] using hfail
      refine iff_of_false ?_ (by simp [hnot])
      rintro ⟨s', hr, -⟩
      -- the page is no socket any more when it is closed
      simp [hb, fileclose, sockclose, kfree] at hr

def twoPages : State 2 Nat :=
  ⟨none, fun _ => ⟨none, 0, 0, 0, none, none, [], []⟩, fun _ => none, fun _ => 0,
    fun _ => .free, []⟩

def oneOpen (f : Fin 2) : File 2 := if f.val = 0 then ⟨1, some f⟩ else ⟨0, none⟩

theorem sockalloc_no_trace_iff_no_page : ∃ s, sockalloc twoPages 0 7 80 90 = some s ∧
    NoTrace s oneOpen none (sockallocFile s oneOpen none 7 80 90) := by
  have hempty : Holds twoPages [] fun _ => [] := Empty.holds ⟨rfl, fun _ => rfl⟩
  exact ⟨_, rfl, (sockalloc_no_trace_iff (hempty.sockalloc rfl) oneOpen (by decide) none 7 80 90
    (.inr (.inl rfl))).mpr (.inr rfl)⟩

theorem sockalloc_frees_twice : ∃ s, sockalloc twoPages 0 7 80 90 = some s ∧
    sockallocFile s (fun _ : Fin 1 => ⟨0, none⟩) (some 1) 7 80 90 = none :=
  ⟨_, rfl, rfl⟩

end Failure

end BirdOS.Sockets
