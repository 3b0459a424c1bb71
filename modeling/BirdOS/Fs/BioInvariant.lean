import BirdOS.Fs.BioLocks

/-! # What the buffer cache keeps under every interleaving

The lists stay well formed and a buffer is in exactly one of them, except while a miss
carries it from one bucket to another; a carried buffer is in none and still shows the
block it was taken from.  No two buffers of the lists stand for the same block, because a
miss holds the lock of its bucket from the failed lookup to the insertion.

The reference count of a buffer is the number of its users when the callers keep to the
interface: `brelse`, `bpin` and `bunpin` are for the holder of the buffer, and a pin is
taken and dropped once.  Then a buffer in use never changes its identity. -/

namespace BirdOS.BioLocks

open Machine Bio Tally Function List Option Phase

def Phase.seeks : Phase → Option (Nat × Nat)
  | .probe dev blockno _ _ | .pass dev blockno _ _ | .moving dev blockno _ _
  | .placing dev blockno _ => some (dev, blockno)
  | _ => none

def Phase.carries : Phase → Option BufId
  | .moving _ _ _ b | .placing _ _ b => some b
  | _ => none

def Resident (lists : Bucket → List BufId) (b : BufId) : Prop := ∃ k, b ∈ lists k

variable {dev blockno : Nat}

theorem hash_mem_locks {ph : Phase} (h : ph.seeks = some (dev, blockno)) :
    HASH blockno ∈ ph.locks := by
  cases ph with
  | probe d n i cycle | pass d n i cycle | moving d n i b | placing d n b => cases h; simp [locks]
  | _ => cases h

theorem loopHead_carries (dev blockno : Nat) (i : Bucket) (cycle : Nat) :
    (loopHead dev blockno i cycle).carries = none := by
  unfold loopHead
  split <;> rfl

theorem loopHead_seeks {i : Bucket} {cycle : Nat} {x : Nat × Nat}
    (h : (loopHead dev blockno i cycle).seeks = some x) : some (dev, blockno) = some x := by
  unfold loopHead at h
  split at h
  · cases h
  · exact h

theorem no_seeks {ph : Phase} {P : Nat × Nat → Prop} (h : ph.seeks = none) :
    ∀ x, ph.seeks = some x → P x := by
  intro x hx
  rw [h] at hx
  cases hx

theorem first_quiet {ph : Phase} (h : ph.first = true) : ph.seeks = none ∧ ph.carries = none := by
  cases ph <;> first | exact ⟨rfl, rfl⟩ | cases h

variable {b : BufId}

section Structure
variable {α : Type*}

structure Inv (s : State α) (lists : Bucket → List BufId) : Prop where
  held : Held s
  wf : Wf s.cache lists
  absent : ∀ a dev blockno, (s.phase a).seeks = some (dev, blockno) → dev ≠ 0 →
    ∀ k, ∀ b ∈ lists k, s.cache.ident b ≠ (dev, blockno)
  somewhere : ∀ b, Resident lists b ∨ ∃ a, (s.phase a).carries = some b
  loose : ∀ a b, (s.phase a).carries = some b → ¬ Resident lists b
  carrier : ∀ a a' b, (s.phase a).carries = some b → (s.phase a').carries = some b → a = a'

theorem Inv.init : Inv (init : State α) initLists where
  held := Held.init
  wf := wf_binit
  absent := fun _ _ _ h => by cases h
  somewhere := fun b => .inl (full_initLists b)
  loose := fun _ _ h => by cases h
  carrier := fun _ _ _ h => by cases h

variable [DecidableEq α] {s s' : State α} {a : α} {ph : Phase} {lists lists' : Bucket → List BufId}

theorem Inv.goto (h : Inv s lists) (hphase : s'.phase = update s.phase a ph)
    (hheld : Held s') (hwf : Wf s'.cache lists') (hself : ∀ d n, ph.seeks = some (d, n) → d ≠ 0 →
      ∀ k, ∀ b ∈ lists' k, s'.cache.ident b ≠ (d, n))
    (hother : ∀ a', a' ≠ a → ∀ d n, (s.phase a').seeks = some (d, n) → d ≠ 0 →
      ∀ k, ∀ b ∈ lists' k, s'.cache.ident b ≠ (d, n))
    (hplaces : ∀ b, (Resident lists' b ∨ ph.carries = some b) ↔
      (Resident lists b ∨ (s.phase a).carries = some b))
    (hloose : ∀ b, ph.carries = some b → ¬ Resident lists' b) : Inv s' lists' := by
  have hat : s'.phase a = ph := by rw [hphase, update_self]
  have hne (c : α) (hc : c ≠ a) : s'.phase c = s.phase c := by
    rw [hphase, update_of_ne hc]
  have hapart (c : α) (hc : c ≠ a) (b : BufId) (hb : (s.phase c).carries = some b) :
      ¬ (Resident lists' b ∨ ph.carries = some b) := by
    rw [hplaces]
    rintro (hr | ha)
    · exact h.loose c b hb hr
    · exact hc (h.carrier c a b hb ha)
  refine ⟨hheld, hwf, ?_, ?_, ?_, ?_⟩
  · intro c d n hc
    obtain rfl | hca := eq_or_ne c a
    · rw [hat] at hc
      exact hself d n hc
    · rw [hne c hca] at hc
      exact hother c hca d n hc
  · intro b
    rcases h.somewhere b with hr | ⟨c, hc⟩
    · exact ((hplaces b).mpr (.inl hr)).imp_right fun hb => ⟨a, by rw [hat]; exact hb⟩
    obtain rfl | hca := eq_or_ne c a
    · exact ((hplaces b).mpr (.inr hc)).imp_right fun hb => ⟨c, by rw [hat]; exact hb⟩
    · exact .inr ⟨c, by rw [hne c hca]; exact hc⟩
  · intro c b hc
    obtain rfl | hca := eq_or_ne c a
    · rw [hat] at hc
      exact hloose b hc
    · rw [hne c hca] at hc
      exact fun hr => hapart c hca b hc (.inl hr)
  · intro c c' b hc hc'
    by_cases hca : c = a
    · by_cases hca' : c' = a
      · rw [hca, hca']
      rw [hca, hat] at hc
      rw [hne c' hca'] at hc'
      exact absurd (.inr hc) (hapart c' hca' b hc')
    rw [hne c hca] at hc
    by_cases hca' : c' = a
    · rw [hca', hat] at hc'
      exact absurd (.inr hc') (hapart c hca b hc)
    · rw [hne c' hca'] at hc'
      exact h.carrier c c' b hc hc'

theorem Inv.same (h : Inv s lists) (hphase : s'.phase = update s.phase a ph)
    (hheld : Held s') (hn : s'.cache.next = s.cache.next) (hp : s'.cache.prev = s.cache.prev)
    (hid : ∀ b, s'.cache.ident b = s.cache.ident b)
    (hseeks : ∀ d n, ph.seeks = some (d, n) → d ≠ 0 → ∀ k, ∀ b ∈ lists k, s.cache.ident b ≠ (d, n))
    (hcarries : ph.carries = (s.phase a).carries) : ∃ lists', Inv s' lists' := by
  refine ⟨lists, h.goto hphase hheld (h.wf.congr hn hp fun k b _ => hid b) ?_ ?_ ?_ ?_⟩
  · intro d n hs hd k b hb
    rw [hid b]
    exact hseeks d n hs hd k b hb
  · intro c _ d n hs hd k b hb
    rw [hid b]
    exact h.absent c d n hs hd k b hb
  · intro b
    rw [hcarries]
  · intro b hb
    rw [hcarries] at hb
    exact h.loose a b hb

theorem Inv.goOn (h : Inv s lists) (hphase : s'.phase = update s.phase a ph)
    (hheld : Held s') (hn : s'.cache.next = s.cache.next) (hp : s'.cache.prev = s.cache.prev)
    (hid : ∀ b, s'.cache.ident b = s.cache.ident b)
    (hseeks : ∀ x, ph.seeks = some x → (s.phase a).seeks = some x)
    (hcarries : ph.carries = (s.phase a).carries) : ∃ lists', Inv s' lists' :=
  h.same hphase hheld hn hp hid (fun d n hs => h.absent a d n (hseeks (d, n) hs)) hcarries

omit [DecidableEq α] in
theorem Inv.hash_ne (h : Inv s lists) {c : α} {d n : Nat}
    (hc : (s.phase c).seeks = some (d, n)) (hlock : s.lock (HASH blockno) ≠ some c) (dev : Nat) :
    (dev, blockno) ≠ (d, n) := by
  intro e
  have hn : blockno = n := congrArg Prod.snd e
  rw [hn] at hlock
  exact hlock ((h.held.agrees (HASH n) c).mpr (hash_mem_locks hc))

omit [DecidableEq α] in
theorem Inv.absent_claimed (h : Inv s lists) {c : α} {cache : Cache}
    (hid : ∀ x, x ≠ b → cache.ident x = s.cache.ident x)
    (hlists : ∀ k, ∀ x ∈ lists' k, x = b ∨ Resident lists x)
    (hlock : s.lock (HASH blockno) ≠ some c) (d n : Nat) (hc : (s.phase c).seeks = some (d, n))
    (hd : d ≠ 0) (k : Bucket) (x : BufId) (hx : x ∈ lists' k) :
    (claim cache b dev blockno).ident x ≠ (d, n) := by
  by_cases hxb : x = b
  · rw [hxb, ident_claim_self]
    exact h.hash_ne hc hlock dev
  rw [ident_claim_of_ne hxb, hid x hxb]
  obtain ⟨j, hj⟩ := (hlists k x hx).resolve_left hxb
  exact h.absent c d n hc hd j x hj

theorem Inv.turn (h : Inv s lists) (ht : Turn s a s') : ∃ lists', Inv s' lists' := by
  have hheld := h.held.turn ht
  cases ht with
  | hit dev blockno b hp hfree hb =>
    exact h.goOn rfl hheld rfl rfl (ident_incref b) (no_seeks rfl) (by rw [hp]; rfl)
  | recycle dev blockno b hp hfree hmiss hb =>
    have hnew : dev ≠ 0 → ∀ k, ∀ x ∈ lists k, s.cache.ident x ≠ (dev, blockno) :=
      fun hd k x hx => h.wf.lookup_none hd hmiss hx
    refine ⟨lists, h.goto rfl hheld (h.wf.claim (h.wf.victim_some hb).1 hnew) ?_ ?_ ?_ ?_⟩
    · intro d n hs
      cases hs
    · intro c _
      refine h.absent_claimed (fun _ _ => rfl) (fun k x hx => .inr ⟨k, hx⟩) ?_
      rw [hfree]
      simp
    · intro x
      rw [hp]
      rfl
    · intro x hx
      cases hx
  | miss dev blockno hp hfree hmiss =>
    refine h.same rfl hheld rfl rfl (fun _ => rfl) ?_ ?_
    · intro d n hs hd k b hb
      cases loopHead_seeks hs
      exact h.wf.lookup_none hd hmiss hb
    · rw [loopHead_carries, hp]
      rfl
  | skip dev blockno i cycle hp _ | pass dev blockno i cycle hp =>
    refine h.goOn rfl hheld rfl rfl (fun _ => rfl) ?_ ?_
    · rw [hp]
      exact fun _ => loopHead_seeks
    · rw [loopHead_carries, hp]
      rfl
  | found dev blockno i cycle b hp hfree hb =>
    have hmem := (h.wf.victim_some hb).1
    have hback (k : Bucket) (x : BufId)
        (hx : x ∈ update lists i ((lists i).erase b) k) : Resident lists x := by
      obtain rfl | hk := eq_or_ne k i
      · rw [update_self] at hx
        exact ⟨k, mem_of_mem_erase hx⟩
      · rw [update_of_ne hk] at hx
        exact ⟨k, hx⟩
    refine ⟨_, h.goto rfl hheld (h.wf.unlink hmem) ?_ ?_ ?_ ?_⟩
    · intro d n hs hd k x hx
      cases hs
      obtain ⟨j, hj⟩ := hback k x hx
      exact h.absent a dev blockno (by rw [hp]; rfl) hd j x hj
    · intro c _ d n hs hd k x hx
      obtain ⟨j, hj⟩ := hback k x hx
      exact h.absent c d n hs hd j x hj
    · intro x
      rw [hp]
      constructor
      · rintro (⟨k, hx⟩ | hx)
        · exact .inl (hback k x hx)
        · cases hx
          exact .inl ⟨i, hmem⟩
      · rintro (⟨k, hx⟩ | hx)
        · by_cases hxb : x = b
          · exact .inr (by rw [hxb]; rfl)
          left
          refine ⟨k, ?_⟩
          obtain rfl | hk := eq_or_ne k i
          · rw [update_self]
            exact (mem_erase_of_ne hxb).mpr hx
          · rwa [update_of_ne hk]
        · cases hx
    · intro x hx
      cases hx
      rintro ⟨k, hk⟩
      exact h.wf.not_mem_unlinked hmem k hk
  | vain dev blockno i cycle hp hfree | moving dev blockno i b hp =>
    exact h.goOn rfl hheld rfl rfl (fun _ => rfl) (by rw [hp]; exact fun _ => id) (by rw [hp]; rfl)
  | placing dev blockno b hp =>
    have hloose : ∀ k, b ∉ lists k := fun k hk => h.loose a b (by rw [hp]; rfl) ⟨k, hk⟩
    have hmem (k : Bucket) (x : BufId)
        (hx : x ∈ update lists (HASH blockno) (b :: lists (HASH blockno)) k) :
        x = b ∨ Resident lists x := by
      by_cases hk : k = HASH blockno
      · rw [hk, update_self] at hx
        exact (mem_cons.mp hx).imp_right fun hm => ⟨_, hm⟩
      · rw [update_of_ne hk] at hx
        exact .inr ⟨k, hx⟩
    refine ⟨_, h.goto rfl hheld (h.wf.place hloose (h.absent a dev blockno (by rw [hp]; rfl)))
      ?_ ?_ ?_ ?_⟩
    · intro d n hs
      cases hs
    · intro c hc
      refine h.absent_claimed (fun _ _ => rfl) hmem ?_
      intro hlock
      have hmine : s.lock (HASH blockno) = some a :=
        (h.held.agrees _ a).mpr (by rw [hp]; simp [locks])
      rw [hmine] at hlock
      exact hc (Option.some.inj hlock).symm
    · intro x
      rw [hp]
      constructor
      · rintro (⟨k, hx⟩ | hx)
        · rcases hmem k x hx with rfl | hr
          · exact .inr rfl
          · exact .inl hr
        · cases hx
      · rintro (⟨k, hx⟩ | hx)
        · left
          refine ⟨k, ?_⟩
          by_cases hk : k = HASH blockno
          · subst hk
            rw [update_self]
            exact mem_cons_of_mem b hx
          · rwa [update_of_ne hk]
        · cases hx
          refine .inl ⟨HASH blockno, ?_⟩
          rw [update_self]
          exact mem_cons_self ..
    · intro x hx
      cases hx
  | stamp bid b ret hp =>
    exact h.goOn rfl hheld rfl rfl (ident_stamp b) (no_seeks rfl) (by rw [hp]; rfl)
  | stamped bid b ret hp | acquiresleep b hp hfree | counted bid hp =>
    exact h.goOn rfl hheld rfl rfl (fun _ => rfl) (no_seeks rfl) (by rw [hp]; rfl)
  | unlock bid b ret hp =>
    refine h.goOn rfl hheld rfl rfl (fun _ => rfl) ?_ ?_
    · cases ret <;> exact no_seeks rfl
    · rw [hp]
      cases ret <;> rfl
  | brelse bid b hp hfree =>
    exact h.goOn rfl hheld rfl rfl (ident_decref b) (no_seeks rfl) (by rw [hp]; rfl)
  | count bid b pin hp hfree =>
    cases pin with
    | true => exact h.goOn rfl hheld rfl rfl (ident_incref b) (no_seeks rfl) (by rw [hp]; rfl)
    | false => exact h.goOn rfl hheld rfl rfl (ident_decref b) (no_seeks rfl) (by rw [hp]; rfl)

theorem Inv.step {op : Op α} (h : Inv s lists) (hs : step s op = some s') :
    ∃ lists', Inv s' lists' := by
  have hheld := h.held.step hs
  rcases step_cases hs with ⟨a, ht⟩ | ⟨a, ph, sleep, hp, hph, rfl⟩ | rfl
  · exact h.turn ht
  · obtain ⟨hseeks, hcarries⟩ := first_quiet hph
    refine h.goOn rfl hheld rfl rfl (fun _ => rfl) ?_ ?_
    · exact no_seeks hseeks
    · rw [hcarries, hp]
      rfl
  · exact ⟨lists, hheld, h.wf.congr rfl rfl fun _ _ _ => rfl, h.absent, h.somewhere, h.loose,
      h.carrier⟩

end Structure

/-! ## Reference counts -/

/-- A user of `b` from the increment in `bget` to the decrement in `brelse`. -/
def Phase.ref (b : BufId) : Phase → Nat
  | .stamp _ x ret | .stamped _ x ret | .unlock _ x ret => if ret ∧ x = b then 1 else 0
  | .acquiresleep x | .brelse _ x => if x = b then 1 else 0
  | _ => 0

section Counting
variable {α : Type*}

def State.slept (s : State α) (b : BufId) : Nat := if (s.sleep b).isSome then 1 else 0

attribute [local simp] State.goto State.slept

def State.users [Fintype α] (s : State α) (b : BufId) : Nat :=
  tally (ref b) s.phase + s.slept b

def Disciplined [DecidableEq α] (s : State α) : Op α → Prop
  | .bpin a b => s.sleep b = some a ∧ s.pins b = 0
  | .bunpin a b => s.sleep b = some a ∧ s.pins b = 1
  | .bget _ _ _ | .brelse _ _ | .go _ | .tick => True

instance [DecidableEq α] (s : State α) (op : Op α) : Decidable (Disciplined s op) := by
  cases op <;> dsimp only [Disciplined] <;> infer_instance

variable [Fintype α]

structure Exact (s : State α) : Prop where
  count : ∀ b, (s.cache.count b : Int) = s.users b + s.pins b
  pins : ∀ b, s.pins b = 0 ∨ s.pins b = 1
  counting : ∀ a bid b pin, s.phase a = .count bid b pin →
    s.sleep b = some a ∧ s.pins b = if pin then 0 else 1
  carried : ∀ a b, (s.phase a).carries = some b → s.cache.count b = 0

theorem Phase.ref_le (b : BufId) (ph : Phase) : ph.ref b ≤ 1 := by
  cases ph <;> simp only [ref] <;> first | omega | (split <;> omega)

theorem Exact.init : Exact (init : State α) where
  count := by
    intro b
    have htally : tally (ref b) (fun _ : α => outside) = 0 :=
      tally_eq_zero.mpr fun _ => rfl
    simp [BioLocks.init, State.users, count_binit, htally]
  pins := fun _ => .inl rfl
  counting := fun _ _ _ _ h => by cases h
  carried := fun _ _ h => by cases h

variable {s s' : State α} {a : α} {ph : Phase} {lists : Bucket → List BufId}

theorem Exact.count_lt (h : Exact s) (hsmall : Fintype.card α + 3 < 2 ^ 32) (b : BufId) :
    s.cache.count b + 1 < 2 ^ 32 := by
  have hcount := h.count b
  have hpins := h.pins b
  have htally : tally (ref b) s.phase ≤ Fintype.card α := tally_le_card (ref_le b) _
  have hslept : s.slept b ≤ 1 := by
    unfold State.slept
    split <;> omega
  rw [State.users] at hcount
  omega

theorem Exact.count_pos_of_ref (h : Exact s) (hr : (s.phase a).ref b = 1) :
    0 < s.cache.count b := by
  have hcount := h.count b
  have hpins := h.pins b
  have := le_tally (ref b) s.phase a
  rw [State.users] at hcount
  omega

theorem Exact.count_pos_of_sleep (h : Exact s) (hb : s.sleep b = some a) :
    0 < s.cache.count b := by
  have hcount := h.count b
  have hpins := h.pins b
  have hslept : s.slept b = 1 := by
    rw [State.slept, hb]
    rfl
  rw [State.users] at hcount
  omega

variable [DecidableEq α]

theorem Exact.goto (h : Exact s) (hphase : s'.phase = update s.phase a ph)
    (hcount : ∀ x, (s'.cache.count x : Int) + (s.phase a).ref x + s.slept x + s.pins x =
      s.cache.count x + ph.ref x + s'.slept x + s'.pins x)
    (hpins : ∀ x, s'.pins x = 0 ∨ s'.pins x = 1) (hself : ∀ bid b pin, ph = .count bid b pin →
      s'.sleep b = some a ∧ s'.pins b = if pin then 0 else 1)
    (hother : ∀ c, c ≠ a → ∀ bid b pin, s.phase c = .count bid b pin →
      s'.sleep b = some c ∧ s'.pins b = if pin then 0 else 1)
    (hcarry : ∀ b, ph.carries = some b → s'.cache.count b = 0)
    (hcarried : ∀ c, c ≠ a → ∀ b, (s.phase c).carries = some b → s'.cache.count b = 0) :
    Exact s' := by
  have hat : s'.phase a = ph := by rw [hphase, update_self]
  have hne (c : α) (hc : c ≠ a) : s'.phase c = s.phase c := by
    rw [hphase, update_of_ne hc]
  refine ⟨?_, hpins, ?_, ?_⟩
  · intro x
    have htally := tally_update (ref x) s.phase a ph
    have hold := h.count x
    have hx := hcount x
    rw [State.users] at hold ⊢
    rw [hphase]
    omega
  · intro c bid b pin hc
    obtain rfl | hca := eq_or_ne c a
    · rw [hat] at hc
      exact hself bid b pin hc
    · rw [hne c hca] at hc
      exact hother c hca bid b pin hc
  · intro c b hc
    obtain rfl | hca := eq_or_ne c a
    · rw [hat] at hc
      exact hcarry b hc
    · rw [hne c hca] at hc
      exact hcarried c hca b hc

theorem Exact.quiet (h : Exact s) (hphase : s'.phase = update s.phase a ph)
    (hsleep : s'.sleep = s.sleep) (hpins : s'.pins = s.pins)
    (hcount : ∀ x, s'.cache.count x + (s.phase a).ref x = s.cache.count x + ph.ref x)
    (hph : ∀ bid b pin, ph ≠ .count bid b pin)
    (hcarry : ∀ b, ph.carries = some b → s'.cache.count b = 0)
    (hcarried : ∀ c, c ≠ a → ∀ b, (s.phase c).carries = some b → s'.cache.count b = 0) :
    Exact s' := by
  refine h.goto hphase ?_ ?_ ?_ ?_ hcarry hcarried
  · intro x
    have := hcount x
    rw [hpins, State.slept, State.slept, hsleep]
    omega
  · rw [hpins]
    exact h.pins
  · intro bid b pin hc
    exact absurd hc (hph bid b pin)
  · intro c _ bid b pin hc
    rw [hsleep, hpins]
    exact h.counting c bid b pin hc

theorem Exact.keep (h : Exact s) (hphase : s'.phase = update s.phase a ph)
    (hsleep : s'.sleep = s.sleep) (hpins : s'.pins = s.pins)
    (hcount : ∀ x, s'.cache.count x = s.cache.count x) (href : ∀ x, ph.ref x = (s.phase a).ref x)
    (hph : ∀ bid b pin, ph ≠ .count bid b pin)
    (hcarry : ∀ b, ph.carries = some b → s.cache.count b = 0) : Exact s' := by
  refine h.quiet hphase hsleep hpins ?_ hph ?_ ?_
  · intro x
    rw [hcount, href]
  · intro b hb
    rw [hcount]
    exact hcarry b hb
  · intro c _ b hb
    rw [hcount]
    exact h.carried c b hb

theorem Exact.still (h : Exact s) (hphase : s'.phase = update s.phase a ph)
    (hsleep : s'.sleep = s.sleep) (hpins : s'.pins = s.pins)
    (hcount : ∀ x, s'.cache.count x = s.cache.count x) (href : ∀ x, ph.ref x = (s.phase a).ref x)
    (hph : ∀ bid b pin, ph ≠ .count bid b pin) (hcarry : ph.carries = none) : Exact s' := by
  apply h.keep hphase hsleep hpins hcount href hph
  rw [hcarry]
  exact nofun

variable {bid : Bucket}

theorem Exact.gain (h : Exact s) (hphase : s'.phase = update s.phase a (.stamp bid b true))
    (hsleep : s'.sleep = s.sleep) (hpins : s'.pins = s.pins)
    (hcount : ∀ x, s'.cache.count x = s.cache.count x + if b = x then 1 else 0)
    (href : ∀ x, (s.phase a).ref x = 0)
    (hfree : ∀ c, c ≠ a → (s.phase c).carries ≠ some b) : Exact s' := by
  refine h.quiet hphase hsleep hpins ?_ ?_ ?_ ?_
  · intro x
    rw [hcount, href]
    simp [ref]
  · intro _ _ _ e
    cases e
  · intro x hx
    cases hx
  · intro c hc x hx
    have hne : b ≠ x := fun e => hfree c hc (e ▸ hx)
    rw [hcount, if_neg hne, h.carried c x hx]

theorem loopHead_ref (dev blockno : Nat) (i : Bucket) (cycle : Nat) (b : BufId) :
    (loopHead dev blockno i cycle).ref b = 0 := by
  unfold loopHead
  split <;> rfl

theorem loopHead_ne_count (dev blockno : Nat) (i : Bucket) (cycle : Nat) (bid : Bucket)
    (b : BufId) (pin : Bool) : loopHead dev blockno i cycle ≠ .count bid b pin := by
  unfold loopHead
  split <;> simp

theorem Exact.repin (h : Exact s) (hsmall : Fintype.card α + 3 < 2 ^ 32)
    {pin : Bool} (hp : s.phase a = .count bid b pin) :
    Exact ({ s with
      lock := update s.lock bid (some a)
      cache := if pin then incref s.cache b else decref s.cache b
      pins := update s.pins b (s.pins b + if pin then 1 else -1) }.goto a
        (.counted bid)) := by
  obtain ⟨hsleep, hpins⟩ := h.counting a bid b pin hp
  have hpos := h.count_pos_of_sleep hsleep
  have hcount (x : BufId) :
      (((if pin then incref s.cache b else decref s.cache b).count x : Nat) : Int) =
        s.cache.count x + if x = b then (if pin then 1 else -1) else 0 := by
    cases pin with
    | true =>
      have := count_incref (h.count_lt hsmall b) x
      simp only [if_true, eq_comm (a := x)]
      split at this <;> simp_all
    | false =>
      have := count_decref hpos x
      obtain rfl | hx := eq_or_ne x b
      · simp only [Bool.false_eq_true, if_false, if_true] at this ⊢
        omega
      · simp only [Bool.false_eq_true, if_false, Ne.symm hx, hx] at this ⊢
        omega
  refine h.goto rfl ?_ ?_ (by simp) ?_ ?_ ?_
  · intro x
    have := hcount x
    rw [hp]
    change (((if pin then incref s.cache b else decref s.cache b).count x : Nat) : Int) +
      (0 : Nat) +
      s.slept x + s.pins x = s.cache.count x + (0 : Nat) + s.slept x +
        update s.pins b (s.pins b + if pin then 1 else -1) x
    obtain rfl | hx := eq_or_ne x b
    · rw [if_pos rfl] at this
      rw [update_self]
      omega
    rw [if_neg hx] at this
    rw [update_of_ne hx]
    omega
  · intro x
    obtain rfl | hx := eq_or_ne x b
    · simp only [State.goto, update_self, hpins]
      cases pin <;> simp
    · simp only [State.goto, update_of_ne hx]
      exact h.pins x
  · intro c hc bid' x pin' hx
    obtain ⟨hsleep', hpins'⟩ := h.counting c bid' x pin' hx
    have hne : x ≠ b := by
      rintro rfl
      rw [hsleep] at hsleep'
      exact hc (Option.some.inj hsleep').symm
    refine ⟨hsleep', ?_⟩
    simp only [State.goto, update_of_ne hne]
    exact hpins'
  · intro x hx
    cases hx
  · intro c _ x hx
    have hne : x ≠ b := by
      rintro rfl
      have := h.carried c x hx
      omega
    have := hcount x
    rw [if_neg hne, h.carried c x hx] at this
    simp only [State.goto]
    omega

theorem Exact.turn (h : Exact s) (hi : Inv s lists) (hsmall : Fintype.card α + 3 < 2 ^ 32)
    (ht : Turn s a s') : Exact s' := by
  cases ht with
  | hit dev blockno b hp hfree hb =>
    refine h.gain rfl rfl rfl (count_incref (h.count_lt hsmall b)) ?_ ?_
    · intro x
      rw [hp]
      rfl
    · intro c _ hc
      exact hi.loose c b hc ⟨_, (hi.wf.lookup_some hb).1⟩
  | recycle dev blockno b hp hfree hmiss hb =>
    obtain ⟨hmem, hzero⟩ := hi.wf.victim_some hb
    refine h.gain rfl rfl rfl (count_claim (count_eq_zero.mpr hzero) dev blockno) ?_ ?_
    · intro x
      rw [hp]
      rfl
    · intro c _ hc
      exact hi.loose c b hc ⟨_, hmem⟩
  | placing dev blockno b hp =>
    have hcarries : (s.phase a).carries = some b := by
      rw [hp]
      rfl
    have hzero : (pushFront s.cache (HASH blockno) b).count b = 0 := h.carried a b hcarries
    refine h.gain rfl rfl rfl (count_claim hzero dev blockno) ?_ ?_
    · intro x
      rw [hp]
      rfl
    · intro c hc hcb
      exact hc (hi.carrier c a b hcb hcarries)
  | miss dev blockno hp hfree hmiss | skip dev blockno i cycle hp hheld
  | pass dev blockno i cycle hp =>
    refine h.still rfl rfl rfl (fun _ => rfl) ?_ (loopHead_ne_count _ _ _ _) (loopHead_carries ..)
    intro x
    rw [loopHead_ref, hp]
    rfl
  | found dev blockno i cycle b hp hfree hb =>
    refine h.keep rfl rfl rfl (fun _ => rfl) ?_ (by simp) ?_
    · intro x
      rw [hp]
      rfl
    · intro x hx
      cases hx
      exact count_eq_zero.mpr (hi.wf.victim_some hb).2
  | vain dev blockno i cycle hp hfree | stamped bid b ret hp | counted bid hp =>
    exact h.still rfl rfl rfl (fun _ => rfl) (by rw [hp]; exact fun _ => rfl) (by simp) rfl
  | moving dev blockno i b hp =>
    refine h.keep rfl rfl rfl (fun _ => rfl) ?_ (by simp) ?_
    · intro x
      rw [hp]
      rfl
    · intro x hx
      cases hx
      exact h.carried a b (by rw [hp]; rfl)
  | stamp bid b ret hp =>
    exact h.still rfl rfl rfl (count_stamp b) (by rw [hp]; exact fun _ => rfl) (by simp) rfl
  | unlock bid b ret hp =>
    refine h.still rfl rfl rfl (fun _ => rfl) ?_ ?_ ?_
    · intro x
      rw [hp]
      cases ret <;> simp [ref]
    · cases ret <;> simp
    · cases ret <;> rfl
  | acquiresleep b hp hfree =>
    refine h.goto rfl ?_ h.pins (by simp) ?_ ?_ ?_
    · intro x
      rw [hp]
      obtain rfl | hx := eq_or_ne x b
      · simp [ref, hfree]
      · simp [ref, hx, Ne.symm hx]
    · intro c _ bid x pin hc
      obtain ⟨hsleep, hpins⟩ := h.counting c bid x pin hc
      refine ⟨?_, hpins⟩
      have hx : x ≠ b := by
        rintro rfl
        rw [hfree] at hsleep
        cases hsleep
      simpa [hx] using hsleep
    · intro x hx
      cases hx
    · exact fun c _ x hx => h.carried c x hx
  | brelse bid b hp hfree =>
    have hpos : 0 < s.cache.count b := h.count_pos_of_ref (a := a) (by rw [hp]; simp [ref])
    have hcount := count_decref hpos
    refine h.quiet rfl rfl rfl ?_ (by simp) ?_ ?_
    · intro x
      rw [hp]
      exact hcount x
    · intro x hx
      cases hx
    · intro c _ x hx
      have := hcount x
      rw [h.carried c x hx] at this
      exact Nat.eq_zero_of_add_eq_zero_right this
  | count bid b pin hp hfree =>
    exact h.repin hsmall hp

theorem Exact.startCount (h : Exact s) (hp : s.phase a = .outside)
    {pin : Bool} (hb : s.sleep b = some a ∧ s.pins b = if pin then 0 else 1) :
    Exact (s.goto a (.count bid b pin)) := by
  refine h.goto (a := a) rfl (by rw [hp]; exact fun _ => rfl) h.pins ?_
    (fun c _ bid x pin hx => h.counting c bid x pin hx) nofun (fun c _ x hx => h.carried c x hx)
  intro _ _ _ e
  cases e
  exact hb

theorem Exact.step {op : Op α} (h : Exact s) (hi : Inv s lists)
    (hsmall : Fintype.card α + 3 < 2 ^ 32) (hop : Disciplined s op) (hs : step s op = some s') :
    Exact s' := by
  cases op with
  | bget a dev blockno =>
    obtain ⟨hp, ⟨⟩⟩ := ite_none_right_eq_some.mp hs
    exact h.still rfl rfl rfl (fun _ => rfl) (by rw [hp]; exact fun _ => rfl) (by simp) rfl
  | brelse a b =>
    obtain ⟨hp, ⟨⟩⟩ := ite_none_right_eq_some.mp hs
    unfold startRelse
    split
    · rename_i hb
      refine h.goto rfl ?_ h.pins (by simp) ?_ ?_ ?_
      · intro x
        rw [hp]
        obtain rfl | hx := eq_or_ne x b
        · simp [ref, hb]
        · simp [ref, hx, Ne.symm hx]
      · intro c hc bid x pin hx
        obtain ⟨hsleep, hpins⟩ := h.counting c bid x pin hx
        refine ⟨?_, hpins⟩
        have hne : x ≠ b := by
          rintro rfl
          rw [hb] at hsleep
          exact hc (Option.some.inj hsleep).symm
        simpa [hne] using hsleep
      · intro x hx
        cases hx
      · exact fun c _ x hx => h.carried c x hx
    · exact h.still rfl rfl rfl (fun _ => rfl) (by rw [hp]; exact fun _ => rfl) (by simp) rfl
  | bpin a b | bunpin a b =>
    obtain ⟨hp, ⟨⟩⟩ := ite_none_right_eq_some.mp hs
    exact h.startCount hp hop
  | go a => exact h.turn hi hsmall (go_turn hs)
  | tick =>
    cases of_guard hs
    exact { h with }

theorem Exact.ident_stable {op : Op α} (h : Exact s) (hi : Inv s lists)
    (hs : BioLocks.step s op = some s') (b : BufId) (hb : s.cache.count b ≠ 0) :
    s'.cache.ident b = s.cache.ident b := by
  rcases step_cases hs with ⟨a, ht⟩ | ⟨a, ph, sleep, hp, hph, rfl⟩ | rfl
  · cases ht with
    | recycle dev blockno x hp hfree hmiss hx =>
      have hne : b ≠ x := by
        rintro rfl
        exact hb (count_eq_zero.mpr (hi.wf.victim_some hx).2)
      exact ident_claim_of_ne hne dev blockno
    | placing dev blockno x hp =>
      have hne : b ≠ x := by
        rintro rfl
        exact hb (h.carried a b (by rw [hp]; rfl))
      exact ident_claim_of_ne hne dev blockno
    | hit dev blockno x hp hfree hx => exact ident_incref x b
    | stamp bid x ret hp => exact ident_stamp x b
    | brelse bid x hp hfree => exact ident_decref x b
    | count bid x pin hp hfree =>
      cases pin with
      | true => exact ident_incref x b
      | false => exact ident_decref x b
    | _ => rfl
  · rfl
  · rfl

/-! ## Main result -/

def OnePlace (s : State α) (lists : Bucket → List BufId) (b : BufId) : Prop :=
  ((∃! k, b ∈ lists k) ∧ ∀ a, (s.phase a).carries ≠ some b) ∨
    ((∀ k, b ∉ lists k) ∧ ∃! a, (s.phase a).carries = some b)

omit [Fintype α] [DecidableEq α] in
theorem Inv.onePlace (h : Inv s lists) (b : BufId) : OnePlace s lists b := by
  rcases h.somewhere b with ⟨k, hk⟩ | ⟨a, ha⟩
  · left
    refine ⟨⟨k, hk, ?_⟩, fun a ha => h.loose a b ha ⟨k, hk⟩⟩
    intro j hj
    by_contra hne
    exact h.wf.disjoint j k hne b hj hk
  · right
    exact ⟨fun k hk => h.loose a b ha ⟨k, hk⟩, a, ha, fun c hc => h.carrier c a b hc ha⟩

/-- After any calls on any number of CPUs the lists are well formed, every buffer is in
its place and no two buffers of the lists stand for the same block.  After calls that
keep to the interface, the next step changes no buffer that has a reference. -/
theorem buffer_cache_unique (ops : List (Op α)) (s : State α)
    (hrun : run step init ops = some s) :
    (∃ lists, Wf s.cache lists ∧ ∀ b, OnePlace s lists b) ∧
      (Fintype.card α + 3 < 2 ^ 32 → Along step Disciplined init ops →
        ∀ op s', step s op = some s' → ∀ b, (s.cache.buf b).refcnt ≠ 0 →
          s'.cache.ident b = s.cache.ident b) := by
  obtain ⟨lists, hinv⟩ : ∃ lists, Inv s lists :=
    run_invariant (I := fun s => ∃ lists, Inv s lists)
      (fun _ _ _ h hs => h.elim fun _ h => h.step hs) ops init s ⟨initLists, Inv.init⟩ hrun
  refine ⟨⟨lists, hinv.wf, hinv.onePlace⟩, ?_⟩
  intro hsmall hdis op s' hs b hb
  have hexact : (∃ lists, Inv s lists) ∧ Exact s := by
    refine along_invariant (I := fun s => (∃ lists, Inv s lists) ∧ Exact s) ?_ ops init s
      ⟨⟨initLists, Inv.init⟩, Exact.init⟩ hdis hrun
    rintro t o t' ⟨⟨l, hl⟩, he⟩ ho hstep
    exact ⟨hl.step hstep, he.step hl hsmall ho hstep⟩
  exact hexact.2.ident_stable hinv hs b (fun h0 => hb (count_eq_zero.mp h0))

end Counting

def pinOne : List (Op (Fin 2)) :=
  .bget 0 1 27 :: List.replicate 29 (.go 0) ++ [.go 0, .bpin 0 29, .go 0, .go 0,
    .bget 1 1 27, .go 1]

theorem buffer_cache_unique_pinned : ∃ s : State (Fin 2),
    run step init pinOne = some s ∧ (∃ lists, Wf s.cache lists ∧ ∀ b, OnePlace s lists b) ∧
      ∀ op s', step s op = some s' → ∀ b, (s.cache.buf b).refcnt ≠ 0 →
        s'.cache.ident b = s.cache.ident b := by
  have hrun : (run step init pinOne).isSome := by decide +kernel
  obtain ⟨s, hs⟩ := Option.isSome_iff_exists.mp hrun
  obtain ⟨hlists, hident⟩ := buffer_cache_unique pinOne s hs
  exact ⟨s, hs, hlists, hident (by simp) (by decide +kernel)⟩

/-- CPU 0 holds 28 buffers in bucket 0, then takes the buffer of block 27 out of bucket 1 for
block 2.  CPU 1 misses block 27 and recycles the buffer of block 40 for it. -/
def duplicate : List (Op (Fin 2)) :=
  ((List.range 28).flatMap fun j => .bget 0 1 (NBUCKET * j) :: List.replicate 5 (.go 0)) ++
    .bget 0 1 40 :: List.replicate 30 (.go 0) ++ .bget 0 1 27 :: List.replicate 30 (.go 0) ++
    .brelse 0 1 :: List.replicate 4 (.go 0) ++ .brelse 0 0 :: List.replicate 4 (.go 0) ++
    .bget 0 1 2 :: List.replicate 25 (.go 0) ++ [.bget 1 1 27, .go 1]

def strayPin : List (Op (Fin 2)) :=
  .bget 0 1 27 :: List.replicate 25 (.go 0) ++ [.bpin 1 29, .go 1]

/-- A carried buffer is in no bucket and can show the same block as another buffer; and
the identity of a buffer with a reference changes when a CPU that does not hold the
buffer has pinned it. -/
theorem carried_buffer_anomalies :
    (∃ s, run step init duplicate = some s ∧ (∀ k, 0 ∉ bucket s.cache k) ∧
      s.cache.ident 0 = (1, 27) ∧ s.cache.ident 1 = (1, 27)) ∧
    ∃ s s', run step init strayPin = some s ∧ step s (.go 0) = some s' ∧
      (s.cache.buf 29).refcnt = 1 ∧ s'.cache.ident 29 ≠ s.cache.ident 29 := by
  refine ⟨?_, ?_⟩
  · exact run_test step init duplicate (fun s => (∀ k, 0 ∉ bucket s.cache k) ∧
      s.cache.ident 0 = (1, 27) ∧ s.cache.ident 1 = (1, 27)) (by decide +kernel)
  · obtain ⟨s, hs, hcnt, hid, hmove⟩ := run_test step init strayPin
      (fun s => (s.cache.buf 29).refcnt = 1 ∧ s.cache.ident 29 = (0, 0) ∧
        (step s (.go 0)).map (fun s' => s'.cache.ident 29) = some (1, 27)) (by decide +kernel)
    obtain ⟨s', hs', hid'⟩ := Option.map_eq_some_iff.mp hmove
    exact ⟨s, s', hs, hs', hcnt, by rw [hid, hid']; decide⟩

end BirdOS.BioLocks
