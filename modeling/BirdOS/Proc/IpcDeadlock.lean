import BirdOS.Proc.IpcLocks

/-! # Deadlock among the IPC locks and the process locks

A process that waits for a lock while it holds one does so in one of three ways: `wait`
takes a child's lock inside the parent's, a process lock is taken inside an IPC lock, or
an IPC lock inside a process lock.  The first follows the process tree, which has no
cycle because a slot that `fork` finds unused has no children.  As long as the other two
are not waited in at once, the locks have a rank that every waiting process climbs. -/

namespace BirdOS.IpcLocks

open List Function Machine
open Semaphore (SemId)

attribute [local simp] Phase.locks Table.setStatus Phase.after Table.birth Table.freeproc

/-! ## Process tree -/

def Status.alive : Status → Bool
  | .ready | .sleeping _ => true
  | _ => false

structure Forest (t : Table) : Prop where
  depth : ∃ d : Slot → Nat, d 0 = 0 ∧ ∀ q r, t.parent q = some r → d r < d q
  first : (t.status 0).alive = true
  parents : ∀ q r, t.parent q = some r → (t.status r).alive = true
  children : ∀ q r, t.parent q = some r → t.status q ≠ .unused

variable {q : Slot}

theorem Forest.parent_ne {t : Table} (h : Forest t) {r : Slot} (hp : t.parent q = some r) :
    q ≠ r := by
  obtain ⟨d, -, hd⟩ := h.depth
  rintro rfl
  exact lt_irrefl _ (hd q q hp)

structure Calm (t t' : Table) : Prop where
  parent : t'.parent = t.parent
  status : ∀ q, t'.status q = t.status q ∨
    (t.status q).alive = true ∧ (t'.status q).alive = true

theorem Calm.refl (t : Table) : Calm t t := ⟨rfl, fun _ => .inl rfl⟩

variable {t' : Table}

theorem Calm.alive {t : Table} (h : Calm t t') (hq : (t.status q).alive = true) :
    (t'.status q).alive = true := by
  rcases h.status q with he | he
  · rw [he]
    exact hq
  · exact he.2

theorem Calm.dead {t : Table} (h : Calm t t') {st : Status}
    (hst : st.alive = false) : t'.status q = st ↔ t.status q = st := by
  rcases h.status q with he | ⟨ha, ha'⟩
  · rw [he]
  constructor
  · intro heq
    rw [heq, hst] at ha'
    cases ha'
  · intro heq
    rw [heq, hst] at ha
    cases ha

theorem calm_setStatus {t : Table} {p : Slot} {st : Status} (hp : (t.status p).alive = true)
    (hst : st.alive = true) : Calm t (t.setStatus p st) where
  parent := rfl
  status := by
    intro q
    obtain rfl | hq := eq_or_ne q p
    · exact .inr ⟨hp, by simpa using hst⟩
    · exact .inl (by simp [hq])

theorem calm_wake (t : Table) (chan : Chan) (i : Slot) : Calm t (t.wake chan i) := by
  unfold Table.wake
  split
  · next hs => exact calm_setStatus (by rw [hs]; rfl) rfl
  · exact Calm.refl t

theorem Forest.calm {t : Table} (h : Forest t) (hc : Calm t t') : Forest t' where
  depth := by
    rw [hc.parent]
    exact h.depth
  first := hc.alive h.first
  parents := by
    rw [hc.parent]
    exact fun q r hp => hc.alive (h.parents q r hp)
  children := by
    rw [hc.parent]
    exact fun q r hp hu => h.children q r hp ((hc.dead rfl).mp hu)

theorem Forest.birth {t : Table} (h : Forest t) {p i : Slot} (hi : t.status i = .unused)
    (hp : (t.status p).alive = true) : Forest (t.birth p i) := by
  have hpi : p ≠ i := by
    rintro rfl
    rw [hi] at hp
    cases hp
  have hleaf : ∀ q r, t.parent q = some r → r ≠ i := by
    rintro q r hq rfl
    have halive := h.parents q r hq
    rw [hi] at halive
    cases halive
  have hstatus : ∀ r, (t.status r).alive = true → ((t.birth p i).status r).alive = true := by
    intro r hr
    obtain rfl | hri := eq_or_ne r i
    · simp [Status.alive]
    · simpa [hri] using hr
  have hparent : ∀ q r, (t.birth p i).parent q = some r →
      q = i ∧ r = p ∨ q ≠ i ∧ t.parent q = some r := by
    intro q r hq
    obtain rfl | hqi := eq_or_ne q i
    · simp at hq
      exact .inl ⟨rfl, hq.symm⟩
    · simp [hqi] at hq
      exact .inr ⟨hqi, hq⟩
  refine ⟨?_, hstatus 0 h.first, ?_, ?_⟩
  · obtain ⟨d, hd0, hd⟩ := h.depth
    have hi0 : (0 : Slot) ≠ i := by
      rintro rfl
      have halive := h.first
      rw [hi] at halive
      cases halive
    refine ⟨update d i (d p + 1), by rw [update_of_ne hi0, hd0], ?_⟩
    intro q r hq
    rcases hparent q r hq with ⟨rfl, rfl⟩ | ⟨hqi, hq⟩
    · rw [update_self, update_of_ne hpi]
      exact Nat.lt_succ_self _
    · rw [update_of_ne hqi, update_of_ne (hleaf q r hq)]
      exact hd q r hq
  · intro q r hq
    rcases hparent q r hq with ⟨-, rfl⟩ | ⟨-, hq⟩
    · exact hstatus r hp
    · exact hstatus r (h.parents q r hq)
  · intro q r hq
    rcases hparent q r hq with ⟨rfl, -⟩ | ⟨hqi, hq⟩
    · simp
    · simpa [hqi] using h.children q r hq

theorem Forest.freeproc {t : Table} (h : Forest t) {i : Slot} (hi : t.status i = .zombie) :
    Forest (t.freeproc i) := by
  have hdead : ∀ r, (t.status r).alive = true → r ≠ i := by
    rintro r hr rfl
    rw [hi] at hr
    cases hr
  have hstatus : ∀ r, (t.status r).alive = true → ((t.freeproc i).status r).alive = true := by
    intro r hr
    simpa [hdead r hr] using hr
  have hparent : ∀ q r, (t.freeproc i).parent q = some r → q ≠ i ∧ t.parent q = some r := by
    intro q r hq
    obtain rfl | hqi := eq_or_ne q i
    · simp at hq
    · exact ⟨hqi, by simpa [hqi] using hq⟩
  refine ⟨?_, hstatus 0 h.first, fun q r hq => hstatus r (h.parents q r (hparent q r hq).2), ?_⟩
  · obtain ⟨d, hd0, hd⟩ := h.depth
    exact ⟨d, hd0, fun q r hq => hd q r (hparent q r hq).2⟩
  · intro q r hq
    obtain ⟨hqi, hq⟩ := hparent q r hq
    simpa [hqi] using h.children q r hq

theorem exit_status (t : Table) {p : Slot} (pp : Slot) (hq : q ≠ p) :
    (t.exit p pp).status q = t.status q ∨
      (t.status q).alive = true ∧ ((t.exit p pp).status q).alive = true := by
  simp only [Table.exit, if_neg hq]
  split
  · next hs => exact .inr ⟨by rw [hs.2]; rfl, rfl⟩
  · exact .inl rfl

variable {pp : Slot}

theorem exit_alive {t : Table} {p : Slot} (hq : q ≠ p) (ha : (t.status q).alive = true) :
    ((t.exit p pp).status q).alive = true := by
  rcases exit_status t pp hq with he | he
  · rw [he]
    exact ha
  · exact he.2

theorem exit_parent {t : Table} {p r : Slot} (h : (t.exit p pp).parent q = some r) :
    t.parent q = some p ∧ r = 0 ∨ r ≠ p ∧ t.parent q = some r := by
  simp only [Table.exit] at h
  split at h
  · next hq => exact .inl ⟨hq, (Option.some.inj h).symm⟩
  · next hq => exact .inr ⟨fun hr => hq (hr ▸ h), h⟩

theorem Forest.exit {t : Table} (h : Forest t) {p : Slot} (hp0 : p ≠ 0) : Forest (t.exit p pp) := by
  refine ⟨?_, exit_alive (Ne.symm hp0) h.first, ?_, ?_⟩
  · obtain ⟨d, hd0, hd⟩ := h.depth
    refine ⟨d, hd0, ?_⟩
    intro q r hq
    rcases exit_parent hq with ⟨hqp, rfl⟩ | ⟨-, hqr⟩
    · rw [hd0]
      exact lt_of_le_of_lt zero_le (hd q p hqp)
    · exact hd q r hqr
  · intro q r hq
    rcases exit_parent hq with ⟨-, rfl⟩ | ⟨hr, hq⟩
    · exact exit_alive (Ne.symm hp0) h.first
    · exact exit_alive hr (h.parents q r hq)
  · intro q r hq hu
    obtain rfl | hqp := eq_or_ne q p
    · simp [Table.exit] at hu
    have hold : t.status q ≠ .unused := by
      rcases exit_parent hq with ⟨hq, -⟩ | ⟨-, hq⟩
      all_goals exact h.children q _ hq
    rcases exit_status t pp hqp with he | ⟨-, ha⟩
    · exact hold (he ▸ hu)
    · rw [hu] at ha
      cases ha

/-! ## What a phase knows of the table -/

def Phase.Ties (t : Table) (p : Slot) : Phase → Prop
  | .visiting i | .skipping i => t.parent i = some p
  | .releasemq2 i | .released i => t.parent i = some p ∧ t.status i = .zombie
  | .reaping i => i ≠ p
  | .addmqcount i | .counted i => t.status i = .unused
  | _ => True

theorem Phase.Ties.mono {t : Table} {p : Slot} {ph : Phase} (h : ph.Ties t p)
    (hparent : ∀ i, t.parent i = some p → t'.parent i = some p)
    (hzombie : ∀ i, t.parent i = some p → t.status i = .zombie → t'.status i = .zombie)
    (hunused : ∀ i, Lock.proc i ∈ ph.locks p → t.status i = .unused → t'.status i = .unused) :
    ph.Ties t' p := by
  cases ph with
  | visiting i | skipping i => exact hparent i h
  | releasemq2 i | released i => exact ⟨hparent i h.1, hzombie i h.1 h.2⟩
  | reaping i => exact h
  | addmqcount i | counted i => exact hunused i (by simp) h
  | _ => exact trivial

theorem Phase.Ties.calm {t : Table} {p : Slot} {ph : Phase} (h : ph.Ties t p)
    (hc : Calm t t') : ph.Ties t' p := by
  refine h.mono (fun i hi => hc.parent ▸ hi) ?_ ?_
  · exact fun i _ hz => (hc.dead rfl).mpr hz
  · exact fun i _ hu => (hc.dead rfl).mpr hu

inductive Effect (t : Table) (p : Slot) : Phase → Table → Phase → Prop where
  | calm {ph ph' : Phase} {t' : Table} (hc : Calm t t') (ht : ph'.Ties t' p) :
      Effect t p ph t' ph'
  | born (i : Slot) : Effect t p (.counted i) (t.birth p i) (.forked i)
  | freed (i : Slot) : Effect t p (.released i) (t.freeproc i) (.reaping i)

variable {ph' : Phase}

section Effect
variable {t : Table} {p : Slot} {ok : Bool} {ph : Phase}

theorem Effect.stay (ht : ph'.Ties t p) : Effect t p ph t ph' :=
  .calm (Calm.refl t) ht

theorem doze_effect (ha : (t.status p).alive = true) (chan : Chan) (k : Sleeper) :
    Effect t p ph (doze t p chan k).1 (doze t p chan k).2 :=
  .calm (calm_setStatus ha rfl) trivial

theorem scan_effect (ha : (t.status p).alive = true) (n : Nat) (havekids killed : Bool) :
    Effect t p ph (scan t p n havekids killed).1 (scan t p n havekids killed).2 := by
  unfold scan
  split
  · next np hf =>
    have hkid := find?_some hf
    exact .stay (of_decide_eq_true hkid).2
  split
  · exact doze_effect ha (.proc p) .wait
  · exact .stay trivial

theorem wakeups_effect (d : Dir) (n : Nat) : Effect t p ph (wakeups t d n).1 (wakeups t d n).2 := by
  cases n with
  | zero => cases d <;> exact .calm ⟨rfl, fun _ => .inl rfl⟩ trivial
  | succ n => exact .stay trivial

theorem tryMsg_effect (d : Dir) : Effect t p ph (tryMsg t d ok).1 (tryMsg t d ok).2 := by
  cases d <;> cases ok
  · exact .calm ⟨rfl, fun _ => .inl rfl⟩ trivial
  · exact wakeups_effect .snd t.rstart
  · exact .calm ⟨rfl, fun _ => .inl rfl⟩ trivial
  · exact wakeups_effect .rcv t.wstart

theorem after_effect (ok : Bool) (hties : ph.Ties t p) (ha : (t.status p).alive = true)
    (hf : Forest t) :
    Effect t p ph (ph.after t p ok).1 (ph.after t p ok).2 := by
  cases ph with
  | taking id => exact .calm ⟨rfl, fun _ => .inl rfl⟩ trivial
  | taken id short =>
    cases short
    · exact .stay trivial
    · exact doze_effect ha (.sem id) .semP
  | asleep k =>
    cases k with
    | semP | msg d => exact .stay trivial
    | wait => exact scan_effect ha 0 false _
  | semV id =>
    refine .calm ⟨rfl, fun _ => .inl rfl⟩ ?_
    simp only [Phase.after]
    split <;> exact trivial
  | waking w i => exact .calm (calm_wake t w.chan i) trivial
  | woken w i =>
    simp only [Phase.after]
    split
    · exact .stay trivial
    cases w with
    | semV id => exact .stay trivial
    | msg d left => exact wakeups_effect d left
  | msg d => exact tryMsg_effect d
  | handing d => exact doze_effect ha (.proc 0) (.msg d)
  | back d =>
    cases d with
    | snd => exact tryMsg_effect .snd
    | rcv => exact .stay trivial
  | allocproc i =>
    simp only [Phase.after]
    split
    · next hu =>
      cases ok
      · exact .stay trivial
      · exact .stay hu
    · exact .stay trivial
  | passing i =>
    simp only [Phase.after]
    split <;> exact .stay trivial
  | addmqcount i | releasemq2 i => exact .stay hties
  | counted i => exact .born i
  | wait => exact scan_effect ha 0 false _
  | visiting i =>
    simp only [Phase.after]
    split
    · next hz => exact .stay ⟨hties, hz⟩
    · exact .stay hties
  | skipping i => exact scan_effect ha (i.val + 1) true _
  | released i =>
    cases ok
    · exact .stay (hf.parent_ne hties.1)
    · exact .freed i
  | _ => exact .stay trivial

end Effect

/-! ## Locks held -/

section Locks
variable {t : Table} {p : Slot} {ok : Bool} {ph : Phase} {l : Lock}

theorem scan_locks (n : Nat) (havekids killed : Bool) :
    (scan t p n havekids killed).2.locks p = [.proc p] := by
  unfold scan
  split
  · rfl
  · split <;> rfl

theorem wakeups_locks (d : Dir) (n : Nat) : (wakeups t d n).2.locks p = [.mq] := by
  cases n with
  | zero => cases d <;> rfl
  | succ n => rfl

theorem tryMsg_locks (d : Dir) : (tryMsg t d ok).2.locks p = [.mq] := by
  cases d <;> cases ok
  · rfl
  · exact wakeups_locks .snd _
  · rfl
  · exact wakeups_locks .rcv _

theorem resume_locks (w : Waker) : (w.resume t).2.locks p = w.locks := by
  cases w with
  | semV id => rfl
  | msg d left => exact wakeups_locks d left

theorem acquire_locks (t : Table) (ok : Bool) (h : ph.lockOp p = some (.acquire l))
    (hph : ph ≠ .back .rcv) (k : Lock) :
    k ∈ (ph.after t p ok).2.locks p ↔ k = l ∨ k ∈ ph.locks p := by
  cases ph <;> cases h
  case semP id => simp
  case taking id => simp [or_comm]
  case asleep k' =>
    cases k' with
    | semP | msg d => simp
    | wait =>
      simp only [Phase.after, scan_locks]
      simp
  case semV id =>
    simp only [Phase.after]
    split <;> simp [Waker.locks]
  case waking w i => simp
  case msg d =>
    simp only [Phase.after, tryMsg_locks]
    simp
  case sleep d => simp [or_comm]
  case back d =>
    cases d with
    | snd =>
      simp only [Phase.after, tryMsg_locks]
      simp
    | rcv => exact absurd rfl hph
  case allocproc i =>
    simp only [Phase.after]
    split
    · cases ok <;> simp
    · simp
  case addmqcount i => simp [or_comm]
  case wait =>
    simp only [Phase.after, scan_locks]
    simp
  case visiting i =>
    simp only [Phase.after]
    split <;> simp [or_comm]
  case releasemq2 i =>
    simp only [Phase.after, Phase.locks, mem_cons, not_mem_nil, or_false]
    tauto

theorem release_held (h : ph.lockOp p = some (.release l)) : l ∈ ph.locks p := by
  cases ph <;> cases h <;> simp

theorem release_locks (ok : Bool) (h : ph.lockOp p = some (.release l)) (hties : ph.Ties t p)
    (hf : Forest t) (k : Lock) :
    k ∈ (ph.after t p ok).2.locks p ↔ k ≠ l ∧ k ∈ ph.locks p := by
  have hchild {i : Slot} (hi : i ≠ p) :
      k ∈ [Lock.proc p] ↔ k ≠ .proc i ∧ k ∈ [Lock.proc p, Lock.proc i] := by
    simp only [mem_cons, not_mem_nil, or_false]
    constructor
    · rintro rfl
      exact ⟨by simpa using Ne.symm hi, .inl rfl⟩
    · exact fun hk => hk.2.resolve_right hk.1
  cases ph <;> cases h
  case taken id short =>
    cases short <;> simp only [Phase.after, doze, Phase.locks] <;> grind
  case dozing k' => simp
  case leaving => simp
  case raised id => simp
  case woken w i =>
    have hw : Lock.proc i ∉ w.locks := by cases w <;> simp [Waker.locks]
    have hlocks : ((Phase.woken w i).after t p ok).2.locks p = w.locks := by
      simp only [Phase.after]
      split
      · rfl
      · exact resume_locks w
    rw [hlocks]
    simp only [Phase.locks, mem_cons]
    constructor
    · intro hk
      exact ⟨fun he => hw (he ▸ hk), .inr hk⟩
    · exact fun hk => hk.2.resolve_left hk.1
  case done => simp
  case handing d =>
    simp only [Phase.after, doze, Phase.locks]
    grind
  case rising d => simp
  case passing i =>
    simp only [Phase.after]
    split <;> simp
  case failing i => simp
  case counted i =>
    simp only [Phase.after, Phase.locks]
    grind
  case forked i => simp
  case skipping i =>
    simp only [Phase.after, scan_locks]
    exact hchild (hf.parent_ne hties)
  case released i =>
    simp only [Phase.after, Phase.locks]
    grind
  case reaping i => exact hchild hties

end Locks

/-! ## Invariant -/

structure Inv (s : State) : Prop where
  agrees : Locks.Agrees s.lock Point.locks s.point
  kept : ∀ p, (s.point p).kept = true → Lock.mq ∉ (s.phase p).locks p
  ties : ∀ p, (s.phase p).Ties s.table p
  alive : ∀ p, s.phase p ≠ .outside → (s.table.status p).alive = true
  forest : Forest s.table

theorem inv_init : Inv init where
  agrees := by
    intro l a
    simp [init, Point.locks]
  kept := fun p h => by cases h
  ties := fun _ => trivial
  alive := fun _ h => absurd rfl h
  forest := by
    refine ⟨⟨fun _ => 0, rfl, ?_⟩, rfl, ?_, ?_⟩
    all_goals
      intro q r h
      cases h

section Preserved
variable {s : State} {p : Slot}

theorem Inv.lock_of_mem (hi : Inv s) {l : Lock} (h : l ∈ (s.phase p).locks p) : s.lock l = some p :=
  (hi.agrees l p).mpr (mem_append_left _ h)

theorem Inv.other_ties (hi : Inv s) (h : Effect s.table p (s.phase p) t' ph') (hq : q ≠ p) :
    (s.phase q).Ties t' q := by
  have hties := hi.ties p
  generalize hph : s.phase p = ph at h hties
  cases h with
  | calm hc _ => exact (hi.ties q).calm hc
  | born i =>
    have hne : ∀ j, s.table.parent j = some q → j ≠ i := by
      rintro j hj rfl
      exact hi.forest.children j q hj hties
    refine (hi.ties q).mono ?_ ?_ ?_
    · intro j hj
      simpa [hne j hj] using hj
    · intro j hj hz
      simpa [hne j hj] using hz
    · intro j hj hu
      have hji : j ≠ i := by
        rintro rfl
        have hp := hi.lock_of_mem (p := p) (l := .proc j) (by rw [hph]; simp)
        rw [hi.lock_of_mem hj] at hp
        exact hq (Option.some.inj hp)
      simpa [hji] using hu
  | freed i =>
    have hne : ∀ j, s.table.parent j = some q → j ≠ i := by
      rintro j hj rfl
      rw [hties.1] at hj
      exact hq (Option.some.inj hj).symm
    refine (hi.ties q).mono ?_ ?_ ?_
    · intro j hj
      simpa [hne j hj] using hj
    · intro j hj hz
      simpa [hne j hj] using hz
    · intro j _ hu
      obtain rfl | hji := eq_or_ne j i
      · simp
      · simpa [hji] using hu

theorem Inv.effect (hi : Inv s)
    (h : Effect s.table p (s.phase p) t' ph') (hp : s.phase p ≠ .outside) :
    ph'.Ties t' p ∧ (∀ q, s.phase q ≠ .outside → (t'.status q).alive = true) ∧ Forest t' := by
  have hties := hi.ties p
  have hpa := hi.alive p hp
  generalize s.phase p = ph at h hties
  cases h with
  | calm hc ht => exact ⟨ht, fun q hq => hc.alive (hi.alive q hq), hi.forest.calm hc⟩
  | born i =>
    refine ⟨trivial, ?_, hi.forest.birth hties hpa⟩
    intro q hq
    obtain rfl | hqi := eq_or_ne q i
    · simp [Status.alive]
    · simpa [hqi] using hi.alive q hq
  | freed i =>
    refine ⟨hi.forest.parent_ne hties.1, ?_, hi.forest.freeproc hties.2⟩
    intro q hq
    have hqi : q ≠ i := by
      rintro rfl
      have halive := hi.alive q hq
      rw [hties.2] at halive
      cases halive
    simpa [hqi] using hi.alive q hq

theorem move_phase (ok : Bool) (lock : Lock → Option Slot) :
    (s.move p ok lock).phase p = ((s.phase p).after s.table p ok).2 := by
  simp [State.move, State.phase]

theorem move_kept (ok : Bool) (lock : Lock → Option Slot) (h : s.phase p ≠ .back .rcv) :
    ((s.move p ok lock).point p).kept = (s.point p).kept := by
  simp [State.move, h]

theorem Inv.move (hi : Inv s) {ok : Bool} {lock : Lock → Option Slot} (hp : s.phase p ≠ .outside)
    (hagrees : Locks.Agrees lock Point.locks (s.move p ok lock).point)
    (hkept : ((s.move p ok lock).point p).kept = true →
      Lock.mq ∉ ((s.move p ok lock).phase p).locks p) : Inv (s.move p ok lock) := by
  have heff := after_effect ok (hi.ties p) (hi.alive p hp) hi.forest
  obtain ⟨hties, halive, hforest⟩ := hi.effect heff hp
  have hother {q : Slot} (hq : q ≠ p) : (s.move p ok lock).point q = s.point q := by
    simp [State.move, hq]
  refine ⟨hagrees, ?_, ?_, ?_, hforest⟩
  · intro q hk
    obtain rfl | hq := eq_or_ne q p
    · exact hkept hk
    rw [State.phase, hother hq]
    rw [hother hq] at hk
    exact hi.kept q hk
  · intro q
    obtain rfl | hq := eq_or_ne q p
    · rw [move_phase]
      exact hties
    · rw [State.phase, hother hq]
      exact hi.other_ties heff hq
  · intro q hq
    obtain rfl | hqp := eq_or_ne q p
    · exact halive q hp
    · rw [State.phase, hother hqp] at hq
      exact halive q hq

theorem Inv.acquire (hi : Inv s) {l : Lock} (hop : (s.phase p).lockOp p = some (.acquire l))
    (hfree : s.lock l = none) (ok : Bool) : Inv (s.move p ok (update s.lock l (some p))) := by
  have hp : s.phase p ≠ .outside := by
    intro he
    rw [he] at hop
    cases hop
  -- a lock left held by `msgrcv` is not free
  have hmq : (s.point p).kept = true → l ≠ .mq := by
    rintro hk rfl
    have hheld : s.lock .mq = some p := (hi.agrees .mq p).mpr (by simp [Point.locks, hk])
    rw [hfree] at hheld
    cases hheld
  by_cases hback : s.phase p = .back .rcv
  · have hl : l = .mq := by
      rw [hback] at hop
      cases hop
      rfl
    refine hi.move hp (hi.agrees.acquire hfree ?_) ?_
    · intro k
      rw [hback]
      subst hl
      have hk : (s.point p).kept = false := by
        by_contra hk
        exact hmq (by simpa using hk) rfl
      have hph : (s.point p).phase = .back .rcv := hback
      simp [Point.locks, hk, hph]
    · rw [move_phase, hback]
      exact fun _ => not_mem_nil
  · have hlocks := fun k => acquire_locks s.table ok hop hback k
    refine hi.move hp (hi.agrees.acquire hfree ?_) ?_
    · intro k
      simp only [Point.locks, mem_append, hlocks k, hback, decide_false, Bool.or_false, or_assoc]
      rfl
    · intro hk
      rw [move_kept ok _ hback] at hk
      rw [move_phase, hlocks]
      rintro (h | h)
      · exact hmq hk h.symm
      · exact hi.kept p hk h

theorem Inv.release (hi : Inv s) {l : Lock} (hop : (s.phase p).lockOp p = some (.release l))
    (ok : Bool) : Inv (s.move p ok (update s.lock l none)) := by
  have hp : s.phase p ≠ .outside := by
    intro he
    rw [he] at hop
    cases hop
  have hback : s.phase p ≠ .back .rcv := by
    intro he
    rw [he] at hop
    cases hop
  have hheld := release_held hop
  have hmq : (s.point p).kept = true → l ≠ .mq := by
    rintro hk rfl
    exact hi.kept p hk hheld
  have hlocks := fun k => release_locks ok hop (hi.ties p) hi.forest k
  refine hi.move hp (hi.agrees.release (mem_append_left _ hheld) ?_) ?_
  · intro k
    simp only [Point.locks, mem_append, hlocks k, hback, decide_false, Bool.or_false]
    cases hk : (s.point p).kept with
    | false => simp [State.phase]
    | true =>
      have hkl : k = .mq → k ≠ l := fun he hl => hmq hk (hl ▸ he)
      simp only [State.phase, if_true, mem_singleton]
      tauto
  · intro hk
    rw [move_kept ok _ hback] at hk
    rw [move_phase, hlocks]
    exact fun h => hi.kept p hk h.2

theorem Inv.panic (hi : Inv s) : Inv { s with panicked := true } :=
  { hi with }

variable {s' : State}

theorem Inv.go (hi : Inv s) {ok : Bool} (h : go s p ok = some s') : Inv s' := by
  unfold IpcLocks.go at h
  cases hop : (s.phase p).lockOp p with
  | none => rw [hop] at h; cases h
  | some op =>
    rw [hop] at h
    cases op with
    | acquire l =>
      have h := of_guard h
      cases hl : s.lock l with
      | none =>
        rw [hl] at h
        cases h
        exact hi.acquire hop hl ok
      | some q =>
        rw [hl] at h
        cases of_guard h
        exact hi.panic
    | release l =>
      simp only at h
      split at h
      · cases h
        exact hi.panic
      · cases h
        exact hi.release hop ok

theorem Inv.call (hi : Inv s) (hout : s.phase p = .outside) (hready : s.table.status p = .ready)
    (c : Call) :
    Inv { s with point := update s.point p ⟨c.start, (s.point p).kept⟩ } := by
  have hstart : c.start.locks p = [] ∧ c.start.Ties s.table p := by
    cases c <;> exact ⟨rfl, trivial⟩
  have hlocks : (s.phase p).locks p = [] := by rw [hout]; rfl
  refine ⟨hi.agrees.move ?_, ?_, ?_, ?_, hi.forest⟩
  · intro k
    rw [Point.locks, Point.locks, hstart.1, show (s.point p).phase.locks p = [] from hlocks]
  · intro q hk
    obtain rfl | hq := eq_or_ne q p
    · simp [State.phase, hstart.1, -Phase.locks]
    · simp only [State.phase, update_of_ne hq] at hk ⊢
      exact hi.kept q hk
  · intro q
    obtain rfl | hq := eq_or_ne q p
    · simpa [State.phase] using hstart.2
    · simp only [State.phase, update_of_ne hq]
      exact hi.ties q
  · intro q hq
    obtain rfl | hqp := eq_or_ne q p
    · show (s.table.status q).alive = true
      rw [hready]
      rfl
    · simp only [State.phase, update_of_ne hqp] at hq
      exact hi.alive q hq

theorem Inv.exit (hi : Inv s) (hout : s.phase p = .outside) (hready : s.table.status p = .ready)
    (h : exit s p = some s') : Inv s' := by
  unfold IpcLocks.exit at h
  split at h
  · cases h
    exact hi.panic
  · next hne =>
    have hp0 : p ≠ 0 := fun h => hne (.inl h)
    cases hpp : s.table.parent p with
    | none => rw [hpp] at h; cases h
    | some pp =>
      rw [hpp] at h
      cases of_guard h
      refine ⟨hi.agrees, hi.kept, ?_, ?_, hi.forest.exit hp0⟩
      · intro q
        obtain rfl | hq := eq_or_ne q p
        · show (s.phase q).Ties _ q
          rw [hout]
          trivial
        refine (hi.ties q).mono ?_ ?_ ?_
        · intro i hqi
          have hip : s.table.parent i ≠ some p := by
            rw [hqi]
            exact fun he => hq (Option.some.inj he)
          simpa [Table.exit, hip] using hqi
        · intro i _ hz
          by_cases hip : i = p
          · simp [Table.exit, hip]
          rcases exit_status s.table pp hip with he | ⟨ha, -⟩
          · rw [he, hz]
          · rw [hz] at ha
            cases ha
        · intro i _ hu
          by_cases hip : i = p
          · rw [hip, hready] at hu
            cases hu
          rcases exit_status s.table pp hip with he | ⟨ha, -⟩
          · rw [he, hu]
          · rw [hu] at ha
            cases ha
      · intro q hq
        have hqp : q ≠ p := by
          rintro rfl
          exact hq hout
        exact exit_alive hqp (hi.alive q hq)

theorem Inv.setSem (hi : Inv s) (id : SemId) (n : Int) :
    Inv { s with table := s.table.setCount id n } where
  agrees := hi.agrees
  kept := hi.kept
  ties := fun q => (hi.ties q).calm ⟨rfl, fun _ => .inl rfl⟩
  alive := hi.alive
  forest := hi.forest.calm ⟨rfl, fun _ => .inl rfl⟩

theorem Inv.step (hi : Inv s) {op : Op} (h : step s op = some s') : Inv s' := by
  unfold IpcLocks.step at h
  split at h
  · cases h
  cases op with
  | call p c =>
    obtain ⟨⟨hout, hready⟩, ⟨⟩⟩ := Option.ite_none_right_eq_some.mp h
    exact hi.call hout hready c
  | go p ok => exact hi.go h
  | exit p =>
    obtain ⟨⟨hout, hready⟩, h⟩ := Option.ite_none_right_eq_some.mp h
    exact hi.exit hout hready h
  | setSem id n =>
    cases of_guard h
    exact hi.setSem id n

end Preserved

/-! ## Ranks -/

inductive Nested (t : Table) : Lock → Lock → Prop where
  | child {q r : Slot} (h : t.parent q = some r) : Nested t (.proc r) (.proc q)
  | procInIpc {k l : Lock} (hk : k.isIpc = true) (hl : l.isProc = true) : Nested t k l
  | ipcInProc {k l : Lock} (hk : k.isProc = true) (hl : l.isIpc = true) : Nested t k l
  | sem (id : SemId) : Nested t .mq (.sem id)
  | again {k : Lock} : Nested t k k

theorem nested_mq (t : Table) (l : Lock) : Nested t .mq l := by
  cases l with
  | proc q => exact .procInIpc rfl rfl
  | sem id => exact .sem id
  | mq => exact .again

theorem Phase.nested {t : Table} {p : Slot} {ph : Phase} {k l : Lock}
    (h : ph.lockOp p = some (.acquire l)) (hties : ph.Ties t p) (hk : k ∈ ph.locks p) :
    Nested t k l := by
  cases ph <;> cases h
  case taking id =>
    rw [mem_singleton.mp hk]
    exact .ipcInProc rfl rfl
  case waking w i =>
    have hipc : k.isIpc = true := by
      cases w <;> rw [mem_singleton.mp hk] <;> rfl
    exact .procInIpc hipc rfl
  case sleep d =>
    rw [mem_singleton.mp hk]
    exact nested_mq t _
  case addmqcount i =>
    rw [mem_singleton.mp hk]
    exact .ipcInProc rfl rfl
  case visiting i =>
    rw [mem_singleton.mp hk]
    exact .child hties
  case releasemq2 i =>
    rcases mem_cons.mp hk with rfl | hk
    · exact .ipcInProc rfl rfl
    · rw [mem_singleton.mp hk]
      exact .ipcInProc rfl rfl
  all_goals cases hk

section Ranks
variable {s : State} {p : Slot} {k l : Lock}

theorem waits_some (h : s.waits p = some l) :
    (s.phase p).lockOp p = some (.acquire l) ∧ s.lock l ≠ some p := by
  obtain ⟨hw, hl⟩ := Option.filter_eq_some_iff.mp h
  refine ⟨?_, (of_decide_eq_true hl).2⟩
  unfold State.wants at hw
  split at hw
  · next l' hop =>
    have hw := of_guard hw
    rw [hop, Option.some.inj hw]
  · cases hw

theorem Inv.nested (hi : Inv s) (hl : s.waits p = some l) (hk : s.lock k = some p) :
    Nested s.table k l ∧ k ≠ l := by
  obtain ⟨hop, hne⟩ := waits_some hl
  refine ⟨?_, fun he => hne (he ▸ hk)⟩
  rcases mem_append.mp ((hi.agrees k p).mp hk) with hk | hk
  · exact Phase.nested hop (hi.ties p) hk
  split at hk
  · rw [mem_singleton.mp hk]
    exact nested_mq s.table l
  · cases hk

/-- Process locks by their depth in the tree, at most `top`, below the IPC locks. -/
def rankProcFirst (d : Slot → Nat) (top : Nat) : Lock → Nat
  | .proc q => d q
  | .mq => top + 1
  | .sem _ => top + 2

def rankIpcFirst (d : Slot → Nat) : Lock → Nat
  | .mq => 0
  | .sem _ => 1
  | .proc q => d q + 2

variable {d : Slot → Nat} {top : Nat}

theorem rankProcFirst_le (htop : ∀ q, d q ≤ top) (l : Lock) :
    rankProcFirst d top l ≤ top + 2 := by
  cases l with
  | proc q => exact Nat.le_add_right_of_le (htop q)
  | sem id => exact le_rfl
  | mq => exact Nat.le_succ _

theorem rankIpcFirst_le (htop : ∀ q, d q ≤ top) (l : Lock) :
    rankIpcFirst d l ≤ top + 2 := by
  cases l with
  | proc q => exact Nat.add_le_add_right (htop q) 2
  | sem id => exact Nat.le_add_left 1 _
  | mq => exact zero_le

theorem Inv.ordered_procFirst (hi : Inv s)
    (hd : ∀ q r, s.table.parent q = some r → d r < d q) (htop : ∀ q, d q ≤ top)
    (hs : s.procInIpc p = false) :
    Locks.Ordered s.lock s.waits (rankProcFirst d top) p := by
  intro l hl k hk
  obtain ⟨hn, hne⟩ := hi.nested hl hk
  cases hn with
  | child h => exact hd _ _ h
  | procInIpc hki hlp =>
    have hmem := (hi.agrees k p).mp hk
    rw [State.procInIpc, hl, Option.any_some, hlp, Bool.true_and, any_eq_false] at hs
    exact absurd hki (hs k hmem)
  | ipcInProc hkp hli =>
    cases k with
    | proc q =>
      cases l with
      | proc r => cases hli
      | sem id => exact Nat.lt_succ_of_le (Nat.le_succ_of_le (htop q))
      | mq => exact Nat.lt_succ_of_le (htop q)
    | _ => cases hkp
  | sem id => exact Nat.lt_succ_self _
  | again => exact absurd rfl hne

theorem Inv.ordered_ipcFirst (hi : Inv s)
    (hd : ∀ q r, s.table.parent q = some r → d r < d q) (hs : s.ipcInProc p = false) :
    Locks.Ordered s.lock s.waits (rankIpcFirst d) p := by
  intro l hl k hk
  obtain ⟨hn, hne⟩ := hi.nested hl hk
  cases hn with
  | child h => exact Nat.add_lt_add_right (hd _ _ h) 2
  | procInIpc hki hlp =>
    cases l with
    | proc q =>
      cases k with
      | proc r => cases hki
      | sem id => exact Nat.le_add_left 2 _
      | mq => exact Nat.succ_pos _
    | _ => cases hlp
  | ipcInProc hkp hli =>
    have hmem := (hi.agrees k p).mp hk
    rw [State.ipcInProc, hl, Option.any_some, hli, Bool.true_and, any_eq_false] at hs
    exact absurd hkp (hs k hmem)
  | sem id => exact Nat.one_pos
  | again => exact absurd rfl hne

theorem Inv.not_deadlock (hi : Inv s) (hs : Staggered s) (D : Set Slot) :
    ¬ Locks.Deadlock s.lock s.waits D := by
  obtain ⟨d, -, hd⟩ := hi.forest.depth
  have htop : ∀ q, d q ≤ Finset.univ.sup d := fun q => Finset.le_sup (Finset.mem_univ q)
  rcases hs with hs | hs
  · exact Locks.not_deadlock_of_rank (rankProcFirst d _) _ (rankProcFirst_le htop)
      (fun p => .inl (hi.ordered_procFirst hd htop (hs p))) D
  · exact Locks.not_deadlock_of_rank (rankIpcFirst d) _ (rankIpcFirst_le htop)
      (fun p => .inl (hi.ordered_ipcFirst hd (hs p))) D

end Ranks

theorem staggered_init : Staggered init := by
  left
  decide +kernel

/-- In a run that never waits in both lock orders at once, no set of processes waits for
one another's locks. -/
theorem ipc_deadlock_free (ops : List Op) (s : State)
    (hgood : Along step Disciplined init ops)
    (hrun : run step init ops = some s) (D : Set Slot) :
    ¬ Locks.Deadlock s.lock s.waits D := by
  have hinv : Inv s ∧ Staggered s := by
    refine along_invariant (I := fun s => Inv s ∧ Staggered s) ?_ ops init s
      ⟨inv_init, staggered_init⟩ hgood hrun
    intro s op s' hs hop h
    exact ⟨hs.1.step h, hop s' h⟩
  exact hinv.1.not_deadlock hinv.2 D

def goes (p : Slot) (n : Nat) : List Op := replicate n (.go p true)

def contended : List Op :=
  [.setSem 0 1, .call 0 .fork] ++ goes 0 6 ++ [.call 0 (.semV 0)] ++ goes 0 1 ++
    [.call 1 (.semP 0)] ++ goes 1 1

theorem ipc_deadlock_free_contended : Along step Disciplined init contended ∧
      ∃ s, run step init contended = some s ∧
        (s.waits 1 = some (.sem 0) ∧ s.lock (.sem 0) = some 0) ∧
        ∀ D, ¬ Locks.Deadlock s.lock s.waits D := by
  have hgood : Along step Disciplined init contended := by decide +kernel
  obtain ⟨s, hrun, hs⟩ := run_test step init contended
    (fun s => s.waits 1 = some (.sem 0) ∧ s.lock (.sem 0) = some 0) (by decide +kernel)
  exact ⟨hgood, s, hrun, hs, ipc_deadlock_free contended s hgood hrun⟩

/-- A process outside the calls has no lock but an `mqlock` kept by `msgrcv`; no process is its
own ancestor, and every parent lives. -/
theorem ipc_locks_released (s : State) (h : Reachable step init s) :
    (∀ p l, s.phase p = .outside → s.lock l = some p →
      l = .mq ∧ (s.point p).kept = true) ∧
    (∀ q, ¬ Relation.TransGen (fun q r => s.table.parent q = some r) q q) ∧
    ∀ q r, s.table.parent q = some r → (s.table.status r).alive = true := by
  have hi : Inv s := reachable_invariant inv_init (fun _ _ _ hi h => hi.step h) h
  refine ⟨fun p l hout hl => ?_, fun q hq => ?_, hi.forest.parents⟩
  · have hmem := (hi.agrees l p).mp hl
    rw [Point.locks, show (s.point p).phase = .outside from hout] at hmem
    cases hk : (s.point p).kept <;> simp_all [Phase.locks]
  · obtain ⟨d, -, hd⟩ := hi.forest.depth
    have hlt : ∀ r, Relation.TransGen (fun q r => s.table.parent q = some r) q r → d r < d q := by
      intro r hr
      induction hr with
      | single h => exact hd _ _ h
      | tail _ h ih => exact (hd _ _ h).trans ih
    exact lt_irrefl _ (hlt q hq)

theorem ipc_locks_released_forked : ∃ s, Reachable step init s ∧ s.table.parent 1 = some 0 ∧
      s.phase 0 = .outside ∧ ∀ l, s.lock l = some 0 → l = .mq ∧ (s.point 0).kept = true := by
  obtain ⟨s, hrun, hparent, hout⟩ := run_test step init ([.call 0 .fork] ++ goes 0 6)
    (fun s => s.table.parent 1 = some 0 ∧ s.phase 0 = .outside) (by decide +kernel)
  exact ⟨s, ⟨_, hrun⟩, hparent, hout, fun l => (ipc_locks_released s ⟨_, hrun⟩).1 0 l hout⟩

def closing : List Op :=
  [.setSem 0 1, .call 0 .fork] ++ goes 0 6 ++ [.call 0 .fork] ++ goes 0 8 ++
    [.call 0 (.semP 0)] ++ goes 0 4 ++ [.call 1 (.semP 0)] ++ goes 1 4 ++
    [.call 2 (.semP 0)] ++ goes 2 1 ++ [.call 0 (.semV 0)] ++ goes 0 5

theorem sem_calls_deadlock : ∃ s, run step init closing = some s ∧ s.panicked = false ∧
      Locks.Deadlock s.lock s.waits {0, 2} := by
  obtain ⟨s, hrun, hpanic, hsem, hproc, hw0, hw2⟩ := run_test step init closing
    (fun s => s.panicked = false ∧ s.lock (.sem 0) = some 0 ∧ s.lock (.proc 2) = some 2 ∧
      s.waits 0 = some (.proc 2) ∧ s.waits 2 = some (.sem 0)) (by decide +kernel)
  exact ⟨s, hrun, hpanic, Locks.deadlock_pair (by decide) hsem hproc hw0 hw2⟩

end BirdOS.IpcLocks
