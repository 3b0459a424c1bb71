import BirdOS.Fs.JournalRefs

/-! # The invariant of the running system

The reference counts are known, every valid buffer that the logger does not hold has the
contents its block has for the processes, and the logger's code is safe from where it is. -/

namespace BirdOS.Journal

open Bio Fs Tally Function

def waits (b : BufId) (w : Option BufId) : Nat := if w = some b then 1 else 0

def slept (holder : Option Slot) : Nat := if holder = none then 0 else 1

def State.users (s : State) (b : BufId) : Nat := tally (waits b) s.wait + slept (s.sleep b)

def State.held (s : State) (b : BufId) : Nat × Block := (s.blockno b, s.data b)

def State.hand (s : State) (plus : List Nat) : Hand :=
  ⟨s.disk, (s.reg .log).map s.held, (s.reg .home).map s.held, s.log.block, s.durable, plus,
    s.recovered⟩

theorem hand_reg (s : State) (plus : List Nat) (r : Reg) :
    (s.hand plus).reg r = (s.reg r).map s.held := by
  cases r <;> rfl

variable {s' : State}

section Users
variable {s : State} {p : Slot} {b : BufId}

theorem users_le (s : State) (b : BufId) : s.users b ≤ NPROC + 1 := by
  have htally : tally (waits b) s.wait ≤ NPROC := by
    refine (tally_le_card (fun w => ?_) s.wait).trans (by rw [Fintype.card_fin])
    unfold waits
    split <;> decide
  have hslept : slept (s.sleep b) ≤ 1 := by
    unfold slept
    split <;> decide
  unfold State.users
  omega

theorem users_ne_zero_of_sleep (h : s.sleep b ≠ none) : s.users b ≠ 0 := by
  unfold State.users slept
  rw [if_neg h]
  omega

theorem users_ne_zero_of_wait (h : s.wait p = some b) : s.users b ≠ 0 := by
  have := le_tally (waits b) s.wait p
  rw [h, waits, if_pos rfl] at this
  unfold State.users
  omega

theorem waits_none (x : BufId) : waits x none = 0 := rfl

theorem waits_some (x b : BufId) : waits x (some b) = if b = x then 1 else 0 := by
  simp [waits]

theorem users_wait (hw : s.wait p = none) (hwait : s'.wait = update s.wait p (some b))
    (hsleep : s'.sleep = s.sleep) (x : BufId) : s'.users x = s.users x + if b =
      x then 1 else 0 := by
  have htally := tally_update (waits x) s.wait p (some b)
  rw [hw, waits_none, waits_some] at htally
  unfold State.users
  rw [hwait, hsleep]
  omega

theorem users_acquire (hw : s.wait p = some b) (hs : s.sleep b = none) (x : BufId) :
    (s.acquire p b).users x = s.users x := by
  have htally := tally_update (waits x) s.wait p none
  rw [hw, waits_none, waits_some] at htally
  simp only [State.users, State.acquire]
  obtain rfl | hx := eq_or_ne x b
  · rw [if_pos rfl] at htally
    rw [update_self, hs, show slept (some p) = 1 from rfl, show slept none = 0 from rfl]
    omega
  rw [if_neg (Ne.symm hx)] at htally
  rw [update_of_ne hx]
  omega

theorem users_sleep (s' : State) (hs : s.sleep b ≠ none) (hwait : s'.wait = s.wait)
    (hsleep : s'.sleep = update s.sleep b none) (x : BufId) :
    s'.users x + (if b = x then 1 else 0) = s.users x := by
  unfold State.users
  rw [hwait, hsleep]
  obtain rfl | hx := eq_or_ne x b
  · rw [update_self, if_pos rfl, slept, slept, if_pos rfl, if_neg hs]
  · rw [update_of_ne hx, if_neg (Ne.symm hx), add_zero]

theorem users_congr (hwait : s'.wait = s.wait) (hsleep : s'.sleep = s.sleep) :
    s'.users = s.users := by
  funext x
  unfold State.users
  rw [hwait, hsleep]

end Users

/-! ## The invariant -/

section Invariant
variable (sb : Superblock)

structure Working (s : State) (plus : List Nat) (p : Slot) : Prop where
  logger : s.logger = some p
  safe : Safe sb s.running s.history (Post sb s.history s.next) s.code (s.hand plus)
  next : s.next = .finish ↔ s.running = true
  group : s.history.group = []
  outside : ∀ q, s.inOp q = false

structure Idle (s : State) (plus : List Nat) : Prop where
  logger : s.logger = none
  running : s.running = true
  block : s.log.block = plus
  sound : Sound sb s.running s.history s.disk s.durable plus
  header : getHeader (s.disk sb.logstart) = []
  durable : s.durable = s.history.groups.length
  logged : ∀ blk, blk ∈ plus ↔ ∃ v, (blk, v) ∈ s.history.group
  ok : HeaderOk sb plus

structure Booting (s : State) : Prop where
  logger : s.logger = some 0
  wait : ∀ p, p ≠ 0 → s.wait p = none
  sleep : ∀ b, s.sleep b ≠ none → ∃ r, s.reg r = some b

structure Inv (s : State) (plus : List Nat) : Prop where
  counts : Counts s.cache s.users s.pins plus s.recovered
  small : ∀ b, s.blockno b < 2 ^ 32
  clean : ∀ b, s.users b ≠ 0 → (s.running = true ∨ ∀ r, s.reg r ≠ some b) →
    s.blockno b ∉ s.recovered
  owner : ∀ r b, s.reg r = some b → ∃ p, s.logger = some p ∧ s.sleep b = some p
  distinct : ∀ r r' b, s.reg r = some b → s.reg r' = some b → r = r'
  waiting : ∀ p b, s.logger = some p → s.wait p = some b →
    ∃ r blk c, s.code = .bread r blk :: c ∧ s.cache.ident b = (ROOTDEV, blk)
  locked : ∀ b, s.sleep b ≠ none → (s.cache.buf b).valid = true
  pinned : ∀ b, (s.cache.buf b).dev = ROOTDEV → s.blockno b ∈ plus → (s.cache.buf b).valid = true
  coherent : ∀ b, (s.cache.buf b).valid = true → (∀ r, s.reg r ≠ some b) →
    s.data b = seen sb s.running s.history s.disk (s.blockno b)
  size : s.log.size = sb.nlog
  outstanding : s.log.outstanding = tally Bool.toNat s.inOp
  committing : s.log.committing = (s.running && s.logger.isSome)
  returned : s.returned ≤ s.durable
  durable : s.durable ≤ s.history.groups.length
  recovered : ∀ blk ∈ s.recovered, Home sb blk
  booting : s.running = false → Booting s
  task : (∃ p, Working sb s plus p) ∨ Idle sb s plus

end Invariant

variable {sb : Superblock} {s : State} {plus : List Nat} {p : Slot} {b : BufId}

theorem Inv.sound (h : Inv sb s plus) : Sound sb s.running s.history s.disk s.durable plus := by
  rcases h.task with ⟨p, hw⟩ | hidle
  · exact hw.safe.sound
  · exact hidle.sound

structure Apart (s s' : State) : Prop where
  disk : s'.disk = s.disk
  inOp : s'.inOp = s.inOp
  log : s'.log = s.log
  logger : s'.logger = s.logger
  code : s'.code = s.code
  next : s'.next = s.next
  reg : s'.reg = s.reg
  running : s'.running = s.running
  recovered : s'.recovered = s.recovered
  history : s'.history = s.history
  durable : s'.durable = s.durable
  returned : s'.returned = s.returned
  held : ∀ r x, s.reg r = some x → s'.held x = s.held x

theorem Apart.hand (h : Apart s s') : s'.hand plus = s.hand plus := by
  have hreg (r : Reg) : (s'.reg r).map s'.held = (s.reg r).map s.held := by
    rw [h.reg]
    cases hr : s.reg r with
    | none => rfl
    | some x => exact congrArg some (h.held r x hr)
  unfold State.hand
  rw [h.disk, hreg .log, hreg .home, h.log, h.durable, h.recovered]

theorem Apart.task (h : Apart s s') (ht : (∃ p, Working sb s plus p) ∨ Idle sb s plus) :
    (∃ p, Working sb s' plus p) ∨ Idle sb s' plus := by
  rcases ht with ⟨p, hw⟩ | hi
  · left
    refine ⟨p, h.logger.trans hw.logger, ?_, ?_, ?_, ?_⟩
    · rw [h.running, h.history, h.next, h.code, h.hand]
      exact hw.safe
    · rw [h.next, h.running]
      exact hw.next
    · rw [h.history]
      exact hw.group
    · rw [h.inOp]
      exact hw.outside
  · right
    refine ⟨h.logger.trans hi.logger, h.running.trans hi.running, ?_, ?_, ?_, ?_, ?_, hi.ok⟩
    · rw [h.log]
      exact hi.block
    · rw [h.running, h.history, h.disk, h.durable]
      exact hi.sound
    · rw [h.disk]
      exact hi.header
    · rw [h.history, h.durable]
      exact hi.durable
    · rw [h.history]
      exact hi.logged

theorem Inv.apart (h : Inv sb s plus) (s' : State) (ha : Apart s s')
    (hcounts : Counts s'.cache s'.users s'.pins plus s.recovered)
    (hsmall : ∀ b, s'.blockno b < 2 ^ 32)
    (hclean : ∀ b, s'.users b ≠ 0 → (s.running = true ∨ ∀ r, s.reg r ≠ some b) →
      s'.blockno b ∉ s.recovered)
    (howner : ∀ r b p, s.reg r = some b → s.sleep b = some p → s.logger = some p →
      s'.sleep b = some p) (hwaiting : ∀ p b, s.logger = some p → s'.wait p = some b →
      ∃ r blk c, s.code = .bread r blk :: c ∧ s'.cache.ident b = (ROOTDEV, blk))
    (hlocked : ∀ b, s'.sleep b ≠ none → (s'.cache.buf b).valid = true)
    (hpinned : ∀ b, (s'.cache.buf b).dev = ROOTDEV → s'.blockno b ∈ plus →
      (s'.cache.buf b).valid = true)
    (hcoherent : ∀ b, (s'.cache.buf b).valid = true → (∀ r, s.reg r ≠ some b) →
      s'.data b = seen sb s.running s.history s.disk (s'.blockno b))
    (hwait : s.running = false → ∀ p, p ≠ 0 → s'.wait p = none)
    (hsleep : s.running = false → ∀ b, s'.sleep b ≠ none → ∃ r, s.reg r = some b) :
    Inv sb s' plus where
  counts := by
    rw [ha.recovered]
    exact hcounts
  small := hsmall
  clean := by
    rw [ha.running, ha.reg, ha.recovered]
    exact hclean
  owner := by
    rw [ha.reg, ha.logger]
    intro r b hr
    obtain ⟨p, hp, hb⟩ := h.owner r b hr
    exact ⟨p, hp, howner r b p hr hb hp⟩
  distinct := by
    rw [ha.reg]
    exact h.distinct
  waiting := by
    rw [ha.logger, ha.code]
    exact hwaiting
  locked := hlocked
  pinned := hpinned
  coherent := by
    rw [ha.reg, ha.running, ha.history, ha.disk]
    exact hcoherent
  size := by
    rw [ha.log]
    exact h.size
  outstanding := by
    rw [ha.log, ha.inOp]
    exact h.outstanding
  committing := by
    rw [ha.log, ha.running, ha.logger]
    exact h.committing
  returned := by
    rw [ha.returned, ha.durable]
    exact h.returned
  durable := by
    rw [ha.durable, ha.history]
    exact h.durable
  recovered := by
    rw [ha.recovered]
    exact h.recovered
  booting := by
    intro hr
    rw [ha.running] at hr
    refine ⟨ha.logger.trans (h.booting hr).logger, hwait hr, ?_⟩
    rw [ha.reg]
    exact hsleep hr
  task := ha.task h.task

theorem Inv.halt (h : Inv sb s plus) : Inv sb { s with halted := true } plus :=
  h.apart _ ⟨rfl, rfl, rfl, rfl, rfl, rfl, rfl, rfl, rfl, rfl, rfl, rfl, fun _ _ _ =>
    rfl⟩ h.counts h.small h.clean
    (fun _ _ _ _ hs _ => hs) h.waiting h.locked h.pinned h.coherent
    (fun hr => (h.booting hr).wait) (fun hr => (h.booting hr).sleep)

theorem Inv.tick (h : Inv sb s plus) (t : UInt32) :
    Inv sb { s with cache := { s.cache with ticks := t } } plus :=
  h.apart _ ⟨rfl, rfl, rfl, rfl, rfl, rfl, rfl, rfl, rfl, rfl, rfl, rfl, fun _ _ _ => rfl⟩
    (h.counts.tick t)
    h.small h.clean (fun _ _ _ _ hs _ => hs) h.waiting h.locked h.pinned h.coherent
    (fun hr => (h.booting hr).wait) (fun hr => (h.booting hr).sleep)

/-! ## `bread` and `brelse` -/

variable {x : BufId}

theorem Counts.bget_used {c c' : Cache} {users : BufId → Nat} {pins : BufId → Int}
    {minus : List Nat} {b : BufId} {blk : Nat} (h : Counts c users pins plus minus)
    (hgot : Got c ROOTDEV blk c' b) (hclean : ∀ x, users x ≠ 0 → (c.buf x).blockno ∉ minus)
    (hx : users x ≠ 0) : c'.ident x = c.ident x ∧ (c'.buf x).valid = (c.buf x).valid := by
  obtain rfl | hxb := eq_or_ne x b
  · rcases hgot.source with ⟨hid, hvalid⟩ | ⟨h0, -, -⟩
    · exact ⟨hgot.ident.trans hid.symm, hvalid⟩
    · exact absurd (h.unused h0 (hclean x)).1 hx
  · rw [Cache.ident, Cache.ident, hgot.other x hxb]
    exact ⟨rfl, rfl⟩

theorem Inv.bget (h : Inv sb s plus) {blk : Nat} (hw : s.wait p = none) (hsmall : blk < 2 ^ 32)
    (hfresh : blk ∉ s.recovered) (hclean : ∀ x, s.users x ≠ 0 → s.blockno x ∉ s.recovered)
    (hlogger : s.logger = some p → ∃ r c, s.code = .bread r blk :: c)
    (hboot : s.running = false → p = 0) : Inv sb (s.bget p blk) plus := by
  unfold State.bget
  cases hget : Bio.bget s.cache ROOTDEV blk with
  | none => exact h.halt
  | some found =>
    obtain ⟨c, b⟩ := found
    obtain ⟨lists, hwf, hfull⟩ := h.counts.lists
    obtain ⟨hgot, hlists⟩ := bget_spec hwf hfull (by decide) hget
    have hused (x : BufId) (hx : s.users x ≠ 0) := h.counts.bget_used hgot hclean hx
    let s' : State := { s with cache := c, wait := update s.wait p (some b) }
    have husers : ∀ x, s'.users x = s.users x + if b = x then 1 else 0 := users_wait hw rfl rfl
    have hblk : s'.blockno b = blk := congrArg Prod.snd hgot.ident
    have hother (x : BufId) (hx : x ≠ b) : c.buf x = s.cache.buf x := hgot.other x hx
    have hotherBlk (x : BufId) (hx : x ≠ b) : s'.blockno x = s.blockno x :=
      congrArg Buf.blockno (hother x hx)
    have hreg (r : Reg) (x : BufId) (hr : s.reg r = some x) : s.users x ≠ 0 := by
      obtain ⟨q, -, hq⟩ := h.owner r x hr
      exact users_ne_zero_of_sleep (by rw [hq]; simp)
    refine h.apart s' ⟨rfl, rfl, rfl, rfl, rfl, rfl, rfl, rfl, rfl, rfl, rfl, rfl, ?_⟩
      (h.counts.bget hgot hlists hclean husers (users_le s')) ?_ ?_ (fun _ _ _ _ hs _ => hs)
      ?_ ?_ ?_ ?_ ?_ (fun hr => (h.booting hr).sleep)
    · intro r x hr
      exact Prod.ext (congrArg Prod.snd (hused x (hreg r x hr)).1) rfl
    · intro x
      by_cases hx : x = b
      · rw [hx, hblk]
        exact hsmall
      · rw [hotherBlk x hx]
        exact h.small x
    · intro x hx _
      by_cases hxb : x = b
      · rw [hxb, hblk]
        exact hfresh
      rw [husers x, if_neg (Ne.symm hxb), add_zero] at hx
      rw [hotherBlk x hxb]
      exact hclean x hx
    · intro q x hq hx
      obtain rfl | hqp := eq_or_ne q p
      · obtain ⟨r, rest, hcode⟩ := hlogger hq
        have hxb : some b = some x := (update_self q (some b) s.wait).symm.trans hx
        cases hxb
        exact ⟨r, blk, rest, hcode, hgot.ident⟩
      have hx' : s.wait q = some x := (update_of_ne hqp (some b) s.wait).symm.trans hx
      obtain ⟨r, blk', rest, hcode, hid⟩ := h.waiting q x hq hx'
      exact ⟨r, blk', rest, hcode, (hused x (users_ne_zero_of_wait hx')).1.trans hid⟩
    · intro x hx
      rw [(hused x (users_ne_zero_of_sleep hx)).2]
      exact h.locked x hx
    · intro x hdev hmem
      obtain rfl | hxb := eq_or_ne x b
      · rw [hblk] at hmem
        rcases hgot.source with ⟨hid, hvalid⟩ | ⟨-, hmiss, -⟩
        · refine hvalid.trans (h.pinned x (congrArg Prod.fst hid) ?_)
          rw [show s.blockno x = blk from congrArg Prod.snd hid]
          exact hmem
        · obtain ⟨y, hy⟩ := h.counts.cached blk (.inl hmem)
          exact absurd hy (hmiss y)
      · have hdev' : (c.buf x).dev = ROOTDEV := hdev
        rw [hotherBlk x hxb] at hmem
        rw [hother x hxb] at hdev'
        have := h.pinned x hdev' hmem
        rwa [← hother x hxb] at this
    · intro x hvalid hfree
      obtain rfl | hxb := eq_or_ne x b
      · rcases hgot.source with ⟨hid, hsame⟩ | ⟨-, -, hinvalid⟩
        · rw [hblk, ← show s.blockno x = blk from congrArg Prod.snd hid]
          exact h.coherent x (hsame.symm.trans hvalid) hfree
        · exact absurd (hinvalid.symm.trans hvalid) Bool.false_ne_true
      rw [hotherBlk x hxb]
      have hvalid' : (c.buf x).valid = true := hvalid
      rw [hother x hxb] at hvalid'
      exact h.coherent x hvalid' hfree
    · intro hr q hq
      have hp := hboot hr
      subst hp
      exact (update_of_ne hq (some b) s.wait).trans ((h.booting hr).wait q hq)

theorem Inv.not_reg (h : Inv sb s plus) (hs : s.sleep b = none) (r : Reg) : s.reg r ≠ some b := by
  intro hr
  obtain ⟨q, -, hq⟩ := h.owner r b hr
  rw [hs] at hq
  cases hq

theorem blockno_acquire (x : BufId) : (s.acquire p b).blockno x = s.blockno x := by
  have := ident_setBuf (c := s.cache) b { s.cache.buf b with valid := true } rfl x
  exact congrArg Prod.snd this

theorem valid_acquire_self : ((s.acquire p b).cache.buf b).valid = true := by
  simp [State.acquire, Cache.setBuf]

theorem buf_acquire_of_ne (hx : x ≠ b) : (s.acquire p b).cache.buf x = s.cache.buf x := by
  simp [State.acquire, Cache.setBuf, hx]

theorem data_acquire_of_ne (hx : x ≠ b) : (s.acquire p b).data x = s.data x := by
  simp only [State.acquire]
  split
  · rfl
  · exact update_of_ne hx _ _

theorem Inv.data_acquire (h : Inv sb s plus) (hw : s.wait p = some b) (hs : s.sleep b = none) :
    (s.acquire p b).data b = seen sb s.running s.history s.disk (s.blockno b) := by
  simp only [State.acquire]
  cases hvalid : (s.cache.buf b).valid with
  | true =>
    rw [if_pos rfl]
    exact h.coherent b hvalid (h.not_reg hs)
  | false =>
    rw [if_neg Bool.false_ne_true, update_self]
    unfold seen
    split
    · rename_i hlive
      refine h.sound.settled hlive.1 _ hlive.2 ?_
      intro hmem
      have := h.pinned b (h.counts.dev b (.inl (users_ne_zero_of_wait hw))) hmem
      rw [hvalid] at this
      cases this
    · rfl

theorem Inv.locked_acquire (h : Inv sb s plus) (x : BufId) (hx : (s.acquire p b).sleep x ≠ none) :
    ((s.acquire p b).cache.buf x).valid = true := by
  by_cases hxb : x = b
  · rw [hxb]
    exact valid_acquire_self
  rw [buf_acquire_of_ne hxb]
  rw [show (s.acquire p b).sleep x = s.sleep x from update_of_ne hxb _ _] at hx
  exact h.locked x hx

theorem Inv.pinned_acquire (h : Inv sb s plus) (x : BufId)
    (hdev : ((s.acquire p b).cache.buf x).dev = ROOTDEV) (hmem : (s.acquire p b).blockno x ∈ plus) :
    ((s.acquire p b).cache.buf x).valid = true := by
  by_cases hxb : x = b
  · rw [hxb]
    exact valid_acquire_self
  rw [buf_acquire_of_ne hxb] at hdev ⊢
  rw [blockno_acquire] at hmem
  exact h.pinned x hdev hmem

theorem Inv.held_acquire (h : Inv sb s plus) (hs : s.sleep b = none) (r : Reg) (x : BufId)
    (hr : s.reg r = some x) : (s.acquire p b).held x = s.held x := by
  have hxb : x ≠ b := fun e => h.not_reg hs r (e ▸ hr)
  exact Prod.ext (blockno_acquire (p := p) x) (data_acquire_of_ne (p := p) hxb)

section Acquire
variable (hw : s.wait p = some b) (hs : s.sleep b = none)
include hw hs

theorem Counts.acquire {minus : List Nat} (h : Counts s.cache s.users s.pins plus minus) :
    Counts (s.acquire p b).cache (s.acquire p b).users (s.acquire p b).pins plus minus := by
  have husers : (s.acquire p b).users = s.users := funext (users_acquire hw hs)
  rw [husers]
  exact h.validate (users_ne_zero_of_wait hw)

theorem Inv.coherent_acquire (h : Inv sb s plus) (x : BufId)
    (hvalid : ((s.acquire p b).cache.buf x).valid = true) (hfree : ∀ r, s.reg r ≠ some x) :
    (s.acquire p b).data x = seen sb s.running s.history s.disk ((s.acquire p b).blockno x) := by
  rw [blockno_acquire]
  by_cases hxb : x = b
  · rw [hxb]
    exact h.data_acquire hw hs
  rw [buf_acquire_of_ne hxb] at hvalid
  rw [data_acquire_of_ne hxb]
  exact h.coherent x hvalid hfree

theorem Inv.acquire (h : Inv sb s plus) (hp : s.logger ≠ some p) : Inv sb (s.acquire p b) plus := by
  have hrunning : s.running ≠ false := by
    intro hr
    have hp0 : p = 0 := by
      by_contra hne
      rw [(h.booting hr).wait p hne] at hw
      cases hw
    exact hp (hp0 ▸ (h.booting hr).logger)
  refine h.apart _ ⟨rfl, rfl, rfl, rfl, rfl, rfl, rfl, rfl, rfl, rfl, rfl, rfl, h.held_acquire hs⟩
    (h.counts.acquire hw hs) ?_ ?_ ?_ ?_ h.locked_acquire h.pinned_acquire
    (h.coherent_acquire hw hs) (fun hr => absurd hr hrunning) (fun hr => absurd hr hrunning)
  · intro x
    rw [blockno_acquire]
    exact h.small x
  · intro x hx hfree
    rw [users_acquire hw hs] at hx
    rw [blockno_acquire]
    exact h.clean x hx hfree
  · intro r x q hr hq _
    have hxb : x ≠ b := fun e => h.not_reg hs r (e ▸ hr)
    exact (update_of_ne hxb _ _).trans hq
  · intro q x hq hx
    have hqp : q ≠ p := fun e => hp (e ▸ hq)
    have hkeep : (s.acquire p b).wait q = s.wait q := by simp [State.acquire, hqp]
    obtain ⟨r, blk, c, hcode, hid⟩ := h.waiting q x hq (hkeep.symm.trans hx)
    exact ⟨r, blk, c, hcode, (ident_setBuf b { s.cache.buf b with valid := true } rfl x).trans hid⟩

end Acquire

theorem ident_release (x : BufId) : (s.release b).cache.ident x = s.cache.ident x := by
  simp only [State.release, Bio.brelse, ident_stamp, ident_decref]

theorem blockno_release (x : BufId) : (s.release b).blockno x = s.blockno x :=
  congrArg Prod.snd (ident_release x)

theorem valid_release (x : BufId) : ((s.release b).cache.buf x).valid = (s.cache.buf x).valid := by
  obtain rfl | hx := eq_or_ne x b
  · simp [State.release, Bio.brelse, stamp, decref, Cache.setBuf]
  · simp [State.release, Bio.brelse, stamp, decref, Cache.setBuf, hx]

theorem users_release (hs : s.sleep b ≠ none) (x : BufId) :
    (s.release b).users x + (if b = x then 1 else 0) = s.users x :=
  users_sleep (s.release b) hs rfl rfl x

theorem users_release_ne_zero (hs : s.sleep b ≠ none)
    (hx : (s.release b).users x ≠ 0) : s.users x ≠ 0 := by
  have := users_release hs x
  omega

theorem sleep_release_ne_none (hx : (s.release b).sleep x ≠ none) :
    x ≠ b ∧ s.sleep x ≠ none := by
  have hxb : x ≠ b := by
    rintro rfl
    exact hx (update_self ..)
  exact ⟨hxb, by rwa [show (s.release b).sleep x = s.sleep x from update_of_ne hxb _ _] at hx⟩

theorem Inv.release (h : Inv sb s plus) (hs : s.sleep b = some p) (hp : s.logger ≠ some p) :
    Inv sb (s.release b) plus := by
  have hne : s.sleep b ≠ none := by rw [hs]; simp
  have hreg (r : Reg) (x : BufId) (q : Slot) (hq : s.sleep x = some q) (hlog : s.logger = some q) :
      x ≠ b := by
    rintro rfl
    rw [hs] at hq
    cases hq
    exact hp hlog
  refine h.apart _ ⟨rfl, rfl, rfl, rfl, rfl, rfl, rfl, rfl, rfl, rfl, rfl, rfl, ?_⟩
    (h.counts.brelse (users_release hne)) ?_ ?_ ?_ ?_ ?_ ?_ ?_ ?_ ?_
  · intro r x _
    exact Prod.ext (blockno_release x) rfl
  · intro x
    rw [blockno_release]
    exact h.small x
  · intro x hx hfree
    rw [blockno_release]
    exact h.clean x (users_release_ne_zero hne hx) hfree
  · intro r x q _ hq hlog
    exact (update_of_ne (hreg r x q hq hlog) _ _).trans hq
  · intro q x hq hx
    obtain ⟨r, blk, c, hcode, hid⟩ := h.waiting q x hq hx
    exact ⟨r, blk, c, hcode, (ident_release x).trans hid⟩
  · intro x hx
    rw [valid_release]
    exact h.locked x (sleep_release_ne_none hx).2
  · intro x hdev hmem
    rw [blockno_release] at hmem
    rw [valid_release]
    refine h.pinned x ?_ hmem
    rw [← hdev]
    exact (congrArg Prod.fst (ident_release x)).symm
  · intro x hvalid hfree
    rw [valid_release] at hvalid
    rw [blockno_release]
    exact h.coherent x hvalid hfree
  · exact fun hr => (h.booting hr).wait
  · intro hr x hx
    exact (h.booting hr).sleep x (sleep_release_ne_none hx).2

end BirdOS.Journal
