import BirdOS.Fs.JournalInvariant

/-! # The steps of the system keep the invariant

First the statements of the logger, each one matched by a step of its code on its own, then
`log_write`, `begin_op`, `end_op` and the crash. -/

namespace BirdOS.Journal

open Bio Fs Tally Function List Option

variable {sb : Superblock} {s : State} {plus : List Nat} {p : Slot} {b : BufId}

theorem Inv.working (h : Inv sb s plus) (hp : s.logger = some p) : Working sb s plus p := by
  rcases h.task with ⟨q, hq⟩ | hidle
  · have : q = p := Option.some.inj (hq.logger.symm.trans hp)
    exact this ▸ hq
  · rw [hidle.logger] at hp
    cases hp

theorem Inv.safeAt (h : Inv sb s plus) (hp : s.logger = some p) {c : List Instr}
    (hcode : s.code = c) :
    Safe sb s.running s.history (Post sb s.history s.next) c (s.hand plus) := by
  rw [← hcode]
  exact (h.working hp).safe

variable {r : Reg}

theorem Inv.regDev (h : Inv sb s plus) (hr : s.reg r = some b) :
    s.cache.ident b = (ROOTDEV, s.blockno b) := by
  obtain ⟨q, -, hq⟩ := h.owner r b hr
  exact Counts.ident_of_dev (h.counts.dev b (.inl (users_ne_zero_of_sleep (by rw [hq]; simp))))

theorem hand_setReg (s' : State) {x : Option (Nat × Block)} (hdisk : s'.disk = s.disk)
    (hblock : s'.log.block = s.log.block) (hdurable : s'.durable = s.durable)
    (hrecovered : s'.recovered = s.recovered) (hself : (s'.reg r).map s'.held = x)
    (hother : ∀ r', r' ≠ r → (s'.reg r').map s'.held = (s.reg r').map s.held) :
    s'.hand plus = (s.hand plus).setReg r x := by
  unfold State.hand Hand.setReg
  rw [hdisk, hblock, hdurable, hrecovered]
  cases r with
  | log => rw [hself, hother .home (by decide)]
  | home => rw [hself, hother .log (by decide)]

/-! ## Statements that leave the cache alone -/

structure Inside (s s' : State) : Prop where
  cache : s'.cache = s.cache
  sleep : s'.sleep = s.sleep
  wait : s'.wait = s.wait
  inOp : s'.inOp = s.inOp
  logger : s'.logger = s.logger
  next : s'.next = s.next
  reg : s'.reg = s.reg
  running : s'.running = s.running
  pins : s'.pins = s.pins
  recovered : s'.recovered = s.recovered
  history : s'.history = s.history
  returned : s'.returned = s.returned
  size : s'.log.size = s.log.size
  outstanding : s'.log.outstanding = s.log.outstanding
  committing : s'.log.committing = s.log.committing

theorem Inv.inside (h : Inv sb s plus) (s' : State) (hi : Inside s s') (hp : s.logger = some p)
    (hw : s.wait p = none)
    (hcoherent : ∀ x, (s.cache.buf x).valid = true → (∀ r, s.reg r ≠ some x) →
      s'.data x = seen sb s.running s.history s'.disk (s.blockno x))
    (hdurable : s.durable ≤ s'.durable ∧ s'.durable ≤ s.history.groups.length)
    (hsafe : Safe sb s.running s.history (Post sb s.history s.next) s'.code (s'.hand plus)) :
    Inv sb s' plus := by
  have hwk := h.working hp
  have hblk (x : BufId) : s'.blockno x = s.blockno x := by
    rw [State.blockno, hi.cache]
    rfl
  have husers : s'.users = s.users := users_congr hi.wait hi.sleep
  refine ⟨?_, ?_, ?_, ?_, ?_, ?_, ?_, ?_, ?_, ?_, ?_, ?_, ?_, ?_, ?_, ?_, ?_⟩
  · rw [hi.cache, husers, hi.pins, hi.recovered]
    exact h.counts
  · intro x
    rw [hblk]
    exact h.small x
  · intro x hx hfree
    rw [husers] at hx
    rw [hi.running, hi.reg] at hfree
    rw [hblk, hi.recovered]
    exact h.clean x hx hfree
  · rw [hi.reg, hi.logger, hi.sleep]
    exact h.owner
  · rw [hi.reg]
    exact h.distinct
  · intro q x hq hx
    rw [hi.logger, hp] at hq
    rw [← Option.some.inj hq, hi.wait, hw] at hx
    cases hx
  · rw [hi.sleep, hi.cache]
    exact h.locked
  · intro x hdev hmem
    rw [hblk] at hmem
    rw [hi.cache] at hdev ⊢
    exact h.pinned x hdev hmem
  · intro x hvalid hfree
    rw [hi.cache] at hvalid
    rw [hi.reg] at hfree
    rw [hi.running, hi.history, hblk]
    exact hcoherent x hvalid hfree
  · rw [hi.size]
    exact h.size
  · rw [hi.outstanding, hi.inOp]
    exact h.outstanding
  · rw [hi.committing, hi.running, hi.logger]
    exact h.committing
  · rw [hi.returned]
    exact h.returned.trans hdurable.1
  · rw [hi.history]
    exact hdurable.2
  · rw [hi.recovered]
    exact h.recovered
  · intro hr
    rw [hi.running] at hr
    have hboot := h.booting hr
    refine ⟨hi.logger.trans hboot.logger, ?_, ?_⟩
    · rw [hi.wait]
      exact hboot.wait
    · rw [hi.sleep, hi.reg]
      exact hboot.sleep
  · left
    refine ⟨p, hi.logger.trans hp, ?_, ?_, ?_, ?_⟩
    · rw [hi.running, hi.history, hi.next]
      exact hsafe
    · rw [hi.next, hi.running]
      exact hwk.next
    · rw [hi.history]
      exact hwk.group
    · rw [hi.inOp]
      exact hwk.outside

variable {blk : Nat}

section Statements
variable {c : List Instr}

variable {x : BufId}

section
variable (h : Inv sb s plus)
include h

section
variable (hp : s.logger = some p)
include hp

theorem Inv.store (hw : s.wait p = none) (v : Block) (hreg : s.reg r = some x)
    (hsafe : Safe sb s.running s.history (Post sb s.history s.next) c
      ((s.hand plus).setReg r (some (s.blockno x, v)))) :
    Inv sb { s with data := update s.data x v, code := c } plus := by
  let s' : State := { s with data := update s.data x v, code := c }
  have hhand : s'.hand plus = (s.hand plus).setReg r (some (s.blockno x, v)) := by
    refine hand_setReg s' rfl rfl rfl rfl ?_ ?_
    · simp [s', hreg, State.held, State.blockno]
    · intro r' hr'
      cases hr : s.reg r' with
      | none => simp [s']
      | some z =>
        have hzx : z ≠ x := fun e => hr' (h.distinct r' r x (e ▸ hr) hreg)
        simp [s', State.held, State.blockno, hzx]
  refine h.inside s' ⟨rfl, rfl, rfl, rfl, rfl, rfl, rfl, rfl, rfl, rfl, rfl, rfl, rfl, rfl, rfl⟩
    hp hw ?_ ⟨le_rfl, h.durable⟩ (hhand ▸ hsafe)
  intro z hz hfree
  have hzx : z ≠ x := fun e => hfree r (e ▸ hreg)
  exact (update_of_ne hzx _ _).trans (h.coherent z hz hfree)

theorem Inv.memmove (hw : s.wait p = none)
    {dst src : Reg} {y : BufId} (hcode : s.code = .memmove dst src :: c)
    (hdst : s.reg dst = some x) (hsrc : s.reg src = some y) :
    Inv sb { s with data := update s.data x (s.data y), code := c } plus := by
  cases h.safeAt hp hcode with
  | memmove sound hdst' hsrc' rest =>
    rw [hand_reg, hdst] at hdst'
    rw [hand_reg, hsrc] at hsrc'
    cases hdst'
    cases hsrc'
    exact h.store hp hw (s.data y) hdst rest

theorem Inv.putHead (hw : s.wait p = none)
    (hcode : s.code = .putHead :: c) (hreg : s.reg .log = some x) :
    Inv sb { s with data := update s.data x (putHeader (s.data x) s.log.block), code := c }
      plus := by
  cases h.safeAt hp hcode with
  | putHead sound hlog rest =>
    rw [State.hand, hreg] at hlog
    cases hlog
    exact h.store hp hw _ hreg rest

theorem Inv.getHead (hw : s.wait p = none)
    (hcode : s.code = .getHead :: c) (hreg : s.reg .log = some x) :
    Inv sb { s with log := { s.log with block := getHeader (s.data x) }, code := c } plus := by
  cases h.safeAt hp hcode with
  | getHead sound hlog rest =>
    rw [State.hand, hreg] at hlog
    cases hlog
    exact h.inside _ ⟨rfl, rfl, rfl, rfl, rfl, rfl, rfl, rfl, rfl, rfl, rfl, rfl, rfl, rfl,
      rfl⟩ hp hw
      h.coherent ⟨le_rfl, h.durable⟩ rest

theorem Inv.clear (hw : s.wait p = none) (hcode : s.code = .clear :: c) :
    Inv sb { s with log := { s.log with block := [] }, code := c } plus := by
  cases h.safeAt hp hcode with
  | clear sound rest =>
    exact h.inside _ ⟨rfl, rfl, rfl, rfl, rfl, rfl, rfl, rfl, rfl, rfl, rfl, rfl, rfl, rfl,
      rfl⟩ hp hw
      h.coherent ⟨le_rfl, h.durable⟩ rest

theorem Inv.bwrite (hw : s.wait p = none)
    (hcode : s.code = .bwrite r :: c) (hreg : s.reg r = some x) :
    Inv sb { s.bwrite sb x with code := c } plus := by
  cases h.safeAt hp hcode with
  | bwrite sound hr rest =>
    rw [hand_reg, hreg] at hr
    cases hr
    refine h.inside _ ⟨rfl, rfl, rfl, rfl, rfl, rfl, rfl, rfl, rfl, rfl, rfl, rfl, rfl, rfl,
      rfl⟩ hp hw ?_
      ?_ rest
    · intro z hz hfree
      -- the buffer of the written block is in the logger's hand
      have hne : s.blockno z ≠ s.blockno x := by
        intro e
        have hzid : s.cache.ident z = (ROOTDEV, s.blockno x) :=
          e ▸ Counts.ident_of_dev (h.counts.dev z (.inr hz))
        exact hfree r (h.counts.unique hzid (h.regDev hreg) ▸ hreg)
      refine (h.coherent z hz hfree).trans ?_
      unfold seen
      rw [show (State.bwrite s sb x).disk (s.blockno z) = s.disk (s.blockno z) from
        update_of_ne hne _ _]
    · simp only [State.bwrite]
      have := h.durable
      split <;> omega

end

end

/-! ## Statements that change the cache -/

section
variable (h : Inv sb s plus)
include h

theorem Inv.clean_at_bread (hp : s.logger = some p)
    (hcode : s.code = .bread r blk :: c) (x : BufId) (hx : s.users x ≠ 0) :
    s.blockno x ∉ s.recovered := by
  cases h.safeAt hp hcode with
  | bread sound free small fresh others room rest =>
    by_cases hreg : ∀ r', s.reg r' ≠ some x
    · exact h.clean x hx (.inr hreg)
    push Not at hreg
    obtain ⟨r', hr'⟩ := hreg
    have hhand : (s.hand plus).reg r' = some (s.held x) := by
      rw [hand_reg, hr']
      rfl
    exact (others r' _ hhand).1

theorem Inv.bread (hp : s.logger = some p) (hw : s.wait p = none)
    (hcode : s.code = .bread r blk :: c) : Inv sb (s.bget p blk) plus := by
  have hclean := h.clean_at_bread hp hcode
  cases h.safeAt hp hcode with
  | bread sound free small fresh others room rest =>
    refine h.bget hw small fresh hclean (fun _ => ⟨r, c, hcode⟩) ?_
    intro hr
    exact Option.some.inj (hp.symm.trans (h.booting hr).logger)

theorem Inv.arrive (hp : s.logger = some p) (hw : s.wait p = some b)
    (hs : s.sleep b = none) : Inv sb ((s.acquire p b).arrive p b) plus := by
  obtain ⟨r, blk, c, hcode, hid⟩ := h.waiting p b hp hw
  have hblk : s.blockno b = blk := congrArg Prod.snd hid
  have hwk := h.working hp
  have hsafe := h.safeAt hp hcode
  let s' : State := { s.acquire p b with reg := update s.reg r (some b), code := c }
  have hs' : (s.acquire p b).arrive p b = s' := by
    unfold State.arrive
    rw [if_pos (show (s.acquire p b).logger = some p from hp)]
    simp only [State.acquire, hcode, s']
  rw [hs']
  cases hsafe with
  | bread sound free small fresh others room rest =>
    rw [hand_reg] at free
    have hnone : s.reg r = none := map_eq_none_iff.mp free
    have hregs (r' : Reg) (x : BufId) (hr : s'.reg r' = some x) :
        (r' = r ∧ x = b) ∨ (r' ≠ r ∧ s.reg r' = some x) := by
      by_cases e : r' = r
      · subst e
        have : some b = some x := (update_self r' (some b) s.reg).symm.trans hr
        exact .inl ⟨rfl, (Option.some.inj this).symm⟩
      · exact .inr ⟨e, (update_of_ne e (some b) s.reg).symm.trans hr⟩
    have hfree (x : BufId) (hx : ∀ r', s'.reg r' ≠ some x) : ∀ r', s.reg r' ≠ some x := by
      intro r' hr'
      have hne : r' ≠ r := fun e => by rw [e, hnone] at hr'; cases hr'
      exact hx r' ((update_of_ne hne (some b) s.reg).trans hr')
    have hhand : s'.hand plus = (s.hand plus).setReg r
        (some (blk, seen sb s.running s.history s.disk blk)) := by
      refine hand_setReg s' rfl rfl rfl rfl ?_ ?_
      · have hself : s'.reg r = some b := update_self r (some b) s.reg
        have hdata := h.data_acquire hw hs
        rw [hblk] at hdata
        rw [hself]
        refine congrArg some (Prod.ext ?_ hdata)
        exact (blockno_acquire (p := p) b).trans hblk
      · intro r' hr'
        have hkeep : s'.reg r' = s.reg r' := update_of_ne hr' (some b) s.reg
        rw [hkeep]
        cases hr : s.reg r' with
        | none => rfl
        | some x => exact congrArg some (h.held_acquire (p := p) hs r' x hr)
    have husers : s'.users = s.users := funext (users_acquire hw hs)
    have hblkno (x : BufId) : s'.blockno x = s.blockno x := blockno_acquire (p := p) x
    have hsleep (x : BufId) (hx : x ≠ b) : s'.sleep x = s.sleep x := update_of_ne hx _ _
    have hnotWaiting (q : Slot) (x : BufId) (hq : s'.logger = some q) : s'.wait q ≠ some x := by
      have hqp : q = p := Option.some.inj (hq.symm.trans hp)
      rw [hqp, show s'.wait p = none from update_self ..]
      simp
    refine ⟨h.counts.acquire hw hs, ?_, ?_, ?_, ?_, ?_, h.locked_acquire (p := p),
      h.pinned_acquire (p := p), ?_, h.size, h.outstanding, h.committing, h.returned, h.durable,
      h.recovered, ?_, .inl ⟨p, hp, ?_, hwk.next, hwk.group, hwk.outside⟩⟩
    · intro x
      exact (hblkno x).trans_lt (h.small x)
    · intro x hx hclean
      rw [husers] at hx
      rw [hblkno]
      by_cases hxb : x = b
      · rw [hxb, hblk]
        exact fresh
      · exact h.clean x hx (hclean.imp_right (hfree x))
    · intro r' x hr
      rcases hregs r' x hr with ⟨-, rfl⟩ | ⟨-, hr'⟩
      · exact ⟨p, hp, update_self ..⟩
      obtain ⟨q, hq, hx⟩ := h.owner r' x hr'
      have hxb : x ≠ b := fun e => h.not_reg hs r' (e ▸ hr')
      exact ⟨q, hq, (hsleep x hxb).trans hx⟩
    · intro r1 r2 x h1 h2
      rcases hregs r1 x h1 with ⟨e1, rfl⟩ | ⟨-, h1'⟩
      · rcases hregs r2 x h2 with ⟨e2, -⟩ | ⟨-, h2'⟩
        · rw [e1, e2]
        · exact absurd h2' (h.not_reg hs r2)
      rcases hregs r2 x h2 with ⟨-, rfl⟩ | ⟨-, h2'⟩
      · exact absurd h1' (h.not_reg hs r1)
      · exact h.distinct r1 r2 x h1' h2'
    · intro q x hq hx
      exact absurd hx (hnotWaiting q x hq)
    · intro x hvalid hx
      exact h.coherent_acquire hw hs x hvalid (hfree x hx)
    · intro hr
      have hboot := h.booting hr
      refine ⟨hboot.logger, ?_, ?_⟩
      · intro q hq
        have hqp : q ≠ p := fun e => hq (e.trans (Option.some.inj (hp.symm.trans hboot.logger)))
        exact (update_of_ne hqp _ _).trans (hboot.wait q hq)
      · intro x hx
        by_cases hxb : x = b
        · exact ⟨r, hxb ▸ update_self ..⟩
        rw [hsleep x hxb] at hx
        obtain ⟨r', hr'⟩ := hboot.sleep x hx
        have hne : r' ≠ r := fun e => by rw [e, hnone] at hr'; cases hr'
        exact ⟨r', (update_of_ne hne _ _).trans hr'⟩
    · rw [hhand]
      exact rest

theorem Inv.users_boot (hr : s.running = false) (hp : s.logger = some p)
    (hw : s.wait p = none) (x : BufId) : s.users x = slept (s.sleep x) := by
  have hboot := h.booting hr
  have hp0 : p = 0 := Option.some.inj (hp.symm.trans hboot.logger)
  have hnone : tally (waits x) s.wait = 0 := by
    rw [tally_eq_zero]
    intro q
    by_cases hq : q = 0
    · rw [hq, ← hp0, hw]
      rfl
    · rw [hboot.wait q hq]
      rfl
  rw [State.users, hnone, zero_add]

theorem Inv.brelse (hp : s.logger = some p) (hw : s.wait p = none)
    (hcode : s.code = .brelse r :: c) (hreg : s.reg r = some x) :
    Inv sb { s.release x with reg := update s.reg r none, code := c } plus := by
  have hwk := h.working hp
  have hsafe := h.safeAt hp hcode
  obtain ⟨q, -, hq⟩ := h.owner r x hreg
  have hlocked : s.sleep x ≠ none := by rw [hq]; simp
  let s' : State := { s.release x with reg := update s.reg r none, code := c }
  have husers (z : BufId) : s'.users z = (s.release x).users z := rfl
  have hregs (r' : Reg) (z : BufId) (hr : s'.reg r' = some z) : r' ≠ r ∧ s.reg r' = some z := by
    have hne : r' ≠ r := by
      rintro rfl
      rw [show s'.reg r' = none from update_self ..] at hr
      cases hr
    exact ⟨hne, (update_of_ne hne none s.reg).symm.trans hr⟩
  have hfree (z : BufId) (hz : z ≠ x) (hfree : ∀ r', s'.reg r' ≠ some z) : ∀ r',
    s.reg r' ≠ some z := by
    intro r' hr'
    have hne : r' ≠ r := by
      rintro rfl
      rw [hreg] at hr'
      exact hz (Option.some.inj hr').symm
    exact hfree r' ((update_of_ne hne none s.reg).trans hr')
  cases hsafe with
  | brelse sound hr same rest =>
    rw [hand_reg, hreg] at hr
    cases hr
    refine ⟨h.counts.brelse (users_release hlocked), ?_, ?_, ?_, ?_, ?_, ?_, ?_, ?_, h.size,
      h.outstanding, h.committing, h.returned, h.durable, h.recovered, ?_,
      .inl ⟨p, hp, ?_, hwk.next, hwk.group, hwk.outside⟩⟩
    · intro z
      exact (blockno_release z).trans_lt (h.small z)
    · intro z hz hclean
      rw [show s'.blockno z = s.blockno z from blockno_release z]
      have hz' := users_release_ne_zero hlocked hz
      cases hrun : s.running with
      | true => exact h.clean z hz' (.inl hrun)
      | false =>
        have hzx : z ≠ x := by
          rintro rfl
          have hone := h.users_boot hrun hp hw z
          have hsum := users_release hlocked z
          rw [if_pos rfl, hone, slept, if_neg hlocked] at hsum
          exact hz (by rw [husers]; omega)
        refine h.clean z hz' (.inr (hfree z hzx (hclean.resolve_left ?_)))
        exact fun hl => Bool.false_ne_true (hrun.symm.trans hl)
    · intro r' z hr'
      obtain ⟨hne, hr''⟩ := hregs r' z hr'
      obtain ⟨q', hq', hz⟩ := h.owner r' z hr''
      have hzx : z ≠ x := fun e => hne (h.distinct r' r x (e ▸ hr'') hreg)
      exact ⟨q', hq', (update_of_ne hzx _ _).trans hz⟩
    · intro r1 r2 z h1 h2
      exact h.distinct r1 r2 z (hregs r1 z h1).2 (hregs r2 z h2).2
    · intro q' z hq' hz
      rw [show q' = p from Option.some.inj (hq'.symm.trans hp)] at hz
      rw [show s'.wait p = none from hw] at hz
      cases hz
    · intro z hz
      exact (valid_release z).trans (h.locked z (sleep_release_ne_none hz).2)
    · intro z hdev hmem
      refine (valid_release z).trans (h.pinned z ?_ ?_)
      · exact (congrArg Prod.fst (ident_release z)).symm.trans hdev
      · exact (blockno_release z) ▸ hmem
    · intro z hvalid hz
      rw [show s'.blockno z = s.blockno z from blockno_release z]
      by_cases hzx : z = x
      · rw [hzx]
        exact same
      · exact h.coherent z ((valid_release z).symm.trans hvalid) (hfree z hzx hz)
    · intro hr
      have hboot := h.booting hr
      refine ⟨hboot.logger, hboot.wait, ?_⟩
      intro z hz
      obtain ⟨hzx, hz'⟩ := sleep_release_ne_none hz
      obtain ⟨r', hr'⟩ := hboot.sleep z hz'
      have hne : r' ≠ r := by
        rintro rfl
        rw [hreg] at hr'
        exact hzx (Option.some.inj hr').symm
      exact ⟨r', (update_of_ne hne _ _).trans hr'⟩
    · rw [show State.hand _ plus = (s.hand plus).setReg r none from ?_]
      · exact rest
      refine hand_setReg s' rfl rfl rfl rfl ?_ ?_
      · rw [show s'.reg r = none from update_self ..]
        rfl
      · intro r' hr'
        rw [show s'.reg r' = s.reg r' from update_of_ne hr' _ _]
        cases hr'' : s.reg r' with
        | none => rfl
        | some z => exact congrArg some (Prod.ext (blockno_release z) rfl)

theorem Inv.bunpin (hp : s.logger = some p) (hw : s.wait p = none)
    (hcode : s.code = .bunpin r :: c) (hreg : s.reg r = some x) :
    ∃ plus', Inv sb { s.bunpin x with code := c } plus' := by
  have hwk := h.working hp
  have hsafe := h.safeAt hp hcode
  let s' : State := { s.bunpin x with code := c }
  have hid (z : BufId) : s'.cache.ident z = s.cache.ident z := ident_decref x z
  have hblk (z : BufId) : s'.blockno z = s.blockno z := congrArg Prod.snd (hid z)
  have hvalid (z : BufId) : (s'.cache.buf z).valid = (s.cache.buf z).valid := by
    obtain rfl | hz := eq_or_ne z x
    · simp [s', State.bunpin, Bio.bunpin, decref, Cache.setBuf]
    · simp [s', State.bunpin, Bio.bunpin, decref, Cache.setBuf, hz]
  have hdev (z : BufId) : (s'.cache.buf z).dev = (s.cache.buf z).dev := congrArg Prod.fst (hid z)
  have hheld (r' : Reg) : (s'.reg r').map s'.held = (s.reg r').map s.held := by
    cases hr : s.reg r' with
    | none => simp [s', State.bunpin, hr]
    | some z =>
      have : s'.held z = s.held z := Prod.ext (hblk z) rfl
      simp [s', State.bunpin, hr] at this ⊢
      exact this
  cases hsafe with
  | bunpin sound hr home pinned unpinned once rest =>
    rw [hand_reg, hreg] at hr
    cases hr
    have hxid := h.regDev hreg
    have hkey (plus' : List Nat) (hcounts : Counts s'.cache s.users s'.pins plus' s'.recovered)
        (hsub : ∀ blk ∈ plus', blk ∈ plus)
        (hclean : ∀ z, s.users z ≠ 0 → (s.running = true ∨ ∀ r', s.reg r' ≠ some z) →
          s.blockno z ∉ s'.recovered)
        (hhome : ∀ blk ∈ s'.recovered, Home sb blk)
        (hhand : s'.hand plus' = (s.hand plus).unpin s.running (s.blockno x)) :
          Inv sb s' plus' := by
      refine ⟨hcounts, ?_, ?_, h.owner, h.distinct, ?_, ?_, ?_, ?_, h.size, h.outstanding,
        h.committing, h.returned, h.durable, hhome, ?_,
        .inl ⟨p, hp, hhand ▸ rest, hwk.next, hwk.group, hwk.outside⟩⟩
      · intro z
        exact (hblk z).trans_lt (h.small z)
      · intro z hz hz'
        rw [hblk]
        exact hclean z hz hz'
      · intro q z hq hz
        rw [show q = p from Option.some.inj (hq.symm.trans hp)] at hz
        exact absurd (hw.symm.trans hz) (by simp)
      · intro z hz
        exact (hvalid z).trans (h.locked z hz)
      · intro z hz hmem
        rw [hblk] at hmem
        exact (hvalid z).trans (h.pinned z ((hdev z).symm.trans hz) (hsub _ hmem))
      · intro z hz hfree
        rw [hblk]
        exact h.coherent z ((hvalid z).symm.trans hz) hfree
      · exact fun hr => ⟨(h.booting hr).logger, (h.booting hr).wait, (h.booting hr).sleep⟩
    have hrecovered : s'.recovered =
      if s.running then s.recovered else s.blockno x :: s.recovered :=
      rfl
    cases hrun : s.running with
    | true =>
      rw [hrun, if_pos rfl] at hrecovered
      refine ⟨plus.erase (s.blockno x), hkey _ ?_ ?_ ?_ ?_ ?_⟩
      · rw [hrecovered]
        exact h.counts.bunpin hxid (pinned hrun)
      · intro blk hb
        exact mem_of_mem_erase hb
      · rw [hrecovered]
        exact h.clean
      · rw [hrecovered]
        exact h.recovered
      · rw [hrun, State.hand, hheld, hheld, hrecovered]
        rfl
    | false =>
      rw [hrun, if_neg Bool.false_ne_true] at hrecovered
      refine ⟨plus, hkey _ ?_ (fun _ hb => hb) ?_ ?_ ?_⟩
      · rw [hrecovered]
        exact h.counts.bunpin_unpinned hxid (unpinned hrun) once
      · intro z hz hz'
        have hfree := hz'.resolve_left fun hl => Bool.false_ne_true (hrun.symm.trans hl)
        rw [hrecovered, mem_cons, not_or]
        refine ⟨?_, h.clean z hz hz'⟩
        intro e
        have hzid : s.cache.ident z = (ROOTDEV, s.blockno x) :=
          e ▸ Counts.ident_of_dev (h.counts.dev z (.inl hz))
        exact hfree r (h.counts.unique hzid hxid ▸ hreg)
      · intro blk hb
        rw [hrecovered] at hb
        rcases mem_cons.mp hb with rfl | hb
        · exact home
        · exact h.recovered blk hb
      · rw [hrun, State.hand, hheld, hheld, hrecovered]
        rfl

end

end Statements

/-! ## The end of the code at hand -/

theorem current_of_no_group {H : History} (h : H.group = []) :
    H.current = H.contents H.groups.length := by
  rw [History.current, h]
  rfl

theorem headerOk_nil (h : 0 < sb.nlog) : HeaderOk sb [] := ⟨nodup_nil, by simp, h⟩

theorem Inv.finished (h : Inv sb s plus) (hp : s.logger = some p) (hcode : s.code = [])
    (hnext : s.next ≠ .recover) :
    (∀ r, s.reg r = none) ∧ plus = [] ∧ s.log.block = [] ∧ s.durable = s.history.groups.length ∧
      Holds sb s.disk [] s.history.current := by
  have hwk := h.working hp
  cases h.safeAt hp hcode with
  | done sound last =>
    obtain ⟨hlog, hhome, hplus, hdurable, hrest⟩ := last
    have hend : (s.hand plus).block = [] ∧ getHeader ((s.hand plus).disk sb.logstart) = [] := by
      cases hn : s.next with
      | recover => exact absurd hn hnext
      | booted | finish => rwa [hn] at hrest
    obtain ⟨bs, hholds⟩ := sound.holds
    have hbs : bs = [] := hholds.header.symm.trans hend.2
    subst hbs
    refine ⟨?_, hplus, hend.1, hdurable, ?_⟩
    · intro r
      cases r with
      | log => exact map_eq_none_iff.mp hlog
      | home => exact map_eq_none_iff.mp hhome
    · rw [current_of_no_group hwk.group, ← hdurable]
      exact hholds

theorem seen_of_holds {D : Disk} {H : History} (h : Holds sb D [] H.current) (live : Bool)
    (blk : Nat) :
    seen sb live H D blk = D blk := by
  unfold seen
  split
  · rename_i hl
    exact (h.rest blk hl.2 (by simp)).symm
  · rfl

variable {s' : State}

theorem Inv.idle_of_finished (h : Inv sb s plus) (hp : s.logger = some p)
    (hcode : s.code = []) (hnext : s.next ≠ .recover) (hlogger : s'.logger = none)
    (hrunning : s'.running = true) (hblock : s'.log.block = s.log.block) (hdisk : s'.disk = s.disk)
    (hdurable : s'.durable = s.durable) (hhistory : s'.history = s.history) : Idle sb s' [] := by
  obtain ⟨-, -, hempty, hdur, hholds⟩ := h.finished hp hcode hnext
  have hgroup := (h.working hp).group
  refine ⟨hlogger, hrunning, hblock.trans hempty, ?_, ?_, ?_, ?_, headerOk_nil hholds.nlog_pos⟩
  · rw [hhistory, hdisk, hdurable, hdur]
    refine ⟨⟨[], ?_⟩, ?_⟩
    · rw [← current_of_no_group hgroup]
      exact hholds
    · intro _ blk hb _
      exact hholds.rest blk hb (by simp)
  · rw [hdisk]
    exact hholds.header
  · rw [hdurable, hdur, hhistory]
  · intro blk
    simp [hhistory, hgroup]

theorem Inv.advance (h : Inv sb s plus) (hp : s.logger = some p) (hw : s.wait p = none)
    (hcode : s.code = []) : ∃ plus', Inv sb (s.advance sb) plus' := by
  have hwk := h.working hp
  have hwaiting (q : Slot) (x : BufId) (hq : s.logger = some q) (hx : s.wait q = some x) :
    False := by
    rw [show q = p from Option.some.inj (hq.symm.trans hp), hw] at hx
    cases hx
  unfold State.advance
  cases hnext : s.next with
  | recover =>
    have hrun : s.running = false := by
      cases hr : s.running with
      | false => rfl
      | true => cases hnext.symm.trans (hwk.next.mpr hr)
    cases h.safeAt hp hcode with
    | done sound last =>
      obtain ⟨hlog, hhome, hplus, hdurable, hrest⟩ := last
      rw [hnext] at hrest
      obtain ⟨hminus, hblock⟩ := hrest
      obtain ⟨bs, hholds⟩ := sound.holds
      have hbs : bs = s.log.block := hholds.header.symm.trans hblock.symm
      subst hbs
      have hdur : s.durable = s.history.groups.length := hdurable
      have hhand : s.hand plus =
          ⟨s.disk, none, none, s.log.block, s.history.groups.length, [], []⟩ := by
        have hplus' : plus = [] := hplus
        have hminus' : s.recovered = [] := hminus
        rw [State.hand, hplus', hminus', hdur, show (s.reg .log).map s.held = none from hlog,
          show (s.reg .home).map s.held = none from hhome]
      refine ⟨plus, { h with
        waiting := ?_, booting := ?_
        task := .inl ⟨p, hp, ?_, ?_, hwk.group, hwk.outside⟩ }⟩
      · exact fun q x hq hx => (hwaiting q x hq hx).elim
      · exact fun hr => ⟨(h.booting hr).logger, (h.booting hr).wait, (h.booting hr).sleep⟩
      · change Safe sb s.running s.history (Post sb s.history .booted) (recoverCode sb s.log.block)
          (s.hand plus)
        rw [hhand, hrun]
        refine safe_recover ?_ ?_
        · rw [hrun] at sound
          rw [← hdur]
          exact ⟨sound.holds, fun hl => by cases hl⟩
        · rw [← hdur]
          exact hholds
      · simp [hrun]
  | booted =>
    have hne : s.next ≠ .recover := by rw [hnext]; decide
    obtain ⟨hregs, hplus, hblock, hdur, hholds⟩ := h.finished hp hcode hne
    have hrun : s.running = false := by
      cases hr : s.running with
      | false => rfl
      | true => cases hnext.symm.trans (hwk.next.mpr hr)
    subst hplus
    refine ⟨[], { h with
      clean := ?_, owner := ?_, waiting := ?_, coherent := ?_, committing := ?_, booting := ?_
      task := .inr ?_ }⟩
    · intro x hx _
      exact h.clean x hx (.inr fun r hr => by rw [hregs r] at hr; cases hr)
    · intro r x hr
      rw [show s.reg r = none from hregs r] at hr
      cases hr
    · intro q x hq
      cases hq
    · intro x hvalid hfree
      refine (h.coherent x hvalid hfree).trans ?_
      rw [seen_of_holds hholds, seen_of_holds hholds]
      rfl
    · have := h.committing
      rw [hrun] at this
      exact this
    · intro hr
      cases hr
    · exact h.idle_of_finished hp hcode hne rfl rfl rfl rfl rfl rfl
  | finish =>
    have hne : s.next ≠ .recover := by rw [hnext]; decide
    obtain ⟨hregs, hplus, hblock, hdur, hholds⟩ := h.finished hp hcode hne
    have hrun : s.running = true := hwk.next.mp hnext
    subst hplus
    refine ⟨[], { h with
      owner := ?_, waiting := ?_, committing := ?_, returned := hdur.symm.le, booting := ?_
      task := .inr ?_ }⟩
    · intro r x hr
      rw [show s.reg r = none from hregs r] at hr
      cases hr
    · intro q x hq
      cases hq
    · simp
    · intro hr
      exact absurd (hrun.symm.trans hr) (by decide)
    · exact h.idle_of_finished hp hcode hne rfl hrun rfl rfl rfl rfl

theorem Inv.exec (h : Inv sb s plus) (hp : s.logger = some p) (hw : s.wait p = none)
    (hexec : exec sb s p = some s') : ∃ plus', Inv sb s' plus' := by
  unfold Journal.exec at hexec
  cases hcode : s.code with
  | nil =>
    rw [hcode] at hexec
    cases hexec
    exact h.advance hp hw hcode
  | cons i c =>
    rw [hcode] at hexec
    cases i with
    | bread r blk =>
      cases hexec
      exact ⟨plus, h.bread hp hw hcode⟩
    | memmove dst src =>
      obtain ⟨x, hx, hrest⟩ := bind_eq_some_iff.mp hexec
      obtain ⟨y, hy, rfl⟩ := map_eq_some_iff.mp hrest
      exact ⟨plus, h.memmove hp hw hcode hx hy⟩
    | bwrite r =>
      obtain ⟨x, hx, rfl⟩ := map_eq_some_iff.mp hexec
      exact ⟨plus, h.bwrite hp hw hcode hx⟩
    | bunpin r =>
      obtain ⟨x, hx, rfl⟩ := map_eq_some_iff.mp hexec
      exact h.bunpin hp hw hcode hx
    | brelse r =>
      obtain ⟨x, hx, rfl⟩ := map_eq_some_iff.mp hexec
      exact ⟨plus, h.brelse hp hw hcode hx⟩
    | getHead =>
      obtain ⟨x, hx, rfl⟩ := map_eq_some_iff.mp hexec
      exact ⟨plus, h.getHead hp hw hcode hx⟩
    | putHead =>
      obtain ⟨x, hx, rfl⟩ := map_eq_some_iff.mp hexec
      exact ⟨plus, h.putHead hp hw hcode hx⟩
    | clear =>
      cases hexec
      exact ⟨plus, h.clear hp hw hcode⟩

theorem Inv.go (h : Inv sb s plus) (hgo : go sb s p = some s') : ∃ plus', Inv sb s' plus' := by
  unfold Journal.go at hgo
  cases hw : s.wait p with
  | some b =>
    rw [hw] at hgo
    obtain ⟨hs, hgo⟩ := ite_none_right_eq_some.mp hgo
    cases hgo
    by_cases hp : s.logger = some p
    · exact ⟨plus, h.arrive hp hw hs⟩
    have hstay : (s.acquire p b).arrive p b = s.acquire p b := if_neg hp
    rw [hstay]
    exact ⟨plus, h.acquire hw hs hp⟩
  | none =>
    rw [hw] at hgo
    obtain ⟨hp, hgo⟩ := ite_none_right_eq_some.mp hgo
    exact h.exec hp hw hgo

/-! ## `begin_op`, `log_write` and `end_op` -/

theorem Inv.idle_of_inOp (h : Inv sb s plus) (hop : s.inOp p = true) : Idle sb s plus := by
  rcases h.task with ⟨q, hq⟩ | hidle
  · rw [hq.outside p] at hop
    cases hop
  · exact hidle

theorem Inv.noRegs (h : Inv sb s plus) (hidle : Idle sb s plus) (r : Reg) : s.reg r = none := by
  cases hr : s.reg r with
  | none => rfl
  | some x =>
    obtain ⟨q, hq, -⟩ := h.owner r x hr
    rw [hidle.logger] at hq
    cases hq

theorem Inv.setOp (h : Inv sb s plus) (hidle : Idle sb s plus) {l : Log} {v : Bool}
    (hsize : l.size = s.log.size) (hcommitting : l.committing = s.log.committing)
    (hblock : l.block = s.log.block) (hout : l.outstanding = tally Bool.toNat (update s.inOp p v)) :
    Inv sb { s with log := l, inOp := update s.inOp p v } plus := by
  exact { h with
    size := hsize.trans h.size
    outstanding := hout
    committing := hcommitting.trans h.committing
    booting := fun hr => absurd (hidle.running.symm.trans hr) (by decide)
    task := .inr { hidle with block := hblock.trans hidle.block } }

theorem Inv.beginOp (h : Inv sb s plus) (hrun : s.running = true) (hop : s.inOp p = false) {l : Log}
    (hbegin : Fs.beginOp s.log = some l) :
    Inv sb { s with log := l, inOp := update s.inOp p true } plus := by
  unfold Fs.beginOp at hbegin
  obtain ⟨hcom, hbegin⟩ := ite_none_left_eq_some.mp hbegin
  obtain ⟨-, hbegin⟩ := ite_none_left_eq_some.mp hbegin
  cases hbegin
  have hidle : Idle sb s plus := by
    rcases h.task with ⟨q, hq⟩ | hidle
    · exfalso
      have := h.committing
      rw [hrun, hq.logger] at this
      exact hcom this
    · exact hidle
  refine h.setOp hidle rfl rfl rfl ?_
  have htally := tally_update Bool.toNat s.inOp p true
  have hout := h.outstanding
  rw [hop] at htally
  simp only [Bool.toNat_false, Bool.toNat_true] at htally
  simp only [hout]
  omega

section LogWrite
variable {v : Block}

theorem applyWrites_append (ws vs : List (Nat × Block)) (D : Disk) :
    applyWrites (ws ++ vs) D = applyWrites vs (applyWrites ws D) := foldl_append ..

theorem current_logWrite (H : History) (blk : Nat) (v : Block) :
    (H.logWrite blk v).current = update H.current blk v := by
  unfold History.current History.logWrite
  rw [applyWrites_append]
  rfl

def logBlocks (plus : List Nat) (blk : Nat) : List Nat := if blk ∈ plus then plus else plus ++ [blk]

theorem mem_logBlocks {x : Nat} : x ∈ logBlocks plus blk ↔ x ∈ plus ∨ x = blk := by
  unfold logBlocks
  split
  · rename_i hm
    constructor
    · exact .inl
    · rintro (hx | rfl)
      · exact hx
      · exact hm
  · simp

theorem block_logAppend (l : Log) (blk : Nat) : (logAppend l blk).block =
    logBlocks l.block blk := by
  unfold logAppend logBlocks
  split <;> rfl

theorem Idle.logWrite_ok (hidle : Idle sb s plus) (hsmall : s.blockno b < 2 ^ 32)
    (hhome : Home sb (s.blockno b)) (hroom : plus.length + 1 < sb.nlog) :
    HeaderOk sb (logBlocks plus (s.blockno b)) where
  nodup := by
    unfold logBlocks
    split
    · exact hidle.ok.nodup
    · rename_i hnot
      rw [nodup_append]
      refine ⟨hidle.ok.nodup, nodup_singleton _, ?_⟩
      intro x hx y hy e
      rw [mem_singleton.mp hy] at e
      exact hnot (e ▸ hx)
  home := by
    intro x hx
    rcases mem_logBlocks.mp hx with hx | rfl
    · exact hidle.ok.home x hx
    · exact ⟨hhome, hsmall⟩
  fits := by
    unfold logBlocks
    split
    · exact hidle.ok.fits
    · simpa using hroom

theorem Inv.logWrite (h : Inv sb s plus) (hop : s.inOp p = true) (hs : s.sleep b = some p)
    (hhome : Home sb (s.blockno b)) (v : Block) : ∃ plus', Inv sb (s.logWrite b v) plus' := by
  have hidle := h.idle_of_inOp hop
  unfold State.logWrite
  cases htests : logWriteTests s.log with
  | error e => exact ⟨plus, h.halt⟩
  | ok u =>
    have hroom : plus.length + 1 < sb.nlog := by
      unfold logWriteTests at htests
      split at htests
      · cases htests
      · rename_i hfull
        have hsize := h.size
        have hn : s.log.n = plus.length := congrArg length hidle.block
        omega
    have hlocked : s.sleep b ≠ none := by rw [hs]; simp
    have hused := users_ne_zero_of_sleep hlocked
    have hid : s.cache.ident b = (ROOTDEV, s.blockno b) :=
      Counts.ident_of_dev (h.counts.dev b (.inl hused))
    have hfresh : s.blockno b ∉ s.recovered := h.clean b hused (.inl hidle.running)
    let blk := s.blockno b
    let new := blk ∉ s.log.block
    let c := if new then bpin s.cache b else s.cache
    let ps := if new then update s.pins b (s.pins b + 1) else s.pins
    have hcounts : Counts c s.users ps (logBlocks plus blk) s.recovered := by
      simp only [c, ps, new, hidle.block, logBlocks]
      by_cases hm : blk ∈ plus
      · simp only [hm, not_true, if_false, if_true]
        exact h.counts
      · simp only [hm, not_false_eq_true, if_true, if_false]
        exact h.counts.bpin hid hm hfresh
    have hident (x : BufId) : c.ident x = s.cache.ident x := by
      simp only [c]
      split
      · exact ident_incref b x
      · rfl
    have hblk (x : BufId) : (c.buf x).blockno = s.blockno x := congrArg Prod.snd (hident x)
    have hdev (x : BufId) : (c.buf x).dev = (s.cache.buf x).dev := congrArg Prod.fst (hident x)
    have hvalid (x : BufId) : (c.buf x).valid = (s.cache.buf x).valid := by
      simp only [c]
      split
      · obtain rfl | hx := eq_or_ne x b
        · simp [bpin, incref, Cache.setBuf]
        · simp [bpin, incref, Cache.setBuf, hx]
      · rfl
    have hcur : (s.history.logWrite blk v).current = update s.history.current blk v :=
      current_logWrite ..
    refine ⟨logBlocks plus blk, hcounts, ?_, ?_, h.owner, h.distinct, ?_, ?_, ?_, ?_, ?_, ?_, ?_,
      h.returned, h.durable, h.recovered, ?_, .inr ⟨hidle.logger, hidle.running, ?_, ?_,
      hidle.header, hidle.durable, ?_, hidle.logWrite_ok (h.small b) hhome hroom⟩⟩
    · intro x
      exact (hblk x).trans_lt (h.small x)
    · intro x hx hfree
      change (c.buf x).blockno ∉ s.recovered
      rw [hblk]
      exact h.clean x hx hfree
    · intro q x hq
      rw [hidle.logger] at hq
      cases hq
    · intro x hx
      exact (hvalid x).trans (h.locked x hx)
    · intro x hx hmem
      change (c.buf x).blockno ∈ logBlocks plus blk at hmem
      rw [hblk] at hmem
      refine (hvalid x).trans ?_
      have hx' : (s.cache.buf x).dev = ROOTDEV := (hdev x).symm.trans hx
      rcases mem_logBlocks.mp hmem with hm | hm
      · exact h.pinned x hx' hm
      have hxid : s.cache.ident x = (ROOTDEV, s.blockno b) := by
        rw [Counts.ident_of_dev hx']
        exact congrArg _ hm
      rw [h.counts.unique hxid hid]
      exact h.locked b hlocked
    · intro x hx hfree
      change update s.data b v x =
        seen sb s.running (s.history.logWrite blk v) s.disk (c.buf x).blockno
      rw [hblk]
      have hx' : (s.cache.buf x).valid = true := (hvalid x).symm.trans hx
      obtain rfl | hxb := eq_or_ne x b
      · rw [update_self, seen, if_pos ⟨hidle.running, hhome⟩, hcur]
        exact (update_self blk v s.history.current).symm
      rw [update_of_ne hxb, h.coherent x hx' hfree]
      have hne : s.blockno x ≠ blk := by
        intro e
        have hxid : s.cache.ident x = (ROOTDEV, s.blockno b) := by
          rw [Counts.ident_of_dev (h.counts.dev x (.inr hx'))]
          exact congrArg _ e
        exact hxb (h.counts.unique hxid hid)
      unfold seen
      rw [hcur, update_of_ne hne]
    · have : (logAppend s.log blk).size = s.log.size := by
        unfold logAppend
        split <;> rfl
      exact this.trans h.size
    · have : (logAppend s.log blk).outstanding = s.log.outstanding := by
        unfold logAppend
        split <;> rfl
      exact this.trans h.outstanding
    · have : (logAppend s.log blk).committing = s.log.committing := by
        unfold logAppend
        split <;> rfl
      exact this.trans h.committing
    · exact fun hr => absurd (hidle.running.symm.trans hr) (by decide)
    · exact (block_logAppend s.log blk).trans (by rw [hidle.block])
    · refine ⟨hidle.sound.holds, ?_⟩
      intro hl x hx hnot
      rw [mem_logBlocks, not_or] at hnot
      rw [hcur, update_of_ne hnot.2]
      exact hidle.sound.settled hl x hx hnot.1
    · intro x
      rw [mem_logBlocks, hidle.logged]
      simp only [History.logWrite, mem_append, mem_singleton, Prod.mk.injEq]
      constructor
      · rintro (⟨w, hw⟩ | rfl)
        · exact ⟨w, .inl hw⟩
        · exact ⟨v, .inr ⟨rfl, rfl⟩⟩
      · rintro ⟨w, hw | ⟨rfl, -⟩⟩
        · exact .inl ⟨w, hw⟩
        · exact .inr rfl

end LogWrite

section EndOp

theorem applyWrites_other : ∀ (ws : List (Nat × Block)) (D : Disk) (x : Nat),
    (∀ v, (x, v) ∉ ws) → applyWrites ws D x = D x := by
  intro ws
  induction ws with
  | nil => exact fun _ _ _ => rfl
  | cons w ws ih =>
    intro D x hx
    have hne : x ≠ w.1 := fun e => hx w.2 (e ▸ mem_cons_self ..)
    refine (ih _ x fun v hv => hx v (mem_cons_of_mem _ hv)).trans ?_
    exact update_of_ne hne _ _

theorem contents_commit (H : History) :
    H.commit.contents H.groups.length = H.contents H.groups.length := by
  unfold History.commit
  split
  · rfl
  · unfold History.contents
    simp

theorem current_commit (H : History) : H.commit.current = H.current := by
  unfold History.commit
  split
  · rfl
  unfold History.current History.contents
  simp only [length_append, length_singleton, take_length]
  rw [take_of_length_le (by simp), flatten_append, applyWrites_append]
  simp [applyWrites]

theorem group_commit (H : History) : H.commit.group = [] := by
  unfold History.commit
  split
  · rename_i h
    exact isEmpty_iff.mp h
  · rfl

theorem length_groups_commit (H : History) : H.groups.length ≤ H.commit.groups.length := by
  unfold History.commit
  split
  · exact le_rfl
  · simp

theorem Inv.safe_commitCode (h : Inv sb s plus) (hidle : Idle sb s plus) :
    Safe sb s.running s.history.commit (Post sb s.history.commit .finish)
      (commitCode sb s.log.block)
      (s.hand plus) := by
  have hregs := h.noRegs hidle
  have hhand : s.hand plus = ⟨s.disk, none, none, plus, s.durable, plus, s.recovered⟩ := by
    rw [State.hand, hregs, hregs, hidle.block]
    rfl
  obtain ⟨bs, hholds⟩ := hidle.sound.holds
  have hbs : bs = [] := hholds.header.symm.trans hidle.header
  subst hbs
  have hcontents : s.history.commit.contents s.durable = s.history.contents s.durable := by
    rw [hidle.durable]
    exact contents_commit s.history
  have hsound : Sound sb true s.history.commit s.disk s.durable plus := by
    refine ⟨⟨[], ?_⟩, ?_⟩
    · rw [hcontents]
      exact hholds
    · rw [current_commit]
      exact fun _ => hidle.sound.settled hidle.running
  rw [hhand, hidle.block, hidle.running]
  by_cases hne : plus = []
  · have hgroup : s.history.group = [] := by
      cases hg : s.history.group with
      | nil => rfl
      | cons w ws =>
        have hmem : w.1 ∈ plus := (hidle.logged w.1).mpr ⟨w.2, by rw [hg]; exact mem_cons_self ..⟩
        rw [hne] at hmem
        cases hmem
    have hsame : s.history.commit = s.history := by
      unfold History.commit
      rw [if_pos (by rw [hgroup]; rfl)]
    rw [hne] at hsound ⊢
    refine .done hsound ⟨rfl, rfl, rfl, ?_, rfl, hidle.header⟩
    rw [hsame]
    exact hidle.durable
  · refine safe_commit hsound ?_ hidle.ok hne ?_ ?_ h.counts.disjoint h.recovered
    · rw [hcontents]
      exact hholds
    · intro blk _
      rw [current_of_no_group (group_commit s.history)]
    · intro blk _ hnot
      rw [current_commit, hcontents, History.current, hidle.durable]
      refine applyWrites_other _ _ _ ?_
      intro v hv
      exact hnot ((hidle.logged blk).mpr ⟨v, hv⟩)

theorem Inv.endOp (h : Inv sb s plus) (hop : s.inOp p = true) (hw : s.wait p = none) :
    ∃ plus', Inv sb (s.endOp sb p) plus' := by
  have hidle := h.idle_of_inOp hop
  have hcom : s.log.committing = false := by
    have := h.committing
    rw [hidle.logger] at this
    simpa using this
  have htally := tally_update Bool.toNat s.inOp p false
  rw [hop] at htally
  simp only [Bool.toNat_false, Bool.toNat_true] at htally
  have hout := h.outstanding
  unfold State.endOp Fs.endOp
  simp only [hcom, Bool.false_eq_true, if_false]
  by_cases hlast : s.log.outstanding - 1 = 0
  · simp only [hlast, if_true]
    have hzero : tally Bool.toNat (update s.inOp p false) = 0 := by omega
    have hnone : ∀ q, update s.inOp p false q = false := by
      intro q
      have := tally_eq_zero.mp hzero q
      cases hq : update s.inOp p false q with
      | false => rfl
      | true => rw [hq] at this; cases this
    refine ⟨plus, { h with
      owner := ?_, waiting := ?_, coherent := ?_, outstanding := ?_, committing := ?_
      durable := ?_, booting := ?_
      task := .inl ⟨p, rfl, h.safe_commitCode hidle, ?_, group_commit _, hnone⟩ }⟩
    · intro r x hr
      rw [show s.reg r = none from h.noRegs hidle r] at hr
      cases hr
    · intro q x hq hx
      have hqp : p = q := Option.some.inj hq
      rw [← hqp, show s.wait p = none from hw] at hx
      cases hx
    · intro x hvalid hfree
      refine (h.coherent x hvalid hfree).trans ?_
      unfold seen
      rw [current_commit]
      rfl
    · change (0 : Int) = _
      rw [hzero]
      rfl
    · rw [hidle.running]
      rfl
    · exact h.durable.trans (length_groups_commit s.history)
    · exact fun hr => absurd (hidle.running.symm.trans hr) (by decide)
    · rw [hidle.running]
      simp
  · simp only [hlast, if_false]
    refine ⟨plus, h.setOp hidle rfl hcom.symm rfl ?_⟩
    change s.log.outstanding - 1 = _
    omega

end EndOp

/-! ## Boot and crash -/

theorem Inv.boot (D : Disk) (H : History) (returned : Nat) {bs : List Nat}
    (hholds : Holds sb D bs (H.contents H.groups.length)) (hgroup : H.group = [])
    (hret : returned ≤ H.groups.length) : Inv sb (boot sb D H H.groups.length returned) [] := by
  have husers : (Journal.boot sb D H H.groups.length returned).users = fun _ => 0 := by
    funext b
    have : tally (waits b) (fun _ : Slot => none) = 0 := tally_eq_zero.mpr fun _ => rfl
    rw [State.users, show (Journal.boot sb D H H.groups.length returned).wait = fun _ =>
      none from rfl,
      this]
    rfl
  have hbuf (b : BufId) : binit.buf b = ⟨false, 0, 0, 0, 0⟩ := by
    rw [binit, foldl_pushFront_buf]
    rfl
  have hvalid (b : BufId) : (binit.buf b).valid = false := by rw [hbuf]
  refine ⟨?_, ?_, ?_, ?_, ?_, ?_, ?_, ?_, ?_, rfl, ?_, rfl, hret, le_rfl, ?_, ?_,
    .inl ⟨0, rfl, ?_, ?_, hgroup, fun _ => rfl⟩⟩
  · rw [husers]
    exact counts_binit
  · intro b
    change (binit.buf b).blockno < 2 ^ 32
    rw [hbuf]
    decide
  · intro b hb
    rw [husers] at hb
    exact absurd rfl hb
  · intro r b hr
    cases hr
  · intro r r' b hr
    cases hr
  · intro p b _ hb
    cases hb
  · intro b hb
    exact absurd rfl hb
  · intro b _ hb
    cases hb
  · intro b hb
    exact absurd ((hvalid b).symm.trans hb) (by decide)
  · have : tally Bool.toNat (fun _ : Slot => false) = 0 := tally_eq_zero.mpr fun _ => rfl
    change (0 : Int) = (tally Bool.toNat fun _ : Slot => false : Nat)
    rw [this]
    rfl
  · intro blk hb
    cases hb
  · intro _
    exact ⟨rfl, fun _ _ => rfl, fun b hb => absurd rfl hb⟩
  · exact safe_boot ⟨⟨bs, hholds⟩, fun hl => by cases hl⟩
  · change Next.recover = Next.finish ↔ false = true
    simp

theorem Inv.init {D : Disk} (h : HeaderOk sb (getHeader (D sb.logstart))) : Inv sb (init sb D) [] :=
  Inv.boot D ⟨installed sb D, [], []⟩ 0 (holds_installed D h) rfl le_rfl

theorem Inv.crash (h : Inv sb s plus) :
    Inv sb (Journal.boot sb s.disk (s.history.crash s.durable) s.durable s.returned) [] := by
  obtain ⟨bs, hholds⟩ := h.sound.holds
  have hlen : (s.history.crash s.durable).groups.length = s.durable := by
    simp [History.crash, h.durable]
  have hcontents : (s.history.crash s.durable).contents s.durable =
    s.history.contents s.durable := by
    simp [History.crash, History.contents, take_take]
  have hcrash : Holds sb s.disk bs ((s.history.crash s.durable).contents
      (s.history.crash s.durable).groups.length) := by
    rw [hlen, hcontents]
    exact hholds
  have hboot := Inv.boot s.disk (s.history.crash s.durable) s.returned hcrash rfl
    (by rw [hlen]; exact h.returned)
  rwa [hlen] at hboot

/-- The caller does not read a block that recovery has installed since the last boot. -/
def Untouched (s : State) : Op → Prop
  | .bread _ blk => blk ∉ s.recovered
  | _ => True

instance (s : State) (op : Op) : Decidable (Untouched s op) := by
  cases op <;> dsimp only [Untouched] <;> infer_instance

theorem Inv.step {op : Op} (h : Inv sb s plus) (hgood : Untouched s op)
    (hstep : step sb s op = some s') : ∃ plus', Inv sb s' plus' := by
  cases op with
  | crash =>
    cases hstep
    exact ⟨[], h.crash⟩
  | go p =>
    obtain ⟨-, hgo⟩ := ite_none_left_eq_some.mp hstep
    exact h.go hgo
  | bread p blk =>
    obtain ⟨⟨-, hfree, hsmall⟩, hstep⟩ := ite_none_right_eq_some.mp hstep
    cases hstep
    obtain ⟨hrun, hp, hw⟩ := hfree
    refine ⟨plus, h.bget hw hsmall hgood (fun x hx => h.clean x hx (.inl hrun)) ?_ ?_⟩
    · exact fun e => absurd e hp
    · exact fun hr => absurd (hrun.symm.trans hr) (by decide)
  | brelse p b =>
    obtain ⟨⟨-, hfree, hs⟩, hstep⟩ := ite_none_right_eq_some.mp hstep
    cases hstep
    exact ⟨plus, h.release hs hfree.2.1⟩
  | beginOp p =>
    obtain ⟨⟨-, hfree, hop⟩, hstep⟩ := ite_none_right_eq_some.mp hstep
    obtain ⟨l, hl, rfl⟩ := map_eq_some_iff.mp hstep
    exact ⟨plus, h.beginOp hfree.1 hop hl⟩
  | logWrite p b v =>
    obtain ⟨⟨-, -, hop, hs, hhome⟩, hstep⟩ := ite_none_right_eq_some.mp hstep
    cases hstep
    exact h.logWrite hop hs hhome v
  | endOp p =>
    obtain ⟨⟨-, hfree, hop⟩, hstep⟩ := ite_none_right_eq_some.mp hstep
    cases hstep
    exact h.endOp hop hfree.2.2
  | tick =>
    obtain ⟨-, hstep⟩ := ite_none_left_eq_some.mp hstep
    cases hstep
    exact ⟨plus, h.tick _⟩

end BirdOS.Journal
