import BirdOS.Fs.JournalSteps

/-! # Recovery

A boot runs to its end, and then the home blocks hold exactly the durable groups.  The
reference counts are exact as long as no boot has anything to install; a recovery that
installs blocks leaves their counts one too low. -/

namespace BirdOS.Journal

open Machine Bio Fs Tally Function List Option

variable {sb : Superblock} {s t u : State} {plus : List Nat}

/-! ## The end of a boot -/

def Runs (sb : Superblock) (n : Nat) (s t : State) : Prop :=
  run (step sb) s (List.replicate n (.go 0)) = some t

theorem Runs.refl (s : State) : Runs sb 0 s s := rfl

theorem Runs.trans {m n : Nat} (h : Runs sb m s t) (h' : Runs sb n t u) : Runs sb (m + n) s u := by
  unfold Runs at h h' ⊢
  rw [replicate_add, run_append, h]
  exact h'

theorem Runs.one (hlive : s.halted = false) (h : go sb s 0 = some t) : Runs sb 1 s t := by
  have hstep : step sb s (.go 0) = some t := by
    simp only [step, hlive, Bool.false_eq_true, if_false]
    exact h
  unfold Runs
  rw [replicate_one, run_cons, hstep]
  rfl

structure Boots (sb : Superblock) (s : State) (plus : List Nat) : Prop where
  inv : Inv sb s plus
  running : s.running = false
  halted : s.halted = false
  wait : s.wait 0 = none

theorem Boots.logger (h : Boots sb s plus) : s.logger = some 0 := (h.inv.booting h.running).logger

theorem level_ne_zero {minus : List Nat} {id : Nat × Nat} (h : level [] minus id ≠ 0) :
    id.1 = ROOTDEV ∧ id.2 ∈ minus := by
  unfold level at h
  rw [if_neg (by simp)] at h
  split at h
  · rename_i hm
    exact hm
  · exact absurd rfl h

theorem Boots.busy (h : Boots sb s []) {b : BufId} (hb : (s.cache.buf b).refcnt ≠ 0) :
    (s.cache.buf b).dev = ROOTDEV ∧ ((∃ r, s.reg r = some b) ∨ s.blockno b ∈ s.recovered) := by
  have hcount := h.inv.counts.count b
  by_cases hu : s.users b = 0
  · have hpins : s.pins b ≠ 0 := by
      intro hp
      rw [hu, hp] at hcount
      exact hb (UInt32.toNat_inj.mp (Int.ofNat.inj hcount))
    rw [h.inv.counts.pins b] at hpins
    obtain ⟨hdev, hmem⟩ := level_ne_zero hpins
    exact ⟨hdev, .inr hmem⟩
  · refine ⟨h.inv.counts.dev b (.inl hu), .inl ?_⟩
    rw [h.inv.users_boot h.running h.logger h.wait b] at hu
    refine (h.inv.booting h.running).sleep b ?_
    intro hnone
    rw [hnone] at hu
    exact hu rfl

theorem Boots.bget_some (h : Boots sb s []) (blk : Nat)
    (hroom : s.recovered.length + (s.hand []).loaded < NBUF) : Bio.bget s.cache ROOTDEV blk ≠
      none := by
  intro hnone
  obtain ⟨lists, hwf, hfull⟩ := h.inv.counts.lists
  have hbusy (b : BufId) := h.busy (bget_none hwf hfull hnone b)
  -- the buffers would stand for more different blocks than there are at this point
  let blocks := s.recovered ++ ((s.hand []).log.toList ++ (s.hand []).home.toList).map Prod.fst
  have hmem (b : BufId) : s.blockno b ∈ blocks := by
    rcases (hbusy b).2 with ⟨r, hr⟩ | hrec
    · refine mem_append_right _ (mem_map.mpr ⟨s.held b, ?_, rfl⟩)
      cases r with
      | log | home => simp [State.hand, hr]
    · exact mem_append_left _ hrec
  have hinj : Function.Injective s.blockno := by
    intro a b hab
    have ha := Counts.ident_of_dev (hbusy a).1
    have hb := Counts.ident_of_dev (hbusy b).1
    refine h.inv.counts.unique ha ?_
    rw [hb]
    exact congrArg _ hab.symm
  have hcard : Fintype.card BufId ≤ blocks.toFinset.card := by
    rw [← Finset.card_univ]
    refine Finset.card_le_card_of_injOn s.blockno ?_ hinj.injOn
    intro b _
    exact mem_toFinset.mpr (hmem b)
  have hlen := blocks.toFinset_card_le
  have hsize : blocks.length = s.recovered.length + (s.hand []).loaded := by
    simp [blocks, Hand.loaded]
  rw [Fintype.card_fin] at hcard
  omega

def GoesTo (sb : Superblock) (s : State) (c : List Instr) : Prop :=
  ∃ n t plus', Runs sb n s t ∧ Boots sb t plus' ∧ t.code = c ∧ t.next = s.next ∧
    t.history = s.history

theorem Boots.bread (h : Boots sb s plus) (hsize : sb.nlog ≤ LOGSIZE) {r : Reg} {blk : Nat}
    {c : List Instr} (hcode : s.code = .bread r blk :: c) :
    GoesTo sb s c := by
  have hclean := h.inv.clean_at_bread h.logger hcode
  cases h.inv.safeAt h.logger hcode with
  | bread sound free small fresh others room rest =>
    obtain ⟨hplus, hroom⟩ := room h.running
    have hplus' : plus = [] := hplus
    subst hplus'
    obtain ⟨⟨c', b⟩, hget⟩ := ne_none_iff_exists'.mp (h.bget_some blk (hroom hsize))
    let s1 : State := { s with cache := c', wait := update s.wait 0 (some b) }
    have hbget : s.bget 0 blk = s1 := by
      unfold State.bget
      rw [hget]
    have hgo1 : go sb s 0 = some s1 := by
      unfold go
      rw [h.wait]
      simp only [if_pos h.logger, exec, hcode, hbget]
    have hinv1 : Inv sb s1 [] := hbget ▸ h.inv.bread h.logger h.wait hcode
    have hwait1 : s1.wait 0 = some b := by simp [s1]
    have hsleep : s.sleep b = none := by
      by_contra hne
      obtain ⟨lists, hwf, hfull⟩ := h.inv.counts.lists
      obtain ⟨hgot, -⟩ := bget_spec hwf hfull (by decide) hget
      have hid := (h.inv.counts.bget_used hgot hclean (users_ne_zero_of_sleep hne)).1
      rw [hgot.ident] at hid
      obtain ⟨r', hr'⟩ := (h.inv.booting h.running).sleep b hne
      have hhand : (s.hand []).reg r' = some (s.held b) := by
        rw [hand_reg, hr']
        rfl
      exact (others r' _ hhand).2 (congrArg Prod.snd hid).symm
    have hgo2 : go sb s1 0 = some ((s1.acquire 0 b).arrive 0 b) := by
      unfold go
      rw [hwait1]
      exact if_pos hsleep
    obtain ⟨plus', hinv2⟩ := hinv1.go hgo2
    have harrive : (s1.acquire 0 b).arrive 0 b =
        { s1.acquire 0 b with reg := update s.reg r (some b), code := c } := by
      unfold State.arrive
      rw [if_pos (show (s1.acquire 0 b).logger = some 0 from h.logger)]
      simp only [State.acquire, s1, hcode]
    rw [harrive] at hgo2 hinv2
    refine ⟨1 + 1, _, plus', (Runs.one h.halted hgo1).trans (Runs.one h.halted hgo2),
      ⟨hinv2, h.running, h.halted, ?_⟩, rfl, rfl, rfl⟩
    simp [State.acquire]

theorem Boots.statement (h : Boots sb s plus) (hsize : sb.nlog ≤ LOGSIZE) {i : Instr}
    {c : List Instr}
    (hcode : s.code = i :: c) :
    GoesTo sb s c := by
  have hsafe := h.inv.safeAt h.logger hcode
  -- a statement other than bread is one step
  have hone (s' : State) (hexec : exec sb s 0 = some s') (hrun : s'.running = s.running)
      (hhalt : s'.halted = s.halted) (hwait : s'.wait = s.wait) (hc : s'.code = c)
      (hnext : s'.next = s.next) (hhist : s'.history = s.history) :
      GoesTo sb s c := by
    have hgo : go sb s 0 = some s' := by
      unfold go
      rw [h.wait]
      exact (if_pos h.logger).trans hexec
    obtain ⟨plus', hinv⟩ := h.inv.go hgo
    refine ⟨1, s', plus', .one h.halted hgo,
      ⟨hinv, hrun.trans h.running, hhalt.trans h.halted, ?_⟩, hc,
      hnext, hhist⟩
    rw [hwait]
    exact h.wait
  have hreg {r : Reg} {x : Nat × Block} (hr : (s.hand plus).reg r = some x) :
      ∃ b, s.reg r = some b := by
    rw [hand_reg] at hr
    obtain ⟨b, hb, -⟩ := map_eq_some_iff.mp hr
    exact ⟨b, hb⟩
  cases hsafe with
  | bread sound free small fresh others room rest => exact h.bread hsize hcode
  | memmove sound hdst hsrc rest =>
    obtain ⟨x, hx⟩ := hreg hdst
    obtain ⟨y, hy⟩ := hreg hsrc
    refine hone { s with data := update s.data x (s.data y), code := c } ?_ rfl rfl rfl rfl rfl rfl
    simp [exec, hcode, hx, hy]
  | bwrite sound hr rest =>
    obtain ⟨x, hx⟩ := hreg hr
    refine hone { s.bwrite sb x with code := c } ?_ rfl rfl rfl rfl rfl rfl
    simp [exec, hcode, hx]
  | bunpin sound hr home pinned unpinned once rest =>
    obtain ⟨x, hx⟩ := hreg hr
    refine hone { s.bunpin x with code := c } ?_ rfl rfl rfl rfl rfl rfl
    simp [exec, hcode, hx]
  | brelse sound hr same rest =>
    rename_i r _
    obtain ⟨x, hx⟩ := hreg hr
    refine hone { s.release x with reg := update s.reg r none, code := c } ?_ rfl rfl rfl rfl
      rfl rfl
    simp [exec, hcode, hx]
  | getHead sound hr rest =>
    obtain ⟨x, hx⟩ := hreg (r := .log) hr
    refine hone { s with log := { s.log with block := getHeader (s.data x) }, code := c }
      ?_ rfl rfl rfl
      rfl rfl rfl
    simp [exec, hcode, hx]
  | putHead sound hr rest =>
    obtain ⟨x, hx⟩ := hreg (r := .log) hr
    refine hone
      { s with data := update s.data x (putHeader (s.data x) s.log.block), code := c } ?_ rfl rfl
      rfl rfl rfl rfl
    simp [exec, hcode, hx]
  | clear sound rest =>
    refine hone { s with log := { s.log with block := [] }, code := c } ?_ rfl rfl rfl rfl rfl rfl
    simp [exec, hcode]

theorem Boots.code (hsize : sb.nlog ≤ LOGSIZE) : ∀ (c : List Instr) (s : State) (plus : List Nat),
    Boots sb s plus → s.code = c → GoesTo sb s [] := by
  intro c
  induction c with
  | nil =>
    intro s plus h hcode
    exact ⟨0, s, plus, .refl s, h, hcode, rfl, rfl⟩
  | cons i c ih =>
    intro s plus h hcode
    obtain ⟨m, t, plus', hrun, hboots, hc, hnext, hhist⟩ := h.statement hsize hcode
    obtain ⟨n, u, plus'', hrun', hboots', hc', hnext', hhist'⟩ := ih t plus' hboots hc
    exact ⟨m + n, u, plus'', hrun.trans hrun', hboots', hc', hnext'.trans hnext, hhist'.trans hhist⟩

theorem Boots.go_nil (h : Boots sb s plus) (hcode : s.code = []) :
    go sb s 0 = some (s.advance sb) := by
  unfold go
  rw [h.wait]
  simp only [if_pos h.logger, exec, hcode]

theorem boot_completes (hsize : sb.nlog ≤ LOGSIZE) (D : Disk) (H : History) (returned : Nat)
    {bs : List Nat} (hholds : Holds sb D bs (H.contents H.groups.length)) (hgroup : H.group = [])
    (hret : returned ≤ H.groups.length) :
    ∃ n t, Runs sb n (boot sb D H H.groups.length returned) t ∧ t.running = true ∧
      ∀ blk, Home sb blk → t.disk blk = H.contents H.groups.length blk := by
  have hstart : Boots sb (boot sb D H H.groups.length returned) [] :=
    ⟨Inv.boot D H returned hholds hgroup hret, rfl, rfl, rfl⟩
  obtain ⟨m, s, plus, hrun, hs, hcode, hnext, hhist⟩ := Boots.code hsize _ _ _ hstart rfl
  have hgo := hs.go_nil hcode
  have hadv : s.advance sb = { s with code := recoverCode sb s.log.block, next := .booted } := by
    unfold State.advance
    rw [hnext]
    rfl
  rw [hadv] at hgo
  obtain ⟨plus', hinv⟩ := hs.inv.go hgo
  obtain ⟨n, t, plus'', hrun', ht, hcode', hnext', hhist'⟩ := Boots.code hsize _ _ _
    ⟨hinv, hs.running, hs.halted, hs.wait⟩ rfl
  have hnext'' : t.next = .booted := hnext'
  have hgo' := ht.go_nil hcode'
  have hadv' : t.advance sb = { t with logger := none, running := true } := by
    unfold State.advance
    rw [hnext'']
  rw [hadv'] at hgo'
  have hall := (hrun.trans (.one hs.halted hgo)).trans (hrun'.trans (.one ht.halted hgo'))
  refine ⟨_, _, hall, rfl, ?_⟩
  obtain ⟨-, -, -, -, hend⟩ := ht.inv.finished ht.logger hcode' (by rw [hnext'']; decide)
  have hhistory : t.history = H := hhist'.trans hhist
  rw [hhistory, current_of_no_group hgroup] at hend
  exact fun blk hb => hend.rest blk hb (by simp)

/-! ## Crash atomicity -/

/-- If nobody reads a block that recovery has installed since the last boot, then after a crash
at any point recovery ends, and the home blocks hold the groups whose header had been written
and nothing of the others; the groups whose `commit` had returned are among them. -/
theorem crash_atomicity (sb : Superblock) (hsize : sb.nlog ≤ LOGSIZE) (D : Disk)
    (hD : HeaderOk sb (getHeader (D sb.logstart))) (ops : List Op) (s : State)
    (hgood : Along (step sb) Untouched (init sb D) ops)
    (hrun : run (step sb) (init sb D) ops = some s) :
    s.returned ≤ s.durable ∧ s.durable ≤ s.history.groups.length ∧
      ∃ n t, run (step sb) s (.crash :: List.replicate n (.go 0)) = some t ∧
        t.running = true ∧ ∀ blk, Home sb blk → t.disk blk = s.history.contents s.durable blk := by
  obtain ⟨plus, hinv⟩ : ∃ plus, Inv sb s plus :=
    along_invariant (I := fun s => ∃ plus, Inv sb s plus)
      (fun _ _ _ h hop hstep => h.elim fun _ h => h.step hop hstep) ops (init sb D) s
        ⟨[], Inv.init hD⟩
      hgood hrun
  refine ⟨hinv.returned, hinv.durable, ?_⟩
  obtain ⟨bs, hholds⟩ := hinv.sound.holds
  have hlen : (s.history.crash s.durable).groups.length = s.durable := by
    simp [History.crash, hinv.durable]
  have hcontents : (s.history.crash s.durable).contents s.durable =
    s.history.contents s.durable := by
    simp [History.crash, History.contents, List.take_take]
  have hcrash : Holds sb s.disk bs ((s.history.crash s.durable).contents
      (s.history.crash s.durable).groups.length) := by
    rw [hlen, hcontents]
    exact hholds
  have hboot := boot_completes hsize s.disk (s.history.crash s.durable) s.returned hcrash rfl
    (by rw [hlen]; exact hinv.returned)
  rw [hlen, hcontents] at hboot
  obtain ⟨n, t, hruns, hrunning, hdisk⟩ := hboot
  refine ⟨n, t, ?_, hrunning, hdisk⟩
  rw [run_cons]
  exact hruns

def smallSb : Superblock :=
  ⟨2000, 16, 30, 13, 43, 45, by decide, by decide, by decide, by decide, by decide⟩

def halfCommit : List Op :=
  List.replicate 15 (.go 0) ++ [.beginOp 1, .bread 1 52, .go 1, .logWrite 1 28 fun _ => 5,
    .brelse 1 28, .endOp 1] ++ List.replicate 6 (.go 1)

theorem crash_atomicity_halfCommit : ∃ s,
    run (step smallSb) (init smallSb fun _ _ => 0) halfCommit = some s ∧
    s.returned ≤ s.durable ∧ s.durable ≤ s.history.groups.length ∧
    ∃ n t, run (step smallSb) s (.crash :: List.replicate n (.go 0)) = some t ∧
      t.running = true ∧ ∀ blk, Home smallSb blk →
        t.disk blk = s.history.contents s.durable blk := by
  have hrun : (run (step smallSb) (init smallSb fun _ _ => 0) halfCommit).isSome := by
    decide +kernel
  obtain ⟨s, hs⟩ := Option.isSome_iff_exists.mp hrun
  have hheader : HeaderOk smallSb (getHeader fun _ => 0) :=
    ⟨by decide +kernel, by decide +kernel, by decide +kernel⟩
  exact ⟨s, hs, crash_atomicity smallSb (by decide) (fun _ _ => 0) hheader halfCommit s
    (by decide +kernel) hs⟩

def committedDisk : Disk := fun blk =>
  if blk = 13 then putHeader (fun _ => 0) [52] else if blk = 14 then fun _ => 7 else fun _ => 0

def lostUpdate : List Op :=
  List.replicate 24 (.go 0) ++ [.beginOp 1, .bread 1 65, .go 1, .logWrite 1 27 fun _ => 9,
    .brelse 1 27, .bread 1 52, .go 1, .logWrite 1 28 fun _ => 9, .brelse 1 28, .bread 1 78, .go 1,
    .brelse 1 28, .endOp 1] ++ List.replicate 46 (.go 1)

/-- The commit has returned; after a crash and a recovery block 65 has its new contents and
block 52 its old ones. -/
theorem commit_loses_update : ∃ s t,
    run (step smallSb) (init smallSb committedDisk) lostUpdate = some s ∧
    run (step smallSb) s (.crash :: List.replicate 15 (.go 0)) = some t ∧
    t.running = true ∧ s.returned = 1 ∧
    ∀ k ≤ s.history.groups.length, ∃ blk, Home smallSb blk ∧
      t.disk blk ≠ s.history.contents k blk := by
  obtain ⟨s, hs, hret, hlen, hold, hnew, hrec⟩ := run_test (step smallSb)
    (init smallSb committedDisk) lostUpdate
    (fun s => s.returned = 1 ∧ s.history.groups.length = 1 ∧ s.history.contents 0 65 0 = 0 ∧
      s.history.contents 1 52 0 = 9 ∧
      (run (step smallSb) s (.crash :: List.replicate 15 (.go 0))).map
        (fun t => (t.running, t.disk 65 0, t.disk 52 0)) = some (true, 9, 7)) (by decide +kernel)
  obtain ⟨t, ht, hvals⟩ := Option.map_eq_some_iff.mp hrec
  simp only [Prod.mk.injEq] at hvals
  obtain ⟨hrunning, h65, h52⟩ := hvals
  refine ⟨s, t, hs, ht, hrunning, hret, ?_⟩
  intro k hk
  rw [hlen] at hk
  obtain rfl | rfl : k = 0 ∨ k = 1 := by omega
  · refine ⟨65, by decide, ?_⟩
    intro e
    rw [e, hold] at h65
    cases h65
  refine ⟨52, by decide, ?_⟩
  intro e
  rw [e, hnew] at h52
  cases h52

/-! ## Exact reference counts -/

/-- No power loss while the log on the disk is committed. -/
def Drained (sb : Superblock) (s : State) : Op → Prop
  | .crash => getHeader (s.disk sb.logstart) = []
  | _ => True

instance (sb : Superblock) (s : State) (op : Op) : Decidable (Drained sb s op) := by
  apply op.casesOn (motive := fun op => Decidable (Drained sb s op)) <;> intros <;>
    dsimp only [Drained] <;> infer_instance

structure Drains (sb : Superblock) (s : State) : Prop where
  recovered : s.recovered = []
  bunpin : s.running = false → ∀ r, Instr.bunpin r ∉ s.code
  header : s.running = false → s.next = .recover →
    getHeader (s.disk sb.logstart) = [] ∧ ∀ r, Instr.bwrite r ∉ s.code

theorem Drains.boot {D : Disk} {H : History} {durable returned : Nat}
    (h : getHeader (D sb.logstart) = []) : Drains sb (boot sb D H durable returned) where
  recovered := rfl
  bunpin := by
    intro _ r
    simp [Journal.boot, bootCode, readHeadCode]
  header := by
    refine fun _ _ => ⟨h, ?_⟩
    intro r
    simp [Journal.boot, bootCode, readHeadCode]

theorem Drains.running (hrec : s.recovered = []) (hrun : s.running = true) : Drains sb s :=
  ⟨hrec, fun hr => absurd (hrun.symm.trans hr) (by decide),
    fun hr => absurd (hrun.symm.trans hr) (by decide)⟩

section
variable (h : Drains sb s)
include h

theorem Drains.congr (hrec : t.recovered = s.recovered)
    (hrun : t.running = s.running) (hcode : ∀ i ∈ t.code, i ∈ s.code) (hnext : t.next = s.next)
    (hdisk : t.disk = s.disk) : Drains sb t where
  recovered := hrec.trans h.recovered
  bunpin := by
    intro hr r hm
    rw [hrun] at hr
    exact h.bunpin hr r (hcode _ hm)
  header := by
    intro hr hn
    rw [hrun] at hr
    rw [hnext] at hn
    obtain ⟨hhead, hwrite⟩ := h.header hr hn
    rw [hdisk]
    exact ⟨hhead, fun r hm => hwrite r (hcode _ hm)⟩

theorem Drains.arrive (p : Slot) (b : BufId) :
    Drains sb ((s.acquire p b).arrive p b) := by
  unfold State.arrive
  split
  · cases hcode : s.code with
    | nil =>
      simp only [State.acquire, hcode]
      exact h.congr rfl rfl (by simp) rfl rfl
    | cons i c =>
      cases i with
      | bread r blk =>
        simp only [State.acquire, hcode]
        exact h.congr rfl rfl (fun i hi => hcode ▸ mem_cons_of_mem _ hi) rfl rfl
      | _ =>
        simp only [State.acquire, hcode]
        exact h.congr rfl rfl (fun i hi => hcode ▸ hi) rfl rfl
  · exact h.congr rfl rfl (fun _ hi => hi) rfl rfl

theorem Drains.bget (p : Slot) (blk : Nat) : Drains sb (s.bget p blk) := by
  unfold State.bget
  split <;> exact h.congr rfl rfl (fun _ hi => hi) rfl rfl

theorem Drains.advance {p : Slot} (hinv : Inv sb s plus) (hp : s.logger = some p)
    (hcode : s.code = []) : Drains sb (s.advance sb) := by
  have hwk := hinv.working hp
  unfold State.advance
  cases hnext : s.next with
  | recover =>
    have hsafe := hwk.safe
    rw [hcode] at hsafe
    cases hsafe with
    | done sound last =>
      obtain ⟨-, -, -, -, hrest⟩ := last
      rw [hnext] at hrest
      have hblock : s.log.block = getHeader (s.disk sb.logstart) := hrest.2
      refine ⟨h.recovered, ?_, ?_⟩
      · intro hr r
        rw [hblock, (h.header hr hnext).1]
        simp [recoverCode, installTransCode, writeHeadCode]
      · intro _ hn
        cases hn
  | booted => exact .running h.recovered rfl
  | finish => exact .running h.recovered (hwk.next.mp hnext)

theorem Drains.exec {p : Slot} (hinv : Inv sb s plus) (hp : s.logger = some p)
    (hexec : exec sb s p = some t) : Drains sb t := by
  unfold Journal.exec at hexec
  cases hcode : s.code with
  | nil =>
    rw [hcode] at hexec
    cases hexec
    exact h.advance hinv hp hcode
  | cons i c =>
    rw [hcode] at hexec
    have hsub : ∀ j ∈ c, j ∈ s.code := fun j hj => hcode ▸ mem_cons_of_mem _ hj
    cases i with
    | bread r blk =>
      cases hexec
      exact h.bget p blk
    | memmove dst src =>
      obtain ⟨x, -, hrest⟩ := bind_eq_some_iff.mp hexec
      obtain ⟨y, -, rfl⟩ := map_eq_some_iff.mp hrest
      exact h.congr rfl rfl hsub rfl rfl
    | bwrite r =>
      obtain ⟨x, -, rfl⟩ := map_eq_some_iff.mp hexec
      refine ⟨h.recovered, fun hr r' hm => h.bunpin hr r' (hsub _ hm), ?_⟩
      intro hr hn
      exact absurd (hcode ▸ mem_cons_self ..) ((h.header hr hn).2 r)
    | bunpin r =>
      obtain ⟨x, -, rfl⟩ := map_eq_some_iff.mp hexec
      cases hrun : s.running with
      | true =>
        refine .running ?_ hrun
        simp only [State.bunpin, hrun, if_true]
        exact h.recovered
      | false => exact absurd (hcode ▸ mem_cons_self ..) (h.bunpin hrun r)
    | brelse r | getHead | putHead =>
      obtain ⟨x, -, rfl⟩ := map_eq_some_iff.mp hexec
      exact h.congr rfl rfl hsub rfl rfl
    | clear =>
      cases hexec
      exact h.congr rfl rfl hsub rfl rfl

theorem Drains.step {op : Op} (hinv : Inv sb s plus) (hgood : Drained sb s op)
    (hstep : step sb s op = some t) : Drains sb t := by
  cases op with
  | crash =>
    cases hstep
    exact .boot hgood
  | go p =>
    obtain ⟨-, hgo⟩ := ite_none_left_eq_some.mp hstep
    unfold Journal.go at hgo
    cases hw : s.wait p with
    | some b =>
      rw [hw] at hgo
      have hgo := of_guard hgo
      cases hgo
      exact h.arrive p b
    | none =>
      rw [hw] at hgo
      obtain ⟨hp, hgo⟩ := ite_none_right_eq_some.mp hgo
      exact h.exec hinv hp hgo
  | bread p blk =>
    have hstep := of_guard hstep
    cases hstep
    exact h.bget p blk
  | brelse p b =>
    have hstep := of_guard hstep
    cases hstep
    exact h.congr rfl rfl (fun _ hi => hi) rfl rfl
  | beginOp p =>
    have hstep := of_guard hstep
    obtain ⟨l, -, rfl⟩ := map_eq_some_iff.mp hstep
    exact h.congr rfl rfl (fun _ hi => hi) rfl rfl
  | logWrite p b v =>
    obtain ⟨⟨-, hfree, -⟩, hstep⟩ := ite_none_right_eq_some.mp hstep
    cases hstep
    unfold State.logWrite
    split <;> exact .running h.recovered hfree.1
  | endOp p =>
    obtain ⟨⟨-, hfree, -⟩, hstep⟩ := ite_none_right_eq_some.mp hstep
    cases hstep
    unfold State.endOp
    split <;> exact .running h.recovered hfree.1
  | tick =>
    obtain ⟨-, hstep⟩ := ite_none_left_eq_some.mp hstep
    cases hstep
    exact h.congr rfl rfl (fun _ hi => hi) rfl rfl

end

/-- In every run whose boots all find an empty log, each counter is the number of callers
between `bread` and `brelse` plus the number of pins of the log. -/
theorem refcounts_exact (sb : Superblock) (hlog : 0 < sb.nlog) (D : Disk)
    (hD : getHeader (D sb.logstart) = []) (ops : List Op) (s : State)
    (hgood : Along (step sb) (Drained sb) (init sb D) ops)
    (hrun : run (step sb) (init sb D) ops = some s) (b : BufId) :
    0 ≤ s.pins b ∧ (s.cache.count b : Int) = s.users b + s.pins b ∧
      (s.users b ≠ 0 ∨ s.pins b ≠ 0 → 0 < s.cache.count b) := by
  have hinit : Inv sb (init sb D) [] := Inv.init (by rw [hD]; exact headerOk_nil hlog)
  obtain ⟨⟨plus, hinv⟩, hdrains⟩ : (∃ plus, Inv sb s plus) ∧ Drains sb s := by
    refine along_invariant (I := fun s => (∃ plus, Inv sb s plus) ∧ Drains sb s) ?_ ops
      (init sb D) s ⟨⟨[], hinit⟩, .boot hD⟩ hgood hrun
    rintro s op s' ⟨⟨plus, hi⟩, hd⟩ hop hstep
    refine ⟨hi.step ?_ hstep, hd.step hi hop hstep⟩
    cases op with
    | bread p blk =>
      simp [Untouched, hd.recovered]
    | _ => trivial
  have hcount := hinv.counts.count b
  have hpins : 0 ≤ s.pins b ∧ s.pins b ≤ 1 := by
    rw [hinv.counts.pins b, hdrains.recovered, level]
    split
    · decide
    · rw [if_neg (by simp)]
      decide
  have hfew := hinv.counts.few b
  unfold NPROC at hfew
  have hexact : (s.cache.count b : Int) = s.users b + s.pins b := by
    refine hcount.trans (Int.emod_eq_of_lt ?_ ?_) <;> omega
  exact ⟨hpins.1, hexact, by omega⟩

theorem refcounts_exact_halfCommit : ∃ s,
    run (step smallSb) (init smallSb fun _ _ => 0) halfCommit = some s ∧
    ∀ b, 0 ≤ s.pins b ∧ (s.cache.count b : Int) = s.users b + s.pins b ∧
      (s.users b ≠ 0 ∨ s.pins b ≠ 0 → 0 < s.cache.count b) := by
  have hrun : (run (step smallSb) (init smallSb fun _ _ => 0) halfCommit).isSome := by
    decide +kernel
  obtain ⟨s, hs⟩ := Option.isSome_iff_exists.mp hrun
  have hheader : getHeader (fun _ => 0) = [] := by decide +kernel
  exact ⟨s, hs, refcounts_exact smallSb (by decide) (fun _ _ => 0) hheader halfCommit s
    (by decide +kernel) hs⟩

/-- Recovery of a log of one block: in `install_trans` the count of the buffer is zero while
the logger still holds it, and after the boot it is `2^32 - 1` with nobody using it. -/
theorem recovery_wraps_refcount :
    (∃ s, run (step smallSb) (init smallSb committedDisk) (List.replicate 16 (.go 0)) = some s ∧
      s.sleep 28 = some 0 ∧ s.cache.count 28 = 0) ∧
    ∃ s, run (step smallSb) (init smallSb committedDisk) (List.replicate 24 (.go 0)) = some s ∧
      s.running = true ∧ s.users 28 = 0 ∧ s.cache.count 28 = 2 ^ 32 - 1 := by
  refine ⟨?_, ?_⟩
  · exact run_test (step smallSb) (init smallSb committedDisk) (List.replicate 16 (.go 0))
      (fun s => s.sleep 28 = some 0 ∧ s.cache.count 28 = 0) (by decide +kernel)
  · obtain ⟨s, hs, hrunning, hwait, hsleep, hcount⟩ := run_test (step smallSb)
      (init smallSb committedDisk) (List.replicate 24 (.go 0))
      (fun s => s.running = true ∧ (∀ p, s.wait p = none) ∧ s.sleep 28 = none ∧
        s.cache.count 28 = 2 ^ 32 - 1) (by decide +kernel)
    refine ⟨s, hs, hrunning, ?_, hcount⟩
    have hnone : tally (waits 28) s.wait = 0 := by
      rw [tally_eq_zero]
      intro p
      rw [hwait p]
      rfl
    rw [State.users, hnone, hsleep]
    rfl

end BirdOS.Journal
