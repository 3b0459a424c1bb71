import BirdOS.Fs.FilesGuard

/-! # Paths in memory and on the disk (`fs.c`)

The pieces that `skipelem` cuts off a path with its terminating zero, and the inodes that they
lead `namex` to. -/

namespace BirdOS.Names

open Outcome Function List

/-! ## Components -/

/-- `while(*path == '/') path++`; there is no byte to read after the last one. -/
def skipSlashes : List UInt8 → Option (List UInt8)
  | [] => none
  | c :: cs => if c = slash then skipSlashes cs else some (c :: cs)

def skipName : List UInt8 → Option (List UInt8 × List UInt8)
  | [] => none
  | c :: cs =>
    if c ≠ slash ∧ c ≠ 0 then (skipName cs).map fun r => (c :: r.1, r.2) else some ([], c :: cs)

/-- The inner `none` is the null pointer, the outer one a read past the end. -/
def skipelemBytes (path : List UInt8) : Option (Option (Name × List UInt8)) := do
  let path ← skipSlashes path
  if path.head? = some 0 then return none
  else
    let r ← skipName path
    let path ← skipSlashes r.2
    return some (r.1.take DIRSIZ, path)

def elemsBytes : Nat → List UInt8 → Option (List Name)
  | 0, _ => none
  | f + 1, path =>
    (skipelemBytes path).bind fun r => r.elim (some []) fun r =>
      (elemsBytes f r.2).map (r.1 :: ·)

def components (path : List UInt8) : List Name :=
  ((path.splitOnP (· = slash)).filter (· ≠ [])).map (take DIRSIZ)

theorem skipSlashes_zero (path : List UInt8) :
    skipSlashes (path ++ [0]) = some (path.dropWhile (· = slash) ++ [0]) := by
  induction path with
  | nil => rfl
  | cons c cs ih =>
    by_cases hc : c = slash
    · simp [skipSlashes, hc, ih]
    · simp [skipSlashes, hc]

theorem skipName_zero (path : List UInt8) (h : 0 ∉ path) : skipName (path ++ [0]) =
    some (path.takeWhile (· ≠ slash), path.dropWhile (· ≠ slash) ++ [0]) := by
  induction path with
  | nil => rfl
  | cons c cs ih =>
    rw [mem_cons, not_or] at h
    by_cases hc : c = slash
    · simp [skipName, hc]
    · simp [skipName, hc, Ne.symm h.1, ih h.2]

theorem skipelemBytes_zero (path : List UInt8) (h : 0 ∉ path) : skipelemBytes (path ++ [0]) =
    some ((skipelem path).map fun r => (r.1, r.2 ++ [0])) := by
  have hsub : 0 ∉ path.dropWhile (· = slash) := fun hin => h ((dropWhile_sublist _).mem hin)
  simp only [skipelemBytes, skipelem, skipSlashes_zero, Option.bind_eq_bind, Option.bind_some]
  cases hp : path.dropWhile (· = slash) with
  | nil => rfl
  | cons c cs =>
    rw [hp] at hsub
    have hc : c ≠ 0 := fun hz => hsub (hz ▸ mem_cons_self)
    rw [if_neg (by simpa using hc), skipName_zero _ hsub]
    simp [skipSlashes_zero]

theorem components_slash (path : List UInt8) : components (slash :: path) = components path := by
  simp [components, splitOnP_cons_eq_if_modifyHead]

theorem components_dropWhile (path : List UInt8) :
    components (path.dropWhile (· = slash)) = components path := by
  induction path with
  | nil => rfl
  | cons c cs ih =>
    by_cases hc : c = slash
    · rw [dropWhile_cons_of_pos (by simpa using hc), ih, hc, components_slash]
    · rw [dropWhile_cons_of_neg (by simpa using hc)]

theorem components_word {w rest : List UInt8} (hw : ∀ c ∈ w, c ≠ slash) (hne : w ≠ [])
    (hrest : rest.head?.all (· = slash)) :
    components (w ++ rest) = w.take DIRSIZ :: components rest := by
  have hfree : ∀ c ∈ w, decide (c = slash) = false := fun c hc => by simp [hw c hc]
  cases rest with
  | nil => simp [components, splitOnP_eq_singleton hfree, hne]
  | cons c cs =>
    obtain rfl : c = slash := by simpa using hrest
    rw [components_slash]
    simp [components, splitOnP_append_cons_of_forall_mem hfree, hne]

theorem skipelem_some {path rest : List UInt8} {name : Name}
    (h : skipelem path = some (name, rest)) :
    rest <:+ path ∧ rest.length < path.length ∧ components path = name :: components rest := by
  unfold skipelem at h
  rw [Option.ite_none_left_eq_some] at h
  obtain ⟨hne, h⟩ := h
  cases h
  have hhead := head?_dropWhile_not (· = slash) path
  have hsuf := dropWhile_suffix (l := path) (· = slash)
  rw [← components_dropWhile path, components_dropWhile (dropWhile _ _)]
  cases hl : path.dropWhile (· = slash) with
  | nil => exact absurd hl hne
  | cons c cs =>
    rw [hl] at hhead hsuf
    have hc : c ≠ slash := by simpa using hhead
    have hend := (dropWhile_suffix (· = slash)).trans (dropWhile_suffix (l := cs) (· ≠ slash))
    rw [dropWhile_cons_of_pos (by simpa using hc), takeWhile_cons_of_pos (by simpa using hc)]
    refine ⟨hend.trans ((suffix_cons c cs).trans hsuf), ?_, ?_⟩
    · exact Nat.lt_of_le_of_lt hend.length_le hsuf.length_le
    · conv_lhs => rw [← takeWhile_append_dropWhile (p := (· ≠ slash)) (l := cs)]
      refine components_word (w := c :: takeWhile _ _) ?_ (cons_ne_nil c _) ?_
      · intro x hx
        rcases mem_cons.mp hx with rfl | hx
        · exact hc
        · simpa using all_eq_true.mp all_takeWhile x hx
      · have hstop := head?_dropWhile_not (· ≠ slash) cs
        cases hd : cs.dropWhile (· ≠ slash) with
        | nil => rfl
        | cons e es =>
          rw [hd] at hstop
          simpa using hstop

theorem elems_eq (f : Nat) : ∀ path, path.length ≤ f → elems f path = components path := by
  induction f with
  | zero =>
    intro path hf
    rw [length_eq_zero_iff.mp (Nat.le_zero.mp hf)]
    rfl
  | succ f ih =>
    intro path hf
    rw [elems]
    split
    · next hnone =>
      have hall : path.dropWhile (· = slash) = [] := by
        by_contra hne
        simp [skipelem, hne] at hnone
      rw [← components_dropWhile, hall]
      rfl
    · next hs =>
      obtain ⟨-, hlen, hcomp⟩ := skipelem_some hs
      rw [hcomp, ih _ (by omega)]

theorem elemsBytes_zero (f : Nat) : ∀ path, 0 ∉ path → path.length < f →
    elemsBytes f (path ++ [0]) = some (components path) := by
  induction f with
  | zero => exact fun _ _ hf => absurd hf (Nat.not_lt_zero _)
  | succ f ih =>
    intro path h hf
    rw [elemsBytes, skipelemBytes_zero path h, ← elems_eq (f + 1) path (by omega), elems]
    cases hs : skipelem path with
    | none => rfl
    | some r =>
      obtain ⟨hsub, hlen, -⟩ := skipelem_some hs
      simp [ih r.2 (fun hin => h (hsub.mem hin)) (by omega), elems_eq f r.2 (by omega)]

/-! ## Lookups -/

/-- Allocated, and not freed when a lookup gives its reference back. -/
def Alive (s : State) (x : Nat) : Prop :=
  (s.disk x).type ≠ none ∧
    ((s.disk x).nlink ≠ 0 ∨ ∃ i, 0 < (s.icache i).ref ∧ (s.icache i).inum = x)

/-- Nothing is locked, the cache has room, and there is an inode to start at and one behind every
entry of a directory. -/
structure Walkable (s : State) (p : Slot) (path : List UInt8) : Prop where
  unlocked : ∀ i, (s.icache i).locked = false
  spare : (busy s).card + 3 ≤ NINODE
  process : path.head? = some slash ∨ (s.cwd p).isSome
  starts : Alive s (origin s p path)
  entries : ∀ x, ∀ e ∈ (s.disk x).entries, e.inum ≠ 0 → Alive s e.inum

theorem mem_of_lookup {name : Name} {off y : Nat} : ∀ {es : List Dirent},
    lookup name es = some (off, y) → ∃ e ∈ es, e.inum ≠ 0 ∧ e.inum = y := by
  intro es
  induction es generalizing off with
  | nil =>
    intro h
    cases h
  | cons e es ih =>
    intro h
    rw [lookup] at h
    split at h
    · next hfound =>
      cases h
      exact ⟨e, mem_cons_self, hfound.1, rfl⟩
    · obtain ⟨r, hr, heq⟩ := Option.map_eq_some_iff.mp h
      cases heq
      obtain ⟨e', hmem, he⟩ := ih hr
      exact ⟨e', mem_cons_of_mem e hmem, he⟩

section Returns
variable {s₀ s : State} {d : Nat → Dinode} {K : Finset Ip} {T : Held} {ip : Ip} {x : Nat}

abbrev Returns {α : Type} (x : Except Stop α) : Prop := Ends (fun _ => True) (fun _ => False) x

theorem Returns.meets {α : Type} {P : α → Prop} {E : Stop → Prop} {x : Except Stop α}
    (h : Returns x) (hspec : Ends P E x) : Ends P (fun _ => False) x :=
  (h.and hspec).mono (fun _ hr => hr.2) fun _ he => he

/-- An inode that is alive when a call begins is there until it ends. -/
theorem Mid.alive (h : Mid s₀ s₀.disk K T s) (hs : Sound s₀) (hx : Alive s₀ x) :
    s.disk x = s₀.disk x := by
  rcases hx.2 with hlink | ⟨i, hi, rfl⟩
  · exact h.disk.keeps hlink
  · exact (h.pins hs i hi (h.ref_old hi)).2

theorem inode_returns (s : State) (ip : Ip) : Returns (inode ip s) := trivial

theorem iget_returns (h : Mid s₀ d K T s) (hT : T.card ≤ 2) (hspare : (busy s₀).card + 3 ≤ NINODE)
    (inum : Nat) : Returns (iget inum s) := by
  have hspec := iget_spec h hT inum
  unfold iget at hspec ⊢
  split
  · trivial
  next hmiss =>
  rw [hmiss] at hspec
  split
  · trivial
  next hfull =>
  rw [hfull] at hspec
  exact hspec.1 hspare rfl

theorem ilock_returns (h : Mid s₀ d K T s) (hT : (ip, x) ∈ T) (hK : ip ∉ K)
    (htype : (s.disk x).type ≠ none) : Returns (ilock ip s) := by
  have hpos := h.ref_pos hT
  unfold ilock
  rw [if_neg (by omega), if_neg (fun hl => hK ((h.locked ip).mp hl)), h.inum_eq hT,
    if_neg fun hfree => htype hfree.2]
  trivial

theorem iunlock_returns (h : Mid s₀ d (insert ip K) T s) (hT : (ip, x) ∈ T) :
    Returns (iunlock ip s) := by
  have hpos := h.ref_pos hT
  have hlocked := (h.locked ip).mpr (Finset.mem_insert_self ip K)
  unfold iunlock
  rw [if_neg (by simp only [hlocked, reduceCtorEq, false_or]; omega)]
  trivial

theorem iput_returns (h : Mid s₀ d K T s) (hK : ip ∉ K) : Returns (iput ip s) := by
  unfold iput
  split
  · rw [if_neg fun hl => hK ((h.locked ip).mp hl)]
    trivial
  · trivial

theorem iunlockput_returns (h : Mid s₀ d (insert ip K) T s) (hT : (ip, x) ∈ T) (hK : ip ∉ K) :
    Returns (iunlockput ip s) :=
  .seq ((iunlock_returns h hT).meets (iunlock_spec h hK)) fun _ _ h' => iput_returns h'.1 hK

theorem dirlookup_returns (h : Mid s₀ d K T s) (hT : T.card ≤ 2)
    (hspare : (busy s₀).card + 3 ≤ NINODE) (hip : (ip, x) ∈ T)
    (htype : (s.disk x).type = some .dir) (name : Name) : Returns (dirlookup ip name s) := by
  unfold dirlookup
  refine .seq ((inode_returns s ip).meets (inode_spec h hip)) ?_
  rintro _ _ ⟨⟩
  rw [if_neg (by simp [htype])]
  cases lookup name (s.disk x).entries with
  | none => trivial
  | some found => exact .seq (iget_returns h hT hspare _) fun _ _ _ => trivial

theorem namexLoop_returns (hs : Sound s₀) (hspare : (busy s₀).card + 3 ≤ NINODE)
    (hentries : ∀ x, ∀ e ∈ (s₀.disk x).entries, e.inum ≠ 0 → Alive s₀ e.inum) (parent : Bool)
    (names : List Name) : ∀ (ip : Ip) (x : Nat) (s : State),
    Mid s₀ s₀.disk ∅ {(ip, x)} s → Alive s₀ x → Returns (namexLoop parent ip names s) := by
  induction names with
  | nil =>
    intro ip x s h _
    unfold namexLoop
    split
    · exact .seq (iput_returns h (Finset.notMem_empty ip)) fun _ _ _ => trivial
    · trivial
  | cons name rest ih =>
    intro ip x s h hx
    have hfree : ∀ i : Ip, i ∉ (∅ : Finset Ip) := Finset.notMem_empty
    have hmem : (ip, x) ∈ ({(ip, x)} : Held) := Multiset.mem_singleton_self _
    have htype : (s.disk x).type ≠ none := by
      rw [h.alive hs hx]
      exact hx.1
    unfold namexLoop
    refine .seq ((ilock_returns h hmem (hfree ip) htype).meets (ilock_spec h hmem)) ?_
    rintro _ s1 ⟨-, h1, -, -⟩
    refine .seq ((inode_returns s1 ip).meets (inode_spec h1 hmem)) ?_
    rintro _ _ ⟨⟩
    split
    · exact .seq (iunlockput_returns h1 hmem (hfree ip)) fun _ _ _ => trivial
    next hdir =>
    split
    · exact .seq (iunlock_returns h1 hmem) fun _ _ _ => trivial
    refine .seq ((dirlookup_returns h1 (by simp) hspare hmem (by simpa using hdir) name).meets
      (dirlookup_spec h1 (by simp) hmem name)) ?_
    rintro r s2 ⟨-, -, ⟨rfl, -, hsame⟩ | ⟨next, off, y, rfl, hfound, h2⟩⟩
    · obtain rfl : s2 = s1 := hsame
      exact .seq (iunlockput_returns h1 hmem (hfree ip)) fun _ _ _ => trivial
    · rw [← Multiset.cons_zero, Multiset.cons_swap] at h2
      refine .seq ((iunlockput_returns h2 (Multiset.mem_cons_self _ _) (hfree ip)).meets
        (iunlockput_spec h2 (hfree ip))) ?_
      rintro _ s3 ⟨h3, -⟩
      rw [h1.alive hs hx] at hfound
      obtain ⟨e, he, hne, rfl⟩ := mem_of_lookup hfound
      exact ih next _ s3 h3 (hentries x e he hne)

theorem start_returns (h : Mid s₀ d K T s) (hT : T.card ≤ 2)
    (hspare : (busy s₀).card + 3 ≤ NINODE) {p : Slot} {path : List UInt8}
    (hp : path.head? = some slash ∨ (s.cwd p).isSome) : Returns (start p path s) := by
  unfold start
  split
  · exact iget_returns h hT hspare ROOTINO
  next hrel =>
  obtain ⟨i, hi⟩ := Option.isSome_iff_exists.mp (hp.resolve_left hrel)
  rw [hi]
  trivial

theorem namex_returns (hs : Sound s) {p : Slot} {path : List UInt8} (hw : Walkable s p path)
    (parent : Bool) : Returns (namex p path parent s) := by
  have hlocks : locks s = ∅ := by simp [locks, hw.unlocked]
  have hmid := Mid.start s
  rw [hlocks] at hmid
  unfold namex
  refine .seq ((start_returns hmid (by simp) hw.spare hw.process).meets
    (start_spec hmid (by simp) p path)) ?_
  exact fun ip s' h' => namexLoop_returns hs hw.spare hw.entries parent _ ip _ s' h' hw.starts

end Returns

/-- `skipelem` gives the components of a path and does not read past its end; `namei` and
`nameiparent` follow them over the directories of the disk, and return where nothing on the way
is locked or missing. -/
theorem path_lookup (path : List UInt8) (hpath : 0 ∉ path) :
    (∀ f, path.length < f → elemsBytes f (path ++ [0]) = some (components path)) ∧
    ∀ s, Sound s → ∀ p,
      (Walkable s p path → (∃ r, namei p path s = .ok r) ∧ ∃ r, nameiparent p path s = .ok r) ∧
      Ends (fun r => r.1.map (fun ip => (r.2.icache ip).inum) =
        resolve s.disk (origin s p path) (components path)) (Err s) (namei p path s) ∧
      Ends (fun r => r.1.map (fun g => ((r.2.icache g.1).inum, g.2)) =
        (components path).getLast?.bind fun name =>
          (resolve s.disk (origin s p path) (components path).dropLast).bind fun y =>
            if (s.disk y).type = some .dir then some (y, name) else none) (Err s)
        (nameiparent p path s) := by
  refine ⟨fun f => elemsBytes_zero f path hpath, fun s hs p => ⟨fun hw => ⟨?_, ?_⟩, ?_⟩⟩
  · have hreturns : Returns (namei p path s) :=
      .seq (namex_returns hs hw false) fun _ _ _ => trivial
    obtain ⟨r, hr, -⟩ := hreturns.returns
    exact ⟨r, hr⟩
  · obtain ⟨r, hr, -⟩ := (namex_returns hs hw true).returns
    exact ⟨r, hr⟩
  have hreach := namex_reaches (Mid.start s) (by simp) p path
  simp only [elems_eq _ path le_rfl, reaches] at hreach
  constructor
  · refine .seq (hreach false) ?_
    intro r s' hr
    have heq := congrArg (Option.map Prod.fst) (hr.2 hs)
    show (r.map Prod.fst).map (fun ip => (s'.icache ip).inum) = _
    simpa [Function.comp_def] using heq
  · exact (hreach true).mono (fun r hr => hr.2 hs) fun _ he => he

/-- A directory `a` in the root with a file `b`. -/
def nestedDisk (inum : Nat) : Dinode :=
  if inum = ROOTINO then
    ⟨some .dir, 3, 0, 0, 1, [⟨ROOTINO, dot⟩, ⟨ROOTINO, dotdot⟩, ⟨2, [97]⟩], []⟩
  else if inum = 2 then ⟨some .dir, 3, 0, 0, 1, [⟨2, dot⟩, ⟨ROOTINO, dotdot⟩, ⟨3, [98]⟩], []⟩
  else if inum = 3 then ⟨some .file, 3, 0, 0, 1, [], []⟩
  else ⟨none, 0, 0, 0, 0, [], []⟩

theorem path_lookup_nested : elemsBytes 5 [47, 97, 47, 98, 0] = some [[97], [98]] ∧
    (∃ r, namei 0 [47, 97, 47, 98] (twoAtRoot nestedDisk) = .ok r ∧
      r.1.map (fun ip => (r.2.icache ip).inum) = some 3) ∧
    ∃ r, nameiparent 0 [47, 97, 47, 98] (twoAtRoot nestedDisk) = .ok r ∧
      r.1.map (fun g => ((r.2.icache g.1).inum, g.2)) = some (2, [98]) := by
  have hready : Files.Ready (twoAtRoot nestedDisk) := by decide +kernel
  have hlive : ∀ x, x = ROOTINO ∨ x = 2 ∨ x = 3 → Alive (twoAtRoot nestedDisk) x := by
    rintro x (rfl | rfl | rfl) <;> exact ⟨by decide, .inl (by decide)⟩
  have hwalk : Walkable (twoAtRoot nestedDisk) 0 [47, 97, 47, 98] := by
    refine ⟨by decide, by decide +kernel, .inl rfl, hlive _ (.inl rfl), fun x e he _ => ?_⟩
    refine hlive _ ?_
    simp only [twoAtRoot, nestedDisk] at he
    split at he
    · simp only [mem_cons, not_mem_nil, or_false] at he
      rcases he with rfl | rfl | rfl <;> simp
    split at he
    · simp only [mem_cons, not_mem_nil, or_false] at he
      rcases he with rfl | rfl | rfl <;> simp
    split at he <;> cases he
  obtain ⟨helems, hlook⟩ := path_lookup [47, 97, 47, 98] (by decide)
  obtain ⟨hreturns, hnamei, hparent⟩ := hlook _ (sound_of hready.owned hready.cache) 0
  obtain ⟨⟨r, hr⟩, r', hr'⟩ := hreturns hwalk
  rw [hr] at hnamei
  rw [hr'] at hparent
  exact ⟨helems 5 (by decide), ⟨r, hr, hnamei⟩, r', hr', hparent⟩

end BirdOS.Names
