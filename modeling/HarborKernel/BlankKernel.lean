import HarborKernel.SpaceRuns

/-!
How `prepare_for_el0` can end. With frames to spare, a window that nothing is in
the way of, and a kernel that maps nothing, it succeeds or the ledger is full.
The blank world is such a world.
-/

namespace HarborKernel.AddressSpaces

open ByteWords ErrorState Paging PageWalk Transition

def FrameError (e : AsError) : Prop := e = .outOfFrames ∨ e = .ledgerFull ∨ e = .badTable

theorem frameErrors_frameError : FrameErrors FrameError :=
  ⟨.inl rfl, .inr (.inl rfl), .inr (.inr rfl)⟩

section Errors

theorem tame_mapWindowPage (i : ℕ) : Tame (fun _ => ()) FrameError (mapWindowPage i) := by
  have hg : Spared fun _ : Sys => () := fun _ _ _ => rfl
  have hP := frameErrors_frameError
  exact .get_bind fun s => .bind (tame_takeFrame hg hP) fun phys => .bind (.modify fun _ => rfl)
    fun _ => .bind (tame_zeroFrame hg phys) fun _ => tame_mapL3Page hg hP _ _ _ _

theorem tame_mapWindowFrom (n : ℕ) : ∀ i, Tame (fun _ => ()) FrameError (mapWindowFrom n i) := by
  induction n with
  | zero => exact fun _ => .pure ()
  | succ n ih => exact fun i => .bind (tame_mapWindowPage i) fun _ => ih _

theorem tame_mapUserWindow : Tame (fun _ => ()) FrameError mapUserWindow :=
  .get_bind fun _ => .bind (tame_mapWindowFrom _ _) fun _ => .modify fun _ => rfl

theorem cloneFrom_blank {child : ℕ → ℕ → As Unit} {level : Level} {src dst : ℕ}
    (hsrc : src % frameSize = 0) (hdst : dst % frameSize = 0) (hne : src ≠ dst) (n : ℕ) :
    ∀ (i : ℕ) (s : Sys), SysOk s → i + n = entriesPerTable →
      (∀ j, isInvalid (s.tables src j) = true) →
      wp (cloneFrom child level src dst n i) s (fun _ _ => True) fun _ _ => False := by
  induction n with
  | zero => exact fun _ _ _ _ _ => trivial
  | succ n ih =>
    intro i s hok hi hblank
    have hlt : i < entriesPerTable := by omega
    rw [cloneFrom, wp_bind]
    unfold cloneEntry
    rw [wp_bind, wp_get]
    dsimp only
    rw [readEntry_eq hsrc hlt, show tablesOf s.world.mem src i = s.tables src i from rfl,
      hblank i, if_pos rfl]
    refine wp.mono (writeEntry_specE (D := (· = dst)) (E := fun _ _ => False) hok hdst hlt rfl)
      (fun _ s₁ hs₁ => ?_) fun _ _ he => he.2
    refine ih (i + 1) s₁ hs₁.1.ok (by omega) fun j => ?_
    rw [hs₁.2.1, store_of_ne fun hh => hne hh.1]
    exact hblank j

end Errors

section Ends

variable {K : ℕ → Option Translation} {w : World} {t : Tenant} {kroot : ℕ}

/-- With more free frames than a ledger holds, frames do not run out. -/
theorem Fail.not_outOfFrames {D : ℕ → Prop} {k : ℕ} {s s' : Sys} {e : AsError}
    (h : Fail D k s e s') (hok : SysOk s) (hmany : maxAsFrames < s.free.length) :
    e ≠ .outOfFrames := by
  rintro rfl
  have hsub : s.free ⊆ s'.owned := fun f hf => by
    rcases h.kept nofun f hf with hf | hf
    · rw [h.empty rfl] at hf
      cases hf
    · exact hf
  have hlen := hok.pool.nodup.length_le_of_subset hsub
  have hroom := h.ok.ledger.room
  exact absurd (Nat.le_trans hlen hroom) (Nat.not_le.2 hmany)

/-- `prepare_for_el0` where nothing is in its way: only the ledger can stop it. -/
theorem prepare_blank (hk : KernelOk K w) (h : Lives K w t) (hpool : PoolOk w)
    (hprep : t.space.prepared = false) (hkroot : w.kernelRoot = some kroot)
    (hblank : ∀ i, isInvalid (tablesOf w.mem kroot i) = true)
    (hmany : maxAsFrames < w.frames.freeStack.length)
    (hfree : ¬Blocked K w t.space.window t.space.window.pages) :
    wp prepareForEl0 (t.sys w)
      (fun _ s' => ∃ s₁, Step (· = t.space.rootPhys) (Call.cost (t.sys w) .prepareForEl0) (t.sys w)
        s₁ ∧ s' = s₁.flags s₁.space.packetPoolMapped true ∧
        ∃ U wf, Windowed K s₁ U wf t.space.window.pages)
      (fun e s' => Fail (· = t.space.rootPhys) (Call.cost (t.sys w) .prepareForEl0) (t.sys w) e s' ∧
        e = .ledgerFull) := by
  have hok := h.sysOk hpool
  obtain ⟨f, hf, hroot⟩ := h.root
  obtain ⟨hkmod, hkne⟩ := (hk kroot hkroot).2 .L1 0 kroot (tableFrom_top ..)
  have hclone : wp (cloneL1 kroot t.space.rootPhys) (t.sys w) (fun _ _ => True)
      fun _ _ => False := by
    refine cloneFrom_blank hkmod (hroot ▸ phys_mod hpool.base f) ?_ entriesPerTable 0
      (t.sys w) hok (Nat.zero_add _) hblank
    rw [hroot]
    exact hkne f (h.ledger.lt f hf)
  have hspec := h.prepare (B := False) hk hpool hprep hkroot
    (wp.mono hclone (fun _ _ hh => hh) fun _ _ hh => hh.elim)
  have herr : wp prepareForEl0 (t.sys w) (fun _ _ => True) fun e _ => FrameError e := by
    unfold prepareForEl0
    rw [wp_bind, wp_get]
    simp only [hprep, hkroot, Bool.false_eq_true, if_false]
    refine wp_bind.2 (wp.mono hclone (fun _ s₁ _ => ?_) fun _ _ hh => hh.elim)
    exact wp_bind.2 (wp.mono (tame_mapUserWindow s₁) (fun _ _ _ => trivial) fun _ _ he => he.2)
  refine wp.mono (wp.and hspec herr) (fun _ s' hs' => hs'.1) fun e s' he => ?_
  obtain ⟨⟨hfail, hbad⟩, hkind⟩ := he
  refine ⟨hfail, ?_⟩
  rcases hkind with he | he | he
  · exact absurd he (hfail.not_outOfFrames hok hmany)
  · exact he
  · rcases hbad he with hh | hh
    · exact hh.elim
    · exact absurd hh hfree

end Ends

def blankWorld : World :=
  ⟨.qemuVirt, fun _ => 0, [], 0x60000000, FramePool.new maxFrames, AsidPool.new, some 0x40000000⟩

theorem PoolOk.new {w : World} (hbase : w.poolBase % frameSize = 0) (capacity : ℕ) :
    PoolOk { w with frames := FramePool.new capacity } :=
  ⟨hbase, List.nodup_range, fun _ hf => List.mem_range.1 hf, fun _ hf =>
    ⟨nofun, fun hh => absurd (List.mem_range.2 hf) hh⟩⟩

theorem tablesOf_blank (t i : ℕ) : tablesOf (fun _ => 0) t i = 0 := by
  unfold tablesOf
  split
  · rw [readLe_zero fun _ _ _ => rfl]
    rfl
  · rfl

theorem kernelView_blank : kernelView blankWorld = fun _ => none := by
  funext v
  change PageWalk.translate (tablesOf fun _ => 0) 0x40000000 v = none
  rw [PageWalk.translate, lastFrom, tablesOf_blank, resolve_of_not_table (by decide)]
  split
  · rfl
  · exact leafAt_of_invalid (by decide)

theorem blankWorld_boot : Boot blankWorld := by
  refine ⟨PoolOk.new (w := blankWorld) (by decide) maxFrames, fun kroot hk l va t ht => ?_⟩
  cases hk
  rcases tableFrom_cases ht with ⟨-, rfl⟩ | ⟨next, -, htab, -⟩
  · refine ⟨by decide, fun f hf => ?_⟩
    change 0x40000000 ≠ 0x60000000 + f * frameSize
    omega
  change isTable (tablesOf (fun _ => 0) _ _) .L1 = true at htab
  rw [tablesOf_blank] at htab
  cases htab

section Runs

variable {s : Spaces} {t : Tenant}

theorem countFrom_blank {below : ℕ → ℕ} {e : Tables} {level : Level} {src : ℕ}
    (h : ∀ i, isTable (e src i) level = false) (n : ℕ) :
    ∀ i, countFrom below e level src n i = 0 := by
  induction n with
  | zero => exact fun _ => rfl
  | succ n ih =>
    intro i
    rw [countFrom, h i, ih]
    rfl

theorem blank_phys (hs : Runs blankWorld s) {f : ℕ} (hf : f < s.world.frames.capacity) :
    s.world.phys f < 2 ^ 48 := by
  have hok := runs_ok blankWorld_boot hs
  rw [phys_congr hok.poolBase]
  rw [hok.capacity] at hf
  change f < min maxFrames maxFrames at hf
  rw [Nat.min_self] at hf
  change 0x60000000 + f * 0x1000 < 2 ^ 48
  unfold maxFrames at hf
  omega

theorem blank_kernelRoot (hs : Runs blankWorld s) (i : ℕ) :
    tablesOf s.world.mem 0x40000000 i = 0 := by
  have hok := runs_ok blankWorld_boot hs
  rw [← tablesOf_blank 0x40000000 i]
  refine tablesOf_congr (fun a ha => hok.outside a fun f _ heq => ?_) i
  rw [ha] at heq
  change 0x40000000 = 0x60000000 + f * frameSize at heq
  omega

theorem blank_free (hs : Runs blankWorld s) (ht : s.tenants 0 = some t)
    (hpages : t.space.window.pages ≤ 2 ^ 20) :
    ¬Blocked (kernelView blankWorld) s.world t.space.window t.space.window.pages := by
  have hok := runs_ok blankWorld_boot hs
  have hbase := (hok.lives 0 t ht).base
  rw [hok.board] at hbase
  change t.space.window.base = 0x50000000 at hbase
  rintro (⟨j, -, hj⟩ | ⟨j, hj, j', hj', heq⟩ | ⟨f, hf, hphys⟩)
  · rw [kernelView_blank] at hj
    exact hj rfl
  · unfold vpage UserWindow.pageVa vaLimit l1BlockSize entriesPerTable pageSize at heq
    omega
  · exact absurd (blank_phys hs hf) (Nat.not_lt.2 hphys)

theorem length_new (capacity : ℕ) :
    (FramePool.new capacity).freeStack.length = min capacity maxFrames := List.length_range

theorem blank_freeStack : blankWorld.frames.freeStack.length = maxFrames :=
  (length_new maxFrames).trans (Nat.min_self _)

/-- A new space of the blank world, next to those that are there. -/
structure Joined (s s' : Spaces) (id textPages stackPages : ℕ) (t : Tenant) : Prop where
  runs : Runs blankWorld s'
  tenants : s'.tenants = Function.update s.tenants id (some t)
  prepared : t.space.prepared = false
  asked : t.asked = []
  pages : t.space.window.pages = textPages + stackPages
  text : t.space.window.textPages = textPages
  owned : t.space.owned.length = 1
  free : s'.world.frames.freeStack.length + 1 = s.world.frames.freeStack.length
  asids : ∃ asid, s.world.asids.alloc = some (asid, s'.world.asids)

theorem Joined.tenant {s' : Spaces} {id textPages stackPages : ℕ}
    (h : Joined s s' id textPages stackPages t) : s'.tenants id = some t := by
  rw [h.tenants, Function.update_self]

theorem blank_created (hs : Runs blankWorld s) (id textPages stackPages : ℕ)
    (hid : s.tenants id = none) (hasid : s.world.asids.alloc ≠ none)
    (hfree : s.world.frames.freeStack ≠ []) (htext : 0 < textPages)
    (hmax : textPages ≤ maxTextPages) (hstack : 0 < stackPages) :
    ∃ s' t, s.step (.create id textPages stackPages false) = some s' ∧
      Joined s s' id textPages stackPages t := by
  have hspec : wp (create textPages stackPages false) s.quiet _ _ :=
    create_spec (runs_ok blankWorld_boot hs).quiet.pool
  rcases hrun : create textPages stackPages false s.quiet with ⟨space, w⟩ | ⟨e, w⟩
  · obtain ⟨hnew, hpages⟩ := hspec.ok hrun
    obtain ⟨f, rest, hstacked, hrest, howned, -⟩ := hnew.root
    obtain ⟨pool, halloc, rfl⟩ := hnew.asids
    have hstep : s.step (.create id textPages stackPages false) =
        some ⟨w, Function.update s.tenants id (some ⟨space, [], []⟩)⟩ := by
      rw [Spaces.step, hid, EStateM.run, hrun]
      rfl
    refine ⟨_, ⟨space, [], []⟩, hstep, hs.next trivial hstep, rfl, hnew.prepared, rfl, hpages,
      create_text.ok hrun, by rw [howned]; rfl, ?_, _, halloc⟩
    change w.frames.freeStack.length + 1 = s.quiet.frames.freeStack.length
    rw [hrest, hstacked, List.length_cons]
  · obtain ⟨-, hcause⟩ := hspec.error hrun
    rcases hcause with h | h | h | h | h
    · omega
    · omega
    · omega
    · exact absurd h hasid
    · exact absurd h hfree

theorem blank_start : Runs blankWorld ⟨blankWorld, fun _ => none⟩ := .start ⟨rfl, fun _ => rfl⟩

theorem blank_first (id textPages stackPages : ℕ) (htext : 0 < textPages)
    (hmax : textPages ≤ maxTextPages) (hstack : 0 < stackPages) :
    ∃ s t, Spaces.step ⟨blankWorld, fun _ => none⟩ (.create id textPages stackPages false) =
      some s ∧ Joined ⟨blankWorld, fun _ => none⟩ s id textPages stackPages t :=
  blank_created blank_start id textPages stackPages rfl (fun h => by cases h)
    (List.ne_nil_of_length_pos (by rw [blank_freeStack]; decide)) htext hmax hstack

/-- In the blank world only the ledger stops `prepare_for_el0`. -/
theorem blank_prepare (hs : Runs blankWorld s) (ht : s.tenants 0 = some t)
    (hprep : t.space.prepared = false) (hpages : t.space.window.pages ≤ 2 ^ 20)
    (hmany : maxAsFrames < s.world.frames.freeStack.length) :
    wp prepareForEl0 (t.sys s.quiet)
      (fun _ s' => ∃ s₁, Step (· = t.space.rootPhys)
        (Call.cost (t.sys s.quiet) .prepareForEl0) (t.sys s.quiet) s₁ ∧
        s' = s₁.flags s₁.space.packetPoolMapped true ∧
        ∃ U wf, Windowed (kernelView blankWorld) s₁ U wf t.space.window.pages)
      (fun e s' => Fail (· = t.space.rootPhys)
        (Call.cost (t.sys s.quiet) .prepareForEl0) (t.sys s.quiet) e s' ∧ e = .ledgerFull) := by
  have hok := (runs_ok blankWorld_boot hs).quiet
  refine prepare_blank (hok.kernelOk blankWorld_boot).1 (hok.lives 0 t ht) hok.pool hprep
    hok.kernelRoot (fun i => ?_) hmany (blank_free hs ht hpages)
  change isInvalid (tablesOf s.world.mem 0x40000000 i) = true
  rw [blank_kernelRoot hs]
  decide

theorem blank_cost (hs : Runs blankWorld s) : Call.cost (t.sys s.quiet) .prepareForEl0 =
    t.space.window.pages + tablesFor t.space.window.base t.space.window.pages := by
  have hk : s.quiet.kernelRoot = some 0x40000000 := (runs_ok blankWorld_boot hs).kernelRoot
  unfold Call.cost prepareCost countL1
  rw [hk, Option.getD_some, countFrom_blank, Nat.zero_add]
  intro i
  change isTable (tablesOf s.world.mem 0x40000000 i) .L1 = false
  rw [blank_kernelRoot hs]
  rfl

/-- A small space is prepared, and takes at most five more frames. -/
theorem Joined.prepare {s₀ : Spaces} (h : Joined s₀ s 0 2 1 t)
    (hmany : maxAsFrames < s.world.frames.freeStack.length) :
    ∃ s' t', Runs blankWorld s' ∧ s'.tenants = Function.update s.tenants 0 (some t') ∧
      t'.space.prepared = true ∧ t'.asked = [] ∧ t'.space.window = t.space.window ∧
      t'.space.owned.length ≤ 6 ∧
      s.world.frames.freeStack.length ≤ s'.world.frames.freeStack.length + 6 := by
  have ht := h.tenant
  have howned := h.owned
  have hok := runs_ok blankWorld_boot h.runs
  have hbase : t.space.window.base = 0x50000000 := by
    have hbase := (hok.lives 0 t ht).base
    rwa [hok.board] at hbase
  have hcost : Call.cost (t.sys s.quiet) .prepareForEl0 = 5 := by
    rw [blank_cost h.runs, h.pages, hbase]
    decide
  have hspec := blank_prepare h.runs ht h.prepared (by rw [h.pages]; decide) hmany
  rw [hcost] at hspec
  rcases hrun : prepareForEl0 (t.sys s.quiet) with ⟨a, s'⟩ | ⟨e, s'⟩
  · obtain ⟨s₁, hstep, rfl, -⟩ := hspec.ok hrun
    have hnext : s.step (.call 0 .prepareForEl0) = some (s.called 0 t .prepareForEl0 (.ok a
        (s₁.flags s₁.space.packetPoolMapped true))) := by
      rw [Spaces.step, ht, Option.map_some]
      change some (s.called 0 t .prepareForEl0 (prepareForEl0 (t.sys s.quiet))) = _
      rw [hrun]
    have hgrown := hstep.count
    change s₁.owned.length ≤ t.space.owned.length + 5 at hgrown
    have hlen := hok.pool.nodup.length_le_of_subset
      (show s.world.frames.freeStack ⊆ s₁.free ++ s₁.owned from fun f hf =>
        List.mem_append.2 (hstep.kept f hf))
    rw [List.length_append] at hlen
    refine ⟨_, _, h.runs.next trivial hnext, rfl, rfl, h.asked, hstep.same.window, ?_, ?_⟩
    · change s₁.owned.length ≤ 6
      omega
    · change _ ≤ s₁.free.length + 6
      omega
  · obtain ⟨hfail, hfull⟩ := hspec.error hrun
    obtain ⟨hroom, hlt, -⟩ := hfail.full hfull
    change s'.owned.length < t.space.owned.length + 5 at hlt
    unfold maxAsFrames at hroom
    omega

/-- Two spaces of the blank world. The one that is prepared has two pages of text and one of
stack. -/
theorem blank_prepared : ∃ s t t', Runs blankWorld s ∧ s.tenants 0 = some t ∧
    t.space.prepared = true ∧ (∀ id u, s.tenants id = some u → u.asked = []) ∧
    t.space.window.pages = 3 ∧ t.space.owned.length ≤ 6 ∧
    maxAsFrames < s.world.frames.freeStack.length ∧ t.space.window.textPages = 2 ∧
    s.tenants 1 = some t' ∧ t'.space.owned.length = 1 := by
  obtain ⟨s₀, t', -, hother⟩ := blank_first 1 1 1 (by decide) (by decide) (by decide)
  have hcount : s₀.world.frames.freeStack.length + 1 = maxFrames :=
    hother.free.trans blank_freeStack
  unfold maxFrames at hcount
  have hasid : s₀.world.asids.alloc ≠ none := by
    obtain ⟨asid, halloc⟩ := hother.asids
    have hsecond : (blankWorld.asids.alloc.bind fun p => p.2.alloc).isSome := by decide +kernel
    rw [show blankWorld.asids.alloc = _ from halloc, Option.bind_some] at hsecond
    exact Option.isSome_iff_ne_none.1 hsecond
  obtain ⟨s₁, t₁, -, hjoined⟩ := blank_created hother.runs 0 2 1 (by rw [hother.tenants]; rfl)
    hasid (List.ne_nil_of_length_pos (by omega)) (by decide) (by decide) (by decide)
  have hfree := hjoined.free
  obtain ⟨s, t, hs, htenants, hprep, hasked, hwindow, howned, hleft⟩ :=
    hjoined.prepare (by unfold maxAsFrames; omega)
  rw [hjoined.tenants, hother.tenants, Function.update_idem] at htenants
  refine ⟨s, t, t', hs, by rw [htenants]; rfl, hprep, ?_, by rw [hwindow, hjoined.pages], howned,
    by unfold maxAsFrames; omega, by rw [hwindow, hjoined.text], by rw [htenants]; rfl,
    hother.owned⟩
  intro id u hu
  rw [htenants] at hu
  by_cases hzero : id = 0
  · rw [hzero, Function.update_self] at hu
    cases hu
    exact hasked
  rw [Function.update_of_ne hzero] at hu
  by_cases hone : id = 1
  · rw [hone, Function.update_self] at hu
    cases hu
    exact hother.asked
  · rw [Function.update_of_ne hone] at hu
    cases hu

end Runs

end HarborKernel.AddressSpaces
