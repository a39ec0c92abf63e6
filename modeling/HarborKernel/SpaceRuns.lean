import HarborKernel.SpaceCalls
import HarborKernel.Transition

/-!
Address spaces that share one frame pool. Along every run of creations, calls and
destructions the spaces own disjoint sets of frames, the kernel's tables are not
touched, and what a space maps is what the kernel maps, its window, and the
regions it asked for. `stores` starts empty at every step.
-/

namespace HarborKernel.AddressSpaces

open Function ByteWords ErrorState Paging PageWalk Transition

structure Spaces where
  world : World
  tenants : ℕ → Option Tenant

inductive Op
  | create (id textPages stackPages : ℕ) (packetPool : Bool)
  | call (id : ℕ) (c : Call)
  | destroy (id : ℕ)

def Op.actor : Op → ℕ
  | .create id .. => id
  | .call id _ => id
  | .destroy id => id

namespace Spaces

def quiet (s : Spaces) : World := { s.world with stores := [] }

def created (s : Spaces) (id : ℕ) : EStateM.Result AsError World AddressSpace → Spaces
  | .ok space w => ⟨w, update s.tenants id (some ⟨space, [], []⟩)⟩
  | .error _ w => ⟨w, s.tenants⟩

def called (s : Spaces) (id : ℕ) (t : Tenant) (c : Call) : EStateM.Result AsError Sys Unit → Spaces
  | .ok _ s' => ⟨s'.world, update s.tenants id (some (t.after c s'.space true))⟩
  | .error _ s' => ⟨s'.world, update s.tenants id (some (t.after c s'.space false))⟩

def step (s : Spaces) : Op → Option Spaces
  | .create id textPages stackPages packetPool =>
    if (s.tenants id).isSome then none
    else some (s.created id (EStateM.run (create textPages stackPages packetPool) s.quiet))
  | .call id c => (s.tenants id).map fun t => s.called id t c (c.run.run (t.sys s.quiet))
  | .destroy id =>
    (s.tenants id).map fun t => ⟨destroy t.space s.quiet, update s.tenants id none⟩

end Spaces

def kernelView (w : World) (v : ℕ) : Option Translation :=
  w.kernelRoot.bind fun kroot => PageWalk.translate (tablesOf w.mem) kroot v

/-- The world when the first space is created: the kernel's tables lie outside the pool. -/
structure Boot (w : World) : Prop where
  pool : PoolOk w
  kernel : ∀ kroot, w.kernelRoot = some kroot → ∀ l va t,
    tableFrom (tablesOf w.mem) .L1 kroot l va = some t → Outside w t

def Fresh (w : World) (s : Spaces) : Prop := s.world = w ∧ ∀ id, s.tenants id = none

abbrev Runs (w : World) (s : Spaces) : Prop := Reach (Fresh w) Spaces.step (fun _ _ => True) s

section Pool

variable {w : World} {f : ℕ}

theorem PoolOk.free (h : PoolOk w) (hf : f < w.frames.capacity) (hnew : f ∉ w.frames.freeStack) :
    PoolOk { w with frames := w.frames.free f } ∧
      (w.frames.free f).freeStack = f :: w.frames.freeStack ∧
      (w.frames.free f).capacity = w.frames.capacity := by
  have halloc := (h.allocated f hf).2 hnew
  have hrun : w.frames.free f = { w.frames with
      freeStack := f :: w.frames.freeStack
      allocated := update w.frames.allocated f false } := by
    unfold FramePool.free
    rw [if_neg (Nat.not_le.2 hf), halloc]
    rfl
  rw [hrun]
  refine ⟨⟨h.base, List.nodup_cons.2 ⟨hnew, h.nodup⟩, fun g hg => ?_, fun g hg => ?_⟩, rfl, rfl⟩
  · rcases List.mem_cons.1 hg with rfl | hg
    · exact hf
    · exact h.free_lt g hg
  change update w.frames.allocated f false g = true ↔ g ∉ f :: w.frames.freeStack
  by_cases hgf : g = f
  · subst hgf
    simp
  · rw [update_of_ne hgf, h.allocated g hg, List.mem_cons, not_or]
    exact ⟨fun hh => ⟨hgf, hh⟩, fun hh => hh.2⟩

theorem PoolOk.freeAll (owned : List ℕ) : ∀ {w : World}, PoolOk w → owned.Nodup →
    (∀ f ∈ owned, f < w.frames.capacity ∧ f ∉ w.frames.freeStack) →
    PoolOk { w with frames := owned.foldl FramePool.free w.frames } ∧
      (∀ f, f ∈ (owned.foldl FramePool.free w.frames).freeStack ↔
        f ∈ owned ∨ f ∈ w.frames.freeStack) ∧
      (owned.foldl FramePool.free w.frames).capacity = w.frames.capacity := by
  induction owned with
  | nil => exact fun h _ _ => ⟨h, fun f => by simp, rfl⟩
  | cons g rest ih =>
    intro w h hnodup hlt
    obtain ⟨hg, hrest⟩ := List.nodup_cons.1 hnodup
    obtain ⟨hok, hstack, hcap⟩ := h.free (hlt g List.mem_cons_self).1 (hlt g List.mem_cons_self).2
    obtain ⟨hok', hstack', hcap'⟩ := ih hok hrest fun f hf => by
      refine ⟨by rw [hcap]; exact (hlt f (List.mem_cons_of_mem _ hf)).1, ?_⟩
      rw [hstack, List.mem_cons, not_or]
      exact ⟨fun heq => hg (heq ▸ hf), (hlt f (List.mem_cons_of_mem _ hf)).2⟩
    refine ⟨hok', fun f => ?_, hcap'.trans hcap⟩
    rw [List.foldl_cons, hstack', hstack, List.mem_cons, List.mem_cons, or_left_comm, or_assoc]

end Pool

section Elsewhere

variable {K : ℕ → Option Translation} {w w' : World} {t : Tenant}

theorem phys_congr (h : w'.poolBase = w.poolBase) (f : ℕ) : w'.phys f = w.phys f := by
  unfold World.phys
  rw [h]

/-- A space goes on while others act: its frames stay taken and keep their bytes. -/
theorem Lives.elsewhere (h : Lives K w t) (hboard : w'.board = w.board)
    (hbase : w'.poolBase = w.poolBase) (hcap : w'.frames.capacity = w.frames.capacity)
    (hfree : ∀ f ∈ t.space.owned, f ∉ w'.frames.freeStack)
    (hmem : ∀ f ∈ t.space.owned, ∀ a, pageOf a = w.phys f → w'.mem a = w.mem a) :
    Lives K w' t := by
  have hphys := phys_congr hbase
  obtain ⟨f, hf, hroot⟩ := h.root
  refine ⟨⟨h.ledger.room, h.ledger.nodup, fun g hg => hcap ▸ h.ledger.lt g hg, hfree⟩,
    ⟨f, hf, hroot.trans (hphys f).symm⟩, h.base.trans (congrArg _ hboard.symm), h.frame, h.text,
    h.fresh, fun hp => ?_⟩
  obtain ⟨U, wf, hm⟩ := h.mapped hp
  have hgrow : Grows (t.sys w) (t.sys w') := .of_tables hm.prepared.tree rfl (fun _ hg => hg) hphys
    fun p hp i => by
      obtain ⟨g, hg, rfl⟩ := hm.prepared.tree.owned p hp
      exact tablesOf_congr (fun a ha => hmem g hg a ha) i
  refine ⟨U, wf, hm.prepared.grows hgrow, ?_, ?_, ?_⟩
  · exact hm.window.added (fun _ hg => hg) hphys rfl hgrow.newTable rfl fun _ _ hp => hp
  · rw [hboard]
    exact hm.only
  · rw [hboard]
    exact hm.granted

end Elsewhere

section Create

variable {w w' : World} {space : AddressSpace} {pool pool' : AsidPool} {i : ℕ}

theorem AsidPool.scan_some {n : ℕ} : ∀ {j : ℕ}, j < asidCount → pool.scan n j = some i →
    i < asidCount ∧ i ≠ kernelAsid ∧ pool.free i = true := by
  induction n with
  | zero => exact fun _ h => nomatch h
  | succ n ih =>
    intro j hj h
    rw [AsidPool.scan] at h
    split at h
    · rename_i hfree
      cases h
      exact ⟨hj, hfree⟩
    · exact ih (Nat.mod_lt _ (by decide)) h

theorem AsidPool.alloc_some (h : pool.alloc = some (i, pool')) :
    i < asidCount ∧ i ≠ kernelAsid ∧ pool.free i = true ∧
      pool'.free = update pool.free i false := by
  unfold AsidPool.alloc at h
  split at h
  · cases h
  obtain ⟨j, hj, heq⟩ := Option.map_eq_some_iff.1 h
  obtain ⟨hlt, hne, hfree⟩ := scan_some (Nat.mod_lt _ (by decide)) hj
  cases heq
  exact ⟨hlt, hne, hfree, rfl⟩

theorem AsidPool.release_free (hlt : i < asidCount) (hne : i ≠ kernelAsid)
    (hfree : pool.free i = false) : (pool.release i).free = update pool.free i true := by
  unfold AsidPool.release
  rw [if_neg (by rintro (h | h) <;> omega), hfree]
  rfl

theorem AsidPool.release_alloc (h : pool.alloc = some (i, pool')) :
    (pool'.release i).free = pool.free := by
  obtain ⟨hlt, hne, hfree, hpool⟩ := alloc_some h
  rw [release_free hlt hne (by rw [hpool, update_self]), hpool, update_idem,
    ← hfree, update_eq_self]

structure Created (w : World) (space : AddressSpace) (w' : World) : Prop where
  board : w'.board = w.board
  poolBase : w'.poolBase = w.poolBase
  capacity : w'.frames.capacity = w.frames.capacity
  kernelRoot : w'.kernelRoot = w.kernelRoot
  asids : ∃ pool, w.asids.alloc = some (space.asid, pool) ∧ w'.asids = pool
  pool : PoolOk w'
  root : ∃ f rest, w.frames.freeStack = f :: rest ∧ w'.frames.freeStack = rest ∧
    space.owned = [f] ∧ space.rootPhys = w.phys f
  mem : ∀ a, pageOf a ≠ space.rootPhys → w'.mem a = w.mem a
  stores : w'.stores = (space.rootPhys, frameSize) :: w.stores
  base : space.window.base = w.board.userVaBase
  frame : space.window.frame = frameSize
  text : space.window.textPages ≤ space.window.pages
  prepared : space.prepared = false

/-- `create_with_packet_pool`: a failure gives the ASID back. -/
theorem create_spec {textPages stackPages : ℕ} {packetPool : Bool} (h : PoolOk w) :
    wp (create textPages stackPages packetPool) w
      (fun space w' => Created w space w' ∧ space.window.pages = textPages + stackPages)
      (fun _ w' => (∃ asids, w' = { w with asids := asids } ∧ asids.free = w.asids.free) ∧
        (maxTextPages < textPages ∨ textPages = 0 ∨ stackPages = 0 ∨ w.asids.alloc = none ∨
          w.frames.freeStack = [])) := by
  unfold create
  rw [wp_bind, wp_get]
  dsimp only
  split
  · rename_i htext
    exact ⟨⟨w.asids, rfl, rfl⟩, .inl htext⟩
  split
  · rename_i hvalid
    refine ⟨⟨w.asids, rfl, rfl⟩, ?_⟩
    simp only [UserWindow.valid, Bool.not_eq_true', decide_eq_false_iff_not, not_not] at hvalid
    omega
  rcases hasid : w.asids.alloc with _ | ⟨asid, asids⟩
  · exact ⟨⟨w.asids, rfl, rfl⟩, .inr (.inr (.inr (.inl rfl)))⟩
  unfold FramePool.alloc
  rcases hfree : w.frames.freeStack with _ | ⟨f, rest⟩
  · exact ⟨⟨asids.release asid, rfl, AsidPool.release_alloc hasid⟩,
      .inr (.inr (.inr (.inr rfl)))⟩
  have hempty : SysOk ⟨⟨0, 0, [], 0, fun _ => 0, ⟨0, 0, 0, 0⟩, false, false, false⟩, w⟩ :=
    ⟨h, ⟨Nat.zero_le _, List.nodup_nil, nofun, nofun⟩⟩
  have hpool := (hempty.take hfree [] (.inl rfl)).pool
  dsimp only
  rw [wp_bind, wp_set, wp_pure]
  refine ⟨⟨rfl, rfl, rfl, rfl, ⟨asids, hasid, rfl⟩, ⟨hpool.base, hpool.nodup, hpool.free_lt,
    hpool.allocated⟩, ⟨f, rest, hfree, rfl, rfl, rfl⟩, fun a ha => ?_, rfl, rfl, rfl,
    Nat.le_add_right _ _, rfl⟩, rfl⟩
  change blit w.mem (w.phys f) frameSize (fun _ => 0) a = w.mem a
  refine blit_outside ?_
  by_contra hin
  obtain ⟨j, rfl⟩ := Nat.exists_eq_add_of_le (by omega : w.phys f ≤ a)
  exact ha (pageOf_add (phys_mod h.base f) (by omega))

theorem create_text {textPages stackPages : ℕ} {packetPool : Bool} :
    wp (create textPages stackPages packetPool) w
      (fun space _ => space.window.textPages = textPages) fun _ _ => True := by
  unfold create
  rw [wp_bind, wp_get]
  dsimp only
  split
  · trivial
  split
  · trivial
  split
  · trivial
  split
  · trivial
  · rfl

end Create

structure SpacesOk (w₀ : World) (s : Spaces) : Prop where
  board : s.world.board = w₀.board
  poolBase : s.world.poolBase = w₀.poolBase
  capacity : s.world.frames.capacity = w₀.frames.capacity
  kernelRoot : s.world.kernelRoot = w₀.kernelRoot
  pool : PoolOk s.world
  outside : ∀ a, (∀ f < w₀.frames.capacity, pageOf a ≠ w₀.phys f) → s.world.mem a = w₀.mem a
  lives : ∀ id t, s.tenants id = some t → Lives (kernelView w₀) s.world t
  apart : ∀ id id' t t', id ≠ id' → s.tenants id = some t → s.tenants id' = some t' →
    ∀ f ∈ t.space.owned, f ∉ t'.space.owned

section Runs

variable {w₀ : World} {s s' : Spaces}

section

variable (h : SpacesOk w₀ s)
include h

/-- The kernel's tables are where they were and hold what they held. -/
theorem SpacesOk.kernelOk (hboot : Boot w₀) :
    KernelOk (kernelView w₀) s.world ∧ kernelView s.world = kernelView w₀ := by
  cases hk : w₀.kernelRoot with
  | none =>
    have hk' : s.world.kernelRoot = none := h.kernelRoot.trans hk
    refine ⟨fun kroot hkroot => ?_, ?_⟩
    · rw [hk'] at hkroot
      cases hkroot
    · funext v
      simp only [kernelView, hk, hk', Option.bind_none]
  | some kroot =>
    have hk' : s.world.kernelRoot = some kroot := h.kernelRoot.trans hk
    have hsame : ∀ l v t, tableFrom (tablesOf w₀.mem) .L1 kroot l v = some t →
        ∀ i, tablesOf s.world.mem t i = tablesOf w₀.mem t i := by
      intro l v t ht i
      refine tablesOf_congr (fun a ha => h.outside a fun f hf heq => ?_) i
      exact (hboot.kernel kroot hk l v t ht).2 f hf (ha.symm.trans heq)
    have hview : PageWalk.translate (tablesOf s.world.mem) kroot =
        PageWalk.translate (tablesOf w₀.mem) kroot :=
      funext fun v => translate_congr fun l t ht => hsame l v t ht _
    refine ⟨fun kroot' hkroot => ?_, ?_⟩
    · rw [hk'] at hkroot
      cases hkroot
      refine ⟨funext fun v => ?_, fun l v t ht => ?_⟩
      · simp only [kernelView, hk, Option.bind_some, hview]
      rw [tableFrom_congr fun l t ht => hsame l v t ht _] at ht
      obtain ⟨hmod, hout⟩ := hboot.kernel kroot hk l v t ht
      exact ⟨hmod, fun f hf => by
        rw [phys_congr h.poolBase]
        exact hout f (h.capacity ▸ hf)⟩
    · funext v
      simp only [kernelView, hk, hk', Option.bind_some, hview]

variable {id : ℕ} {w' : World} {t : Tenant}

/-- One space acts: it changes only frames of its own, and takes them from the pool. -/
theorem SpacesOk.act (mine : ℕ → Prop) {o : Option Tenant} (hboard : w'.board = s.world.board)
    (hbase : w'.poolBase = s.world.poolBase) (hcap : w'.frames.capacity = s.world.frames.capacity)
    (hkroot : w'.kernelRoot = s.world.kernelRoot) (hpool : PoolOk w')
    (hlives : ∀ t, o = some t → Lives (kernelView w₀) w' t)
    (howned : ∀ t, o = some t → ∀ f ∈ t.space.owned, mine f)
    (hlt : ∀ f, mine f → f < s.world.frames.capacity)
    (hmine : ∀ id' t', id' ≠ id → s.tenants id' = some t' → ∀ f ∈ t'.space.owned, ¬mine f)
    (hfree : ∀ f ∈ w'.frames.freeStack, f ∈ s.world.frames.freeStack ∨ mine f)
    (hmem : ∀ a, (∀ f, mine f → pageOf a ≠ s.world.phys f) → w'.mem a = s.world.mem a) :
    SpacesOk w₀ ⟨w', update s.tenants id o⟩ := by
  have hphys := phys_congr h.poolBase
  have hold : ∀ id' t', id' ≠ id → update s.tenants id o id' = some t' →
      s.tenants id' = some t' := fun id' t' hne ht => by rwa [update_of_ne hne] at ht
  have hnew : ∀ t, update s.tenants id o id = some t → o = some t := fun t ht => by
    rwa [update_self] at ht
  refine ⟨hboard.trans h.board, hbase.trans h.poolBase, hcap.trans h.capacity,
    hkroot.trans h.kernelRoot, hpool, fun a ha => ?_, fun id' t' ht => ?_,
    fun id₁ id₂ t₁ t₂ hne ht₁ ht₂ f hf hf' => ?_⟩
  · refine (hmem a fun f hf heq => ?_).trans (h.outside a ha)
    exact ha f (h.capacity ▸ hlt f hf) (heq.trans (hphys f))
  · by_cases hid : id' = id
    · subst hid
      exact hlives t' (hnew t' ht)
    have ht' := hold id' t' hid ht
    have hl := h.lives id' t' ht'
    refine hl.elsewhere hboard hbase hcap (fun f hf hff => ?_) fun f hf a ha => ?_
    · rcases hfree f hff with hff | hff
      · exact hl.ledger.taken f hf hff
      · exact hmine id' t' hid ht' f hf hff
    refine hmem a fun g hg heq => ?_
    rw [phys_inj (ha.symm.trans heq)] at hf
    exact hmine id' t' hid ht' g hf hg
  · by_cases h₁ : id₁ = id
    · subst h₁
      exact hmine id₂ t₂ hne.symm (hold id₂ t₂ hne.symm ht₂) f hf' (howned t₁ (hnew t₁ ht₁) f hf)
    by_cases h₂ : id₂ = id
    · subst h₂
      exact hmine id₁ t₁ h₁ (hold id₁ t₁ h₁ ht₁) f hf (howned t₂ (hnew t₂ ht₂) f hf')
    · exact h.apart id₁ id₂ t₁ t₂ hne (hold id₁ t₁ h₁ ht₁) (hold id₂ t₂ h₂ ht₂) f hf hf'

theorem SpacesOk.quiet : SpacesOk w₀ ⟨s.quiet, s.tenants⟩ :=
  ⟨h.board, h.poolBase, h.capacity, h.kernelRoot, ⟨h.pool.base, h.pool.nodup, h.pool.free_lt,
    h.pool.allocated⟩, h.outside, fun id t ht => (h.lives id t ht).elsewhere rfl rfl rfl
    (h.lives id t ht).ledger.taken fun _ _ _ _ => rfl, h.apart⟩

theorem SpacesOk.of_call {c : Call} {ok : Bool} {s' : Sys} (ht : s.tenants id = some t)
    (hout : Outcome (kernelView w₀) s.world t c ok s') :
    SpacesOk w₀ ⟨s'.world, update s.tenants id (some (t.after c s'.space ok))⟩ := by
  have hconf := hout.confined
  refine h.act (· ∈ s'.owned) hconf.board hconf.poolBase hconf.capacity hconf.kernelRoot
    hconf.pool (fun t' ht' => ?_) (fun t' ht' f hf => ?_) (fun f hf => ?_)
    (fun id' t' hne ht' f hf hf' => ?_) (fun f hf => .inl (hconf.free hf)) hconf.mem
  · cases ht'
    exact hout.lives
  · cases ht'
    exact hf
  · exact hconf.capacity ▸ hconf.ledger.lt f hf
  · rcases hconf.taken f hf' with hmem | hmem
    · exact h.apart id' id t' t hne ht' ht f hf hmem
    · exact (h.lives id' t' ht').ledger.taken f hf hmem

theorem SpacesOk.of_create {space : AddressSpace} (hnew : Created s.world space w') :
    SpacesOk w₀ ⟨w', update s.tenants id (some ⟨space, [], []⟩)⟩ := by
  obtain ⟨f, rest, hfree, hrest, howned, hroot⟩ := hnew.root
  have hnodup := h.pool.nodup
  rw [hfree] at hnodup
  have hmem : f ∈ s.world.frames.freeStack := by
    rw [hfree]
    exact List.mem_cons_self
  refine h.act (· = f) hnew.board hnew.poolBase hnew.capacity hnew.kernelRoot hnew.pool
    (fun t ht => ?_) (fun t ht g hg => ?_) ?_ (fun id' t' hne ht' g hg hgf => ?_) (fun g hg => ?_)
    fun a ha => hnew.mem a (hroot ▸ ha f rfl)
  · cases ht
    refine ⟨⟨?_, ?_, ?_, ?_⟩, ⟨f, ?_, ?_⟩, ?_, hnew.frame, hnew.text, fun _ => rfl, fun hp => ?_⟩
    · rw [howned]
      exact (show 1 ≤ maxAsFrames by decide)
    · rw [howned]
      exact List.pairwise_singleton _ f
    · intro g hg
      rw [howned, List.mem_singleton] at hg
      rw [hg, hnew.capacity]
      exact h.pool.free_lt f hmem
    · intro g hg
      rw [howned, List.mem_singleton] at hg
      rw [hg, hrest]
      exact (List.nodup_cons.1 hnodup).1
    · rw [howned]
      exact List.mem_cons_self
    · rw [phys_congr hnew.poolBase]
      exact hroot
    · rw [hnew.board]
      exact hnew.base
    · rw [hnew.prepared] at hp
      cases hp
  · cases ht
    rw [howned, List.mem_singleton] at hg
    exact hg
  · rintro g rfl
    exact h.pool.free_lt g hmem
  · exact (h.lives id' t' ht').ledger.taken g hg (hgf ▸ hmem)
  · rw [hrest] at hg
    left
    rw [hfree]
    exact List.mem_cons_of_mem _ hg

theorem SpacesOk.of_destroy (ht : s.tenants id = some t) :
    SpacesOk w₀ ⟨destroy t.space s.world, update s.tenants id none⟩ := by
  have hledger := (h.lives id t ht).ledger
  obtain ⟨hok, hstack, hcap⟩ := h.pool.freeAll t.space.owned hledger.nodup
    fun f hf => ⟨hledger.lt f hf, hledger.taken f hf⟩
  exact h.act (· ∈ t.space.owned) rfl rfl hcap rfl
    ⟨hok.base, hok.nodup, hok.free_lt, hok.allocated⟩ nofun nofun hledger.lt
    (fun id' t' hne ht' f hf hf' => h.apart id' id t' t hne ht' ht f hf hf')
    (fun f hf => ((hstack f).1 hf).symm) fun _ _ => rfl

end

def OwnStores (s' : Spaces) (op : Op) : Prop :=
  ∀ st ∈ s'.world.stores, st.1 % frameSize + st.2 ≤ frameSize ∧
    ∃ t, s'.tenants op.actor = some t ∧ ∃ f ∈ t.space.owned, pageOf st.1 = s'.world.phys f

theorem SpacesOk.step (hboot : Boot w₀) (h : SpacesOk w₀ s) {op : Op}
    (hstep : s.step op = some s') : SpacesOk w₀ s' ∧ OwnStores s' op := by
  have hq := h.quiet
  cases op with
  | create id textPages stackPages packetPool =>
    rw [Spaces.step] at hstep
    split at hstep
    · cases hstep
    cases hstep
    have hspec : wp (create textPages stackPages packetPool) s.quiet _ _ := create_spec hq.pool
    rcases hrun : create textPages stackPages packetPool s.quiet with ⟨space, w⟩ | ⟨e, w⟩
    · have hnew : Created s.quiet space w := (hspec.ok hrun).1
      rw [EStateM.run, hrun]
      refine ⟨hq.of_create hnew, fun st hst => ?_⟩
      obtain ⟨f, -, -, -, howned, hroot⟩ := hnew.root
      have hmod := phys_mod hq.pool.base f
      have hst' : st = (space.rootPhys, frameSize) := by
        change st ∈ w.stores at hst
        rw [hnew.stores] at hst
        exact List.mem_singleton.1 hst
      refine ⟨?_, _, update_self .., f, ?_, ?_⟩
      · rw [hst', hroot, hmod, Nat.zero_add]
      · rw [howned]
        exact List.mem_cons_self
      · rw [hst', hroot]
        exact (pageOf_add hmod (by decide : 0 < frameSize)).trans
          (phys_congr hnew.poolBase f).symm
    · obtain ⟨⟨asids, rfl, -⟩, -⟩ := hspec.error hrun
      rw [EStateM.run, hrun]
      refine ⟨⟨hq.board, hq.poolBase, hq.capacity, hq.kernelRoot, ⟨hq.pool.base, hq.pool.nodup,
        hq.pool.free_lt, hq.pool.allocated⟩, hq.outside, fun id t ht => ?_, hq.apart⟩, nofun⟩
      exact (hq.lives id t ht).elsewhere rfl rfl rfl (hq.lives id t ht).ledger.taken
        fun _ _ _ _ => rfl
  | call id c =>
    obtain ⟨t, ht, rfl⟩ := Option.map_eq_some_iff.1 hstep
    have hspec : CallSpec (kernelView w₀) s.quiet t c c.run :=
      Call.run_spec (hq.kernelOk hboot).1 (hq.lives id t ht) hq.pool
    have hstores : ∀ {ok : Bool} {s₁ : Sys}, Outcome (kernelView w₀) s.quiet t c ok s₁ →
        OwnStores ⟨s₁.world, update s.tenants id (some (t.after c s₁.space ok))⟩
          (.call id c) := by
      intro ok s₁ hout st hst
      rcases hout.confined.stores st hst with hst | ⟨⟨f, hf, hpage⟩, hlen⟩
      · cases hst
      · exact ⟨hlen, _, update_self .., f, hf, hpage.trans (hout.confined.phys f).symm⟩
    rcases hrun : c.run (t.sys s.quiet) with ⟨a, s₁⟩ | ⟨e, s₁⟩
    · rw [EStateM.run, hrun]
      exact ⟨hq.of_call ht (hspec.ok hrun).1, hstores (hspec.ok hrun).1⟩
    · rw [EStateM.run, hrun]
      exact ⟨hq.of_call ht (hspec.error hrun).1, hstores (hspec.error hrun).1⟩
  | destroy id =>
    obtain ⟨t, ht, rfl⟩ := Option.map_eq_some_iff.1 hstep
    exact ⟨hq.of_destroy ht, nofun⟩

theorem runs_ok (hboot : Boot w₀) (hs : Runs w₀ s) : SpacesOk w₀ s := by
  refine Reach.invariant (fun s hs => ?_) (fun s op s' h _ hstep => (h.step hboot hstep).1) hs
  obtain ⟨hw, hnone⟩ := hs
  refine ⟨by rw [hw], by rw [hw], by rw [hw], by rw [hw], by rw [hw]; exact hboot.pool,
    fun a _ => by rw [hw], fun id t ht => ?_, fun id _ t _ _ ht => ?_⟩
  · rw [hnone id] at ht
    cases ht
  · rw [hnone id] at ht
    cases ht

end Runs

end HarborKernel.AddressSpaces
