import HarborKernel.AddressSpace

/-!
Frames and what an address space does to them. The tables are read off physical
memory. A step of an address space takes frames from the pool, keeps them in its
ledger, and stores only into the pages it may and into the frames it has taken.
The one leak is a frame taken while the ledger is full.
-/

namespace HarborKernel.AddressSpaces

open Function ByteWords ErrorState Paging PageWalk

def pageOf (a : ℕ) : ℕ := a - a % frameSize

variable {t k i : ℕ} {D' : ℕ → Prop}

theorem pageOf_add (ht : t % frameSize = 0) (hk : k < frameSize) : pageOf (t + k) = t := by
  unfold pageOf
  unfold frameSize at *
  omega

def tablesOf (m : Bytes) : Tables := fun t i =>
  if t % frameSize = 0 ∧ i < entriesPerTable then UInt64.ofNat (readLe m (t + 8 * i) 8) else 0

variable {s s' s₁ s₂ : Sys} {D : ℕ → Prop} {m : Bytes} {w : World}

theorem readEntry_eq (ht : t % frameSize = 0) (hi : i < entriesPerTable) :
    w.readEntry t i = tablesOf w.mem t i := by
  rw [World.readEntry, tablesOf, if_pos ⟨ht, hi⟩]

theorem tablesOf_congr {m' : Bytes} (h : ∀ a, pageOf a = t → m' a = m a) (i : ℕ) :
    tablesOf m' t i = tablesOf m t i := by
  unfold tablesOf
  split
  · rename_i hti
    rw [readLe_congr fun j hj hk => h j ?_]
    obtain ⟨k, rfl⟩ := Nat.exists_eq_add_of_le hj
    rw [Nat.add_assoc]
    refine pageOf_add hti.1 ?_
    have := hti.2
    unfold entriesPerTable at this
    unfold frameSize
    omega
  · rfl

theorem tablesOf_writeLe {entry : UInt64} (ht : t % frameSize = 0) (hi : i < entriesPerTable) :
    tablesOf (writeLe m (t + 8 * i) 8 entry.toNat) = store (tablesOf m) t i entry := by
  funext t' i'
  by_cases hslot : t' = t ∧ i' = i
  · obtain ⟨rfl, rfl⟩ := hslot
    rw [store_self, tablesOf, if_pos ⟨ht, hi⟩, readLe_writeLe_of_lt entry.toNat_lt,
      UInt64.ofNat_toNat]
  rw [store_of_ne hslot, tablesOf, tablesOf]
  split
  · rename_i hti
    rw [readLe_writeLe_of_disjoint]
    have := hti.1
    have := hti.2
    unfold entriesPerTable at *
    unfold frameSize at *
    omega
  · rfl

theorem readLe_zero {a : ℕ} (h : ∀ j, a ≤ j → j < a + k → m j = 0) : readLe m a k = 0 := by
  induction k generalizing a with
  | zero => rfl
  | succ k ih =>
    rw [readLe, h a le_rfl (by omega), ih fun j hj hk => h j (by omega) (by omega)]
    rfl

theorem tablesOf_zero (ht : t % frameSize = 0) :
    tablesOf (blit m t frameSize fun _ => 0) = fillTable (tablesOf m) t fun _ => 0 := by
  funext t' i
  by_cases htt : t' = t
  · subst htt
    rw [fillTable_self, tablesOf]
    split
    · rename_i hti
      rw [readLe_zero]
      · rfl
      intro j hj hk
      have := hti.2
      rw [blit, if_pos]
      unfold entriesPerTable at this
      unfold frameSize
      omega
    · rfl
  · rw [fillTable_of_ne htt]
    by_cases ht' : t' % frameSize = 0
    · refine tablesOf_congr (fun a ha => blit_outside ?_) i
      unfold pageOf at ha
      unfold frameSize at *
      omega
    · rw [tablesOf, tablesOf, if_neg fun h => ht' h.1, if_neg fun h => ht' h.1]

namespace Sys

def tables (s : Sys) : Tables := tablesOf s.world.mem

abbrev free (s : Sys) : List ℕ := s.world.frames.freeStack

abbrev owned (s : Sys) : List ℕ := s.space.owned

abbrev phys (s : Sys) (f : ℕ) : ℕ := s.world.phys f

end Sys

structure PoolOk (w : World) : Prop where
  base : w.poolBase % frameSize = 0
  nodup : w.frames.freeStack.Nodup
  free_lt : ∀ f ∈ w.frames.freeStack, f < w.frames.capacity
  allocated : ∀ f, f < w.frames.capacity → (w.frames.allocated f = true ↔ f ∉ w.frames.freeStack)

structure LedgerOk (w : World) (owned : List ℕ) : Prop where
  room : owned.length ≤ maxAsFrames
  nodup : owned.Nodup
  lt : ∀ f ∈ owned, f < w.frames.capacity
  taken : ∀ f ∈ owned, f ∉ w.frames.freeStack

structure SysOk (s : Sys) : Prop where
  pool : PoolOk s.world
  ledger : LedgerOk s.world s.owned

theorem phys_mod (h : w.poolBase % frameSize = 0) (f : ℕ) :
    w.phys f % frameSize = 0 := by
  unfold World.phys
  unfold frameSize at *
  omega

theorem phys_inj {f g : ℕ} (h : w.phys f = w.phys g) : f = g := by
  unfold World.phys frameSize at h
  omega

def NewPage (s s' : Sys) (t : ℕ) : Prop := ∃ f ∈ s'.owned, f ∉ s.owned ∧ t = s.phys f

structure SameFrame (s s' : Sys) : Prop where
  board : s'.world.board = s.world.board
  poolBase : s'.world.poolBase = s.world.poolBase
  capacity : s'.world.frames.capacity = s.world.frames.capacity
  asids : s'.world.asids = s.world.asids
  kernelRoot : s'.world.kernelRoot = s.world.kernelRoot
  root : s'.space.rootPhys = s.space.rootPhys
  asid : s'.space.asid = s.space.asid
  window : s'.space.window = s.space.window
  packet : s'.space.packetPoolRequested = s.space.packetPoolRequested
  mapped : s'.space.packetPoolMapped = s.space.packetPoolMapped
  prepared : s'.space.prepared = s.space.prepared

/-- A step that stores into pages of `D` and into the frames it takes. -/
structure Within (D : ℕ → Prop) (s s' : Sys) : Prop where
  same : SameFrame s s'
  ok : SysOk s'
  owned : s.owned <+: s'.owned
  taken : ∀ f ∈ s'.owned, f ∈ s.owned ∨ f ∈ s.free
  free : s'.free <:+ s.free
  mem : ∀ a, ¬(D (pageOf a) ∨ NewPage s s' (pageOf a)) → s'.world.mem a = s.world.mem a
  stores : ∀ st ∈ s'.world.stores, st ∈ s.world.stores ∨
    (D (pageOf st.1) ∨ NewPage s s' (pageOf st.1)) ∧ st.1 % frameSize + st.2 ≤ frameSize

theorem SameFrame.refl (s : Sys) : SameFrame s s := 
  ⟨rfl, rfl, rfl, rfl, rfl, rfl, rfl, rfl, rfl, rfl, rfl⟩

theorem SameFrame.trans {s'' : Sys} (h : SameFrame s s') (h' : SameFrame s' s'') :
    SameFrame s s'' :=
  ⟨h'.board.trans h.board, h'.poolBase.trans h.poolBase, h'.capacity.trans h.capacity,
    h'.asids.trans h.asids, h'.kernelRoot.trans h.kernelRoot, h'.root.trans h.root,
    h'.asid.trans h.asid, h'.window.trans h.window, h'.packet.trans h.packet,
    h'.mapped.trans h.mapped, h'.prepared.trans h.prepared⟩

theorem SameFrame.phys (h : SameFrame s s') (f : ℕ) : s'.phys f = s.phys f := by
  unfold Sys.phys World.phys
  rw [h.poolBase]

theorem Within.refl (h : SysOk s) : Within D s s :=
  ⟨.refl s, h, List.prefix_refl _, fun _ hf => .inl hf, List.suffix_refl _, fun _ _ => rfl,
    fun _ hst => .inl hst⟩

theorem Within.newPage_left (h : Within D s₁ s₂) (ht : NewPage s s₁ t) : NewPage s s₂ t := by
  obtain ⟨f, hf, hnew, rfl⟩ := ht
  exact ⟨f, h.owned.subset hf, hnew, rfl⟩

theorem Within.newPage_right (h : Within D s s₁) (ht : NewPage s₁ s₂ t) : NewPage s s₂ t := by
  obtain ⟨f, hf, hnew, rfl⟩ := ht
  exact ⟨f, hf, fun hold => hnew (h.owned.subset hold), h.same.phys f⟩

theorem Within.trans (h : Within D s s₁) (h' : Within D' s₁ s₂)
    (hD : ∀ t, D' t → D t ∨ NewPage s s₁ t) : Within D s s₂ := by
  have hpage : ∀ t, D' t ∨ NewPage s₁ s₂ t → D t ∨ NewPage s s₂ t := by
    rintro t (ht | ht)
    · rcases hD t ht with ht | ht
      · exact .inl ht
      · exact .inr (h'.newPage_left ht)
    · exact .inr (h.newPage_right ht)
  refine ⟨h.same.trans h'.same, h'.ok, h.owned.trans h'.owned, fun f hf => ?_,
    h'.free.trans h.free, fun a ha => ?_, fun st hst => ?_⟩
  · rcases h'.taken f hf with hf | hf
    · exact h.taken f hf
    · exact .inr (h.free.subset hf)
  · rw [h'.mem a fun hh => ha (hpage _ hh), h.mem a fun hh => ha ?_]
    rcases hh with hh | hh
    · exact .inl hh
    · exact .inr (h'.newPage_left hh)
  · rcases h'.stores st hst with hst | ⟨hst, hlen⟩
    · rcases h.stores st hst with hst | ⟨hst, hlen⟩
      · exact .inl hst
      refine .inr ⟨?_, hlen⟩
      rcases hst with hst | hst
      · exact .inl hst
      · exact .inr (h'.newPage_left hst)
    · exact .inr ⟨hpage _ hst, hlen⟩

theorem Within.mono (h : Within D s s') (hD : ∀ t, D t → D' t) : Within D' s s' :=
  ⟨h.same, h.ok, h.owned, h.taken, h.free, fun a ha => h.mem a fun hh => ha (hh.imp_left (hD _)),
    fun st hst => (h.stores st hst).imp_right fun hh => ⟨hh.1.imp_left (hD _), hh.2⟩⟩

/-- A table outside the stored pages keeps its descriptors. -/
theorem Within.tables (h : Within D s s') (ht : ¬(D t ∨ NewPage s s' t)) (i : ℕ) :
    s'.tables t i = s.tables t i :=
  tablesOf_congr (fun a ha => h.mem a (by rwa [ha])) i

structure Step (D : ℕ → Prop) (k : ℕ) (s s' : Sys) : Prop extends Within D s s' where
  kept : ∀ f ∈ s.free, f ∈ s'.free ∨ f ∈ s'.owned
  count : s'.owned.length ≤ s.owned.length + k

structure Fail (D : ℕ → Prop) (k : ℕ) (s : Sys) (e : AsError) (s' : Sys) : Prop
    extends Within D s s' where
  kept : e ≠ .ledgerFull → ∀ f ∈ s.free, f ∈ s'.free ∨ f ∈ s'.owned
  full : e = .ledgerFull → maxAsFrames ≤ s'.owned.length ∧
    s'.owned.length < s.owned.length + k ∧ ∃ f ∈ s.free, f ∉ s'.free ∧ f ∉ s'.owned
  empty : e = .outOfFrames → s'.free = []

def Spec {α : Type} (D : ℕ → Prop) (k : ℕ) (x : As α) (s : Sys) (Q : α → Sys → Prop) : Prop :=
  wp x s (fun a s' => Step D k s s' ∧ Q a s') (Fail D k s)

section Rules

variable {α β : Type} {D D' : ℕ → Prop} {k k' : ℕ} {s s₁ s₂ : Sys} {e : AsError}

theorem Step.refl (h : SysOk s) : Step D 0 s s :=
  ⟨.refl h, fun _ hf => .inl hf, le_rfl⟩

theorem Step.trans (h : Step D k s s₁) (h' : Step (fun t => D t ∨ NewPage s s₁ t) k' s₁ s₂) :
    Step D (k + k') s s₂ := by
  refine ⟨h.toWithin.trans h'.toWithin fun _ ht => ht, fun f hf => ?_, ?_⟩
  · rcases h.kept f hf with hf | hf
    · exact h'.kept f hf
    · exact .inr (h'.owned.subset hf)
  have := h.count
  have := h'.count
  omega

theorem Step.fail (h : Step D k s s₁)
    (h' : Fail (fun t => D t ∨ NewPage s s₁ t) k' s₁ e s₂) : Fail D (k + k') s e s₂ := by
  refine ⟨h.toWithin.trans h'.toWithin fun _ ht => ht, fun he f hf => ?_, fun he => ?_, h'.empty⟩
  · rcases h.kept f hf with hf | hf
    · exact h'.kept he f hf
    · exact .inr (h'.owned.subset hf)
  obtain ⟨hfull, hlt, f, hf, hlost⟩ := h'.full he
  have := h.count
  exact ⟨hfull, by omega, f, h.free.subset hf, hlost⟩

theorem Step.mono (h : Step D k s s₁) (hD : ∀ t, D t → D' t) (hk : k ≤ k') : Step D' k' s s₁ :=
  ⟨h.toWithin.mono hD, h.kept, by have := h.count; omega⟩

theorem Fail.mono (h : Fail D k s e s₁) (hD : ∀ t, D t → D' t) (hk : k ≤ k') :
    Fail D' k' s e s₁ :=
  ⟨h.toWithin.mono hD, h.kept, fun he => by
    obtain ⟨hfull, hlt, hlost⟩ := h.full he
    exact ⟨hfull, by omega, hlost⟩, h.empty⟩

theorem Fail.refl (h : SysOk s) (hfull : e ≠ .ledgerFull) (hempty : e ≠ .outOfFrames) :
    Fail D k s e s :=
  ⟨.refl h, fun _ _ hf => .inl hf, fun he => absurd he hfull, fun he => absurd he hempty⟩

variable {Q : α → Sys → Prop} {x : As α}

variable {Q' : α → Sys → Prop} {f : α → As β} {R : β → Sys → Prop} {a : α}

theorem Spec.mono (h : Spec D k x s Q) (hD : ∀ t, D t → D' t) (hk : k ≤ k')
    (hQ : ∀ a s', Step D k s s' → Q a s' → Q' a s') : Spec D' k' x s Q' :=
  wp.mono h (fun a s' hs' => ⟨hs'.1.mono hD hk, hQ a s' hs'.1 hs'.2⟩) fun _ _ he => he.mono hD hk

/-- Sequencing: what follows may store into the frames taken before. -/
theorem Spec.bind (hx : Spec D k x s Q)
    (hf : ∀ a s', Step D k s s' → Q a s' → Spec (fun t => D t ∨ NewPage s s' t) k' (f a) s' R) :
    Spec D (k + k') (x >>= f) s R := by
  refine wp_bind.2 (wp.mono hx (fun a s' hs' => ?_)
    fun e s' he => he.mono (fun _ h => h) (by omega))
  exact wp.mono (hf a s' hs'.1 hs'.2) (fun b s'' hb => ⟨hs'.1.trans hb.1, hb.2⟩)
    fun e s'' he => hs'.1.fail he

theorem Spec.pure (h : SysOk s) (hQ : Q a s) :
    Spec D 0 (pure a) s Q := ⟨.refl h, hQ⟩

theorem Spec.throw (h : SysOk s) (hfull : e ≠ .ledgerFull) (hempty : e ≠ .outOfFrames) :
    Spec D k (throw e : As α) s Q := Fail.refl h hfull hempty

def SpecE {α : Type} (D : ℕ → Prop) (k : ℕ) (x : As α) (s : Sys) (Q : α → Sys → Prop)
    (E : AsError → Sys → Prop) : Prop :=
  wp x s (fun a s' => Step D k s s' ∧ Q a s') (fun e s' => Fail D k s e s' ∧ E e s')

variable {E E' : AsError → Sys → Prop}

theorem SpecE.mono (h : SpecE D k x s Q E) (hD : ∀ t, D t → D' t) (hk : k ≤ k')
    (hQ : ∀ a s', Step D k s s' → Q a s' → Q' a s')
    (hE : ∀ e s', Fail D k s e s' → E e s' → E' e s') : SpecE D' k' x s Q' E' :=
  wp.mono h (fun a s' hs' => ⟨hs'.1.mono hD hk, hQ a s' hs'.1 hs'.2⟩)
    fun e s' he => ⟨he.1.mono hD hk, hE e s' he.1 he.2⟩

theorem SpecE.bind (hx : SpecE D k x s Q E)
    (hf : ∀ a s', Step D k s s' → Q a s' → SpecE (fun t => D t ∨ NewPage s s' t) k' (f a) s' R E) :
    SpecE D (k + k') (x >>= f) s R E := by
  refine wp_bind.2 (wp.mono hx (fun a s' hs' => ?_) fun e s' he =>
    ⟨he.1.mono (fun _ h => h) (by omega), he.2⟩)
  exact wp.mono (hf a s' hs'.1 hs'.2) (fun b s'' hb => ⟨hs'.1.trans hb.1, hb.2⟩)
    fun e s'' he => ⟨hs'.1.fail he.1, he.2⟩

theorem SpecE.pure (h : SysOk s) (hQ : Q a s) :
    SpecE D 0 (pure a) s Q E := ⟨.refl h, hQ⟩

theorem SpecE.throw (h : SysOk s) (hfull : e ≠ .ledgerFull) (hempty : e ≠ .outOfFrames)
    (hE : E e s) : SpecE D k (throw e : As α) s Q E :=
  ⟨Fail.refl h hfull hempty, hE⟩

theorem SpecE.of_ok (hx : x s = .ok a s₁) (hstep : Step D k s s₁) (hQ : Q a s₁) :
    SpecE D k x s Q E := by
  unfold SpecE wp
  rw [hx]
  exact ⟨hstep, hQ⟩

theorem SpecE.toSpec (h : SpecE D k x s Q E) : Spec D k x s Q :=
  wp.mono h (fun _ _ hs' => hs') fun _ _ he => he.1

end Rules

section Primitives

variable {D : ℕ → Prop} {s : Sys} {t i : ℕ}

theorem SysOk.take (h : SysOk s) {f : ℕ} {rest : List ℕ} (hfree : s.free = f :: rest)
    (owned : List ℕ) (howned : owned = s.owned ∨
      owned = s.owned ++ [f] ∧ s.owned.length < maxAsFrames) :
    SysOk ⟨{ s.space with owned := owned },
      { s.world with frames := { s.world.frames with
          freeStack := rest, allocated := update s.world.frames.allocated f true } }⟩ := by
  have hnodup := h.pool.nodup
  have hlt := h.pool.free_lt
  have halloc := h.pool.allocated
  change s.world.frames.freeStack = f :: rest at hfree
  rw [hfree] at hnodup hlt halloc
  obtain ⟨hf, hrest⟩ := List.nodup_cons.1 hnodup
  have hnew : f ∉ s.owned := fun hmem =>
    h.ledger.taken f hmem (by rw [hfree]; exact List.mem_cons_self)
  have hledger : ∀ g ∈ s.owned, g < s.world.frames.capacity ∧ g ∉ rest := fun g hg =>
    ⟨h.ledger.lt g hg, fun hmem => h.ledger.taken g hg (by
      rw [hfree]; exact List.mem_cons_of_mem _ hmem)⟩
  refine ⟨⟨h.pool.base, hrest, fun g hg => hlt g (List.mem_cons_of_mem _ hg), fun g hg => ?_⟩, ?_⟩
  · change update s.world.frames.allocated f true g = true ↔ g ∉ rest
    by_cases hgf : g = f
    · subst hgf
      rw [update_self]
      exact ⟨fun _ => hf, fun _ => rfl⟩
    · rw [update_of_ne hgf, halloc g hg, List.mem_cons, not_or]
      exact ⟨fun hh => hh.2, fun hh => ⟨hgf, hh⟩⟩
  rcases howned with rfl | ⟨rfl, hroom⟩
  · exact ⟨h.ledger.room, h.ledger.nodup, fun g hg => (hledger g hg).1,
      fun g hg => (hledger g hg).2⟩
  refine ⟨by rwa [List.length_append], List.nodup_append.2 ⟨h.ledger.nodup,
    List.pairwise_singleton _ f, ?_⟩, ?_, ?_⟩
  · rintro a ha b hb rfl
    rw [List.mem_singleton.1 hb] at ha
    exact hnew ha
  · intro g hg
    rcases List.mem_append.1 hg with hg | hg
    · exact (hledger g hg).1
    · rw [List.mem_singleton.1 hg]
      exact hlt f List.mem_cons_self
  · intro g hg
    rcases List.mem_append.1 hg with hg | hg
    · exact (hledger g hg).2
    · rw [List.mem_singleton.1 hg]
      exact hf

/-- A frame is taken, or there is none, or the ledger is full and the frame is lost. -/
theorem takeFrame_specE (h : SysOk s) :
    SpecE D 1 takeFrame s (fun p s' => ∃ f, p = s.phys f ∧ s'.owned = s.owned ++ [f] ∧
      f ∈ s.free ∧ f ∉ s.owned ∧ s'.world.mem = s.world.mem)
      (fun e s' => e ≠ .badTable ∧ s'.owned = s.owned ∧ s'.world.mem = s.world.mem) := by
  unfold SpecE takeFrame
  rw [wp_bind, wp_get]
  unfold FramePool.alloc
  rcases hfree : s.world.frames.freeStack with _ | ⟨f, rest⟩
  · exact ⟨⟨.refl h, fun _ _ hf => .inl hf, nofun, fun _ => hfree⟩, nofun, rfl, rfl⟩
  have hmem : f ∈ s.free := by
    change f ∈ s.world.frames.freeStack
    rw [hfree]
    exact List.mem_cons_self
  have hnew : f ∉ s.owned := fun hf => h.ledger.taken f hf hmem
  have hnodup := h.pool.nodup
  rw [hfree] at hnodup
  have hfrest := (List.nodup_cons.1 hnodup).1
  have hsuffix : rest <:+ s.free := by
    change rest <:+ s.world.frames.freeStack
    rw [hfree]
    exact List.suffix_cons f rest
  dsimp only
  rw [wp_bind, wp_set]
  split
  · rename_i hfull
    refine ⟨⟨⟨⟨rfl, rfl, rfl, rfl, rfl, rfl, rfl, rfl, rfl, rfl, rfl⟩,
      h.take hfree s.owned (.inl rfl), List.prefix_refl _, fun _ hf => .inl hf, hsuffix,
      fun _ _ => rfl, fun _ hst => .inl hst⟩, fun hne => absurd rfl hne, fun _ => ?_, nofun⟩,
      nofun, rfl, rfl⟩
    exact ⟨hfull, Nat.lt_succ_self _, f, hmem, hfrest, hnew⟩
  rename_i hroom
  rw [wp_bind, wp_modify, wp_pure]
  refine ⟨⟨⟨⟨rfl, rfl, rfl, rfl, rfl, rfl, rfl, rfl, rfl, rfl, rfl⟩,
    h.take hfree (s.owned ++ [f]) (.inr ⟨rfl, Nat.lt_of_not_le hroom⟩),
    List.prefix_append _ _, fun g hg => ?_, hsuffix, fun _ _ => rfl, fun _ hst => .inl hst⟩,
    fun g hg => ?_, ?_⟩, f, rfl, rfl, hmem, hnew, rfl⟩
  · rcases List.mem_append.1 hg with hg | hg
    · exact .inl hg
    · rw [List.mem_singleton.1 hg]
      exact .inr hmem
  · change g ∈ rest ∨ g ∈ s.owned ++ [f]
    change g ∈ s.world.frames.freeStack at hg
    rw [hfree] at hg
    rcases List.mem_cons.1 hg with rfl | hg
    · exact .inr (List.mem_append_right _ List.mem_cons_self)
    · exact .inl hg
  · change (s.owned ++ [f]).length ≤ s.owned.length + 1
    rw [List.length_append]
    exact Nat.le_refl _

theorem takeFrame_spec (h : SysOk s) :
    Spec D 1 takeFrame s fun p s' => ∃ f, p = s.phys f ∧ s'.owned = s.owned ++ [f] ∧
      f ∈ s.free ∧ f ∉ s.owned ∧ s'.world.mem = s.world.mem := (takeFrame_specE h).toSpec

theorem step_write (h : SysOk s) (hD : D t) (mem : Bytes) (a n : ℕ) (ha : pageOf a = t)
    (hn : a % frameSize + n ≤ frameSize)
    (hmem : ∀ b, pageOf b ≠ t → mem b = s.world.mem b) :
    Step D 0 s { s with
      world := { s.world with mem := mem, stores := (a, n) :: s.world.stores } } := by
  refine ⟨⟨⟨rfl, rfl, rfl, rfl, rfl, rfl, rfl, rfl, rfl, rfl, rfl⟩, ⟨⟨h.pool.base, h.pool.nodup,
    h.pool.free_lt, h.pool.allocated⟩, ⟨h.ledger.room, h.ledger.nodup, h.ledger.lt,
    h.ledger.taken⟩⟩,
    List.prefix_refl _, fun _ hf => .inl hf, List.suffix_refl _, fun b hb => ?_, fun st hst => ?_⟩,
    fun _ hf => .inl hf, le_rfl⟩
  · exact hmem b fun hbt => hb (.inl (hbt ▸ hD))
  rcases List.mem_cons.1 hst with rfl | hst
  · exact .inr ⟨.inl (ha ▸ hD), hn⟩
  · exact .inl hst

section

variable (h : SysOk s) (ht : t % frameSize = 0)
include h ht

variable {entry : UInt64} {E : AsError → Sys → Prop}

theorem writeEntry_specE (hi : i < entriesPerTable) (hD : D t) :
    SpecE D 0 (writeEntry t i entry) s (fun _ s' =>
      s'.tables = store s.tables t i entry ∧ s'.owned = s.owned) E := by
  have hbyte : ∀ k, k < 8 → pageOf (t + 8 * i + k) = t := by
    intro k hk
    rw [Nat.add_assoc]
    refine pageOf_add ht ?_
    unfold entriesPerTable at hi
    unfold frameSize
    omega
  refine ⟨step_write h hD _ (t + 8 * i) 8 (hbyte 0 (by decide)) ?_ fun b hb => ?_,
    tablesOf_writeLe ht hi, rfl⟩
  · unfold entriesPerTable at hi
    unfold frameSize at *
    omega
  refine writeLe_outside ?_
  by_contra hin
  obtain ⟨k, rfl⟩ := Nat.exists_eq_add_of_le (by omega : t + 8 * i ≤ b)
  exact hb (hbyte k (by omega))

theorem writeEntry_spec (hi : i < entriesPerTable) (hD : D t) :
    Spec D 0 (writeEntry t i entry) s fun _ s' =>
      s'.tables = store s.tables t i entry ∧ s'.owned = s.owned :=
  (writeEntry_specE (E := fun _ _ => True) h ht hi hD).toSpec

theorem zeroFrame_specE (hD : D t) :
    SpecE D 0 (zeroFrame t) s (fun _ s' => s'.tables = fillTable s.tables t (fun _ => 0) ∧
      s'.owned = s.owned ∧ ∀ a, pageOf a = t → s'.world.mem a = 0) E := by
  refine ⟨step_write h hD _ t frameSize ?_ (by rw [ht, Nat.zero_add]) fun b hb => ?_,
    tablesOf_zero ht, rfl, fun a ha => ?_⟩
  · exact pageOf_add (k := 0) ht (by decide)
  · refine blit_outside ?_
    by_contra hin
    obtain ⟨k, rfl⟩ := Nat.exists_eq_add_of_le (by omega : t ≤ b)
    exact hb (pageOf_add ht (by omega))
  · change blit s.world.mem t frameSize (fun _ => 0) a = 0
    rw [blit, if_pos]
    unfold pageOf frameSize at *
    omega

theorem zeroFrame_spec (hD : D t) :
    Spec D 0 (zeroFrame t) s fun _ s' => s'.tables = fillTable s.tables t (fun _ => 0) ∧
      s'.owned = s.owned ∧ ∀ a, pageOf a = t → s'.world.mem a = 0 :=
  (zeroFrame_specE (E := fun _ _ => True) h ht hD).toSpec

end

end Primitives

end HarborKernel.AddressSpaces
