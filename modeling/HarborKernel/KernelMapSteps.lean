import HarborKernel.KernelMap

/-!
What one step of `map` and `unmap` does to the translation. The invariant says
that no table is reached in two ways, that all tables come from the used part of
the arena, and that every descriptor is empty, a table pointer or a leaf.
-/

namespace HarborKernel.KernelMap

open ErrorState Paging PageWalk

def EntryOk (level : Level) (entry : UInt64) : Prop :=
  entry = 0 ∨ isTable entry level = true ∨ ∃ pa kind perms, leaf level pa kind perms = some entry

structure Inv (s : KernelMap) : Prop where
  separate : Separate s.tables .L1 s.root
  arena : ∀ t, Reaches s.tables .L1 s.root t → t + tableSize ≤ s.next
  aligned : s.next % pageSize = 0
  room : s.next ≤ s.limit
  limit : s.limit ≤ 2 ^ 48
  entries : ∀ level va t, tableFrom s.tables .L1 s.root level va = some t →
    EntryOk level (s.tables t (level.index va))

def translate (s : KernelMap) (va : ℕ) : Option Translation :=
  PageWalk.translate s.tables s.root va

structure Evolves (s s' : KernelMap) : Prop where
  inv : Inv s'
  root : s'.root = s.root
  limit : s'.limit = s.limit

structure Keeps (s s' : KernelMap) : Prop extends Evolves s s' where
  same : ∀ v, s'.translate v = s.translate v

variable {s s' s'' : KernelMap} {entry : UInt64} {kind : MemKind} {perms : Perms} {v : ℕ}
  {chunk : Chunk}

theorem Evolves.refl (h : Inv s) : Evolves s s := ⟨h, rfl, rfl⟩

theorem Evolves.trans (h : Evolves s s') (h' : Evolves s' s'') :
    Evolves s s'' := ⟨h'.inv, h'.root.trans h.root, h'.limit.trans h.limit⟩

theorem Keeps.refl (h : Inv s) : Keeps s s := ⟨.refl h, fun _ => rfl⟩

theorem Keeps.trans (h : Keeps s s') (h' : Keeps s' s'') : Keeps s s'' :=
  ⟨h.toEvolves.trans h'.toEvolves, fun v => (h'.same v).trans (h.same v)⟩

variable {s : KernelMap} {level next : Level} {va t : ℕ}

theorem isTable_zero (level : Level) : isTable 0 level = false := by cases level <;> decide

theorem isTable_of_low (hnext : level.next = some next) :
    isTable entry level = decide (entry &&& 0b11 = descTable) := by
  cases level <;> cases hnext <;> rfl

theorem isTable_leaf {pa : ℕ} (h : leaf level pa kind perms = some entry) :
    isTable entry level = false :=
  isTable_of_isLeaf (isLeaf_of_decodeLeaf (decodeLeaf_leaf h))

theorem Inv.fresh (h : Inv s) : ¬Reaches s.tables .L1 s.root s.next := by
  intro hreach
  have hle := h.arena _ hreach
  have hpos : 0 < tableSize := by decide
  omega

theorem Inv.store (h : Inv s) (ht : tableFrom s.tables .L1 s.root level va = some t)
    (hleaf : isTable entry level = false) (hok : EntryOk level entry) :
    Inv { s with tables := store s.tables t (level.index va) entry } := by
  refine ⟨h.separate.of_tableFrom fun l v x hx => tableFrom_store_leaf h.separate ht hleaf hx, ?_,
    h.aligned, h.room, h.limit, ?_⟩
  · rintro x ⟨l, v, hx⟩
    exact h.arena x ⟨l, v, tableFrom_store_leaf h.separate ht hleaf hx⟩
  intro l v x hx
  have hx' := tableFrom_store_leaf h.separate ht hleaf hx
  by_cases hslot : x = t ∧ l.index v = level.index va
  · obtain ⟨rfl, hindex⟩ := hslot
    obtain ⟨rfl, -⟩ := h.separate _ _ _ _ _ ht hx'
    change EntryOk level (PageWalk.store s.tables x (level.index va) entry x (level.index v))
    rw [hindex, store_self]
    exact hok
  change EntryOk l (PageWalk.store s.tables t (level.index va) entry x (l.index v))
  rw [store_of_ne hslot]
  exact h.entries l v x hx'

theorem translate_store (h : Inv s) (ht : tableFrom s.tables .L1 s.root level va = some t)
    (hleaf : isTable entry level = false) (hva : va < vaLimit) (v : ℕ) :
    KernelMap.translate { s with tables := store s.tables t (level.index va) entry } v =
      if v < vaLimit ∧ v / level.entrySize = va / level.entrySize then leafAt entry level v
      else s.translate v := by
  unfold KernelMap.translate PageWalk.translate
  rcases Nat.lt_or_ge v vaLimit with hv | hv
  · rw [if_neg (Nat.not_le.2 hv), if_neg (Nat.not_le.2 hv)]
    by_cases hslot : SameSlot .L1 level va v
    · rw [if_pos ⟨hv, (sameSlot_iff hva hv).1 hslot⟩,
        lastFrom_store_self h.separate ht hslot, resolve_of_not_table hleaf]
    · rw [if_neg fun hh => hslot ((sameSlot_iff hva hv).2 hh.2),
        lastFrom_store_of_ne h.separate ht hslot]
  · rw [if_pos hv, if_pos hv, if_neg fun hh => Nat.not_lt.2 hv hh.1]

theorem translate_of_leaf (ht : tableFrom s.tables .L1 s.root level va = some t)
    (hleaf : isTable (s.tables t (level.index va)) level = false) (hva : va < vaLimit)
    (hv : v < vaLimit) (hslot : v / level.entrySize = va / level.entrySize) :
    s.translate v = leafAt (s.tables t (level.index va)) level v := by
  rw [KernelMap.translate, PageWalk.translate, if_neg (Nat.not_le.2 hv),
    lastFrom_of_leaf ht ((sameSlot_iff hva hv).2 hslot) hleaf]

def linked (s : KernelMap) (level : Level) (va t : ℕ) (desc : UInt64) (entries : ℕ → UInt64) :
    KernelMap :=
  { s with next := s.next + tableSize,
           tables := link s.tables t (level.index va) desc s.next entries }

section Linked

variable {desc : UInt64} {entries : ℕ → UInt64}

theorem Inv.links (h : Inv s) (entries : ℕ → UInt64)
    (ht : tableFrom s.tables .L1 s.root level va = some t)
    (hnext : level.next = some next) (hdesc : tableDescriptor s.next = some desc)
    (hleaves : ∀ i, isTable (entries i) next = false) :
    Links s.tables .L1 s.root level next va t desc s.next entries := by
  obtain ⟨haddr, htab⟩ := tableDescriptor_spec hdesc
  refine ⟨h.separate, ht, h.fresh, hnext, htab level ?_, haddr, hleaves⟩
  rintro rfl
  cases hnext

theorem Inv.linked (h : Inv s)
    (hlinks : Links s.tables .L1 s.root level next va t desc s.next entries)
    (hroom : s.next + tableSize ≤ s.limit) (hok : ∀ i, EntryOk next (entries i)) :
    Inv (linked s level va t desc entries) := by
  refine ⟨hlinks.separate_link, ?_, ?_, hroom, h.limit, ?_⟩
  · rintro x ⟨l, v, hx⟩
    rcases hlinks.tableFrom_link hx with hold | ⟨rfl, -⟩
    · exact Nat.le_trans (h.arena x ⟨l, v, hold⟩) (Nat.le_add_right _ _)
    · exact Nat.le_refl _
  · change (s.next + 4096) % pageSize = 0
    have haligned := h.aligned
    unfold pageSize at *
    omega
  · intro l v x hx
    change EntryOk l (link s.tables t (level.index va) desc s.next entries x (l.index v))
    rcases hlinks.tableFrom_link hx with hold | ⟨rfl, rfl, -⟩
    · have hne : x ≠ s.next := fun heq => hlinks.fresh ⟨l, v, heq ▸ hold⟩
      by_cases hslot : x = t ∧ l.index v = level.index va
      · obtain ⟨rfl, hindex⟩ := hslot
        obtain ⟨rfl, -⟩ := h.separate _ _ _ _ _ hlinks.found hold
        rw [hindex, link, store_self]
        exact .inr (.inl hlinks.isTable)
      · rw [link, store_of_ne hslot, fillTable_of_ne hne]
        exact h.entries l v x hold
    · rw [hlinks.link_child]
      exact hok _

/-- Linking keeps the translation when the leaves of the table map what the descriptor did. -/
theorem Keeps.linked (h : Inv s) (hva : va < vaLimit)
    (hlinks : Links s.tables .L1 s.root level next va t desc s.next entries)
    (hroom : s.next + tableSize ≤ s.limit) (hok : ∀ i, EntryOk next (entries i))
    (hold : isTable (s.tables t (level.index va)) level = false)
    (hsame : ∀ v, v / level.entrySize = va / level.entrySize →
      leafAt (entries (next.index v)) next v = leafAt (s.tables t (level.index va)) level v) :
    Keeps s (linked s level va t desc entries) := by
  refine ⟨⟨h.linked hlinks hroom hok, rfl, rfl⟩, fun v => ?_⟩
  rcases Nat.lt_or_ge v vaLimit with hv | hv
  · by_cases hslot : SameSlot .L1 level va v
    · have hdiv := (sameSlot_iff hva hv).1 hslot
      rw [translate_of_leaf hlinks.found hold hva hv hdiv, ← hsame v hdiv]
      unfold KernelMap.translate PageWalk.translate KernelMap.linked
      rw [if_neg (Nat.not_le.2 hv), hlinks.lastFrom_self hslot]
    · unfold KernelMap.translate PageWalk.translate KernelMap.linked
      rw [hlinks.lastFrom_of_ne hslot]
  · unfold KernelMap.translate PageWalk.translate
    rw [if_pos hv, if_pos hv]

theorem tableFrom_linked (hlinks : Links s.tables .L1 s.root level next va t desc s.next entries) :
    tableFrom (linked s level va t desc entries).tables .L1 s.root next va = some s.next := by
  have hsep := hlinks.separate.fillTable entries hlinks.fresh
  change tableFrom (store (fillTable s.tables s.next entries) t (level.index va) desc) .L1 s.root
    next va = some s.next
  rw [tableFrom_next hlinks.below (rank_le_of_tableFrom hlinks.found),
    tableFrom_store_above hsep hlinks.found_fill le_rfl, hlinks.found_fill, Option.bind_some,
    down_eq_some_iff, store_self]
  exact ⟨hlinks.isTable, hlinks.address⟩

end Linked

theorem wp_allocTable {Q : ℕ → KernelMap → Prop} {E : MmuError → KernelMap → Prop}
    (hfull : s.limit < s.next + tableSize → E .outOfTables s)
    (hok : s.next + tableSize ≤ s.limit →
      Q s.next { s with next := s.next + tableSize,
                        tables := fillTable s.tables s.next fun _ => 0 }) :
    wp allocTable s Q E := by
  unfold allocTable
  rw [wp_bind, wp_get]
  split
  · rename_i h
    exact hfull h
  · rename_i h
    exact hok (Nat.le_of_not_lt h)

theorem leafAt_zero (level : Level) (v : ℕ) : leafAt 0 level v = none :=
  leafAt_of_invalid (by decide)

/-- One turn of the descent keeps the translation and finds the table below. -/
theorem descend_spec (h : Inv s) (ht : tableFrom s.tables .L1 s.root level va = some t)
    (hnext : level.next = some next) (hva : va < vaLimit) :
    wp (descend level va t) s
      (fun t' s' => Keeps s s' ∧ tableFrom s'.tables .L1 s'.root next va = some t')
      (fun _ s' => Keeps s s') := by
  unfold descend
  rw [wp_bind, wp_get]
  dsimp only
  split
  · rename_i hzero
    rw [wp_bind]
    refine wp_allocTable (fun _ => .refl h) fun hroom => ?_
    have hpos : 0 < tableSize := by decide
    have hlimit := h.limit
    obtain ⟨desc, hdesc⟩ := tableDescriptor_isSome h.aligned (by omega : s.next < 2 ^ 48)
    rw [hdesc]
    have hlinks := h.links (fun _ => 0) ht hnext hdesc fun _ => isTable_zero next
    have hold : isTable (s.tables t (level.index va)) level = false := by
      rw [hzero, isTable_zero]
    refine ⟨Keeps.linked h hva hlinks hroom (fun _ => .inl rfl) hold fun v _ => ?_,
      tableFrom_linked hlinks⟩
    rw [hzero, leafAt_zero, leafAt_zero]
  · split
    · rename_i htab
      refine ⟨.refl h, ?_⟩
      rw [tableFrom_next hnext (rank_le_of_tableFrom ht), ht, Option.bind_some, down_eq_some_iff,
        isTable_of_low hnext]
      exact ⟨decide_eq_true htab, rfl⟩
    · exact .refl h

def levelsFrom : Level → List Level
  | .L1 => [.L1, .L2, .L3]
  | .L2 => [.L2, .L3]
  | .L3 => [.L3]

theorem levelsFrom_next (hnext : level.next = some next) :
    levelsFrom level = level :: levelsFrom next := by
  cases level <;> cases hnext <;> rfl

/-- A property of loops over the levels, proved from the last level up. -/
theorem levels_loop {P : Level → Prop} (h3 : P .L3)
    (hstep : ∀ level next, level.next = some next → P next → P level) (level : Level) :
    P level := by
  have h2 : P .L2 := hstep .L2 .L3 rfl h3
  cases level with
  | L3 => exact h3
  | L2 => exact h2
  | L1 => exact hstep .L1 .L2 rfl h2

theorem descendTo_spec (hva : chunk.va < vaLimit) (level : Level) :
    ∀ (s : KernelMap) (t : ℕ), Inv s → rank level ≤ rank chunk.level →
      tableFrom s.tables .L1 s.root level chunk.va = some t →
      wp (descendTo chunk (levelsFrom level) t) s
        (fun t' s' => Keeps s s' ∧
          tableFrom s'.tables .L1 s'.root chunk.level chunk.va = some t')
        (fun _ s' => Keeps s s') := by
  refine levels_loop (P := fun level => ∀ (s : KernelMap) (t : ℕ), Inv s →
    rank level ≤ rank chunk.level → tableFrom s.tables .L1 s.root level chunk.va = some t →
    wp (descendTo chunk (levelsFrom level) t) s
      (fun t' s' => Keeps s s' ∧ tableFrom s'.tables .L1 s'.root chunk.level chunk.va = some t')
      (fun _ s' => Keeps s s')) ?_ ?_ level
  · intro s t h hle ht
    have hlevel : Level.L3 = chunk.level :=
      rank_inj (Nat.le_antisymm hle (rank_bounds chunk.level).2)
    change wp (descendTo chunk (.L3 :: []) t) s _ _
    rw [descendTo, if_pos hlevel]
    exact ⟨.refl h, hlevel ▸ ht⟩
  intro level next hnext ih s t h hle ht
  rw [levelsFrom_next hnext, descendTo]
  split
  · rename_i hlevel
    exact ⟨.refl h, hlevel ▸ ht⟩
  rename_i hlevel
  refine (descend_spec h ht hnext hva).bind fun t' s' hs' => ?_
  have hle' : rank next ≤ rank chunk.level := by
    rw [rank_next hnext]
    exact Nat.lt_of_le_of_ne hle fun heq => hlevel (rank_inj heq)
  refine (ih s' t' hs'.1.inv hle' hs'.2).mono (fun t'' s'' h'' => ?_) fun e s'' h'' => ?_
  · exact ⟨hs'.1.trans h''.1, h''.2⟩
  · exact hs'.1.trans h''

theorem block_le_limit (halign : va % level.entrySize = 0) (hva : va < vaLimit) :
    va + level.entrySize ≤ vaLimit := by
  have hdvd : level.entrySize ∣ vaLimit := by cases level <;> decide
  obtain ⟨q, rfl⟩ := Nat.dvd_of_mod_eq_zero halign
  obtain ⟨n, hn⟩ := hdvd
  rw [hn] at hva ⊢
  rw [← Nat.mul_succ]
  exact Nat.mul_le_mul_left _ (Nat.lt_of_mul_lt_mul_left hva)

theorem div_eq_iff_of_aligned {size : ℕ} (hpos : 0 < size) (halign : va % size = 0) :
    v / size = va / size ↔ va ≤ v ∧ v < va + size := by
  obtain ⟨q, rfl⟩ := Nat.dvd_of_mod_eq_zero halign
  rw [Nat.mul_div_cancel_left _ hpos, Nat.div_eq_iff hpos]
  rw [Nat.mul_comm q size]
  omega

def mapped (va pa : ℕ) (kind : MemKind) (perms : Perms) (v : ℕ) : Option Translation :=
  some (pa + (v - va), kind, perms)

theorem mapChunk_spec (h : Inv s) (halign : chunk.va % chunk.size = 0) :
    wp (mapChunk chunk kind perms) s
      (fun _ s' => Evolves s s' ∧ (∀ v, chunk.va ≤ v → v < chunk.va + chunk.size →
          s.translate v = none) ∧
        ∀ v, s'.translate v = if chunk.va ≤ v ∧ v < chunk.va + chunk.size then
          mapped chunk.va chunk.pa kind perms v else s.translate v)
      (fun _ s' => Keeps s s') := by
  unfold mapChunk
  split
  · exact .refl h
  rename_i hva
  have hva' : chunk.va < vaLimit := Nat.lt_of_not_le hva
  rw [wp_bind, wp_get]
  refine (descendTo_spec hva' .L1 s s.root h ?_ rfl).bind fun t s' hs' => ?_
  · exact (rank_bounds chunk.level).1
  obtain ⟨hkeeps, ht⟩ := hs'
  rw [wp_bind, wp_get]
  split
  · exact hkeeps
  rename_i hzero
  have hzero : s'.tables t (chunk.level.index chunk.va) = 0 := not_not.1 hzero
  rcases hleaf : leaf chunk.level chunk.pa kind perms with _ | desc
  · exact hkeeps
  have hrange : ∀ v, v < vaLimit ∧ v / chunk.level.entrySize = chunk.va / chunk.level.entrySize ↔
      chunk.va ≤ v ∧ v < chunk.va + chunk.size := by
    intro v
    have hend := block_le_limit halign hva'
    rw [div_eq_iff_of_aligned chunk.level.entrySize_pos halign]
    change _ ↔ chunk.va ≤ v ∧ v < chunk.va + chunk.level.entrySize
    omega
  refine ⟨hkeeps.toEvolves.trans ⟨hkeeps.inv.store ht (isTable_leaf hleaf)
    (.inr (.inr ⟨_, _, _, hleaf⟩)), rfl, rfl⟩, fun v hv hv' => ?_, fun v => ?_⟩
  · obtain ⟨hlim, hdiv⟩ := (hrange v).2 ⟨hv, hv'⟩
    rw [← hkeeps.same, translate_of_leaf ht (by rw [hzero, isTable_zero]) hva' hlim hdiv, hzero,
      leafAt_zero]
  change KernelMap.translate { s' with tables := _ } v = _
  rw [translate_store hkeeps.inv ht (isTable_leaf hleaf) hva', hkeeps.same]
  simp only [hrange v]
  split
  · rename_i hv
    have hmod : v % chunk.level.entrySize = v - chunk.va := by
      obtain ⟨q, hq⟩ := Nat.dvd_of_mod_eq_zero halign
      have hlt : v - chunk.va < chunk.level.entrySize := by
        have := hv.2
        change v < chunk.va + chunk.level.entrySize at this
        omega
      have hsum : v = chunk.level.entrySize * q + (v - chunk.va) := by
        change chunk.va = chunk.level.entrySize * q at hq
        omega
      rw [hsum, Nat.mul_add_mod, Nat.mod_eq_of_lt (by omega)]
      omega
    rw [leafAt, decodeLeaf_leaf hleaf, Option.map_some, hmod]
    rfl
  · rfl

theorem mapChunks_spec (cs : List Chunk) :
    ∀ (va pa len : ℕ) (s : KernelMap), Inv s → Covers va pa len cs →
      wp (mapChunks kind perms cs) s
        (fun _ s' => Evolves s s' ∧ (∀ v, va ≤ v → v < va + len → s.translate v = none) ∧
          ∀ v, s'.translate v = if va ≤ v ∧ v < va + len then mapped va pa kind perms v
            else s.translate v)
        (fun _ s' => Evolves s s') := by
  induction cs with
  | nil =>
    intro va pa len s h hcover
    change len = 0 at hcover
    subst hcover
    exact ⟨.refl h, fun v hv hv' => by omega, fun v => by rw [if_neg (by omega)]⟩
  | cons chunk rest ih =>
    intro va pa len s h hcover
    obtain ⟨rfl, rfl, halign, -, hsize, hrest⟩ := hcover
    rw [mapChunks, wp_bind]
    refine (mapChunk_spec h halign).mono (fun _ s₁ hs₁ => ?_) fun _ s' hs' => hs'.toEvolves
    obtain ⟨hev, hfree, hmapped⟩ := hs₁
    refine (ih _ _ _ s₁ hev.inv hrest).mono (fun _ s₂ hs₂ => ?_) fun _ s' hs' => hev.trans hs'
    obtain ⟨hev₂, hfree₂, hmapped₂⟩ := hs₂
    refine ⟨hev.trans hev₂, fun v hv hv' => ?_, fun v => ?_⟩
    · by_cases hlow : v < chunk.va + chunk.size
      · exact hfree v hv hlow
      · have hnone := hfree₂ v (by omega) (by omega)
        rwa [hmapped v, if_neg (by omega)] at hnone
    rw [hmapped₂ v, hmapped v]
    by_cases hlow : chunk.va ≤ v ∧ v < chunk.va + chunk.size
    · rw [if_neg (by omega), if_pos hlow, if_pos (by omega)]
    by_cases hin : chunk.va + chunk.size ≤ v ∧
        v < chunk.va + chunk.size + (len - chunk.size)
    · rw [if_pos hin, if_pos (by omega), mapped, mapped,
        show chunk.pa + chunk.size + (v - (chunk.va + chunk.size)) = chunk.pa + (v - chunk.va)
          by omega]
    · rw [if_neg hin, if_neg hlow, if_neg (by omega)]

theorem map_spec (h : Inv s) (region : Region) :
    wp (map region) s
      (fun _ s' => Evolves s s' ∧
        (∀ v, region.base ≤ v → v < region.base + region.len → s.translate v = none) ∧
        ∀ v, s'.translate v = if region.base ≤ v ∧ v < region.base + region.len then
          some (v, region.kind, region.perms) else s.translate v)
      (fun _ s' => Evolves s s') := by
  unfold map
  rw [wp_bind, wp_get]
  split
  · exact .refl h
  unfold mapRegion
  rcases hchunks : chunks region.base region.base region.len with _ | c
  · exact .refl h
  refine (mapChunks_spec c.toList _ _ _ s h (chunks_covers hchunks)).mono (fun _ s' hs' => ?_)
    fun _ _ hs' => hs'
  obtain ⟨hev, hfree, hmapped⟩ := hs'
  refine ⟨hev, hfree, fun v => ?_⟩
  rw [hmapped v]
  by_cases hv : region.base ≤ v ∧ v < region.base + region.len
  · rw [if_pos hv, if_pos hv, mapped, Nat.add_sub_cancel' hv.1]
  · rw [if_neg hv, if_neg hv]

end HarborKernel.KernelMap
