import HarborKernel.KernelMapSteps

/-!
What `unmap` does. Clearing a page splits the blocks above it, one table for each
level, and a split keeps every translation. A page is cleared or the arena was too
small for its splits, and then nothing has changed.
-/

namespace HarborKernel.KernelMap

open Function ErrorState Paging PageWalk

variable {s : KernelMap} {level next : Level} {va t : ℕ}

def leafLevel (s : KernelMap) (va : ℕ) : Option Level :=
  let last := lastFrom s.tables .L1 s.root va
  if isLeaf last.2 last.1 then some last.1 else none

theorem leafLevel_of_leaf (ht : tableFrom s.tables .L1 s.root level va = some t)
    (hleaf : isTable (s.tables t (level.index va)) level = false) {v : ℕ}
    (hslot : SameSlot .L1 level va v) :
    s.leafLevel v = if isLeaf (s.tables t (level.index va)) level then some level else none := by
  rw [KernelMap.leafLevel, lastFrom_of_leaf ht hslot hleaf]

/-- A descriptor that reads as a leaf was made by `leaf`. -/
theorem Inv.leaf (h : Inv s) (ht : tableFrom s.tables .L1 s.root level va = some t)
    (hleaf : isLeaf (s.tables t (level.index va)) level = true) :
    ∃ pa kind perms, leaf level pa kind perms = some (s.tables t (level.index va)) := by
  rcases h.entries level va t ht with hzero | htab | hmade
  · rw [hzero] at hleaf
    have hfalse : isLeaf 0 level = false := by cases level <;> decide
    rw [hfalse] at hleaf
    cases hleaf
  · rw [isTable_of_isLeaf hleaf] at htab
    cases htab
  · exact hmade

def splitEntry (next : Level) (paBase : ℕ) (kind : MemKind) (perms : Perms) (i : ℕ) : UInt64 :=
  if i < entriesPerTable then (leaf next (paBase + i * next.entrySize) kind perms).getD 0 else 0

variable {pa : ℕ} {kind : MemKind} {perms : Perms} {entry : UInt64}

section

variable (h : leaf level pa kind perms = some entry) (hnext : level.next = some next)
include h hnext

theorem leaf_split
    {i : ℕ} (hi : i < entriesPerTable) :
    leaf next (pa + i * next.entrySize) kind perms = some (splitEntry next pa kind perms i) := by
  obtain ⟨halign, hlt, -⟩ := leaf_eq_some_iff.1 h
  have hsize := Level.entrySize_next hnext
  have hdvd : level.entrySize ∣ 2 ^ 48 := by cases level <;> decide
  have hpa : next.entrySize ∣ pa :=
    (Dvd.intro_left _ hsize.symm).trans (Nat.dvd_of_mod_eq_zero halign)
  have hbound : pa + i * next.entrySize < 2 ^ 48 := by
    obtain ⟨q, rfl⟩ := Nat.dvd_of_mod_eq_zero halign
    obtain ⟨n, hn⟩ := hdvd
    rw [hn] at hlt ⊢
    have hq : q + 1 ≤ n := Nat.lt_of_mul_lt_mul_left hlt
    calc level.entrySize * q + i * next.entrySize
        < level.entrySize * q + entriesPerTable * next.entrySize := by
          have := Nat.mul_lt_mul_of_pos_right hi next.entrySize_pos
          omega
      _ = level.entrySize * (q + 1) := by rw [Nat.mul_succ, ← hsize]
      _ ≤ level.entrySize * n := Nat.mul_le_mul_left _ hq
  have hleaf : leaf next (pa + i * next.entrySize) kind perms = some
      ((UInt64.ofNat (pa + i * next.entrySize) &&& addrMask) ||| leafBits next kind perms) :=
    leaf_eq_some_iff.2
      ⟨Nat.mod_eq_zero_of_dvd (Nat.dvd_add hpa (Nat.dvd_mul_left _ _)), hbound, rfl⟩
  rw [splitEntry, if_pos hi, hleaf]
  rfl

theorem splitEntry_ok
    (i : ℕ) :
    isTable (splitEntry next pa kind perms i) next = false ∧
      EntryOk next (splitEntry next pa kind perms i) := by
  by_cases hi : i < entriesPerTable
  · have hleaf := leaf_split h hnext hi
    exact ⟨isTable_leaf hleaf, .inr (.inr ⟨_, _, _, hleaf⟩)⟩
  have hzero : splitEntry next pa kind perms i = 0 := if_neg hi
  rw [hzero]
  exact ⟨isTable_zero next, .inl rfl⟩

theorem leafAt_splitEntry (v : ℕ) :
    leafAt (splitEntry next pa kind perms (next.index v)) next v = leafAt entry level v := by
  have hmod : v % level.entrySize = next.index v * next.entrySize + v % next.entrySize := by
    rw [Level.entrySize_next hnext, Nat.mul_comm entriesPerTable, Nat.mod_mul, Level.index]
    ring
  rw [leafAt, leafAt, decodeLeaf_leaf h, decodeLeaf_leaf (leaf_split h hnext (next.index_lt v)),
    Option.map_some, Option.map_some, hmod, Nat.add_assoc]

end

theorem store_fillTable (e : Tables) (child i : ℕ) (entries : ℕ → UInt64) (w : UInt64) :
    store (fillTable e child entries) child i w =
      fillTable e child (update entries i w) := by
  funext t j
  by_cases ht : t = child
  · subst ht
    by_cases hj : j = i
    · subst hj
      rw [store_self, fillTable_self, update_self]
    · rw [store_of_ne fun h => hj h.2, fillTable_self, fillTable_self, update_of_ne hj]
  · rw [store_of_ne fun h => ht h.1, fillTable_of_ne ht, fillTable_of_ne ht]

theorem fillLeaves_spec (e : Tables) (child va : ℕ)
    (hleaf : ∀ i, i < entriesPerTable → leaf next (pa + i * next.entrySize) kind perms = some
      (splitEntry next pa kind perms i)) (n : ℕ) :
    ∀ (i : ℕ) (s : KernelMap), i + n = entriesPerTable →
      s.tables = fillTable e child (fun j => if j < i then splitEntry next pa kind perms j else 0) →
      fillLeaves child next pa kind perms va n i s =
        .ok () { s with tables := fillTable e child (splitEntry next pa kind perms) } := by
  induction n with
  | zero =>
    intro i s hi hs
    have hentries : (fun j => if j < i then splitEntry next pa kind perms j else 0) =
        splitEntry next pa kind perms := by
      funext j
      rw [Nat.add_zero] at hi
      by_cases hj : j < i
      · rw [if_pos hj]
      · rw [if_neg hj, splitEntry, if_neg (hi ▸ hj)]
    rw [hentries] at hs
    rw [← hs]
    rfl
  | succ n ih =>
    intro i s hi hs
    rw [fillLeaves]
    simp only [hleaf i (by omega)]
    rw [bind_ok (show writeEntry child i _ s = .ok () _ from rfl)]
    rw [ih (i + 1) _ (by omega)]
    change store s.tables child i _ = _
    rw [hs, store_fillTable]
    congr 1
    funext j
    by_cases hj : j = i
    · subst hj
      rw [update_self, if_pos (Nat.lt_succ_self _)]
    rw [update_of_ne hj]
    by_cases hlt : j < i
    · rw [if_pos hlt, if_pos (Nat.lt_succ_of_lt hlt)]
    · rw [if_neg hlt, if_neg (by omega)]

theorem store_store (e : Tables) (t i : ℕ) (w w' : UInt64) :
    store (store e t i w) t i w' = store e t i w' := by
  funext t' i'
  by_cases h : t' = t ∧ i' = i
  · obtain ⟨rfl, rfl⟩ := h
    rw [store_self, store_self]
  · rw [store_of_ne h, store_of_ne h, store_of_ne h]

/-- A block is split, or the arena is full. -/
theorem splitBlock_spec (h : Inv s) (ht : tableFrom s.tables .L1 s.root level va = some t)
    (hnext : level.next = some next)
    (hleaf : isLeaf (s.tables t (level.index va)) level = true) (hva : va < vaLimit) :
    wp (splitBlock t (level.index va) level (s.tables t (level.index va)) va) s
      (fun child s' => Keeps s s' ∧ s'.next = s.next + tableSize ∧
        tableFrom s'.tables .L1 s'.root next va = some child ∧
        (∀ v, v < vaLimit → s'.leafLevel v =
          if v / level.entrySize = va / level.entrySize then some next else s.leafLevel v))
      (fun _ s' => s' = s ∧ s.limit < s.next + tableSize) := by
  obtain ⟨pa, kind, perms, hmade⟩ := h.leaf ht hleaf
  unfold splitBlock
  simp only [decodeLeaf_leaf hmade, hnext]
  rw [wp_bind]
  refine wp_allocTable (fun hfull => ⟨rfl, hfull⟩) fun hroom => ?_
  have hpos : 0 < tableSize := by decide
  have hlimit := h.limit
  obtain ⟨desc, hdesc⟩ := tableDescriptor_isSome h.aligned (by omega : s.next < 2 ^ 48)
  have hlinks := h.links (splitEntry next pa kind perms) ht hnext hdesc fun i =>
    (splitEntry_ok hmade hnext i).1
  have hold := isTable_of_isLeaf hleaf
  have hfill := fillLeaves_spec s.tables s.next va
    (fun i hi => leaf_split hmade hnext hi) entriesPerTable 0
    { s with next := s.next + tableSize, tables := fillTable s.tables s.next fun _ => 0 }
    (Nat.zero_add _) rfl
  have hend : linked s level va t desc (splitEntry next pa kind perms) =
      { s with next := s.next + tableSize, tables := store (store (fillTable s.tables s.next
        (splitEntry next pa kind perms)) t (level.index va) 0) t (level.index va) desc } := by
    rw [linked, link, store_store]
  have hlevels : ∀ v, v < vaLimit →
      (linked s level va t desc (splitEntry next pa kind perms)).leafLevel v =
        if v / level.entrySize = va / level.entrySize then some next else s.leafLevel v := by
    intro v hv
    by_cases hslot : SameSlot .L1 level va v
    · have hchild := isLeaf_of_decodeLeaf
        (decodeLeaf_leaf (leaf_split hmade hnext (next.index_lt v)))
      rw [if_pos ((sameSlot_iff hva hv).1 hslot)]
      unfold KernelMap.leafLevel linked
      simp only [hlinks.lastFrom_self hslot, hchild, if_true]
    rw [if_neg fun hdiv => hslot ((sameSlot_iff hva hv).2 hdiv)]
    unfold KernelMap.leafLevel linked
    simp only [hlinks.lastFrom_of_ne hslot]
  have hkeeps := Keeps.linked h hva hlinks hroom (fun i => (splitEntry_ok hmade hnext i).2) hold
    fun v _ => leafAt_splitEntry hmade hnext v
  have htable := tableFrom_linked hlinks
  rw [hend] at hkeeps htable hlevels
  rw [wp, bind_ok hfill]
  simp only [hdesc]
  exact ⟨hkeeps, rfl, htable, hlevels⟩

def splitsOf (level : Level) : ℕ := 3 - rank level

theorem splitsOf_next (hnext : level.next = some next) : splitsOf level = splitsOf next + 1 := by
  cases level <;> cases hnext <;> rfl

structure Cleared (s : KernelMap) (va : ℕ) (leafLevel : Level) (s' : KernelMap) : Prop
    extends Evolves s s' where
  taken : s'.next = s.next + tableSize * splitsOf leafLevel
  cleared : ∀ v, s'.translate v = if v / pageSize = va / pageSize then none else s.translate v
  levels : ∀ v, v < vaLimit → s'.leafLevel v =
    if v / pageSize = va / pageSize then none
    else if leafLevel ≠ .L3 ∧ v / l2BlockSize = va / l2BlockSize then some .L3
    else if leafLevel = .L1 ∧ v / l1BlockSize = va / l1BlockSize then some .L2
    else s.leafLevel v

theorem translate_of_limit_le {v : ℕ} (hv : vaLimit ≤ v) : s.translate v = none := if_pos hv

theorem Cleared.page (h : Inv s) (ht : tableFrom s.tables .L1 s.root .L3 va = some t)
    (hva : va < vaLimit) :
    Cleared s va .L3 { s with tables := store s.tables t (Level.L3.index va) 0 } := by
  refine ⟨⟨h.store ht (isTable_zero _) (.inl rfl), rfl, rfl⟩, rfl, fun v => ?_, fun v hv => ?_⟩
  · rw [translate_store h ht (isTable_zero _) hva]
    change (if v < vaLimit ∧ v / pageSize = va / pageSize then _ else _) = _
    by_cases hv : v / pageSize = va / pageSize
    · rw [if_pos hv, leafAt_zero]
      by_cases hlim : v < vaLimit
      · rw [if_pos ⟨hlim, hv⟩]
      · rw [if_neg fun hh => hlim hh.1, translate_of_limit_le (Nat.le_of_not_lt hlim)]
    · rw [if_neg hv, if_neg fun hh => hv hh.2]
  by_cases hslot : SameSlot .L1 .L3 va v
  · have hpage : v / pageSize = va / pageSize := (sameSlot_iff hva hv).1 hslot
    rw [if_pos hpage]
    unfold KernelMap.leafLevel
    simp only [lastFrom_store_self h.separate ht hslot, resolve_of_not_table (isTable_zero _)]
    exact if_neg (by decide)
  have hpage : ¬v / pageSize = va / pageSize := fun hp => hslot ((sameSlot_iff hva hv).2 hp)
  rw [if_neg hpage]
  unfold KernelMap.leafLevel
  simp only [lastFrom_store_of_ne h.separate ht hslot]
  simp

theorem Cleared.after_split {s₁ s' : KernelMap} (hnext : level.next = some next)
    (hkeeps : Keeps s s₁) (htaken : s₁.next = s.next + tableSize)
    (hlevels : ∀ v, v < vaLimit → s₁.leafLevel v =
      if v / level.entrySize = va / level.entrySize then some next else s.leafLevel v)
    (h : Cleared s₁ va next s') : Cleared s va level s' := by
  refine ⟨hkeeps.toEvolves.trans h.toEvolves, ?_, fun v => ?_, fun v hv => ?_⟩
  · rw [h.taken, htaken, splitsOf_next hnext, Nat.mul_succ]
    omega
  · rw [h.cleared v, hkeeps.same v]
  · rw [h.levels v hv, hlevels v hv]
    cases level <;> cases hnext
    · change (if v / pageSize = va / pageSize then none else if _ then _ else if _ then _ else
        if v / l1BlockSize = va / l1BlockSize then _ else _) = _
      simp
    · change (if v / pageSize = va / pageSize then none else if _ then _ else if _ then _ else
        if v / l2BlockSize = va / l2BlockSize then _ else _) = _
      simp

theorem leafLevel_eq_some {lv : Level} (hlv : s.leafLevel va = some lv)
    (ht : tableFrom s.tables .L1 s.root level va = some t)
    (htab : isTable (s.tables t (level.index va)) level = false) :
    lv = level ∧ isLeaf (s.tables t (level.index va)) level = true := by
  rw [leafLevel_of_leaf ht htab ⟨SameTable.refl _ _ _, rfl⟩] at hlv
  split at hlv
  · rename_i hleaf
    cases hlv
    exact ⟨rfl, hleaf⟩
  · cases hlv

theorem tableFrom_step (hnext : level.next = some next)
    (ht : tableFrom s.tables .L1 s.root level va = some t)
    (htab : isTable (s.tables t (level.index va)) level = true) :
    tableFrom s.tables .L1 s.root next va =
      some (descriptorAddress (s.tables t (level.index va))) := by
  rw [tableFrom_next hnext (rank_le_of_tableFrom ht), ht, Option.bind_some, down_eq_some_iff]
  exact ⟨htab, rfl⟩

/-- The walk of `unmap_page` clears a mapped page, or the arena has too few tables left. -/
theorem unmapFrom_spec (hva : va < vaLimit) (level : Level) :
    ∀ (s : KernelMap) (t : ℕ) (lv : Level), Inv s → s.leafLevel va = some lv →
      tableFrom s.tables .L1 s.root level va = some t →
      wp (unmapFrom va (levelsFrom level) t) s (fun _ s' => Cleared s va lv s')
        (fun _ s' => Keeps s s' ∧ s.limit < s.next + tableSize * splitsOf lv) := by
  refine levels_loop (P := fun level => ∀ (s : KernelMap) (t : ℕ) (lv : Level), Inv s →
    s.leafLevel va = some lv → tableFrom s.tables .L1 s.root level va = some t →
    wp (unmapFrom va (levelsFrom level) t) s (fun _ s' => Cleared s va lv s')
      (fun _ s' => Keeps s s' ∧ s.limit < s.next + tableSize * splitsOf lv)) ?_ ?_ level
  · intro s t lv h hlv ht
    obtain ⟨rfl, hleaf⟩ := leafLevel_eq_some hlv ht rfl
    change wp (unmapFrom va (.L3 :: []) t) s _ _
    rw [unmapFrom, wp_bind, wp_get]
    simp only [isInvalid_of_isLeaf hleaf, hleaf, if_true, Bool.false_eq_true, if_false]
    exact Cleared.page h ht hva
  intro level next hnext ih s t lv h hlv ht
  rw [levelsFrom_next hnext, unmapFrom, wp_bind, wp_get]
  dsimp only
  cases htab : isTable (s.tables t (level.index va)) level
  · obtain ⟨rfl, hleaf⟩ := leafLevel_eq_some hlv ht htab
    have hne : lv ≠ .L3 := by
      rintro rfl
      cases hnext
    simp only [isInvalid_of_isLeaf hleaf, hleaf, if_true, Bool.false_eq_true, if_false, hne]
    rw [wp_bind]
    refine (splitBlock_spec h ht hnext hleaf hva).mono (fun child s₁ hs₁ => ?_)
      fun _ s' hs' => ?_
    · obtain ⟨hkeeps, htaken, htable, hlevels⟩ := hs₁
      have hlv₁ : s₁.leafLevel va = some next := by rw [hlevels va hva, if_pos rfl]
      refine (ih s₁ child next hkeeps.inv hlv₁ htable).mono (fun _ s' hs' => ?_) fun _ s' hs' => ?_
      · exact hs'.after_split hnext hkeeps htaken hlevels
      refine ⟨hkeeps.trans hs'.1, ?_⟩
      have hlt := hs'.2
      rw [hkeeps.limit, htaken] at hlt
      rw [splitsOf_next hnext, Nat.mul_succ]
      omega
    · obtain ⟨rfl, hfull⟩ := hs'
      refine ⟨.refl h, ?_⟩
      rw [splitsOf_next hnext, Nat.mul_succ]
      omega
  · have hleaf : isLeaf (s.tables t (level.index va)) level = false := by
      cases hl : isLeaf (s.tables t (level.index va)) level
      · rfl
      · rw [isTable_of_isLeaf hl] at htab
        cases htab
    simp only [isInvalid_of_isTable htab, hleaf, Bool.false_eq_true, if_false, if_true]
    exact ih s _ lv h hlv (tableFrom_step hnext ht htab)

theorem leafLevel_eq_none (ht : tableFrom s.tables .L1 s.root level va = some t)
    (htab : isTable (s.tables t (level.index va)) level = false)
    (hleaf : isLeaf (s.tables t (level.index va)) level = false) : s.leafLevel va = none := by
  rw [leafLevel_of_leaf ht htab ⟨SameTable.refl _ _ _, rfl⟩, hleaf]
  rfl

theorem leafLevel_of_invalid (ht : tableFrom s.tables .L1 s.root level va = some t)
    (hinv : isInvalid (s.tables t (level.index va)) = true) : s.leafLevel va = none := by
  refine leafLevel_eq_none ht (Bool.eq_false_iff.2 fun htab => ?_)
    (Bool.eq_false_iff.2 fun hleaf => ?_)
  · rw [isInvalid_of_isTable htab] at hinv
    cases hinv
  · rw [isInvalid_of_isLeaf hleaf] at hinv
    cases hinv

/-- `ensure_mapped` looks and changes nothing. -/
theorem ensureFrom_spec (level : Level) :
    ∀ t, tableFrom s.tables .L1 s.root level va = some t →
      wp (ensureFrom va (levelsFrom level) t) s
        (fun _ s' => s' = s ∧ ∃ lv, s.leafLevel va = some lv)
        (fun _ s' => s' = s ∧ s.leafLevel va = none) := by
  refine levels_loop (P := fun level => ∀ t, tableFrom s.tables .L1 s.root level va = some t →
    wp (ensureFrom va (levelsFrom level) t) s
      (fun _ s' => s' = s ∧ ∃ lv, s.leafLevel va = some lv)
      (fun _ s' => s' = s ∧ s.leafLevel va = none)) ?_ ?_ level
  · intro t ht
    change wp (ensureFrom va (.L3 :: []) t) s _ _
    rw [ensureFrom, wp_bind, wp_get]
    dsimp only
    split
    · rename_i hinv
      exact ⟨rfl, leafLevel_of_invalid ht hinv⟩
    split
    · rename_i hleaf
      refine ⟨rfl, .L3, ?_⟩
      rw [leafLevel_of_leaf ht rfl ⟨SameTable.refl _ _ _, rfl⟩, if_pos hleaf]
    rename_i hleaf
    have hnone := leafLevel_eq_none ht rfl (Bool.eq_false_iff.2 hleaf)
    split
    · exact ⟨rfl, hnone⟩
    · exact ⟨rfl, hnone⟩
  · intro level next hnext ih t ht
    rw [levelsFrom_next hnext, ensureFrom, wp_bind, wp_get]
    dsimp only
    split
    · rename_i hinv
      exact ⟨rfl, leafLevel_of_invalid ht hinv⟩
    split
    · rename_i hleaf
      refine ⟨rfl, level, ?_⟩
      rw [leafLevel_of_leaf ht (isTable_of_isLeaf hleaf) ⟨SameTable.refl _ _ _, rfl⟩,
        if_pos hleaf]
    rename_i hleaf
    split
    · rename_i htab
      exact ih _ (tableFrom_step hnext ht htab)
    · rename_i htab
      exact ⟨rfl, leafLevel_eq_none ht (Bool.eq_false_iff.2 htab) (Bool.eq_false_iff.2 hleaf)⟩

end HarborKernel.KernelMap
