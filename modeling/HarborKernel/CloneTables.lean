import HarborKernel.FrameMemory

/-!
`clone_table_into`. The clone of a table has its leaves and, for every table below
it, the clone of that table in a new frame. So a walk of the clone ends in the
descriptor the walk of the original ends in, and no frame is used twice.
-/

namespace HarborKernel.AddressSpaces

open ByteWords ErrorState Paging PageWalk

def Proper (level : Level) (entry : UInt64) : Prop :=
  isInvalid entry = true ∨ isLeaf entry level = true ∨ isTable entry level = true

def scrub (last : Level × UInt64) : Level × UInt64 :=
  (last.1, if isInvalid last.2 then 0 else last.2)

def Outside (w : World) (t : ℕ) : Prop :=
  t % frameSize = 0 ∧ ∀ f, f < w.frames.capacity → t ≠ w.phys f

def Agrees (e : Tables) (s : Sys) (level : Level) (src : ℕ) : Prop :=
  ∀ l va t, tableFrom e level src l va = some t →
    Outside s.world t ∧ ∀ i, s.tables t i = e t i

def countFrom (below : ℕ → ℕ) (e : Tables) (level : Level) (src : ℕ) : ℕ → ℕ → ℕ
  | 0, _ => 0
  | n + 1, i =>
    (if isTable (e src i) level then 1 + below (descriptorAddress (e src i)) else 0) +
      countFrom below e level src n (i + 1)

def countL3 (e : Tables) (src : ℕ) : ℕ := countFrom (fun _ => 0) e .L3 src entriesPerTable 0

def countL2 (e : Tables) (src : ℕ) : ℕ := countFrom (countL3 e) e .L2 src entriesPerTable 0

def countL1 (e : Tables) (src : ℕ) : ℕ := countFrom (countL2 e) e .L1 src entriesPerTable 0

structure Cloned (e : Tables) (level : Level) (src dst : ℕ) (s s' : Sys) (n : ℕ) : Prop where
  last : ∀ va, level.index va < n →
    lastFrom s'.tables level dst va = scrub (lastFrom e level src va)
  pages : ∀ va l t, level.index va < n → tableFrom s'.tables level dst l va = some t →
    l = level ∧ t = dst ∨ NewPage s s' t
  separate : ∀ va va' l l' t, level.index va < n → level.index va' < n →
    tableFrom s'.tables level dst l va = some t → tableFrom s'.tables level dst l' va' = some t →
    l = l' ∧ SameTable level l va va'
  entries : ∀ va l t, level.index va < n → tableFrom s'.tables level dst l va = some t →
    Proper l (s'.tables t (l.index va))

section Walk

variable {e : Tables} {level next : Level} {table va : ℕ}

theorem tableFrom_cases {l : Level} {t : ℕ} (h : tableFrom e level table l va = some t) :
    l = level ∧ t = table ∨ ∃ next, level.next = some next ∧
      isTable (e table (level.index va)) level = true ∧
      tableFrom e next (descriptorAddress (e table (level.index va))) l va = some t := by
  by_cases hl : l = level
  · subst hl
    rw [tableFrom_top] at h
    exact .inl ⟨rfl, (Option.some.inj h).symm⟩
  have hlt : rank level < rank l :=
    Nat.lt_of_le_of_ne (rank_le_of_tableFrom h) fun heq => hl (rank_inj heq).symm
  obtain ⟨next, mid, hnext, hmid, htab, hrest⟩ := tableFrom_below h le_rfl hlt
  rw [tableFrom_top] at hmid
  cases hmid
  exact .inr ⟨next, hnext, htab, hrest⟩

section

variable (hnext : level.next = some next) (htab : isTable (e table (level.index va)) level = true)
include hnext htab

theorem tableFrom_cons {l : Level} {t : ℕ}
    (h : tableFrom e next (descriptorAddress (e table (level.index va))) l va = some t) :
    tableFrom e level table l va = some t := by
  have hdown : down e level va table = some (descriptorAddress (e table (level.index va))) :=
    down_eq_some_iff.2 ⟨htab, rfl⟩
  cases level with
  | L3 => cases hnext
  | L2 =>
    cases hnext
    cases l with
    | L3 => exact hdown.trans h
    | _ => cases h
  | L1 =>
    cases hnext
    cases l with
    | L1 => cases h
    | L2 => exact hdown.trans h
    | L3 =>
      change (down e .L1 va table).bind (down e .L2 va) = some t
      rw [hdown]
      exact h

theorem lastFrom_table :
    lastFrom e level table va =
      lastFrom e next (descriptorAddress (e table (level.index va))) va :=
  resolve_table hnext htab

end

theorem lastFrom_entry (htab : isTable (e table (level.index va)) level = false) :
    lastFrom e level table va = (level, e table (level.index va)) := resolve_of_not_table htab

end Walk

variable {e : Tables} {level next : Level} {src dst : ℕ} {s s₁ s₂ : Sys} {i : ℕ}

theorem Cloned.zero : Cloned e level src dst s s₁ 0 :=
  ⟨fun _ h => absurd h (Nat.not_lt_zero _), fun _ _ _ h => absurd h (Nat.not_lt_zero _),
    fun _ _ _ _ _ h => absurd h (Nat.not_lt_zero _), fun _ _ _ h => absurd h (Nat.not_lt_zero _)⟩

structure Entry (e : Tables) (level : Level) (src dst : ℕ) (s₁ s₂ : Sys) (i : ℕ) : Prop where
  last : ∀ va, level.index va = i →
    lastFrom s₂.tables level dst va = scrub (lastFrom e level src va)
  pages : ∀ va l t, level.index va = i → tableFrom s₂.tables level dst l va = some t →
    l = level ∧ t = dst ∨ NewPage s₁ s₂ t
  separate : ∀ va va' l l' t, level.index va = i → level.index va' = i →
    tableFrom s₂.tables level dst l va = some t → tableFrom s₂.tables level dst l' va' = some t →
    l = l' ∧ SameTable level l va va'
  entries : ∀ va l t, level.index va = i → tableFrom s₂.tables level dst l va = some t →
    Proper l (s₂.tables t (l.index va))
  others : ∀ j, j ≠ i → s₂.tables dst j = s₁.tables dst j
  kept : ∀ f ∈ s₁.owned, s₁.phys f ≠ dst → ∀ j, s₂.tables (s₁.phys f) j = s₁.tables (s₁.phys f) j

variable {D : ℕ → Prop} {f t : ℕ} {w : UInt64} {count : ℕ → ℕ}

theorem Cloned.succ (h : Cloned e level src dst s s₁ i) (hold : Within D s s₁)
    (hnew : Within (fun t => D t ∨ NewPage s s₁ t) s₁ s₂) (hf : f ∈ s.owned) (hdst : dst = s.phys f)
    (hentry : Entry e level src dst s₁ s₂ i) : Cloned e level src dst s s₂ (i + 1) := by
  have hne : ∀ t, NewPage s s₁ t → t ≠ dst := by
    rintro t ⟨g, -, hg, rfl⟩ heq
    rw [hdst] at heq
    exact hg (phys_inj heq ▸ hf)
  -- The walks through the earlier entries do not change.
  have hsame : ∀ va, level.index va < i → ∀ l t, tableFrom s₁.tables level dst l va = some t →
      s₂.tables t (l.index va) = s₁.tables t (l.index va) := by
    intro va hva l t ht
    rcases h.pages va l t hva ht with ⟨rfl, rfl⟩ | ht
    · exact hentry.others _ (Nat.ne_of_lt hva)
    obtain ⟨g, hg, hgnew, rfl⟩ := ht
    have hphys : s₁.phys g = s.phys g := hold.same.phys g
    rw [← hphys]
    refine hentry.kept g hg ?_ _
    rw [hphys]
    exact hne _ ⟨g, hg, hgnew, rfl⟩
  have htable : ∀ va, level.index va < i → ∀ l, tableFrom s₂.tables level dst l va =
      tableFrom s₁.tables level dst l va := fun va hva l => tableFrom_congr (hsame va hva) l
  have hpages : ∀ va l t, level.index va < i → tableFrom s₂.tables level dst l va = some t →
      l = level ∧ t = dst ∨ NewPage s s₁ t := fun va l t hva ht =>
    h.pages va l t hva (by rwa [htable va hva] at ht)
  -- A page of an earlier entry is not one of the new entry.
  have hapart : ∀ {t}, NewPage s s₁ t → NewPage s₁ s₂ t → False := by
    rintro t ⟨g, hg, -, rfl⟩ ⟨g', -, hg', heq⟩
    rw [hold.same.phys g'] at heq
    exact hg' (phys_inj heq ▸ hg)
  have hsplit : ∀ va, level.index va < i + 1 → level.index va < i ∨ level.index va = i :=
    fun va hva => by omega
  refine ⟨fun va hva => ?_, fun va l t hva ht => ?_, fun va va' l l' t hva hva' ht ht' => ?_,
    fun va l t hva ht => ?_⟩
  · rcases hsplit va hva with hlt | heq
    · rw [lastFrom_congr (hsame va hlt), h.last va hlt]
    · exact hentry.last va heq
  · rcases hsplit va hva with hlt | heq
    · exact (hpages va l t hlt ht).imp_right hnew.newPage_left
    · exact (hentry.pages va l t heq ht).imp_right hold.newPage_right
  · have htop : ∀ {va va' : ℕ}, SameTable level level va va' := fun k hk hlt =>
      absurd hlt (Nat.not_lt.2 hk)
    rcases hsplit va hva with hlt | heq <;> rcases hsplit va' hva' with hlt' | heq'
    · rw [htable va hlt] at ht
      rw [htable va' hlt'] at ht'
      exact h.separate va va' l l' t hlt hlt' ht ht'
    · rcases hpages va l t hlt ht with ⟨rfl, rfl⟩ | hp
      · rcases hentry.pages va' l' t heq' ht' with ⟨rfl, -⟩ | hp'
        · exact ⟨rfl, htop⟩
        obtain ⟨g, -, hg, hdst'⟩ := hp'
        rw [hdst, hold.same.phys g] at hdst'
        exact absurd (hold.owned.subset hf) (phys_inj hdst' ▸ hg)
      rcases hentry.pages va' l' t heq' ht' with ⟨-, rfl⟩ | hp'
      · exact absurd rfl (hne _ hp)
      · exact (hapart hp hp').elim
    · rcases hpages va' l' t hlt' ht' with ⟨rfl, rfl⟩ | hp
      · rcases hentry.pages va l t heq ht with ⟨rfl, -⟩ | hp'
        · exact ⟨rfl, htop⟩
        obtain ⟨g, -, hg, hdst'⟩ := hp'
        rw [hdst, hold.same.phys g] at hdst'
        exact absurd (hold.owned.subset hf) (phys_inj hdst' ▸ hg)
      rcases hentry.pages va l t heq ht with ⟨-, rfl⟩ | hp'
      · exact absurd rfl (hne _ hp)
      · exact (hapart hp hp').elim
    · exact hentry.separate va va' l l' t heq heq' ht ht'
  · rcases hsplit va hva with hlt | heq
    · have ht₁ := ht
      rw [htable va hlt] at ht₁
      rw [hsame va hlt l t ht₁]
      exact h.entries va l t hlt ht₁
    · exact hentry.entries va l t heq ht

theorem Outside.within (hw : Within D s s₁) (h : Outside s.world t) : Outside s₁.world t := by
  refine ⟨h.1, fun f hf => ?_⟩
  rw [hw.same.capacity] at hf
  have := hw.same.phys f
  unfold Sys.phys at this
  rw [this]
  exact h.2 f hf

/-- Stores into frames of the pool do not change the tables outside. -/
theorem Outside.tables (hw : Within D s s₁)
    (hD : ∀ t, D t → ∃ f < s.world.frames.capacity, t = s.phys f) (h : Outside s.world t) (i : ℕ) :
    s₁.tables t i = s.tables t i := by
  refine hw.tables ?_ i
  rintro (ht | ⟨f, hf, -, rfl⟩)
  · obtain ⟨f, hf, rfl⟩ := hD t ht
    exact h.2 f hf rfl
  have hlt := hw.ok.ledger.lt f hf
  rw [hw.same.capacity] at hlt
  exact h.2 f hlt rfl

theorem Agrees.within (h : Agrees e s level src) (hw : Within D s s₁)
    (hD : ∀ t, D t → ∃ f < s.world.frames.capacity, t = s.phys f) : Agrees e s₁ level src := by
  intro l va t ht
  obtain ⟨hout, htab⟩ := h l va t ht
  exact ⟨hout.within hw, fun i => (hout.tables hw hD i).trans (htab i)⟩

theorem exists_index (level : Level) (i va : ℕ) (hi : i < entriesPerTable) :
    ∃ va', level.index va' = i ∧ ∀ k, rank level < rank k → k.index va' = k.index va := by
  unfold entriesPerTable at hi
  refine ⟨va % level.entrySize + i * level.entrySize, ?_, fun k hk => ?_⟩
  · cases level
    · change (va % 2 ^ 30 + i * 2 ^ 30) / 2 ^ 30 % 512 = i
      omega
    · change (va % 2 ^ 21 + i * 2 ^ 21) / 2 ^ 21 % 512 = i
      omega
    · change (va % 2 ^ 12 + i * 2 ^ 12) / 2 ^ 12 % 512 = i
      omega
  cases level <;> cases k <;> first | exact absurd hk (by decide) | skip
  · change (va % 2 ^ 30 + i * 2 ^ 30) / 2 ^ 21 % 512 = va / 2 ^ 21 % 512
    omega
  · change (va % 2 ^ 30 + i * 2 ^ 30) / 2 ^ 12 % 512 = va / 2 ^ 12 % 512
    omega
  · change (va % 2 ^ 21 + i * 2 ^ 21) / 2 ^ 12 % 512 = va / 2 ^ 12 % 512
    omega

/-- What holds of the tables under a table holds of those under its child. -/
theorem Agrees.child (h : Agrees e s level src) (hnext : level.next = some next)
    (hi : i < entriesPerTable) (htab : isTable (e src i) level = true) :
    Agrees e s next (descriptorAddress (e src i)) := by
  intro l va t ht
  obtain ⟨va', hva', hlow⟩ := exists_index level i va hi
  have hsame : SameTable next l va' va := fun k hk _ =>
    hlow k (by have := rank_next hnext; omega)
  refine h l va' t (tableFrom_cons hnext (by rwa [hva']) ?_)
  rw [hva', tableFrom_of_sameTable hsame, ht]

theorem Entry.leaf (hs : s₂.tables = store s₁.tables dst i w) (hw : isTable w level = false)
    (hproper : Proper level w) (hsrc : isTable (e src i) level = false)
    (hlast : (level, w) = scrub (level, e src i)) : Entry e level src dst s₁ s₂ i := by
  have hself : ∀ va, level.index va = i → s₂.tables dst (level.index va) = w := by
    intro va hva
    rw [hs, hva, store_self]
  have honly : ∀ va l t, level.index va = i → tableFrom s₂.tables level dst l va = some t →
      l = level ∧ t = dst := by
    intro va l t hva ht
    rcases tableFrom_cases ht with htop | ⟨-, -, htab, -⟩
    · exact htop
    · rw [hself va hva, hw] at htab
      cases htab
  refine ⟨fun va hva => ?_, fun va l t hva ht => .inl (honly va l t hva ht),
    fun va va' l l' t hva hva' ht ht' => ?_, fun va l t hva ht => ?_, fun j hj => ?_,
    fun f _ hf j => ?_⟩
  · rw [lastFrom_entry (by rw [hself va hva, hw]), hself va hva,
      lastFrom_entry (by rw [hva, hsrc]), hva, hlast]
  · obtain ⟨rfl, -⟩ := honly va l t hva ht
    obtain ⟨rfl, -⟩ := honly va' l' t hva' ht'
    exact ⟨rfl, fun k hk hlt => absurd hlt (Nat.not_lt.2 hk)⟩
  · obtain ⟨rfl, rfl⟩ := honly va l t hva ht
    rwa [hself va hva]
  · rw [hs, store_of_ne fun hh => hj hh.2]
  · rw [hs, store_of_ne fun hh => hf hh.1]

/-- An entry that is a table pointer is cloned into a new frame `p`. -/
theorem Entry.table {s₃ s₄ : Sys} {p : ℕ} {desc : UInt64} (hnext : level.next = some next)
    (hsrc : isTable (e src i) level = true) (hdesc : tableDescriptor p = some desc)
    (hcloned : Cloned e next (descriptorAddress (e src i)) p s₃ s₄ entriesPerTable)
    (hs : s₂.tables = store s₄.tables dst i desc)
    (hdst : dst ≠ p ∧ ¬NewPage s₃ s₄ dst) (hnew : NewPage s₁ s₂ p)
    (hchild : ∀ t, NewPage s₃ s₄ t → NewPage s₁ s₂ t)
    (hkept : ∀ t, t ≠ p → ¬NewPage s₃ s₄ t → ∀ j, s₄.tables t j = s₁.tables t j)
    (hapart : ∀ f ∈ s₁.owned, s₁.phys f ≠ p ∧ ¬NewPage s₃ s₄ (s₁.phys f)) :
    Entry e level src dst s₁ s₂ i := by
  obtain ⟨haddr, htable⟩ := tableDescriptor_spec hdesc
  have hlevel : level ≠ .L3 := by
    rintro rfl
    cases hnext
  have hself : ∀ va, level.index va = i → s₂.tables dst (level.index va) = desc := by
    intro va hva
    rw [hs, hva, store_self]
  have hall : ∀ va, next.index va < entriesPerTable := fun va => next.index_lt va
  -- Writing the descriptor does not change the clone of the child.
  have hsame : ∀ va l t, tableFrom s₄.tables next p l va = some t →
      s₂.tables t (l.index va) = s₄.tables t (l.index va) := by
    intro va l t ht
    rw [hs, store_of_ne]
    rintro ⟨rfl, -⟩
    rcases hcloned.pages va l t (hall va) ht with ⟨-, rfl⟩ | ht
    · exact hdst.1 rfl
    · exact hdst.2 ht
  have hdown : ∀ va l t, level.index va = i → tableFrom s₂.tables level dst l va = some t →
      l = level ∧ t = dst ∨ tableFrom s₄.tables next p l va = some t := by
    intro va l t hva ht
    rcases tableFrom_cases ht with htop | ⟨next', hnext', -, hrest⟩
    · exact .inl htop
    rw [hnext] at hnext'
    cases hnext'
    rw [hself va hva, haddr, tableFrom_congr (hsame va)] at hrest
    exact .inr hrest
  have hpage : ∀ va l t, tableFrom s₄.tables next p l va = some t → NewPage s₁ s₂ t := by
    intro va l t ht
    rcases hcloned.pages va l t (hall va) ht with ⟨-, rfl⟩ | ht
    · exact hnew
    · exact hchild t ht
  have hrank := rank_next hnext
  refine ⟨fun va hva => ?_, fun va l t hva ht => ?_, fun va va' l l' t hva hva' ht ht' => ?_,
    fun va l t hva ht => ?_, fun j hj => ?_, fun f hf hne j => ?_⟩
  · rw [lastFrom_table hnext (by rw [hself va hva, htable level hlevel]), hself va hva, haddr,
      lastFrom_congr (hsame va), hcloned.last va (hall va),
      lastFrom_table hnext (by rw [hva, hsrc]), hva]
  · exact (hdown va l t hva ht).imp_right (hpage va l t)
  · rcases hdown va l t hva ht with ⟨rfl, rfl⟩ | hlow
    · rcases hdown va' l' t hva' ht' with ⟨rfl, -⟩ | hlow'
      · exact ⟨rfl, fun k hk hlt => absurd hlt (Nat.not_lt.2 hk)⟩
      rcases hcloned.pages va' l' t (hall va') hlow' with ⟨-, rfl⟩ | hp
      · exact absurd rfl hdst.1
      · exact absurd hp hdst.2
    rcases hdown va' l' t hva' ht' with ⟨-, rfl⟩ | hlow'
    · rcases hcloned.pages va l t (hall va) hlow with ⟨-, rfl⟩ | hp
      · exact absurd rfl hdst.1
      · exact absurd hp hdst.2
    obtain ⟨rfl, hbelow⟩ := hcloned.separate va va' l l' t (hall va) (hall va') hlow hlow'
    refine ⟨rfl, fun k hk hlt => ?_⟩
    by_cases hkl : k = level
    · rw [hkl, hva, hva']
    refine hbelow k ?_ hlt
    have : rank k ≠ rank level := fun heq => hkl (rank_inj heq)
    omega
  · rcases hdown va l t hva ht with ⟨rfl, rfl⟩ | hlow
    · rw [hself va hva]
      exact .inr (.inr (htable l hlevel))
    · rw [hsame va l t hlow]
      exact hcloned.entries va l t (hall va) hlow
  · rw [hs, store_of_ne fun hh => hj hh.2]
    exact hkept dst hdst.1 hdst.2 j
  · rw [hs, store_of_ne fun hh => hne hh.1]
    exact hkept _ (hapart f hf).1 (hapart f hf).2 j

def Clones (e : Tables) (level : Level) (clone : ℕ → ℕ → As Unit) (count : ℕ → ℕ) : Prop :=
  ∀ (s : Sys) (src dst f : ℕ), SysOk s → Agrees e s level src → f ∈ s.owned → dst = s.phys f →
    Spec (· = dst) (count src) (clone src dst) s fun _ s' =>
      Cloned e level src dst s s' entriesPerTable

theorem scrub_leaf (h : isInvalid w = false) : scrub (level, w) = (level, w) := by
  simp [scrub, h]

theorem proper_zero (level : Level) : Proper level 0 := .inl (by decide)

theorem isTable_of_isInvalid (h : isInvalid w = true) : isTable w level = false := by
  cases htab : isTable w level
  · rfl
  · rw [isInvalid_of_isTable htab] at h
    cases h

theorem cloneEntry_leaf_spec {child : ℕ → ℕ → As Unit} (h : SysOk s₁)
    (hread : s₁.world.readEntry src i = e src i) (hmod : dst % frameSize = 0)
    (hi : i < entriesPerTable) (htab : isTable (e src i) level = false) :
    Spec (· = dst) 0 (cloneEntry child level src dst i) s₁
      fun _ s₂ => Entry e level src dst s₁ s₂ i := by
  unfold cloneEntry Spec
  rw [wp_bind, wp_get]
  simp only [hread]
  cases hinv : isInvalid (e src i)
  case true =>
    simp only [if_true]
    refine Spec.mono (writeEntry_spec (D := (· = dst)) h hmod hi rfl) (fun _ ht => ht) le_rfl
      fun _ s₂ _ hs₂ => ?_
    exact Entry.leaf hs₂.1 (by cases level <;> decide) (proper_zero level) htab
      (by simp [scrub, hinv])
  cases hleaf : isLeaf (e src i) level
  case true =>
    simp only [if_true, Bool.false_eq_true, if_false]
    refine Spec.mono (writeEntry_spec (D := (· = dst)) h hmod hi rfl) (fun _ ht => ht) le_rfl
      fun _ s₂ _ hs₂ => ?_
    exact Entry.leaf hs₂.1 htab (.inr (.inl hleaf)) htab (scrub_leaf hinv).symm
  simp only [htab, Bool.false_eq_true, if_false]
  exact Spec.throw h nofun nofun

theorem cloneEntry_spec {child : ℕ → ℕ → As Unit}
    (hchild : ∀ next, level.next = some next → Clones e next child count) (h : SysOk s₁)
    (hagree : Agrees e s₁ level src) (hf : f ∈ s₁.owned) (hdst : dst = s₁.phys f)
    (hi : i < entriesPerTable) :
    Spec (· = dst) (if isTable (e src i) level then 1 + count (descriptorAddress (e src i)) else 0)
      (cloneEntry child level src dst i) s₁ fun _ s₂ => Entry e level src dst s₁ s₂ i := by
  have hsrc := hagree level 0 src tableFrom_top
  have hread : s₁.world.readEntry src i = e src i := by
    rw [readEntry_eq hsrc.1.1 hi]
    exact hsrc.2 i
  have hmod : dst % frameSize = 0 := by
    rw [hdst]
    exact phys_mod h.pool.base f
  cases htab : isTable (e src i) level
  case false =>
    simp only [Bool.false_eq_true, if_false]
    exact cloneEntry_leaf_spec h hread hmod hi htab
  have hleaf : isLeaf (e src i) level = false := by
    cases hleaf : isLeaf (e src i) level
    · rfl
    · rw [isTable_of_isLeaf hleaf] at htab
      cases htab
  unfold cloneEntry Spec
  rw [wp_bind, wp_get]
  simp only [hread, isInvalid_of_isTable htab, hleaf, htab]
  simp only [if_true, Bool.false_eq_true, if_false]
  obtain ⟨next, hnext⟩ : ∃ next, level.next = some next := by
    cases level with
    | L3 => cases htab
    | L2 | L1 => exact ⟨_, rfl⟩
  rw [← Nat.add_zero (1 + _), Nat.add_assoc]
  refine Spec.bind (takeFrame_spec h) fun p s₂ hstep₂ hs₂ => ?_
  obtain ⟨g, rfl, howned₂, hgfree, hgnew, hmem₂⟩ := hs₂
  have hg₂ : g ∈ s₂.owned := by
    rw [howned₂]
    exact List.mem_append_right _ List.mem_cons_self
  have hgphys : s₁.phys g = s₂.phys g := (hstep₂.same.phys g).symm
  have hgmod : s₁.phys g % frameSize = 0 := phys_mod h.pool.base g
  have hgdst : s₁.phys g ≠ dst := by
    rw [hdst]
    exact fun heq => hgnew (phys_inj heq ▸ hf)
  have hnewg : NewPage s₁ s₂ (s₁.phys g) := ⟨g, hg₂, hgnew, rfl⟩
  rw [show count (descriptorAddress (e src i)) + 0 =
    0 + (count (descriptorAddress (e src i)) + 0) by omega]
  refine Spec.bind (zeroFrame_spec hstep₂.ok hgmod (.inr hnewg)) fun _ s₃ hstep₃ hs₃ => ?_
  obtain ⟨htables₃, howned₃, -⟩ := hs₃
  have hpoolD : ∀ t, (t = dst ∨ NewPage s₁ s₂ t) →
      ∃ f < s₂.world.frames.capacity, t = s₂.phys f := by
    rintro t (rfl | ⟨f', hf', -, rfl⟩)
    · refine ⟨f, ?_, by rw [hdst, hstep₂.same.phys f]⟩
      rw [hstep₂.same.capacity]
      exact h.ledger.lt f hf
    · exact ⟨f', hstep₂.ok.ledger.lt f' hf', (hstep₂.same.phys f').symm⟩
  have hagree₃ : Agrees e s₃ level src := by
    refine (hagree.within hstep₂.toWithin ?_).within hstep₃.toWithin hpoolD
    rintro t rfl
    exact ⟨f, h.ledger.lt f hf, hdst⟩
  have hg₃ : g ∈ s₃.owned := by rwa [howned₃]
  have hgphys₃ : s₁.phys g = s₃.phys g := hgphys.trans (hstep₃.same.phys g).symm
  refine Spec.bind (Q := fun _ s₄ => Cloned e next (descriptorAddress (e src i)) (s₁.phys g) s₃ s₄
      entriesPerTable ∧ ∀ t, t ≠ s₁.phys g → ¬NewPage s₃ s₄ t → ∀ j, s₄.tables t j = s₃.tables t j)
    (Spec.mono (hchild next hnext s₃ _ _ g hstep₃.ok (hagree₃.child hnext hi htab) hg₃ hgphys₃) ?_
      le_rfl fun _ s₄ hstep hQ => ⟨hQ, fun t ht hnew j => hstep.tables ?_ j⟩)
    fun _ s₄ hstep₄ hs₄ => ?_
  · rintro t rfl
    exact .inl (.inr hnewg)
  · exact fun hh => hh.elim ht hnew
  obtain ⟨hcloned, hchildkept⟩ := hs₄
  cases hdesc : tableDescriptor (s₁.phys g) with
  | none => exact Spec.throw hstep₄.ok nofun nofun
  | some desc =>
    refine Spec.mono (writeEntry_spec hstep₄.ok hmod hi ?_) (fun _ ht => ht) le_rfl
      fun _ s₅ _ hs₅ => ?_
    · exact .inl (.inl (.inl rfl))
    have hphys₃ : ∀ f', s₃.phys f' = s₁.phys f' := fun f' =>
      (hstep₃.same.phys f').trans (hstep₂.same.phys f')
    have hold : ∀ f' ∈ s₁.owned, s₁.phys f' ≠ s₁.phys g ∧ ¬NewPage s₃ s₄ (s₁.phys f') := by
      intro f' hf'
      refine ⟨fun heq => hgnew (phys_inj heq ▸ hf'), ?_⟩
      rintro ⟨f'', -, hnot, heq⟩
      rw [hphys₃] at heq
      refine hnot (phys_inj heq ▸ ?_)
      rw [howned₃, howned₂]
      exact List.mem_append_left _ hf'
    have howned₅ : s₅.owned = s₄.owned := hs₅.2
    refine Entry.table hnext htab hdesc hcloned hs₅.1 ?_ ?_ ?_ ?_ hold
    · rw [hdst]
      exact hold f hf
    · refine ⟨g, ?_, hgnew, rfl⟩
      rw [howned₅]
      exact hstep₄.owned.subset hg₃
    · rintro t ⟨f', hf', hnot, rfl⟩
      refine ⟨f', by rwa [howned₅], fun hmem => hnot ?_, hphys₃ f'⟩
      rw [howned₃, howned₂]
      exact List.mem_append_left _ hmem
    · intro t ht hnew j
      rw [hchildkept t ht hnew j, htables₃, fillTable_of_ne ht]
      unfold Sys.tables
      rw [hmem₂]

/-- The loop clones all entries that are left. -/
theorem cloneFrom_spec {child : ℕ → ℕ → As Unit}
    (hchild : ∀ next, level.next = some next → Clones e next child count) (hf : f ∈ s.owned)
    (hdst : dst = s.phys f) (n : ℕ) :
    ∀ (i k : ℕ) (s₁ : Sys), i + n = entriesPerTable → Step (· = dst) k s s₁ →
      Agrees e s₁ level src → Cloned e level src dst s s₁ i →
      Spec (fun t => t = dst ∨ NewPage s s₁ t) (countFrom count e level src n i)
        (cloneFrom child level src dst n i) s₁ fun _ s' =>
          Cloned e level src dst s s' entriesPerTable := by
  induction n with
  | zero =>
    intro i k s₁ hi hstep hagree hcloned
    rw [Nat.add_zero] at hi
    subst hi
    exact Spec.pure hstep.ok hcloned
  | succ n ih =>
    intro i k s₁ hi hstep hagree hcloned
    rw [cloneFrom, countFrom]
    have hf₁ : f ∈ s₁.owned := hstep.owned.subset hf
    have hdst₁ : dst = s₁.phys f := hdst.trans (hstep.same.phys f).symm
    refine Spec.bind (Spec.mono (cloneEntry_spec hchild hstep.ok hagree hf₁ hdst₁ (by omega))
      (fun t ht => .inl ht) le_rfl fun _ _ hs hQ => (⟨hs, hQ⟩ : _ ∧ _)) fun _ s₂ hstep₂ hs₂ => ?_
    obtain ⟨hstep₂', hentry⟩ := hs₂
    have hboth := hstep.trans hstep₂
    have hagree₂ : Agrees e s₂ level src := by
      refine hagree.within hstep₂'.toWithin ?_
      rintro t rfl
      exact ⟨f, hstep.ok.ledger.lt f hf₁, hdst₁⟩
    refine Spec.mono (ih (i + 1) _ s₂ (by omega) hboth hagree₂
      (hcloned.succ hstep.toWithin hstep₂.toWithin hf hdst hentry)) ?_ le_rfl fun _ _ _ hQ => hQ
    rintro t (rfl | ⟨g, hg, hnot, rfl⟩)
    · exact .inl (.inl rfl)
    by_cases hg₁ : g ∈ s₁.owned
    · exact .inl (.inr ⟨g, hg₁, hnot, rfl⟩)
    · exact .inr ⟨g, hg, hg₁, (hstep.same.phys g).symm⟩

theorem clones_of_child (child : ℕ → ℕ → As Unit) (count : ℕ → ℕ)
    (hchild : ∀ next, level.next = some next → Clones e next child count) :
    Clones e level (fun src dst => cloneFrom child level src dst entriesPerTable 0)
      fun src => countFrom count e level src entriesPerTable 0 := by
  intro s src dst f h hagree hf hdst
  refine Spec.mono (cloneFrom_spec hchild hf hdst entriesPerTable 0 0 s (Nat.zero_add _)
    (.refl h) hagree Cloned.zero) ?_ le_rfl fun _ _ _ hQ => hQ
  rintro t (ht | ⟨g, hg, hnot, -⟩)
  · exact ht
  · exact absurd hg hnot

theorem clones_root (e : Tables) : Clones e .L1 cloneL1 (countL1 e) := by
  have h3 : Clones e .L3 cloneL3 (countL3 e) :=
    clones_of_child cloneNone (fun _ => 0) nofun
  have h2 : Clones e .L2 cloneL2 (countL2 e) :=
    clones_of_child cloneL3 (countL3 e) fun next hnext => by
      cases hnext
      exact h3
  exact clones_of_child cloneL2 (countL2 e) fun next hnext => by
    cases hnext
    exact h2

end HarborKernel.AddressSpaces
