import HarborKernel.CloneTables

/-!
`map_l3_page` on the tables of an address space. All tables of the space are
frames it owns. The walk down creates the tables that are missing, which changes
no translation; the last store gives one page its translation, where there was
none before.
-/

namespace HarborKernel.AddressSpaces

open ByteWords ErrorState Paging PageWalk

namespace Sys

abbrev root (s : Sys) : ℕ := s.space.rootPhys

def translate (s : Sys) (v : ℕ) : Option Translation := PageWalk.translate s.tables s.root v

def IsTable (s : Sys) (t : ℕ) : Prop := Reaches s.tables .L1 s.root t

end Sys

structure Tree (s : Sys) : Prop where
  separate : Separate s.tables .L1 s.root
  owned : ∀ t, s.IsTable t → ∃ f ∈ s.owned, t = s.phys f
  entries : ∀ level va t, tableFrom s.tables .L1 s.root level va = some t →
    Proper level (s.tables t (level.index va))

structure Grows (s s' : Sys) : Prop where
  tree : Tree s'
  last : ∀ v, leafAt (lastFrom s'.tables .L1 s'.root v).2 (lastFrom s'.tables .L1 s'.root v).1 v =
    leafAt (lastFrom s.tables .L1 s.root v).2 (lastFrom s.tables .L1 s.root v).1 v
  newTable : ∀ t, s'.IsTable t → s.IsTable t ∨ NewPage s s' t
  stays : ∀ l v t, tableFrom s.tables .L1 s.root l v = some t →
    tableFrom s'.tables .L1 s'.root l v = some t

variable {s' : Sys} {D : ℕ → Prop} {pa : ℕ} {kind : MemKind} {perms : Perms}

variable {s s₁ s₂ : Sys} {D' : ℕ → Prop} {desc : UInt64}

theorem Grows.same (h : Grows s s') (v : ℕ) : s'.translate v = s.translate v := by
  unfold Sys.translate PageWalk.translate
  rw [h.last v]

theorem Grows.trans (h : Grows s s₁) (h' : Grows s₁ s₂) (hold : Within D s s₁)
    (hnew : Within D' s₁ s₂) : Grows s s₂ := by
  refine ⟨h'.tree, fun v => (h'.last v).trans (h.last v), fun t ht => ?_, fun l v t ht =>
    h'.stays l v t (h.stays l v t ht)⟩
  rcases h'.newTable t ht with ht | ht
  · exact (h.newTable t ht).imp_right hnew.newPage_left
  · exact .inr (hold.newPage_right ht)

/-- A change that leaves all tables of the space alone. -/
theorem Grows.of_tables (h : Tree s) (hroot : s'.root = s.root) (howned : s.owned ⊆ s'.owned)
    (hphys : ∀ f, s'.phys f = s.phys f)
    (hsame : ∀ t, s.IsTable t → ∀ i, s'.tables t i = s.tables t i) : Grows s s' := by
  have htable : ∀ l v, tableFrom s'.tables .L1 s.root l v = tableFrom s.tables .L1 s.root l v :=
    fun l v => tableFrom_congr (fun l t ht => hsame t ⟨l, v, ht⟩ _) l
  refine ⟨⟨?_, ?_, ?_⟩, fun v => ?_, ?_, ?_⟩
  · rw [hroot]
    exact h.separate.of_tableFrom fun l v t ht => by rwa [htable] at ht
  · rintro t ⟨l, v, ht⟩
    rw [hroot, htable] at ht
    obtain ⟨f, hf, rfl⟩ := h.owned t ⟨l, v, ht⟩
    exact ⟨f, howned hf, (hphys f).symm⟩
  · intro l v t ht
    rw [hroot, htable] at ht
    rw [hsame t ⟨l, v, ht⟩]
    exact h.entries l v t ht
  · rw [hroot, lastFrom_congr fun l t ht => hsame t ⟨l, v, ht⟩ _]
  · rintro t ⟨l, v, ht⟩
    rw [hroot, htable] at ht
    exact .inl ⟨l, v, ht⟩
  · intro l v t ht
    rw [hroot, htable, ht]

theorem Grows.refl (h : Tree s) : Grows s s :=
  .of_tables h rfl (fun _ hf => hf) (fun _ => rfl) fun _ _ _ => rfl

variable {s : Sys} {level next : Level} {va t : ℕ}

theorem Tree.table_mod (h : Tree s) (hok : SysOk s) (ht : s.IsTable t) : t % frameSize = 0 := by
  obtain ⟨f, -, rfl⟩ := h.owned t ht
  exact phys_mod hok.pool.base f

theorem Tree.not_isTable (h : Tree s) {f : ℕ} (hf : f ∉ s.owned) : ¬s.IsTable (s.phys f) := by
  intro ht
  obtain ⟨g, hg, heq⟩ := h.owned _ ht
  exact hf (phys_inj heq ▸ hg)

/-- An empty table, in a new frame, is linked at an empty descriptor. -/
theorem Grows.link {g : ℕ} (h : Tree s) (hstep : Within D s s') (hg : g ∈ s'.owned)
    (hnew : g ∉ s.owned) (ht : tableFrom s.tables .L1 s.root level va = some t)
    (hnext : level.next = some next) (hinv : isInvalid (s.tables t (level.index va)) = true)
    (hdesc : tableDescriptor (s.phys g) = some desc)
    (htables : s'.tables = link s.tables t (level.index va) desc (s.phys g) fun _ => 0) :
    Grows s s' ∧ tableFrom s'.tables .L1 s'.root next va = some (s.phys g) := by
  obtain ⟨haddr, htab⟩ := tableDescriptor_spec hdesc
  have hlevel : level ≠ .L3 := by
    rintro rfl
    cases hnext
  have hzero : ∀ l : Level, isTable 0 l = false := fun l => by cases l <;> decide
  have hlinks : Links s.tables .L1 s.root level next va t desc (s.phys g) fun _ => 0 :=
    ⟨h.separate, ht, h.not_isTable hnew, hnext, htab level hlevel, haddr, fun _ => hzero next⟩
  have hroot : s'.root = s.root := hstep.same.root
  have hentry : isTable (s.tables t (level.index va)) level = false := isTable_of_isInvalid hinv
  have hpage : NewPage s s' (s.phys g) := ⟨g, hg, hnew, rfl⟩
  have hold : ∀ l v x, tableFrom s'.tables .L1 s.root l v = some x →
      tableFrom s.tables .L1 s.root l v = some x ∨
        x = s.phys g ∧ l = next ∧ SameSlot .L1 level va v := by
    intro l v x hx
    rw [htables] at hx
    exact hlinks.tableFrom_link hx
  -- Below an empty descriptor there was no table.
  have hstays : ∀ l v x, tableFrom s.tables .L1 s.root l v = some x →
      tableFrom s'.tables .L1 s.root l v = some x := by
    intro l v x hx
    rw [htables, PageWalk.link]
    have hsep := h.separate.fillTable (fun _ => 0) hlinks.fresh
    by_cases hslot : SameSlot .L1 level va v
    · have hle : rank l ≤ rank level := by
        by_contra hlt
        obtain ⟨-, mid, -, hmid, hmidtab, -⟩ :=
          tableFrom_below hx (rank_le_of_tableFrom ht) (Nat.lt_of_not_le hlt)
        rw [← tableFrom_of_sameTable hslot.1, ht] at hmid
        cases hmid
        rw [← hslot.2, hentry] at hmidtab
        cases hmidtab
      rw [tableFrom_store_above hsep hlinks.found_fill hle, tableFrom_fillTable hlinks.fresh, hx]
    · rw [tableFrom_store_of_ne hsep hlinks.found_fill hslot, tableFrom_fillTable hlinks.fresh, hx]
  refine ⟨⟨⟨?_, ?_, ?_⟩, fun v => ?_, ?_, ?_⟩, ?_⟩
  · rw [htables, hroot]
    exact hlinks.separate_link
  · rintro x ⟨l, v, hx⟩
    rw [hroot] at hx
    rcases hold l v x hx with hx | ⟨rfl, -⟩
    · obtain ⟨f, hf, rfl⟩ := h.owned x ⟨l, v, hx⟩
      exact ⟨f, hstep.owned.subset hf, (hstep.same.phys f).symm⟩
    · exact ⟨g, hg, (hstep.same.phys g).symm⟩
  · intro l v x hx
    rw [hroot] at hx
    rcases hold l v x hx with hx' | ⟨rfl, rfl, -⟩
    · have hne : x ≠ s.phys g := fun heq => hlinks.fresh ⟨l, v, heq ▸ hx'⟩
      rw [htables]
      by_cases hslot : x = t ∧ l.index v = level.index va
      · obtain ⟨rfl, hindex⟩ := hslot
        obtain ⟨rfl, -⟩ := h.separate _ _ _ _ _ ht hx'
        rw [hindex, PageWalk.link, store_self]
        exact .inr (.inr (htab level hlevel))
      · rw [PageWalk.link, store_of_ne hslot, fillTable_of_ne hne]
        exact h.entries l v x hx'
    · rw [htables, hlinks.link_child]
      exact proper_zero l
  · rw [hroot, htables]
    by_cases hslot : SameSlot .L1 level va v
    · rw [hlinks.lastFrom_self hslot, lastFrom_of_leaf ht hslot hentry,
        leafAt_of_invalid (show isInvalid 0 = true by decide), leafAt_of_invalid hinv]
    · rw [hlinks.lastFrom_of_ne hslot]
  · rintro x ⟨l, v, hx⟩
    rw [hroot] at hx
    rcases hold l v x hx with hx | ⟨rfl, -⟩
    · exact .inl ⟨l, v, hx⟩
    · exact .inr hpage
  · intro l v x hx
    rw [hroot]
    exact hstays l v x hx
  · rw [hroot, tableFrom_next hnext (rank_le_of_tableFrom ht), hstays level va t ht,
      Option.bind_some, down_eq_some_iff, htables, PageWalk.link, store_self]
    exact ⟨htab level hlevel, haddr⟩

/-- Why a page could not be mapped: something is mapped there, or an address cannot be encoded. -/
def Refused (s : Sys) (va : ℕ) : Prop :=
  isLeaf (lastFrom s.tables .L1 s.root va).2 (lastFrom s.tables .L1 s.root va).1 = true ∨
    ∃ f < s.world.frames.capacity, tableDescriptor (s.phys f) = none

theorem isLeaf_iff_leafAt (va : ℕ) {w : UInt64} {l : Level} :
    isLeaf w l = true ↔ leafAt w l va ≠ none := by
  cases hl : isLeaf w l
  · simp [leafAt, decodeLeaf, hl]
  · simp [leafAt, decodeLeaf, hl]

/-- What refuses a page after new tables are linked refused it before. -/
theorem Refused.of_grows (h : Refused s' va) (hg : Grows s s') (hsame : SameFrame s s') :
    Refused s va := by
  rcases h with hleaf | ⟨f, hf, hdesc⟩
  · left
    rw [isLeaf_iff_leafAt va, hg.last va] at hleaf
    exact (isLeaf_iff_leafAt va).2 hleaf
  right
  rw [hsame.capacity] at hf
  rw [hsame.phys] at hdesc
  exact ⟨f, hf, hdesc⟩

/-- One turn of the descent: `k` is what it may take when the table below is missing. -/
theorem descend_spec (hok : SysOk s) (h : Tree s)
    (ht : tableFrom s.tables .L1 s.root level va = some t) (hnext : level.next = some next) {k : ℕ}
    (hk : tableFrom s.tables .L1 s.root next va = none → 1 ≤ k) :
    SpecE s.IsTable k (descend level va t) s
      (fun t' s' => Grows s s' ∧ tableFrom s'.tables .L1 s'.root next va = some t')
      (fun e s' => Grows s s' ∧ (e = .badTable → Refused s va)) := by
  have hmod := h.table_mod hok ⟨level, va, ht⟩
  have hread : s.world.readEntry t (level.index va) = s.tables t (level.index va) :=
    readEntry_eq hmod (level.index_lt va)
  have hbelow : tableFrom s.tables .L1 s.root next va =
      down s.tables level va t := by
    rw [tableFrom_next hnext (rank_le_of_tableFrom ht), ht, Option.bind_some]
  unfold descend SpecE
  rw [wp_bind, wp_get]
  simp only [hread]
  cases hinv : isInvalid (s.tables t (level.index va))
  case false =>
    simp only [Bool.false_eq_true, if_false]
    cases htab : isTable (s.tables t (level.index va)) level
    case true =>
      simp only [if_true]
      refine ⟨(Step.refl hok).mono (fun _ hh => hh) (Nat.zero_le _), .refl h, ?_⟩
      rw [hbelow, down_eq_some_iff]
      exact ⟨htab, rfl⟩
    case false =>
      simp only [Bool.false_eq_true, if_false]
      refine SpecE.throw hok nofun nofun ⟨.refl h, fun _ => .inl ?_⟩
      rw [lastFrom_of_leaf ht ⟨.refl _ _ _, rfl⟩ htab]
      rcases h.entries level va t ht with hbad | hleaf | hbad
      · rw [hinv] at hbad
        cases hbad
      · exact hleaf
      · rw [htab] at hbad
        cases hbad
  case true =>
    simp only [if_true]
    have hnone : tableFrom s.tables .L1 s.root next va = none := by
      rw [hbelow, down, isTable_of_isInvalid hinv]
      rfl
    obtain ⟨k, rfl⟩ := Nat.exists_eq_add_of_le (hk hnone)
    refine SpecE.bind (SpecE.mono (takeFrame_specE hok) (fun _ hh => hh) le_rfl
      (fun _ _ _ hQ => hQ) fun e s' hfail he => ?_) fun p s₁ hstep₁ hs₁ => ?_
    · refine ⟨.of_tables h hfail.same.root hfail.owned.subset hfail.same.phys fun t _ i => ?_,
        fun hbad => absurd hbad he.1⟩
      unfold Sys.tables
      rw [he.2.2]
    obtain ⟨g, rfl, howned₁, -, hnew, hmem₁⟩ := hs₁
    have hg₁ : g ∈ s₁.owned := by
      rw [howned₁]
      exact List.mem_append_right _ List.mem_cons_self
    have hpage : NewPage s s₁ (s.phys g) := ⟨g, hg₁, hnew, rfl⟩
    have hgmod : s.phys g % frameSize = 0 := phys_mod hok.pool.base g
    rw [← Nat.zero_add k]
    refine SpecE.bind (zeroFrame_specE hstep₁.ok hgmod (.inr hpage)) fun _ s₂ hstep₂ hs₂ => ?_
    obtain ⟨htables₂, howned₂, -⟩ := hs₂
    have htables : s₂.tables = fillTable s.tables (s.phys g) fun _ => 0 := by
      rw [htables₂]
      unfold Sys.tables
      rw [hmem₁]
    have hstep := hstep₁.trans hstep₂
    cases hdesc : tableDescriptor (s.phys g) with
    | none =>
      refine SpecE.throw hstep₂.ok nofun nofun ⟨.of_tables h hstep.same.root hstep.owned.subset
        hstep.same.phys fun x hx i => ?_, fun _ => .inr ⟨g, ?_, hdesc⟩⟩
      · rw [htables, fillTable_of_ne]
        rintro rfl
        exact h.not_isTable hnew hx
      · have hlt := hstep₁.ok.ledger.lt g hg₁
        rwa [hstep₁.same.capacity] at hlt
    | some desc =>
      rw [← Nat.zero_add k]
      refine SpecE.bind (writeEntry_specE hstep₂.ok hmod (level.index_lt va) ?_)
        fun _ s₃ hstep₃ hs₃ => ?_
      · exact .inl (.inl ⟨level, va, ht⟩)
      have hall := hstep.trans (hstep₃.mono (fun t ht => ?_) le_rfl)
      · have hg₃ : g ∈ s₃.owned := by rw [hs₃.2, howned₂]; exact hg₁
        refine ⟨(Step.refl hstep₃.ok).mono (fun _ hh => hh) (Nat.zero_le _), ?_⟩
        refine Grows.link h hall.toWithin hg₃ hnew ht hnext hinv hdesc ?_
        rw [hs₃.1, htables]
        rfl
      rcases ht with (ht | ht) | ht
      · exact .inl ht
      · exact .inr (hstep₂.newPage_left ht)
      · exact .inr (hstep₁.newPage_right ht)

def vpage (va : ℕ) : ℕ := va % vaLimit / pageSize

theorem index_mod (level : Level) (va : ℕ) : level.index (va % vaLimit) = level.index va := by
  cases level
  · change va % 2 ^ 39 / 2 ^ 30 % 512 = va / 2 ^ 30 % 512
    omega
  · change va % 2 ^ 39 / 2 ^ 21 % 512 = va / 2 ^ 21 % 512
    omega
  · change va % 2 ^ 39 / 2 ^ 12 % 512 = va / 2 ^ 12 % 512
    omega

theorem sameSlot_page {v : ℕ} (hv : v < vaLimit) :
    SameSlot .L1 .L3 va v ↔ v / pageSize = vpage va := by
  have hlt : va % vaLimit < vaLimit := Nat.mod_lt _ (by decide)
  have hsame : SameSlot .L1 .L3 va v ↔ SameSlot .L1 .L3 (va % vaLimit) v := by
    unfold SameSlot SameTable
    simp only [index_mod]
  rw [hsame, sameSlot_iff hlt hv]
  rfl

structure Installed (s : Sys) (va pa : ℕ) (kind : MemKind) (perms : Perms) (s' : Sys) : Prop where
  tree : Tree s'
  before : ∀ v < vaLimit, v / pageSize = vpage va → s.translate v = none
  after : ∀ v < vaLimit, s'.translate v =
    if v / pageSize = vpage va then some (pa + v % pageSize, kind, perms) else s.translate v
  newTable : ∀ t, s'.IsTable t → s.IsTable t ∨ NewPage s s' t
  stays : ∀ l v t, tableFrom s.tables .L1 s.root l v = some t →
    tableFrom s'.tables .L1 s'.root l v = some t
  reached : ∀ l, ∃ t, tableFrom s'.tables .L1 s'.root l va = some t

/-- The last store of `map_l3_page`. -/
theorem Installed.store (h : Tree s) (hsame : SameFrame s s') (howned : s'.owned = s.owned)
    (ht : tableFrom s.tables .L1 s.root .L3 va = some t)
    (hinv : isInvalid (s.tables t (Level.L3.index va)) = true)
    (hdesc : leaf .L3 pa kind perms = some desc)
    (htables : s'.tables = store s.tables t (Level.L3.index va) desc) :
    Installed s va pa kind perms s' := by
  have hroot : s'.root = s.root := hsame.root
  have hold : ∀ l v x, tableFrom s'.tables .L1 s.root l v = some x →
      tableFrom s.tables .L1 s.root l v = some x := by
    intro l v x hx
    rw [htables] at hx
    exact tableFrom_store_leaf h.separate ht rfl hx
  have hstays : ∀ l v x, tableFrom s.tables .L1 s.root l v = some x →
      tableFrom s'.tables .L1 s.root l v = some x := by
    intro l v x hx
    rw [htables, tableFrom_store_above h.separate ht (rank_bounds l).2, hx]
  have htrans : ∀ (s : Sys) v, v < vaLimit → s.translate v =
      leafAt (lastFrom s.tables .L1 s.root v).2 (lastFrom s.tables .L1 s.root v).1 v :=
    fun s v hv => if_neg (Nat.not_le.2 hv)
  refine ⟨⟨?_, ?_, ?_⟩, fun v hv hp => ?_, fun v hv => ?_, ?_, ?_, fun l => ?_⟩
  · rw [hroot]
    exact h.separate.of_tableFrom hold
  · rintro x ⟨l, v, hx⟩
    rw [hroot] at hx
    obtain ⟨f, hf, rfl⟩ := h.owned x ⟨l, v, hold l v x hx⟩
    exact ⟨f, by rwa [howned], (hsame.phys f).symm⟩
  · intro l v x hx
    rw [hroot] at hx
    have hx' := hold l v x hx
    rw [htables]
    by_cases hslot : x = t ∧ l.index v = Level.L3.index va
    · obtain ⟨rfl, hindex⟩ := hslot
      obtain ⟨rfl, -⟩ := h.separate _ _ _ _ _ ht hx'
      rw [hindex, store_self]
      exact .inr (.inl (isLeaf_of_decodeLeaf (decodeLeaf_leaf hdesc)))
    · rw [store_of_ne hslot]
      exact h.entries l v x hx'
  · rw [htrans s v hv, lastFrom_of_leaf ht ((sameSlot_page hv).2 hp) rfl, leafAt_of_invalid hinv]
  · rw [htrans s' v hv, htrans s v hv, hroot, htables]
    by_cases hp : v / pageSize = vpage va
    · rw [if_pos hp, lastFrom_store_self h.separate ht ((sameSlot_page hv).2 hp),
        resolve_of_not_table rfl, leafAt, decodeLeaf_leaf hdesc]
      rfl
    · rw [if_neg hp, lastFrom_store_of_ne h.separate ht fun hh => hp ((sameSlot_page hv).1 hh)]
  · rintro x ⟨l, v, hx⟩
    rw [hroot] at hx
    exact .inl ⟨l, v, hold l v x hx⟩
  · intro l v x hx
    rw [hroot]
    exact hstays l v x hx
  · obtain ⟨x, hx⟩ : ∃ x, tableFrom s.tables .L1 s.root l va = some x := by
      cases l with
      | L1 => exact ⟨_, rfl⟩
      | L3 => exact ⟨_, ht⟩
      | L2 =>
        obtain ⟨-, mid, -, hmid, -⟩ := tableFrom_below ht (show rank .L1 ≤ rank .L2 by decide)
          (by decide)
        exact ⟨mid, hmid⟩
    exact ⟨x, by rw [hroot]; exact hstays l va x hx⟩

theorem Grows.installed (h : Grows s s₁) (hold : Within D s s₁) (hnew : Within D' s₁ s₂)
    (h' : Installed s₁ va pa kind perms s₂) : Installed s va pa kind perms s₂ := by
  refine ⟨h'.tree, fun v hv hp => (h.same v).symm.trans (h'.before v hv hp), fun v hv => ?_,
    fun t ht => ?_, fun l v t ht => h'.stays l v t (h.stays l v t ht), h'.reached⟩
  · rw [h'.after v hv, h.same v]
  rcases h'.newTable t ht with ht | ht
  · exact (h.newTable t ht).imp_right hnew.newPage_left
  · exact .inr (hold.newPage_right ht)

/-- `map_l3_page`: the page is mapped, or the translation is as before. -/
theorem mapL3Page_spec (hok : SysOk s) (h : Tree s) {k₂ k₃ : ℕ}
    (hk₂ : tableFrom s.tables .L1 s.root .L2 va = none → 1 ≤ k₂)
    (hk₃ : tableFrom s.tables .L1 s.root .L3 va = none → 1 ≤ k₃) :
    SpecE s.IsTable (k₂ + k₃) (mapL3Page va pa kind perms) s
      (fun _ s' => Installed s va pa kind perms s')
      (fun e s' => Grows s s' ∧
        (e = .badTable → Refused s va ∨ leaf .L3 pa kind perms = none)) := by
  unfold mapL3Page SpecE
  rw [wp_bind, wp_get]
  refine SpecE.bind (SpecE.mono (descend_spec hok h (tableFrom_top ..) rfl hk₂) (fun _ hh => hh)
    le_rfl (fun _ _ _ hQ => hQ) fun e s' _ hE => ⟨hE.1, fun he => .inl (hE.2 he)⟩)
    fun t₂ s₁ hstep₁ hs₁ => ?_
  obtain ⟨hgrow₁, ht₂⟩ := hs₁
  have hrefused : Refused s₁ va → Refused s va := fun h => h.of_grows hgrow₁ hstep₁.same
  have hk₃' : tableFrom s₁.tables .L1 s₁.root .L3 va = none → 1 ≤ k₃ := by
    intro hnone
    refine hk₃ ?_
    cases hold : tableFrom s.tables .L1 s.root .L3 va with
    | none => rfl
    | some x =>
      rw [hgrow₁.stays .L3 va x hold] at hnone
      cases hnone
  rw [← Nat.add_zero k₃]
  refine SpecE.bind (SpecE.mono (descend_spec hstep₁.ok hgrow₁.tree ht₂
    (show Level.L2.next = some .L3 from rfl) hk₃')
    (fun t ht => hgrow₁.newTable t ht) le_rfl (fun _ _ hst hQ => (⟨hst, hQ⟩ : _ ∧ _))
    fun e s' hfail hE => ⟨hgrow₁.trans hE.1 hstep₁.toWithin hfail.toWithin,
      fun he => .inl (hrefused (hE.2 he))⟩) fun t₃ s₂ hstep₂ hs₂ => ?_
  obtain ⟨hst₂, hgrow₂, ht₃⟩ := hs₂
  have hgrow : Grows s s₂ := hgrow₁.trans hgrow₂ hstep₁.toWithin hst₂.toWithin
  have hmod := hgrow₂.tree.table_mod hstep₂.ok ⟨.L3, va, ht₃⟩
  have hread : s₂.world.readEntry t₃ (Level.L3.index va) = s₂.tables t₃ (Level.L3.index va) :=
    readEntry_eq hmod (Level.L3.index_lt va)
  unfold SpecE
  rw [wp_bind, wp_get]
  dsimp only
  rw [hread]
  cases hinv : isInvalid (s₂.tables t₃ (Level.L3.index va))
  case false =>
    simp only [Bool.not_false, if_true]
    refine SpecE.throw hstep₂.ok nofun nofun ⟨hgrow, fun _ => .inl (hrefused (.inl ?_))⟩
    have hleaf : isLeaf (s₂.tables t₃ (Level.L3.index va)) .L3 = true := by
      rcases hgrow₂.tree.entries .L3 va t₃ ht₃ with hbad | hleaf | hbad
      · rw [hinv] at hbad
        cases hbad
      · exact hleaf
      · cases hbad
    have hlast := hgrow₂.last va
    rw [lastFrom_of_leaf ht₃ ⟨.refl _ _ _, rfl⟩ rfl] at hlast
    cases hl : isLeaf (lastFrom s₁.tables .L1 s₁.root va).2 (lastFrom s₁.tables .L1 s₁.root va).1
    · simp [leafAt, decodeLeaf, hl, hleaf] at hlast
    · rfl
  case true =>
    simp only [Bool.not_true, Bool.false_eq_true, if_false]
    cases hdesc : leaf .L3 pa kind perms with
    | none => exact SpecE.throw hstep₂.ok nofun nofun ⟨hgrow, fun _ => .inr rfl⟩
    | some desc =>
      refine SpecE.mono (writeEntry_specE (E := fun _ _ => False) hstep₂.ok hmod
        (Level.L3.index_lt va) ?_) (fun _ hh => hh) le_rfl (fun _ s₃ hst₃ hs₃ => ?_)
        fun _ _ _ hE => hE.elim
      · rcases hgrow₂.newTable t₃ ⟨.L3, va, ht₃⟩ with hx | hx
        · exact .inl (hgrow₁.newTable t₃ hx)
        · exact .inr hx
      have hall := hstep₁.toWithin.trans hstep₂.toWithin fun _ hh => hh
      exact hgrow.installed hall hst₃.toWithin
        (Installed.store hgrow₂.tree hst₃.same hs₃.2 ht₃ hinv hdesc hs₃.1)

end HarborKernel.AddressSpaces
