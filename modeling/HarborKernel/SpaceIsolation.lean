import HarborKernel.BlankKernel

/-!
What isolates address spaces from each other and from the kernel. A prepared
space translates what the kernel translates in the same way; for EL0 it maps its
window, page by page into frames of its own, and pages of the regions it asked
for, at their addresses taken modulo the 39 bits of a walk.
-/

namespace HarborKernel.AddressSpaces

open ByteWords ErrorState Paging PageWalk Transition

/-- EL0 may use the address `v`, which `d` translates. -/
def Accessible (t : Tenant) (w : World) (v : ℕ) (d : Translation) : Prop :=
  (t.sys w).translate v = some d ∧ d.2.2.user = true

def AtWindow (t : Tenant) (w : World) (wf : ℕ → ℕ) (v : ℕ) (d : Translation) : Prop :=
  ∃ i < t.space.window.pages, v / pageSize = t.space.window.pageVa i / pageSize ∧
    d = (w.phys (wf i) + v % pageSize, .normalWb,
      if i < t.space.window.textPages then ⟨false, true, true⟩ else ⟨true, false, true⟩)

def AtRegion (board : Board) (r : Region) (v : ℕ) (d : Translation) : Prop :=
  ∃ j < r.count, v / pageSize = vpage (r.va board + j * pageSize) ∧
    d = (r.page j + v % pageSize, r.kind, r.perms)

/-- What a prepared space maps, in a world booted as `w₀`. -/
structure Isolated (w₀ w : World) (t : Tenant) : Prop where
  kernel : ∀ v d, kernelView w₀ v = some d → (t.sys w).translate v = some d
  tables : ∀ p, (t.sys w).IsTable p → ∃ f ∈ t.space.owned, p = w.phys f
  leaves : ∃ wf : ℕ → ℕ, (∀ i < t.space.window.pages, wf i ∈ t.space.owned) ∧
    (∀ i < t.space.window.pages, ∀ j < t.space.window.pages, wf i = wf j → i = j) ∧
    (∀ v d, Accessible t w v d → AtWindow t w wf v d ∨ ∃ r ∈ t.asked, AtRegion w.board r v d) ∧
    (∀ v d, AtWindow t w wf v d → Accessible t w v d) ∧
    ∀ r ∈ t.granted, ∀ v d, AtRegion w.board r v d → (t.sys w).translate v = some d

/-- The physical pages that were asked for are no frames of any space. -/
def AskedApart (s : Spaces) : Prop :=
  ∀ id t, s.tenants id = some t → ∀ r ∈ t.asked, ∀ j < r.count, ∀ o < pageSize,
    ∀ id' t', s.tenants id' = some t' → ∀ f ∈ t'.space.owned, pageOf (r.page j + o) ≠ s.world.phys f

/-- The byte at `a` is neither in a table of the kernel nor in a frame of another space. -/
def StoreAllowed (s : Spaces) (id a : ℕ) : Prop :=
  (∀ kroot, s.world.kernelRoot = some kroot → ∀ l v p,
    tableFrom (tablesOf s.world.mem) .L1 kroot l v = some p → pageOf a ≠ p) ∧
  ∀ id' t, id' ≠ id → s.tenants id' = some t → ∀ f ∈ t.space.owned, pageOf a ≠ s.world.phys f

/-- Every byte that the window translates to is zero. -/
def BlankWindow (t : Tenant) (w : World) : Prop :=
  ∀ i < t.space.window.pages, ∀ o < pageSize, ∃ pa d,
    (t.sys w).translate (t.space.window.pageVa i + o) = some (pa, d) ∧ w.mem pa = 0

section Leaves

variable {K : ℕ → Option Translation} {w : World} {t : Tenant} {U : ℕ → Option Translation}
  {wf : ℕ → ℕ} {v : ℕ} {d : Translation}

theorem translate_lt {s : Sys} (h : s.translate v = some d) : v < vaLimit := by
  by_contra hge
  rw [Sys.translate, PageWalk.translate, if_pos (Nat.not_lt.1 hge)] at h
  cases h

theorem kernelView_lt (h : kernelView w v = some d) : v < vaLimit := by
  by_contra hge
  obtain ⟨kroot, -, htrans⟩ := Option.bind_eq_some_iff.1 h
  rw [PageWalk.translate, if_pos (Nat.not_lt.1 hge)] at htrans
  cases htrans

theorem Lives.pageVa_lt (h : Lives K w t) (hm : Mapped K w t U wf) {i : ℕ}
    (hi : i < t.space.window.pages) : t.space.window.pageVa i + pageSize ≤ vaLimit := by
  have hpages := hm.window.le_owned.trans h.ledger.room
  have hbase : t.space.window.base ≤ 0x50000000 := by
    rw [h.base]
    cases w.board <;> decide
  have hlimit : vaLimit = 2 ^ 39 := rfl
  unfold UserWindow.pageVa
  unfold maxAsFrames at hpages
  unfold pageSize
  omega

theorem Lives.vpage_pageVa (h : Lives K w t) (hm : Mapped K w t U wf) {i : ℕ}
    (hi : i < t.space.window.pages) :
    vpage (t.space.window.pageVa i) = t.space.window.pageVa i / pageSize := by
  have hlt := h.pageVa_lt hm hi
  have hpos : 0 < pageSize := by decide
  rw [vpage, Nat.mod_eq_of_lt (by omega)]

theorem Mapped.translate_own (h : Mapped K w t U wf) (hv : v < vaLimit)
    (hU : U (v / pageSize) = some d) :
    (t.sys w).translate v = some (d.1 + v % pageSize, d.2) := by
  rw [h.prepared.view v hv, hU]

theorem perms_eq (window : UserWindow) (i : ℕ) : window.perms i =
    if i < window.textPages then ⟨false, true, true⟩ else ⟨true, false, true⟩ := by
  unfold UserWindow.perms UserWindow.isTextPage
  simp only [decide_eq_true_eq]
  rfl

theorem Lives.isolated {w₀ : World} (h : Lives (kernelView w₀) w t)
    (hdenied : ∀ v d, kernelView w₀ v = some d → d.2.2.user = false)
    (hp : t.space.prepared = true) : Isolated w₀ w t := by
  obtain ⟨U, wf, hm⟩ := h.mapped hp
  have hpos : 0 < pageSize := by decide
  -- Where the space has a page of its own, the kernel maps nothing.
  have hnone : ∀ v d, kernelView w₀ v = some d → U (v / pageSize) = none := by
    intro v d hd
    by_contra hne
    rw [hm.prepared.apart v (kernelView_lt hd) hne] at hd
    cases hd
  refine ⟨fun v d hd => ?_, hm.prepared.tree.owned, wf, hm.window.owned, hm.window.inj,
    fun v d hd => ?_, ?_, ?_⟩
  · rw [hm.prepared.view v (kernelView_lt hd), hnone v d hd]
    exact hd
  · obtain ⟨htrans, huser⟩ := hd
    have hv := translate_lt htrans
    cases hU : U (v / pageSize) with
    | none =>
      rw [hm.prepared.view v hv, hU] at htrans
      rw [hdenied v d htrans] at huser
      cases huser
    | some d' =>
      rw [hm.translate_own hv hU] at htrans
      cases htrans
      rcases hm.only _ d' hU with ⟨i, hi, hpage⟩ | ⟨r, hr, j, hj, hpage, rfl⟩
      · refine .inl ⟨i, hi, by rw [hpage, h.vpage_pageVa hm hi], ?_⟩
        rw [hpage, hm.window.mapped i hi] at hU
        cases hU
        rw [← perms_eq]
      · exact .inr ⟨r, hr, j, hj, hpage, rfl⟩
  · rintro v d ⟨i, hi, hpage, rfl⟩
    have hlt := h.pageVa_lt hm hi
    have hv : v < vaLimit := by
      have hmod := Nat.mod_lt v hpos
      have hdiv := Nat.div_add_mod v pageSize
      have hdiv' := Nat.div_mul_le_self (t.space.window.pageVa i) pageSize
      rw [hpage, Nat.mul_comm] at hdiv
      omega
    refine ⟨?_, ?_⟩
    · rw [hm.translate_own hv (by rw [hpage, ← h.vpage_pageVa hm hi, hm.window.mapped i hi]),
        ← perms_eq]
    · dsimp only
      split <;> rfl
  · rintro r hr v d ⟨j, hj, hpage, rfl⟩
    have hv : v < vaLimit := by
      have hlt := vpage_lt (r.va w.board + j * pageSize)
      have hmod := Nat.mod_lt v hpos
      have hdiv := Nat.div_add_mod v pageSize
      have hlimit : vaLimit = 2 ^ 39 := rfl
      rw [hpage, Nat.mul_comm] at hdiv
      unfold pageSize at *
      omega
    exact hm.translate_own hv (by rw [hpage, hm.granted r hr j hj])

end Leaves

section Isolation

variable {w₀ : World} {s s' : Spaces}

theorem SpacesOk.out_of_reach (h : SpacesOk w₀ s)
    (hdenied : ∀ v d, kernelView w₀ v = some d → d.2.2.user = false) (hasked : AskedApart s)
    {id id' : ℕ} {t t' : Tenant} (hne : id ≠ id') (ht : s.tenants id = some t)
    (ht' : s.tenants id' = some t') (hp : t.space.prepared = true) {f : ℕ}
    (hf : f ∈ t'.space.owned) {v : ℕ} {d : Translation} (hd : Accessible t s.world v d) :
    pageOf d.1 ≠ s.world.phys f := by
  obtain ⟨wf, howned, -, honly, -⟩ := ((h.lives id t ht).isolated hdenied hp).leaves
  have hmod : v % pageSize < frameSize := Nat.mod_lt v (by decide)
  rcases honly v d hd with ⟨i, hi, -, rfl⟩ | ⟨r, hr, j, hj, -, rfl⟩
  · rw [pageOf_add (phys_mod h.pool.base _) hmod]
    exact fun heq => h.apart id id' t t' hne ht ht' _ (howned i hi) (phys_inj heq ▸ hf)
  · exact hasked id t ht r hr j hj _ hmod id' t' ht' f hf

theorem SpacesOk.storeAllowed (hboot : Boot w₀) (h : SpacesOk w₀ s) {id a f : ℕ} {t : Tenant}
    (ht : s.tenants id = some t) (hf : f ∈ t.space.owned) (ha : pageOf a = s.world.phys f) :
    StoreAllowed s id a := by
  refine ⟨fun kroot hk l v p hp heq => ?_, fun id' t' hne ht' g hg heq => ?_⟩
  · have hout := ((h.kernelOk hboot).1 kroot hk).2 l v p hp
    exact hout.2 f ((h.lives id t ht).ledger.lt f hf) (heq.symm.trans ha)
  · exact h.apart id' id t' t hne ht' ht g hg (phys_inj (heq.symm.trans ha) ▸ hf)

theorem pageVa_page {window : UserWindow} (hbase : window.base % pageSize = 0) {i o : ℕ}
    (ho : o < pageSize) : (window.pageVa i + o) / pageSize = window.pageVa i / pageSize ∧
      (window.pageVa i + o) % pageSize = o := by
  have halign := pageVa_aligned hbase i
  unfold pageSize at *
  omega

/-- A space is prepared when `prepare_for_el0` succeeds, and only then. -/
theorem Lives.prepare_windowed {K : ℕ → Option Translation} {w : World} {t : Tenant}
    (h : Lives K w t) (hk : KernelOk K w) (hpool : PoolOk w) (hprep : t.space.prepared = false) :
    wp prepareForEl0 (t.sys w)
      (fun _ s' => ∃ s₁ U wf, s' = s₁.flags s₁.space.packetPoolMapped true ∧
        SameFrame (t.sys w) s₁ ∧ Windowed K s₁ U wf t.space.window.pages)
      (fun _ s' => s'.space.prepared = false) := by
  cases hkroot : w.kernelRoot with
  | none =>
    unfold prepareForEl0
    rw [wp_bind, wp_get]
    simp only [hprep, hkroot, Bool.false_eq_true, if_false]
    exact hprep
  | some kroot =>
    obtain ⟨f, hf, hroot⟩ := h.root
    refine wp.mono (h.prepare (B := True) hk hpool hprep hkroot (wp.mono (clones_root _ (t.sys w)
      kroot _ f (h.sysOk hpool) (hk.agrees hkroot t.space) hf hroot) (fun _ _ _ => trivial)
      fun _ _ _ _ => trivial)) (fun _ s' hs' => ?_) fun _ s' he => he.1.same.prepared.trans hprep
    obtain ⟨s₁, hstep, rfl, U, wf, hwin⟩ := hs'
    exact ⟨s₁, U, wf, rfl, hstep.same, hwin⟩

theorem SpacesOk.blankWindow (hboot : Boot w₀) (h : SpacesOk w₀ s) {id : ℕ} {t t' : Tenant}
    (ht : s.tenants id = some t) (hprep : t.space.prepared = false)
    (hstep : s.step (.call id .prepareForEl0) = some s') (ht' : s'.tenants id = some t')
    (hprep' : t'.space.prepared = true) : BlankWindow t' s'.world := by
  have hq := h.quiet
  have hok' := (h.step hboot hstep).1
  have hl' := hok'.lives id t' ht'
  obtain ⟨U', wf', hm'⟩ := hl'.mapped hprep'
  rw [Spaces.step, ht, Option.map_some] at hstep
  change some (s.called id t .prepareForEl0 (prepareForEl0 (t.sys s.quiet))) = some s' at hstep
  have hspec := (hq.lives id t ht).prepare_windowed (hq.kernelOk hboot).1 hq.pool hprep
  rcases hrun : prepareForEl0 (t.sys s.quiet) with ⟨a, s₂⟩ | ⟨e, s₂⟩
  · obtain ⟨s₁, U, wf, rfl, hsame, hwin⟩ := hspec.ok hrun
    rw [hrun] at hstep
    cases hstep
    have heq : t' = t.after .prepareForEl0 (s₁.flags s₁.space.packetPoolMapped true).space true :=
      Option.some.inj (ht'.symm.trans (Function.update_self (f := s.tenants) id _))
    have hwindow : t'.space.window = s₁.space.window := by rw [heq]; rfl
    have hpages : t'.space.window.pages = t.space.window.pages :=
      congrArg UserWindow.pages (hwindow.trans hsame.window)
    intro i hi o ho
    have hlt := hl'.pageVa_lt hm' hi
    have hbase : t'.space.window.base % pageSize = 0 := by
      rw [hl'.base]
      exact userVaBase_aligned _
    obtain ⟨hdiv, hmod⟩ := pageVa_page hbase (i := i) ho
    have hmapped := hwin.window.mapped i (hpages ▸ hi)
    rw [← hwindow, hl'.vpage_pageVa hm' hi, ← hdiv] at hmapped
    have hview := hwin.prepared.view (t'.space.window.pageVa i + o) (by omega)
    rw [hmapped, hmod] at hview
    have hbyte := hwin.zero i (hpages ▸ hi) _ (pageOf_add (phys_mod hok'.pool.base (wf i)) ho)
    refine ⟨_, (.normalWb, s₁.space.window.perms i), ?_, hbyte⟩
    rw [heq] at hview ⊢
    exact hview
  · rw [hrun] at hstep
    cases hstep
    have heq : t' = t.after .prepareForEl0 s₂.space false :=
      Option.some.inj (ht'.symm.trans (Function.update_self (f := s.tenants) id _))
    rw [heq] at hprep'
    exact absurd ((hspec.error hrun).symm.trans hprep') (by simp)

/-- Along every run of creations, calls and destructions: a prepared space keeps what the
kernel maps and maps its window and its regions; no frame of a space is within reach of EL0
in another, as long as no region asks for one; no operation stores into a table of the
kernel or a frame of another space; and `prepare_for_el0` maps blank pages. -/
theorem spaces_isolated (hboot : Boot w₀)
    (hdenied : ∀ v d, kernelView w₀ v = some d → d.2.2.user = false) (hs : Runs w₀ s) :
    (∀ id t, s.tenants id = some t → t.space.prepared = true → Isolated w₀ s.world t) ∧
    (AskedApart s → ∀ id id' t t', id ≠ id' → s.tenants id = some t → s.tenants id' = some t' →
      t.space.prepared = true → ∀ f ∈ t'.space.owned, ∀ v d, Accessible t s.world v d →
        pageOf d.1 ≠ s.world.phys f) ∧
    ∀ op s', s.step op = some s' →
      (∀ st ∈ s'.world.stores, ∀ a, st.1 ≤ a → a < st.1 + st.2 → StoreAllowed s' op.actor a) ∧
      ∀ t t', op = .call op.actor .prepareForEl0 → s.tenants op.actor = some t →
        t.space.prepared = false → s'.tenants op.actor = some t' → t'.space.prepared = true →
        BlankWindow t' s'.world := by
  have hok := runs_ok hboot hs
  refine ⟨fun id t ht hp => (hok.lives id t ht).isolated hdenied hp,
    fun hasked id id' t t' hne ht ht' hp f hf v d hd =>
      hok.out_of_reach hdenied hasked hne ht ht' hp hf hd, fun op s' hstep => ⟨?_, ?_⟩⟩
  · obtain ⟨hok', hstores⟩ := hok.step hboot hstep
    intro st hst a hle hlt
    obtain ⟨hlen, t, ht, f, hf, hpage⟩ := hstores st hst
    refine hok'.storeAllowed hboot ht hf ?_
    rw [← hpage]
    unfold pageOf frameSize at *
    omega
  intro t t' hop ht hprep ht' hprep'
  rw [hop] at hstep
  exact hok.blankWindow hboot ht hprep hstep ht' hprep'

/-- A prepared space of the blank world next to another one. -/
theorem spaces_isolated_two : Boot blankWorld ∧
    (∀ v d, kernelView blankWorld v = some d → d.2.2.user = false) ∧
    ∃ s t t', Runs blankWorld s ∧ s.tenants 0 = some t ∧ t.space.prepared = true ∧
      s.tenants 1 = some t' ∧ t'.space.owned ≠ [] ∧ Isolated blankWorld s.world t ∧
      (∀ f ∈ t'.space.owned, ∀ v d, Accessible t s.world v d → pageOf d.1 ≠ s.world.phys f) ∧
      ∃ s', s.step (.call 0 (.pokeUser 4094 [1, 2, 3])) = some s' ∧
        ∀ st ∈ s'.world.stores, ∀ a, st.1 ≤ a → a < st.1 + st.2 → StoreAllowed s' 0 a := by
  have hdenied : ∀ v d, kernelView blankWorld v = some d → d.2.2.user = false := by
    intro v d hd
    rw [kernelView_blank] at hd
    cases hd
  obtain ⟨s, t, t', hs, ht, hp, hasked, -, -, -, -, ht', howned⟩ := blank_prepared
  obtain ⟨hisolated, hapart, hsteps⟩ := spaces_isolated blankWorld_boot hdenied hs
  have hnone : AskedApart s := by
    intro id u hu r hr
    rw [hasked id u hu] at hr
    cases hr
  obtain ⟨s', hpoke⟩ : ∃ s', s.step (.call 0 (.pokeUser 4094 [1, 2, 3])) = some s' :=
    ⟨_, by rw [Spaces.step, ht, Option.map_some]⟩
  exact ⟨blankWorld_boot, hdenied, s, t, t', hs, ht, hp, ht',
    List.ne_nil_of_length_pos (by rw [howned]; decide), hisolated 0 t ht hp,
    hapart hnone 0 1 t t' (by decide) ht ht' hp, s', hpoke, (hsteps _ s' hpoke).1⟩

end Isolation

end HarborKernel.AddressSpaces
