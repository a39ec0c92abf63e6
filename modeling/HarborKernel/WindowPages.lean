import HarborKernel.PreparedSpace
import Mathlib.Data.List.Nodup

/-!
The user window: `map_user_window` puts every page of it into a frame of its own,
blank, and records the frames of the text. Nothing that runs later turns such a
frame into a table.
-/

namespace HarborKernel.AddressSpaces

open Function ByteWords ErrorState Paging PageWalk

def Spared {τ : Type} (g : Sys → τ) : Prop :=
  ∀ (s : Sys) (w : World) (owned : List ℕ), g ⟨{ s.space with owned := owned }, w⟩ = g s

def FrameErrors (P : AsError → Prop) : Prop := P .outOfFrames ∧ P .ledgerFull ∧ P .badTable

section Spared

variable {τ : Type} {g : Sys → τ} {P : AsError → Prop}

theorem tame_takeFrame (hg : Spared g) (hP : FrameErrors P) : Tame g P takeFrame := by
  intro s
  unfold takeFrame
  rw [wp_bind, wp_get]
  rcases s.world.frames.alloc with _ | ⟨idx, frames⟩
  · exact ⟨rfl, hP.1⟩
  dsimp only
  rw [wp_bind, wp_set]
  split
  · exact ⟨hg s _ s.space.owned, hP.2.1⟩
  · exact hg s _ _

theorem tame_writeEntry (hg : Spared g) (t i : ℕ) (entry : UInt64) :
    Tame g P (writeEntry t i entry) := .modify fun s => hg s _ s.space.owned

theorem tame_zeroFrame (hg : Spared g) (t : ℕ) : Tame g P (zeroFrame t) :=
  .modify fun s => hg s _ s.space.owned

section

variable (hg : Spared g) (hP : FrameErrors P)
include hg hP

theorem tame_descend (level : Level) (va t : ℕ) :
    Tame g P (descend level va t) := by
  refine .get_bind fun s => ?_
  dsimp only
  split
  · refine .bind (tame_takeFrame hg hP) fun phys => .bind (tame_zeroFrame hg phys) fun _ => ?_
    split
    · exact .throw hP.2.2
    · exact .bind (tame_writeEntry hg _ _ _) fun _ => .pure phys
  split
  · exact .pure _
  · exact .throw hP.2.2

theorem tame_mapL3Page (va pa : ℕ) (kind : MemKind)
    (perms : Perms) : Tame g P (mapL3Page va pa kind perms) := by
  refine .get_bind fun s => .bind (tame_descend hg hP _ _ _) fun l2 =>
    .bind (tame_descend hg hP _ _ _) fun l3 => .get_bind fun s' => ?_
  split
  · exact .throw hP.2.2
  split
  · exact .throw hP.2.2
  · exact tame_writeEntry hg _ _ _

theorem tame_mapPages (kind : MemKind) (perms : Perms)
    (n : ℕ) : ∀ va pa, Tame g P (mapPages kind perms n va pa) := by
  induction n with
  | zero => exact fun _ _ => .pure ()
  | succ n ih => exact fun va pa => .bind (tame_mapL3Page hg hP _ _ _ _) fun _ => ih _ _

theorem tame_mapPoolFrom (hunaligned : P .unaligned)
    (pages : List ℕ) : ∀ va, Tame g P (mapPoolFrom pages va) := by
  induction pages with
  | nil => exact fun _ => .pure ()
  | cons p rest ih =>
    intro va
    rw [mapPoolFrom]
    split
    · exact .throw hunaligned
    · exact .bind (tame_mapL3Page hg hP _ _ _ _) fun _ => ih _

end

end Spared

abbrev Sys.textPhys (s : Sys) : ℕ → ℕ := s.space.textPhys

theorem spared_textPhys : Spared Sys.textPhys := fun _ _ _ => rfl

theorem frameErrors_all : FrameErrors fun _ => True := ⟨trivial, trivial, trivial⟩

variable {D : ℕ → Prop} {k k₂ k₃ kroot : ℕ} {s : Sys} {w : World} {window : UserWindow} {e : Tables}

theorem SpecE.keep {α : Type} {x : As α} {Q : α → Sys → Prop} {E : AsError → Sys → Prop}
    (h : SpecE D k x s Q E) {P : AsError → Prop} (ht : Tame Sys.textPhys P x) :
    SpecE D k x s (fun a s' => (Step D k s s' ∧ s'.space.textPhys = s.space.textPhys) ∧ Q a s') E :=
  wp.mono (wp.and h (ht s)) (fun _ _ hh => ⟨hh.1.1, ⟨hh.1.1, hh.2⟩, hh.1.2⟩) fun _ _ hh => hh.1

theorem Step.quiet (h : SysOk s) (textPhys : ℕ → ℕ) (userSp : ℕ) :
    Step D 0 s { s with space := { s.space with textPhys := textPhys, userSp := userSp } } :=
  ⟨⟨⟨rfl, rfl, rfl, rfl, rfl, rfl, rfl, rfl, rfl, rfl, rfl⟩, ⟨h.pool, h.ledger⟩,
    List.prefix_refl _, fun _ hf => .inl hf, List.suffix_refl _, fun _ _ => rfl,
    fun _ hst => .inl hst⟩, fun _ hf => .inl hf, le_rfl⟩

def UserWindow.pageVa (w : UserWindow) (i : ℕ) : ℕ := w.base + i * pageSize

def UserWindow.perms (w : UserWindow) (i : ℕ) : Perms :=
  if w.isTextPage i then Perms.userRx else Perms.userRw

structure WindowOk (s : Sys) (U : ℕ → Option Translation) (wf : ℕ → ℕ) (n : ℕ) : Prop where
  owned : ∀ i < n, wf i ∈ s.owned
  inj : ∀ i < n, ∀ j < n, wf i = wf j → i = j
  data : ∀ i < n, ¬s.IsTable (s.phys (wf i))
  text : ∀ i < n, s.space.window.isTextPage i = true → s.space.textPhys i = s.phys (wf i)
  mapped : ∀ i < n, U (vpage (s.space.window.pageVa i)) =
    some (s.phys (wf i), .normalWb, s.space.window.perms i)

structure Windowed (K : ℕ → Option Translation) (s : Sys) (U : ℕ → Option Translation)
    (wf : ℕ → ℕ) (n : ℕ) : Prop where
  prepared : Prepared K s U
  window : WindowOk s U wf n
  zero : ∀ i < n, ∀ a, pageOf a = s.phys (wf i) → s.world.mem a = 0
  only : ∀ p d, U p = some d → ∃ i < n, p = vpage (s.space.window.pageVa i)

variable {K : ℕ → Option Translation} {s s₁ s₂ : Sys} {U U' : ℕ → Option Translation}
  {wf : ℕ → ℕ} {D : ℕ → Prop} {n i f : ℕ}

theorem WindowOk.added (h : WindowOk s U wf n) (howned : s.owned ⊆ s₁.owned)
    (hphys : ∀ f, s₁.phys f = s.phys f) (hwindow : s₁.space.window = s.space.window)
    (hnew : ∀ t, s₁.IsTable t → s.IsTable t ∨ NewPage s s₁ t)
    (htext : s₁.space.textPhys = s.space.textPhys) (hmono : ∀ p d, U p = some d → U' p = some d) :
    WindowOk s₁ U' wf n := by
  refine ⟨fun i hi => howned (h.owned i hi), h.inj, fun i hi ht => ?_, fun i hi htp => ?_,
    fun i hi => ?_⟩
  · rw [hphys] at ht
    rcases hnew _ ht with ht | ⟨f, -, hf, heq⟩
    · exact h.data i hi ht
    · exact hf (phys_inj heq ▸ h.owned i hi)
  · rw [hwindow] at htp
    rw [htext, hphys]
    exact h.text i hi htp
  · rw [hwindow, hphys]
    exact hmono _ _ (h.mapped i hi)

/-- The frames of a window are distinct frames of the ledger. -/
theorem WindowOk.le_owned (h : WindowOk s U wf n) : n ≤ s.owned.length := by
  have hnodup : ((List.range n).map wf).Nodup :=
    List.Nodup.map_on (fun i hi j hj heq => h.inj i (List.mem_range.1 hi) j (List.mem_range.1 hj)
      heq) List.nodup_range
  have hsub : (List.range n).map wf ⊆ s.owned := fun f hf => by
    obtain ⟨i, hi, rfl⟩ := List.mem_map.1 hf
    exact h.owned i (List.mem_range.1 hi)
  have hlen := hnodup.length_le_of_subset hsub
  rwa [List.length_map, List.length_range] at hlen

theorem isTable_of_tables (hroot : s₁.root = s.root)
    (hsame : ∀ t, s.IsTable t → ∀ i, s₁.tables t i = s.tables t i) {t : ℕ} (ht : s₁.IsTable t) :
    s.IsTable t := by
  obtain ⟨l, v, ht⟩ := ht
  rw [hroot, tableFrom_congr (fun l t ht => hsame t ⟨l, v, ht⟩ _) l] at ht
  exact ⟨l, v, ht⟩

def recorded (window : UserWindow) (s : Sys) (i phys : ℕ) : ℕ → ℕ :=
  if window.isTextPage i then update s.space.textPhys i phys else s.space.textPhys

theorem recordText_run (window : UserWindow) (i phys : ℕ) (s : Sys) :
    recordText window i phys s =
      .ok () { s with space := { s.space with textPhys := recorded window s i phys } } := by
  unfold recorded
  change EStateM.Result.ok () (ite ..) = _
  cases window.isTextPage i
  · rfl
  · rfl

structure Blanked (s s₁ : Sys) (i f : ℕ) : Prop where
  owned : s₁.owned = s.owned ++ [f]
  new : f ∉ s.owned
  tables : s₁.tables = fillTable s.tables (s.phys f) fun _ => 0
  zero : ∀ a, pageOf a = s.phys f → s₁.world.mem a = 0
  mem : ∀ a, pageOf a ≠ s.phys f → s₁.world.mem a = s.world.mem a
  text : s₁.space.textPhys = recorded s.space.window s i (s.phys f)

theorem Blanked.tables_same (hb : Blanked s s₁ i f) (htree : Tree s) (t : ℕ) (ht : s.IsTable t)
    (j : ℕ) : s₁.tables t j = s.tables t j := by
  have hne : t ≠ s.phys f := by
    rintro rfl
    exact htree.not_isTable hb.new ht
  rw [hb.tables, fillTable_of_ne hne]

theorem Blanked.grows (hb : Blanked s s₁ i f) (htree : Tree s) (hstep : Within D s s₁) :
    Grows s s₁ :=
  .of_tables htree hstep.same.root hstep.owned.subset hstep.same.phys (hb.tables_same htree)

theorem Windowed.page (h : Windowed K s U wf i) (hb : Blanked s s₁ i f) (hstep : Within D s s₁)
    (hstep' : Within s₁.IsTable s₁ s₂) (htext : s₂.space.textPhys = s₁.space.textPhys)
    (hinst : Installed s₁ (s.space.window.pageVa i) (s.phys f) .normalWb (s.space.window.perms i)
      s₂) :
    Windowed K s₂ (update U (vpage (s.space.window.pageVa i))
      (some (s.phys f, .normalWb, s.space.window.perms i))) (update wf i f) (i + 1) := by
  have hgrow := hb.grows h.prepared.tree hstep
  have hprep := h.prepared.grows hgrow
  have hunused := hprep.unused hinst
  have hphys : ∀ g, s₂.phys g = s.phys g := fun g => (hstep'.same.phys g).trans (hstep.same.phys g)
  have hwindow : s₂.space.window = s.space.window := hstep'.same.window.trans hstep.same.window
  have hf₁ : f ∈ s₁.owned := by
    rw [hb.owned]
    exact List.mem_append_right _ List.mem_cons_self
  -- The frames of the window, old and new.
  have hwf : ∀ j, j < i → update wf i f j = wf j := fun j hj =>
    update_of_ne (Nat.ne_of_lt hj) _ _
  have hself : update wf i f i = f := update_self ..
  have hsplit : ∀ j, j < i + 1 → j < i ∨ j = i := fun j hj => by omega
  have hdata : ∀ g, g ∈ s₁.owned → ¬s.IsTable (s.phys g) → ¬s₂.IsTable (s.phys g) := by
    intro g hg hnot ht
    rcases hinst.newTable _ ht with ht | ⟨g', -, hg', heq⟩
    · exact hnot (isTable_of_tables hstep.same.root (hb.tables_same h.prepared.tree) ht)
    · rw [hstep.same.phys] at heq
      exact hg' (phys_inj heq ▸ hg)
  have hkeep : ∀ g, g ∈ s₁.owned → ¬s.IsTable (s.phys g) → ∀ a, pageOf a = s.phys g →
      s₂.world.mem a = s₁.world.mem a := by
    intro g hg hnot a ha
    refine hstep'.mem a fun hh => ?_
    rw [ha] at hh
    rcases hh with ht | ⟨g', -, hg', heq⟩
    · exact hnot (isTable_of_tables hstep.same.root (hb.tables_same h.prepared.tree) ht)
    · rw [hstep.same.phys] at heq
      exact hg' (phys_inj heq ▸ hg)
  have hnotf : ¬s.IsTable (s.phys f) := h.prepared.tree.not_isTable hb.new
  have hold : ∀ j, j < i → wf j ∈ s₁.owned := fun j hj => hstep.owned.subset (h.window.owned j hj)
  refine ⟨hprep.install hinst, ⟨?_, ?_, ?_, ?_, ?_⟩, ?_, ?_⟩
  · intro j hj
    rcases hsplit j hj with hj | rfl
    · rw [hwf j hj]
      exact hstep'.owned.subset (hold j hj)
    · rw [hself]
      exact hstep'.owned.subset hf₁
  · intro j hj j' hj' heq
    rcases hsplit j hj with hj | rfl <;> rcases hsplit j' hj' with hj' | rfl
    · rw [hwf j hj, hwf j' hj'] at heq
      exact h.window.inj j hj j' hj' heq
    · rw [hwf j hj, hself] at heq
      exact absurd (heq ▸ h.window.owned j hj) hb.new
    · rw [hwf j' hj', hself] at heq
      exact absurd (heq ▸ h.window.owned j' hj') hb.new
    · rfl
  · intro j hj
    rw [hphys]
    rcases hsplit j hj with hj | rfl
    · rw [hwf j hj]
      exact hdata _ (hold j hj) (h.window.data j hj)
    · rw [hself]
      exact hdata f hf₁ hnotf
  · intro j hj htp
    rw [hwindow] at htp
    rw [htext, hb.text, hphys, recorded]
    rcases hsplit j hj with hj | rfl
    · rw [hwf j hj, ← h.window.text j hj htp]
      split
      · rw [update_of_ne (Nat.ne_of_lt hj)]
      · rfl
    · rw [if_pos htp, update_self, hself]
  · intro j hj
    rw [hwindow, hphys]
    rcases hsplit j hj with hj | rfl
    · have hne : vpage (s.space.window.pageVa j) ≠ vpage (s.space.window.pageVa i) := by
        intro heq
        have hm := h.window.mapped j hj
        rw [heq, hunused] at hm
        cases hm
      rw [update_of_ne hne, hwf j hj]
      exact h.window.mapped j hj
    · rw [update_self, hself]
  · intro j hj a ha
    rw [hphys] at ha
    rcases hsplit j hj with hj | rfl
    · rw [hwf j hj] at ha
      have hne : pageOf a ≠ s.phys f := by
        rw [ha]
        exact fun heq => hb.new (phys_inj heq ▸ h.window.owned j hj)
      rw [hkeep _ (hold j hj) (h.window.data j hj) a ha, hb.mem a hne]
      exact h.zero j hj a ha
    rw [hself] at ha
    rw [hkeep f hf₁ hnotf a ha]
    exact hb.zero a ha
  · intro p d hp
    rw [hwindow]
    by_cases hpi : p = vpage (s.space.window.pageVa i)
    · exact ⟨i, Nat.lt_succ_self i, hpi⟩
    rw [update_of_ne hpi] at hp
    obtain ⟨j, hj, hpj⟩ := h.only p d hp
    exact ⟨j, by omega, hpj⟩

/-- What can be in the way of a window of `n` pages: a mapping of the kernel, the window
itself when it goes round the address space, or frames beyond 48 bits. -/
def Blocked (K : ℕ → Option Translation) (w : World) (window : UserWindow) (n : ℕ) : Prop :=
  (∃ j < n, K (window.pageVa j % vaLimit) ≠ none) ∨
  (∃ j < n, ∃ j' < j, vpage (window.pageVa j) = vpage (window.pageVa j')) ∨
  ∃ f < w.frames.capacity, 2 ^ 48 ≤ w.phys f

theorem Blocked.mono {m : ℕ} (h : Blocked K w window n) (hm : n ≤ m) : Blocked K w window m := by
  rcases h with ⟨j, hj, h⟩ | ⟨j, hj, h⟩ | h
  · exact .inl ⟨j, by omega, h⟩
  · exact .inr (.inl ⟨j, by omega, h⟩)
  · exact .inr (.inr h)

theorem Blocked.congr (h : Blocked K s₁.world window n) (hsame : SameFrame s s₁) :
    Blocked K s.world window n := by
  rcases h with h | h | ⟨f, hf, h⟩
  · exact .inl h
  · exact .inr (.inl h)
  · exact .inr (.inr ⟨f, hsame.capacity ▸ hf, h.trans (hsame.phys f).le⟩)

theorem translate_mod (s : Sys) (va : ℕ) : s.translate (va % vaLimit) =
    leafAt (lastFrom s.tables .L1 s.root va).2 (lastFrom s.tables .L1 s.root va).1
      (va % vaLimit) := by
  have hlast : lastFrom s.tables .L1 s.root (va % vaLimit) = lastFrom s.tables .L1 s.root va := by
    unfold lastFrom resolve
    simp only [index_mod]
  rw [Sys.translate, PageWalk.translate,
    if_neg (Nat.not_le.2 (Nat.mod_lt _ (by decide))), hlast]

/-- A page is refused where there is one, or because of frames beyond 48 bits. -/
theorem Refused.cause {va : ℕ} (h : Refused s va) (hok : SysOk s) :
    s.translate (va % vaLimit) ≠ none ∨ ∃ f < s.world.frames.capacity, 2 ^ 48 ≤ s.phys f := by
  rcases h with hleaf | ⟨f, hf, hdesc⟩
  · left
    rw [translate_mod, leafAt, decodeLeaf, hleaf]
    exact (by simp)
  refine .inr ⟨f, hf, ?_⟩
  have hmod := phys_mod hok.pool.base f
  unfold tableDescriptor at hdesc
  by_contra hlt
  rw [if_neg] at hdesc
  · cases hdesc
  rintro (hbad | hbad)
  · exact hbad hmod
  · exact hlt hbad

/-- A page of the window is refused only when something is in its way. -/
theorem Windowed.blocked (h : Windowed K s U wf i) (hok : SysOk s)
    (hrefused : Refused s (s.space.window.pageVa i)) :
    Blocked K s.world s.space.window (i + 1) := by
  rcases hrefused.cause hok with htrans | hphys
  · rw [h.prepared.view _ (Nat.mod_lt _ (by decide))] at htrans
    cases hU : U (vpage (s.space.window.pageVa i)) with
    | none =>
      rw [vpage] at hU
      simp only [hU] at htrans
      exact .inl ⟨i, Nat.lt_succ_self i, htrans⟩
    | some d =>
      obtain ⟨j, hj, heq⟩ := h.only _ d hU
      exact .inr (.inl ⟨i, Nat.lt_succ_self i, j, hj, heq⟩)
  · exact .inr (.inr hphys)

theorem leaf_phys (hbase : w.poolBase % frameSize = 0) {kind : MemKind} {perms : Perms}
    (h : leaf .L3 (w.phys f) kind perms = none) : 2 ^ 48 ≤ w.phys f := by
  by_contra hlt
  unfold leaf at h
  rw [if_neg] at h
  · cases h
  rintro (hbad | hbad)
  · exact hbad (phys_mod hbase f)
  · exact hlt hbad

theorem mapWindowPage_spec (hok : SysOk s) (h : Windowed K s U wf i)
    (hk₂ : tableFrom s.tables .L1 s.root .L2 (s.space.window.pageVa i) = none → 1 ≤ k₂)
    (hk₃ : tableFrom s.tables .L1 s.root .L3 (s.space.window.pageVa i) = none → 1 ≤ k₃)
    (halign : s.space.window.pageVa i % pageSize = 0) :
    SpecE s.IsTable (1 + (k₂ + k₃)) (mapWindowPage i) s
      (fun _ s' => (∃ U' wf', Windowed K s' U' wf' (i + 1)) ∧
        (∀ t, s'.IsTable t → s.IsTable t ∨ NewPage s s' t) ∧
        Near s' (s.space.window.pageVa (i + 1)))
      (fun e _ => e = .badTable → Blocked K s.world s.space.window (i + 1)) := by
  unfold mapWindowPage SpecE
  rw [wp_bind, wp_get]
  refine SpecE.bind (SpecE.mono ((takeFrame_specE (D := s.IsTable) hok).keep
    (tame_takeFrame spared_textPhys frameErrors_all))
    (fun _ hh => hh) le_rfl (fun _ _ _ hQ => hQ) fun _ _ _ he hbad => absurd hbad he.1)
    fun p s₁ hst₁ hs₁ => ?_
  obtain ⟨⟨-, htext₁⟩, f, rfl, howned₁, hfree, hnew, hmem₁⟩ := hs₁
  have hpage₁ : NewPage s s₁ (s.phys f) := by
    refine ⟨f, ?_, hnew, rfl⟩
    rw [howned₁]
    exact List.mem_append_right _ List.mem_cons_self
  rw [← Nat.zero_add (k₂ + k₃)]
  refine SpecE.bind (Q := fun _ s' => s' = { s₁ with space := { s₁.space with
    textPhys := recorded s.space.window s₁ i (s.phys f) } }) ?_ fun _ s₂ hst₂ hs₂ => ?_
  · exact SpecE.of_ok (recordText_run ..) (.quiet hst₁.ok _ _) rfl
  rw [← Nat.zero_add (k₂ + k₃)]
  refine SpecE.bind (SpecE.mono ((zeroFrame_specE (D := (· = s.phys f)) (E := fun _ _ => False)
    hst₂.ok (phys_mod hok.pool.base f) rfl).keep (P := fun _ => True)
    (tame_zeroFrame spared_textPhys _)) ?_ le_rfl
    (fun _ _ _ hQ => hQ) fun _ _ _ hE => hE.elim) fun _ s₃ hst₃ hs₃ => ?_
  · rintro t rfl
    exact .inl (.inr hpage₁)
  obtain ⟨⟨hwrite, htext₃⟩, htables₃, howned₃, hzero₃⟩ := hs₃
  have hst₃' : Step (fun t => s.IsTable t ∨ NewPage s s₂ t) 0 s₂ s₃ := by
    refine hst₃.mono ?_ le_rfl
    rintro t ((ht | ht) | ht)
    · exact .inl ht
    · exact .inr (hst₂.newPage_left ht)
    · exact .inr (hst₁.newPage_right ht)
  have hstep := (hst₁.trans hst₂).trans hst₃'
  have hmem₂ : s₂.world.mem = s.world.mem := by
    rw [hs₂]
    exact hmem₁
  have hb : Blanked s s₃ i f := by
    refine ⟨?_, hnew, ?_, hzero₃, fun a ha => ?_, ?_⟩
    · rw [howned₃, hs₂, ← howned₁]
    · rw [htables₃]
      unfold Sys.tables
      rw [hmem₂]
    · rw [hwrite.mem a, hmem₂]
      rintro (hh | ⟨g, hg, hg', -⟩)
      · exact ha hh
      · exact hg' (howned₃ ▸ hg)
    · rw [htext₃, hs₂]
      unfold recorded
      rw [htext₁]
  have hgrow := hb.grows h.prepared.tree hstep.toWithin
  have hwindow : s₃.space.window = s.space.window := hstep.same.window
  have hkept : ∀ l, tableFrom s₃.tables .L1 s₃.root l (s.space.window.pageVa i) = none →
      tableFrom s.tables .L1 s.root l (s.space.window.pageVa i) = none := by
    intro l hnone
    cases hold : tableFrom s.tables .L1 s.root l (s.space.window.pageVa i) with
    | none => rfl
    | some x =>
      rw [hgrow.stays l _ x hold] at hnone
      cases hnone
  refine SpecE.mono ((mapL3Page_spec hstep.ok hgrow.tree (fun hh => hk₂ (hkept _ hh))
    fun hh => hk₃ (hkept _ hh)).keep
    (tame_mapL3Page spared_textPhys frameErrors_all _ _ _ _)) (fun t ht => ?_) le_rfl
    (fun _ s₄ _ hs₄ => ?_) fun e s₄ _ he hbad => ?_
  · exact .inl (.inl (.inl (isTable_of_tables hstep.same.root
      (hb.tables_same h.prepared.tree) ht)))
  · obtain ⟨⟨hst₄, htext₄⟩, hinst⟩ := hs₄
    refine ⟨⟨_, _, h.page hb hstep.toWithin hst₄.toWithin htext₄ hinst⟩, fun t ht => ?_, ?_⟩
    · rcases hinst.newTable t ht with ht | ht
      · exact (hgrow.newTable t ht).imp_right hst₄.newPage_left
      · exact .inr (hstep.newPage_right ht)
    have hnear := hinst.near halign
    unfold UserWindow.pageVa at *
    rwa [Nat.succ_mul, ← Nat.add_assoc]
  · rcases he.2 hbad with hr | hleaf
    · exact h.blocked hok (hr.of_grows hgrow hstep.same)
    · exact .inr (.inr ⟨f, hok.pool.free_lt f hfree, leaf_phys hok.pool.base hleaf⟩)

theorem pageVa_succ (w : UserWindow) (i : ℕ) : w.pageVa (i + 1) = w.pageVa i + pageSize := by
  unfold UserWindow.pageVa
  rw [Nat.succ_mul, Nat.add_assoc]

theorem pageVa_aligned {w : UserWindow} (h : w.base % pageSize = 0) (i : ℕ) :
    w.pageVa i % pageSize = 0 := by
  unfold UserWindow.pageVa
  rw [Nat.add_mul_mod_self_right, h]

def MapsWindow (K : ℕ → Option Translation) (n i : ℕ) (s : Sys) (k : ℕ) : Prop :=
  SpecE s.IsTable k (mapWindowFrom n i) s
    (fun _ s' => (∃ U' wf', Windowed K s' U' wf' (i + n)) ∧
      ∀ t, s'.IsTable t → s.IsTable t ∨ NewPage s s' t)
    (fun e _ => e = .badTable → Blocked K s.world s.space.window (i + n))

theorem MapsWindow.cons (hok : SysOk s) (h : Windowed K s U wf i)
    (hbase : s.space.window.base % pageSize = 0)
    (hk₂ : tableFrom s.tables .L1 s.root .L2 (s.space.window.pageVa i) = none → 1 ≤ k₂)
    (hk₃ : tableFrom s.tables .L1 s.root .L3 (s.space.window.pageVa i) = none → 1 ≤ k₃)
    (hrest : ∀ s₁ U₁ wf₁, SysOk s₁ → Windowed K s₁ U₁ wf₁ (i + 1) →
      s₁.space.window = s.space.window → Near s₁ (s₁.space.window.pageVa (i + 1)) →
      MapsWindow K n (i + 1) s₁ k) : MapsWindow K (n + 1) i s (1 + (k₂ + k₃) + k) := by
  unfold MapsWindow
  rw [mapWindowFrom, show i + (n + 1) = i + 1 + n by omega]
  refine SpecE.bind (SpecE.mono (mapWindowPage_spec hok h hk₂ hk₃ (pageVa_aligned hbase i))
    (fun _ hh => hh) le_rfl (fun _ _ hst hQ => (⟨hst, hQ⟩ : _ ∧ _))
    fun e s' _ he hbad => (he hbad).mono (Nat.le_add_right _ _)) fun _ s₁ _ hs₁ => ?_
  obtain ⟨hst₁, ⟨U₁, wf₁, h₁⟩, hnew₁, hnear₁⟩ := hs₁
  rw [← hst₁.same.window] at hnear₁
  refine SpecE.mono (hrest s₁ U₁ wf₁ hst₁.ok h₁ hst₁.same.window hnear₁)
    (fun t ht => hnew₁ t ht) le_rfl (fun _ s₂ hst₂ hs₂ => ⟨hs₂.1, fun t ht => ?_⟩)
    fun e s₂ _ he hbad => ?_
  · rcases hs₂.2 t ht with ht | ht
    · exact (hnew₁ t ht).imp_right hst₂.newPage_left
    · exact .inr (hst₁.newPage_right ht)
  · have hblocked := (he hbad).congr hst₁.same
    rwa [hst₁.same.window] at hblocked

theorem mapWindowFrom_tail (n : ℕ) :
    ∀ (i : ℕ) (s : Sys) (U : ℕ → Option Translation) (wf : ℕ → ℕ), SysOk s → Windowed K s U wf i →
      s.space.window.base % pageSize = 0 → Near s (s.space.window.pageVa i) →
      MapsWindow K n i s (n + tailCost (s.space.window.pageVa i) n) := by
  induction n with
  | zero =>
    intro i s U wf hok h _ _
    exact SpecE.mono (SpecE.pure hok ⟨⟨U, wf, h⟩, fun _ ht => .inl ht⟩) (fun _ hh => hh)
      (Nat.zero_le _) (fun _ _ _ hQ => hQ) (E := fun _ _ => False) fun _ _ _ hE => hE.elim
  | succ n ih =>
    intro i s U wf hok h hbase hnear
    have hcost := tailCost_succ (pageVa_aligned hbase i) n
    rw [← pageVa_succ] at hcost
    have htotal : n + 1 + tailCost (s.space.window.pageVa i) (n + 1) =
        1 + ((if s.space.window.pageVa i % l1BlockSize = 0 then 1 else 0) +
          (if s.space.window.pageVa i % l2BlockSize = 0 then 1 else 0)) +
        (n + tailCost (s.space.window.pageVa (i + 1)) n) := by omega
    rw [htotal]
    refine .cons hok h hbase hnear.cost.1 hnear.cost.2 fun s₁ U₁ wf₁ hok₁ h₁ hwindow hnear₁ => ?_
    rw [← hwindow]
    exact ih (i + 1) s₁ U₁ wf₁ hok₁ h₁ (by rwa [hwindow]) hnear₁

section

variable (hok : SysOk s) (h : Windowed K s U wf 0) (hbase : s.space.window.base % pageSize = 0)
include hok h hbase

theorem mapWindowFrom_spec :
    MapsWindow K n 0 s (n + tablesFor s.space.window.base n) := by
  rcases n with _ | n
  · exact SpecE.mono (SpecE.pure hok ⟨⟨U, wf, h⟩, fun _ ht => .inl ht⟩) (fun _ hh => hh)
      (Nat.zero_le _) (fun _ _ _ hQ => hQ) (E := fun _ _ => False) fun _ _ _ hE => hE.elim
  have htotal : n + 1 + tablesFor s.space.window.base (n + 1) =
      1 + (1 + 1) + (n + tailCost (s.space.window.pageVa (0 + 1)) n) := by
    rw [tablesFor_succ, pageVa_succ, UserWindow.pageVa, Nat.zero_mul,
      Nat.add_zero s.space.window.base]
    omega
  rw [htotal]
  refine .cons hok h hbase (fun _ => le_rfl) (fun _ => le_rfl)
    fun s₁ U₁ wf₁ hok₁ h₁ hwindow hnear₁ => ?_
  rw [← hwindow]
  exact mapWindowFrom_tail n (0 + 1) s₁ U₁ wf₁ hok₁ h₁ (by rwa [hwindow]) hnear₁

theorem mapUserWindow_spec :
    SpecE s.IsTable (s.space.window.pages + tablesFor s.space.window.base s.space.window.pages)
      mapUserWindow s (fun _ s' => ∃ U' wf', Windowed K s' U' wf' s.space.window.pages)
      (fun e _ => e = .badTable → Blocked K s.world s.space.window s.space.window.pages) := by
  unfold mapUserWindow SpecE
  rw [wp_bind, wp_get, ← Nat.add_zero (_ + tablesFor _ _)]
  have hloop := mapWindowFrom_spec (n := s.space.window.pages) hok h hbase
  unfold MapsWindow at hloop
  rw [Nat.zero_add] at hloop
  refine SpecE.bind hloop fun _ s₁ hst₁ hs₁ => ?_
  obtain ⟨⟨U', wf', h'⟩, -⟩ := hs₁
  exact ⟨.quiet hst₁.ok _ _, U', wf', ⟨⟨h'.prepared.tree.1, h'.prepared.tree.2, h'.prepared.tree.3⟩,
    h'.prepared.view, h'.prepared.apart⟩, ⟨h'.window.owned, h'.window.inj, h'.window.data,
    h'.window.text, h'.window.mapped⟩, h'.zero, h'.only⟩

end

theorem Cloned.windowed (h : Cloned e .L1 kroot s.root s s₁ entriesPerTable) (hstep : Within D s s₁)
    (hf : f ∈ s.owned) (hroot : s.root = s.phys f) :
    Windowed (PageWalk.translate e kroot) s₁ (fun _ => none) wf 0 := by
  have hroot₁ : s₁.root = s.root := hstep.same.root
  have hlt : ∀ v, Level.L1.index v < entriesPerTable := Level.L1.index_lt
  refine ⟨⟨⟨?_, ?_, ?_⟩, fun v hv => ?_, fun _ _ hne => absurd rfl hne⟩,
    ⟨nofun, nofun, nofun, nofun, nofun⟩, nofun, nofun⟩
  · intro l l' v v' t ht ht'
    rw [hroot₁] at ht ht'
    exact h.separate v v' l l' t (hlt v) (hlt v') ht ht'
  · rintro t ⟨l, v, ht⟩
    rw [hroot₁] at ht
    rcases h.pages v l t (hlt v) ht with ⟨-, rfl⟩ | ⟨g, hg, -, rfl⟩
    · exact ⟨f, hstep.owned.subset hf, by rw [hstep.same.phys, hroot]⟩
    · exact ⟨g, hg, (hstep.same.phys g).symm⟩
  · intro l v t ht
    rw [hroot₁] at ht
    exact h.entries v l t (hlt v) ht
  · dsimp only
    unfold Sys.translate PageWalk.translate
    rw [if_neg (Nat.not_le.2 hv), if_neg (Nat.not_le.2 hv), hroot₁, h.last v (hlt v)]
    unfold scrub
    dsimp only
    split
    · rename_i hinv
      rw [leafAt_of_invalid hinv, leafAt_of_invalid (by decide)]
    · rfl

def prepareCost (e : Tables) (kroot : ℕ) (window : UserWindow) : ℕ :=
  countL1 e kroot + (window.pages + tablesFor window.base window.pages)

/-- `prepare_for_el0`: `B` is what may be wrong with the tables of the kernel. -/
theorem prepareForEl0_spec {B : Prop} (hok : SysOk s) (hprep : s.space.prepared = false)
    (hkroot : s.world.kernelRoot = some kroot) (hagrees : Agrees e s .L1 kroot) (hf : f ∈ s.owned)
    (hroot : s.root = s.phys f) (hbase : s.space.window.base % pageSize = 0)
    (hclone : wp (cloneL1 kroot s.root) s (fun _ _ => True) fun e _ => e = .badTable → B) :
    wp prepareForEl0 s
      (fun _ s' => ∃ s₁, Step (· = s.root) (prepareCost e kroot s.space.window) s s₁ ∧
        s' = { s₁ with space := { s₁.space with prepared := true } } ∧
        ∃ U wf, Windowed (PageWalk.translate e kroot) s₁ U wf s.space.window.pages)
      (fun er s' => Fail (· = s.root) (prepareCost e kroot s.space.window) s er s' ∧
        (er = .badTable →
          B ∨ Blocked (PageWalk.translate e kroot) s.world s.space.window
            s.space.window.pages)) := by
  unfold prepareForEl0
  rw [wp_bind, wp_get]
  simp only [hprep, hkroot, Bool.false_eq_true, if_false]
  have hclones := wp.and (clones_root e s kroot s.root f hok hagrees hf hroot) hclone
  refine wp_bind.2 (wp.mono hclones (fun _ s₁ hs₁ => ?_) fun er s₁ he =>
    ⟨he.1.mono (fun _ hh => hh) (Nat.le_add_right _ _), fun hbad => .inl (he.2 hbad)⟩)
  obtain ⟨⟨hst₁, hcloned⟩, -⟩ := hs₁
  have h₁ : Windowed (PageWalk.translate e kroot) s₁ (fun _ => none) (fun _ => 0) 0 :=
    hcloned.windowed hst₁.toWithin hf hroot
  have hwindow := hst₁.same.window
  have hD : ∀ t, s₁.IsTable t → t = s.root ∨ NewPage s s₁ t := by
    rintro t ⟨l, v, ht⟩
    rw [show s₁.root = s.root from hst₁.same.root] at ht
    exact (hcloned.pages v l t (Level.L1.index_lt v) ht).imp_left And.right
  have hmap := mapUserWindow_spec hst₁.ok h₁ (by rwa [hwindow])
  rw [hwindow] at hmap
  refine wp_bind.2 (wp.mono hmap (fun _ s₂ hs₂ => ?_) fun er s₂ he => ?_)
  · exact ⟨s₂, hst₁.trans (hs₂.1.mono hD le_rfl), rfl, hs₂.2⟩
  · exact ⟨hst₁.fail (he.1.mono hD le_rfl), fun hbad => .inr ((he.2 hbad).congr hst₁.same)⟩

end HarborKernel.AddressSpaces
