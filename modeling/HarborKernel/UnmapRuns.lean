import HarborKernel.UnmapSteps
import HarborKernel.Transition
import Mathlib.Data.Finset.Card
import Mathlib.Data.Finset.Image

/-!
Runs of `map` and `unmap`. The pages of an `unmap` are cleared one after the
other; each page splits the blocks above it that no earlier page has split. So
the whole call takes one table for every 1 GiB block and for every 2 MiB piece of
a block that the range touches, and the arena must hold that many when the first
page is cleared.
-/

namespace HarborKernel.KernelMap

open ErrorState Paging PageWalk Transition

variable {s : KernelMap} {va : ℕ}

def pages (va n : ℕ) : Finset ℕ := (Finset.range n).image fun k => va + k * pageSize

theorem pages_succ (va n : ℕ) : pages va (n + 1) = insert va (pages (va + pageSize) n) := by
  ext v
  simp only [pages, Finset.mem_image, Finset.mem_range, Finset.mem_insert]
  constructor
  · rintro ⟨k, hk, rfl⟩
    rcases k with _ | k
    · exact .inl (by omega)
    · exact .inr ⟨k, by omega, by rw [Nat.succ_mul]; omega⟩
  · rintro (rfl | ⟨k, hk, rfl⟩)
    · exact ⟨0, by omega, by omega⟩
    · exact ⟨k + 1, by omega, by rw [Nat.succ_mul]; omega⟩

variable {v n t i child : ℕ} {lv : Level} {s' : KernelMap}

theorem mem_pages (hv : v ∈ pages (va + pageSize) n) (hva : va % pageSize = 0) :
    v / pageSize ≠ va / pageSize ∧ v % pageSize = 0 ∧ v < va + (n + 1) * pageSize := by
  simp only [pages, Finset.mem_image, Finset.mem_range] at hv
  obtain ⟨k, hk, rfl⟩ := hv
  unfold pageSize at *
  omega

def touched (P : Option Level → Bool) (size : ℕ) (s : KernelMap) (X : Finset ℕ) : ℕ :=
  ((X.filter fun v => P (s.leafLevel v)).image (· / size)).card

def isL1 (level : Option Level) : Bool := level = some .L1

def isBlock (level : Option Level) : Bool := level = some .L1 ∨ level = some .L2

def tablesNeeded (s : KernelMap) (va n : ℕ) : ℕ :=
  touched isL1 l1BlockSize s (pages va n) + touched isBlock l2BlockSize s (pages va n)

def freeTables (s : KernelMap) : ℕ := (s.limit - s.next) / tableSize

private theorem card_image_insert {X : Finset ℕ} {a : ℕ} (f : ℕ → ℕ) {P P' : ℕ → Bool}
    (h : ∀ v ∈ X, P' v = true ↔ P v = true ∧ (P a = true → f v ≠ f a)) :
    (((insert a X).filter fun v => P v).image f).card =
      (if P a then 1 else 0) + ((X.filter fun v => P' v).image f).card := by
  cases ha : P a
  · have hsame : (insert a X).filter (fun v => P v) = X.filter fun v => P' v := by
      ext v
      simp only [Finset.mem_filter, Finset.mem_insert]
      constructor
      · rintro ⟨rfl | hv, hP⟩
        · rw [ha] at hP
          cases hP
        · exact ⟨hv, (h v hv).2 ⟨hP, fun hPa => by rw [ha] at hPa; cases hPa⟩⟩
      · rintro ⟨hv, hP⟩
        exact ⟨.inr hv, ((h v hv).1 hP).1⟩
    rw [hsame]
    simp
  · have hins : ((insert a X).filter fun v => P v).image f =
        insert (f a) ((X.filter fun v => P' v).image f) := by
      ext y
      simp only [Finset.mem_image, Finset.mem_filter, Finset.mem_insert]
      constructor
      · rintro ⟨v, ⟨rfl | hv, hP⟩, rfl⟩
        · exact .inl rfl
        by_cases hf : f v = f a
        · exact .inl hf
        · exact .inr ⟨v, ⟨hv, (h v hv).2 ⟨hP, fun _ => hf⟩⟩, rfl⟩
      · rintro (rfl | ⟨v, ⟨hv, hP⟩, rfl⟩)
        · exact ⟨a, ⟨.inl rfl, ha⟩, rfl⟩
        · exact ⟨v, ⟨.inr hv, ((h v hv).1 hP).1⟩, rfl⟩
    have hnew : f a ∉ (X.filter fun v => P' v).image f := by
      simp only [Finset.mem_image, Finset.mem_filter, not_exists, not_and]
      rintro v ⟨hv, hP⟩
      exact ((h v hv).1 hP).2 ha
    rw [hins, Finset.card_insert_of_notMem hnew]
    simp [Nat.add_comm]

theorem leafLevel_block (hva : va < vaLimit) (hlv : s.leafLevel va = some lv) (hv : v < vaLimit)
    (hdiv : v / lv.entrySize = va / lv.entrySize) : s.leafLevel v = some lv := by
  have hwalk : ∀ level, ∀ t, tableFrom s.tables .L1 s.root level va = some t →
      s.leafLevel v = some lv := by
    refine levels_loop ?_ ?_
    · intro t ht
      obtain ⟨rfl, hleaf⟩ := leafLevel_eq_some hlv ht rfl
      rw [leafLevel_of_leaf ht rfl ((sameSlot_iff hva hv).2 hdiv), if_pos hleaf]
    intro level next hnext ih t ht
    cases htab : isTable (s.tables t (level.index va)) level
    · obtain ⟨rfl, hleaf⟩ := leafLevel_eq_some hlv ht htab
      rw [leafLevel_of_leaf ht htab ((sameSlot_iff hva hv).2 hdiv), if_pos hleaf]
    · exact ih _ (tableFrom_step hnext ht htab)
  exact hwalk .L1 s.root rfl

theorem tablesNeeded_succ (hva : va < vaLimit) (halign : va % pageSize = 0)
    (hend : va + (n + 1) * pageSize ≤ vaLimit) (hlv : s.leafLevel va = some lv)
    (h : Cleared s va lv s') :
    tablesNeeded s va (n + 1) = splitsOf lv + tablesNeeded s' (va + pageSize) n := by
  have hblock : ∀ v, v < vaLimit → v / lv.entrySize = va / lv.entrySize →
      s.leafLevel v = some lv := fun v hv hdiv => leafLevel_block hva hlv hv hdiv
  have hlevels : ∀ v ∈ pages (va + pageSize) n, v < vaLimit ∧ s'.leafLevel v =
      if lv ≠ .L3 ∧ v / l2BlockSize = va / l2BlockSize then some .L3
      else if lv = .L1 ∧ v / l1BlockSize = va / l1BlockSize then some .L2
      else s.leafLevel v := by
    intro v hv
    obtain ⟨hpage, -, hlt⟩ := mem_pages hv halign
    have hlim : v < vaLimit := by omega
    refine ⟨hlim, ?_⟩
    rw [h.levels v hlim, if_neg hpage]
  have hone : touched isL1 l1BlockSize s (pages va (n + 1)) =
      (if isL1 (s.leafLevel va) then 1 else 0) +
        touched isL1 l1BlockSize s' (pages (va + pageSize) n) := by
    unfold touched
    rw [pages_succ]
    refine card_image_insert (P := fun v => isL1 (s.leafLevel v)) _ fun v hv => ?_
    obtain ⟨hlim, hlevel⟩ := hlevels v hv
    have hv' := hblock v hlim
    rw [hlevel, hlv]
    have hup : v / l2BlockSize = va / l2BlockSize → v / l1BlockSize = va / l1BlockSize := by
      unfold l1BlockSize l2BlockSize
      omega
    cases lv with
    | L1 =>
      by_cases h1 : v / l1BlockSize = va / l1BlockSize
      · by_cases h2 : v / l2BlockSize = va / l2BlockSize <;> simp [h1, h2, isL1]
      · have h2 : ¬v / l2BlockSize = va / l2BlockSize := fun h2 => h1 (hup h2)
        simp [h1, h2, isL1]
    | L2 =>
      by_cases h2 : v / l2BlockSize = va / l2BlockSize
      · simp [h2, isL1, hv' h2]
      · simp [h2, isL1]
    | L3 => simp [isL1]
  have htwo : touched isBlock l2BlockSize s (pages va (n + 1)) =
      (if isBlock (s.leafLevel va) then 1 else 0) +
        touched isBlock l2BlockSize s' (pages (va + pageSize) n) := by
    unfold touched
    rw [pages_succ]
    refine card_image_insert (P := fun v => isBlock (s.leafLevel v)) _ fun v hv => ?_
    obtain ⟨hlim, hlevel⟩ := hlevels v hv
    have hv' := hblock v hlim
    rw [hlevel, hlv]
    cases lv with
    | L1 =>
      by_cases h2 : v / l2BlockSize = va / l2BlockSize
      · simp [h2, isBlock]
      by_cases h1 : v / l1BlockSize = va / l1BlockSize
      · simp [h1, h2, isBlock, hv' h1]
      · simp [h1, h2, isBlock]
    | L2 =>
      by_cases h2 : v / l2BlockSize = va / l2BlockSize
      · simp [h2, isBlock]
      · simp [h2, isBlock]
    | L3 => simp [isBlock]
  rw [tablesNeeded, tablesNeeded, hone, htwo, hlv]
  cases lv <;> simp [isL1, isBlock, splitsOf, rank] <;> omega

def AllMapped (s : KernelMap) (va n : ℕ) : Prop :=
  ∀ v ∈ pages va n, v < vaLimit ∧ ∃ lv, s.leafLevel v = some lv

theorem AllMapped.head (h : AllMapped s va (n + 1)) :
    va < vaLimit ∧ ∃ lv, s.leafLevel va = some lv :=
  h va (by rw [pages_succ]; exact Finset.mem_insert_self _ _)

theorem AllMapped.end_le (h : AllMapped s va (n + 1)) (halign : va % pageSize = 0) :
    va + (n + 1) * pageSize ≤ vaLimit := by
  have hmem : va + n * pageSize ∈ pages va (n + 1) :=
    Finset.mem_image.2 ⟨n, Finset.mem_range.2 (Nat.lt_succ_self n), rfl⟩
  have hlt := (h _ hmem).1
  have hlimit : vaLimit = 2 ^ 39 := rfl
  unfold pageSize at *
  omega

theorem ensureMapped_spec (va : ℕ) :
    wp (ensureMapped va) s (fun _ s' => s' = s ∧ va < vaLimit ∧ ∃ lv, s.leafLevel va = some lv)
      (fun _ s' => s' = s ∧ ¬(va < vaLimit ∧ ∃ lv, s.leafLevel va = some lv)) := by
  unfold ensureMapped
  split
  · rename_i hva
    exact ⟨rfl, fun h => Nat.not_lt.2 hva h.1⟩
  rename_i hva
  rw [wp_bind, wp_get]
  refine (ensureFrom_spec .L1 s.root rfl).mono
    (fun _ _ h => ⟨h.1, Nat.lt_of_not_le hva, h.2⟩) fun _ _ h => ⟨h.1, ?_⟩
  rintro ⟨-, lv, hlv⟩
  rw [h.2] at hlv
  cases hlv

theorem eachPage_ensureMapped (n : ℕ) :
    ∀ va, wp (eachPage ensureMapped n va) s (fun _ s' => s' = s ∧ AllMapped s va n)
      (fun _ s' => s' = s ∧ ¬AllMapped s va n) := by
  induction n with
  | zero => exact fun va => ⟨rfl, fun v hv => absurd hv (by simp [pages])⟩
  | succ n ih =>
    intro va
    rw [eachPage, wp_bind]
    refine (ensureMapped_spec va).mono (fun _ s' hs' => ?_)
      fun _ _ h => ⟨h.1, fun hall => h.2 hall.head⟩
    obtain ⟨rfl, hfirst⟩ := hs'
    refine (ih (va + pageSize)).mono (fun _ s' hs' => ⟨hs'.1, fun v hv => ?_⟩)
      fun _ _ h => ⟨h.1, fun hall => h.2 fun v hv => hall v ?_⟩
    · rw [pages_succ, Finset.mem_insert] at hv
      rcases hv with rfl | hv
      · exact hfirst
      · exact hs'.2 v hv
    · rw [pages_succ]
      exact Finset.mem_insert_of_mem hv

theorem AllMapped.after_clear (h : AllMapped s va (n + 1)) (halign : va % pageSize = 0)
    (hclear : Cleared s va lv s') : AllMapped s' (va + pageSize) n := by
  intro v hv
  obtain ⟨hpage, -, -⟩ := mem_pages hv halign
  obtain ⟨hlim, hmapped⟩ := h v (by rw [pages_succ]; exact Finset.mem_insert_of_mem hv)
  refine ⟨hlim, ?_⟩
  rw [hclear.levels v hlim, if_neg hpage]
  split
  · exact ⟨_, rfl⟩
  split
  · exact ⟨_, rfl⟩
  · exact hmapped

theorem splitsOf_le_tablesNeeded (hlv : s.leafLevel va = some lv) :
    splitsOf lv ≤ tablesNeeded s va (n + 1) := by
  have hmem : va ∈ pages va (n + 1) := by
    rw [pages_succ]
    exact Finset.mem_insert_self _ _
  have hcount : ∀ (P : Option Level → Bool) (size : ℕ), P (some lv) = true →
      1 ≤ touched P size s (pages va (n + 1)) := by
    intro P size hP
    refine Finset.card_pos.2 ⟨va / size, Finset.mem_image_of_mem _ ?_⟩
    exact Finset.mem_filter.2 ⟨hmem, by rw [hlv, hP]⟩
  have h1 := hcount isL1 l1BlockSize
  have h2 := hcount isBlock l2BlockSize
  unfold tablesNeeded
  cases lv with
  | L1 =>
    have := h1 rfl
    have := h2 rfl
    change 2 ≤ _
    omega
  | L2 =>
    have := h2 rfl
    change 1 ≤ _
    omega
  | L3 => exact Nat.zero_le _

def Fits (s : KernelMap) (tables : ℕ) : Prop := s.next + tableSize * tables ≤ s.limit

structure Broken (s s' : KernelMap) (va n : ℕ) : Prop extends Evolves s s' where
  short : ¬Fits s (tablesNeeded s va n)
  loses : ∀ v, s'.translate v = s.translate v ∨ s'.translate v = none
  first : ∀ lv, s.leafLevel va = some lv → Fits s (splitsOf lv) → s'.translate va = none
  none_lost : ∀ lv, s.leafLevel va = some lv → ¬Fits s (splitsOf lv) → Keeps s s'

theorem Cleared.broken {s₁ : KernelMap} (hclear : Cleared s va lv s₁)
    (hlv : s.leafLevel va = some lv)
    (hneeded : tablesNeeded s va (n + 1) = splitsOf lv + tablesNeeded s₁ (va + pageSize) n)
    (h : Broken s₁ s' (va + pageSize) n) : Broken s s' va (n + 1) where
  toEvolves := hclear.toEvolves.trans h.toEvolves
  short := by
    have hshort := h.short
    unfold Fits at hshort ⊢
    rw [hclear.limit, hclear.taken] at hshort
    rw [hneeded, Nat.mul_add]
    omega
  loses := fun v => by
    rcases h.loses v with hsame | hnone
    · rw [hsame, hclear.cleared v]
      split
      · exact .inr rfl
      · exact .inl rfl
    · exact .inr hnone
  first := fun _ _ _ => by
    rcases h.loses va with hsame | hnone
    · rw [hsame, hclear.cleared va, if_pos rfl]
    · exact hnone
  none_lost := fun lv' hlv' hsmall => by
    cases hlv.symm.trans hlv'
    have hroom := hclear.inv.room
    rw [hclear.taken, hclear.limit] at hroom
    exact absurd hroom hsmall

/-- The clearing loop clears the range, or there were too few tables for it. -/
theorem eachPage_unmapPage (n : ℕ) :
    ∀ (va : ℕ) (s : KernelMap), Inv s → va % pageSize = 0 → AllMapped s va n →
      wp (eachPage unmapPage n va) s
        (fun _ s' => Evolves s s' ∧ s'.next = s.next + tableSize * tablesNeeded s va n ∧
          ∀ v, s'.translate v =
            if va ≤ v ∧ v < va + n * pageSize then none else s.translate v)
        (fun _ s' => Broken s s' va n) := by
  induction n with
  | zero =>
    intro va s h _ _
    exact ⟨.refl h, rfl, fun v => by rw [if_neg (by omega)]⟩
  | succ n ih =>
    intro va s h halign hmapped
    obtain ⟨hva, lv, hlv⟩ := hmapped.head
    rw [eachPage, wp_bind]
    have hpage : wp (unmapPage va) s (fun _ s' => Cleared s va lv s')
        (fun _ s' => Keeps s s' ∧ s.limit < s.next + tableSize * splitsOf lv) :=
      unmapFrom_spec hva .L1 s s.root lv h hlv rfl
    refine hpage.mono (fun _ s₁ hclear => ?_) fun _ s' hs' => ?_
    · have hneeded := tablesNeeded_succ hva halign (hmapped.end_le halign) hlv hclear
      refine (ih (va + pageSize) s₁ hclear.inv ?_ (hmapped.after_clear halign hclear)).mono
        (fun _ s' hs' => ?_) fun _ s' hs' => hclear.broken hlv hneeded hs'
      · unfold pageSize at *
        omega
      · obtain ⟨hev, htaken, hcleared⟩ := hs'
        refine ⟨hclear.toEvolves.trans hev, ?_, fun v => ?_⟩
        · rw [htaken, hclear.taken, hneeded, Nat.mul_add, Nat.add_assoc]
        rw [hcleared v, hclear.cleared v]
        simp only [div_eq_iff_of_aligned (by decide : 0 < pageSize) halign]
        rw [Nat.succ_mul]
        by_cases hlow : va ≤ v ∧ v < va + pageSize
        · rw [if_neg (by omega), if_pos hlow, if_pos (by omega)]
        by_cases hin : va + pageSize ≤ v ∧ v < va + pageSize + n * pageSize
        · rw [if_pos hin, if_pos (by omega)]
        · rw [if_neg hin, if_neg hlow, if_neg (by omega)]
    · obtain ⟨hkeeps, hshort⟩ := hs'
      refine ⟨hkeeps.toEvolves, fun hfits => ?_, fun v => .inl (hkeeps.same v), ?_,
        fun _ _ _ => hkeeps⟩
      · have hle := Nat.mul_le_mul_left tableSize (splitsOf_le_tablesNeeded (n := n) hlv)
        unfold Fits at hfits
        omega
      · intro lv' hlv' hfits
        cases hlv.symm.trans hlv'
        exact absurd hfits (Nat.not_le.2 hshort)

def Misfit (base len : ℕ) : Prop :=
  base % pageSize ≠ 0 ∨ len % pageSize ≠ 0 ∨ len = 0 ∨ 2 ^ 64 ≤ base + len

theorem unmap_spec (h : Inv s) (base len : ℕ) :
    wp (unmap base len) s
      (fun _ s' => Evolves s s' ∧ AllMapped s base (len / pageSize) ∧ len % pageSize = 0 ∧
        base % pageSize = 0 ∧ Fits s (tablesNeeded s base (len / pageSize)) ∧
        ∀ v, s'.translate v = if base ≤ v ∧ v < base + len then none else s.translate v)
      (fun _ s' => s' = s ∧ (s.root = 0 ∨ Misfit base len ∨ ¬AllMapped s base (len / pageSize)) ∨
        ¬Misfit base len ∧ AllMapped s base (len / pageSize) ∧ 0 < len / pageSize ∧
          Broken s s' base (len / pageSize)) := by
  unfold unmap
  rw [wp_bind, wp_get]
  split
  · rename_i hroot
    exact .inl ⟨rfl, .inl hroot⟩
  split
  · rename_i hbad
    exact .inl ⟨rfl, .inr (.inl (hbad.imp_right (Or.imp_right .inl)))⟩
  rename_i halign
  obtain ⟨hbase, halign⟩ := not_or.1 halign
  obtain ⟨hlen, hpos⟩ := not_or.1 halign
  split
  · rename_i hover
    exact .inl ⟨rfl, .inr (.inl (.inr (.inr (.inr hover))))⟩
  rename_i hover
  have hfit : ¬Misfit base len := by
    rintro (hbad | hbad | hbad | hbad)
    · exact hbase hbad
    · exact hlen hbad
    · exact hpos hbad
    · exact hover hbad
  rw [wp_bind]
  refine (eachPage_ensureMapped (len / pageSize) base).mono (fun _ s₁ hs₁ => ?_)
    fun _ s' hs' => .inl ⟨hs'.1, .inr (.inr hs'.2)⟩
  obtain ⟨rfl, hmapped⟩ := hs₁
  have hn : len / pageSize * pageSize = len :=
    Nat.div_mul_cancel (Nat.dvd_of_mod_eq_zero (not_not.1 hlen))
  refine (eachPage_unmapPage _ base s₁ h (not_not.1 hbase) hmapped).mono (fun _ s' hs' => ?_)
    fun _ s' hs' => .inr ⟨hfit, hmapped, ?_, hs'⟩
  · obtain ⟨hev, htaken, hcleared⟩ := hs'
    rw [hn] at hcleared
    refine ⟨hev, hmapped, not_not.1 hlen, not_not.1 hbase, ?_, hcleared⟩
    have hroom := hev.inv.room
    rw [htaken, hev.limit] at hroom
    exact hroom
  · refine Nat.pos_of_ne_zero fun hzero => hpos ?_
    rw [← hn, hzero, Nat.zero_mul]

inductive Op
  | map (region : Region)
  | unmap (base len : ℕ)

def step (s : KernelMap) : Op → Option KernelMap
  | .map region => some (after (map region s))
  | .unmap base len => some (after (unmap base len s))

def EmptyRoot (s : KernelMap) : Prop :=
  ∃ dram start limit, start ≠ 0 ∧ start % pageSize = 0 ∧ start + tableSize ≤ limit ∧
    limit ≤ 2 ^ 48 ∧ s = activateEmpty dram start limit

abbrev Reachable : KernelMap → Prop := Reach EmptyRoot step fun _ _ => True

theorem EmptyRoot.inv (h : EmptyRoot s) : Inv s := by
  obtain ⟨dram, start, limit, -, halign, hroom, hlimit, rfl⟩ := h
  have hentry : ∀ i, (activateEmpty dram start limit).tables start i = 0 := fun i =>
    fillTable_self dram start i fun _ => 0
  have honly : ∀ level va t,
      tableFrom (activateEmpty dram start limit).tables .L1 start level va = some t →
      level = .L1 ∧ t = start := by
    intro level va t ht
    by_cases hl : level = .L1
    · subst hl
      cases ht
      exact ⟨rfl, rfl⟩
    have hlt : rank .L1 < rank level :=
      Nat.lt_of_le_of_ne (rank_bounds level).1 fun heq => hl (rank_inj heq).symm
    obtain ⟨-, mid, -, hmid, htab, -⟩ := tableFrom_below ht le_rfl hlt
    cases hmid
    rw [hentry, isTable_zero] at htab
    cases htab
  refine ⟨?_, ?_, ?_, hroom, hlimit, ?_⟩
  · intro l l' va va' t ht ht'
    obtain ⟨rfl, -⟩ := honly l va t ht
    obtain ⟨rfl, -⟩ := honly l' va' t ht'
    exact ⟨rfl, fun k hk hlt => absurd hlt (Nat.not_lt.2 hk)⟩
  · rintro t ⟨level, va, ht⟩
    obtain ⟨-, rfl⟩ := honly level va t ht
    exact Nat.le_refl _
  · change (start + 4096) % pageSize = 0
    unfold pageSize at *
    omega
  · intro level va t ht
    obtain ⟨rfl, rfl⟩ := honly level va t ht
    exact .inl (hentry _)

theorem step_evolves (h : Inv s) {op : Op} (hstep : step s op = some s') : Evolves s s' := by
  cases op with
  | map region =>
    cases hstep
    exact wp_after.1 ((map_spec h region).mono (fun _ _ h => h.1) fun _ _ h => h)
  | unmap base len =>
    cases hstep
    refine wp_after.1 ((unmap_spec h base len).mono (fun _ _ h => h.1) fun _ s' hs' => ?_)
    rcases hs' with ⟨rfl, -⟩ | ⟨-, -, -, hbroken⟩
    · exact .refl h
    · exact hbroken.toEvolves

/-- The map was activated and keeps its invariant. -/
theorem reachable_inv (h : Reachable s) : Inv s ∧ s.root ≠ 0 := by
  refine Reach.invariant (I := fun s => Inv s ∧ s.root ≠ 0) (fun s hs => ⟨hs.inv, ?_⟩) ?_ h
  · obtain ⟨dram, start, limit, hstart, -, -, -, rfl⟩ := hs
    exact hstart
  · rintro s op s' ⟨hinv, hroot⟩ - hstep
    have hev := step_evolves hinv hstep
    exact ⟨hev.inv, by rwa [hev.root]⟩

theorem translate_ne_none (hv : v < vaLimit) (h : s.leafLevel v = some lv) :
    s.translate v ≠ none := by
  unfold KernelMap.leafLevel at h
  rw [KernelMap.translate, PageWalk.translate, if_neg (Nat.not_le.2 hv)]
  dsimp only at h
  split at h
  · rename_i hleaf
    simp [leafAt, decodeLeaf, hleaf]
  · cases h

theorem AllMapped.translate_ne_none (h : AllMapped s va n) (halign : va % pageSize = 0)
    (hlow : va ≤ v) (hhigh : v < va + n * pageSize) : s.translate v ≠ none := by
  obtain ⟨hpage, lv, hlv⟩ := h (va + (v - va) / pageSize * pageSize) <| by
    refine Finset.mem_image.2 ⟨(v - va) / pageSize, Finset.mem_range.2 ?_, rfl⟩
    exact Nat.div_lt_of_lt_mul (by rw [Nat.mul_comm]; omega)
  have hlim : v < vaLimit := by
    have hlimit : vaLimit = 2 ^ 39 := rfl
    unfold pageSize at *
    omega
  have hsame : v / pageSize = (va + (v - va) / pageSize * pageSize) / pageSize := by
    unfold pageSize at *
    omega
  refine KernelMap.translate_ne_none hlim (leafLevel_block hpage hlv hlim ?_)
  obtain ⟨q, hq⟩ := lv.pageSize_dvd
  rw [hq, ← Nat.div_div_eq_div_mul, ← Nat.div_div_eq_div_mul, hsame]

/-- A descriptor in a table of the walk points to a table. -/
def Refers (s : KernelMap) (t i child : ℕ) : Prop :=
  ∃ level va, tableFrom s.tables .L1 s.root level va = some t ∧ level.index va = i ∧
    isTable (s.tables t i) level = true ∧ descriptorAddress (s.tables t i) = child

theorem Refers.below (h : Refers s t i child) :
    ∃ level next va, level.next = some next ∧ tableFrom s.tables .L1 s.root level va = some t ∧
      level.index va = i ∧ tableFrom s.tables .L1 s.root next va = some child := by
  obtain ⟨level, va, ht, rfl, htab, rfl⟩ := h
  cases level with
  | L3 => cases htab
  | L2 => exact ⟨.L2, .L3, va, rfl, ht, rfl, tableFrom_step rfl ht htab⟩
  | L1 => exact ⟨.L1, .L2, va, rfl, ht, rfl, tableFrom_step rfl ht htab⟩

theorem Inv.refers_unique (h : Inv s) {t' i' : ℕ} (hr : Refers s t i child)
    (hr' : Refers s t' i' child) : t = t' ∧ i = i' := by
  obtain ⟨l, next, va, hnext, ht, rfl, hchild⟩ := hr.below
  obtain ⟨l', next', va', hnext', ht', rfl, hchild'⟩ := hr'.below
  obtain ⟨rfl, hsame⟩ := h.separate _ _ _ _ _ hchild hchild'
  have hl : l = l' := rank_inj (by have := rank_next hnext; have := rank_next hnext'; omega)
  subst hl
  obtain ⟨htable, hindex⟩ := (sameTable_next hnext (rank_le_of_tableFrom ht)).1 hsame
  rw [tableFrom_of_sameTable htable, ht'] at ht
  exact ⟨(Option.some.inj ht).symm, hindex⟩

theorem Inv.root_unreferred (h : Inv s) : ¬Refers s t i s.root := by
  intro hr
  obtain ⟨l, next, va, hnext, -, -, hchild⟩ := hr.below
  obtain ⟨rfl, -⟩ := h.separate .L1 next 0 va s.root rfl hchild
  cases l <;> cases hnext

/-- From every map that `map` and `unmap` reach: `map` adds the identity of its region, which was
unmapped; `unmap` removes its range, which was mapped; all else keeps its translation; and one
descriptor at most refers to a table. -/
theorem kernel_map_semantics (s : KernelMap) (h : Reachable s) :
    (∀ region s', map region s = .ok () s' →
      (∀ v, region.base ≤ v → v < region.base + region.len → s.translate v = none) ∧
      ∀ v, s'.translate v = if region.base ≤ v ∧ v < region.base + region.len then
        some (v, region.kind, region.perms) else s.translate v) ∧
    (∀ base len s', unmap base len s = .ok () s' →
      (∀ v, base ≤ v → v < base + len → s.translate v ≠ none) ∧
      ∀ v, s'.translate v = if base ≤ v ∧ v < base + len then none else s.translate v) ∧
    (∀ t i t' i' child, Refers s t i child → Refers s t' i' child → t = t' ∧ i = i') ∧
    ∀ t i, ¬Refers s t i s.root := by
  have hinv := (reachable_inv h).1
  refine ⟨fun region s' hrun => ?_, fun base len s' hrun => ?_,
    fun _ _ _ _ _ => hinv.refers_unique, fun _ _ => hinv.root_unreferred⟩
  · exact ((map_spec hinv region).ok hrun).2
  obtain ⟨-, hmapped, hlen, hbase, -, htranslate⟩ := (unmap_spec hinv base len).ok hrun
  refine ⟨fun v hlow hhigh => hmapped.translate_ne_none hbase hlow ?_, htranslate⟩
  rwa [Nat.div_mul_cancel (Nat.dvd_of_mod_eq_zero hlen)]

def arenaOf (n : ℕ) : KernelMap := activateEmpty (fun _ _ => 0) 0x80000 (0x80000 + n * 4096)

theorem reachable_arenaOf (hpos : 0 < n) (hn : n ≤ 1000) : Reachable (arenaOf n) := by
  refine .start ⟨fun _ _ => 0, 0x80000, 0x80000 + n * 4096, by decide, by decide, ?_, ?_, rfl⟩
  · change 0x80000 + 4096 ≤ _
    omega
  · omega

def codeRegion : Region := ⟨0x200000, 0x400000, .normalWb, ⟨false, true, false⟩⟩

/-- Two blocks of code in an empty map. -/
theorem kernel_map_semantics_code : ∃ s', map codeRegion (arenaOf 3) = .ok () s' ∧
    ∀ v, s'.translate v = if 0x200000 ≤ v ∧ v < 0x200000 + 0x400000 then
      some (v, .normalWb, ⟨false, true, false⟩) else (arenaOf 3).translate v := by
  refine ⟨after (map codeRegion (arenaOf 3)), rfl, ?_⟩
  exact ((kernel_map_semantics (arenaOf 3) (reachable_arenaOf (by decide) (by decide))).1
    codeRegion _ rfl).2

theorem fits_iff (h : Inv s) : Fits s n ↔ n ≤ s.freeTables := by
  have hroom := h.room
  unfold Fits freeTables
  rw [Nat.le_div_iff_mul_le (by decide), Nat.mul_comm]
  omega

/-- An `unmap` that fails has changed no translation, if and only if it is refused for its
arguments or for a hole in the range, or the arena has the tables for all the splits of the range,
or too few for those of its first page. -/
theorem unmap_all_or_nothing (s : KernelMap) (h : Reachable s) (base len : ℕ) :
    (∀ e s', unmap base len s = .error e s' → ∀ v, s'.translate v = s.translate v) ↔
      Misfit base len ∨ ¬AllMapped s base (len / pageSize) ∨
        tablesNeeded s base (len / pageSize) ≤ s.freeTables ∨
        ∀ lv, s.leafLevel base = some lv → s.freeTables < splitsOf lv := by
  obtain ⟨hinv, hroot⟩ := reachable_inv h
  have hspec := unmap_spec hinv base len
  constructor
  · intro hnothing
    by_contra hcond
    simp only [not_or, not_not, not_forall, Nat.not_lt, Nat.not_le] at hcond
    obtain ⟨hfit, hmapped, hshort, lv, hlv, hfirst⟩ := hcond
    rcases hrun : unmap base len s with ⟨_, s'⟩ | ⟨e, s'⟩
    · obtain ⟨-, -, -, -, hfits, -⟩ := hspec.ok hrun
      exact absurd ((fits_iff hinv).1 hfits) (Nat.not_le.2 hshort)
    rcases hspec.error hrun with ⟨-, hzero | hmis | hhole⟩ | ⟨-, -, hpos, hbroken⟩
    · exact hroot hzero
    · exact hfit hmis
    · exact hhole hmapped
    -- the first page was mapped, and is not after the call
    obtain ⟨k, hk⟩ := Nat.exists_eq_succ_of_ne_zero (Nat.ne_of_gt hpos)
    rw [hk] at hmapped
    have hgone := hbroken.first lv hlv ((fits_iff hinv).2 hfirst)
    rw [hnothing e s' hrun base] at hgone
    exact translate_ne_none hmapped.head.1 hlv hgone
  · intro hcond e s' hrun v
    rcases hspec.error hrun with ⟨rfl, -⟩ | ⟨hfit, hmapped, hpos, hbroken⟩
    · rfl
    rcases hcond with hmis | hhole | hroom | hfew
    · exact absurd hmis hfit
    · exact absurd hmapped hhole
    · exact absurd ((fits_iff hinv).2 hroom) hbroken.short
    obtain ⟨k, hk⟩ := Nat.exists_eq_succ_of_ne_zero (Nat.ne_of_gt hpos)
    rw [hk] at hmapped
    obtain ⟨-, lv, hlv⟩ := hmapped.head
    refine (hbroken.none_lost lv hlv fun hfits => ?_).same v
    exact absurd ((fits_iff hinv).1 hfits) (Nat.not_le.2 (hfew lv hlv))

theorem reachable_code (hpos : 0 < n) (hn : n ≤ 1000) :
    Reachable (after (map codeRegion (arenaOf n))) :=
  .next (l := .map codeRegion) (reachable_arenaOf hpos hn) trivial rfl

/-- One page of a block, with no table left to split it. -/
theorem unmap_all_or_nothing_full : ∃ s', unmap 0x3FF000 0x1000
    (after (map codeRegion (arenaOf 2))) = .error .outOfTables s' ∧
      ∀ v, s'.translate v = (after (map codeRegion (arenaOf 2))).translate v := by
  refine ⟨after (unmap 0x3FF000 0x1000 (after (map codeRegion (arenaOf 2)))), rfl, ?_⟩
  refine (unmap_all_or_nothing _ (reachable_code (by decide) (by decide)) 0x3FF000 0x1000).2
    (.inr (.inr (.inr fun lv => ?_))) .outOfTables _ rfl
  cases lv <;> decide +kernel

def halfDone (s : KernelMap) (v : ℕ) : EStateM.Result MmuError KernelMap Unit → Bool
  | .error _ s' => s.translate v ≠ none ∧ s'.translate v = none
  | .ok _ _ => false

/-- Two pages in two blocks, with a table left for the first: the call fails after it has
cleared the first page. -/
theorem unmap_half_done : ∃ s base len e s' v, Reachable s ∧ unmap base len s = .error e s' ∧
    s.translate v ≠ none ∧ s'.translate v = none := by
  have hhalf : halfDone (after (map codeRegion (arenaOf 3))) 0x3FF000
      (unmap 0x3FF000 0x2000 (after (map codeRegion (arenaOf 3)))) = true := by decide +kernel
  rcases hrun : unmap 0x3FF000 0x2000 (after (map codeRegion (arenaOf 3))) with ⟨_, s'⟩ | ⟨e, s'⟩
  · rw [hrun] at hhalf
    cases hhalf
  rw [hrun] at hhalf
  exact ⟨_, _, _, e, s', 0x3FF000, reachable_code (by decide) (by decide), hrun,
    of_decide_eq_true hhalf⟩

end HarborKernel.KernelMap
