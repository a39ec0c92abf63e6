import HarborKernel.HeapContract

/-!
Frees that are refused. The checks read inside the arena whatever its bytes are, and nothing is
written before they pass. A payload that was given back is refused a second time for as long as
nothing is allocated: the words it is checked by stay those of a free block, or keep what they held
when a block in front of it took it in.
-/

namespace HarborKernel.Heap

open ByteWords BlockTiling Transition

variable {arena : Arena} {h : FreeList} {s s' : State} {blocks : List Block} {u v : Use}
  {x z p : ℕ}

theorem isAllocated_total (hx : x + 8 ≤ arena.len) : ∃ mark, isAllocated arena x = some mark := by
  unfold isAllocated readU64
  rw [if_pos hx]
  exact ⟨_, rfl⟩

theorem check_total (arena : Arena) (p : ℕ) : ∃ r, FreeList.check arena p = some r := by
  unfold FreeList.check
  by_cases hrange : p < header ∨ arena.len < p
  · exact ⟨_, if_pos hrange⟩
  have hread : readU64 arena (p - 8) = some (readLe arena.mem (p - 8) 8) := by
    unfold header at hrange
    exact if_pos (by omega)
  rw [if_neg hrange, hread, Option.bind_eq_bind, Option.bind_some]
  generalize readLe arena.mem (p - 8) 8 = block
  by_cases hnil : block = nil
  · exact ⟨_, if_pos hnil⟩
  rw [if_neg hnil]
  cases hend : checkedAdd block header with
  | none => exact ⟨.error .outOfBounds, by simp only [hend, Option.pure_def]⟩
  | some stop =>
    have hstop : stop = block + 16 := by
      unfold checkedAdd at hend
      split at hend
      · exact (Option.some.inj hend).symm
      · cases hend
    by_cases hlong : arena.len < stop
    · exact ⟨.error .outOfBounds, by simp only [hend, if_pos hlong, Option.pure_def]⟩
    by_cases hbad : block % grain ≠ 0 ∨ p < stop
    · exact ⟨.error .corrupt, by
        simp only [hend, if_neg hlong, if_pos hbad, Option.pure_def]⟩
    have hsize := (blockSize_eq (by omega) : blockSize arena block = _)
    obtain ⟨mark, hmark⟩ := isAllocated_total (show block + 8 ≤ arena.len by omega)
    simp only [hend, if_neg hlong, if_neg hbad, hmark, hsize, Option.bind_eq_bind,
      Option.bind_some, Option.pure_def]
    cases mark with
    | false => exact ⟨_, if_pos rfl⟩
    | true =>
      simp only [Bool.not_true, Bool.false_eq_true, if_false]
      cases checkedAdd block (readLe arena.mem block 8 / 2 * 2) with
      | none => exact ⟨.error .corrupt, by simp only⟩
      | some stop' =>
        simp only
        split
        · exact ⟨_, rfl⟩
        · exact ⟨_, rfl⟩

theorem dealloc_error_inv {h' : FreeList} {e : FreeError}
    (hfree : h.dealloc p = some (.error e, h')) :
    h' = h ∧ FreeList.check h.arena p = some (.error e) := by
  obtain ⟨r, hcheck⟩ := check_total h.arena p
  cases r with
  | error e' =>
    rw [dealloc_error hcheck] at hfree
    cases hfree
    exact ⟨rfl, hcheck⟩
  | ok found =>
    obtain ⟨block, size⟩ := found
    cases hinsert : h.insert block size with
    | none =>
      rw [FreeList.dealloc, hcheck] at hfree
      simp only [Option.bind_eq_bind, Option.bind_some, hinsert, Option.bind_none,
        reduceCtorEq] at hfree
    | some heap =>
      rw [dealloc_ok hcheck hinsert] at hfree
      cases hfree

structure Freed (m : Bytes) (blocks : List Block) (x z p : ℕ) : Prop where
  within : ∃ f ∈ blocks, f.tag = none ∧ f.start ≤ x ∧ x + z ≤ f.stop
  aligned : x % 16 = 0
  least : 32 ≤ z
  payload : x + 16 ≤ p ∧ p < x + z ∧ p % 16 = 0
  stale : Stale m x
  back : p ≠ x + 16 → readLe m (p - 8) 8 = x

theorem Freed.refused (hf : Freed h.arena.mem blocks x z p) (hl : Linked h blocks) :
    ∃ e, FreeList.check h.arena p = some (.error e) := by
  have hbound := h.arena.bound
  obtain ⟨f, hfmem, -, hlow, hhigh⟩ := hf.within
  have hstop := hl.stop_le hfmem
  obtain ⟨hplow, hphigh, -⟩ := hf.payload
  obtain ⟨heven, hlink⟩ := hf.stale
  have hin : ¬ (p < header ∨ h.arena.len < p) := by
    unfold header
    omega
  have hread : readU64 h.arena (p - 8) = some (readLe h.arena.mem (p - 8) 8) :=
    if_pos (by omega)
  rw [FreeList.check, if_neg hin, hread, Option.bind_eq_bind, Option.bind_some]
  by_cases hadj : p = x + 16
  · -- the word is the next pointer of the block
    subst hadj
    have hword : x + 16 - 8 = x + 8 := by omega
    rw [hword]
    by_cases hnil : readLe h.arena.mem (x + 8) 8 = nil
    · exact ⟨_, if_pos hnil⟩
    have hlt : x < readLe h.arena.mem (x + 8) 8 := hlink.resolve_left hnil
    generalize readLe h.arena.mem (x + 8) 8 = block at hnil hlt
    rw [if_neg hnil]
    by_cases hfits : block + header < 2 ^ 64
    · simp only [checkedAdd_eq hfits]
      by_cases hlong : h.arena.len < block + header
      · exact ⟨_, if_pos hlong⟩
      have hbad : block % grain ≠ 0 ∨ x + 16 < block + header := by
        unfold header
        omega
      exact ⟨_, by rw [if_neg hlong, if_pos hbad, Option.pure_def]⟩
    · simp only [checkedAdd_none hfits]
      exact ⟨_, rfl⟩
  · -- the word is still the back pointer, and the block is not marked
    have hnil : x ≠ nil := by
      unfold nil
      omega
    have hgrain := hf.aligned
    have hfits : x + header < 2 ^ 64 := by
      unfold header
      omega
    have hlong : ¬ h.arena.len < x + header := by
      unfold header
      omega
    have hbad : ¬ (x % grain ≠ 0 ∨ p < x + header) := by
      unfold header grain
      omega
    have hmark : isAllocated h.arena x = some false := by
      rw [isAllocated, readU64, if_pos (by omega), Option.bind_eq_bind, Option.bind_some,
        allocated, Nat.and_one_is_mod, heven]
      rfl
    rw [hf.back hadj, if_neg hnil]
    simp only [checkedAdd_eq hfits, if_neg hlong, if_neg hbad, hmark, Option.bind_eq_bind,
      Option.bind_some, Option.pure_def, Bool.not_false, if_true]
    exact ⟨_, rfl⟩

/-- The first words of a free block are not among the bytes of a block it took in, except where
the two start together. -/
theorem Linked.away (hl : Linked h blocks)
    (hwithin : ∃ f ∈ blocks, f.tag = none ∧ f.start ≤ x ∧ x + z ≤ f.stop) (hx : x % 16 = 0)
    {y j : ℕ} (hy : y ∈ frees blocks) (hlow : x ≤ j) (hhigh : j < x + z)
    (hne : j < x + 16 → y ≠ x) : j < y ∨ y + 16 ≤ j := by
  obtain ⟨f, hfmem, -, hfstart, hfstop⟩ := hwithin
  obtain ⟨k, hk⟩ := mem_frees.1 hy
  have hygrain := (hl.head hy).grain
  have hleast := (hl.shaped _ hk).least
  rcases hl.tiles.apart hfmem hk with rfl | hside
  · simp only at hfstart
    by_cases hj : j < x + 16
    · have hyx := hne hj
      omega
    · omega
  · simp only [Segment.stop] at hside hfstop hleast
    omega

/-- A change of the arena outside what was freed, or a head of a block in it, keeps the freed block
refused. -/
theorem Freed.of_same {h' : FreeList} {blocks' : List Block}
    (hf : Freed h.arena.mem blocks x z p) (hl' : Linked h' blocks')
    (hwithin : ∃ f ∈ blocks', f.tag = none ∧ f.start ≤ x ∧ x + z ≤ f.stop)
    (hsame : ∀ j, x ≤ j → j < x + z → (∀ y ∈ frees blocks', j < y ∨ y + 16 ≤ j) →
      h'.arena.mem j = h.arena.mem j) :
    Freed h'.arena.mem blocks' x z p := by
  obtain ⟨hplow, hphigh, hpgrain⟩ := hf.payload
  have hleast := hf.least
  have hgrain := hf.aligned
  refine ⟨hwithin, hgrain, hleast, hf.payload, ?_, ?_⟩
  · by_cases hx : x ∈ frees blocks'
    · exact hl'.stale hx
    · refine hf.stale.congr fun j hlow hhigh => hsame j hlow (by omega) fun y hy => ?_
      exact hl'.away hwithin hgrain hy hlow (by omega) fun _ hyx => hx (hyx ▸ hy)
  intro hne
  rw [← hf.back hne]
  refine readLe_congr fun j hlow hhigh => hsame j (by omega) (by omega) fun y hy => ?_
  exact hl'.away hwithin hgrain hy (by omega) (by omega) fun hj => absurd hj (by omega)

/-- The frees, and the writes of owners, that may follow a free. -/
def FreesOnly (s : State) (op : Op) : Prop :=
  Legal s op ∧ ∀ size align, op ≠ .alloc size align

/-- The state of a heap in which a block was freed. -/
def Refuses (s : State) (x z p : ℕ) : Prop :=
  ∃ blocks, Stands s blocks ∧ Freed s.heap.arena.mem blocks x z p

theorem Refuses.step {op : Op} (hs : Refuses s x z p) (hok : FreesOnly s op)
    (hstep : Heap.step s op = some s') : Refuses s' x z p := by
  obtain ⟨blocks, hst, hf⟩ := hs
  have hl := hst.models.toLinked
  obtain ⟨f, hfmem, hftag, hflow, hfhigh⟩ := hf.within
  -- a block in use does not meet the freed one
  have hused : ∀ b ∈ blocks, b.tag ≠ none → b.stop ≤ x ∨ x + z ≤ b.start := by
    intro b hb hne
    rcases hl.tiles.apart hb hfmem with rfl | hside
    · exact absurd hftag hne
    · omega
  cases op with
  | alloc size align => exact absurd rfl (hok.2 size align)
  | dealloc payload =>
    obtain ⟨u, hu, rfl⟩ := hok.1
    obtain ⟨h', blocks', hfree, -, hst', hcoarse, ⟨b, hb, htag, -, hsame⟩, -⟩ := hst.dealloc hu
    rw [Heap.step, hfree] at hstep
    cases hstep
    refine ⟨blocks', hst', hf.of_same hst'.models.toLinked ?_ ?_⟩
    · obtain ⟨g, hg, hgtag, hglow, hghigh⟩ := hcoarse f hfmem (.inl hftag)
      exact ⟨g, hg, hgtag, hglow.trans hflow, hfhigh.trans hghigh⟩
    intro j hlow hhigh hheads
    refine hsame j ?_
    rintro y (rfl | hy)
    · have hside := hused b hb (by rw [htag]; exact Option.some_ne_none u)
      have hleast := (hl.shaped b hb).least
      unfold Segment.stop at hside
      omega
    · exact hheads y hy
  | write u off v =>
    obtain ⟨hu, hoff⟩ := hok.1
    obtain ⟨hst', hsame, -⟩ := hst.write hu hoff v
    cases hstep
    obtain ⟨b, hb, htag⟩ := (hst.uses u).1 hu
    have hside := hused b hb (by rw [htag]; exact Option.some_ne_none u)
    obtain ⟨hlow', -, -, hhigh', -⟩ := (hl.shaped b hb).use u htag
    refine ⟨blocks, hst', hf.of_same hst'.models.toLinked hf.within ?_⟩
    intro j hlow hhigh _
    exact hsame j (by omega)

theorem Stands.refuses (hs : Stands s blocks) (hu : u ∈ s.live)
    (hstep : Heap.step s (.dealloc u.payload) = some s') : ∃ x z, Refuses s' x z u.payload := by
  have hl := hs.models.toLinked
  obtain ⟨h', blocks', hfree, -, hst', hcoarse, ⟨b, hb, htag, hstale, hsame⟩, -⟩ := hs.dealloc hu
  rw [Heap.step, hfree] at hstep
  cases hstep
  have hshape := hl.shaped b hb
  have hleast := hshape.least
  obtain ⟨hlow, hgrain, hpos, hhigh, -⟩ := hshape.use u htag
  have hword := hl.written b hb
  obtain ⟨x, z, tag⟩ := b
  cases htag
  obtain ⟨-, hback⟩ := written_used.1 hword
  obtain ⟨g, hg, hgtag, hglow, hghigh⟩ := hcoarse _ hb (.inr rfl)
  simp only [Segment.stop] at hhigh hghigh hlow hleast hglow
  refine ⟨x, z, blocks', hst', ⟨g, hg, hgtag, hglow, hghigh⟩, hshape.start, hleast,
    ⟨hlow, by omega, hgrain⟩, hstale, ?_⟩
  intro hne
  have hxgrain : x % 16 = 0 := hshape.start
  rw [← hback]
  refine readLe_congr fun j hjlow hjhigh => hsame j ?_
  rintro y (rfl | hy)
  · omega
  · exact hst'.models.toLinked.away ⟨g, hg, hgtag, hglow, hghigh⟩ hxgrain hy (by omega) (by omega)
      fun hj => absurd hj (by omega)

/-- Bad frees are refused and change nothing. -/
theorem bad_frees_refused :
    (∀ (h : FreeList) (p : ℕ), (∃ r, FreeList.check h.arena p = some r) ∧
      ∀ e h', h.dealloc p = some (.error e, h') → h' = h) ∧
    ∀ s, Reachable s → ∀ u ∈ s.live, ∀ s₁, step s (.dealloc u.payload) = some s₁ →
      ∀ s₂, Reach (fun s => s = s₁) step FreesOnly s₂ →
        ∃ e, s₂.heap.dealloc u.payload = some (.error e, s₂.heap) := by
  constructor
  · intro h p
    exact ⟨check_total h.arena p, fun e h' hfree => (dealloc_error_inv hfree).1⟩
  · intro s hr u hu s₁ hstep s₂ hrun
    obtain ⟨blocks, hs⟩ := hr.stands
    obtain ⟨x, z, hrefuses⟩ := hs.refuses hu hstep
    have hlast : Refuses s₂ x z u.payload := by
      refine hrun.invariant (I := fun s => Refuses s x z u.payload) ?_ ?_
      · rintro s rfl
        exact hrefuses
      · intro s op s' hI hok hstep
        exact hI.step hok hstep
    obtain ⟨blocks₂, hs₂, hf₂⟩ := hlast
    obtain ⟨e, hcheck⟩ := hf₂.refused hs₂.models.toLinked
    exact ⟨e, dealloc_error hcheck⟩

theorem bad_frees_refused_six :
    ∃ s, Reachable s ∧ ∃ u ∈ s.live, ∃ s₁, step s (.dealloc u.payload) = some s₁ ∧
      ∃ e, s₁.heap.dealloc u.payload = some (.error e, s₁.heap) := by
  obtain ⟨s, hr, hlive⟩ := Reach.exists_run (P := fun s => s.live = [⟨32, 8, 32⟩])
    [.alloc 8 32] sixGrain_reachable (by decide +kernel)
  have hu : ⟨32, 8, 32⟩ ∈ s.live := hlive ▸ List.mem_cons_self ..
  obtain ⟨blocks, hs⟩ := Reachable.stands hr
  obtain ⟨h', -, hfree, -⟩ := hs.dealloc hu
  have hstep : step s (.dealloc 32) = some (afterDealloc s 32 (.ok (), h')) := by
    rw [step, hfree]
    rfl
  exact ⟨s, hr, _, hu, _, hstep, bad_frees_refused.2 s hr _ hu _ hstep _ (Reach.start rfl)⟩

end HarborKernel.Heap
