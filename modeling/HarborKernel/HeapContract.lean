import HarborKernel.HeapRuns

/-!
What holds of the heap along every run: the blocks partition the arena, the list holds exactly the
free ones, every live payload lies in a block of its own, and legal operations succeed and leave
the payloads of others alone. An allocation takes the lowest block with room for it.
-/

namespace HarborKernel.Heap

open ByteWords BlockTiling Transition

def usedBytes (blocks : List Block) : ℕ :=
  ((blocks.filter fun b => b.tag.isSome).map Segment.size).sum

structure Sound (s : State) (blocks : List Block) : Prop where
  tiles : Tiles 0 blocks (andNot s.heap.arena.len (grain - 1))
  sizes : ∀ b ∈ blocks, b.size % 16 = 0 ∧ 32 ≤ b.size
  words : ∀ b ∈ blocks, blockSize s.heap.arena b.start = some b.size ∧
    isAllocated s.heap.arena b.start = some b.tag.isSome
  list : Chain (next s.heap.arena.mem) s.heap.head (frees blocks)
  ordered : (frees blocks).Pairwise (· < ·)
  walk : s.heap.freeBlocks = some (frees blocks).length
  apart : blocks.IsChain Apart
  bytes : ∃ free, s.heap.freeBytes = some free ∧
    free + usedBytes blocks = andNot s.heap.arena.len (grain - 1)
  uses : ∀ u, u ∈ s.live ↔ ∃ b ∈ blocks, b.tag = some u
  inside : ∀ b ∈ blocks, ∀ u, b.tag = some u →
    b.start + 16 ≤ u.payload ∧ u.payload + u.size ≤ b.stop ∧ u.align ∣ u.payload
  disjoint : s.live.Pairwise Disjoint
  headers : ∀ b ∈ blocks, ∀ u ∈ s.live,
    u.payload + u.size ≤ b.start ∨ b.start + 16 ≤ u.payload
  whole : s.live = [] → blocks.length = 1

variable {arena : Arena} {h : FreeList} {s : State} {blocks : List Block} {cursor : Option ℕ}
  {front : List ℕ} {turns size align : ℕ}

theorem sizesFrom_eq (hchain : Chain (next arena.mem) cursor front)
    (hheads : ∀ y ∈ front, Head arena y) (hturns : front.length < turns) :
    FreeList.sizesFrom arena turns cursor = some (front.map fun x => readLe arena.mem x 8) := by
  induction front generalizing cursor turns with
  | nil =>
    rw [show cursor = none from hchain]
    cases turns <;> rfl
  | cons y rest ih =>
    obtain ⟨turns, rfl⟩ := Nat.exists_eq_add_one.2 (Nat.zero_lt_of_lt hturns)
    rw [List.length_cons] at hturns
    have hy := hheads y (List.mem_cons_self ..)
    have hrest : FreeList.sizesFrom arena turns (next arena.mem y) = _ := ih hchain.2
      (fun z hz => hheads z (List.mem_cons_of_mem y hz)) (by omega)
    rw [show cursor = some y from hchain.1, FreeList.sizesFrom]
    simp only [hy.size_eq, hy.next_eq, hrest, Option.bind_eq_bind, Option.bind_some,
      Option.pure_def, List.map_cons]

theorem Linked.sizes_eq (hl : Linked h blocks) :
    FreeList.sizesFrom h.arena (h.arena.len + 1) h.head =
      some ((blocks.filter fun b => b.tag.isNone).map Segment.size) := by
  have hcount := hl.length_le
  rw [sizesFrom_eq hl.chain (fun y hy => hl.head hy) (by omega), frees, List.map_map]
  refine congrArg some (List.map_congr_left ?_)
  rintro ⟨x, z, tag⟩ hb
  obtain ⟨hmem, htag⟩ := List.mem_filter.1 hb
  cases tag with
  | none => exact written_free.1 (hl.written _ hmem)
  | some u => cases htag

theorem foldl_wrapAdd (l : List ℕ) (a : ℕ) (hsum : a + l.sum < 2 ^ 64) :
    l.foldl wrapAdd a = a + l.sum := by
  induction l generalizing a with
  | nil => rfl
  | cons x rest ih =>
    rw [List.sum_cons] at hsum ⊢
    rw [List.foldl_cons, wrapAdd_eq (by omega), ih _ (by omega)]
    omega

theorem sum_free_used (blocks : List Block) :
    ((blocks.filter fun b => b.tag.isNone).map Segment.size).sum + usedBytes blocks =
      (blocks.map Segment.size).sum := by
  unfold usedBytes
  induction blocks with
  | nil => rfl
  | cons b rest ih =>
    cases htag : b.tag with
    | none =>
      simp only [List.filter_cons, htag, Option.isNone_none, Option.isSome_none, if_true,
        Bool.false_eq_true, if_false, List.map_cons, List.sum_cons]
      omega
    | some u =>
      simp only [List.filter_cons, htag, Option.isNone_some, Option.isSome_some, if_true,
        Bool.false_eq_true, if_false, List.map_cons, List.sum_cons]
      omega

theorem usable_eq (arena : Arena) : andNot arena.len (grain - 1) = arena.len / 16 * 16 := by
  have hbound := arena.bound
  exact andNot_two_pow (k := 4) (by decide) (by omega)

theorem Linked.freeBytes_eq (hl : Linked h blocks) :
    ∃ free, h.freeBytes = some free ∧ free + usedBytes blocks = h.arena.len / 16 * 16 := by
  have hbound := h.arena.bound
  have hsum := hl.tiles.sum_sizes
  have hsplit := sum_free_used blocks
  refine ⟨((blocks.filter fun b => b.tag.isNone).map Segment.size).sum, ?_, by omega⟩
  rw [FreeList.freeBytes, hl.sizes_eq, Option.bind_eq_bind, Option.bind_some,
    foldl_wrapAdd _ _ (by omega), Nat.zero_add, Option.pure_def]

theorem Linked.words (hl : Linked h blocks) {b : Block} (hb : b ∈ blocks) :
    blockSize h.arena b.start = some b.size ∧
      isAllocated h.arena b.start = some b.tag.isSome := by
  have hshape := hl.shaped b hb
  have hsize := hshape.size
  have hleast := hshape.least
  have hstop := hl.stop_le hb
  have hin : b.start + 8 ≤ h.arena.len := by
    unfold Segment.stop at hstop
    omega
  have hmark : isAllocated h.arena b.start =
      some (decide (readLe h.arena.mem b.start 8 &&& allocated ≠ 0)) := by
    rw [isAllocated, readU64, if_pos hin, Option.bind_eq_bind, Option.bind_some, Option.pure_def]
  obtain ⟨x, z, tag⟩ := b
  simp only at hsize hleast hin hmark ⊢
  rw [hmark, blockSize_eq hin]
  cases tag with
  | none =>
    rw [written_free.1 (hl.written _ hb), allocated, Nat.and_one_is_mod]
    have heven : z % 2 = 0 := by omega
    have hhalf : z / 2 * 2 = z := by omega
    rw [heven, hhalf]
    exact ⟨rfl, rfl⟩
  | some u =>
    rw [(written_used.1 (hl.written _ hb)).1, allocated, Nat.and_one_is_mod]
    have hodd : (z + 1) % 2 = 1 := by omega
    have hhalf : (z + 1) / 2 * 2 = z := by omega
    rw [hodd, hhalf]
    exact ⟨rfl, rfl⟩

theorem Stands.whole (hs : Stands s blocks) (hlive : s.live = []) : blocks.length = 1 := by
  have hroom := hs.room
  have hfree : ∀ b ∈ blocks, b.tag = none := by
    intro b hb
    cases htag : b.tag with
    | none => rfl
    | some u =>
      have hu := (hs.uses u).2 ⟨b, hb, htag⟩
      rw [hlive] at hu
      cases hu
  have htiles := hs.models.tiles
  match blocks, hs.models.apart, hfree, htiles with
  | [], _, _, htiles =>
    have hzero : 0 = s.heap.arena.len / 16 * 16 := htiles
    omega
  | [_], _, _, _ => rfl
  | b :: c :: rest, hapart, hfree, _ =>
    rcases (List.isChain_cons_cons.1 hapart).1 with hb | hc
    · exact absurd (hfree b (List.mem_cons_self ..)) hb
    · exact absurd (hfree c (List.mem_cons_of_mem b (List.mem_cons_self ..))) hc

theorem Stands.sound (hs : Stands s blocks) : Sound s blocks := by
  have hl := hs.models.toLinked
  have husable := usable_eq s.heap.arena
  refine ⟨husable ▸ hl.tiles, fun b hb => ⟨(hl.shaped b hb).size, (hl.shaped b hb).least⟩,
    fun b hb => hl.words hb, hl.chain, frees_sorted hl.tiles hl.shaped, ?_, hs.models.apart,
    husable ▸ hl.freeBytes_eq, hs.uses, ?_, hs.disjoint, ?_, hs.whole⟩
  · rw [FreeList.freeBlocks, hl.sizes_eq, Option.bind_eq_bind, Option.bind_some, Option.pure_def,
      frees, List.length_map, List.length_map]
  · intro b hb u hu
    obtain ⟨hlow, -, -, hhigh, halign⟩ := (hl.shaped b hb).use u hu
    exact ⟨hlow, hhigh, halign⟩
  · intro b hb u hu
    obtain ⟨c, hc, hcu⟩ := (hs.uses u).1 hu
    obtain ⟨hlow, -, -, hhigh, -⟩ := (hl.shaped c hc).use u hcu
    have hleast := (hl.shaped b hb).least
    rcases hl.tiles.apart hb hc with rfl | hside
    · exact .inr hlow
    · unfold Segment.stop at hside hhigh
      omega

/-- `FreeList::new` takes every arena that holds a block. -/
theorem new_total (arena : Arena) :
    ∃ r, FreeList.new arena = some r ∧ (r = none ↔ andNot arena.len (grain - 1) < minBlock) := by
  have hbound := arena.bound
  have husable := usable_eq arena
  by_cases hsmall : andNot arena.len (grain - 1) < minBlock
  · exact ⟨none, by rw [FreeList.new]; exact if_pos hsmall, by simp only [hsmall]⟩
  have hmin : ¬ arena.len / 16 * 16 < 32 := by
    rw [← husable]
    exact hsmall
  obtain ⟨a₁, hw₁, hp₁⟩ := writeU64_puts arena 0 (andNot arena.len (grain - 1))
    (by omega) (by omega)
  have hlen₁ := hp₁.len
  obtain ⟨a₂, hw₂, -, -⟩ := setNextFree_puts a₁ 0 none (by omega)
    (fun y hy => by cases hy)
  refine ⟨some { head := some 0, len := a₂.len, arena := a₂ }, ?_, ?_⟩
  · rw [FreeList.new]
    simp only [if_neg hsmall, setBlockSize, hw₁, hw₂, Option.bind_eq_bind, Option.bind_some,
      Option.pure_def]
  · simp only [hsmall, reduceCtorEq]

/-- The contract of the heap. -/
theorem heap_partitioned :
    (∀ arena, ∃ r, FreeList.new arena = some r ∧
      (r = none ↔ andNot arena.len (grain - 1) < minBlock)) ∧
    ∀ s, Reachable s → (∃ blocks, Sound s blocks) ∧
      ∀ op, Legal s op → ∃ s', step s op = some s' ∧ Reachable s' ∧
        (∀ u ∈ s.live, u ∈ s'.live → (∀ off v, op ≠ .write u off v) →
          Kept s.heap s'.heap u) ∧
        ∀ payload, op = .dealloc payload →
          ∃ heap, s.heap.dealloc payload = some (.ok (), heap) := by
  refine ⟨new_total, ?_⟩
  intro s hr
  obtain ⟨blocks, hs⟩ := hr.stands
  refine ⟨⟨blocks, hs.sound⟩, ?_⟩
  intro op hok
  obtain ⟨s', hstep, -, hkept⟩ := hs.step hok
  refine ⟨s', hstep, hr.next hok hstep, hkept, ?_⟩
  rintro payload rfl
  obtain ⟨u, hu, rfl⟩ := hok
  obtain ⟨h', blocks', hfree, -⟩ := hs.dealloc hu
  exact ⟨h', hfree⟩

instance (s : State) (op : Op) : Decidable (Legal s op) := by
  cases op <;> unfold Legal <;> infer_instance

def sixGrains : Arena := ⟨fun _ => 0, 100, by decide⟩

def sixGrainHeap : FreeList :=
  ⟨some 0, 100, ⟨writeLe (writeLe (fun _ => 0) 0 8 96) 8 8 nil, 100, by decide⟩⟩

theorem sixGrain_reachable : Reachable ⟨sixGrainHeap, []⟩ :=
  Reach.start ⟨sixGrains, rfl, rfl⟩

theorem heap_partitioned_six :
    ∃ s, Reachable s ∧ s.live.length = 1 ∧ (∃ blocks, Sound s blocks) ∧
      ∃ payload s', step s (.dealloc payload) = some s' ∧ s'.live = [] := by
  obtain ⟨s, hr, hlive⟩ := Reach.exists_run (P := fun s => s.live = [⟨32, 8, 32⟩])
    [.alloc 8 32, .write ⟨32, 8, 32⟩ 3 7, .alloc 40 16] sixGrain_reachable (by decide +kernel)
  obtain ⟨hsound, hsteps⟩ := heap_partitioned.2 s hr
  obtain ⟨s', hstep, -, -, hok⟩ := hsteps (.dealloc 32) ⟨⟨32, 8, 32⟩, by simp [hlive], rfl⟩
  obtain ⟨heap, hfree⟩ := hok 32 rfl
  refine ⟨s, hr, by rw [hlive]; rfl, hsound, 32, s', hstep, ?_⟩
  simp only [step, hfree, Option.map_some, Option.some.injEq] at hstep
  rw [← hstep, afterDealloc, hlive]
  rfl

/-- An allocation is refused when no free block has room for it, and otherwise it carves the lowest
one that has. -/
theorem alloc_first_fit (s : State) (hr : Reachable s) (size align : ℕ) (hpos : 0 < size)
    (hsize : size < 2 ^ 63) (hpow : isPowerOfTwo align = true) (halign : align < 2 ^ 64) :
    ∃ blocks r, Sound s blocks ∧ s.heap.alloc size align = some r ∧
      (r.1 = none ↔ ∀ b ∈ blocks, b.tag = none → ¬ Hosts size align b) ∧
      (r.1 = none → r.2 = s.heap) ∧
      ∀ pre start z post, blocks = pre ++ ([⟨start, z, none⟩] ++ post) →
        Hosts size align ⟨start, z, none⟩ →
        (∀ b ∈ pre, b.tag = none → ¬ Hosts size align b) →
        r.1 = some (roundUp (start + 16) align) ∧
        Sound (afterAlloc s size align r)
          (pre ++ (carve start z (roundUp (start + 16) align + roundUp size 16)
            ⟨roundUp (start + 16) align, size, align⟩ ++ post)) := by
  obtain ⟨blocks, hs⟩ := hr.stands
  obtain ⟨k, rfl⟩ := isPowerOfTwo_iff.1 hpow
  have hk := exponent_le halign
  have hfound : ∀ pre start z post, blocks = pre ++ ([⟨start, z, none⟩] ++ post) →
      Hosts size (2 ^ k) ⟨start, z, none⟩ →
      (∀ b ∈ pre, b.tag = none → ¬ Hosts size (2 ^ k) b) →
      ∃ h', s.heap.alloc size (2 ^ k) = some (some (roundUp (start + 16) (2 ^ k)), h') ∧
        Sound (afterAlloc s size (2 ^ k) (some (roundUp (start + 16) (2 ^ k)), h'))
          (pre ++ (carve start z (roundUp (start + 16) (2 ^ k) + roundUp size 16)
            ⟨roundUp (start + 16) (2 ^ k), size, 2 ^ k⟩ ++ post)) := by
    rintro pre start z post rfl hfit hskip
    obtain ⟨h', halloc, -, hs', -⟩ := hs.alloc_found hpos hsize hk hskip hfit
    exact ⟨h', halloc, hs'.sound⟩
  rcases exists_first_host blocks size (2 ^ k) with
    hno | ⟨pre, start, z, post, heq, hfit, hskip⟩
  · have hnone := alloc_none hs.models.toLinked hpos hsize hk hno
    refine ⟨blocks, _, hs.sound, hnone, ⟨fun _ => hno, fun _ => rfl⟩, fun _ => rfl, ?_⟩
    rintro pre start z post rfl hfit -
    exact absurd hfit (hno _ (by simp) rfl)
  obtain ⟨h', halloc, -⟩ := hfound pre start z post heq hfit hskip
  refine ⟨blocks, _, hs.sound, halloc, ⟨fun hnone => (by cases hnone), fun hall => ?_⟩,
    fun hnone => (by cases hnone), ?_⟩
  · exact absurd hfit (hall _ (by simp [heq]) rfl)
  intro pre' start' z' post' heq' hfit' hskip'
  obtain ⟨h'', halloc', hsound⟩ := hfound pre' start' z' post' heq' hfit' hskip'
  rw [halloc] at halloc'
  obtain ⟨hpay, hheap⟩ := Prod.mk.inj (Option.some.inj halloc')
  rw [hheap, hpay]
  exact ⟨rfl, hsound⟩

/-- Two free blocks around a used one: the lower one serves a request, and a request that neither
hosts is refused. -/
theorem alloc_first_fit_fragmented :
    ∃ s, Reachable s ∧ s.live = [⟨48, 8, 16⟩] ∧ s.heap.freeBlocks = some 2 ∧
      (∃ blocks heap, Sound s blocks ∧ s.heap.alloc 8 16 = some (some 16, heap) ∧
        ∃ b ∈ blocks, b.tag = none ∧ Hosts 8 16 b) ∧
      ∃ blocks, Sound s blocks ∧ s.heap.alloc 24 16 = some (none, s.heap) ∧
        ∀ b ∈ blocks, b.tag = none → ¬ Hosts 24 16 b := by
  obtain ⟨s, hr, hlive, hfree, hsmall, hlarge⟩ := Reach.exists_run
    (P := fun s => s.live = [⟨48, 8, 16⟩] ∧ s.heap.freeBlocks = some 2 ∧
      (s.heap.alloc 8 16).map Prod.fst = some (some 16) ∧
      (s.heap.alloc 24 16).map Prod.fst = some none)
    [.alloc 8 16, .alloc 8 16, .dealloc 16] sixGrain_reachable (by decide +kernel)
  obtain ⟨blocks, ⟨payload, heap⟩, hsound, halloc, hiff, -⟩ :=
    alloc_first_fit s hr 8 16 (by decide) (by decide) (by decide) (by decide)
  obtain ⟨blocks', ⟨payload', heap'⟩, hsound', halloc', hiff', hsame, -⟩ :=
    alloc_first_fit s hr 24 16 (by decide) (by decide) (by decide) (by decide)
  rw [halloc] at hsmall
  rw [halloc'] at hlarge
  cases hsmall
  cases hlarge
  cases hsame rfl
  have hhost : ∃ b ∈ blocks, b.tag = none ∧ Hosts 8 16 b := by
    by_contra hno
    push Not at hno
    cases hiff.2 hno
  exact ⟨s, hr, hlive, hfree, ⟨blocks, heap, hsound, halloc, hhost⟩,
    blocks', hsound', halloc', hiff'.1 rfl⟩

end HarborKernel.Heap
