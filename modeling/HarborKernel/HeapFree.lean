import HarborKernel.HeapAlloc

/-!
What `dealloc` does to the blocks. The checks pass for the payload of a used block. The block is
put back between its neighbours on the list, and then joined with the block after it and the block
before it when those are free. Joining keeps the used blocks and puts every free block inside a
larger one, and only the first sixteen bytes of free blocks are written.
-/

namespace HarborKernel.Heap

open ByteWords BlockTiling

variable {arena : Arena} {h : FreeList} {s z w x turns : ℕ} {prev cursor : Option ℕ}
  {front back : List ℕ} {u : Use} {blocks pre post : List Block}

theorem check_used (hl : Linked h blocks) (hb : (⟨s, z, some u⟩ : Block) ∈ blocks) :
    FreeList.check h.arena u.payload = some (.ok (s, z)) := by
  have hbound := h.arena.bound
  have hshape := hl.shaped _ hb
  have hsize : z % 16 = 0 := hshape.size
  have hstart : s % 16 = 0 := hshape.start
  have hleast : 32 ≤ z := hshape.least
  have hstop := hl.stop_le hb
  obtain ⟨hfirst, hback⟩ := written_used.1 (hl.written _ hb)
  obtain ⟨hlow, -, hpos, hhigh, -⟩ := hshape.use u rfl
  simp only [Segment.stop] at hstop hhigh hlow
  have hread : readU64 h.arena (u.payload - 8) = some s := by
    rw [readU64, if_pos (by omega), hback]
  have hnil : s ≠ nil := by
    unfold nil
    omega
  have hheader : checkedAdd s header = some (s + 16) := checkedAdd_eq (by unfold header; omega)
  have hmark : isAllocated h.arena s = some true := by
    have hone : (z + 1) &&& allocated = 1 := by
      rw [allocated, Nat.and_one_is_mod]
      omega
    rw [isAllocated, readU64, if_pos (by omega), hfirst, Option.bind_eq_bind, Option.bind_some,
      hone]
    rfl
  have hsz : blockSize h.arena s = some z := by
    have hhalf : (z + 1) / 2 * 2 = z := by omega
    rw [blockSize_eq (by omega), hfirst, hhalf]
  have hend : checkedAdd s z = some (s + z) := checkedAdd_eq (by omega)
  have hin : ¬ (u.payload < header ∨ h.arena.len < u.payload) := by
    unfold header
    omega
  have hgrain : ¬ (s % grain ≠ 0 ∨ u.payload < s + 16) := by
    unfold grain
    omega
  have hfits : ¬ (z < minBlock ∨ h.arena.len < s + z ∨ s + z ≤ u.payload) := by
    unfold minBlock header grain
    omega
  rw [FreeList.check, if_neg hin, hread, Option.bind_eq_bind, Option.bind_some, if_neg hnil]
  simp only [hheader, if_neg (show ¬ h.arena.len < s + 16 by omega), if_neg hgrain, hmark, hsz,
    hend, if_neg hfits, Option.bind_eq_bind, Option.bind_some, Option.pure_def, Bool.not_true,
    Bool.false_eq_true, if_false]

theorem findPlace_eq (prev : Option ℕ) (turns : ℕ)
    (hchain : Chain (next arena.mem) cursor (front ++ back))
    (hheads : ∀ y ∈ front, Head arena y) (hfront : ∀ y ∈ front, y < s)
    (hback : ∀ y ∈ back, s < y) (hturns : front.length < turns) :
    FreeList.findPlace arena s turns prev cursor = some (front.getLast?.or prev, back.head?) := by
  induction front generalizing prev cursor turns with
  | nil =>
    obtain ⟨turns, rfl⟩ := Nat.exists_eq_add_one.2 hturns
    cases back with
    | nil =>
      rw [show cursor = none from hchain]
      rfl
    | cons y rest =>
      have hy := hback y (List.mem_cons_self ..)
      rw [show cursor = some y from hchain.1, FreeList.findPlace, if_pos hy]
      rfl
  | cons y rest ih =>
    obtain ⟨turns, rfl⟩ := Nat.exists_eq_add_one.2 (Nat.zero_lt_of_lt hturns)
    have hy := hfront y (List.mem_cons_self ..)
    rw [List.length_cons] at hturns
    have hrest := ih (some y) turns hchain.2
      (fun x hx => hheads x (List.mem_cons_of_mem y hx))
      (fun x hx => hfront x (List.mem_cons_of_mem y hx)) (by omega)
    rw [show cursor = some y from hchain.1, FreeList.findPlace, if_neg (by omega),
      (hheads y (List.mem_cons_self ..)).next_eq, Option.bind_eq_bind, Option.bind_some, hrest,
      getLast?_cons_or]

structure Coarser (l l' : List Block) : Prop where
  used : ∀ b : Block, b.tag ≠ none → (b ∈ l' ↔ b ∈ l)
  free : ∀ b ∈ l, b.tag = none → ∃ f ∈ l', f.tag = none ∧ f.start ≤ b.start ∧ b.stop ≤ f.stop

theorem Coarser.refl (l : List Block) : Coarser l l :=
  ⟨fun _ _ => Iff.rfl, fun b hb ht => ⟨b, hb, ht, le_rfl, le_rfl⟩⟩

theorem Coarser.trans {l l' l'' : List Block} (h₁ : Coarser l l') (h₂ : Coarser l' l'') :
    Coarser l l'' := by
  refine ⟨fun b hb => (h₂.used b hb).trans (h₁.used b hb), ?_⟩
  intro b hb ht
  obtain ⟨f, hf, hft, hlow, hhigh⟩ := h₁.free b hb ht
  obtain ⟨g, hg, hgt, hlow', hhigh'⟩ := h₂.free f hf hft
  exact ⟨g, hg, hgt, hlow'.trans hlow, hhigh.trans hhigh'⟩

theorem Coarser.join (pre post : List Block) (s z w : ℕ) :
    Coarser (pre ++ ([⟨s, z, none⟩, ⟨s + z, w, none⟩] ++ post))
      (pre ++ ([⟨s, z + w, none⟩] ++ post)) := by
  have hjoined : (⟨s, z + w, none⟩ : Block) ∈ pre ++ ([⟨s, z + w, none⟩] ++ post) :=
    List.mem_append_right _ (List.mem_append_left _ (List.mem_singleton.2 rfl))
  constructor
  · intro b hb
    have hne : ∀ a c : ℕ, b ≠ ⟨a, c, none⟩ := by
      rintro a c rfl
      exact hb rfl
    simp only [List.mem_append, List.mem_cons, List.not_mem_nil, or_false, hne, false_or]
  · intro b hb ht
    simp only [List.mem_append, List.mem_cons, List.not_mem_nil, or_false] at hb
    rcases hb with hb | (rfl | rfl) | hb
    · exact ⟨b, List.mem_append_left _ hb, ht, le_rfl, le_rfl⟩
    · refine ⟨_, hjoined, rfl, le_rfl, ?_⟩
      simp only [Segment.stop]
      omega
    · refine ⟨_, hjoined, rfl, ?_, ?_⟩
      · simp only
        omega
      · simp only [Segment.stop]
        omega
    · exact ⟨b, List.mem_append_right _ (List.mem_append_right _ hb), ht, le_rfl, le_rfl⟩

theorem merge_spec (hl : Linked h (pre ++ ([⟨s, z, none⟩, ⟨s + z, w, none⟩] ++ post))) :
    ∃ a₁ a₂, setBlockSize h.arena s (z + w) = some a₁ ∧
      nextFree a₁ (s + z) = some (next h.arena.mem (s + z)) ∧
      setNextFree a₁ s (next h.arena.mem (s + z)) = some a₂ ∧ a₂.len = h.arena.len ∧
      (∀ j, j < s ∨ s + 16 ≤ j → a₂.mem j = h.arena.mem j) ∧
      Linked { h with arena := a₂ } (pre ++ ([⟨s, z + w, none⟩] ++ post)) := by
  have hbound := h.arena.bound
  have hfirst : (⟨s, z, none⟩ : Block) ∈ pre ++ ([⟨s, z, none⟩, ⟨s + z, w, none⟩] ++ post) :=
    List.mem_append_right _ (List.mem_cons_self ..)
  have hsecond : (⟨s + z, w, none⟩ : Block) ∈
      pre ++ ([⟨s, z, none⟩, ⟨s + z, w, none⟩] ++ post) :=
    List.mem_append_right _ (List.mem_cons_of_mem _ (List.mem_cons_self ..))
  have hstop := hl.stop_le hsecond
  have hshape := hl.shaped _ hfirst
  have hshape' := hl.shaped _ hsecond
  have hleast : 32 ≤ z := hshape.least
  have hleast' : 32 ≤ w := hshape'.least
  have hsize : z % 16 = 0 := hshape.size
  have hsize' : w % 16 = 0 := hshape'.size
  simp only [Segment.stop] at hstop
  obtain ⟨a₁, hw₁, hp₁⟩ :=
    writeU64_puts h.arena s (z + w) (by omega) (by omega)
  have hlen₁ := hp₁.len
  obtain ⟨a₂, hw₂, hp₂, hn₂⟩ := setNextFree_puts a₁ s
    (next h.arena.mem (s + z)) (by omega) (fun y hy => next_lt hy)
  have hnext : next a₁.mem (s + z) = next h.arena.mem (s + z) :=
    next_congr fun j hj _ => hp₁.frame j (.inr (by omega))
  have hsame : ∀ j, j < s ∨ s + 16 ≤ j → a₂.mem j = h.arena.mem j := by
    intro j hj
    rw [hp₂.frame j (by omega)]
    exact hp₁.frame j (by omega)
  have hframe : Frame h.arena.mem a₂.mem [⟨s, z, none⟩, ⟨s + z, w, none⟩]
      (frees pre).getLast? := by
    intro j hj _
    have hside := hj _ (List.mem_cons_self ..)
    simp only [Segment.stop] at hside
    exact hsame j (by omega)
  refine ⟨a₁, a₂, hw₁, ?_, hw₂, hp₂.len.trans hlen₁, hsame, ?_⟩
  · rw [nextFree_eq (by omega), hnext]
  refine hl.replace (some s) rfl (hp₂.len.trans hlen₁) ?_ ?_ ?_ hframe ?_ ?_
  · intro a e ht
    simp only [Tiles, Segment.stop] at ht ⊢
    omega
  · intro b hb
    cases List.mem_singleton.1 hb
    refine ⟨hshape.start, ?_, ?_, fun v hv => by cases hv⟩
    · show (z + w) % 16 = 0
      omega
    · show 32 ≤ z + w
      omega
  · intro b hb
    cases List.mem_singleton.1 hb
    rw [written_free]
    exact (hp₂.read_other (by omega)).trans hp₁.read
  · have hself : Relinked h h (frees pre).getLast? (some s) := by
      obtain ⟨target, hrel, htail⟩ := hl.cut (frees_append ..)
      rw [← htail.1]
      exact hrel
    refine hself.of_eq rfl fun q hq => next_congr fun j _ hj => hsame j (.inl ?_)
    obtain ⟨y, hq⟩ := mem_frees.1 (List.mem_of_getLast? hq)
    have hbefore := hl.tiles.around.1 _ hq
    have hqleast := (hl.shaped _ (List.mem_append_left _ hq)).least
    simp only [Segment.stop] at hbefore hqleast
    omega
  · refine ⟨rfl, ?_⟩
    rw [hn₂]
    refine hl.tail_chain hframe ?_
    have hchain := hl.chain
    rw [frees_append, frees_append] at hchain
    have hlist : Chain (next h.arena.mem) h.head
        ((frees pre ++ [s]) ++ (s + z) :: frees post) := by
      rw [List.append_assoc]
      exact hchain
    exact hlist.drop

def HeadFrame (m m' : Bytes) (s : ℕ) : Prop := ∀ j, j < s ∨ s + 16 ≤ j → m' j = m j

theorem Linked.size_free (hl : Linked h blocks) (hb : (⟨x, z, none⟩ : Block) ∈ blocks) :
    blockSize h.arena x = some z := by
  rw [(hl.head (mem_frees.2 ⟨z, hb⟩)).size_eq, written_free.1 (hl.written _ hb)]

theorem Linked.sum_eq (hl : Linked h blocks) (hb : (⟨x, z, none⟩ : Block) ∈ blocks) (hw : w ≤ x) :
    wrapAdd x z = x + z ∧ wrapAdd w z = w + z := by
  have hbound := h.arena.bound
  have hstop := hl.stop_le hb
  simp only [Segment.stop] at hstop
  exact ⟨wrapAdd_eq (by omega), wrapAdd_eq (by omega)⟩

theorem mergeForward_far (hl : Linked h (pre ++ ([⟨s, z, none⟩] ++ post)))
    (hhead : ∀ b ∈ post.head?, b.tag ≠ none) :
    FreeList.mergeForward h.arena s z (frees post).head? = some h.arena := by
  have hend := (hl.sum_eq (List.mem_append_right _ (List.mem_cons_self ..)) le_rfl).1
  cases hy : (frees post).head? with
  | none => rfl
  | some y =>
    have hfar : s + z ≠ y := by
      obtain ⟨q, hq⟩ := mem_frees.1 (List.mem_of_head? hy)
      cases post with
      | nil => cases hq
      | cons c rest =>
        obtain ⟨m, -, -, hc, hrest⟩ := tiles_append.1 hl.tiles
        have hleast := (hl.shaped c (by simp)).least
        rcases List.mem_cons.1 hq with rfl | hq
        · exact absurd rfl (hhead _ rfl)
        have hafter := (hrest.bounds hq).1
        simp only [Segment.stop] at hc hafter
        omega
    rw [FreeList.mergeForward, hend, if_neg hfar]

theorem merge_near (hl : Linked h (pre ++ ([⟨s, z, none⟩, ⟨s + z, w, none⟩] ++ post))) :
    ∃ a', FreeList.mergeForward h.arena s z (some (s + z)) = some a' ∧
      FreeList.mergeBackward h.arena (s + z) (some s) = some a' ∧
      a'.len = h.arena.len ∧ HeadFrame h.arena.mem a'.mem s ∧
      Linked { h with arena := a' } (pre ++ ([⟨s, z + w, none⟩] ++ post)) := by
  obtain ⟨a₁, a₂, hw₁, hn₁, hw₂, hlen, hsame, hl'⟩ := merge_spec hl
  have hend := (hl.sum_eq (x := s) (z := z) (by simp) le_rfl).1
  have hsum := (hl.sum_eq (x := s + z) (z := w) (w := z) (by simp) (by omega)).2
  have hfirst := hl.size_free (x := s) (z := z) (by simp)
  have hsecond := hl.size_free (x := s + z) (z := w) (by simp)
  refine ⟨a₂, ?_, ?_, hlen, hsame, hl'⟩
  · rw [FreeList.mergeForward, hend, if_pos rfl, hsecond, Option.bind_eq_bind, Option.bind_some,
      hsum]
    dsimp only
    rw [hw₁, Option.bind_eq_bind, Option.bind_some, hn₁, Option.bind_eq_bind,
      Option.bind_some, hw₂]
  · rw [FreeList.mergeBackward, hfirst, Option.bind_eq_bind, Option.bind_some, hend, if_pos rfl,
      hsecond, Option.bind_eq_bind, Option.bind_some, hsum]
    dsimp only
    rw [hw₁, Option.bind_eq_bind, Option.bind_some, hn₁, Option.bind_some, hw₂]

theorem mergeForward_spec (hl : Linked h (pre ++ ([⟨s, z, none⟩] ++ post)))
    (ha : post.IsChain Apart) :
    ∃ a' z' post', FreeList.mergeForward h.arena s z (frees post).head? = some a' ∧
      a'.len = h.arena.len ∧ HeadFrame h.arena.mem a'.mem s ∧
      Linked { h with arena := a' } (pre ++ ([⟨s, z', none⟩] ++ post')) ∧
      Coarser (pre ++ ([⟨s, z, none⟩] ++ post)) (pre ++ ([⟨s, z', none⟩] ++ post')) ∧
      List.IsChain Apart ([⟨s, z', none⟩] ++ post') := by
  by_cases hhead : ∀ b ∈ post.head?, b.tag ≠ none
  · exact ⟨h.arena, z, post, mergeForward_far hl hhead, rfl, fun _ _ => rfl, hl, Coarser.refl _,
      List.isChain_cons.2 ⟨fun b hb => .inr (hhead b hb), ha⟩⟩
  obtain ⟨w, rest, rfl⟩ : ∃ w rest, post = ⟨s + z, w, none⟩ :: rest := by
    cases post with
    | nil => exact absurd (fun b hb => by cases hb) hhead
    | cons c rest =>
      obtain ⟨t, w, tag⟩ := c
      obtain ⟨m, -, -, ht, -⟩ := tiles_append.1 hl.tiles
      cases tag with
      | none => exact ⟨w, rest, by rw [show t = s + z from ht]⟩
      | some v => exact absurd (fun b hb => by cases hb; exact Option.some_ne_none v) hhead
  have hpair : Linked h (pre ++ ([⟨s, z, none⟩, ⟨s + z, w, none⟩] ++ rest)) := hl
  obtain ⟨a', hmerge, -, hlen, hsame, hl'⟩ := merge_near hpair
  obtain ⟨hc, hrest⟩ := List.isChain_cons.1 ha
  refine ⟨a', z + w, rest, hmerge, hlen, hsame, hl', Coarser.join pre rest s z w,
    List.isChain_cons.2 ⟨?_, hrest⟩⟩
  intro b hb
  rcases hc b hb with hf | hb
  · exact absurd rfl hf
  · exact .inr hb

theorem mergeBackward_far (hl : Linked h (pre ++ ([⟨s, z, none⟩] ++ post)))
    (hlast : ∀ b ∈ pre.getLast?, b.tag ≠ none) :
    FreeList.mergeBackward h.arena s (frees pre).getLast? = some h.arena := by
  cases hq : (frees pre).getLast? with
  | none => rfl
  | some q =>
    obtain ⟨y, hy⟩ := mem_frees.1 (List.mem_of_getLast? hq)
    have hmem : (⟨q, y, none⟩ : Block) ∈ pre ++ ([⟨s, z, none⟩] ++ post) :=
      List.mem_append_left _ hy
    have hfar : q + y ≠ s := by
      rcases List.eq_nil_or_concat' pre with rfl | ⟨init, c, rfl⟩
      · cases hy
      have htiles := hl.tiles
      rw [List.append_assoc] at htiles
      obtain ⟨m, -, hc, hs, -⟩ := tiles_append.1 htiles
      have hleast := (hl.shaped c (by simp)).least
      rcases List.mem_append.1 hy with hy | hy
      · have hbefore := htiles.around.1 _ hy
        simp only [Segment.stop] at hbefore hs
        omega
      · cases List.mem_singleton.1 hy
        exact absurd rfl (hlast ⟨q, y, none⟩ List.getLast?_concat)
    rw [FreeList.mergeBackward, hl.size_free hmem, Option.bind_eq_bind, Option.bind_some,
      (hl.sum_eq hmem le_rfl).1, if_neg hfar, Option.pure_def]

/-- After both merges no two neighbours are free. -/
theorem mergeBackward_spec (hl : Linked h (pre ++ ([⟨s, z, none⟩] ++ post)))
    (hpre : pre.IsChain Apart) (hpost : List.IsChain Apart ([⟨s, z, none⟩] ++ post)) :
    ∃ a' blocks', FreeList.mergeBackward h.arena s (frees pre).getLast? = some a' ∧
      a'.len = h.arena.len ∧
      (∀ j, (∀ q, (frees pre).getLast? = some q → j < q ∨ q + 16 ≤ j) →
        a'.mem j = h.arena.mem j) ∧
      Models { h with arena := a' } blocks' ∧
      Coarser (pre ++ ([⟨s, z, none⟩] ++ post)) blocks' ∧ ∀ q ∈ frees pre, q ∈ frees blocks' := by
  by_cases hlast : ∀ b ∈ pre.getLast?, b.tag ≠ none
  · refine ⟨h.arena, pre ++ ([⟨s, z, none⟩] ++ post), mergeBackward_far hl hlast, rfl,
      fun _ _ => rfl, ⟨hl, ?_⟩, Coarser.refl _, ?_⟩
    · exact List.isChain_append.2 ⟨hpre, hpost, fun b hb c _ => .inl (hlast b hb)⟩
    intro q hq
    rw [frees_append]
    exact List.mem_append_left _ hq
  obtain ⟨init, t, w, rfl, rfl⟩ : ∃ init t w, pre = init ++ [⟨t, w, none⟩] ∧ s = t + w := by
    rcases List.eq_nil_or_concat' pre with rfl | ⟨init, c, rfl⟩
    · exact absurd (fun b hb => by cases hb) hlast
    obtain ⟨t, w, tag⟩ := c
    have htiles := hl.tiles
    rw [List.append_assoc] at htiles
    obtain ⟨m, -, -, hs, -⟩ := tiles_append.1 htiles
    cases tag with
    | none => exact ⟨init, t, w, rfl, hs⟩
    | some v =>
      refine absurd (fun b hb => ?_) hlast
      rw [List.getLast?_concat] at hb
      cases hb
      exact Option.some_ne_none v
  have hfrees : (frees (init ++ [⟨t, w, none⟩])).getLast? = some t := by
    rw [frees_append]
    exact List.getLast?_concat
  rw [List.append_assoc] at hl
  obtain ⟨a', -, hmerge, hlen, hsame, hl'⟩ := merge_near (w := z) hl
  obtain ⟨hinit, -, hbefore⟩ := List.isChain_append.1 hpre
  obtain ⟨hafter, hrest⟩ := List.isChain_cons.1 hpost
  refine ⟨a', init ++ ([⟨t, w + z, none⟩] ++ post), by rw [hfrees]; exact hmerge, hlen, ?_,
    ⟨hl', ?_⟩, by rw [List.append_assoc]; exact Coarser.join init post t w z, ?_⟩
  · intro j hj
    exact hsame j (hj t hfrees)
  · refine List.isChain_append.2 ⟨hinit, List.isChain_cons.2 ⟨?_, hrest⟩, ?_⟩
    · intro b hb
      rcases hafter b hb with hf | hb
      · exact absurd rfl hf
      · exact .inr hb
    intro b hb c _
    rcases hbefore b hb _ rfl with hb | hf
    · exact .inl hb
    · exact absurd rfl hf
  · intro q hq
    rw [frees_append] at hq ⊢
    rcases List.mem_append.1 hq with hq | hq
    · exact List.mem_append_left _ hq
    · cases List.mem_singleton.1 hq
      exact List.mem_append_right _ (List.mem_cons_self ..)

theorem insert_eq {h₁ : FreeList} {a₁ a₂ a₃ a₄ : Arena}
    (hplace : FreeList.findPlace h.arena s (h.arena.len + 1) none h.head = some (prev, cursor))
    (hsize : setBlockSize h.arena s z = some a₁) (hnext : setNextFree a₁ s cursor = some a₂)
    (hlink : FreeList.relink { h with arena := a₂ } prev (some s) = some h₁)
    (hforward : FreeList.mergeForward h₁.arena s z cursor = some a₃)
    (hbackward : FreeList.mergeBackward a₃ s prev = some a₄) :
    h.insert s z = some { h₁ with arena := a₄ } := by
  rw [FreeList.insert, hplace]
  simp only [Option.bind_eq_bind, Option.bind_some, hsize, hnext, hlink, hforward, hbackward,
    Option.pure_def]

theorem Linked.frees_around (hl : Linked h (pre ++ ([⟨s, z, some u⟩] ++ post))) (hleast : 32 ≤ z) :
    (∀ y ∈ frees pre, y + 32 ≤ s) ∧ ∀ y ∈ frees post, s < y := by
  constructor
  · intro y hy
    obtain ⟨k, hk⟩ := mem_frees.1 hy
    have hbefore := hl.tiles.around.1 _ hk
    have hyleast := (hl.shaped _ (List.mem_append_left _ hk)).least
    simp only [Segment.stop] at hbefore hyleast
    omega
  · intro y hy
    obtain ⟨k, hk⟩ := mem_frees.1 hy
    have hafter := hl.tiles.around.2 _ hk
    simp only [Segment.stop] at hafter
    omega

theorem insert_linked (hl : Linked h (pre ++ ([⟨s, z, some u⟩] ++ post))) :
    ∃ a₁ a₂ h₁,
      FreeList.findPlace h.arena s (h.arena.len + 1) none h.head =
        some ((frees pre).getLast?, (frees post).head?) ∧
      setBlockSize h.arena s z = some a₁ ∧ setNextFree a₁ s (frees post).head? = some a₂ ∧
      FreeList.relink { h with arena := a₂ } (frees pre).getLast? (some s) = some h₁ ∧
      h₁.arena.len = h.arena.len ∧
      (∀ j, (j < s ∨ s + 16 ≤ j) →
        (∀ q, (frees pre).getLast? = some q → j < q + 8 ∨ q + 16 ≤ j) →
        h₁.arena.mem j = h.arena.mem j) ∧
      Linked h₁ (pre ++ ([⟨s, z, none⟩] ++ post)) := by
  have hbound := h.arena.bound
  have hmem : (⟨s, z, some u⟩ : Block) ∈ pre ++ ([⟨s, z, some u⟩] ++ post) :=
    List.mem_append_right _ (List.mem_cons_self ..)
  have hshape := hl.shaped _ hmem
  have hleast : 32 ≤ z := hshape.least
  have hstop := hl.stop_le hmem
  simp only [Segment.stop] at hstop
  have hlist : frees (pre ++ ([⟨s, z, some u⟩] ++ post)) = frees pre ++ frees post := by
    rw [frees_append, frees_append]
    rfl
  have hchain := hl.chain
  have hcount := hl.length_le
  rw [hlist] at hchain hcount
  rw [List.length_append] at hcount
  obtain ⟨hfront, hbacks⟩ := hl.frees_around hleast
  have hplace := findPlace_eq none (h.arena.len + 1) hchain
    (fun y hy => hl.head (hlist ▸ List.mem_append_left _ hy))
    (fun y hy => by have := hfront y hy; omega) hbacks (by omega)
  rw [Option.or_none] at hplace
  -- the list after the block as it stands before the writes
  have hafter : Chain (next h.arena.mem) (frees post).head? (frees post) := by
    obtain ⟨c, -, htail⟩ := hchain.cut
    cases hp : frees post with
    | nil => rfl
    | cons y rest =>
      rw [hp] at htail
      exact ⟨rfl, htail.2⟩
  have hsmall : ∀ y, (frees post).head? = some y → y < nil := by
    intro y hy
    have hhead := hl.head (hlist ▸ List.mem_append_right _ (List.mem_of_head? hy))
    have hystop := hhead.stop
    unfold nil
    omega
  obtain ⟨a₁, hw₁, hp₁⟩ :=
    writeU64_puts h.arena s z (by omega) (by omega)
  have hlen₁ := hp₁.len
  obtain ⟨a₂, hw₂, hp₂, hn₂⟩ := setNextFree_puts a₁ s _ (by omega) hsmall
  have hlen₂ := hp₂.len
  obtain ⟨h₁, hw₃, hl₃, hlen₃, hf₃, hr₃⟩ := relink_spec { h with arena := a₂ }
    (frees pre).getLast? (some s) (by
      intro q hq
      have hbefore := hfront q (List.mem_of_getLast? hq)
      show q + 16 ≤ a₂.len
      omega) (by
      intro y hy
      cases hy
      unfold nil
      omega)
  have hsize₁ : h₁.arena.len = h.arena.len := by rw [hlen₃, hlen₂, hlen₁]
  have hsame₃ : ∀ j, s ≤ j → h₁.arena.mem j = a₂.mem j := by
    intro j hj
    refine hf₃ j (fun b hb => absurd hb List.not_mem_nil) fun q hq => ?_
    have hbefore := hfront q (List.mem_of_getLast? hq)
    omega
  have hsame : ∀ j, (j < s ∨ s + 16 ≤ j) →
      (∀ q, (frees pre).getLast? = some q → j < q + 8 ∨ q + 16 ≤ j) →
      h₁.arena.mem j = h.arena.mem j := by
    intro j hj hprev
    calc h₁.arena.mem j = a₂.mem j := hf₃ j (fun b hb => absurd hb List.not_mem_nil) hprev
      _ = a₁.mem j := hp₂.frame j (by omega)
      _ = h.arena.mem j := hp₁.frame j (by omega)
  have hframe : Frame h.arena.mem h₁.arena.mem [⟨s, z, some u⟩] (frees pre).getLast? := by
    intro j hj hprev
    have hside := hj _ (List.mem_singleton.2 rfl)
    simp only [Segment.stop] at hside
    exact hsame j (by omega) hprev
  refine ⟨a₁, a₂, h₁, hplace, hw₁, hw₂, hw₃, hsize₁, hsame, ?_⟩
  refine hl.replace _ hl₃ hsize₁ (fun a e ht => ht) ?_ ?_ hframe hr₃ ?_
  · intro b hb
    cases List.mem_singleton.1 hb
    exact ⟨hshape.start, hshape.size, hshape.least, fun v hv => by cases hv⟩
  · intro b hb
    cases List.mem_singleton.1 hb
    rw [written_free, ← hp₁.read, ← hp₂.read_other (x := s) (by omega)]
    exact readLe_congr fun j hj _ => hsame₃ j hj
  · have hlink : next h₁.arena.mem s = (frees post).head? := by
      rw [← hn₂]
      exact next_congr fun j hj _ => hsame₃ j (by omega)
    refine ⟨rfl, ?_⟩
    rw [hlink]
    exact hl.tail_chain hframe hafter

def Stale (m : Bytes) (x : ℕ) : Prop :=
  readLe m x 8 % 2 = 0 ∧ (readLe m (x + 8) 8 = nil ∨ x < readLe m (x + 8) 8)

theorem Stale.congr {m m' : Bytes} (hx : Stale m x)
    (hsame : ∀ j, x ≤ j → j < x + 16 → m' j = m j) : Stale m' x := by
  have hfirst : readLe m' x 8 = readLe m x 8 :=
    readLe_congr fun j hlow _ => hsame j hlow (by omega)
  have hsecond : readLe m' (x + 8) 8 = readLe m (x + 8) 8 :=
    readLe_congr fun j hlow hhigh => hsame j (by omega) (by omega)
  unfold Stale
  rw [hfirst, hsecond]
  exact hx

theorem Linked.stale (hl : Linked h blocks) (hx : x ∈ frees blocks) : Stale h.arena.mem x := by
  have heven := (hl.head hx).even
  refine ⟨by omega, ?_⟩
  have hsorted := frees_sorted hl.tiles hl.shaped
  have hchain := hl.chain
  obtain ⟨l, r, hlist⟩ := List.append_of_mem hx
  rw [hlist] at hsorted hchain
  have htail := hchain.drop
  unfold next decodeNext at htail
  by_cases hnil : readLe h.arena.mem (x + 8) 8 = nil
  · exact .inl hnil
  rw [if_neg hnil] at htail
  cases r with
  | nil => cases htail
  | cons y rest =>
    have hlt := (List.pairwise_cons.1 (List.pairwise_append.1 hsorted).2.1).1 y
      (List.mem_cons_self ..)
    exact .inr (Option.some.inj htail.1 ▸ hlt)

theorem dealloc_ok {h' : FreeList} {p : ℕ} (hcheck : FreeList.check h.arena p = some (.ok (s, z)))
    (hinsert : h.insert s z = some h') : h.dealloc p = some (.ok (), h') := by
  rw [FreeList.dealloc, hcheck]
  simp only [Option.bind_eq_bind, Option.bind_some, hinsert, Option.pure_def]

theorem dealloc_error {p : ℕ} {e : FreeError}
    (hcheck : FreeList.check h.arena p = some (.error e)) :
    h.dealloc p = some (.error e, h) := by
  rw [FreeList.dealloc, hcheck]
  simp only [Option.bind_eq_bind, Option.bind_some, Option.pure_def]

/-- The payload of a used block is given back. Of the arena only the first words of that block and
of free blocks change. -/
theorem dealloc_used (hm : Models h (pre ++ ([⟨s, z, some u⟩] ++ post))) :
    ∃ h' blocks', h.dealloc u.payload = some (.ok (), h') ∧ h'.arena.len = h.arena.len ∧
      Models h' blocks' ∧ Coarser (pre ++ ([⟨s, z, none⟩] ++ post)) blocks' ∧
      Stale h'.arena.mem s ∧
      ∀ j, (∀ x, x = s ∨ x ∈ frees blocks' → j < x ∨ x + 16 ≤ j) →
        h'.arena.mem j = h.arena.mem j := by
  have hl := hm.toLinked
  have hcheck := check_used hl (List.mem_append_right _ (List.mem_cons_self ..))
  obtain ⟨hpre, hmid, -⟩ := List.isChain_append.1 hm.apart
  obtain ⟨-, hpost⟩ := List.isChain_cons.1 hmid
  obtain ⟨a₁, a₂, h₁, hplace, hw₁, hw₂, hw₃, hlen₁, hsame₁, hl₁⟩ := insert_linked hl
  obtain ⟨a₃, z', post', hforward, hlen₃, hsame₃, hl₃, hcoarse₃, hapart₃⟩ :=
    mergeForward_spec hl₁ hpost
  obtain ⟨a₄, blocks', hbackward, hlen₄, hsame₄, hm₄, hcoarse₄, hkeep₄⟩ :=
    mergeBackward_spec hl₃ hpre hapart₃
  refine ⟨{ h₁ with arena := a₄ }, blocks', ?_, ?_, hm₄, hcoarse₃.trans hcoarse₄, ?_, ?_⟩
  · exact dealloc_ok hcheck (insert_eq hplace hw₁ hw₂ hw₃ hforward hbackward)
  · exact hlen₄.trans (hlen₃.trans hlen₁)
  · refine (hl₃.stale (mem_frees.2 ⟨z', by simp⟩)).congr fun j hlow _ => hsame₄ j fun q hq => ?_
    obtain ⟨y, hy⟩ := mem_frees.1 (List.mem_of_getLast? hq)
    have hbefore := hl₃.tiles.around.1 _ hy
    have hleast := (hl₃.shaped _ (List.mem_append_left _ hy)).least
    simp only [Segment.stop] at hbefore hleast
    omega
  · intro j hj
    have hown := hj s (.inl rfl)
    have hprev : ∀ q, (frees pre).getLast? = some q → j < q ∨ q + 16 ≤ j :=
      fun q hq => hj q (.inr (hkeep₄ q (List.mem_of_getLast? hq)))
    calc a₄.mem j = a₃.mem j := hsame₄ j hprev
      _ = h₁.arena.mem j := hsame₃ j hown
      _ = h.arena.mem j := by
        refine hsame₁ j hown fun q hq => ?_
        have hside := hprev q hq
        omega

end HarborKernel.Heap
