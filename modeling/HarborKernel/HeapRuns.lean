import HarborKernel.HeapFree
import HarborKernel.Transition
import Mathlib.Data.List.Pairwise

/-!
Runs of the heap. A state is a heap with the uses that are live; a run allocates, frees live
payloads, and lets the owners write into their payloads. In every state the bytes stand for blocks
whose uses are the live ones.
-/

namespace HarborKernel.Heap

open ByteWords BlockTiling Transition

structure State where
  heap : FreeList
  live : List Use

inductive Op
  | alloc (size align : ℕ)
  | dealloc (payload : ℕ)
  | write (u : Use) (off : ℕ) (v : UInt8)

def afterAlloc (s : State) (size align : ℕ) : Option ℕ × FreeList → State
  | (none, heap) => { s with heap }
  | (some payload, heap) => { heap, live := ⟨payload, size, align⟩ :: s.live }

def afterDealloc (s : State) (payload : ℕ) : Except FreeError Unit × FreeList → State
  | (.ok (), heap) => { heap, live := s.live.filter fun u => u.payload ≠ payload }
  | (.error _, heap) => { s with heap }

def ownerWrite (h : FreeList) (u : Use) (off : ℕ) (v : UInt8) : FreeList :=
  { h with arena := { h.arena with mem := Function.update h.arena.mem (u.payload + off) v } }

/-- A step without result is one that panics or does not end. -/
def step (s : State) : Op → Option State
  | .alloc size align => (s.heap.alloc size align).map (afterAlloc s size align)
  | .dealloc payload => (s.heap.dealloc payload).map (afterDealloc s payload)
  | .write u off v => some { s with heap := ownerWrite s.heap u off v }

/-- Requests are words, at most `isize::MAX` bytes large; only live payloads are freed and
written. -/
def Legal (s : State) : Op → Prop
  | .alloc size align => 0 < size ∧ size < 2 ^ 63 ∧ align < 2 ^ 64
  | .dealloc payload => ∃ u ∈ s.live, u.payload = payload
  | .write u off _ => u ∈ s.live ∧ off < u.size

def Fresh (s : State) : Prop :=
  ∃ arena, FreeList.new arena = some (some s.heap) ∧ s.live = []

abbrev Reachable (s : State) : Prop := Reach Fresh step Legal s

def Disjoint (u v : Use) : Prop :=
  u.payload + u.size ≤ v.payload ∨ v.payload + v.size ≤ u.payload

structure Stands (s : State) (blocks : List Block) : Prop where
  models : Models s.heap blocks
  uses : ∀ u, u ∈ s.live ↔ ∃ b ∈ blocks, b.tag = some u
  disjoint : s.live.Pairwise Disjoint
  room : 32 ≤ s.heap.arena.len / 16 * 16

def Kept (h h' : FreeList) (u : Use) : Prop :=
  ∀ j, u.payload ≤ j → j < u.payload + u.size → h'.arena.mem j = h.arena.mem j

variable {s s' : State} {h h' : FreeList} {blocks pre old post : List Block} {b c : Block}
  {u v : Use} {size align : ℕ}

theorem fresh_stands (hf : Fresh s) :
    Stands s [⟨0, s.heap.arena.len / 16 * 16, none⟩] := by
  obtain ⟨arena, hnew, hlive⟩ := hf
  have hbound := arena.bound
  have hlen : andNot arena.len (grain - 1) = arena.len / 16 * 16 :=
    andNot_two_pow (k := 4) (by decide) (by omega)
  by_cases hsmall : arena.len / 16 * 16 < 32
  · rw [FreeList.new, hlen] at hnew
    simp only [if_pos (show arena.len / 16 * 16 < minBlock from hsmall)] at hnew
    cases hnew
  obtain ⟨a₁, hw₁, hp₁⟩ := writeU64_puts arena 0 (arena.len / 16 * 16)
    (by omega) (by omega)
  have hlen₁ := hp₁.len
  obtain ⟨a₂, hw₂, hp₂, hn₂⟩ := setNextFree_puts a₁ 0 none (by omega)
    (fun y hy => by cases hy)
  have hlen₂ := hp₂.len
  rw [FreeList.new, hlen] at hnew
  simp only [if_neg (show ¬ arena.len / 16 * 16 < minBlock from hsmall), setBlockSize, hw₁, hw₂,
    Option.bind_eq_bind, Option.bind_some, Option.pure_def, Option.some.injEq] at hnew
  have hsize : s.heap.arena = a₂ := by rw [← hnew]
  have hhead : s.heap.head = some 0 := by rw [← hnew]
  have hslen : s.heap.len = a₂.len := by rw [← hnew]
  have heq : s.heap.arena.len / 16 * 16 = arena.len / 16 * 16 := by rw [hsize, hlen₂, hlen₁]
  refine ⟨⟨⟨?_, ?_, ?_, ?_, ?_⟩, List.isChain_singleton _⟩, ?_, ?_, by omega⟩
  · rw [hslen, hsize]
  · exact ⟨rfl, Nat.zero_add _⟩
  · intro b hb
    cases List.mem_singleton.1 hb
    refine ⟨rfl, ?_, ?_, fun u hu => by cases hu⟩
    · show s.heap.arena.len / 16 * 16 % 16 = 0
      omega
    · show 32 ≤ s.heap.arena.len / 16 * 16
      omega
  · intro b hb
    cases List.mem_singleton.1 hb
    rw [written_free, heq, hsize]
    exact (hp₂.read_other (by omega)).trans hp₁.read
  · refine ⟨hhead, ?_⟩
    rw [hsize, hn₂]
    rfl
  · intro u
    rw [hlive]
    constructor
    · intro hu
      cases hu
    · rintro ⟨b, hb, hu⟩
      cases List.mem_singleton.1 hb
      cases hu
  · rw [hlive]
    exact List.Pairwise.nil

theorem Linked.used_kept {m' : Bytes} (hl : Linked h (pre ++ (old ++ post)))
    (hf : Frame h.arena.mem m' old (frees pre).getLast?) (hb : b ∈ pre ++ post)
    (ht : b.tag ≠ none) {j : ℕ} (hlow : b.start ≤ j) (hhigh : j < b.stop) :
    m' j = h.arena.mem j := by
  have hmem : b ∈ pre ++ (old ++ post) := by
    simp only [List.mem_append] at hb ⊢
    exact hb.imp_right .inr
  refine hf j ?_ ?_
  · intro c hc
    have hside := hl.outside hb c hc
    omega
  intro q hq
  obtain ⟨y, hy⟩ := mem_frees.1 (List.mem_of_getLast? hq)
  have hqmem : (⟨q, y, none⟩ : Block) ∈ pre ++ (old ++ post) := List.mem_append_left _ hy
  have hleast := (hl.shaped _ hqmem).least
  rcases hl.tiles.apart hmem hqmem with rfl | hside
  · exact absurd rfl ht
  · simp only [Segment.stop] at hside hleast hhigh
    omega

theorem Linked.payload_in (hl : Linked h blocks) (hb : b ∈ blocks) (ht : b.tag = some u) {j : ℕ}
    (hlow : u.payload ≤ j) (hhigh : j < u.payload + u.size) : b.start ≤ j ∧ j < b.stop := by
  obtain ⟨hstart, -, -, hend, -⟩ := (hl.shaped b hb).use u ht
  omega

theorem Linked.disjoint (hl : Linked h blocks) (hb : b ∈ blocks) (hc : c ∈ blocks) (hne : b ≠ c)
    (hu : b.tag = some u) (hv : c.tag = some v) : Disjoint u v := by
  obtain ⟨hlow, -, -, hhigh, -⟩ := (hl.shaped b hb).use u hu
  obtain ⟨hlow', -, -, hhigh', -⟩ := (hl.shaped c hc).use v hv
  unfold Disjoint
  rcases hl.tiles.apart hb hc with heq | hside
  · exact absurd heq hne
  · omega

theorem mem_carve {s z tail : ℕ} :
    (∃ b ∈ carve s z tail u, b.tag = some v) ↔ v = u := by
  unfold carve
  split
  · constructor
    · rintro ⟨b, hb, hv⟩
      rcases List.mem_cons.1 hb with rfl | hb
      · exact (Option.some.inj hv).symm
      · cases List.mem_singleton.1 hb
        cases hv
    · rintro rfl
      exact ⟨_, List.mem_cons_self .., rfl⟩
  constructor
  · rintro ⟨b, hb, hv⟩
    cases List.mem_singleton.1 hb
    exact (Option.some.inj hv).symm
  · rintro rfl
    exact ⟨_, List.mem_cons_self .., rfl⟩

theorem Stands.alloc_found {start z k : ℕ} (hs : Stands s (pre ++ ([⟨start, z, none⟩] ++ post)))
    (hpos : 0 < size) (hsize : size < 2 ^ 63) (hk : k ≤ 63)
    (hskip : ∀ b ∈ pre, b.tag = none → ¬ Hosts size (2 ^ k) b)
    (hfit : Hosts size (2 ^ k) ⟨start, z, none⟩) :
    ∃ h', s.heap.alloc size (2 ^ k) = some (some (roundUp (start + 16) (2 ^ k)), h') ∧
      h'.arena.len = s.heap.arena.len ∧
      Stands (afterAlloc s size (2 ^ k) (some (roundUp (start + 16) (2 ^ k)), h'))
        (pre ++ (carve start z (roundUp (start + 16) (2 ^ k) + roundUp size 16)
          ⟨roundUp (start + 16) (2 ^ k), size, 2 ^ k⟩ ++ post)) ∧
      ∀ u ∈ s.live, Kept s.heap h' u := by
  have hl := hs.models.toLinked
  obtain ⟨h', halloc, hlen, hf, hm⟩ := Heap.alloc_found hs.models hpos hsize hk hskip hfit
  -- the blocks of the uses that were live stand on both sides
  have hside : ∀ u, u ∈ s.live ↔ ∃ b ∈ pre ++ post, b.tag = some u := by
    intro u
    rw [hs.uses u]
    constructor
    · rintro ⟨b, hb, hu⟩
      refine ⟨b, ?_, hu⟩
      simp only [List.mem_append, List.mem_singleton] at hb ⊢
      rcases hb with hb | rfl | hb
      · exact .inl hb
      · cases hu
      · exact .inr hb
    · rintro ⟨b, hb, hu⟩
      refine ⟨b, ?_, hu⟩
      simp only [List.mem_append] at hb ⊢
      exact hb.imp_right .inr
  refine ⟨h', halloc, hlen, ⟨hm, ?_, ?_, hlen.symm ▸ hs.room⟩, ?_⟩
  · intro v
    simp only [afterAlloc, List.mem_cons, hside v, List.mem_append]
    constructor
    · rintro (hv | ⟨b, hb, hv⟩)
      · obtain ⟨b, hb, hv⟩ := mem_carve.2 hv
        exact ⟨b, .inr (.inl hb), hv⟩
      · exact ⟨b, hb.imp_right .inr, hv⟩
    · rintro ⟨b, hb | hb | hb, hv⟩
      · exact .inr ⟨b, .inl hb, hv⟩
      · exact .inl (mem_carve.1 ⟨b, hb, hv⟩)
      · exact .inr ⟨b, .inr hb, hv⟩
  · refine List.pairwise_cons.2 ⟨?_, hs.disjoint⟩
    intro v hv
    obtain ⟨b, hb, hbv⟩ := (hside v).1 hv
    obtain ⟨c, hc, hcu⟩ := mem_carve.2
      (rfl : (⟨roundUp (start + 16) (2 ^ k), size, 2 ^ k⟩ : Use) = _)
    have hc' := List.mem_append_right pre (List.mem_append_left post hc)
    have hb' := hm.toLinked.outside hb c hc
    obtain ⟨hlow, -, -, hhigh, -⟩ := (hm.shaped c hc').use _ hcu
    obtain ⟨hlow', -, -, hhigh', -⟩ := (hm.shaped b (by
      simp only [List.mem_append] at hb ⊢
      exact hb.imp_right .inr)).use v hbv
    unfold Disjoint
    simp only at hlow hhigh ⊢
    omega
  · intro u hu j hlow hhigh
    obtain ⟨b, hb, hbu⟩ := (hside u).1 hu
    have hin := hl.payload_in (b := b) (by
      simp only [List.mem_append] at hb ⊢
      exact hb.imp_right .inr) hbu hlow hhigh
    exact hl.used_kept hf hb (by rw [hbu]; exact Option.some_ne_none u) hin.1 hin.2

theorem exists_first_host (blocks : List Block) (size align : ℕ) :
    (∀ b ∈ blocks, b.tag = none → ¬ Hosts size align b) ∨
      ∃ pre start z post, blocks = pre ++ ([⟨start, z, none⟩] ++ post) ∧
        Hosts size align ⟨start, z, none⟩ ∧
        ∀ b ∈ pre, b.tag = none → ¬ Hosts size align b := by
  induction blocks with
  | nil => exact .inl fun b hb => absurd hb List.not_mem_nil
  | cons c rest ih =>
    by_cases hc : c.tag = none ∧ Hosts size align c
    · obtain ⟨start, z, tag⟩ := c
      obtain ⟨rfl, hfit⟩ := hc
      exact .inr ⟨[], start, z, rest, rfl, hfit, fun b hb => absurd hb List.not_mem_nil⟩
    have hno : c.tag = none → ¬ Hosts size align c := fun ht hfit => hc ⟨ht, hfit⟩
    rcases ih with hall | ⟨pre, start, z, post, rfl, hfit, hskip⟩
    · exact .inl (List.forall_mem_cons.2 ⟨hno, hall⟩)
    · exact .inr ⟨c :: pre, start, z, post, rfl, hfit, List.forall_mem_cons.2 ⟨hno, hskip⟩⟩

theorem exponent_le {k : ℕ} (h : 2 ^ k < 2 ^ 64) : k ≤ 63 := by
  have hlt := (Nat.pow_lt_pow_iff_right (by decide : 1 < 2)).1 h
  omega

theorem Stands.alloc (hs : Stands s blocks) (hpos : 0 < size) (hsize : size < 2 ^ 63)
    (halign : align < 2 ^ 64) :
    ∃ r, s.heap.alloc size align = some r ∧
      (∃ blocks', Stands (afterAlloc s size align r) blocks') ∧
      ∀ u ∈ s.live, Kept s.heap r.2 u := by
  cases hpow : isPowerOfTwo align with
  | false => exact ⟨(none, s.heap), alloc_refused (.inr hpow), ⟨blocks, hs⟩, fun _ _ _ _ _ => rfl⟩
  | true =>
    obtain ⟨k, rfl⟩ := isPowerOfTwo_iff.1 hpow
    have hk := exponent_le halign
    rcases exists_first_host blocks size (2 ^ k) with
      hno | ⟨pre, start, z, post, rfl, hfit, hskip⟩
    · exact ⟨(none, s.heap), alloc_none hs.models.toLinked hpos hsize hk hno, ⟨blocks, hs⟩,
        fun _ _ _ _ _ => rfl⟩
    · obtain ⟨h', halloc, -, hs', hkept⟩ := hs.alloc_found hpos hsize hk hskip hfit
      exact ⟨_, halloc, ⟨_, hs'⟩, hkept⟩

theorem Stands.dealloc (hs : Stands s blocks) (hu : u ∈ s.live) :
    ∃ h' blocks', s.heap.dealloc u.payload = some (.ok (), h') ∧
      h'.arena.len = s.heap.arena.len ∧
      Stands (afterDealloc s u.payload (.ok (), h')) blocks' ∧
      (∀ b ∈ blocks, b.tag = none ∨ b.tag = some u →
        ∃ f ∈ blocks', f.tag = none ∧ f.start ≤ b.start ∧ b.stop ≤ f.stop) ∧
      (∃ b ∈ blocks, b.tag = some u ∧ Stale h'.arena.mem b.start ∧
        ∀ j, (∀ x, x = b.start ∨ x ∈ frees blocks' → j < x ∨ x + 16 ≤ j) →
          h'.arena.mem j = s.heap.arena.mem j) ∧
      ∀ v ∈ s.live, v.payload ≠ u.payload → Kept s.heap h' v := by
  obtain ⟨b, hb, htag⟩ := (hs.uses u).1 hu
  obtain ⟨pre, post, rfl⟩ := List.append_of_mem hb
  obtain ⟨start, z, tag⟩ := b
  cases htag
  have hm : Models s.heap (pre ++ ([⟨start, z, some u⟩] ++ post)) := hs.models
  have hl := hm.toLinked
  obtain ⟨h', blocks', hfree, hlen, hm', hcoarse, hstale, hsame⟩ := dealloc_used hm
  -- the other uses are those of the blocks on both sides
  have hside : ∀ v, (v ∈ s.live ∧ v.payload ≠ u.payload) ↔ ∃ b ∈ pre ++ post, b.tag = some v := by
    intro v
    rw [hs.uses v]
    constructor
    · rintro ⟨⟨c, hc, hv⟩, hne⟩
      rcases List.mem_append.1 hc with hc | hc
      · exact ⟨c, List.mem_append_left _ hc, hv⟩
      rcases List.mem_cons.1 hc with rfl | hc
      · cases hv
        exact absurd rfl hne
      · exact ⟨c, List.mem_append_right _ hc, hv⟩
    · rintro ⟨c, hc, hv⟩
      have hmem : c ∈ pre ++ ([⟨start, z, some u⟩] ++ post) := by
        simp only [List.mem_append] at hc ⊢
        exact hc.imp_right .inr
      refine ⟨⟨c, hmem, hv⟩, ?_⟩
      have hout := hl.outside hc _ (List.mem_singleton.2 rfl)
      obtain ⟨hlow, -, hpos, hhigh, -⟩ := (hl.shaped c hmem).use v hv
      obtain ⟨hlow', -, hpos', hhigh', -⟩ := (hl.shaped _ hb).use u rfl
      omega
  have hused : ∀ c : Block, c.tag ≠ none → (c ∈ blocks' ↔ c ∈ pre ++ post) := by
    intro c hc
    rw [hcoarse.used c hc]
    have hne : c ≠ ⟨start, z, none⟩ := by
      rintro rfl
      exact hc rfl
    simp only [List.mem_append, List.mem_singleton, hne, false_or]
  refine ⟨h', blocks', hfree, hlen, ⟨hm', ?_, hs.disjoint.filter _, hlen.symm ▸ hs.room⟩, ?_,
    ⟨_, hb, rfl, hstale, hsame⟩, ?_⟩
  · intro v
    simp only [afterDealloc, List.mem_filter, decide_eq_true_eq, hside v]
    constructor
    · rintro ⟨c, hc, hv⟩
      exact ⟨c, (hused c (by rw [hv]; exact Option.some_ne_none v)).2 hc, hv⟩
    · rintro ⟨c, hc, hv⟩
      exact ⟨c, (hused c (by rw [hv]; exact Option.some_ne_none v)).1 hc, hv⟩
  · intro c hc ht
    rcases List.mem_append.1 hc with hc' | hc'
    · rcases ht with ht | ht
      · exact hcoarse.free c (List.mem_append_left _ hc') ht
      · have hmem := (hside u).2 ⟨c, List.mem_append_left _ hc', ht⟩
        exact absurd rfl hmem.2
    rcases List.mem_cons.1 hc' with rfl | hc'
    · exact hcoarse.free ⟨start, z, none⟩ (by simp) rfl
    rcases ht with ht | ht
    · exact hcoarse.free c (by simp [hc']) ht
    · have hmem := (hside u).2 ⟨c, List.mem_append_right _ hc', ht⟩
      exact absurd rfl hmem.2
  · intro v hv hne j hlow hhigh
    obtain ⟨c, hc, hcv⟩ := (hside v).1 ⟨hv, hne⟩
    have hcne : c.tag ≠ none := by
      rw [hcv]
      exact Option.some_ne_none v
    have hc' := (hused c hcne).2 hc
    have hin := hm'.toLinked.payload_in hc' hcv hlow hhigh
    refine hsame j ?_
    rintro x (rfl | hx)
    · have hout := hl.outside hc _ (List.mem_singleton.2 rfl)
      have hleast := (hl.shaped _ hb).least
      simp only [Segment.stop] at hout hleast hin
      omega
    obtain ⟨y, hy⟩ := mem_frees.1 hx
    have hleast := (hm'.shaped _ hy).least
    rcases hm'.tiles.apart hc' hy with rfl | hout
    · exact absurd rfl hcne
    · simp only [Segment.stop] at hout hleast hin
      omega

/-- An owner that writes into its payload leaves the blocks and the other payloads alone. -/
theorem Stands.write (hs : Stands s blocks) (hu : u ∈ s.live) {off : ℕ} (hoff : off < u.size)
    (val : UInt8) :
    Stands { s with heap := ownerWrite s.heap u off val } blocks ∧
      (∀ j, (j < u.payload ∨ u.payload + u.size ≤ j) →
        (ownerWrite s.heap u off val).arena.mem j = s.heap.arena.mem j) ∧
      ∀ v ∈ s.live, v ≠ u → Kept s.heap (ownerWrite s.heap u off val) v := by
  obtain ⟨b, hb, htag⟩ := (hs.uses u).1 hu
  obtain ⟨pre, post, rfl⟩ := List.append_of_mem hb
  have hl : Linked s.heap (pre ++ ([b] ++ post)) := hs.models.toLinked
  obtain ⟨hlow, -, -, hhigh, -⟩ := (hl.shaped b hb).use u htag
  have hsame : ∀ j, (j < u.payload ∨ u.payload + u.size ≤ j) →
      (ownerWrite s.heap u off val).arena.mem j = s.heap.arena.mem j := by
    intro j hj
    exact Function.update_of_ne (by omega) _ _
  have hframe : Frame s.heap.arena.mem (ownerWrite s.heap u off val).arena.mem [b]
      (frees pre).getLast? := by
    intro j hj _
    have hside := hj b (List.mem_singleton.2 rfl)
    exact hsame j (by omega)
  have hlinked : Linked (ownerWrite s.heap u off val) (pre ++ ([b] ++ post)) := by
    have hnone : frees [b] = [] := by
      simp only [frees, List.filter_cons, htag, Option.isNone_some, Bool.false_eq_true, if_false,
        List.filter_nil, List.map_nil]
    have hlist : frees (pre ++ b :: post) = frees pre ++ frees post := by
      rw [← List.singleton_append, frees_append, frees_append, hnone, List.nil_append]
    obtain ⟨target, hrel, htail⟩ := hl.cut hlist
    refine hl.replace target rfl rfl (fun a e ht => ht)
      ?_ ?_ hframe ?_ ?_
    · intro c hc
      cases List.mem_singleton.1 hc
      exact hl.shaped b hb
    · intro c hc
      cases List.mem_singleton.1 hc
      refine (hl.written b hb).congr fun j hj => hsame j (.inl ?_)
      rcases hj with hj | ⟨v, hv, hj⟩
      · omega
      rw [htag] at hv
      cases hv
      omega
    · refine hrel.of_eq rfl fun q hq => next_congr fun j _ hj => hsame j (.inl ?_)
      obtain ⟨y, hy⟩ := mem_frees.1 (List.mem_of_getLast? hq)
      have hbefore := hl.tiles.around.1 _ hy
      have hleast := (hl.shaped _ (List.mem_append_left _ hy)).least
      simp only [Segment.stop] at hbefore hleast
      omega
    · rw [hnone]
      exact hl.tail_chain hframe htail
  refine ⟨⟨⟨hlinked, hs.models.apart⟩, hs.uses, hs.disjoint, hs.room⟩, hsame, ?_⟩
  intro v hv hne j hvlow hvhigh
  obtain ⟨c, hc, hcv⟩ := (hs.uses v).1 hv
  have hbc : b ≠ c := by
    rintro rfl
    rw [htag] at hcv
    exact hne (Option.some.inj hcv).symm
  have hapart := hl.disjoint hb hc hbc htag hcv
  unfold Disjoint at hapart
  exact hsame j (by omega)

/-- A legal step has a result, a state with blocks, in which every payload that is still live has
its bytes, unless its owner wrote them. -/
theorem Stands.step {op : Op} (hs : Stands s blocks) (hok : Legal s op) :
    ∃ s', Heap.step s op = some s' ∧ (∃ blocks', Stands s' blocks') ∧
      ∀ u ∈ s.live, u ∈ s'.live → (∀ off v, op ≠ .write u off v) → Kept s.heap s'.heap u := by
  cases op with
  | alloc size align =>
    obtain ⟨hpos, hsize, halign⟩ := hok
    obtain ⟨r, halloc, hstands, hkept⟩ := hs.alloc hpos hsize halign
    refine ⟨afterAlloc s size align r, by rw [Heap.step, halloc]; rfl, hstands, ?_⟩
    intro u hu _ _
    have hheap : (afterAlloc s size align r).heap = r.2 := by
      obtain ⟨_ | p, heap⟩ := r <;> rfl
    rw [hheap]
    exact hkept u hu
  | dealloc payload =>
    obtain ⟨u, hu, rfl⟩ := hok
    obtain ⟨h', blocks', hfree, -, hstands, -, -, hkept⟩ := hs.dealloc hu
    refine ⟨_, by rw [Heap.step, hfree]; rfl, ⟨blocks', hstands⟩, ?_⟩
    intro v hv hv' _
    refine hkept v hv ?_
    simp only [afterDealloc, List.mem_filter, decide_eq_true_eq] at hv'
    exact hv'.2
  | write u off v =>
    obtain ⟨hu, hoff⟩ := hok
    obtain ⟨hstands, -, hkept⟩ := hs.write hu hoff v
    refine ⟨_, rfl, ⟨blocks, hstands⟩, ?_⟩
    intro w hw _ hne
    refine hkept w hw ?_
    rintro rfl
    exact hne off v rfl

theorem Reachable.stands (hr : Reachable s) : ∃ blocks, Stands s blocks := by
  refine hr.invariant (I := fun s => ∃ blocks, Stands s blocks) ?_ ?_
  · intro s hf
    exact ⟨_, fresh_stands hf⟩
  rintro s op s' ⟨blocks, hs⟩ hok hstep
  obtain ⟨s₁, hstep₁, hstands, -⟩ := hs.step hok
  rw [hstep] at hstep₁
  cases hstep₁
  exact hstands

end HarborKernel.Heap
