import HarborKernel.BlockTiling
import HarborKernel.FreeList
import Mathlib.Data.Nat.Bitwise

/-!
What the bytes of an arena stand for. The arena is tiled by blocks; a block is free, or it has a
user with a payload. The size word of a block carries the mark in its low bit, the word before a
payload names the block, and the second word of a free block links it to the next free one. The
words that a block is read from lie inside the block and outside its payload, so a write that
stays away from them changes nothing about it.
-/

namespace HarborKernel.Heap

open ByteWords BlockTiling

variable {a b n : ℕ}

theorem wrapAdd_eq (h : a + b < 2 ^ 64) : wrapAdd a b = a + b := Nat.mod_eq_of_lt h

theorem wrapSub_eq (h : b ≤ a) (ha : a < 2 ^ 64) : wrapSub a b = a - b := by
  unfold wrapSub
  omega

/-- Clearing the low bits rounds down to a power of two. -/
theorem andNot_two_pow {k : ℕ} (hk : k ≤ 64) (ha : a < 2 ^ 64) :
    andNot a (2 ^ k - 1) = a / 2 ^ k * 2 ^ k := by
  have hmask : 2 ^ 64 - 1 - (2 ^ k - 1) = 2 ^ k * (2 ^ (64 - k) - 1) := by
    have hpos := Nat.one_le_two_pow (n := k)
    rw [Nat.mul_sub, ← Nat.pow_add, Nat.add_sub_cancel' hk, Nat.mul_one]
    omega
  unfold andNot
  rw [hmask]
  apply Nat.eq_of_testBit_eq
  intro i
  rw [Nat.mul_comm (a / 2 ^ k), Nat.testBit_and, Nat.testBit_two_pow_mul, Nat.testBit_two_pow_mul,
    Nat.testBit_two_pow_sub_one, Nat.testBit_div_two_pow]
  by_cases hi : k ≤ i
  · rw [Nat.sub_add_cancel hi]
    by_cases hhigh : i < 64
    · have hlow : i - k < 64 - k := by omega
      simp [hi, hlow]
    have hbit : a.testBit i = false := by
      apply Nat.testBit_lt_two_pow
      exact lt_of_lt_of_le ha (Nat.pow_le_pow_right (by decide) (by omega))
    simp [hbit]
  · simp [hi]

theorem andNot_mark (ha : a < 2 ^ 64) : andNot a allocated = a / 2 * 2 :=
  andNot_two_pow (k := 1) (by decide) ha

theorem or_mark (h : a % 2 = 0) : a ||| allocated = a + 1 := by
  have hor := Nat.shiftLeft_add_eq_or_of_lt (b := 1) (i := 1) (by decide) (a / 2)
  rw [Nat.shiftLeft_eq] at hor
  have heven : a / 2 * 2 ^ 1 = a := by omega
  rw [heven] at hor
  exact hor.symm

def roundUp (value align : ℕ) : ℕ := (value + align - 1) / align * align

theorem le_roundUp (v : ℕ) (ha : 0 < a) : v ≤ roundUp v a := by
  unfold roundUp
  have hmod := Nat.mod_add_div' (v + a - 1) a
  have hlt := Nat.mod_lt (v + a - 1) ha
  omega

theorem roundUp_dvd (v a : ℕ) : a ∣ roundUp v a := Nat.dvd_mul_left ..

theorem roundUp_mono {v w : ℕ} (h : v ≤ w) : roundUp v a ≤ roundUp w a :=
  Nat.mul_le_mul_right a (Nat.div_le_div_right (by omega))

theorem roundUp_of_dvd {v : ℕ} (ha : 0 < a) (h : a ∣ v) : roundUp v a = v := by
  obtain ⟨k, rfl⟩ := h
  unfold roundUp
  have hdiv : (a * k + a - 1) / a = k := by
    rw [Nat.add_sub_assoc ha, Nat.mul_add_div ha, Nat.div_eq_of_lt (by omega), Nat.add_zero]
  rw [hdiv, Nat.mul_comm]

theorem roundUp_grained {v k : ℕ} (h : v % 16 = 0) : roundUp v (2 ^ k) % 16 = 0 := by
  by_cases hk : k ≤ 4
  · have hdvd : 2 ^ k ∣ v :=
      Nat.dvd_trans (Nat.pow_dvd_pow 2 hk) (Nat.dvd_of_mod_eq_zero h)
    rw [roundUp_of_dvd (Nat.two_pow_pos k) hdvd]
    exact h
  · have hdvd : 2 ^ 4 ∣ 2 ^ k := Nat.pow_dvd_pow 2 (by omega)
    exact Nat.mod_eq_zero_of_dvd (Nat.dvd_trans hdvd (roundUp_dvd v (2 ^ k)))

theorem alignUp_eq {v k : ℕ} (hk : k ≤ 64) (h : v + 2 ^ k < 2 ^ 64) :
    alignUp v (2 ^ k) = roundUp v (2 ^ k) := by
  have hpos := Nat.one_le_two_pow (n := k)
  unfold alignUp
  rw [wrapAdd_eq h, wrapSub_eq (by omega) h, andNot_two_pow hk (by omega), roundUp]

theorem isPowerOfTwo_iff : isPowerOfTwo a = true ↔ ∃ k, a = 2 ^ k := by
  unfold isPowerOfTwo
  rw [decide_eq_true_iff]
  constructor
  · intro h
    exact ⟨a.log2, h.symm⟩
  · rintro ⟨k, rfl⟩
    rw [Nat.log2_two_pow]

structure Use where
  payload : ℕ
  size : ℕ
  align : ℕ
deriving DecidableEq

abbrev Block := Segment (Option Use)

structure Shaped (b : Block) : Prop where
  start : b.start % 16 = 0
  size : b.size % 16 = 0
  least : 32 ≤ b.size
  use : ∀ u, b.tag = some u → b.start + 16 ≤ u.payload ∧ u.payload % 16 = 0 ∧ 0 < u.size ∧
    u.payload + u.size ≤ b.stop ∧ u.align ∣ u.payload

def Written (m : Bytes) (b : Block) : Prop :=
  match b.tag with
  | none => readLe m b.start 8 = b.size
  | some u => readLe m b.start 8 = b.size + 1 ∧ readLe m (u.payload - 8) 8 = b.start

def Book (b : Block) (j : ℕ) : Prop :=
  (b.start ≤ j ∧ j < b.start + 8) ∨ ∃ u, b.tag = some u ∧ u.payload - 8 ≤ j ∧ j < u.payload - 8 + 8

def next (m : Bytes) (x : ℕ) : Option ℕ := decodeNext (readLe m (x + 8) 8)

def frees (blocks : List Block) : List ℕ :=
  (blocks.filter fun b => b.tag.isNone).map Segment.start

structure Linked (h : FreeList) (blocks : List Block) : Prop where
  len : h.len = h.arena.len
  tiles : Tiles 0 blocks (h.arena.len / 16 * 16)
  shaped : ∀ b ∈ blocks, Shaped b
  written : ∀ b ∈ blocks, Written h.arena.mem b
  chain : Chain (next h.arena.mem) h.head (frees blocks)

def Apart (b c : Block) : Prop := b.tag ≠ none ∨ c.tag ≠ none

structure Models (h : FreeList) (blocks : List Block) : Prop extends Linked h blocks where
  apart : blocks.IsChain Apart

/-- Only the blocks `old` and the next pointer of `prev` have changed. -/
def Frame (m m' : Bytes) (old : List Block) (prev : Option ℕ) : Prop :=
  ∀ j, (∀ b ∈ old, j < b.start ∨ b.stop ≤ j) → (∀ p, prev = some p → j < p + 8 ∨ p + 16 ≤ j) →
    m' j = m j

def Relinked (h h' : FreeList) (prev target : Option ℕ) : Prop :=
  match prev with
  | none => h'.head = target
  | some last => h'.head = h.head ∧ next h'.arena.mem last = target

variable {m m' : Bytes} {c d : Block} {x y j e : ℕ} {prev target : Option ℕ}
  {blocks pre old mid post : List Block} {h h' : FreeList}

theorem frees_append (l r : List Block) : frees (l ++ r) = frees l ++ frees r := by
  simp only [frees, List.filter_append, List.map_append]

theorem frees_free (s z : ℕ) (l : List Block) :
    frees (⟨s, z, none⟩ :: l) = s :: frees l := rfl

theorem frees_used (s z : ℕ) (u : Use) (l : List Block) :
    frees (⟨s, z, some u⟩ :: l) = frees l := rfl

theorem mem_frees : x ∈ frees blocks ↔ ∃ z, (⟨x, z, none⟩ : Block) ∈ blocks := by
  simp only [frees, List.mem_map, List.mem_filter, Option.isNone_iff_eq_none]
  constructor
  · rintro ⟨⟨s, z, t⟩, ⟨hmem, ht⟩, rfl⟩
    cases ht
    exact ⟨z, hmem⟩
  · rintro ⟨z, hmem⟩
    exact ⟨_, ⟨hmem, rfl⟩, rfl⟩

/-- The free blocks are listed in the order of their addresses. -/
theorem frees_sorted (ht : Tiles a blocks e) (hs : ∀ b ∈ blocks, Shaped b) :
    (frees blocks).Pairwise (· < ·) := by
  induction blocks generalizing a with
  | nil => exact List.Pairwise.nil
  | cons b rest ih =>
    have hrest := ih ht.2 fun c hc => hs c (List.mem_cons_of_mem b hc)
    obtain ⟨start, size, tag⟩ := b
    cases tag with
    | some u => exact hrest
    | none =>
      refine List.pairwise_cons.2 ⟨?_, hrest⟩
      intro x hx
      obtain ⟨z, hmem⟩ := mem_frees.1 hx
      have hlow := (ht.2.bounds hmem).1
      have hleast := (hs _ (List.mem_cons_self ..)).least
      simp only [Segment.stop] at hlow hleast ⊢
      omega

theorem written_free {s z : ℕ} : Written m ⟨s, z, none⟩ ↔ readLe m s 8 = z := Iff.rfl

theorem written_used {s z : ℕ} {u : Use} :
    Written m ⟨s, z, some u⟩ ↔ readLe m s 8 = z + 1 ∧ readLe m (u.payload - 8) 8 = s := Iff.rfl

theorem Written.congr (hw : Written m c) (hsame : ∀ j, Book c j → m' j = m j) : Written m' c := by
  unfold Written at hw ⊢
  have hfirst : readLe m' c.start 8 = readLe m c.start 8 :=
    readLe_congr fun j hlow hhigh => hsame j (.inl ⟨hlow, hhigh⟩)
  cases hu : c.tag with
  | none =>
    simp only [hu] at hw ⊢
    rw [hfirst]
    exact hw
  | some u =>
    have hsecond : readLe m' (u.payload - 8) 8 = readLe m (u.payload - 8) 8 :=
      readLe_congr fun j hlow hhigh => hsame j (.inr ⟨u, hu, hlow, hhigh⟩)
    simp only [hu] at hw ⊢
    rw [hfirst, hsecond]
    exact hw

theorem next_congr (hsame : ∀ j, x + 8 ≤ j → j < x + 16 → m' j = m j) :
    next m' x = next m x := by
  unfold next
  rw [readLe_congr hsame]

theorem next_lt (hx : next m x = some y) : y < nil := by
  have hlt : readLe m (x + 8) 8 < 2 ^ 64 := readLe_lt _ _ _
  unfold next decodeNext at hx
  split at hx
  · cases hx
  cases hx
  unfold nil at *
  omega

theorem Shaped.book (hs : Shaped c) (hj : Book c j) : c.start ≤ j ∧ j < c.stop := by
  have hleast := hs.least
  rcases hj with hj | ⟨u, hu, hj⟩
  · unfold Segment.stop
    omega
  · obtain ⟨hlow, -, hsize, hhigh, -⟩ := hs.use u hu
    omega

theorem book_not_link (ht : Tiles a blocks e) (hs : ∀ b ∈ blocks, Shaped b) (hc : c ∈ blocks)
    (hx : x ∈ frees blocks) (hj : Book c j) : j < x + 8 ∨ x + 16 ≤ j := by
  obtain ⟨z, hmem⟩ := mem_frees.1 hx
  have hin := (hs c hc).book hj
  have hleast := (hs _ hmem).least
  rcases ht.apart hc hmem with rfl | happart
  · rcases hj with hj | ⟨u, hu, -⟩
    · exact .inl hj.2
    · cases hu
  · simp only [Segment.stop] at happart hin hleast
    omega

theorem link_not_link (ht : Tiles a blocks e) (hs : ∀ b ∈ blocks, Shaped b)
    (hx : x ∈ frees blocks) (hy : y ∈ frees blocks) (hne : x ≠ y) :
    x + 16 ≤ y ∨ y + 16 ≤ x := by
  obtain ⟨z, hmem⟩ := mem_frees.1 hx
  obtain ⟨w, hmem'⟩ := mem_frees.1 hy
  have hleast := (hs _ hmem).least
  have hleast' := (hs _ hmem').least
  rcases ht.apart hmem hmem' with heq | happart
  · exact absurd (congrArg Segment.start heq) hne
  · simp only [Segment.stop] at happart hleast hleast'
    omega

section

variable (hf : Frame m m' old prev) (ht : Tiles a blocks e) (hs : ∀ b ∈ blocks, Shaped b)
  (hprev : ∀ p, prev = some p → p ∈ frees blocks)
include hf ht hs hprev

theorem Frame.next_eq
    (hx : x ∈ frees blocks) (hne : prev ≠ some x)
    (hout : ∀ b ∈ old, x + 16 ≤ b.start ∨ b.stop ≤ x) : next m' x = next m x := by
  refine next_congr fun j hlow hhigh => hf j ?_ ?_
  · intro b hb
    have hside := hout b hb
    omega
  intro p hp
  have hxp : x ≠ p := fun heq => hne (heq ▸ hp)
  have hside := link_not_link ht hs hx (hprev p hp) hxp
  omega

theorem Frame.written
    (hc : c ∈ blocks) (hw : Written m c) (hout : ∀ b ∈ old, c.stop ≤ b.start ∨ b.stop ≤ c.start) :
    Written m' c := by
  refine hw.congr fun j hj => hf j ?_ ?_
  · intro b hb
    have hin := (hs c hc).book hj
    have hside := hout b hb
    omega
  · intro p hp
    exact book_not_link ht hs hc (hprev p hp) hj

end

section

variable (hl : Linked h (pre ++ (old ++ post)))
include hl

theorem Linked.outside (hc : c ∈ pre ++ post) :
    ∀ b ∈ old, c.stop ≤ b.start ∨ b.stop ≤ c.start := by
  intro b hb
  obtain ⟨u, hpre, hrest⟩ := tiles_append.1 hl.tiles
  obtain ⟨v, hold, hpost⟩ := tiles_append.1 hrest
  have hmiddle := hold.bounds hb
  rcases List.mem_append.1 hc with hmem | hmem
  · have hbefore := (hpre.bounds hmem).2
    omega
  · have hafter := (hpost.bounds hmem).1
    omega

/-- A free block before or after `old` keeps its next pointer, unless it is the one relinked. -/
theorem Linked.next_eq
    (hf : Frame h.arena.mem m' old (frees pre).getLast?) (hx : x ∈ frees (pre ++ post))
    (hne : (frees pre).getLast? ≠ some x) : next m' x = next h.arena.mem x := by
  have hsub : ∀ y, y ∈ frees (pre ++ post) → y ∈ frees (pre ++ (old ++ post)) := by
    intro y hy
    simp only [frees_append, List.mem_append] at hy ⊢
    exact hy.imp_right .inr
  refine hf.next_eq hl.tiles hl.shaped ?_ (hsub x hx) hne ?_
  · intro p hp
    apply hsub
    rw [frees_append]
    exact List.mem_append_left _ (List.mem_of_getLast? hp)
  obtain ⟨z, hmem⟩ := mem_frees.1 hx
  have hleast := (hl.shaped ⟨x, z, none⟩ (by
    simp only [List.mem_append] at hmem ⊢
    exact hmem.imp_right .inr)).least
  intro b hb
  have hside := hl.outside hmem b hb
  simp only [Segment.stop] at hside hleast ⊢
  omega

theorem Linked.tail_chain
    (hf : Frame h.arena.mem m' old (frees pre).getLast?)
    (hchain : Chain (next h.arena.mem) target (frees post)) :
    Chain (next m') target (frees post) := by
  have hsorted := frees_sorted hl.tiles hl.shaped
  rw [frees_append, frees_append, List.pairwise_append] at hsorted
  refine hchain.congr fun x hx => hl.next_eq hf ?_ ?_
  · rw [frees_append]
    exact List.mem_append_right _ hx
  intro hlast
  have hlt := hsorted.2.2 x (List.mem_of_getLast? hlast) x (List.mem_append_right _ hx)
  exact absurd hlt (lt_irrefl x)

/-- Some neighbours are replaced by blocks that cover the same part of the arena, and the list is
relinked around them. -/
theorem Linked.replace (target : Option ℕ) (hlen : h'.len = h.len)
    (hsize : h'.arena.len = h.arena.len) (htiles : ∀ a e, Tiles a old e → Tiles a mid e)
    (hshaped : ∀ b ∈ mid, Shaped b) (hwritten : ∀ b ∈ mid, Written h'.arena.mem b)
    (hf : Frame h.arena.mem h'.arena.mem old (frees pre).getLast?)
    (hlast : Relinked h h' (frees pre).getLast? target)
    (hback : Chain (next h'.arena.mem) target (frees mid ++ frees post)) :
    Linked h' (pre ++ (mid ++ post)) := by
  have hsub : ∀ c ∈ pre ++ post, c ∈ pre ++ (old ++ post) := by
    intro c hc
    simp only [List.mem_append] at hc ⊢
    exact hc.imp_right .inr
  have hmem : ∀ c ∈ pre ++ (mid ++ post), c ∈ mid ∨ c ∈ pre ++ post := by
    intro c hc
    simp only [List.mem_append] at hc ⊢
    tauto
  obtain ⟨u, hpre, hrest⟩ := tiles_append.1 hl.tiles
  obtain ⟨v, hold, hpost⟩ := tiles_append.1 hrest
  refine ⟨?_, ?_, ?_, ?_, ?_⟩
  · rw [hlen, hsize, hl.len]
  · rw [hsize]
    exact tiles_append.2 ⟨u, hpre, tiles_append.2 ⟨v, htiles u v hold, hpost⟩⟩
  · intro c hc
    rcases hmem c hc with hnew | hkept
    · exact hshaped c hnew
    · exact hl.shaped c (hsub c hkept)
  · intro c hc
    rcases hmem c hc with hnew | hkept
    · exact hwritten c hnew
    refine hf.written hl.tiles hl.shaped ?_ (hsub c hkept) (hl.written c (hsub c hkept))
      (hl.outside hkept)
    intro p hp
    rw [frees_append]
    exact List.mem_append_left _ (List.mem_of_getLast? hp)
  · have hchain := hl.chain
    rw [frees_append] at hchain
    rw [frees_append, frees_append]
    refine hchain.relink ?_ hback ?_ hlast
    · exact (frees_sorted hpre fun b hb => hl.shaped b (List.mem_append_left _ hb)).imp ne_of_lt
    intro x hx hne
    refine hl.next_eq hf ?_ hne
    rw [frees_append]
    exact List.mem_append_left _ hx

end

structure Puts (arena : Arena) (off v : ℕ) (arena' : Arena) : Prop where
  len : arena'.len = arena.len
  read : readLe arena'.mem off 8 = v
  frame : ∀ j, j < off ∨ off + 8 ≤ j → arena'.mem j = arena.mem j

variable {arena arena' : Arena} {off w : ℕ}

theorem Puts.read_other (hp : Puts arena off w arena') (hside : x + 8 ≤ off ∨ off + 8 ≤ x) :
    readLe arena'.mem x 8 = readLe arena.mem x 8 :=
  readLe_congr fun j hlow hhigh => hp.frame j (by omega)

theorem writeU64_puts (arena : Arena) (off w : ℕ) (hoff : off + 8 ≤ arena.len) (hw : w < 2 ^ 64) :
    ∃ arena', writeU64 arena off w = some arena' ∧ Puts arena off w arena' :=
  ⟨_, if_pos hoff, rfl, readLe_writeLe_of_lt hw, fun _ hj => writeLe_outside hj⟩

theorem setNextFree_puts (arena : Arena) (x : ℕ) (target : Option ℕ)
    (hoff : x + 16 ≤ arena.len) (htarget : ∀ y, target = some y → y < nil) :
    ∃ arena', setNextFree arena x target = some arena' ∧
      Puts arena (x + 8) (target.getD nil) arena' ∧ next arena'.mem x = target := by
  have hw : target.getD nil < 2 ^ 64 := by
    cases target with
    | none => decide
    | some y => exact (htarget y rfl).trans (by decide)
  obtain ⟨arena', hwrite, hputs⟩ := writeU64_puts arena (x + 8) _ (by omega) hw
  refine ⟨arena', hwrite, hputs, ?_⟩
  rw [next, hputs.read, decodeNext]
  cases target with
  | none => exact if_pos rfl
  | some y => exact if_neg (htarget y rfl).ne

theorem nextFree_eq (hx : x + 16 ≤ arena.len) : nextFree arena x = some (next arena.mem x) := by
  simp only [nextFree, readU64, if_pos (show x + 8 + 8 ≤ arena.len by omega), next,
    Option.bind_eq_bind, Option.bind_some, Option.pure_def]

theorem blockSize_eq (hx : x + 8 ≤ arena.len) :
    blockSize arena x = some (readLe arena.mem x 8 / 2 * 2) := by
  have hlt : readLe arena.mem x 8 < 2 ^ 64 := readLe_lt _ _ _
  simp only [blockSize, readU64, if_pos hx, ← andNot_mark hlt, Option.bind_eq_bind,
    Option.bind_some, Option.pure_def]

theorem Relinked.of_eq {h'' : FreeList} (hr : Relinked h h' prev target)
    (hhead : h''.head = h'.head)
    (hnext : ∀ p, prev = some p → next h''.arena.mem p = next h'.arena.mem p) :
    Relinked h h'' prev target := by
  cases prev with
  | none => exact hhead.trans hr
  | some p => exact ⟨hhead.trans hr.1, (hnext p rfl).trans hr.2⟩

theorem relink_spec (h : FreeList) (prev target : Option ℕ)
    (hprev : ∀ p, prev = some p → p + 16 ≤ h.arena.len)
    (htarget : ∀ y, target = some y → y < nil) :
    ∃ h', h.relink prev target = some h' ∧ h'.len = h.len ∧ h'.arena.len = h.arena.len ∧
      Frame h.arena.mem h'.arena.mem [] prev ∧ Relinked h h' prev target := by
  cases prev with
  | none => exact ⟨_, rfl, rfl, rfl, fun _ _ _ => rfl, rfl⟩
  | some p =>
    obtain ⟨arena', hwrite, hputs, hnext⟩ := setNextFree_puts _ _ _ (hprev p rfl) htarget
    refine ⟨{ h with arena := arena' }, ?_, rfl, hputs.len, ?_, rfl, hnext⟩
    · simp only [FreeList.relink, hwrite]
      rfl
    intro j _ hj
    have hside := hj p rfl
    exact hputs.frame j (by omega)

structure Head (arena : Arena) (x : ℕ) : Prop where
  grain : x % 16 = 0
  even : readLe arena.mem x 8 % 16 = 0
  least : 32 ≤ readLe arena.mem x 8
  stop : x + readLe arena.mem x 8 ≤ arena.len

theorem Head.size_eq (hx : Head arena x) :
    blockSize arena x = some (readLe arena.mem x 8) := by
  have heven := hx.even
  have hleast := hx.least
  have hstop := hx.stop
  have hhalf : readLe arena.mem x 8 / 2 * 2 = readLe arena.mem x 8 := by omega
  rw [blockSize_eq (by omega), hhalf]

theorem Head.next_eq (hx : Head arena x) : nextFree arena x = some (next arena.mem x) := by
  have hleast := hx.least
  have hstop := hx.stop
  exact nextFree_eq (by omega)

theorem Linked.stop_le (hl : Linked h blocks) (hc : c ∈ blocks) : c.stop ≤ h.arena.len := by
  have hhigh := (hl.tiles.bounds hc).2
  omega

theorem Linked.head (hl : Linked h blocks) (hx : x ∈ frees blocks) : Head h.arena x := by
  obtain ⟨z, hmem⟩ := mem_frees.1 hx
  have hs := hl.shaped _ hmem
  have hstop := hl.stop_le hmem
  have hread : readLe h.arena.mem x 8 = z := hl.written _ hmem
  simp only [Segment.stop] at hstop
  exact ⟨hs.start, hread ▸ hs.size, hread ▸ hs.least, hread ▸ hstop⟩

theorem Linked.cut {l r : List ℕ} (hl : Linked h blocks) (hlist : frees blocks = l ++ r) :
    ∃ target, Relinked h h l.getLast? target ∧ Chain (next h.arena.mem) target r := by
  have hchain := hl.chain
  rw [hlist] at hchain
  obtain ⟨target, hrel, htail⟩ := hchain.cut
  refine ⟨target, ?_, htail⟩
  unfold Relinked
  cases hq : l.getLast? with
  | none =>
    simp only [hq] at hrel
    exact hrel
  | some q =>
    simp only [hq] at hrel
    exact ⟨rfl, hrel⟩

theorem Linked.length_le (hl : Linked h blocks) : (frees blocks).length ≤ h.arena.len := by
  have hlist : (frees blocks).length ≤ blocks.length := by
    rw [frees, List.length_map]
    exact List.length_filter_le _ _
  have hcount : 0 + blocks.length ≤ h.arena.len / 16 * 16 := by
    refine hl.tiles.length_le ?_
    intro b hb
    have hleast := (hl.shaped b hb).least
    omega
  omega

end HarborKernel.Heap
