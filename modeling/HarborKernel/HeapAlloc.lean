import HarborKernel.HeapShape

/-!
What `alloc` does to the blocks. The walk stops at the first free block that hosts the request:
a payload that would not fit a word is not lower than the payloads of the blocks before it, so
giving up there skips nothing. The block found becomes a used one, followed by a free remainder
when that is at least a block of the least size, and nothing else changes.
-/

namespace HarborKernel.Heap

open ByteWords BlockTiling

variable {arena : Arena} {n k x y turns : ℕ} {prev cursor : Option ℕ} {front back : List ℕ}

def Fits (arena : Arena) (n k x : ℕ) : Prop :=
  roundUp (x + 16) (2 ^ k) + n ≤ x + readLe arena.mem x 8

theorem Head.payload_eq (hx : Head arena x) (hk : k ≤ 63) :
    alignUp (wrapAdd x header) (2 ^ k) = roundUp (x + 16) (2 ^ k) := by
  have hleast := hx.least
  have hstop := hx.stop
  have hbound := arena.bound
  have hpow : 2 ^ k ≤ 2 ^ 63 := Nat.pow_le_pow_right (by decide) hk
  have hadd : wrapAdd x header = x + 16 := wrapAdd_eq (by unfold header; omega)
  rw [hadd, alignUp_eq (by omega) (by omega)]

theorem Head.end_eq (hx : Head arena x) :
    wrapAdd x (readLe arena.mem x 8) = x + readLe arena.mem x 8 := by
  have hstop := hx.stop
  have hbound := arena.bound
  exact wrapAdd_eq (by omega)

theorem checkedAdd_eq {a b : ℕ} (h : a + b < 2 ^ 64) : checkedAdd a b = some (a + b) := by
  rw [checkedAdd, if_pos h]

theorem checkedAdd_none {a b : ℕ} (h : ¬ a + b < 2 ^ 64) : checkedAdd a b = none := by
  rw [checkedAdd, if_neg h]

theorem look_overflow (hx : Head arena x) (hk : k ≤ 63)
    (hword : ¬ roundUp (x + 16) (2 ^ k) + n < 2 ^ 64) :
    FreeList.look arena n (2 ^ k) prev x = some .overflow := by
  simp only [FreeList.look, hx.size_eq, hx.payload_eq hk, checkedAdd_none hword,
    Option.bind_eq_bind, Option.bind_some, Option.pure_def]

theorem look_beyond (prev : Option ℕ) (hx : Head arena x) (hk : k ≤ 63) (hno : ¬ Fits arena n k x)
    (hword : roundUp (x + 16) (2 ^ k) + n < 2 ^ 64) :
    FreeList.look arena n (2 ^ k) prev x = some .beyond := by
  unfold Fits at hno
  simp only [FreeList.look, hx.size_eq, hx.payload_eq hk, hx.end_eq, checkedAdd_eq hword,
    if_neg hno, Option.bind_eq_bind, Option.bind_some, Option.pure_def]

theorem look_hosts (hx : Head arena x) (hk : k ≤ 63) (hfit : Fits arena n k x)
    (hword : roundUp (x + 16) (2 ^ k) + n < 2 ^ 64) :
    FreeList.look arena n (2 ^ k) prev x =
      some (.hosts ⟨prev, x, roundUp (x + 16) (2 ^ k), roundUp (x + 16) (2 ^ k) + n,
        x + readLe arena.mem x 8⟩) := by
  unfold Fits at hfit
  simp only [FreeList.look, hx.size_eq, hx.payload_eq hk, hx.end_eq, checkedAdd_eq hword,
    if_pos hfit, Option.bind_eq_bind, Option.bind_some, Option.pure_def]

/-- The first block that hosts the request is found. -/
theorem findFit_found (prev : Option ℕ) (turns : ℕ)
    (hchain : Chain (next arena.mem) cursor (front ++ x :: back))
    (hheads : ∀ y ∈ front ++ x :: back, Head arena y) (hsorted : ∀ y ∈ front, y < x)
    (hskip : ∀ y ∈ front, ¬ Fits arena n k y) (hfit : Fits arena n k x)
    (hturns : front.length < turns) (hk : k ≤ 63) :
    FreeList.findFit arena n (2 ^ k) turns prev cursor =
      some (some ⟨front.getLast?.or prev, x, roundUp (x + 16) (2 ^ k),
        roundUp (x + 16) (2 ^ k) + n, x + readLe arena.mem x 8⟩) := by
  have hbound := arena.bound
  have hx := hheads x (List.mem_append_right _ (List.mem_cons_self ..))
  have hstop := hx.stop
  have hend := hfit
  unfold Fits at hend
  induction front generalizing prev cursor turns with
  | nil =>
    obtain ⟨turns, rfl⟩ := Nat.exists_eq_add_one.2 hturns
    have hword : roundUp (x + 16) (2 ^ k) + n < 2 ^ 64 := by omega
    simp only [show cursor = some x from hchain.1, FreeList.findFit, look_hosts hx hk hfit hword,
      Option.bind_eq_bind, Option.bind_some, Option.pure_def, List.getLast?_nil, Option.none_or]
  | cons y rest ih =>
    obtain ⟨turns, rfl⟩ := Nat.exists_eq_add_one.2 (Nat.zero_lt_of_lt hturns)
    have hy := hheads y (List.mem_cons_self ..)
    have hlt := hsorted y (List.mem_cons_self ..)
    have hno := hskip y (List.mem_cons_self ..)
    have hmono : roundUp (y + 16) (2 ^ k) ≤ roundUp (x + 16) (2 ^ k) := roundUp_mono (by omega)
    rw [List.length_cons] at hturns
    have hrest := ih (some y) turns hchain.2
      (fun z hz => hheads z (List.mem_cons_of_mem y hz))
      (fun z hz => hsorted z (List.mem_cons_of_mem y hz))
      (fun z hz => hskip z (List.mem_cons_of_mem y hz)) (by omega)
    have hlook := look_beyond prev hy hk hno (by omega)
    simp only [show cursor = some y from hchain.1, FreeList.findFit, hlook, hy.next_eq, hrest,
      getLast?_cons_or, Option.bind_eq_bind, Option.bind_some]

theorem findFit_none (hchain : Chain (next arena.mem) cursor front)
    (hheads : ∀ y ∈ front, Head arena y) (hskip : ∀ y ∈ front, ¬ Fits arena n k y)
    (hturns : front.length < turns) (hk : k ≤ 63) :
    FreeList.findFit arena n (2 ^ k) turns prev cursor = some none := by
  induction front generalizing prev cursor turns with
  | nil =>
    rw [show cursor = none from hchain]
    cases turns <;> rfl
  | cons y rest ih =>
    obtain ⟨turns, rfl⟩ := Nat.exists_eq_add_one.2 (Nat.zero_lt_of_lt hturns)
    have hy := hheads y (List.mem_cons_self ..)
    rw [List.length_cons] at hturns
    by_cases hword : roundUp (y + 16) (2 ^ k) + n < 2 ^ 64
    · have hlook := look_beyond prev hy hk (hskip y (List.mem_cons_self ..)) hword
      simp only [show cursor = some y from hchain.1, FreeList.findFit, hlook, hy.next_eq,
        Option.bind_eq_bind, Option.bind_some]
      exact ih hchain.2 (fun z hz => hheads z (List.mem_cons_of_mem y hz))
        (fun z hz => hskip z (List.mem_cons_of_mem y hz)) (by omega)
    · simp only [show cursor = some y from hchain.1, FreeList.findFit,
        look_overflow hy hk hword, Option.bind_eq_bind, Option.bind_some, Option.pure_def]

variable {h : FreeList} {s z p tail : ℕ} {nx : Option ℕ} {u : Use} {pre post : List Block}

structure Room (h : FreeList) (prev : Option ℕ) (s z p tail : ℕ) : Prop where
  grain : s % 16 = 0
  size : z % 16 = 0
  payload : s + 16 ≤ p ∧ p % 16 = 0
  tail : p + 16 ≤ tail ∧ tail % 16 = 0 ∧ tail ≤ s + z
  stop : s + z ≤ h.arena.len
  before : ∀ q, prev = some q → q + 32 ≤ s

theorem split_remainder (hr : Room h prev s z p tail) (hnx : ∀ y, nx = some y → y < nil)
    (hrest : 32 ≤ s + z - tail) :
    ∃ h', h.split ⟨prev, s, p, tail, s + z⟩ nx = some h' ∧ h'.len = h.len ∧
      h'.arena.len = h.arena.len ∧ Frame h.arena.mem h'.arena.mem [⟨s, z, none⟩] prev ∧
      Relinked h h' prev (some tail) ∧ readLe h'.arena.mem s 8 = tail - s ∧
      readLe h'.arena.mem tail 8 = s + z - tail ∧ next h'.arena.mem tail = nx := by
  have hbound := h.arena.bound
  obtain ⟨hlow, -⟩ := hr.payload
  obtain ⟨htail, -, hhigh⟩ := hr.tail
  have hstop := hr.stop
  obtain ⟨a₁, hw₁, hp₁⟩ :=
    writeU64_puts h.arena tail (s + z - tail) (by omega) (by omega)
  have hlen₁ := hp₁.len
  obtain ⟨a₂, hw₂, hp₂, hn₂⟩ := setNextFree_puts a₁ tail nx (by omega) hnx
  have hlen₂ := hp₂.len
  have hsmall : ∀ y, some tail = some y → y < nil := by
    intro y hy
    cases hy
    unfold nil
    omega
  obtain ⟨h₃, hw₃, hl₃, hlen₃, hf₃, hr₃⟩ := relink_spec { h with arena := a₂ } prev _ (by
      intro q hq
      have hbefore := hr.before q hq
      show q + 16 ≤ a₂.len
      omega) hsmall
  have hsize₃ : h₃.arena.len = h.arena.len := by rw [hlen₃, hlen₂, hlen₁]
  obtain ⟨a₄, hw₄, hp₄⟩ :=
    writeU64_puts h₃.arena s (tail - s) (by omega) (by omega)
  have hcut : wrapSub tail s = tail - s := wrapSub_eq (by omega) (by omega)
  have hsame : ∀ j, s ≤ j → s + 8 ≤ j → a₄.mem j = a₂.mem j := by
    intro j hj hhead
    rw [hp₄.frame j (.inr hhead)]
    refine hf₃ j (fun b hb => absurd hb List.not_mem_nil) ?_
    intro q hq
    have hbefore := hr.before q hq
    omega
  refine ⟨{ h₃ with arena := a₄ }, ?_, hl₃, ?_, ?_, ?_, hp₄.read, ?_, ?_⟩
  · have hmin : minBlock ≤ s + z - tail := hrest
    simp only [FreeList.split, if_pos hmin, setBlockSize, hw₁, hw₂, hw₃, hcut, hw₄,
      Option.bind_eq_bind, Option.bind_some, Option.pure_def]
  · rw [← hsize₃]
    exact hp₄.len
  · intro j hout hprev
    have hside := hout _ (List.mem_singleton.2 rfl)
    simp only [Segment.stop] at hside
    calc a₄.mem j = h₃.arena.mem j := hp₄.frame j (by omega)
      _ = a₂.mem j := hf₃ j (fun b hb => absurd hb List.not_mem_nil) hprev
      _ = a₁.mem j := hp₂.frame j (by omega)
      _ = h.arena.mem j := hp₁.frame j (by omega)
  · refine Relinked.of_eq hr₃ rfl fun q hq => next_congr fun j hj hj' => hp₄.frame j ?_
    have hbefore := hr.before q hq
    omega
  · rw [← hp₁.read, ← hp₂.read_other (x := tail) (by omega)]
    exact readLe_congr fun j hj hj' => hsame j (by omega) (by omega)
  · rw [← hn₂]
    exact next_congr fun j hj hj' => hsame j (by omega) (by omega)

theorem split_whole (hr : Room h prev s z p tail) (hnx : ∀ y, nx = some y → y < nil)
    (hrest : ¬ 32 ≤ s + z - tail) :
    ∃ h', h.split ⟨prev, s, p, tail, s + z⟩ nx = some h' ∧ h'.len = h.len ∧
      h'.arena.len = h.arena.len ∧ Frame h.arena.mem h'.arena.mem [⟨s, z, none⟩] prev ∧
      Relinked h h' prev nx ∧ readLe h'.arena.mem s 8 = readLe h.arena.mem s 8 := by
  have hstop := hr.stop
  have hprev : ∀ q, prev = some q → q + 16 ≤ h.arena.len := by
    intro q hq
    have hbefore := hr.before q hq
    omega
  obtain ⟨h', hw, hlen, hsize, hf, hrel⟩ := relink_spec h prev nx hprev hnx
  have hmin : ¬ minBlock ≤ s + z - tail := hrest
  refine ⟨h', ?_, hlen, hsize, ?_, hrel, ?_⟩
  · simp only [FreeList.split, if_neg hmin, hw]
  · intro j _ hj
    exact hf j (fun b hb => absurd hb List.not_mem_nil) hj
  · refine readLe_congr fun j hj _ => hf j (fun b hb => absurd hb List.not_mem_nil) ?_
    intro q hq
    have hbefore := hr.before q hq
    omega

theorem claim_spec (arena : Arena) (hlow : s + 16 ≤ p) (hhigh : p ≤ arena.len)
    (hread : readLe arena.mem s 8 = n) (heven : n % 2 = 0) :
    ∃ a₁ a₂, writeU64 arena (wrapSub p 8) s = some a₁ ∧ markAllocated a₁ s = some a₂ ∧
      a₂.len = arena.len ∧ readLe a₂.mem s 8 = n + 1 ∧ readLe a₂.mem (p - 8) 8 = s ∧
      ∀ j, (j < s ∨ s + 8 ≤ j) → (j < p - 8 ∨ p ≤ j) → a₂.mem j = arena.mem j := by
  have hbound := arena.bound
  have hlt : readLe arena.mem s 8 < 2 ^ 64 := readLe_lt _ _ _
  have hback : wrapSub p 8 = p - 8 := wrapSub_eq (by omega) (by omega)
  obtain ⟨a₁, hw₁, hp₁⟩ :=
    writeU64_puts arena (p - 8) s (by omega) (by omega)
  have hlen₁ := hp₁.len
  have hsame : readLe a₁.mem s 8 = n := (hp₁.read_other (by omega)).trans hread
  obtain ⟨a₂, hw₂, hp₂⟩ :=
    writeU64_puts a₁ s (n + 1) (by omega) (by omega)
  refine ⟨a₁, a₂, ?_, ?_, hp₂.len.trans hlen₁, hp₂.read, ?_, ?_⟩
  · rw [hback]
    exact hw₁
  · simp only [markAllocated, readU64, if_pos (show s + 8 ≤ a₁.len by omega), hsame,
      or_mark heven, hw₂, Option.bind_eq_bind, Option.bind_some]
  · rw [hp₂.read_other (by omega)]
    exact hp₁.read
  · intro j hj hj'
    rw [hp₂.frame j hj]
    exact hp₁.frame j (by omega)

def carve (s z tail : ℕ) (u : Use) : List Block :=
  if 32 ≤ s + z - tail then [⟨s, tail - s, some u⟩, ⟨tail, s + z - tail, none⟩]
  else [⟨s, z, some u⟩]

theorem carve_shaped (hr : Room h prev s z p tail) (hpay : u.payload = p)
    (hpos : 0 < u.size) (hend : p + u.size ≤ tail) (halign : u.align ∣ p) :
    ∀ b ∈ carve s z tail u, Shaped b := by
  obtain ⟨hlow, hp⟩ := hr.payload
  obtain ⟨htail, ht, hhigh⟩ := hr.tail
  have hs := hr.grain
  have hsize := hr.size
  have hused : ∀ w, w % 16 = 0 → tail ≤ s + w → Shaped ⟨s, w, some u⟩ := by
    intro w hw htw
    refine ⟨hs, hw, ?_, ?_⟩
    · show 32 ≤ w
      omega
    intro v hv
    cases hv
    simp only [Segment.stop, hpay]
    exact ⟨hlow, hp, hpos, by omega, halign⟩
  intro b hb
  unfold carve at hb
  split at hb
  · rcases List.mem_cons.1 hb with rfl | hb
    · exact hused _ (by omega) (by omega)
    cases List.mem_singleton.1 hb
    refine ⟨ht, ?_, ‹_›, fun v hv => by cases hv⟩
    show (s + z - tail) % 16 = 0
    omega
  · cases List.mem_singleton.1 hb
    exact hused z hsize hhigh

theorem carve_tiles (hr : Room h prev s z p tail) {a e : ℕ}
    (ht : Tiles a [(⟨s, z, none⟩ : Block)] e) : Tiles a (carve s z tail u) e := by
  obtain ⟨htail, -, hhigh⟩ := hr.tail
  obtain ⟨hlow, -⟩ := hr.payload
  obtain ⟨hstart, hstop⟩ := ht
  simp only [Segment.stop, Tiles] at hstart hstop
  unfold carve
  split
  · simp only [Tiles, Segment.stop]
    omega
  · simp only [Tiles, Segment.stop]
    omega

theorem place_eq {f : FreeList.Fit} {h₁ : FreeList} {a₁ a₂ : Arena}
    (hnext : nextFree h.arena f.block = some nx) (hsplit : h.split f nx = some h₁)
    (hback : writeU64 h₁.arena (wrapSub f.payload 8) f.block = some a₁)
    (hmark : markAllocated a₁ f.block = some a₂) :
    h.place f = some { h₁ with arena := a₂ } := by
  rw [FreeList.place, hnext, Option.bind_eq_bind, Option.bind_some, hsplit, Option.bind_eq_bind,
    Option.bind_some, hback, Option.bind_eq_bind, Option.bind_some, hmark, Option.bind_some,
    Option.pure_def]

/-- What the last two writes of `alloc` leave of a heap after the split. -/
theorem place_of_split (hr : Room h prev s z p tail) {h₁ : FreeList} {w : ℕ}
    (hsplit : h.split ⟨prev, s, p, tail, s + z⟩ (next h.arena.mem s) = some h₁)
    (hlen : h₁.len = h.len) (hsize : h₁.arena.len = h.arena.len)
    (hf : Frame h.arena.mem h₁.arena.mem [⟨s, z, none⟩] prev)
    (hread : readLe h₁.arena.mem s 8 = w) (heven : w % 2 = 0) :
    ∃ h', h.place ⟨prev, s, p, tail, s + z⟩ = some h' ∧ h'.len = h.len ∧
      h'.arena.len = h.arena.len ∧ h'.head = h₁.head ∧
      Frame h.arena.mem h'.arena.mem [⟨s, z, none⟩] prev ∧
      readLe h'.arena.mem s 8 = w + 1 ∧ readLe h'.arena.mem (p - 8) 8 = s ∧
      ∀ j, j < s ∨ p ≤ j → h'.arena.mem j = h₁.arena.mem j := by
  have hstop := hr.stop
  obtain ⟨hlow, -⟩ := hr.payload
  obtain ⟨htail, -, hhigh⟩ := hr.tail
  have hnext : nextFree h.arena s = some (next h.arena.mem s) := nextFree_eq (by omega)
  obtain ⟨a₁, a₂, hw₁, hw₂, hlen₂, hfirst, hback, hsame⟩ :=
    claim_spec h₁.arena hlow (by omega) hread heven
  refine ⟨{ h₁ with arena := a₂ }, ?_, hlen, hlen₂.trans hsize, rfl, ?_, hfirst, hback, ?_⟩
  · exact place_eq hnext hsplit hw₁ hw₂
  · intro j hout hprev
    have hside := hout _ (List.mem_singleton.2 rfl)
    simp only [Segment.stop] at hside
    exact (hsame j (by omega) (by omega)).trans (hf j hout hprev)
  · intro j hj
    exact hsame j (by omega) (by omega)

theorem Room.prev_kept (hr : Room h prev s z p tail) {h₁ h' : FreeList}
    (hsame : ∀ j, j < s ∨ p ≤ j → h'.arena.mem j = h₁.arena.mem j) :
    ∀ q, prev = some q → next h'.arena.mem q = next h₁.arena.mem q := by
  intro q hq
  have hbefore := hr.before q hq
  exact next_congr fun j _ hj => hsame j (.inl (by omega))

theorem Linked.after_free (hl : Linked h (pre ++ ([⟨s, z, none⟩] ++ post))) :
    Chain (next h.arena.mem) (next h.arena.mem s) (frees post) := by
  have hchain := hl.chain
  rw [frees_append, frees_append] at hchain
  exact hchain.drop

section

variable (hl : Linked h (pre ++ ([⟨s, z, none⟩] ++ post)))
  (hr : Room h (frees pre).getLast? s z p tail) (hpay : u.payload = p) (hpos : 0 < u.size)
  (hend : p + u.size ≤ tail) (halign : u.align ∣ p)
include hl hr hpay hpos hend halign

theorem place_spec :
    ∃ h', h.place ⟨(frees pre).getLast?, s, p, tail, s + z⟩ = some h' ∧
      h'.arena.len = h.arena.len ∧
      Frame h.arena.mem h'.arena.mem [⟨s, z, none⟩] (frees pre).getLast? ∧
      Linked h' (pre ++ (carve s z tail u ++ post)) := by
  by_cases hcut : 32 ≤ s + z - tail
  · have hgrain := hr.grain
    obtain ⟨hlow, -⟩ := hr.payload
    obtain ⟨htail, ht, hhigh⟩ := hr.tail
    obtain ⟨h₁, hsplit, hlen₁, hsize₁, hf₁, hrel₁, hfirst₁, hrest₁, hnext₁⟩ :=
      split_remainder hr (fun y hy => next_lt hy) hcut
    obtain ⟨h', hplace, hlen', hsize', hhead', hf', hfirst', hback', hsame'⟩ :=
      place_of_split hr hsplit hlen₁ hsize₁ hf₁ hfirst₁ (by omega)
    have hlink : next h'.arena.mem tail = next h.arena.mem s := by
      rw [← hnext₁]
      exact next_congr fun j hj _ => hsame' j (.inr (by omega))
    refine ⟨h', hplace, hsize', hf', ?_⟩
    refine hl.replace _ hlen' hsize' (fun _ _ => carve_tiles hr)
      (carve_shaped hr hpay hpos hend halign) ?_ hf'
      (hrel₁.of_eq hhead' (hr.prev_kept hsame')) ?_
    · rw [carve, if_pos hcut]
      intro b hb
      rcases List.mem_cons.1 hb with rfl | hb
      · exact written_used.2 ⟨hfirst', hpay ▸ hback'⟩
      cases List.mem_singleton.1 hb
      rw [written_free, ← hrest₁]
      exact readLe_congr fun j hj _ => hsame' j (.inr (by omega))
    rw [carve, if_pos hcut, frees_used, frees_free]
    refine ⟨rfl, ?_⟩
    rw [hlink]
    exact hl.tail_chain hf' hl.after_free
  · have hsize := hr.size
    have hmem : (⟨s, z, none⟩ : Block) ∈ pre ++ ([⟨s, z, none⟩] ++ post) :=
      List.mem_append_right _ (List.mem_append_left _ (List.mem_singleton.2 rfl))
    have hword := written_free.1 (hl.written _ hmem)
    obtain ⟨h₁, hsplit, hlen₁, hsize₁, hf₁, hrel₁, hfirst₁⟩ :=
      split_whole hr (fun y hy => next_lt hy) hcut
    obtain ⟨h', hplace, hlen', hsize', hhead', hf', hfirst', hback', hsame'⟩ :=
      place_of_split hr hsplit hlen₁ hsize₁ hf₁ (hfirst₁.trans hword) (by omega)
    refine ⟨h', hplace, hsize', hf', ?_⟩
    refine hl.replace _ hlen' hsize' (fun _ _ => carve_tiles hr)
      (carve_shaped hr hpay hpos hend halign) ?_ hf'
      (hrel₁.of_eq hhead' (hr.prev_kept hsame')) ?_
    · rw [carve, if_neg hcut]
      intro b hb
      cases List.mem_singleton.1 hb
      exact written_used.2 ⟨hfirst', hpay ▸ hback'⟩
    · rw [carve, if_neg hcut, frees_used]
      exact hl.tail_chain hf' hl.after_free

end

variable {size : ℕ} {blocks : List Block}

/-- The block has room for a payload of the rounded size at the alignment. -/
def Hosts (size align : ℕ) (b : Block) : Prop :=
  roundUp (b.start + 16) align + roundUp size 16 ≤ b.stop

theorem Linked.fits_iff (hl : Linked h blocks) (hb : (⟨x, z, none⟩ : Block) ∈ blocks) :
    Fits h.arena (roundUp size 16) k x ↔ Hosts size (2 ^ k) ⟨x, z, none⟩ := by
  have hword := written_free.1 (hl.written _ hb)
  simp only [Fits, Hosts, Segment.stop, hword]

theorem roundUp_size (hsize : size < 2 ^ 63) : alignUp size grain = roundUp size 16 :=
  alignUp_eq (k := 4) (by omega) (by omega)

theorem alloc_eq (hl : Linked h blocks) (hpos : 0 < size) (hsize : size < 2 ^ 63)
    {fit : Option FreeList.Fit}
    (hfind : FreeList.findFit h.arena (roundUp size 16) (2 ^ k) (h.arena.len + 1) none h.head =
      some fit) :
    h.alloc size (2 ^ k) = match fit with
      | none => some (none, h)
      | some f => (h.place f).bind fun h' => some (some f.payload, h') := by
  have hpow : isPowerOfTwo (2 ^ k) = true := isPowerOfTwo_iff.2 ⟨k, rfl⟩
  have hgo : ¬ (size = 0 ∨ isPowerOfTwo (2 ^ k) = false ∨ h.arena.len ≠ h.len) := by
    rintro (hzero | hnot | hlen)
    · omega
    · rw [hpow] at hnot
      cases hnot
    · exact hlen hl.len.symm
  rw [FreeList.alloc, if_neg hgo]
  simp only [roundUp_size hsize, hfind, Option.bind_eq_bind, Option.bind_some]
  cases fit with
  | none | some f => simp only [Option.pure_def]

theorem alloc_none (hl : Linked h blocks) (hpos : 0 < size) (hsize : size < 2 ^ 63) (hk : k ≤ 63)
    (hno : ∀ b ∈ blocks, b.tag = none → ¬ Hosts size (2 ^ k) b) :
    h.alloc size (2 ^ k) = some (none, h) := by
  refine alloc_eq hl hpos hsize (findFit_none hl.chain (fun y hy => hl.head hy) ?_ ?_ hk)
  · intro y hy hfit
    obtain ⟨z, hmem⟩ := mem_frees.1 hy
    exact hno _ hmem rfl ((hl.fits_iff hmem).1 hfit)
  · have hcount := hl.length_le
    omega

theorem Linked.room (hl : Linked h (pre ++ ([⟨s, z, none⟩] ++ post))) (hpos : 0 < size)
    (hfit : Hosts size (2 ^ k) ⟨s, z, none⟩) :
    Room h (frees pre).getLast? s z (roundUp (s + 16) (2 ^ k))
      (roundUp (s + 16) (2 ^ k) + roundUp size 16) := by
  have hmem : (⟨s, z, none⟩ : Block) ∈ pre ++ ([⟨s, z, none⟩] ++ post) :=
    List.mem_append_right _ (List.mem_append_left _ (List.mem_singleton.2 rfl))
  have hshape := hl.shaped _ hmem
  have hstart : s % 16 = 0 := hshape.start
  have hgrain : roundUp (s + 16) (2 ^ k) % 16 = 0 := roundUp_grained (by omega)
  have hlow := le_roundUp (s + 16) (Nat.two_pow_pos k)
  have hn : size ≤ roundUp size 16 := le_roundUp size (by decide)
  have hndvd : 16 ∣ roundUp size 16 := roundUp_dvd size 16
  have hstop := hl.stop_le hmem
  simp only [Hosts, Segment.stop] at hfit hstop
  refine ⟨hstart, hshape.size, ⟨hlow, hgrain⟩, ⟨by omega, by omega, hfit⟩, hstop, ?_⟩
  intro q hq
  obtain ⟨w, hq⟩ := mem_frees.1 (List.mem_of_getLast? hq)
  have hbefore := (hl.tiles.around.1 _ hq)
  have hleast := (hl.shaped _ (List.mem_append_left _ hq)).least
  simp only [Segment.stop] at hbefore hleast
  omega

theorem carve_apart (ha : List.IsChain Apart (pre ++ ([⟨s, z, none⟩] ++ post))) :
    List.IsChain Apart (pre ++ (carve s z tail u ++ post)) := by
  obtain ⟨hpre, hmid, -⟩ := List.isChain_append.1 ha
  obtain ⟨hnext, hpost⟩ := List.isChain_cons.1 hmid
  have hsome : some u ≠ none := Option.some_ne_none u
  have hhead : ∀ b ∈ (carve s z tail u ++ post).head?, b.tag ≠ none := by
    intro b hb
    unfold carve at hb
    split at hb <;> (cases hb; exact hsome)
  refine List.isChain_append.2 ⟨hpre, ?_, fun b _ c hc => .inr (hhead c hc)⟩
  unfold carve
  split
  · refine List.isChain_cons_cons.2 ⟨.inl hsome, List.isChain_cons.2 ⟨?_, hpost⟩⟩
    intro c hc
    rcases hnext c hc with hf | hc
    · exact absurd rfl hf
    · exact .inr hc
  · exact List.isChain_cons.2 ⟨fun c _ => .inl hsome, hpost⟩

/-- The first free block with room for the request is carved. -/
theorem alloc_found (hm : Models h (pre ++ ([⟨s, z, none⟩] ++ post))) (hpos : 0 < size)
    (hsize : size < 2 ^ 63) (hk : k ≤ 63)
    (hskip : ∀ b ∈ pre, b.tag = none → ¬ Hosts size (2 ^ k) b)
    (hfit : Hosts size (2 ^ k) ⟨s, z, none⟩) :
    ∃ h', h.alloc size (2 ^ k) = some (some (roundUp (s + 16) (2 ^ k)), h') ∧
      h'.arena.len = h.arena.len ∧
      Frame h.arena.mem h'.arena.mem [⟨s, z, none⟩] (frees pre).getLast? ∧
      Models h' (pre ++ (carve s z (roundUp (s + 16) (2 ^ k) + roundUp size 16)
        ⟨roundUp (s + 16) (2 ^ k), size, 2 ^ k⟩ ++ post)) := by
  have hl := hm.toLinked
  have hmem : (⟨s, z, none⟩ : Block) ∈ pre ++ ([⟨s, z, none⟩] ++ post) :=
    List.mem_append_right _ (List.mem_append_left _ (List.mem_singleton.2 rfl))
  have hword := written_free.1 (hl.written _ hmem)
  have hlist : frees (pre ++ ([⟨s, z, none⟩] ++ post)) = frees pre ++ s :: frees post := by
    rw [frees_append, frees_append]
    rfl
  have hchain := hl.chain
  have hcount := hl.length_le
  have hsorted := frees_sorted hl.tiles hl.shaped
  have hheads : ∀ y ∈ frees pre ++ s :: frees post, Head h.arena y :=
    fun y hy => hl.head (hlist ▸ hy)
  rw [hlist] at hchain hcount hsorted
  rw [List.length_append, List.length_cons] at hcount
  have hfind := findFit_found (n := roundUp size 16) (k := k) none (h.arena.len + 1) hchain hheads
    (fun y hy => (List.pairwise_append.1 hsorted).2.2 y hy s (List.mem_cons_self ..))
    (by
      intro y hy hno
      obtain ⟨w, hy⟩ := mem_frees.1 hy
      exact hskip _ hy rfl ((hl.fits_iff (List.mem_append_left _ hy)).1 hno))
    ((hl.fits_iff hmem).2 hfit) (by omega) hk
  rw [Option.or_none, hword] at hfind
  have hend := Nat.add_le_add_left (le_roundUp size (show 0 < 16 by decide))
    (roundUp (s + 16) (2 ^ k))
  obtain ⟨h', hplace, hlen, hf, hl'⟩ := place_spec (u := ⟨_, size, 2 ^ k⟩) hl (hl.room hpos hfit)
    rfl hpos hend (roundUp_dvd _ _)
  refine ⟨h', ?_, hlen, hf, hl', carve_apart hm.apart⟩
  rw [alloc_eq hl hpos hsize hfind]
  simp only [hplace, Option.bind_some]

/-- A request that is empty or not aligned to a power of two is refused. -/
theorem alloc_refused (hbad : size = 0 ∨ isPowerOfTwo n = false) :
    h.alloc size n = some (none, h) := by
  rw [FreeList.alloc, if_pos (hbad.imp_right .inl)]

end HarborKernel.Heap
