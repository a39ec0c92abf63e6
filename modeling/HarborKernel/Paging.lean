import Mathlib.Data.Nat.Bitwise
import Mathlib.Tactic.Ring

/-!
Translation descriptors (`paging.rs`). A descriptor is a 64-bit word with an
output address in bits 47 to 12 and its attributes in the others. Addresses are
natural numbers; the words they are packed in are not.
-/

namespace HarborKernel.Paging

def l1BlockSize : ℕ := 2 ^ 30
def l2BlockSize : ℕ := 2 ^ 21
def pageSize : ℕ := 2 ^ 12
def entriesPerTable : ℕ := 512

def descBlock : UInt64 := 0b01
def descTable : UInt64 := 0b11
def descPage : UInt64 := 0b11
def descAf : UInt64 := (1 : UInt64) <<< 10
def descShIs : UInt64 := (0b11 : UInt64) <<< 8
def descApEl1Rw : UInt64 := (0b00 : UInt64) <<< 6
def descApEl0Rw : UInt64 := (0b01 : UInt64) <<< 6
def descApEl1Ro : UInt64 := (0b10 : UInt64) <<< 6
def descApEl0Ro : UInt64 := (0b11 : UInt64) <<< 6
def descUxn : UInt64 := (1 : UInt64) <<< 54
def descPxn : UInt64 := (1 : UInt64) <<< 53
def descNg : UInt64 := (1 : UInt64) <<< 11
def attrIdxNormal : UInt64 := (0 : UInt64) <<< 2
def attrIdxDevice : UInt64 := (1 : UInt64) <<< 2
def addrMask : UInt64 := 0x0000FFFFFFFFF000

inductive Level
  | L1
  | L2
  | L3
deriving DecidableEq

def Level.entrySize : Level → ℕ
  | .L1 => l1BlockSize
  | .L2 => l2BlockSize
  | .L3 => pageSize

def Level.index (level : Level) (va : ℕ) : ℕ := va / level.entrySize % entriesPerTable

def Level.next : Level → Option Level
  | .L1 => some .L2
  | .L2 => some .L3
  | .L3 => none

inductive MemKind
  | normalWb
  | device
deriving DecidableEq

structure Perms where
  write : Bool
  execute : Bool
  user : Bool
deriving DecidableEq

def Perms.userRw : Perms := ⟨true, false, true⟩
def Perms.userRx : Perms := ⟨false, true, true⟩

def tableDescriptor (pa : ℕ) : Option UInt64 :=
  if pa % pageSize ≠ 0 ∨ 2 ^ 48 ≤ pa then none
  else some ((UInt64.ofNat pa &&& addrMask) ||| descTable)

def leafBits (level : Level) (kind : MemKind) (perms : Perms) : UInt64 :=
  let kindBits := match level with
    | .L3 => descPage
    | _ => descBlock
  let attr := match kind with
    | .normalWb => attrIdxNormal
    | .device => attrIdxDevice
  let ap := match perms.user, perms.write with
    | false, true => descApEl1Rw
    | false, false => descApEl1Ro
    | true, true => descApEl0Rw
    | true, false => descApEl0Ro
  let xn :=
    if !perms.execute then descPxn ||| descUxn
    else if !perms.user then descUxn
    else descPxn
  let ng := if perms.user then descNg else 0
  descAf ||| descShIs ||| kindBits ||| attr ||| ap ||| xn ||| ng

def leaf (level : Level) (pa : ℕ) (kind : MemKind) (perms : Perms) : Option UInt64 :=
  if pa % level.entrySize ≠ 0 ∨ 2 ^ 48 ≤ pa then none
  else some ((UInt64.ofNat pa &&& addrMask) ||| leafBits level kind perms)

def isInvalid (entry : UInt64) : Bool := entry &&& 0b11 = 0

def isTable (entry : UInt64) : Level → Bool
  | .L1 | .L2 => entry &&& 0b11 = descTable
  | .L3 => false

def isLeaf (entry : UInt64) : Level → Bool
  | .L3 => entry &&& 0b11 = descPage
  | .L1 | .L2 => entry &&& 0b11 = descBlock

def descriptorAddress (entry : UInt64) : ℕ := (entry &&& addrMask).toNat

def decodeLeaf (entry : UInt64) (level : Level) : Option (ℕ × MemKind × Perms) :=
  if !isLeaf entry level then none
  else
    let kind :=
      if entry &&& ((0b111 : UInt64) <<< 2) = attrIdxDevice then MemKind.device else .normalWb
    let ap := (entry >>> 6) &&& 0b11
    let write : Bool := ap = 0b00 ∨ ap = 0b01
    let user : Bool := ap = 0b01 ∨ ap = 0b11
    let execute : Bool := if user then entry &&& descUxn = 0 else entry &&& descPxn = 0
    some (descriptorAddress entry, kind, ⟨write, execute, user⟩)

structure Chunk where
  level : Level
  va : ℕ
  pa : ℕ
deriving DecidableEq

def Chunk.size (c : Chunk) : ℕ := c.level.entrySize

structure Chunks where
  va : ℕ
  pa : ℕ
  remaining : ℕ

def chunks (va pa len : ℕ) : Option Chunks :=
  if va % pageSize ≠ 0 ∨ pa % pageSize ≠ 0 ∨ len % pageSize ≠ 0 then none
  else some ⟨va, pa, len⟩

def Chunks.level (c : Chunks) : Level :=
  (([.L1, .L2, .L3] : List Level).find? fun level =>
    c.va % level.entrySize = 0 ∧ c.pa % level.entrySize = 0 ∧
      level.entrySize ≤ c.remaining).getD .L3

def Chunks.next (c : Chunks) : Option (Chunk × Chunks) :=
  if c.remaining = 0 then none
  else
    let size := c.level.entrySize
    some (⟨c.level, c.va, c.pa⟩, ⟨c.va + size, c.pa + size, c.remaining - size⟩)

def Chunks.take : ℕ → Chunks → List Chunk
  | 0, _ => []
  | n + 1, c =>
    match c.next with
    | none => []
    | some (chunk, rest) => chunk :: rest.take n

def Chunks.toList (c : Chunks) : List Chunk := c.take (c.remaining / pageSize)

theorem Level.entrySize_pos (level : Level) : 0 < level.entrySize := by
  cases level <;> decide

variable {level : Level} {w : UInt64} {pa : ℕ}

theorem Level.entrySize_next {level' : Level} (h : level.next = some level') :
    level.entrySize = entriesPerTable * level'.entrySize := by
  cases level <;> cases h <;> rfl

theorem Level.pageSize_dvd (level : Level) : pageSize ∣ level.entrySize := by
  cases level <;> decide

theorem Level.index_lt (level : Level) (va : ℕ) : level.index va < entriesPerTable :=
  Nat.mod_lt _ (by decide)

theorem toNat_and_addrMask (halign : pa % pageSize = 0) (hlt : pa < 2 ^ 48) :
    (UInt64.ofNat pa &&& addrMask).toNat = pa := by
  obtain ⟨q, rfl⟩ := Nat.dvd_of_mod_eq_zero halign
  have hq : q < 2 ^ 36 := by
    unfold pageSize at hlt
    omega
  have hmask : addrMask.toNat = (2 ^ 36 - 1) <<< 12 := by decide
  have hpa : pageSize * q = q <<< 12 := by
    rw [Nat.shiftLeft_eq]
    exact Nat.mul_comm _ _
  rw [UInt64.toNat_and, UInt64.toNat_ofNat_of_lt' (by change _ < 2 ^ 64; omega), hmask, hpa,
    ← Nat.shiftLeft_and_distrib, Nat.and_two_pow_sub_one_eq_mod, Nat.mod_eq_of_lt hq]

private theorem or_and_distrib (a b c : UInt64) : (a ||| b) &&& c = (a &&& c) ||| (b &&& c) := by
  rw [← UInt64.toNat_inj, UInt64.toNat_and, UInt64.toNat_or, UInt64.toNat_or, UInt64.toNat_and,
    UInt64.toNat_and, Nat.and_or_distrib_right]

theorem or_and_of_disjoint (a f : UInt64) {m : UInt64} (hm : addrMask &&& m = 0) :
    ((a &&& addrMask) ||| f) &&& m = f &&& m := by
  rw [or_and_distrib, UInt64.and_assoc, hm, UInt64.and_zero, UInt64.zero_or]

theorem or_and_addrMask (a : UInt64) {f : UInt64} (hf : f &&& addrMask = 0) :
    ((a &&& addrMask) ||| f) &&& addrMask = a &&& addrMask := by
  rw [or_and_distrib, UInt64.and_assoc, UInt64.and_self, hf, UInt64.or_zero]

theorem leafBits_and_addrMask (level : Level) (kind : MemKind) (perms : Perms) :
    leafBits level kind perms &&& addrMask = 0 := by
  rcases perms with ⟨write, execute, user⟩
  cases level <;> cases kind <;> cases write <;> cases execute <;> cases user <;> decide

private theorem shiftRight_and (a : UInt64) :
    (a >>> 6) &&& (0b11 : UInt64) = (a &&& ((0b11 : UInt64) <<< 6)) >>> (6 : UInt64) := by
  have hmask : ((0b11 : UInt64) <<< 6).toNat = 0b11 <<< 6 := by decide
  rw [← UInt64.toNat_inj, UInt64.toNat_and, UInt64.toNat_shiftRight, UInt64.toNat_shiftRight,
    UInt64.toNat_and, hmask, Nat.shiftRight_and_distrib]
  rfl

private theorem decodeLeaf_or (a f : UInt64) (level : Level) :
    decodeLeaf ((a &&& addrMask) ||| f) level =
      (decodeLeaf f level).map fun d => (descriptorAddress ((a &&& addrMask) ||| f), d.2) := by
  have hlow := or_and_of_disjoint a f (m := 0b11) (by decide)
  have hattr := or_and_of_disjoint a f (m := (0b111 : UInt64) <<< 2) (by decide)
  have hap := or_and_of_disjoint a f (m := (0b11 : UInt64) <<< 6) (by decide)
  have huxn := or_and_of_disjoint a f (m := descUxn) (by decide)
  have hpxn := or_and_of_disjoint a f (m := descPxn) (by decide)
  have hleaf : isLeaf ((a &&& addrMask) ||| f) level = isLeaf f level := by
    cases level <;> simp only [isLeaf, hlow]
  unfold decodeLeaf
  rw [hleaf]
  cases isLeaf f level
  · rfl
  · simp only [shiftRight_and, hap, hattr, huxn, hpxn]
    rfl

private theorem decodeLeaf_leafBits (level : Level) (kind : MemKind) (perms : Perms) :
    (decodeLeaf (leafBits level kind perms) level).map (·.2) = some (kind, perms) := by
  rcases perms with ⟨write, execute, user⟩
  cases level <;> cases kind <;> cases write <;> cases execute <;> cases user <;> decide

variable {kind : MemKind} {perms : Perms} {c : Chunks}

theorem leaf_eq_some_iff :
    leaf level pa kind perms = some w ↔ pa % level.entrySize = 0 ∧ pa < 2 ^ 48 ∧
      (UInt64.ofNat pa &&& addrMask) ||| leafBits level kind perms = w := by
  unfold leaf
  split
  · rename_i h
    simp only [reduceCtorEq, false_iff]
    rintro ⟨halign, hlt, -⟩
    exact h.elim (fun h => h halign) (fun h => absurd hlt (Nat.not_lt.2 h))
  rename_i h
  obtain ⟨halign, hlt⟩ := not_or.1 h
  rw [Option.some_inj]
  exact ⟨fun hw => ⟨not_not.1 halign, Nat.lt_of_not_le hlt, hw⟩, fun hw => hw.2.2⟩

/-- A leaf decodes to what it was made from. -/
theorem decodeLeaf_leaf (h : leaf level pa kind perms = some w) :
    decodeLeaf w level = some (pa, kind, perms) := by
  obtain ⟨halign, hlt, rfl⟩ := leaf_eq_some_iff.1 h
  have hpage : pa % pageSize = 0 :=
    Nat.mod_eq_zero_of_dvd (level.pageSize_dvd.trans (Nat.dvd_of_mod_eq_zero halign))
  obtain ⟨d, hd, hbits⟩ := Option.map_eq_some_iff.1 (decodeLeaf_leafBits level kind perms)
  rw [decodeLeaf_or, hd, Option.map_some, hbits, descriptorAddress,
    or_and_addrMask _ (leafBits_and_addrMask level kind perms), toNat_and_addrMask hpage hlt]

theorem isLeaf_of_decodeLeaf {d : ℕ × MemKind × Perms} (h : decodeLeaf w level = some d) :
    isLeaf w level = true := by
  unfold decodeLeaf at h
  cases hleaf : isLeaf w level
  · rw [hleaf] at h
    cases h
  · rfl

/-- The three readings of a descriptor exclude each other. -/
theorem isTable_of_isLeaf (h : isLeaf w level = true) :
    isTable w level = false := by
  cases level
  case L3 => rfl
  all_goals
    have hlow : w &&& 0b11 = descBlock := of_decide_eq_true h
    rw [isTable, hlow]
    decide

theorem isInvalid_of_isLeaf (h : isLeaf w level = true) :
    isInvalid w = false := by
  have hlow : w &&& 0b11 = descBlock ∨ w &&& 0b11 = descPage := by
    cases level
    case L3 => exact .inr (of_decide_eq_true h)
    all_goals exact .inl (of_decide_eq_true h)
  rcases hlow with hlow | hlow <;> rw [isInvalid, hlow] <;> decide

theorem isInvalid_of_isTable (h : isTable w level = true) :
    isInvalid w = false := by
  have hlow : w &&& 0b11 = descTable := by
    cases level
    case L3 => cases h
    all_goals exact of_decide_eq_true h
  rw [isInvalid, hlow]
  decide

/-- A table descriptor names its table. -/
theorem tableDescriptor_spec (h : tableDescriptor pa = some w) :
    descriptorAddress w = pa ∧ ∀ level, level ≠ .L3 → isTable w level = true := by
  unfold tableDescriptor at h
  split at h
  · cases h
  rename_i hok
  obtain ⟨halign, hlt⟩ := not_or.1 hok
  cases h
  refine ⟨?_, fun level hlevel => ?_⟩
  · rw [descriptorAddress, or_and_addrMask _ (by decide),
      toNat_and_addrMask (not_not.1 halign) (Nat.lt_of_not_le hlt)]
  have hlow := or_and_of_disjoint (UInt64.ofNat pa) descTable (m := 0b11) (by decide)
  cases level
  case L3 => exact absurd rfl hlevel
  all_goals exact decide_eq_true hlow

theorem tableDescriptor_isSome (halign : pa % pageSize = 0) (hlt : pa < 2 ^ 48) :
    ∃ w, tableDescriptor pa = some w :=
  ⟨_, if_neg (not_or.2 ⟨not_not.2 halign, Nat.not_le.2 hlt⟩)⟩

/-- The chunks cover `[va, va + len)` in order, each aligned to its own size. -/
def Covers (va pa len : ℕ) : List Chunk → Prop
  | [] => len = 0
  | chunk :: rest => chunk.va = va ∧ chunk.pa = pa ∧ va % chunk.size = 0 ∧ pa % chunk.size = 0 ∧
      chunk.size ≤ len ∧ Covers (va + chunk.size) (pa + chunk.size) (len - chunk.size) rest

/-- The level of a chunk fits both addresses and what is left. -/
theorem Chunks.level_fits (hva : c.va % pageSize = 0) (hpa : c.pa % pageSize = 0)
    (hlen : pageSize ≤ c.remaining) :
    c.va % c.level.entrySize = 0 ∧ c.pa % c.level.entrySize = 0 ∧
      c.level.entrySize ≤ c.remaining := by
  unfold Chunks.level
  rcases hfind : List.find? (fun level : Level => decide (c.va % level.entrySize = 0 ∧
      c.pa % level.entrySize = 0 ∧ level.entrySize ≤ c.remaining)) [.L1, .L2, .L3] with _ | level
  · exact ⟨hva, hpa, hlen⟩
  · have hfits := List.find?_some hfind
    exact of_decide_eq_true hfits

theorem Chunks.take_covers (n : ℕ) :
    ∀ c : Chunks, c.va % pageSize = 0 → c.pa % pageSize = 0 → c.remaining % pageSize = 0 →
      c.remaining ≤ n * pageSize → Covers c.va c.pa c.remaining (c.take n) := by
  induction n with
  | zero =>
    intro c _ _ _ hn
    change c.remaining = 0
    omega
  | succ n ih =>
    intro c hva hpa hlen hn
    unfold Chunks.take Chunks.next
    by_cases hzero : c.remaining = 0
    · rw [if_pos hzero]
      exact hzero
    have hpage : pageSize ≤ c.remaining := by
      unfold pageSize at *
      omega
    obtain ⟨hva', hpa', hfit⟩ := Chunks.level_fits hva hpa hpage
    have hdvd := c.level.pageSize_dvd
    have hmin : pageSize ≤ c.level.entrySize := Nat.le_of_dvd c.level.entrySize_pos hdvd
    rw [if_neg hzero]
    refine ⟨rfl, rfl, hva', hpa', hfit, ih ⟨c.va + c.level.entrySize,
      c.pa + c.level.entrySize, c.remaining - c.level.entrySize⟩ ?_ ?_ ?_ ?_⟩
    · exact Nat.mod_eq_zero_of_dvd (Nat.dvd_add (Nat.dvd_of_mod_eq_zero hva) hdvd)
    · exact Nat.mod_eq_zero_of_dvd (Nat.dvd_add (Nat.dvd_of_mod_eq_zero hpa) hdvd)
    · exact Nat.mod_eq_zero_of_dvd (Nat.dvd_sub (Nat.dvd_of_mod_eq_zero hlen) hdvd)
    · rw [Nat.succ_mul] at hn
      change c.remaining - c.level.entrySize ≤ n * pageSize
      omega

/-- Chunking splits a page-aligned request into aligned pieces and loses nothing. -/
theorem chunks_covers {va len : ℕ} (h : chunks va pa len = some c) : Covers va pa len c.toList := by
  unfold chunks at h
  split at h
  · cases h
  rename_i hok
  obtain ⟨hva, hok⟩ := not_or.1 hok
  obtain ⟨hpa, hlen⟩ := not_or.1 hok
  cases h
  refine Chunks.take_covers _ ⟨va, pa, len⟩ (not_not.1 hva) (not_not.1 hpa) (not_not.1 hlen) ?_
  exact Nat.le_of_eq (Nat.div_mul_cancel (Nat.dvd_of_mod_eq_zero (not_not.1 hlen))).symm

end HarborKernel.Paging
