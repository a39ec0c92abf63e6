import HarborKernel.Paging
import Mathlib.Data.List.Chain
import Mathlib.Data.List.Pairwise
import Mathlib.Data.List.Sort

/-!
The regions of the kernel map (`kernel-core/src/layout.rs`). Linker boundaries and device windows
become regions, which are sorted by base and checked one by one and then each against its
neighbour. Addresses are 64-bit words, so a sum wraps.
-/

namespace HarborKernel.Layout

open Paging

def Perms.rw : Perms := ⟨true, false, false⟩
def Perms.rx : Perms := ⟨false, true, false⟩
def Perms.ro : Perms := ⟨false, false, false⟩

structure Region where
  base : ℕ
  len : ℕ
  kind : MemKind
  perms : Perms
  name : String
deriving DecidableEq

namespace Region

def stop (r : Region) : ℕ := (r.base + r.len) % 2 ^ 64

def isWriteExecute (r : Region) : Bool := r.perms.write && r.perms.execute

end Region

structure DeviceWindow where
  base : ℕ
  len : ℕ
  name : String

structure GuardedStack where
  guard : ℕ × ℕ
  stack : ℕ × ℕ
  name : String

structure Boundaries where
  ramStart : ℕ
  imageStart : ℕ
  text : ℕ × ℕ
  rodata : ℕ × ℕ
  data : ℕ × ℕ
  pagetables : ℕ × ℕ
  kernelStack : GuardedStack
  exceptionStack : GuardedStack
  heap : ℕ × ℕ
  framePool : ℕ × ℕ

def Boundaries.stacks (bounds : Boundaries) : List GuardedStack :=
  [bounds.kernelStack, bounds.exceptionStack]

inductive LayoutError
  | tooManyRegions
  | unaligned (name : String) (addr : ℕ)
  | empty (name : String)
  | overlap (first second : String)
  | writeExecute (name : String)
  | guardMapped (by_ : String)
  | guardIneffective (guardStart guardEnd stackBase : ℕ)
deriving DecidableEq

/-- The difference saturates, so a range that ends before it starts is empty. -/
def region (range : ℕ × ℕ) (kind : MemKind) (perms : Perms) (name : String) : Region :=
  ⟨range.1, range.2 - range.1, kind, perms, name⟩

def ramRegions (bounds : Boundaries) : List Region :=
  [region (bounds.ramStart, bounds.imageStart) .normalWb Perms.rw "low RAM",
    region bounds.text .normalWb Perms.rx ".text",
    region bounds.rodata .normalWb Perms.ro ".rodata",
    region bounds.data .normalWb Perms.rw ".data/.bss",
    region bounds.pagetables .normalWb Perms.rw "page tables",
    region bounds.exceptionStack.stack .normalWb Perms.rw bounds.exceptionStack.name,
    region bounds.kernelStack.stack .normalWb Perms.rw bounds.kernelStack.name,
    region bounds.heap .normalWb Perms.rw "heap",
    region bounds.framePool .normalWb Perms.rw "frame pool"]

def deviceRegion (window : DeviceWindow) : Region :=
  ⟨window.base, window.len, .device, Perms.rw, window.name⟩

def candidates (bounds : Boundaries) (devices : List DeviceWindow) : List Region :=
  ramRegions bounds ++ devices.map deviceRegion

/-- An unstable sort: entries of equal base may come in any order. -/
structure SortByBase where
  sort : List Region → List Region
  perm : ∀ l, (sort l).Perm l
  ascending : ∀ l, (sort l).Pairwise fun a b => a.base ≤ b.base

def validateGuardedStack (guarded : GuardedStack) : Except LayoutError Unit :=
  if guarded.guard.2 < (guarded.guard.1 + pageSize) % 2 ^ 64 ∨
      guarded.guard.2 ≠ guarded.stack.1 then
    .error (.guardIneffective guarded.guard.1 guarded.guard.2 guarded.stack.1)
  else if guarded.stack.2 ≤ guarded.stack.1 then .error (.empty guarded.name)
  else if guarded.guard.1 % pageSize ≠ 0 ∨ guarded.stack.1 % pageSize ≠ 0 ∨
      guarded.stack.2 % pageSize ≠ 0 then
    .error (.unaligned guarded.name guarded.guard.1)
  else .ok ()

def checkGuard (r : Region) (guarded : GuardedStack) : Except LayoutError Unit :=
  if r.base < guarded.guard.2 ∧ guarded.guard.1 < r.stop then .error (.guardMapped r.name)
  else .ok ()

def checkRegion (bounds : Boundaries) (r : Region) : Except LayoutError Unit :=
  if r.len = 0 then .error (.empty r.name)
  else if r.base % pageSize ≠ 0 ∨ r.len % pageSize ≠ 0 then .error (.unaligned r.name r.base)
  else if r.isWriteExecute then .error (.writeExecute r.name)
  else bounds.stacks.forM (checkGuard r)

def checkPairs : List Region → Except LayoutError Unit
  | a :: b :: rest =>
    if b.base < a.stop then .error (.overlap a.name b.name) else checkPairs (b :: rest)
  | _ => .ok ()

def validate (regions : List Region) (bounds : Boundaries) : Except LayoutError Unit := do
  bounds.stacks.forM validateGuardedStack
  regions.forM (checkRegion bounds)
  checkPairs regions

def kernelRegions (sorter : SortByBase) (bounds : Boundaries) (devices : List DeviceWindow)
    (room : ℕ) : Except LayoutError (List Region) :=
  if room < 9 + devices.length then .error .tooManyRegions
  else do
    let filled := sorter.sort (candidates bounds devices)
    validate filled bounds
    return filled

section Checks

variable {α : Type}

theorem forM_ok_iff (f : α → Except LayoutError Unit) (l : List α) :
    l.forM f = .ok () ↔ ∀ x ∈ l, f x = .ok () := by
  induction l with
  | nil =>
    constructor
    · intro _ x hx
      cases hx
    · intro _
      rfl
  | cons x rest ih =>
    rw [List.forall_mem_cons, ← ih]
    show (f x >>= fun _ => rest.forM f) = .ok () ↔ _
    cases f x with
    | error e => exact ⟨nofun, fun h => nomatch h.1⟩
    | ok done => exact ⟨fun h => ⟨rfl, h⟩, fun h => h.2⟩

theorem bind_ok_iff {x : Except LayoutError Unit} {y : Except LayoutError α} {a : α} :
    (x >>= fun _ => y) = .ok a ↔ x = .ok () ∧ y = .ok a := by
  cases x with
  | error e => exact ⟨nofun, fun h => nomatch h.1⟩
  | ok done => exact ⟨fun h => ⟨rfl, h⟩, fun h => h.2⟩

end Checks

def Within (range : ℕ × ℕ) (x : ℕ) : Prop := range.1 ≤ x ∧ x < range.2

def Apart (a b : ℕ × ℕ) : Prop := ∀ x, ¬(Within a x ∧ Within b x)

theorem Apart.symm {a b : ℕ × ℕ} (h : Apart a b) : Apart b a := fun x hx => h x hx.symm

theorem apart_iff {a b : ℕ × ℕ} (ha : a.1 < a.2) (hb : b.1 < b.2) :
    Apart a b ↔ a.2 ≤ b.1 ∨ b.2 ≤ a.1 := by
  unfold Apart Within
  constructor
  · intro h
    by_contra hover
    apply h (max a.1 b.1)
    omega
  · intro h x hx
    omega

def Region.range (r : Region) : ℕ × ℕ := (r.base, r.base + r.len)

theorem validateGuardedStack_iff {guarded : GuardedStack}
    (h : guarded.guard.1 + pageSize < 2 ^ 64) :
    validateGuardedStack guarded = .ok () ↔ guarded.guard.1 + pageSize ≤ guarded.guard.2 ∧
      guarded.guard.2 = guarded.stack.1 ∧ guarded.stack.1 < guarded.stack.2 ∧
      guarded.guard.1 % pageSize = 0 ∧ guarded.stack.1 % pageSize = 0 ∧
      guarded.stack.2 % pageSize = 0 := by
  unfold validateGuardedStack
  rw [Nat.mod_eq_of_lt h]
  split
  · exact ⟨nofun, fun hok => by omega⟩
  split
  · exact ⟨nofun, fun hok => by omega⟩
  split
  · exact ⟨nofun, fun hok => by omega⟩
  · exact ⟨fun _ => by omega, fun _ => rfl⟩

theorem checkGuard_iff (r : Region) (guarded : GuardedStack) :
    checkGuard r guarded = .ok () ↔
      ¬(r.base < guarded.guard.2 ∧ guarded.guard.1 < r.stop) := by
  unfold checkGuard
  split
  · rename_i hhit
    exact ⟨nofun, fun hmiss => absurd hhit hmiss⟩
  · rename_i hmiss
    exact ⟨fun _ => hmiss, fun _ => rfl⟩

theorem checkRegion_iff (bounds : Boundaries) (r : Region) :
    checkRegion bounds r = .ok () ↔ r.len ≠ 0 ∧ r.base % pageSize = 0 ∧ r.len % pageSize = 0 ∧
      r.isWriteExecute = false ∧
      ∀ guarded ∈ bounds.stacks, ¬(r.base < guarded.guard.2 ∧ guarded.guard.1 < r.stop) := by
  unfold checkRegion
  by_cases hempty : r.len = 0
  · rw [if_pos hempty]
    exact ⟨nofun, fun h => absurd hempty h.1⟩
  by_cases halign : r.base % pageSize ≠ 0 ∨ r.len % pageSize ≠ 0
  · rw [if_neg hempty, if_pos halign]
    exact ⟨nofun, fun h => by omega⟩
  cases hwx : r.isWriteExecute with
  | true =>
    rw [if_neg hempty, if_neg halign, if_pos rfl]
    exact ⟨nofun, fun h => nomatch h.2.2.2.1⟩
  | false =>
    rw [if_neg hempty, if_neg halign, if_neg Bool.false_ne_true, forM_ok_iff]
    simp only [checkGuard_iff]
    exact ⟨fun h => ⟨hempty, by omega, by omega, trivial, h⟩, fun h => h.2.2.2.2⟩

theorem checkPairs_iff (regions : List Region) :
    checkPairs regions = .ok () ↔ regions.IsChain fun a b => a.stop ≤ b.base := by
  induction regions with
  | nil => exact ⟨fun _ => .nil, fun _ => rfl⟩
  | cons a rest ih =>
    cases rest with
    | nil => exact ⟨fun _ => .singleton a, fun _ => rfl⟩
    | cons b rest =>
      rw [checkPairs, List.isChain_cons_cons, ← ih]
      by_cases hover : b.base < a.stop
      · rw [if_pos hover]
        exact ⟨nofun, fun h => absurd h.1 (Nat.not_le.2 hover)⟩
      · rw [if_neg hover]
        exact ⟨fun h => ⟨Nat.not_lt.1 hover, h⟩, fun h => h.2⟩

theorem chain_iff_apart {regions : List Region}
    (hsorted : regions.Pairwise fun a b => a.base ≤ b.base) (hlen : ∀ r ∈ regions, r.len ≠ 0)
    (hfits : ∀ r ∈ regions, r.base + r.len < 2 ^ 64) :
    (regions.IsChain fun a b => a.stop ≤ b.base) ↔
      regions.Pairwise fun a b => Apart a.range b.range := by
  have hstop : ∀ r ∈ regions, r.stop = r.base + r.len := fun r hr => Nat.mod_eq_of_lt (hfits r hr)
  have hrange : ∀ r ∈ regions, r.range.1 < r.range.2 := by
    intro r hr
    have hpos := hlen r hr
    simp only [Region.range]
    omega
  constructor
  · intro hchain
    -- without wrapping the relation of neighbours is transitive
    have hplain : regions.IsChain fun a b => a.base + a.len ≤ b.base := by
      refine hchain.imp_of_mem_imp ?_
      intro a b ha _ hab
      rwa [hstop a ha] at hab
    have htrans : IsTrans Region fun a b => a.base + a.len ≤ b.base :=
      ⟨fun a b c hab hbc => by omega⟩
    refine hplain.pairwise.imp_of_mem ?_
    intro a b ha hb hab
    exact (apart_iff (hrange a ha) (hrange b hb)).2 (.inl hab)
  · intro hapart
    refine List.Pairwise.isChain ?_
    refine (hsorted.and hapart).imp_of_mem ?_
    intro a b ha hb hab
    rw [hstop a ha]
    have hpos := hrange b hb
    rcases (apart_iff (hrange a ha) (hrange b hb)).1 hab.2 with hbefore | hafter
    · exact hbefore
    · simp only [Region.range] at hafter hpos
      omega

def ramRanges (bounds : Boundaries) : List (ℕ × ℕ) :=
  [(bounds.ramStart, bounds.imageStart), bounds.text, bounds.rodata, bounds.data,
    bounds.pagetables, bounds.exceptionStack.stack, bounds.kernelStack.stack, bounds.heap,
    bounds.framePool]

def ranges (bounds : Boundaries) (devices : List DeviceWindow) : List (ℕ × ℕ) :=
  ramRanges bounds ++ devices.map fun w => (w.base, w.base + w.len)

/-- The addresses are words, and neither a device window nor a guard reaches past the last. -/
structure InRange (bounds : Boundaries) (devices : List DeviceWindow) : Prop where
  words : ∀ range ∈ ramRanges bounds, range.1 < 2 ^ 64 ∧ range.2 < 2 ^ 64
  devices : ∀ w ∈ devices, w.base + w.len < 2 ^ 64
  guards : ∀ guarded ∈ bounds.stacks, guarded.guard.1 ≤ 2 ^ 64 - 4097

structure Acceptable (bounds : Boundaries) (devices : List DeviceWindow) (room : ℕ) : Prop where
  room : 9 + devices.length ≤ room
  nonempty : ∀ range ∈ ranges bounds devices, range.1 < range.2
  aligned : ∀ range ∈ ranges bounds devices, range.1 % pageSize = 0 ∧ range.2 % pageSize = 0
  disjoint : (ranges bounds devices).Pairwise Apart
  guarded : ∀ guarded ∈ bounds.stacks, guarded.guard.1 % pageSize = 0 ∧
    guarded.guard.1 + pageSize ≤ guarded.guard.2 ∧ guarded.guard.2 = guarded.stack.1 ∧
    guarded.stack.1 < guarded.stack.2
  unmapped : ∀ range ∈ ranges bounds devices, ∀ guarded ∈ bounds.stacks,
    Apart range guarded.guard

variable {bounds : Boundaries} {devices : List DeviceWindow}

theorem ramRegions_range (h : ∀ range ∈ ramRanges bounds, range.1 ≤ range.2) :
    (ramRegions bounds).map Region.range = ramRanges bounds := by
  have hregion : ∀ (range : ℕ × ℕ) kind perms name, range.1 ≤ range.2 →
      (region range kind perms name).range = range := by
    intro range kind perms name hle
    exact Prod.ext rfl (Nat.add_sub_of_le hle)
  simp only [ramRanges, List.forall_mem_cons] at h
  obtain ⟨h0, h1, h2, h3, h4, h5, h6, h7, h8, _⟩ := h
  simp only [ramRegions, ramRanges, List.map_cons, List.map_nil,
    hregion (bounds.ramStart, bounds.imageStart) _ _ _ h0, hregion _ _ _ _ h1,
    hregion _ _ _ _ h2, hregion _ _ _ _ h3, hregion _ _ _ _ h4,
    hregion _ _ _ _ h5, hregion _ _ _ _ h6, hregion _ _ _ _ h7, hregion _ _ _ _ h8]

theorem candidates_range (h : ∀ range ∈ ranges bounds devices, range.1 < range.2) :
    (candidates bounds devices).map Region.range = ranges bounds devices := by
  have hram : ∀ range ∈ ramRanges bounds, range.1 ≤ range.2 :=
    fun range hr => Nat.le_of_lt (h range (List.mem_append_left _ hr))
  rw [candidates, List.map_append, ramRegions_range hram, ranges, List.map_map]
  rfl

theorem ranges_nonempty (h : ∀ r ∈ candidates bounds devices, r.len ≠ 0) :
    ∀ range ∈ ranges bounds devices, range.1 < range.2 := by
  intro range hr
  rcases List.mem_append.1 hr with hram | hdevice
  · have hlens : ∀ r ∈ ramRegions bounds, r.len ≠ 0 :=
      fun r hr => h r (List.mem_append_left _ hr)
    simp only [ramRegions, List.forall_mem_cons, region] at hlens
    simp only [ramRanges, List.mem_cons, List.not_mem_nil, or_false] at hram
    rcases hram with rfl | rfl | rfl | rfl | rfl | rfl | rfl | rfl | rfl <;> omega
  obtain ⟨w, hw, rfl⟩ := List.mem_map.1 hdevice
  have hlen := h (deviceRegion w) (List.mem_append_right _ (List.mem_map_of_mem hw))
  simp only [deviceRegion] at hlen ⊢
  omega

theorem candidates_fit (h : InRange bounds devices) :
    ∀ r ∈ candidates bounds devices, r.base + r.len < 2 ^ 64 := by
  intro r hr
  rcases List.mem_append.1 hr with hram | hdevice
  · have hwords := h.words
    simp only [ramRanges, List.forall_mem_cons] at hwords
    simp only [ramRegions, List.mem_cons, List.not_mem_nil, or_false] at hram
    rcases hram with rfl | rfl | rfl | rfl | rfl | rfl | rfl | rfl | rfl <;>
      simp only [region] <;> omega
  · obtain ⟨w, hw, rfl⟩ := List.mem_map.1 hdevice
    exact h.devices w hw

/-- No region of the kernel is writable and executable, and a device is never executable. -/
theorem candidates_perms :
    ∀ r ∈ candidates bounds devices, r.isWriteExecute = false ∧
      (r.kind = .device → r.perms.execute = false) := by
  intro r hr
  rcases List.mem_append.1 hr with hram | hdevice
  · simp only [ramRegions, List.mem_cons, List.not_mem_nil, or_false] at hram
    rcases hram with rfl | rfl | rfl | rfl | rfl | rfl | rfl | rfl | rfl <;> exact ⟨rfl, nofun⟩
  · obtain ⟨w, _, rfl⟩ := List.mem_map.1 hdevice
    exact ⟨rfl, fun _ => rfl⟩

/-- The checks pass exactly on the regions of an acceptable map. -/
theorem validate_iff (sorter : SortByBase) {room : ℕ} (hin : InRange bounds devices)
    (hroom : 9 + devices.length ≤ room) :
    validate (sorter.sort (candidates bounds devices)) bounds = .ok () ↔
      Acceptable bounds devices room := by
  have hperm := sorter.perm (candidates bounds devices)
  have hmem : ∀ r, r ∈ sorter.sort (candidates bounds devices) ↔ r ∈ candidates bounds devices :=
    fun r => hperm.mem_iff
  have hfit := candidates_fit hin
  have hpage : pageSize = 4096 := rfl
  have hguard : ∀ guarded ∈ bounds.stacks, guarded.guard.1 + pageSize < 2 ^ 64 := by
    intro guarded hg
    have hle := hin.guards guarded hg
    omega
  rw [validate, bind_ok_iff, bind_ok_iff, forM_ok_iff, forM_ok_iff, checkPairs_iff]
  simp only [hmem, checkRegion_iff]
  constructor
  · rintro ⟨hstacks, hregions, hchain⟩
    have hlen : ∀ r ∈ candidates bounds devices, r.len ≠ 0 := fun r hr => (hregions r hr).1
    have hnonempty := ranges_nonempty hlen
    have hmap := candidates_range hnonempty
    rw [chain_iff_apart (sorter.ascending _) (fun r hr => hlen r ((hmem r).1 hr))
      (fun r hr => hfit r ((hmem r).1 hr)), hperm.pairwise_iff fun h => Apart.symm h] at hchain
    refine ⟨hroom, hnonempty, ?_, ?_, ?_, ?_⟩
    · rw [← hmap]
      intro range hrange
      obtain ⟨r, hr, rfl⟩ := List.mem_map.1 hrange
      obtain ⟨_, hbase, hlen, _⟩ := hregions r hr
      rw [hpage] at hbase hlen ⊢
      simp only [Region.range]
      omega
    · rw [← hmap, List.pairwise_map]
      exact hchain
    · intro guarded hg
      have hok := (validateGuardedStack_iff (hguard guarded hg)).1 (hstacks guarded hg)
      exact ⟨hok.2.2.2.1, hok.1, hok.2.1, hok.2.2.1⟩
    · rw [← hmap]
      intro range hrange guarded hg
      obtain ⟨r, hr, rfl⟩ := List.mem_map.1 hrange
      have hmiss := (hregions r hr).2.2.2.2 guarded hg
      rw [Region.stop, Nat.mod_eq_of_lt (hfit r hr)] at hmiss
      intro x hx
      simp only [Within, Region.range] at hx
      omega
  · intro hacc
    have hmap := candidates_range hacc.nonempty
    have hrange : ∀ r ∈ candidates bounds devices, r.range ∈ ranges bounds devices := by
      intro r hr
      rw [← hmap]
      exact List.mem_map_of_mem hr
    have hlen : ∀ r ∈ candidates bounds devices, r.len ≠ 0 := by
      intro r hr
      have hlt := hacc.nonempty _ (hrange r hr)
      simp only [Region.range] at hlt
      omega
    refine ⟨?_, ?_, ?_⟩
    · intro guarded hg
      obtain ⟨halign, hpage', hmeets, hstack⟩ := hacc.guarded guarded hg
      have hstackin : guarded.stack ∈ ranges bounds devices := by
        simp only [Boundaries.stacks, List.mem_cons, List.not_mem_nil, or_false] at hg
        apply List.mem_append_left
        rcases hg with rfl | rfl <;> simp [ramRanges]
      have hends := hacc.aligned _ hstackin
      exact (validateGuardedStack_iff (hguard guarded hg)).2
        ⟨hpage', hmeets, hstack, halign, hends.1, hends.2⟩
    · intro r hr
      have hends := hacc.aligned _ (hrange r hr)
      simp only [Region.range] at hends
      have hmod : r.len % pageSize = 0 := by
        rw [hpage] at hends ⊢
        omega
      refine ⟨hlen r hr, hends.1, hmod, (candidates_perms r hr).1, ?_⟩
      intro guarded hg hhit
      obtain ⟨_, hpage', _, _⟩ := hacc.guarded guarded hg
      have hne := hacc.nonempty _ (hrange r hr)
      have hapart := (apart_iff hne (by omega)).1 (hacc.unmapped _ (hrange r hr) guarded hg)
      rw [Region.stop, Nat.mod_eq_of_lt (hfit r hr)] at hhit
      simp only [Region.range] at hapart
      omega
    · rw [chain_iff_apart (sorter.ascending _) (fun r hr => hlen r ((hmem r).1 hr))
        (fun r hr => hfit r ((hmem r).1 hr)), hperm.pairwise_iff fun h => Apart.symm h]
      have hdisjoint := hacc.disjoint
      rwa [← hmap, List.pairwise_map] at hdisjoint

/-- The builder accepts exactly the acceptable maps, and returns their regions in order. -/
theorem kernel_regions_safe (sorter : SortByBase) (bounds : Boundaries)
    (devices : List DeviceWindow) (room : ℕ) (hin : InRange bounds devices) :
    ((∃ regions, kernelRegions sorter bounds devices room = .ok regions) ↔
        Acceptable bounds devices room) ∧
      ∀ regions, kernelRegions sorter bounds devices room = .ok regions →
        regions.Perm (candidates bounds devices) ∧ regions.length = 9 + devices.length ∧
        (regions.Pairwise fun a b => a.base < b.base) ∧
        (regions.Pairwise fun a b => Apart a.range b.range) ∧
        (∀ r ∈ regions, r.isWriteExecute = false) ∧
        (∀ r ∈ regions, r.kind = .device → r.perms.execute = false) ∧
        ∀ guarded ∈ bounds.stacks, ∀ x, Within guarded.guard x →
          ∀ r ∈ regions, ¬Within r.range x := by
  unfold kernelRegions
  by_cases hroom : room < 9 + devices.length
  · rw [if_pos hroom]
    refine ⟨⟨?_, ?_⟩, nofun⟩
    · rintro ⟨_, h⟩
      cases h
    · intro h
      exact absurd h.room (Nat.not_le.2 hroom)
  rw [if_neg hroom]
  have hvalid := validate_iff sorter hin (Nat.not_lt.1 hroom)
  refine ⟨?_, ?_⟩
  · rw [← hvalid]
    constructor
    · rintro ⟨regions, h⟩
      exact (bind_ok_iff.1 h).1
    · intro h
      exact ⟨_, bind_ok_iff.2 ⟨h, rfl⟩⟩
  intro regions h
  obtain ⟨hok, hreturn⟩ := bind_ok_iff.1 h
  cases hreturn
  have hacc := hvalid.1 hok
  have hperm := sorter.perm (candidates bounds devices)
  have hmap := candidates_range hacc.nonempty
  have hrange : ∀ r ∈ sorter.sort (candidates bounds devices),
      r.range ∈ ranges bounds devices := by
    intro r hr
    rw [← hmap]
    exact List.mem_map_of_mem (hperm.mem_iff.1 hr)
  have hapart : (sorter.sort (candidates bounds devices)).Pairwise
      fun a b => Apart a.range b.range := by
    rw [hperm.pairwise_iff fun h => Apart.symm h]
    have hdisjoint := hacc.disjoint
    rwa [← hmap, List.pairwise_map] at hdisjoint
  refine ⟨hperm, ?_, ?_, hapart, ?_, ?_, ?_⟩
  · rw [hperm.length_eq, candidates, List.length_append, List.length_map]
    rfl
  · refine ((sorter.ascending _).and hapart).imp_of_mem ?_
    intro a b ha hb hab
    have hane := hacc.nonempty _ (hrange a ha)
    have hbne := hacc.nonempty _ (hrange b hb)
    have hends := (apart_iff hane hbne).1 hab.2
    simp only [Region.range] at hends hane hbne
    omega
  · intro r hr
    exact (candidates_perms r (hperm.mem_iff.1 hr)).1
  · intro r hr
    exact (candidates_perms r (hperm.mem_iff.1 hr)).2
  · intro guarded hg x hx r hr hin'
    exact hacc.unmapped _ (hrange r hr) guarded hg x ⟨hin', hx⟩

def insertionByBase : SortByBase where
  sort := List.insertionSort fun a b => a.base ≤ b.base
  perm := List.perm_insertionSort _
  ascending := List.pairwise_insertionSort _

def sampleBounds : Boundaries where
  ramStart := 0x40000000
  imageStart := 0x40080000
  text := (0x40080000, 0x40081000)
  rodata := (0x40081000, 0x40082000)
  data := (0x40082000, 0x40083000)
  pagetables := (0x40083000, 0x40084000)
  exceptionStack := ⟨(0x40084000, 0x40085000), (0x40085000, 0x40086000), "exception stack"⟩
  kernelStack := ⟨(0x40086000, 0x40087000), (0x40087000, 0x40088000), "kernel stack"⟩
  heap := (0x40088000, 0x40089000)
  framePool := (0x40089000, 0x4008a000)

/-- A device window below RAM is sorted to the front. -/
theorem kernel_regions_safe_sample :
    ∃ regions, kernelRegions insertionByBase sampleBounds [⟨0x9000000, 0x1000, "uart"⟩] 10 =
        .ok regions ∧ (regions.Pairwise fun a b => Apart a.range b.range) := by
  have hin : InRange sampleBounds [⟨0x9000000, 0x1000, "uart"⟩] := by
    refine ⟨by decide, ?_, by decide⟩
    intro w hw
    obtain rfl := List.mem_singleton.1 hw
    decide
  have hsafe := kernel_regions_safe insertionByBase sampleBounds
    [⟨0x9000000, 0x1000, "uart"⟩] 10 hin
  have hok : (kernelRegions insertionByBase sampleBounds [⟨0x9000000, 0x1000, "uart"⟩] 10).isOk =
      true := by decide +kernel
  cases hregions : kernelRegions insertionByBase sampleBounds
      [⟨0x9000000, 0x1000, "uart"⟩] 10 with
  | error e =>
    rw [hregions] at hok
    cases hok
  | ok regions => exact ⟨regions, rfl, (hsafe.2 regions hregions).2.2.2.1⟩

end HarborKernel.Layout
