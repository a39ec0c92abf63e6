import HarborKernel.UserPages

/-!
A prepared address space: what the kernel maps, and pages of its own where the
kernel maps nothing. `prepare_for_el0` clones the kernel's tables and maps the
window into new frames; the region calls add pages, one after the other, and keep
those they have added when they fail.
-/

namespace HarborKernel.AddressSpaces

open Function ByteWords ErrorState Paging PageWalk

structure Prepared (K : ℕ → Option Translation) (s : Sys) (U : ℕ → Option Translation) : Prop where
  tree : Tree s
  view : ∀ v < vaLimit, s.translate v = match U (v / pageSize) with
    | some d => some (d.1 + v % pageSize, d.2)
    | none => K v
  apart : ∀ v < vaLimit, U (v / pageSize) ≠ none → K v = none

variable {K : ℕ → Option Translation} {s s₁ s₂ : Sys} {U U' : ℕ → Option Translation}
  {va pa : ℕ} {kind : MemKind} {perms : Perms}

theorem Prepared.grows (h : Prepared K s U) (hg : Grows s s₁) : Prepared K s₁ U :=
  ⟨hg.tree, fun v hv => (hg.same v).trans (h.view v hv), h.apart⟩

theorem vpage_lt (va : ℕ) : vpage va * pageSize < vaLimit := by
  have hlt : va % vaLimit < vaLimit := Nat.mod_lt _ (by decide)
  have hlimit : vaLimit = 2 ^ 39 := rfl
  unfold vpage pageSize
  omega

theorem Prepared.unused (h : Prepared K s U) (hi : Installed s va pa kind perms s₁) :
    U (vpage va) = none := by
  have hpage : vpage va * pageSize / pageSize = vpage va := Nat.mul_div_cancel _ (by decide)
  have hview := h.view _ (vpage_lt va)
  rw [hi.before _ (vpage_lt va) hpage, hpage] at hview
  cases hU : U (vpage va) with
  | none => rfl
  | some d =>
    rw [hU] at hview
    cases hview

theorem Prepared.install (h : Prepared K s U) (hi : Installed s va pa kind perms s₁) :
    Prepared K s₁ (update U (vpage va) (some (pa, kind, perms))) := by
  refine ⟨hi.tree, fun v hv => ?_, fun v hv hne => ?_⟩
  · rw [hi.after v hv]
    by_cases hp : v / pageSize = vpage va
    · rw [if_pos hp, hp, update_self]
    · rw [if_neg hp, update_of_ne hp]
      exact h.view v hv
  by_cases hp : v / pageSize = vpage va
  · have hview := h.view v hv
    rw [hi.before v hv hp, hp, h.unused hi] at hview
    exact hview.symm
  · rw [update_of_ne hp] at hne
    exact h.apart v hv hne

structure Adds (U U' : ℕ → Option Translation) (va : ℕ) (pas : ℕ → ℕ) (kind : MemKind)
    (perms : Perms) (n : ℕ) : Prop where
  mono : ∀ p d, U p = some d → U' p = some d
  only : ∀ p d, U' p = some d →
    U p = some d ∨ ∃ j < n, p = vpage (va + j * pageSize) ∧ d = (pas j, kind, perms)

variable {pas : ℕ → ℕ} {n : ℕ}

theorem Adds.refl (n : ℕ) : Adds U U va pas kind perms n :=
  ⟨fun _ _ h => h, fun _ _ h => .inl h⟩

theorem Adds.cons (hunused : U (vpage va) = none)
    (h : Adds (update U (vpage va) (some (pas 0, kind, perms))) U' (va + pageSize)
      (fun j => pas (j + 1)) kind perms n) : Adds U U' va pas kind perms (n + 1) := by
  refine ⟨fun p d hp => h.mono p d ?_, fun p d hp => ?_⟩
  · have hne : p ≠ vpage va := by
      rintro rfl
      rw [hunused] at hp
      cases hp
    rwa [update_of_ne hne]
  rcases h.only p d hp with hp | ⟨j, hj, rfl, rfl⟩
  · by_cases hpv : p = vpage va
    · subst hpv
      rw [update_self] at hp
      exact .inr ⟨0, Nat.succ_pos n, by rw [Nat.zero_mul, Nat.add_zero], (Option.some.inj hp).symm⟩
    · rw [update_of_ne hpv] at hp
      exact .inl hp
  · refine .inr ⟨j + 1, by omega, ?_, rfl⟩
    rw [Nat.succ_mul, Nat.add_comm (j * pageSize), Nat.add_assoc]

def starts (size a b : ℕ) : ℕ := (b + size - 1) / size - (a + size - 1) / size

def tablesFor (va n : ℕ) : ℕ :=
  2 + starts l1BlockSize (va + pageSize) (va + n * pageSize) +
    starts l2BlockSize (va + pageSize) (va + n * pageSize)

def Near (s : Sys) (va : ℕ) : Prop :=
  (va % l1BlockSize ≠ 0 → ∃ t, tableFrom s.tables .L1 s.root .L2 va = some t) ∧
  (va % l2BlockSize ≠ 0 → ∃ t, tableFrom s.tables .L1 s.root .L3 va = some t)

theorem Installed.near (h : Installed s va pa kind perms s₁) (halign : va % pageSize = 0) :
    Near s₁ (va + pageSize) := by
  unfold pageSize at halign
  refine ⟨fun hva => ?_, fun hva => ?_⟩
  · obtain ⟨t, ht⟩ := h.reached .L2
    refine ⟨t, ?_⟩
    rw [← ht]
    refine tableFrom_of_sameTable fun k hk hlt => ?_
    cases k <;> first | exact absurd hlt (by decide) | skip
    change (va + 2 ^ 12) / 2 ^ 30 % 512 = va / 2 ^ 30 % 512
    unfold l1BlockSize pageSize at hva
    omega
  obtain ⟨t, ht⟩ := h.reached .L3
  refine ⟨t, ?_⟩
  rw [← ht]
  unfold l2BlockSize pageSize at hva
  refine tableFrom_of_sameTable fun k hk hlt => ?_
  cases k <;> first | exact absurd hlt (by decide) | skip
  · change (va + 2 ^ 12) / 2 ^ 30 % 512 = va / 2 ^ 30 % 512
    omega
  · change (va + 2 ^ 12) / 2 ^ 21 % 512 = va / 2 ^ 21 % 512
    omega

theorem starts_page {size : ℕ} (hsize : size = l1BlockSize ∨ size = l2BlockSize)
    (halign : va % pageSize = 0) (n : ℕ) :
    starts size va (va + (n + 1) * pageSize) =
      (if va % size = 0 then 1 else 0) +
        starts size (va + pageSize) (va + pageSize + n * pageSize) := by
  unfold starts
  unfold pageSize at *
  rcases hsize with rfl | rfl
  · unfold l1BlockSize
    split <;> omega
  · unfold l2BlockSize
    split <;> omega

def tailCost (va n : ℕ) : ℕ :=
  starts l1BlockSize va (va + n * pageSize) + starts l2BlockSize va (va + n * pageSize)

theorem tailCost_succ (halign : va % pageSize = 0) (n : ℕ) :
    tailCost va (n + 1) = ((if va % l1BlockSize = 0 then 1 else 0) +
      (if va % l2BlockSize = 0 then 1 else 0)) + tailCost (va + pageSize) n := by
  unfold tailCost
  rw [starts_page (.inl rfl) halign, starts_page (.inr rfl) halign]
  omega

theorem tablesFor_succ (n : ℕ) : tablesFor va (n + 1) = 2 + tailCost (va + pageSize) n := by
  unfold tablesFor tailCost
  rw [show va + (n + 1) * pageSize = va + pageSize + n * pageSize by rw [Nat.succ_mul]; omega]
  omega

structure Added (K : ℕ → Option Translation) (U : ℕ → Option Translation) (s : Sys) (va : ℕ)
    (pas : ℕ → ℕ) (kind : MemKind) (perms : Perms) (n : ℕ) (U' : ℕ → Option Translation)
    (s' : Sys) : Prop where
  prepared : Prepared K s' U'
  adds : Adds U U' va pas kind perms n
  newTable : ∀ t, s'.IsTable t → s.IsTable t ∨ NewPage s s' t

def Complete (U' : ℕ → Option Translation) (va : ℕ) (pas : ℕ → ℕ) (kind : MemKind) (perms : Perms)
    (n : ℕ) : Prop :=
  ∀ j < n, U' (vpage (va + j * pageSize)) = some (pas j, kind, perms)

theorem Added.of_grows (h : Prepared K s U) (hg : Grows s s₁) (n : ℕ) :
    Added K U s va pas kind perms n U s₁ := ⟨h.grows hg, .refl n, hg.newTable⟩

theorem Added.cons {D D' : ℕ → Prop} (h : Prepared K s U)
    (hi : Installed s va (pas 0) kind perms s₁) (hold : Within D s s₁) (hnew : Within D' s₁ s₂)
    (ha : Added K (update U (vpage va) (some (pas 0, kind, perms))) s₁ (va + pageSize)
      (fun j => pas (j + 1)) kind perms n U' s₂) : Added K U s va pas kind perms (n + 1) U' s₂ := by
  refine ⟨ha.prepared, .cons (h.unused hi) ha.adds, fun t ht => ?_⟩
  rcases ha.newTable t ht with ht | ht
  · exact (hi.newTable t ht).imp_right hnew.newPage_left
  · exact .inr (hold.newPage_right ht)

theorem Complete.cons (hmono : ∀ p d, update U (vpage va) (some (pas 0, kind, perms)) p = some d →
      U' p = some d) (h : Complete U' (va + pageSize) (fun j => pas (j + 1)) kind perms n) :
    Complete U' va pas kind perms (n + 1) := by
  intro j hj
  rcases j with _ | j
  · rw [Nat.zero_mul, Nat.add_zero]
    exact hmono _ _ (update_self ..)
  · have := h j (by omega)
    rwa [Nat.add_assoc, Nat.add_comm pageSize, ← Nat.succ_mul] at this

def AddsPages (K : ℕ → Option Translation) (x : As Unit) (s : Sys) (U : ℕ → Option Translation)
    (va : ℕ) (pas : ℕ → ℕ) (kind : MemKind) (perms : Perms) (n k : ℕ) : Prop :=
  SpecE s.IsTable k x s
    (fun _ s' => ∃ U', Added K U s va pas kind perms n U' s' ∧ Complete U' va pas kind perms n)
    (fun _ s' => ∃ U', Added K U s va pas kind perms n U' s')

theorem AddsPages.cons {rest : As Unit} (pas : ℕ → ℕ) (k₂ k₃ : ℕ) {k' : ℕ} (hok : SysOk s)
    (h : Prepared K s U) (halign : va % pageSize = 0)
    (hk₂ : tableFrom s.tables .L1 s.root .L2 va = none → 1 ≤ k₂)
    (hk₃ : tableFrom s.tables .L1 s.root .L3 va = none → 1 ≤ k₃)
    (hrest : ∀ s₁ U₁, SysOk s₁ → Prepared K s₁ U₁ → Near s₁ (va + pageSize) →
      AddsPages K rest s₁ U₁ (va + pageSize) (fun j => pas (j + 1)) kind perms n k') :
    AddsPages K (do mapL3Page va (pas 0) kind perms; rest) s U va pas kind perms (n + 1)
      (k₂ + k₃ + k') := by
  refine SpecE.bind (SpecE.mono (mapL3Page_spec hok h.tree hk₂ hk₃) (fun _ hh => hh) le_rfl
    (fun _ _ hst hQ => (⟨hst, hQ⟩ : _ ∧ _)) fun _ s' _ hE => ⟨U, .of_grows h hE.1 _⟩)
    fun _ s₁ _ hs₁ => ?_
  obtain ⟨hst₁, hinst⟩ := hs₁
  refine SpecE.mono (hrest s₁ _ hst₁.ok (h.install hinst) (hinst.near halign))
    (fun t ht => hinst.newTable t ht) le_rfl (fun _ s₂ hst₂ hs₂ => ?_) fun _ s₂ hf₂ hs₂ => ?_
  · obtain ⟨U', hadded, hcomplete⟩ := hs₂
    exact ⟨U', .cons h hinst hst₁.toWithin hst₂.toWithin hadded, .cons hadded.adds.mono hcomplete⟩
  · obtain ⟨U', hadded⟩ := hs₂
    exact ⟨U', .cons h hinst hst₁.toWithin hf₂.toWithin hadded⟩

theorem AddsPages.nil (hok : SysOk s) (h : Prepared K s U) :
    AddsPages K (pure ()) s U va pas kind perms 0 0 :=
  SpecE.pure hok ⟨U, .of_grows h (.refl h.tree) 0, fun j hj => absurd hj (Nat.not_lt_zero j)⟩

theorem Near.cost (h : Near s va) :
    (tableFrom s.tables .L1 s.root .L2 va = none → 1 ≤ if va % l1BlockSize = 0 then 1 else 0) ∧
    (tableFrom s.tables .L1 s.root .L3 va = none → 1 ≤ if va % l2BlockSize = 0 then 1 else 0) := by
  refine ⟨fun hnone => ?_, fun hnone => ?_⟩
  · by_cases hva : va % l1BlockSize = 0
    · rw [if_pos hva]
    obtain ⟨t, ht⟩ := h.1 hva
    rw [hnone] at ht
    cases ht
  by_cases hva : va % l2BlockSize = 0
  · rw [if_pos hva]
  obtain ⟨t, ht⟩ := h.2 hva
  rw [hnone] at ht
  cases ht

theorem aligned_next (h : va % pageSize = 0) : (va + pageSize) % pageSize = 0 := by
  rw [Nat.add_mod_right, h]

theorem mapPages_tail (kind : MemKind) (perms : Perms) (n : ℕ) :
    ∀ (va pa : ℕ) (s : Sys) (U : ℕ → Option Translation), va % pageSize = 0 → SysOk s →
      Prepared K s U → Near s va →
      AddsPages K (mapPages kind perms n va pa) s U va (fun j => pa + j * pageSize) kind perms n
        (tailCost va n) := by
  induction n with
  | zero =>
    intro va pa s U _ hok h _
    rw [show tailCost va 0 = 0 by unfold tailCost starts; simp]
    exact .nil hok h
  | succ n ih =>
    intro va pa s U halign hok h hnear
    rw [tailCost_succ halign, mapPages]
    have hpas : (fun j => pa + (j + 1) * pageSize) = fun j => pa + pageSize + j * pageSize := by
      funext j
      rw [Nat.succ_mul]
      omega
    have hcons := AddsPages.cons (fun j => pa + j * pageSize) _ _ hok h halign hnear.cost.1
      hnear.cost.2 fun s₁ U₁ hok₁ h₁ hnear₁ =>
        hpas ▸ ih (va + pageSize) (pa + pageSize) s₁ U₁ (aligned_next halign) hok₁ h₁ hnear₁
    rw [Nat.zero_mul, Nat.add_zero] at hcons
    exact hcons

theorem mapPages_spec (hok : SysOk s) (h : Prepared K s U) (halign : va % pageSize = 0) :
    AddsPages K (mapPages kind perms n va pa) s U va (fun j => pa + j * pageSize) kind perms n
      (tablesFor va n) := by
  rcases n with _ | n
  · exact SpecE.mono (AddsPages.nil hok h) (fun _ hh => hh) (Nat.zero_le _) (fun _ _ _ hQ => hQ)
      fun _ _ _ hE => hE
  have hpas : (fun j => pa + (j + 1) * pageSize) = fun j => pa + pageSize + j * pageSize := by
    funext j
    rw [Nat.succ_mul]
    omega
  have hcons := AddsPages.cons (fun j => pa + j * pageSize) 1 1 hok h halign
    (fun _ => le_rfl) (fun _ => le_rfl) fun s₁ U₁ hok₁ h₁ hnear₁ =>
      hpas ▸ mapPages_tail kind perms n (va + pageSize) (pa + pageSize) s₁ U₁
        (aligned_next halign) hok₁ h₁ hnear₁
  rw [Nat.zero_mul, Nat.add_zero] at hcons
  rw [tablesFor_succ]
  exact hcons

theorem mapPoolFrom_tail (pages : List ℕ) :
    ∀ (va : ℕ) (s : Sys) (U : ℕ → Option Translation), va % pageSize = 0 → SysOk s →
      Prepared K s U → Near s va →
      AddsPages K (mapPoolFrom pages va) s U va (fun j => pages.getD j 0) .normalWb Perms.userRw
        pages.length (tailCost va pages.length) := by
  induction pages with
  | nil =>
    intro va s U _ hok h _
    rw [show tailCost va [].length = 0 by unfold tailCost starts; simp]
    exact .nil hok h
  | cons p rest ih =>
    intro va s U halign hok h hnear
    rw [mapPoolFrom]
    split
    · exact SpecE.throw hok nofun nofun ⟨U, .of_grows h (.refl h.tree) _⟩
    rw [List.length_cons, tailCost_succ halign]
    exact AddsPages.cons (fun j => (p :: rest).getD j 0) _ _ hok h halign
      hnear.cost.1 hnear.cost.2 fun s₁ U₁ hok₁ h₁ hnear₁ =>
        ih _ s₁ U₁ (aligned_next halign) hok₁ h₁ hnear₁

theorem mapPoolFrom_spec (pages : List ℕ) (hok : SysOk s) (h : Prepared K s U)
    (halign : va % pageSize = 0) :
    AddsPages K (mapPoolFrom pages va) s U va (fun j => pages.getD j 0) .normalWb Perms.userRw
      pages.length (tablesFor va pages.length) := by
  rcases pages with _ | ⟨p, rest⟩
  · exact SpecE.mono (AddsPages.nil hok h) (fun _ hh => hh) (Nat.zero_le _) (fun _ _ _ hQ => hQ)
      fun _ _ _ hE => hE
  rw [mapPoolFrom]
  split
  · exact SpecE.throw hok nofun nofun ⟨U, .of_grows h (.refl h.tree) _⟩
  rw [List.length_cons, tablesFor_succ]
  exact AddsPages.cons (fun j => (p :: rest).getD j 0) 1 1 hok h halign
    (fun _ => le_rfl) (fun _ => le_rfl) fun s₁ U₁ hok₁ h₁ hnear₁ =>
      mapPoolFrom_tail rest _ s₁ U₁ (aligned_next halign) hok₁ h₁ hnear₁

end HarborKernel.AddressSpaces
