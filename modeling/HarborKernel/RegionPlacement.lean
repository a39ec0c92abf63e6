import HarborKernel.BlankKernel

/-!
Where `map_device_region` and `map_normal_region` put a region. The index into a
table is taken modulo its 512 entries, so an address beyond the 39 bits of a walk
is put at its remainder. Below that limit the region appears where it was asked
for and nothing else changes.
-/

namespace HarborKernel.AddressSpaces

open ByteWords ErrorState Paging PageWalk Transition

variable {K : ℕ → Option Translation} {s s' : Sys} {U U' : ℕ → Option Translation}
  {va pa len n : ℕ} {kind : MemKind} {perms : Perms}

theorem Prepared.placed (h : Prepared K s U) (h' : Prepared K s' U')
    (hadds : Adds U U' va (fun j => pa + j * pageSize) kind perms n)
    (hcomplete : Complete U' va (fun j => pa + j * pageSize) kind perms n)
    (halign : va % pageSize = 0) (hlimit : va + n * pageSize ≤ vaLimit) :
    (∀ o < n * pageSize, s'.translate (va + o) = some (pa + o, kind, perms)) ∧
      ∀ v, v < va ∨ va + n * pageSize ≤ v → s'.translate v = s.translate v := by
  have hvpage : ∀ j, va + j * pageSize < vaLimit →
      vpage (va + j * pageSize) = va / pageSize + j := by
    intro j hj
    rw [vpage, Nat.mod_eq_of_lt hj, Nat.add_mul_div_right _ _ (by decide)]
  refine ⟨fun o ho => ?_, fun v hv => ?_⟩
  · have hj : o / pageSize < n := (Nat.div_lt_iff_lt_mul (by decide)).2 ho
    have hpage : (va + o) / pageSize = vpage (va + o / pageSize * pageSize) := by
      rw [hvpage _ (by have := Nat.div_mul_le_self o pageSize; omega)]
      unfold pageSize at *
      omega
    rw [h'.view _ (by omega), hpage, hcomplete _ hj]
    have hoff : (va + o) % pageSize = o % pageSize := by
      unfold pageSize at *
      omega
    have hdiv := Nat.div_add_mod o pageSize
    rw [Nat.mul_comm] at hdiv
    dsimp only
    rw [hoff, Nat.add_assoc, hdiv]
  · by_cases hlt : v < vaLimit
    · have hsame : U' (v / pageSize) = U (v / pageSize) := by
        cases hU : U (v / pageSize) with
        | some d => exact hadds.mono _ _ hU
        | none =>
          cases hU' : U' (v / pageSize) with
          | none => rfl
          | some d =>
            rcases hadds.only _ d hU' with hold | ⟨j, hj, hpage, -⟩
            · rw [hU] at hold
              cases hold
            rw [hvpage j (by unfold pageSize at *; omega)] at hpage
            unfold pageSize at *
            omega
      rw [h'.view v hlt, h.view v hlt, hsame]
    · rw [Sys.translate, Sys.translate, PageWalk.translate, PageWalk.translate,
        if_pos (Nat.not_lt.1 hlt), if_pos (Nat.not_lt.1 hlt)]

theorem badRegion_false (h : badRegion va pa len = false) :
    0 < len ∧ va % pageSize = 0 ∧ len / pageSize * pageSize = len := by
  unfold badRegion at h
  have hnot := of_decide_eq_false h
  simp only [not_or, not_not] at hnot
  exact ⟨Nat.pos_of_ne_zero hnot.1, hnot.2.1,
    Nat.div_mul_cancel (Nat.dvd_of_mod_eq_zero hnot.2.2.2.1)⟩

/-- The region is where it was asked for, and nothing else has changed. -/
def InPlace (s s' : Sys) (va pa len : ℕ) (kind : MemKind) (perms : Perms) : Prop :=
  (∀ o < len, s'.translate (va + o) = some (pa + o, kind, perms)) ∧
    ∀ v, v < va ∨ va + len ≤ v → s'.translate v = s.translate v

/-- An address beyond the limit is not translated, so what is in place ends below it. -/
theorem InPlace.below (h : InPlace s s' va pa len kind perms) (hlen : 0 < len) :
    va + len ≤ vaLimit := by
  by_contra hbeyond
  have hlast := h.1 (len - 1) (by omega)
  rw [Sys.translate, PageWalk.translate, if_pos (by omega)] at hlast
  cases hlast

theorem Prepared.region (hok : SysOk s) (h : Prepared K s U)
    (hbad : badRegion va pa len = false) :
    wp (mapPages kind perms (len / pageSize) va pa) s
      (fun _ s' => InPlace s s' va pa len kind perms ↔ va + len ≤ vaLimit) (fun _ _ => True) := by
  obtain ⟨hpos, halign, hlen⟩ := badRegion_false hbad
  refine wp.mono (mapPages_spec hok h halign) (fun _ s' hs' => ?_) fun _ _ _ => trivial
  refine ⟨fun hplace => hplace.below hpos, fun hlimit => ?_⟩
  obtain ⟨-, U', hadded, hcomplete⟩ := hs'
  have hplaced := h.placed hadded.prepared hadded.adds hcomplete halign (by rwa [hlen])
  rwa [hlen] at hplaced

/-- A region is mapped where it was asked for and nowhere else if and only if it lies below the
limit. -/
theorem region_in_place {w₀ : World} {σ : Spaces} (hboot : Boot w₀) (hs : Runs w₀ σ) {id : ℕ}
    {t : Tenant} (ht : σ.tenants id = some t) (hp : t.space.prepared = true) :
    (mapDeviceRegion va pa len perms (t.sys σ.world) = .ok () s' →
      (InPlace (t.sys σ.world) s' va pa len .device perms ↔ va + len ≤ vaLimit)) ∧
    (mapNormalRegion va pa len perms (t.sys σ.world) = .ok () s' →
      (InPlace (t.sys σ.world) s' va pa len .normalWb perms ↔ va + len ≤ vaLimit)) := by
  have hok := runs_ok hboot hs
  have hl := hok.lives id t ht
  obtain ⟨U, wf, hm⟩ := hl.mapped hp
  have hsys := hl.sysOk hok.pool
  have hdevice : wp (mapDeviceRegion va pa len perms) (t.sys σ.world)
      (fun _ s' => InPlace (t.sys σ.world) s' va pa len .device perms ↔ va + len ≤ vaLimit)
      fun _ _ => True := by
    unfold mapDeviceRegion
    rw [wp_bind, wp_get]
    cases hbad : badRegion va pa len
    · simp only [hp, Bool.not_true, Bool.false_eq_true, if_false]
      exact hm.prepared.region hsys hbad
    · simp only [hp, Bool.not_true, Bool.false_eq_true, if_false, if_true]
      trivial
  have hnormal : wp (mapNormalRegion va pa len perms) (t.sys σ.world)
      (fun _ s' => InPlace (t.sys σ.world) s' va pa len .normalWb perms ↔ va + len ≤ vaLimit)
      fun _ _ => True := by
    unfold mapNormalRegion
    rw [wp_bind, wp_get]
    cases hbad : badRegion va pa len
    · simp only [hp, Bool.not_true, Bool.false_eq_true, if_false, Bool.or_self]
      exact hm.prepared.region hsys hbad
    · simp only [hp, Bool.not_true, Bool.or_true, if_true]
      trivial
  exact ⟨hdevice.ok, hnormal.ok⟩

section Blank

variable {σ : Spaces} {t : Tenant}

theorem blank_map (hs : Runs blankWorld σ) (ht : σ.tenants 0 = some t)
    (hp : t.space.prepared = true) (hasked : t.asked = []) (hpages : t.space.window.pages = 3)
    (howned : t.space.owned.length ≤ 6) (hmany : maxAsFrames < σ.world.frames.freeStack.length)
    (va pa : ℕ) (perms : Perms) (hva : va % pageSize = 0) (hend : va + pageSize < 2 ^ 64)
    (hpage : vpage va < 0x50000) (hpa : pa % pageSize = 0) (hpa' : pa < 2 ^ 48) :
    ∃ s', mapDeviceRegion va pa pageSize perms (t.sys σ.world) = .ok () s' ∧
      Installed (t.sys σ.world) va pa .device perms s' := by
  have hok := runs_ok blankWorld_boot hs
  have hl := hok.lives 0 t ht
  obtain ⟨U, wf, hm⟩ := hl.mapped hp
  have hsys := hl.sysOk hok.pool
  have hbad : badRegion va pa pageSize = false := by
    unfold badRegion
    refine decide_eq_false ?_
    unfold pageSize at *
    omega
  have hbase : t.space.window.base = 0x50000000 := by
    have hbase := hl.base
    rwa [hok.board] at hbase
  have hrefused : ¬Refused (t.sys σ.world) va := by
    intro hrefused
    rcases hrefused.cause hsys with htrans | ⟨f, hf, hphys⟩
    · rw [hm.prepared.view _ (Nat.mod_lt _ (by decide)), kernelView_blank] at htrans
      cases hU : U (vpage va) with
      | none =>
        rw [vpage] at hU
        simp [hU] at htrans
      | some d =>
        rcases hm.only _ d hU with ⟨i, hi, heq⟩ | ⟨r, hr, -⟩
        · unfold vpage UserWindow.pageVa vaLimit l1BlockSize entriesPerTable pageSize at *
          omega
        · rw [hasked] at hr
          cases hr
    · exact absurd (blank_phys hs hf) (Nat.not_lt.2 hphys)
  have hspec := wp.and (mapL3Page_spec hsys hm.prepared.tree (show _ → 1 ≤ 1 from fun _ => le_rfl)
    (show _ → 1 ≤ 1 from fun _ => le_rfl)) (tame_mapL3Page (g := fun _ => ()) (fun _ _ _ => rfl)
      frameErrors_frameError va pa .device perms (t.sys σ.world))
  have hpage : wp (mapL3Page va pa .device perms) (t.sys σ.world)
      (fun _ s' => Installed (t.sys σ.world) va pa .device perms s') fun _ _ => False := by
    refine wp.mono hspec (fun _ _ hs' => hs'.1.2) fun e s' he => ?_
    obtain ⟨⟨hfail, -, hbadTable⟩, -, hkind⟩ := he
    rcases hkind with rfl | rfl | rfl
    · exact hfail.not_outOfFrames hsys hmany rfl
    · obtain ⟨hroom, hlt, -⟩ := hfail.full rfl
      change s'.owned.length < t.space.owned.length + 2 at hlt
      unfold maxAsFrames at hroom
      omega
    · rcases hbadTable rfl with hh | hh
      · exact hrefused hh
      unfold leaf at hh
      rw [if_neg] at hh
      · cases hh
      rintro (hh | hh)
      · exact hh hpa
      · omega
  have hcall : wp (mapDeviceRegion va pa pageSize perms) (t.sys σ.world)
      (fun _ s' => Installed (t.sys σ.world) va pa .device perms s') fun _ _ => False := by
    unfold mapDeviceRegion
    rw [wp_bind, wp_get]
    simp only [hp, hbad, Bool.not_true, Bool.false_eq_true, if_false]
    rw [show pageSize / pageSize = 1 by decide]
    exact wp_bind.2 (wp.mono hpage (fun _ _ hh => hh) fun _ _ hh => hh)
  obtain ⟨_, s', hrun, hinst⟩ := hcall.exists_ok
  exact ⟨s', hrun, hinst⟩

/-- A device page of the blank world, at its own address. -/
theorem region_in_place_blank : ∃ σ t s', Boot blankWorld ∧ Runs blankWorld σ ∧
    σ.tenants 0 = some t ∧ t.space.prepared = true ∧
    mapDeviceRegion 0x9000000 0x9000000 pageSize Perms.userRw (t.sys σ.world) = .ok () s' ∧
    InPlace (t.sys σ.world) s' 0x9000000 0x9000000 pageSize .device Perms.userRw := by
  obtain ⟨σ, t, -, hs, ht, hp, hasked, hpages, howned, hmany, -⟩ := blank_prepared
  obtain ⟨s', hrun, -⟩ := blank_map hs ht hp (hasked 0 t ht) hpages howned hmany 0x9000000 0x9000000
    Perms.userRw (by decide) (by decide) (by decide) (by decide) (by decide)
  exact ⟨σ, t, s', blankWorld_boot, hs, ht, hp, hrun,
    ((region_in_place blankWorld_boot hs ht hp).1 hrun).2 (by decide)⟩

/-- A device page at `2 ^ 39`: the call succeeds, the address faults, and address 0, which was
not mapped, now is. -/
theorem region_out_of_place : ∃ σ t s', Runs blankWorld σ ∧ σ.tenants 0 = some t ∧
    t.space.prepared = true ∧
    mapDeviceRegion (2 ^ 39) 0x9000000 pageSize Perms.userRw (t.sys σ.world) = .ok () s' ∧
    s'.translate (2 ^ 39) = none ∧ (t.sys σ.world).translate 0 = none ∧
    s'.translate 0 = some (0x9000000, .device, Perms.userRw) := by
  obtain ⟨σ, t, -, hs, ht, hp, hasked, hpages, howned, hmany, -⟩ := blank_prepared
  obtain ⟨s', hrun, hinst⟩ := blank_map hs ht hp (hasked 0 t ht) hpages howned hmany (2 ^ 39)
    0x9000000 Perms.userRw (by decide) (by decide) (by decide) (by decide) (by decide)
  refine ⟨σ, t, s', hs, ht, hp, hrun, ?_, hinst.before 0 (by decide) (by decide), ?_⟩
  · rw [Sys.translate, PageWalk.translate, if_pos (by decide)]
  · rw [hinst.after 0 (by decide), if_pos (by decide)]
    rfl

end Blank

end HarborKernel.AddressSpaces
