import HarborKernel.BlankKernel

/-!
Frames and ASIDs over the life of one address space. Every frame a call takes is
free again after the space is destroyed, except the one that is taken when the
ledger is full: it is in no ledger and goes back to nobody.
-/

namespace HarborKernel.AddressSpaces

open Function ByteWords ErrorState Paging PageWalk Transition

/-- The free frames and the free ASIDs are the same. -/
def SameFree (w w' : World) : Prop :=
  (∀ f, f ∈ w'.frames.freeStack ↔ f ∈ w.frames.freeStack) ∧ w'.asids.free = w.asids.free

/-- Before each of the calls the ledger has room for what the call may take. -/
def Fits (id : ℕ) : Spaces → List Call → Prop
  | _, [] => True
  | s, c :: rest =>
    (∀ t, s.tenants id = some t →
      t.space.owned.length + c.cost (t.sys s.world) ≤ maxAsFrames) ∧
    ∀ s', s.step (.call id c) = some s' → Fits id s' rest

def Accounted (w : World) (id : ℕ) (s : Spaces) : Prop :=
  ∃ t, s.tenants id = some t ∧
    (∀ f, f ∈ s.world.frames.freeStack ∨ f ∈ t.space.owned ↔ f ∈ w.frames.freeStack) ∧
    w.asids.alloc = some (t.space.asid, s.world.asids)

section Conservation

variable {w₀ w : World} {s s' : Spaces} {id : ℕ}

theorem SpacesOk.accounted_call (hboot : Boot w₀) (h : SpacesOk w₀ s) (ha : Accounted w id s)
    {c : Call} (hfit : ∀ t, s.tenants id = some t →
      t.space.owned.length + c.cost (t.sys s.world) ≤ maxAsFrames)
    (hstep : s.step (.call id c) = some s') : Accounted w id s' := by
  obtain ⟨t, ht, hfree, hasid⟩ := ha
  have hq := h.quiet
  have hspec : CallSpec (kernelView w₀) s.quiet t c c.run :=
    Call.run_spec (hq.kernelOk hboot).1 (hq.lives id t ht) hq.pool
  -- What the call took is in the ledger, however it ended.
  have hkeep : ∀ {ok : Bool} {s₁ : Sys}, Outcome (kernelView w₀) s.quiet t c ok s₁ →
      Kept (t.sys s.quiet) s₁ →
      Accounted w id ⟨s₁.world, update s.tenants id (some (t.after c s₁.space ok))⟩ := by
    intro ok s₁ hout hkept
    have hconf := hout.confined
    refine ⟨_, update_self .., fun f => ?_, ?_⟩
    · rw [← hfree f]
      constructor
      · rintro (hf | hf)
        · exact .inl (hconf.free hf)
        · exact (hconf.taken f hf).symm
      · rintro (hf | hf)
        · exact hkept f hf
        · exact .inr (hconf.owned hf)
    · rw [hasid]
      exact congrArg some (Prod.ext hconf.asid.symm hconf.asids.symm)
  rw [Spaces.step, ht, Option.map_some] at hstep
  cases hstep
  rcases hrun : c.run (t.sys s.quiet) with ⟨a, s₁⟩ | ⟨e, s₁⟩
  · rw [EStateM.run, hrun]
    obtain ⟨hout, hkept⟩ := hspec.ok hrun
    exact hkeep hout hkept
  rw [EStateM.run, hrun]
  obtain ⟨hout, hkept, hfull⟩ := hspec.error hrun
  exact hkeep hout (hkept fun he => absurd (hfit t ht) (Nat.not_le.2 (hfull he)))

theorem accounted_calls (hboot : Boot w₀) (calls : List Call) :
    ∀ {s s' : Spaces}, SpacesOk w₀ s → Accounted w id s → Fits id s calls →
      run Spaces.step s (calls.map (.call id)) = some s' →
      SpacesOk w₀ s' ∧ Accounted w id s' := by
  induction calls with
  | nil =>
    intro s s' h ha _ hrun
    cases hrun
    exact ⟨h, ha⟩
  | cons c rest ih =>
    intro s s' h ha hfit hrun
    rw [List.map_cons, run] at hrun
    obtain ⟨s₁, hstep, hrest⟩ := Option.bind_eq_some_iff.1 hrun
    exact ih (h.step hboot hstep).1 (h.accounted_call hboot ha hfit.1 hstep) (hfit.2 s₁ hstep)
      hrest

theorem SpacesOk.accounted_create (h : SpacesOk w₀ s) {textPages stackPages : ℕ}
    {packetPool : Bool} (hnone : s.tenants id = none)
    (hstep : s.step (.create id textPages stackPages packetPool) = some s') :
    s'.tenants id = none ∧ SameFree s.world s'.world ∨ Accounted s.world id s' := by
  have hq := h.quiet
  rw [Spaces.step, hnone] at hstep
  cases hstep
  have hspec : wp (create textPages stackPages packetPool) s.quiet _ _ := create_spec hq.pool
  rcases hrun : create textPages stackPages packetPool s.quiet with ⟨space, w'⟩ | ⟨e, w'⟩
  · obtain ⟨hnew, -⟩ := hspec.ok hrun
    obtain ⟨f, rest, hfree, hrest, howned, -⟩ := hnew.root
    obtain ⟨pool, hasid, hpool⟩ := hnew.asids
    rw [EStateM.run, hrun]
    refine .inr ⟨⟨space, [], []⟩, update_self .., fun g => ?_, ?_⟩
    · change g ∈ w'.frames.freeStack ∨ g ∈ space.owned ↔ g ∈ s.quiet.frames.freeStack
      rw [hrest, howned, hfree, List.mem_singleton, List.mem_cons, or_comm]
    change s.quiet.asids.alloc = some (space.asid, w'.asids)
    rw [hpool]
    exact hasid
  · obtain ⟨⟨asids, rfl, hasids⟩, -⟩ := hspec.error hrun
    rw [EStateM.run, hrun]
    exact .inl ⟨hnone, fun _ => Iff.rfl, hasids⟩

theorem SpacesOk.accounted_destroy (h : SpacesOk w₀ s) (ha : Accounted w id s)
    (hstep : s.step (.destroy id) = some s') : SameFree w s'.world := by
  obtain ⟨t, ht, hfree, hasid⟩ := ha
  rw [Spaces.step, ht, Option.map_some] at hstep
  cases hstep
  have hledger := (h.lives id t ht).ledger
  obtain ⟨-, hstack, -⟩ := h.pool.freeAll t.space.owned hledger.nodup
    fun f hf => ⟨hledger.lt f hf, hledger.taken f hf⟩
  refine ⟨fun f => ?_, AsidPool.release_alloc hasid⟩
  rw [← hfree f, or_comm]
  exact hstack f

/-- A space is created, called as long as its ledger has room, and destroyed: the free frames
and the free ASIDs are those there were before. So they are when the creation fails. -/
theorem frames_conserved (hboot : Boot w₀) (hs : Runs w₀ s) (hnone : s.tenants id = none)
    {textPages stackPages : ℕ} {packetPool : Bool} {s₁ : Spaces}
    (hcreate : s.step (.create id textPages stackPages packetPool) = some s₁) :
    (s₁.tenants id = none → SameFree s.world s₁.world) ∧
    ∀ calls s₂ s₃, Fits id s₁ calls → run Spaces.step s₁ (calls.map (.call id)) = some s₂ →
      s₂.step (.destroy id) = some s₃ → SameFree s.world s₃.world := by
  have hok := runs_ok hboot hs
  have hok₁ := (hok.step hboot hcreate).1
  rcases hok.accounted_create hnone hcreate with ⟨hnone₁, hsame⟩ | hacc
  · refine ⟨fun _ => hsame, fun calls s₂ s₃ _ hrun hdestroy => ?_⟩
    -- Without a space there is nothing to call and nothing to destroy.
    rcases calls with _ | ⟨c, rest⟩
    · cases hrun
      rw [Spaces.step, hnone₁] at hdestroy
      cases hdestroy
    · rw [List.map_cons, run, Spaces.step, hnone₁] at hrun
      cases hrun
  refine ⟨fun hn => ?_, fun calls s₂ s₃ hfit hrun hdestroy => ?_⟩
  · obtain ⟨t, ht, -⟩ := hacc
    rw [hn] at ht
    cases ht
  · obtain ⟨hok₂, hacc₂⟩ := accounted_calls hboot calls hok₁ hacc hfit hrun
    exact hok₂.accounted_destroy hacc₂ hdestroy

theorem step_call_tenant {c : Call} (h : s.step (.call id c) = some s') :
    ∃ t, s'.tenants id = some t := by
  obtain ⟨t, -, rfl⟩ := Option.map_eq_some_iff.1 h
  rcases hrun : c.run (t.sys s.quiet) with ⟨a, s₁⟩ | ⟨e, s₁⟩
  · rw [EStateM.run, hrun]
    exact ⟨_, update_self ..⟩
  · rw [EStateM.run, hrun]
    exact ⟨_, update_self ..⟩

/-- A space with a page of text and one of stack, prepared and destroyed. -/
theorem frames_conserved_blank : ∃ s₁ s₂ s₃, Boot blankWorld ∧
    Spaces.step ⟨blankWorld, fun _ => none⟩ (.create 0 1 1 false) = some s₁ ∧
    Fits 0 s₁ [.prepareForEl0] ∧
    run Spaces.step s₁ ([Call.prepareForEl0].map (.call 0)) = some s₂ ∧
    s₂.step (.destroy 0) = some s₃ ∧ SameFree blankWorld s₃.world := by
  obtain ⟨s₁, t, hcreate, hjoined⟩ := blank_first 0 1 1 (by decide) (by decide) (by decide)
  have hs := hjoined.runs
  have ht := hjoined.tenant
  have hok := runs_ok blankWorld_boot hs
  have hbase : t.space.window.base = 0x50000000 := by
    have hbase := (hok.lives 0 t ht).base
    rwa [hok.board] at hbase
  have hfit : Fits 0 s₁ [.prepareForEl0] := by
    refine ⟨fun t' ht' => ?_, fun _ _ => trivial⟩
    cases ht.symm.trans ht'
    rw [hjoined.owned, show Call.cost (t.sys s₁.world) .prepareForEl0 =
      Call.cost (t.sys s₁.quiet) .prepareForEl0 from rfl, blank_cost hs, hjoined.pages, hbase]
    decide
  obtain ⟨s₂, hcall⟩ : ∃ s₂, s₁.step (.call 0 .prepareForEl0) = some s₂ :=
    ⟨_, by rw [Spaces.step, ht, Option.map_some]⟩
  have hrun : run Spaces.step s₁ ([Call.prepareForEl0].map (.call 0)) = some s₂ := by
    rw [List.map_cons, List.map_nil, run, hcall, Option.bind_some, run]
  obtain ⟨t', ht'⟩ := step_call_tenant hcall
  obtain ⟨s₃, hdestroy⟩ : ∃ s₃, s₂.step (.destroy 0) = some s₃ :=
    ⟨_, by rw [Spaces.step, ht', Option.map_some]⟩
  exact ⟨s₁, s₂, s₃, blankWorld_boot, hcreate, hfit, hrun, hdestroy,
    (frames_conserved blankWorld_boot blank_start rfl hcreate).2 _ s₂ s₃ hfit hrun hdestroy⟩

/-- A space with 300 pages of stack: `prepare_for_el0` fills the ledger and fails, and a frame
that was free before the space was created is not free after it is destroyed. -/
theorem frame_lost : ∃ s₁ s₂ s₃ f,
    Spaces.step ⟨blankWorld, fun _ => none⟩ (.create 0 1 300 false) = some s₁ ∧
    s₁.step (.call 0 .prepareForEl0) = some s₂ ∧ s₂.step (.destroy 0) = some s₃ ∧
    f ∈ blankWorld.frames.freeStack ∧ f ∉ s₃.world.frames.freeStack := by
  obtain ⟨s₁, t, hcreate, hjoined⟩ := blank_first 0 1 300 (by decide) (by decide) (by decide)
  have hs := hjoined.runs
  have ht := hjoined.tenant
  have hmany : maxAsFrames < s₁.world.frames.freeStack.length := by
    have hfree : s₁.world.frames.freeStack.length + 1 = maxFrames :=
      hjoined.free.trans blank_freeStack
    unfold maxAsFrames
    unfold maxFrames at hfree
    omega
  have hspec := blank_prepare hs ht hjoined.prepared (by rw [hjoined.pages]; decide) hmany
  rcases hrun : prepareForEl0 (t.sys s₁.quiet) with ⟨a, s'⟩ | ⟨e, s'⟩
  · -- The window does not fit in the ledger.
    obtain ⟨s₂, hstep, -, U, wf, hwin⟩ := hspec.ok hrun
    have hle := hwin.window.le_owned.trans hstep.ok.ledger.room
    rw [hjoined.pages] at hle
    exact absurd hle (by decide)
  obtain ⟨hfail, hfull⟩ := hspec.error hrun
  obtain ⟨-, -, f, hf, hlost, hlost'⟩ := hfail.full hfull
  have hcall : s₁.step (.call 0 .prepareForEl0) =
      some (s₁.called 0 t .prepareForEl0 (.error e s')) := by
    rw [Spaces.step, ht, Option.map_some]
    change some (s₁.called 0 t .prepareForEl0 (prepareForEl0 (t.sys s₁.quiet))) = _
    rw [hrun]
  rcases (runs_ok blankWorld_boot blank_start).accounted_create rfl hcreate with
    ⟨hnone, -⟩ | ⟨t', -, hblank, -⟩
  · rw [hnone] at ht
    cases ht
  have hledger := hfail.ok.ledger
  obtain ⟨-, hstack, -⟩ := hfail.ok.pool.freeAll s'.owned hledger.nodup
    fun g hg => ⟨hledger.lt g hg, hledger.taken g hg⟩
  refine ⟨s₁, _, ⟨destroy s'.space _, _⟩, f, hcreate, hcall, rfl, (hblank f).1 (.inl hf), ?_⟩
  intro hback
  exact ((hstack f).1 hback).elim hlost' hlost

end Conservation

end HarborKernel.AddressSpaces
