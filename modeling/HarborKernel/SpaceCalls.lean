import HarborKernel.WindowPages

/-!
The calls on an address space and what they keep. A call stores only into frames
its own space holds afterwards, and takes those from the pool. A space that has
been prepared maps what the kernel mapped, its window, and pages of the regions
that were asked for; all pages of the regions that were granted are there.
-/

namespace HarborKernel.AddressSpaces

open ByteWords ErrorState Paging PageWalk

inductive Region
  | device (va pa len : ℕ) (perms : Perms)
  | normal (va pa len : ℕ) (perms : Perms)
  | packet (pages : Vector ℕ packetPoolPages)

namespace Region

def va (board : Board) : Region → ℕ
  | device va _ _ _ => va
  | normal va _ _ _ => va
  | packet _ => board.userPacketPoolVa

def page : Region → ℕ → ℕ
  | device _ pa _ _, j => pa + j * pageSize
  | normal _ pa _ _, j => pa + j * pageSize
  | packet pages, j => pages.toList.getD j 0

def count : Region → ℕ
  | device _ _ len _ => len / pageSize
  | normal _ _ len _ => len / pageSize
  | packet _ => packetPoolPages

def kind : Region → MemKind
  | device .. => .device
  | normal .. => .normalWb
  | packet _ => .normalWb

def perms : Region → Perms
  | device _ _ _ perms => perms
  | normal _ _ _ perms => perms
  | packet _ => Perms.userRw

def map : Region → As Unit
  | device va pa len perms => mapDeviceRegion va pa len perms
  | normal va pa len perms => mapNormalRegion va pa len perms
  | packet pages => mapPacketPool pages

end Region

inductive Call
  | prepareForEl0
  | map (region : Region)
  | pokeUser (offset : ℕ) (bytes : List UInt8)

namespace Call

def run : Call → As Unit
  | .prepareForEl0 => AddressSpaces.prepareForEl0
  | .map region => region.map
  | .pokeUser offset bytes => AddressSpaces.pokeUser offset bytes

def regions : Call → List Region
  | .map region => [region]
  | _ => []

def cost (s : Sys) : Call → ℕ
  | .prepareForEl0 =>
    prepareCost s.tables (s.world.kernelRoot.getD 0) s.space.window
  | .map region => tablesFor (region.va s.world.board) region.count
  | .pokeUser _ _ => 0

end Call

/-- A space with the regions that were asked for and those that were granted. -/
structure Tenant where
  space : AddressSpace
  asked : List Region
  granted : List Region

def Tenant.after (t : Tenant) (c : Call) (space : AddressSpace) (ok : Bool) : Tenant :=
  ⟨space, c.regions ++ t.asked, if ok then c.regions ++ t.granted else t.granted⟩

structure Confined (s s' : Sys) : Prop where
  board : s'.world.board = s.world.board
  poolBase : s'.world.poolBase = s.world.poolBase
  capacity : s'.world.frames.capacity = s.world.frames.capacity
  kernelRoot : s'.world.kernelRoot = s.world.kernelRoot
  asids : s'.world.asids = s.world.asids
  root : s'.root = s.root
  asid : s'.space.asid = s.space.asid
  window : s'.space.window = s.space.window
  pool : PoolOk s'.world
  ledger : LedgerOk s'.world s'.owned
  owned : s.owned ⊆ s'.owned
  taken : ∀ f ∈ s'.owned, f ∈ s.owned ∨ f ∈ s.free
  free : s'.free ⊆ s.free
  mem : ∀ a, (∀ f ∈ s'.owned, pageOf a ≠ s.phys f) → s'.world.mem a = s.world.mem a
  stores : ∀ st ∈ s'.world.stores, st ∈ s.world.stores ∨
    (∃ f ∈ s'.owned, pageOf st.1 = s.phys f) ∧ st.1 % frameSize + st.2 ≤ frameSize

def Kept (s s' : Sys) : Prop := ∀ f ∈ s.free, f ∈ s'.free ∨ f ∈ s'.owned

def Sys.flags (s : Sys) (mapped prepared : Bool) : Sys :=
  { s with space := { s.space with packetPoolMapped := mapped, prepared := prepared } }

section Frame

variable {K : ℕ → Option Translation} {s s₁ s₂ : Sys} {U U' : ℕ → Option Translation}
  {wf : ℕ → ℕ} {D : ℕ → Prop} {n : ℕ}

theorem Within.confined (h : Within D s s₁) (hD : ∀ t, D t → ∃ f ∈ s.owned, t = s.phys f)
    (mapped prepared : Bool) : Confined s (s₁.flags mapped prepared) := by
  have hpage : ∀ t, D t ∨ NewPage s s₁ t → ∃ f ∈ s₁.owned, t = s.phys f := by
    rintro t (ht | ⟨f, hf, -, rfl⟩)
    · obtain ⟨f, hf, rfl⟩ := hD t ht
      exact ⟨f, h.owned.subset hf, rfl⟩
    · exact ⟨f, hf, rfl⟩
  refine ⟨h.same.board, h.same.poolBase, h.same.capacity, h.same.kernelRoot, h.same.asids,
    h.same.root, h.same.asid, h.same.window, h.ok.pool, h.ok.ledger, h.owned.subset, h.taken,
    h.free.subset, fun a ha => h.mem a fun hh => ?_, fun st hst => ?_⟩
  · obtain ⟨f, hf, heq⟩ := hpage _ hh
    exact ha f hf heq
  · exact (h.stores st hst).imp_right fun hh => ⟨hpage _ hh.1, hh.2⟩

theorem Confined.refl (h : SysOk s) : Confined s s :=
  (Within.refl (D := fun _ => False) h).confined nofun _ _

theorem Confined.phys (h : Confined s s₁) (f : ℕ) : s₁.phys f = s.phys f := by
  unfold Sys.phys World.phys
  rw [h.poolBase]

theorem Prepared.flags (h : Prepared K s U) (mapped prepared : Bool) :
    Prepared K (s.flags mapped prepared) U :=
  ⟨⟨h.tree.separate, h.tree.owned, h.tree.entries⟩, h.view, h.apart⟩

theorem WindowOk.flags (h : WindowOk s U wf n) (mapped prepared : Bool) :
    WindowOk (s.flags mapped prepared) U wf n := ⟨h.owned, h.inj, h.data, h.text, h.mapped⟩

end Frame

structure Mapped (K : ℕ → Option Translation) (w : World) (t : Tenant)
    (U : ℕ → Option Translation) (wf : ℕ → ℕ) : Prop where
  prepared : Prepared K ⟨t.space, w⟩ U
  window : WindowOk ⟨t.space, w⟩ U wf t.space.window.pages
  only : ∀ p d, U p = some d → (∃ i < t.space.window.pages, p = vpage (t.space.window.pageVa i)) ∨
    ∃ r ∈ t.asked, ∃ j < r.count, p = vpage (r.va w.board + j * pageSize) ∧
      d = (r.page j, r.kind, r.perms)
  granted : ∀ r ∈ t.granted, Complete U (r.va w.board) r.page r.kind r.perms r.count

structure Lives (K : ℕ → Option Translation) (w : World) (t : Tenant) : Prop where
  ledger : LedgerOk w t.space.owned
  root : ∃ f ∈ t.space.owned, t.space.rootPhys = w.phys f
  base : t.space.window.base = w.board.userVaBase
  frame : t.space.window.frame = frameSize
  text : t.space.window.textPages ≤ t.space.window.pages
  fresh : t.space.prepared = false → t.granted = []
  mapped : t.space.prepared = true → ∃ U wf, Mapped K w t U wf

/-- `K` is what the kernel maps, with tables outside the pool. -/
def KernelOk (K : ℕ → Option Translation) (w : World) : Prop :=
  ∀ kroot, w.kernelRoot = some kroot → K = PageWalk.translate (tablesOf w.mem) kroot ∧
    ∀ l va t, tableFrom (tablesOf w.mem) .L1 kroot l va = some t → Outside w t

section Calls

variable {K : ℕ → Option Translation} {w : World} {t : Tenant} {c : Call} {r : Region}
  {U U' : ℕ → Option Translation} {wf : ℕ → ℕ} {s₁ : Sys}

abbrev Tenant.sys (t : Tenant) (w : World) : Sys := ⟨t.space, w⟩

structure Outcome (K : ℕ → Option Translation) (w : World) (t : Tenant) (c : Call) (ok : Bool)
    (s' : Sys) : Prop where
  confined : Confined (t.sys w) s'
  lives : Lives K s'.world (t.after c s'.space ok)

def CallSpec (K : ℕ → Option Translation) (w : World) (t : Tenant) (c : Call) (x : As Unit) :
    Prop :=
  wp x (t.sys w) (fun _ s' => Outcome K w t c true s' ∧ Kept (t.sys w) s')
    (fun e s' => Outcome K w t c false s' ∧ (e ≠ .ledgerFull → Kept (t.sys w) s') ∧
      (e = .ledgerFull → maxAsFrames < t.space.owned.length + c.cost (t.sys w)))

theorem Lives.sysOk (h : Lives K w t) (hpool : PoolOk w) : SysOk (t.sys w) := ⟨hpool, h.ledger⟩

theorem Lives.asked (h : Lives K w t) (regions : List Region) :
    Lives K w { t with asked := regions ++ t.asked } := by
  refine ⟨h.ledger, h.root, h.base, h.frame, h.text, h.fresh, fun hp => ?_⟩
  obtain ⟨U, wf, hm⟩ := h.mapped hp
  refine ⟨U, wf, hm.prepared, hm.window, fun p d hp => (hm.only p d hp).imp_right ?_, hm.granted⟩
  rintro ⟨r, hr, hj⟩
  exact ⟨r, List.mem_append_right _ hr, hj⟩

theorem Lives.refused (h : Lives K w t) (hpool : PoolOk w) {e : AsError} (he : e ≠ .ledgerFull) :
    CallSpec K w t c (throw e) :=
  ⟨⟨.refl (h.sysOk hpool), h.asked c.regions⟩, fun _ _ hf => .inl hf, fun hfull => absurd hfull he⟩

variable {ok : Bool} {D : ℕ → Prop} {kroot offset : ℕ} {bytes : List UInt8}

theorem Lives.outcome (h : Lives K w t) (hconf : Confined (t.sys w) s₁)
    (hfresh : s₁.space.prepared = false → (t.after c s₁.space ok).granted = [])
    (hmapped : s₁.space.prepared = true →
      ∃ U wf, Mapped K s₁.world (t.after c s₁.space ok) U wf) : Outcome K w t c ok s₁ := by
  obtain ⟨f, hf, hroot⟩ := h.root
  refine ⟨hconf, hconf.ledger, ⟨f, hconf.owned hf, ?_⟩, ?_, ?_, ?_, hfresh, hmapped⟩
  · exact hconf.root.trans (hroot.trans (hconf.phys f).symm)
  · exact (congrArg UserWindow.base hconf.window).trans
      (h.base.trans (congrArg Board.userVaBase hconf.board.symm))
  · exact (congrArg UserWindow.frame hconf.window).trans h.frame
  · change s₁.space.window.textPages ≤ s₁.space.window.pages
    rw [hconf.window]
    exact h.text

theorem Mapped.added (h : Mapped K w t U wf) (hstep : Within D (t.sys w) s₁)
    (hadded : Added K U (t.sys w) (r.va w.board) r.page r.kind r.perms r.count U' s₁)
    (htext : s₁.space.textPhys = t.space.textPhys)
    (hok : ok = true → Complete U' (r.va w.board) r.page r.kind r.perms r.count)
    (mapped prepared : Bool) :
    Mapped K s₁.world (t.after (.map r) (s₁.flags mapped prepared).space ok) U' wf := by
  have hboard : s₁.world.board = w.board := hstep.same.board
  have hwindow : s₁.space.window = t.space.window := hstep.same.window
  refine ⟨hadded.prepared.flags mapped prepared, ?_, fun p d hp => ?_, fun r' hr' => ?_⟩
  · change WindowOk (s₁.flags mapped prepared) U' wf s₁.space.window.pages
    rw [hwindow]
    exact (h.window.added hstep.owned.subset hstep.same.phys hwindow hadded.newTable htext
      hadded.adds.mono).flags mapped prepared
  · change (∃ i < s₁.space.window.pages, p = vpage (s₁.space.window.pageVa i)) ∨ _
    rw [hwindow, hboard]
    rcases hadded.adds.only p d hp with hp | ⟨j, hj, hpd⟩
    · rcases h.only p d hp with hp | ⟨r', hr', hp⟩
      · exact .inl hp
      · exact .inr ⟨r', List.mem_cons_of_mem _ hr', hp⟩
    · exact .inr ⟨r, List.mem_cons_self, j, hj, hpd⟩
  · rw [hboard]
    have hold : r' ∈ t.granted → Complete U' (r'.va w.board) r'.page r'.kind r'.perms r'.count :=
      fun hr j hj => hadded.adds.mono _ _ (h.granted r' hr j hj)
    cases ok with
    | false => exact hold hr'
    | true =>
      rcases List.mem_cons.1 hr' with rfl | hr'
      · exact hok rfl
      · exact hold hr'

theorem Lives.addsPages (h : Lives K w t) (hprep : t.space.prepared = true)
    {x : As Unit} {P : AsError → Prop} (htext : Tame Sys.textPhys P x) (flag : Bool → Bool)
    (hx : ∀ U, Prepared K (t.sys w) U → AddsPages K x (t.sys w) U (r.va w.board) r.page r.kind
      r.perms r.count (tablesFor (r.va w.board) r.count)) :
    CallSpec K w t (.map r)
      (x >>= fun _ => modify fun s =>
        s.flags (flag s.space.packetPoolMapped) s.space.prepared) := by
  obtain ⟨U, wf, hm⟩ := h.mapped hprep
  have htable : ∀ p, (t.sys w).IsTable p → ∃ f ∈ (t.sys w).owned, p = (t.sys w).phys f :=
    hm.prepared.tree.owned
  have hlives : ∀ {ok : Bool} {s₁ : Sys} (m p : Bool), Within (t.sys w).IsTable (t.sys w) s₁ →
      p = true → (∃ U', Mapped K s₁.world (t.after (.map r) (s₁.flags m p).space ok) U' wf) →
      Outcome K w t (.map r) ok (s₁.flags m p) := by
    rintro ok s₁ m p hstep hp ⟨U', hU'⟩
    exact h.outcome (hstep.confined htable m p) (fun hh => absurd (hp.symm.trans hh) nofun)
      fun _ => ⟨U', wf, hU'⟩
  refine wp_bind.2 (wp.mono (wp.and (hx U hm.prepared) (htext _)) (fun _ s₁ hs₁ => ?_)
    fun e s₁ he => ?_)
  · obtain ⟨⟨hstep, U', hadded, hcomplete⟩, htext₁⟩ := hs₁
    rw [wp_modify]
    refine ⟨hlives _ _ hstep.toWithin (hstep.same.prepared.trans hprep)
      ⟨U', hm.added hstep.toWithin hadded htext₁ (fun _ => hcomplete) _ _⟩, hstep.kept⟩
  obtain ⟨⟨hfail, U', hadded⟩, htext₁, -⟩ := he
  refine ⟨?_, hfail.kept, fun hfull => ?_⟩
  · exact hlives s₁.space.packetPoolMapped s₁.space.prepared hfail.toWithin
      (hfail.same.prepared.trans hprep) ⟨U', hm.added hfail.toWithin hadded htext₁
        (fun hh => absurd hh Bool.false_ne_true) _ _⟩
  · obtain ⟨hroom, hlt, -⟩ := hfail.full hfull
    exact Nat.lt_of_le_of_lt hroom hlt

theorem userVaBase_aligned (board : Board) : board.userVaBase % pageSize = 0 := by
  cases board <;> rfl

theorem userPacketPoolVa_aligned (board : Board) : board.userPacketPoolVa % pageSize = 0 := by
  cases board <;> rfl

theorem badRegion_aligned {va pa len : ℕ} (h : badRegion va pa len = false) :
    va % pageSize = 0 := by
  unfold badRegion at h
  by_contra hne
  exact of_decide_eq_false h (.inr (.inl hne))

theorem Region.map_spec (h : Lives K w t) (hpool : PoolOk w) : CallSpec K w t (.map r) r.map := by
  have hok := h.sysOk hpool
  cases r with
  | device va pa len perms =>
    unfold CallSpec Region.map mapDeviceRegion
    rw [wp_bind, wp_get]
    cases hprep : t.space.prepared
    case false => exact h.refused hpool nofun
    case true =>
      cases hbad : badRegion va pa len
      case true => exact h.refused hpool nofun
      case false =>
        exact wp_bind.1 (h.addsPages hprep (r := .device va pa len perms)
          (tame_mapPages spared_textPhys frameErrors_all _ _ _ _ _) id
          fun U hU => mapPages_spec hok hU (badRegion_aligned hbad))
  | normal va pa len perms =>
    unfold CallSpec Region.map mapNormalRegion
    rw [wp_bind, wp_get]
    cases hprep : t.space.prepared
    case false => exact h.refused hpool nofun
    case true =>
      cases hbad : badRegion va pa len
      case true => exact h.refused hpool nofun
      case false =>
        exact wp_bind.1 (h.addsPages hprep (r := .normal va pa len perms)
          (tame_mapPages spared_textPhys frameErrors_all _ _ _ _ _) id
          fun U hU => mapPages_spec hok hU (badRegion_aligned hbad))
  | packet pages =>
    unfold CallSpec Region.map mapPacketPool
    rw [wp_bind, wp_get]
    dsimp only
    cases t.space.packetPoolRequested
    case false => exact h.refused hpool nofun
    case true =>
      cases hprep : t.space.prepared
      case false => exact h.refused hpool nofun
      case true =>
        cases t.space.packetPoolMapped
        case true => exact h.refused hpool nofun
        case false =>
          refine h.addsPages hprep (r := .packet pages)
            (tame_mapPoolFrom spared_textPhys frameErrors_all trivial _ _) (fun _ => true)
            fun U hU => ?_
          have hpool := mapPoolFrom_spec pages.toList hok hU (userPacketPoolVa_aligned w.board)
          rw [Vector.length_toList] at hpool
          exact hpool

theorem KernelOk.agrees (h : KernelOk K w) (hk : w.kernelRoot = some kroot) (space : AddressSpace) :
    Agrees (tablesOf w.mem) ⟨space, w⟩ .L1 kroot := fun l va t ht =>
  ⟨(h kroot hk).2 l va t ht, fun _ => rfl⟩

/-- `prepare_for_el0` on a space that is not prepared: `B` is what may be wrong with the tables
of the kernel. -/
theorem Lives.prepare {B : Prop} (h : Lives K w t) (hk : KernelOk K w) (hpool : PoolOk w)
    (hprep : t.space.prepared = false) (hkroot : w.kernelRoot = some kroot)
    (hclone : wp (cloneL1 kroot t.space.rootPhys) (t.sys w) (fun _ _ => True)
      fun e _ => e = .badTable → B) :
    wp prepareForEl0 (t.sys w)
      (fun _ s' => ∃ s₁, Step (· = t.space.rootPhys) (Call.cost (t.sys w) .prepareForEl0) (t.sys w)
        s₁ ∧ s' = s₁.flags s₁.space.packetPoolMapped true ∧
        ∃ U wf, Windowed K s₁ U wf t.space.window.pages)
      (fun e s' => Fail (· = t.space.rootPhys) (Call.cost (t.sys w) .prepareForEl0) (t.sys w) e
        s' ∧ (e = .badTable → B ∨ Blocked K w t.space.window t.space.window.pages)) := by
  obtain ⟨f, hf, hroot⟩ := h.root
  have hcost : Call.cost (t.sys w) .prepareForEl0 =
      prepareCost (tablesOf w.mem) kroot t.space.window := by
    unfold Call.cost
    rw [hkroot]
    rfl
  rw [hcost, (hk kroot hkroot).1]
  exact prepareForEl0_spec (h.sysOk hpool) hprep hkroot (hk.agrees hkroot t.space) hf hroot
    (h.base ▸ userVaBase_aligned w.board) hclone

theorem prepareForEl0_callSpec (hk : KernelOk K w) (h : Lives K w t) (hpool : PoolOk w) :
    CallSpec K w t .prepareForEl0 prepareForEl0 := by
  have hok := h.sysOk hpool
  cases hprep : t.space.prepared
  case true =>
    unfold CallSpec prepareForEl0
    rw [wp_bind, wp_get]
    simp only [hprep, if_true]
    exact h.refused hpool nofun
  case false =>
    cases hkroot : w.kernelRoot with
    | none =>
      unfold CallSpec prepareForEl0
      rw [wp_bind, wp_get]
      simp only [hprep, hkroot, Bool.false_eq_true, if_false]
      exact h.refused hpool nofun
    | some kroot =>
      obtain ⟨f, hf, hroot⟩ := h.root
      have hD : ∀ p, p = t.space.rootPhys → ∃ f ∈ (t.sys w).owned, p = (t.sys w).phys f :=
        fun p hp => ⟨f, hf, hp.trans hroot⟩
      have hspec := h.prepare (B := True) hk hpool hprep hkroot (wp.mono (clones_root _ (t.sys w)
        kroot _ f hok (hk.agrees hkroot t.space) hf hroot) (fun _ _ _ => trivial)
        fun _ _ _ _ => trivial)
      have hgranted : ∀ ok space, (t.after .prepareForEl0 space ok).granted = [] := by
        rintro (_ | _) _
        · exact h.fresh hprep
        · exact h.fresh hprep
      refine wp.mono hspec (fun _ s' hs' => ?_) fun e s' he => ?_
      · obtain ⟨s₁, hstep, rfl, U, wf, hwin⟩ := hs'
        refine ⟨h.outcome (hstep.confined hD s₁.space.packetPoolMapped true)
          (fun _ => hgranted _ _) fun _ => ⟨U, wf, ?_⟩, hstep.kept⟩
        have hwindow : s₁.space.window = t.space.window := hstep.same.window
        refine ⟨hwin.prepared.flags s₁.space.packetPoolMapped true, ?_, fun p d hp => .inl ?_,
          fun r hr => ?_⟩
        · change WindowOk (s₁.flags s₁.space.packetPoolMapped true) U wf s₁.space.window.pages
          rw [hwindow]
          exact hwin.window.flags _ true
        · change ∃ i < s₁.space.window.pages, p = vpage (s₁.space.window.pageVa i)
          obtain ⟨i, hi, hpi⟩ := hwin.only p d hp
          exact ⟨i, hwindow ▸ hi, hpi⟩
        · rw [hgranted] at hr
          cases hr
      · obtain ⟨hfail, -⟩ := he
        refine ⟨h.outcome (hfail.confined hD s'.space.packetPoolMapped s'.space.prepared)
          (fun _ => hgranted _ _) fun hp => ?_, hfail.kept, fun hfull => ?_⟩
        · exact absurd (hfail.same.prepared.symm.trans hp) (by rw [hprep]; nofun)
        · obtain ⟨hroom, hlt, -⟩ := hfail.full hfull
          exact Nat.lt_of_le_of_lt hroom hlt

/-- `poke_user` stores into the text frames. -/
theorem pokeFrom_spec (n : ℕ) :
    ∀ (written : ℕ) (s : Sys), SysOk s → s.space.window.frame = frameSize →
      offset + bytes.length ≤ s.space.window.textPages * frameSize →
      (∀ i < s.space.window.textPages,
        D (s.space.textPhys i) ∧ s.space.textPhys i % frameSize = 0) →
      SpecE D 0 (pokeFrom offset bytes n written) s (fun _ s' => s'.space = s.space)
        (fun _ s' => s'.space = s.space) := by
  induction n with
  | zero => exact fun _ s hok _ _ _ => SpecE.pure hok rfl
  | succ n ih =>
    intro written s hok hframe hlen hD
    rw [pokeFrom]
    split
    · exact SpecE.pure hok rfl
    rename_i hmore
    have hpos : 0 < frameSize := by decide
    have hindex : (offset + written) / frameSize < s.space.window.textPages :=
      (Nat.div_lt_iff_lt_mul hpos).2 (by omega)
    obtain ⟨hDi, hmod⟩ := hD _ hindex
    unfold SpecE
    rw [wp_bind, wp_get]
    dsimp only
    rw [hframe]
    split
    · exact SpecE.throw hok nofun nofun rfl
    set base := s.space.textPhys ((offset + written) / frameSize) with hbase
    have hin : (offset + written) % frameSize < frameSize := Nat.mod_lt _ hpos
    change SpecE D (0 + 0) _ _ _ _
    refine SpecE.bind (Q := fun _ s' => s'.space = s.space) ⟨?_, rfl⟩
      fun _ s₁ hst₁ hs₁ => ?_
    · refine step_write hok hDi _ _ _ (pageOf_add hmod hin) ?_ fun b hb => blit_outside ?_
      · unfold frameSize at *
        omega
      by_contra hinside
      obtain ⟨j, rfl⟩ := Nat.exists_eq_add_of_le
        (by omega : base + (offset + written) % frameSize ≤ b)
      rw [Nat.add_assoc] at hb
      exact hb (pageOf_add hmod (by omega))
    · refine SpecE.mono (ih _ s₁ hst₁.ok (by rw [hs₁, hframe]) (by rwa [hs₁]) (by rwa [hs₁]))
        (fun _ hh => .inl hh) le_rfl (fun _ _ _ hQ => hQ.trans hs₁) fun _ _ _ hE => hE.trans hs₁

theorem pokeUser_callSpec (h : Lives K w t) (hpool : PoolOk w) :
    CallSpec K w t (.pokeUser offset bytes) (pokeUser offset bytes) := by
  have hok := h.sysOk hpool
  unfold CallSpec pokeUser
  rw [wp_bind, wp_get]
  dsimp only
  cases hprep : t.space.prepared
  case false => exact h.refused hpool nofun
  case true =>
    cases hbound : t.space.window.boundTextWrite offset bytes.length
    case false => exact h.refused hpool nofun
    case true =>
      obtain ⟨U, wf, hm⟩ := h.mapped hprep
      have hlen : offset + bytes.length ≤ t.space.window.textPages * frameSize := by
        have := (of_decide_eq_true hbound).2
        rwa [UserWindow.textBytes, h.frame] at this
      have hspec := pokeFrom_spec (D := fun p => ∃ i < t.space.window.pages, p = w.phys (wf i))
        bytes.length 0 (t.sys w) hok h.frame hlen fun i hi => by
          have htext := hm.window.text i (Nat.lt_of_lt_of_le hi h.text) (decide_eq_true hi)
          exact ⟨⟨i, Nat.lt_of_lt_of_le hi h.text, htext⟩, htext ▸ phys_mod hpool.base _⟩
      have hD : ∀ p, (∃ i < t.space.window.pages, p = w.phys (wf i)) →
          ∃ f ∈ (t.sys w).owned, p = (t.sys w).phys f := by
        rintro p ⟨i, hi, rfl⟩
        exact ⟨wf i, hm.window.owned i hi, rfl⟩
      -- No text frame is a table, so the tables are as before.
      have hmapped : ∀ {ok : Bool} {s₁ : Sys},
          Within (fun p => ∃ i < t.space.window.pages, p = w.phys (wf i)) (t.sys w) s₁ →
          s₁.space = t.space →
          Mapped K s₁.world (t.after (.pokeUser offset bytes) s₁.space ok) U wf := by
        intro ok s₁ hstep hspace
        have hgrow : Grows (t.sys w) s₁ := .of_tables hm.prepared.tree hstep.same.root
          hstep.owned.subset hstep.same.phys fun p hp i => by
            refine hstep.tables ?_ i
            rintro (⟨i, hi, rfl⟩ | ⟨f, hf, hnew, -⟩)
            · exact hm.window.data i hi hp
            · exact hnew ((congrArg (f ∈ AddressSpace.owned ·) hspace).mp hf)
        refine ⟨hm.prepared.grows hgrow, ?_, fun p d hp => ?_, fun r hr => ?_⟩
        · change WindowOk s₁ U wf s₁.space.window.pages
          rw [hspace]
          exact hm.window.added hstep.owned.subset hstep.same.phys hstep.same.window
            hgrow.newTable (by rw [hspace]) fun _ _ hp => hp
        · change (∃ i < s₁.space.window.pages, p = vpage (s₁.space.window.pageVa i)) ∨ _
          rw [hspace, hstep.same.board]
          exact hm.only p d hp
        · rw [hstep.same.board]
          cases ok
          · exact hm.granted r hr
          · exact hm.granted r hr
      have houtcome : ∀ {ok : Bool} {s₁ : Sys},
          Within (fun p => ∃ i < t.space.window.pages, p = w.phys (wf i)) (t.sys w) s₁ →
          s₁.space = t.space → Outcome K w t (.pokeUser offset bytes) ok s₁ := by
        intro ok s₁ hstep hspace
        exact h.outcome (hstep.confined hD s₁.space.packetPoolMapped s₁.space.prepared)
          (fun hh => absurd (hstep.same.prepared.symm.trans hh) (by rw [hprep]; nofun))
          fun _ => ⟨U, wf, hmapped hstep hspace⟩
      refine wp.mono hspec (fun _ s₁ hs₁ => ⟨houtcome hs₁.1.toWithin hs₁.2, hs₁.1.kept⟩)
        fun e s₁ he => ⟨houtcome he.1.toWithin he.2, he.1.kept, fun hfull => ?_⟩
      obtain ⟨hroom, hlt, -⟩ := he.1.full hfull
      exact Nat.lt_of_le_of_lt hroom hlt

/-- Every call keeps the space alive. -/
theorem Call.run_spec (hk : KernelOk K w) (h : Lives K w t) (hpool : PoolOk w) :
    CallSpec K w t c c.run := by
  cases c with
  | prepareForEl0 => exact prepareForEl0_callSpec hk h hpool
  | map region => exact Region.map_spec h hpool
  | pokeUser offset bytes => exact pokeUser_callSpec h hpool

end Calls

end HarborKernel.AddressSpaces
