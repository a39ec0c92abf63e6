import HarborKernel.Paging

/-!
The walk of the translation tables. The tables of a machine are one function from
the physical address of a table and an index to a descriptor. A walk enters a
table at some level; `tableFrom` is the table it consults at a level below. Where
no table is reached in two ways, writing one descriptor changes the translation
of the addresses under it and of no other.
-/

namespace HarborKernel.PageWalk

open Paging

abbrev Tables := ℕ → ℕ → UInt64

abbrev Translation := ℕ × MemKind × Perms

def leafAt (entry : UInt64) (level : Level) (va : ℕ) : Option Translation :=
  (decodeLeaf entry level).map fun d => (d.1 + va % level.entrySize, d.2)

def resolve (e : Tables) (va : ℕ) : Level → UInt64 → Level × UInt64
  | .L3, entry => (.L3, entry)
  | .L2, entry =>
    if isTable entry .L2 then (.L3, e (descriptorAddress entry) (Level.L3.index va))
    else (.L2, entry)
  | .L1, entry =>
    if isTable entry .L1 then
      let entry' := e (descriptorAddress entry) (Level.L2.index va)
      if isTable entry' .L2 then (.L3, e (descriptorAddress entry') (Level.L3.index va))
      else (.L2, entry')
    else (.L1, entry)

def lastFrom (e : Tables) (level : Level) (table va : ℕ) : Level × UInt64 :=
  resolve e va level (e table (level.index va))

def vaLimit : ℕ := l1BlockSize * entriesPerTable

def translate (e : Tables) (root va : ℕ) : Option Translation :=
  if vaLimit ≤ va then none
  else leafAt (lastFrom e .L1 root va).2 (lastFrom e .L1 root va).1 va

def down (e : Tables) (level : Level) (va table : ℕ) : Option ℕ :=
  if isTable (e table (level.index va)) level then
    some (descriptorAddress (e table (level.index va)))
  else none

def tableFrom (e : Tables) (top : Level) (table : ℕ) (level : Level) (va : ℕ) : Option ℕ :=
  match top, level with
  | .L1, .L1 | .L2, .L2 | .L3, .L3 => some table
  | .L1, .L2 => down e .L1 va table
  | .L1, .L3 => (down e .L1 va table).bind (down e .L2 va)
  | .L2, .L3 => down e .L2 va table
  | .L2, .L1 | .L3, .L1 | .L3, .L2 => none

def rank : Level → ℕ
  | .L1 => 1
  | .L2 => 2
  | .L3 => 3

variable {l next : Level} {e : Tables} {table t i : ℕ} {entry : UInt64}

theorem rank_inj {l' : Level} (h : rank l = rank l') : l = l' := by
  cases l <;> cases l' <;> first | rfl | cases h

theorem rank_next (h : l.next = some next) : rank next = rank l + 1 := by
  cases l <;> cases h <;> rfl

theorem rank_bounds (l : Level) : 1 ≤ rank l ∧ rank l ≤ 3 := by cases l <;> decide

def SameTable (top level : Level) (va va' : ℕ) : Prop :=
  ∀ k, rank top ≤ rank k → rank k < rank level → k.index va = k.index va'

def SameSlot (top level : Level) (va va' : ℕ) : Prop :=
  SameTable top level va va' ∧ level.index va = level.index va'

def Separate (e : Tables) (top : Level) (table : ℕ) : Prop :=
  ∀ l l' va va' t, tableFrom e top table l va = some t → tableFrom e top table l' va' = some t →
    l = l' ∧ SameTable top l va va'

def store (e : Tables) (table index : ℕ) (entry : UInt64) : Tables := fun t i =>
  if t = table ∧ i = index then entry else e t i

def fillTable (e : Tables) (table : ℕ) (entries : ℕ → UInt64) : Tables := fun t i =>
  if t = table then entries i else e t i

@[simp] theorem store_self (e : Tables) (table index : ℕ) (entry : UInt64) :
    store e table index entry table index = entry := if_pos ⟨rfl, rfl⟩

theorem store_of_ne {index : ℕ} (h : ¬(t = table ∧ i = index)) :
    store e table index entry t i = e t i := if_neg h

@[simp] theorem fillTable_self (e : Tables) (table i : ℕ) (entries : ℕ → UInt64) :
    fillTable e table entries table i = entries i := if_pos rfl

theorem fillTable_of_ne {entries : ℕ → UInt64} (h : t ≠ table) :
    fillTable e table entries t i = e t i := if_neg h

variable {e e' : Tables} {top level : Level} {table va va' : ℕ}

theorem SameTable.refl (top level : Level) (va : ℕ) : SameTable top level va va :=
  fun _ _ _ => rfl

/-- The slot of a level is the table of the next. -/
theorem sameTable_next (hnext : level.next = some next) (htop : rank top ≤ rank level) :
    SameTable top next va va' ↔ SameSlot top level va va' := by
  constructor
  · intro h
    refine ⟨fun k hk hl => h k hk (Nat.lt_trans hl ?_), h level htop ?_⟩
    all_goals cases level <;> cases hnext <;> decide
  · rintro ⟨htable, hindex⟩ k hk hl
    rcases Nat.lt_or_ge (rank k) (rank level) with hlt | hge
    · exact htable k hk hlt
    have hkl : k = level := by
      cases level <;> cases hnext <;> cases k <;> first | rfl | (simp [rank] at hl hge)
    rw [hkl, hindex]

/-- A walk consults no level above the one it enters. -/
theorem rank_le_of_tableFrom (h : tableFrom e top table level va = some t) :
    rank top ≤ rank level := by
  cases top <;> cases level <;> first | decide | cases h

/-- What holds where the walk starts and carries over to the next level holds below. -/
theorem levels_induction {P : Level → Prop} (htop : P top)
    (hstep : ∀ l next, l.next = some next → rank top ≤ rank l → P l → P next)
    (hle : rank top ≤ rank level) : P level := by
  cases top <;> cases level <;> first
    | exact htop
    | exact absurd hle (by decide)
    | exact hstep _ _ rfl (by decide) htop
    | exact hstep .L2 .L3 rfl (by decide) (hstep .L1 .L2 rfl (by decide) htop)

theorem tableFrom_above (h : ¬rank top ≤ rank level) : tableFrom e top table level va = none := by
  cases ht : tableFrom e top table level va
  · rfl
  · exact absurd (rank_le_of_tableFrom ht) h

theorem tableFrom_top : tableFrom e top table top va = some table := by cases top <;> rfl

theorem tableFrom_next (hnext : level.next = some next) (htop : rank top ≤ rank level) :
    tableFrom e top table next va = (tableFrom e top table level va).bind (down e level va) := by
  cases top <;> cases level <;> cases hnext <;> first | rfl | (simp [rank] at htop)

theorem resolve_table (hnext : level.next = some next) (h : isTable entry level = true) :
    resolve e va level entry = lastFrom e next (descriptorAddress entry) va := by
  cases level <;> cases hnext <;> simp [resolve, lastFrom, h]

theorem resolve_of_not_table (h : isTable entry level = false) :
    resolve e va level entry = (level, entry) := by
  cases level <;> simp [resolve, h]

theorem leafAt_of_invalid (h : isInvalid entry = true) : leafAt entry level va = none := by
  have hleaf : isLeaf entry level = false := by
    cases hl : isLeaf entry level
    · rfl
    · rw [isInvalid_of_isLeaf hl] at h
      cases h
  rw [leafAt, decodeLeaf, hleaf]
  rfl

theorem down_eq_some_iff : down e level va table = some t ↔
    isTable (e table (level.index va)) level = true ∧
      descriptorAddress (e table (level.index va)) = t := by
  unfold down
  split <;> simp_all

theorem lastFrom_of_tableFrom (h : tableFrom e top table level va = some t) :
    lastFrom e top table va = lastFrom e level t va := by
  have hstep : ∀ {l next : Level} {t t' : ℕ}, l.next = some next → down e l va t = some t' →
      lastFrom e l t va = lastFrom e next t' va := by
    intro l next t t' hnext hdown
    obtain ⟨htab, rfl⟩ := down_eq_some_iff.1 hdown
    exact resolve_table hnext htab
  cases top <;> cases level <;> first | (cases h; done) | (cases h; rfl) | skip
  · exact hstep rfl h
  · obtain ⟨mid, hmid, hlow⟩ := Option.bind_eq_some_iff.1 h
    exact (hstep rfl hmid).trans (hstep rfl hlow)
  · exact hstep rfl h

section

variable (h : ∀ l t, tableFrom e top table l va = some t → e' t (l.index va) = e t (l.index va))
include h

/-- A walk reads only the descriptors it consults. -/
theorem tableFrom_congr
    (level : Level) : tableFrom e' top table level va = tableFrom e top table level va := by
  by_cases hle : rank top ≤ rank level
  · refine levels_induction (P := fun l => tableFrom e' top table l va = tableFrom e top table l va)
      (tableFrom_top.trans tableFrom_top.symm) (fun l next hnext htop heq => ?_) hle
    rw [tableFrom_next hnext htop, tableFrom_next hnext htop, heq]
    rcases ht : tableFrom e top table l va with _ | t
    · rfl
    · simp only [Option.bind_some, down, h l t ht]
  · rw [tableFrom_above hle, tableFrom_above hle]

theorem lastFrom_congr :
    lastFrom e' top table va = lastFrom e top table va := by
  have hlast : ∀ l t, tableFrom e top table l va = some t →
      isTable (e t (l.index va)) l = false →
      lastFrom e' top table va = lastFrom e top table va := by
    intro l t ht hleaf
    rw [lastFrom_of_tableFrom ht, lastFrom_of_tableFrom ((tableFrom_congr h l).trans ht),
      lastFrom, lastFrom, h l t ht, resolve_of_not_table hleaf, resolve_of_not_table hleaf]
  have hdesc : ∀ l next t, l.next = some next → tableFrom e top table l va = some t →
      (∀ t', tableFrom e top table next va = some t' →
        lastFrom e' top table va = lastFrom e top table va) →
      lastFrom e' top table va = lastFrom e top table va := by
    intro l next t hnext ht hcont
    cases htab : isTable (e t (l.index va)) l
    · exact hlast l t ht htab
    refine hcont (descriptorAddress (e t (l.index va))) ?_
    rw [tableFrom_next hnext (rank_le_of_tableFrom ht), ht, Option.bind_some, down_eq_some_iff]
    exact ⟨htab, rfl⟩
  have h3 : ∀ t, tableFrom e top table .L3 va = some t →
      lastFrom e' top table va = lastFrom e top table va := fun t ht => hlast .L3 t ht rfl
  cases top with
  | L3 => exact h3 table rfl
  | L2 => exact hdesc .L2 .L3 table rfl rfl h3
  | L1 => exact hdesc .L1 .L2 table rfl rfl fun t ht => hdesc .L2 .L3 t rfl ht h3

end

theorem translate_congr {root : ℕ}
    (h : ∀ l t, tableFrom e .L1 root l va = some t → e' t (l.index va) = e t (l.index va)) :
    translate e' root va = translate e root va := by
  rw [translate, translate, lastFrom_congr h]

theorem tableFrom_of_sameTable (h : SameTable top level va va') :
    tableFrom e top table level va = tableFrom e top table level va' := by
  by_cases hle : rank top ≤ rank level
  · refine levels_induction (P := fun l => SameTable top l va va' →
      tableFrom e top table l va = tableFrom e top table l va')
      (fun _ => tableFrom_top.trans tableFrom_top.symm) (fun l next hnext htop ih hsame => ?_) hle h
    obtain ⟨habove, hindex⟩ := (sameTable_next hnext htop).1 hsame
    have hdown : down e l va = down e l va' := by
      funext t
      rw [down, down, hindex]
    rw [tableFrom_next hnext htop, tableFrom_next hnext htop, ih habove, hdown]
  · rw [tableFrom_above hle, tableFrom_above hle]

/-- A walk that goes below a level goes through a table descriptor there. -/
theorem tableFrom_below (h : tableFrom e top table l va = some t) (htop : rank top ≤ rank level)
    (hlt : rank level < rank l) :
    ∃ next mid, level.next = some next ∧ tableFrom e top table level va = some mid ∧
      isTable (e mid (level.index va)) level = true ∧
      tableFrom e next (descriptorAddress (e mid (level.index va))) l va = some t := by
  cases level with
  | L3 => cases l <;> exact absurd hlt (by decide)
  | L2 =>
    cases l <;> first | exact absurd hlt (by decide) | skip
    rw [tableFrom_next (show Level.L2.next = some .L3 from rfl) htop] at h
    obtain ⟨mid, hmid, hdown⟩ := Option.bind_eq_some_iff.1 h
    obtain ⟨htab, haddr⟩ := down_eq_some_iff.1 hdown
    exact ⟨.L3, mid, rfl, hmid, htab, congrArg some haddr⟩
  | L1 =>
    cases top <;> first | exact absurd htop (by decide) | skip
    cases l <;> first | exact absurd hlt (by decide) | skip
    · obtain ⟨htab, haddr⟩ := down_eq_some_iff.1 h
      exact ⟨.L2, table, rfl, rfl, htab, congrArg some haddr⟩
    · obtain ⟨mid, hmid, hdown⟩ := Option.bind_eq_some_iff.1 h
      obtain ⟨htab, rfl⟩ := down_eq_some_iff.1 hmid
      exact ⟨.L2, table, rfl, rfl, htab, hdown⟩

def Reaches (e : Tables) (top : Level) (table t : ℕ) : Prop :=
  ∃ level va, tableFrom e top table level va = some t

/-- All walks through a descriptor that is no table pointer end there. -/
theorem lastFrom_of_leaf (ht : tableFrom e top table level va = some t)
    (hslot : SameSlot top level va va') (hleaf : isTable (e t (level.index va)) level = false) :
    lastFrom e top table va' = (level, e t (level.index va)) := by
  rw [tableFrom_of_sameTable hslot.1] at ht
  rw [lastFrom_of_tableFrom ht, lastFrom, ← hslot.2, resolve_of_not_table hleaf]

/-- Below the limit, the addresses under one descriptor are an aligned block. -/
theorem sameSlot_iff (hva : va < vaLimit) (hva' : va' < vaLimit) :
    SameSlot .L1 level va va' ↔ va' / level.entrySize = va / level.entrySize := by
  have hlimit : vaLimit = 2 ^ 39 := rfl
  have h1 : ∀ v, Level.L1.index v = v / 2 ^ 30 % 512 := fun _ => rfl
  have h2 : ∀ v, Level.L2.index v = v / 2 ^ 21 % 512 := fun _ => rfl
  have h3 : ∀ v, Level.L3.index v = v / 2 ^ 12 % 512 := fun _ => rfl
  rw [hlimit] at hva hva'
  constructor
  · rintro ⟨habove, hindex⟩
    cases level with
    | L1 =>
      change va' / 2 ^ 30 = va / 2 ^ 30
      rw [h1, h1] at hindex
      omega
    | L2 =>
      have hup := habove .L1 (by decide) (by decide)
      change va' / 2 ^ 21 = va / 2 ^ 21
      rw [h1, h1] at hup
      rw [h2, h2] at hindex
      omega
    | L3 =>
      have hup := habove .L1 (by decide) (by decide)
      have hmid := habove .L2 (by decide) (by decide)
      change va' / 2 ^ 12 = va / 2 ^ 12
      rw [h1, h1] at hup
      rw [h2, h2] at hmid
      rw [h3, h3] at hindex
      omega
  · intro h
    refine ⟨fun k _ hk => ?_, ?_⟩
    · cases level <;> cases k <;> first | exact absurd hk (by decide) | skip
      · change va' / 2 ^ 21 = va / 2 ^ 21 at h
        rw [h1, h1]
        omega
      · change va' / 2 ^ 12 = va / 2 ^ 12 at h
        rw [h1, h1]
        omega
      · change va' / 2 ^ 12 = va / 2 ^ 12 at h
        rw [h2, h2]
        omega
    · rw [Level.index, Level.index, h]

section Store

variable {t : ℕ} {entry : UInt64}

section

variable (hsep : Separate e top table) (ht : tableFrom e top table level va = some t)
include hsep ht

theorem store_unused
    (hslot : ¬SameSlot top level va va') (l : Level) {t' : ℕ}
    (ht' : tableFrom e top table l va' = some t') :
    store e t (level.index va) entry t' (l.index va') = e t' (l.index va') := by
  refine store_of_ne ?_
  rintro ⟨rfl, hindex⟩
  obtain ⟨rfl, hsame⟩ := hsep _ _ _ _ _ ht ht'
  exact hslot ⟨hsame, hindex.symm⟩

theorem lastFrom_store_of_ne (hslot : ¬SameSlot top level va va') :
    lastFrom (store e t (level.index va) entry) top table va' = lastFrom e top table va' :=
  lastFrom_congr fun l _ ht' => store_unused hsep ht hslot l ht'

theorem tableFrom_store_of_ne (hslot : ¬SameSlot top level va va')
    (l : Level) :
    tableFrom (store e t (level.index va) entry) top table l va' = tableFrom e top table l va' :=
  tableFrom_congr (fun l _ ht' => store_unused hsep ht hslot l ht') l

theorem tableFrom_store_above {l : Level} (hl : rank l ≤ rank level) :
    tableFrom (store e t (level.index va) entry) top table l va' =
      tableFrom e top table l va' := by
  by_cases hle : rank top ≤ rank l
  · refine levels_induction (P := fun l => rank l ≤ rank level →
      tableFrom (store e t (level.index va) entry) top table l va' = tableFrom e top table l va')
      (fun _ => tableFrom_top.trans tableFrom_top.symm) (fun l next hnext htop ih hnl => ?_) hle hl
    have hlt : rank l < rank level := by
      cases l <;> cases hnext <;> exact hnl
    rw [tableFrom_next hnext htop, tableFrom_next hnext htop, ih (Nat.le_of_lt hlt)]
    rcases ht' : tableFrom e top table l va' with _ | t'
    · rfl
    -- No table of an upper level is the one written.
    have hne : store e t (level.index va) entry t' (l.index va') = e t' (l.index va') := by
      refine store_of_ne ?_
      rintro ⟨rfl, -⟩
      obtain ⟨rfl, -⟩ := hsep _ _ _ _ _ ht ht'
      exact Nat.lt_irrefl _ hlt
    simp only [Option.bind_some, down, hne]
  · rw [tableFrom_above hle, tableFrom_above hle]

/-- The walks that use the descriptor go on from the new one. -/
theorem lastFrom_store_self (hslot : SameSlot top level va va') :
    lastFrom (store e t (level.index va) entry) top table va' =
      resolve (store e t (level.index va) entry) va' level entry := by
  have ht' : tableFrom (store e t (level.index va) entry) top table level va' = some t := by
    rw [tableFrom_store_above hsep ht le_rfl, ← tableFrom_of_sameTable hslot.1, ht]
  rw [lastFrom_of_tableFrom ht', lastFrom, ← hslot.2, store_self]

theorem tableFrom_store_leaf (hleaf : isTable entry level = false)
    {l : Level} {x : ℕ}
    (hx : tableFrom (store e t (level.index va) entry) top table l va' = some x) :
    tableFrom e top table l va' = some x := by
  by_cases hslot : SameSlot top level va va'
  · rcases Nat.lt_or_ge (rank level) (rank l) with hlt | hle
    · obtain ⟨next, mid, hnext, hmid, htab, -⟩ :=
        tableFrom_below hx (rank_le_of_tableFrom ht) hlt
      rw [tableFrom_store_above hsep ht le_rfl, ← tableFrom_of_sameTable hslot.1, ht] at hmid
      cases hmid
      rw [← hslot.2, store_self, hleaf] at htab
      cases htab
    · rwa [tableFrom_store_above hsep ht hle] at hx
  · rwa [tableFrom_store_of_ne hsep ht hslot] at hx

end

theorem Separate.of_tableFrom (hsep : Separate e top table)
    (h : ∀ l va x, tableFrom e' top table l va = some x → tableFrom e top table l va = some x) :
    Separate e' top table :=
  fun l l' va va' x hx hx' => hsep l l' va va' x (h l va x hx) (h l' va' x hx')

end Store

section Link

variable {t t' : ℕ} {entry : UInt64} {entries : ℕ → UInt64} {next : Level}

/-- A table that no walk consults may be filled. -/
theorem tableFrom_fillTable (hfresh : ¬Reaches e top table t') (l : Level) :
    tableFrom (fillTable e t' entries) top table l va = tableFrom e top table l va :=
  tableFrom_congr (fun l x hx => fillTable_of_ne fun (h : x = t') =>
    hfresh ⟨l, va, by rw [hx, h]⟩) l

theorem lastFrom_fillTable (hfresh : ¬Reaches e top table t') :
    lastFrom (fillTable e t' entries) top table va = lastFrom e top table va :=
  lastFrom_congr fun l x hx => fillTable_of_ne fun (h : x = t') => hfresh ⟨l, va, by rw [hx, h]⟩

theorem Separate.fillTable (hsep : Separate e top table) (entries : ℕ → UInt64)
    (hfresh : ¬Reaches e top table t') : Separate (fillTable e t' entries) top table :=
  hsep.of_tableFrom fun l va x hx => by rwa [tableFrom_fillTable hfresh] at hx

def link (e : Tables) (t index : ℕ) (entry : UInt64) (t' : ℕ) (entries : ℕ → UInt64) : Tables :=
  store (PageWalk.fillTable e t' entries) t index entry

structure Links (e : Tables) (top : Level) (table : ℕ) (level next : Level) (va t : ℕ)
    (entry : UInt64) (t' : ℕ) (entries : ℕ → UInt64) : Prop where
  separate : Separate e top table
  found : tableFrom e top table level va = some t
  fresh : ¬Reaches e top table t'
  below : level.next = some next
  isTable : isTable entry level = true
  address : descriptorAddress entry = t'
  leaves : ∀ i, Paging.isTable (entries i) next = false

namespace Links

section

variable (h : Links e top table level next va t entry t' entries)
include h

theorem link_child (i : ℕ) :
    link e t (level.index va) entry t' entries t' i = entries i := by
  have hne : t' ≠ t := fun heq => h.fresh ⟨level, va, heq ▸ h.found⟩
  rw [link, store_of_ne fun hh => hne hh.1, fillTable_self]

theorem found_fill :
    tableFrom (PageWalk.fillTable e t' entries) top table level va = some t := by
  rw [tableFrom_fillTable h.fresh, h.found]

theorem lastFrom_of_ne
    (hslot : ¬SameSlot top level va va') :
    lastFrom (link e t (level.index va) entry t' entries) top table va' =
      lastFrom e top table va' := by
  rw [link, lastFrom_store_of_ne (h.separate.fillTable entries h.fresh) h.found_fill hslot,
    lastFrom_fillTable h.fresh]

theorem lastFrom_self
    (hslot : SameSlot top level va va') :
    lastFrom (link e t (level.index va) entry t' entries) top table va' =
      (next, entries (next.index va')) := by
  have hchild := h.link_child (next.index va')
  unfold link at hchild ⊢
  rw [lastFrom_store_self (h.separate.fillTable entries h.fresh) h.found_fill hslot,
    resolve_table h.below h.isTable, h.address, lastFrom, hchild,
    resolve_of_not_table (h.leaves _)]

theorem tableFrom_link {l : Level}
    {x : ℕ} (hx : tableFrom (link e t (level.index va) entry t' entries) top table l va' = some x) :
    tableFrom e top table l va' = some x ∨ x = t' ∧ l = next ∧ SameSlot top level va va' := by
  have hsep := h.separate.fillTable entries h.fresh
  by_cases hslot : SameSlot top level va va'
  · rcases Nat.lt_or_ge (rank level) (rank l) with hlt | hle
    · have hchild := h.link_child
      obtain ⟨next', mid, hnext, hmid, -, hrest⟩ :=
        tableFrom_below hx (rank_le_of_tableFrom h.found) hlt
      unfold link at hmid hrest hchild
      rw [tableFrom_store_above hsep h.found_fill le_rfl, ← tableFrom_of_sameTable hslot.1,
        h.found_fill] at hmid
      cases hmid
      rw [h.below] at hnext
      cases hnext
      rw [← hslot.2, store_self, h.address] at hrest
      -- The new table has no table below it.
      have hlast : ¬rank next < rank l := by
        intro hlt
        obtain ⟨-, mid, -, hmid, htab, -⟩ := tableFrom_below hrest le_rfl hlt
        rw [tableFrom_top] at hmid
        cases hmid
        rw [hchild, h.leaves] at htab
        cases htab
      have hl : l = next := by
        have hle := rank_le_of_tableFrom hrest
        cases l <;> cases next <;> first | rfl | (simp [rank] at hle hlast)
      subst hl
      rw [tableFrom_top] at hrest
      cases hrest
      exact .inr ⟨rfl, rfl, hslot⟩
    · left
      rwa [link, tableFrom_store_above hsep h.found_fill hle, tableFrom_fillTable h.fresh] at hx
  · left
    rwa [link, tableFrom_store_of_ne hsep h.found_fill hslot, tableFrom_fillTable h.fresh] at hx

theorem separate_link :
    Separate (link e t (level.index va) entry t' entries) top table := by
  intro l l' va₁ va₂ x hx hx'
  rcases h.tableFrom_link hx with hold | ⟨rfl, rfl, hslot⟩
  · rcases h.tableFrom_link hx' with hold' | ⟨rfl, rfl, -⟩
    · exact h.separate l l' va₁ va₂ x hold hold'
    · exact absurd ⟨l, va₁, hold⟩ h.fresh
  rcases h.tableFrom_link hx' with hold' | ⟨-, rfl, hslot'⟩
  · exact absurd ⟨l', va₂, hold'⟩ h.fresh
  have htop := rank_le_of_tableFrom h.found
  have hsame := (sameTable_next h.below htop).2 hslot
  have hsame' := (sameTable_next h.below htop).2 hslot'
  exact ⟨rfl, fun k hk hl => (hsame k hk hl).symm.trans (hsame' k hk hl)⟩

end

end Links

end Link

end HarborKernel.PageWalk
