import HarborKernel.BitWords

/-!
The text grid of the status surface (`kernel-core/src/textgrid.rs`): cells with one dirty bit each,
packed into a word per row. The width is a compile-time constant that the constructor bounds by
the width of the word. Draining hands the dirty cells of a row to a callback in runs; the callback
is given by its answers, each of which may depend on the calls made before.
-/

namespace HarborKernel.TextGrid

open Function BitWords

abbrev Rgb565 := UInt16

def white : Rgb565 := 0xFFFF

structure Cell where
  ch : UInt8
  fg : Rgb565
  bg : Rgb565
deriving DecidableEq

def Cell.blank (bg : Rgb565) : Cell := ⟨32, white, bg⟩

/-- The cells and the dirty words, of which the first `rows` rows and `cols` columns count. -/
structure Grid (cols rows : ℕ) where
  fits : cols ≤ 64
  cells : ℕ → ℕ → Cell
  dirty : ℕ → BitVec 64

/-- A call of the callback: a row, a column and the cells from there on. -/
structure Run where
  row : ℕ
  start : ℕ
  cells : List Cell
deriving DecidableEq

namespace Grid

variable {cols rows : ℕ}

def new (fits : cols ≤ 64) (bg : Rgb565) : Grid cols rows :=
  ⟨fits, fun _ _ => .blank bg, fun _ => 0#64⟩

def setCell (g : Grid cols rows) (row col : ℕ) (next : Cell) : Grid cols rows :=
  if g.cells row col ≠ next then
    { g with
      cells := update g.cells row (update (g.cells row) col next)
      dirty := update g.dirty row (g.dirty row ||| 1#64 <<< col) }
  else g

def lineCell (text : List UInt8) (fg bg : Rgb565) (col : ℕ) : Cell := ⟨text.getD col 32, fg, bg⟩

def setLine (g : Grid cols rows) (row : ℕ) (text : List UInt8) (fg bg : Rgb565) :
    Grid cols rows :=
  if rows ≤ row then g
  else (List.range cols).foldl (fun g col => g.setCell row col (lineCell text fg bg col)) g

def markAllDirty (g : Grid cols rows) : Grid cols rows :=
  let mask := if cols = 64 then BitVec.allOnes 64 else 1#64 <<< cols - 1#64
  { g with dirty := fun row => if row < rows then mask else g.dirty row }

def clear (g : Grid cols rows) (bg : Rgb565) : Grid cols rows :=
  markAllDirty { g with cells := fun row col =>
    if row < rows ∧ col < cols then .blank bg else g.cells row col }

def runLength (cols : ℕ) (bits : BitVec 64) : ℕ → ℕ → ℕ
  | 0, _ => 0
  | left + 1, col =>
    if col < cols ∧ bits &&& 1#64 <<< col ≠ 0#64 then runLength cols bits left (col + 1) + 1
    else 0

def nextRun (g : Grid cols rows) (maxRun row : ℕ) (bits : BitVec 64) : Run :=
  let start := bits.ctz.toNat
  ⟨row, start, (List.range' start (runLength cols bits maxRun start)).map (g.cells row)⟩

/-- What a drain leaves: its result, the grid, and the calls that were made. -/
structure Drained (ε : Type) (cols rows : ℕ) where
  result : Except ε Unit
  grid : Grid cols rows
  calls : List Run

variable {ε : Type} (f : List Run → Run → Except ε Unit)

/-- The loop over the dirty bits of a row; it has no result when the fuel runs out. -/
def drainRow (maxRun row : ℕ) :
    ℕ → BitVec 64 → Grid cols rows → List Run → Option (Drained ε cols rows)
  | 0, _, _, _ => none
  | fuel + 1, bits, g, calls =>
    if bits = 0#64 then some ⟨.ok (), g, calls⟩
    else
      let run := g.nextRun maxRun row bits
      match f calls run with
      | .error e => some ⟨.error e, g, calls ++ [run]⟩
      | .ok () =>
        let bits := clearRange bits run.start run.cells.length
        drainRow maxRun row fuel bits { g with dirty := update g.dirty row bits }
          (calls ++ [run])

def drainRows (maxRun fuel : ℕ) :
    List ℕ → Grid cols rows → List Run → Option (Drained ε cols rows)
  | [], g, calls => some ⟨.ok (), g, calls⟩
  | row :: rest, g, calls =>
    match drainRow f maxRun row fuel (g.dirty row) g calls with
    | none => none
    | some ⟨.error e, g, calls⟩ => some ⟨.error e, g, calls⟩
    | some ⟨.ok (), g, calls⟩ => drainRows maxRun fuel rest g calls

def drainDirtyRuns (fuel maxRun : ℕ) (g : Grid cols rows) : Option (Drained ε cols rows) :=
  if maxRun = 0 then some ⟨.ok (), g, []⟩
  else drainRows f maxRun fuel (List.range rows) g []

def acknowledgeCell (g sent : Grid cols rows) (row col : ℕ) : Grid cols rows :=
  if col < cols ∧ g.cells row col = sent.cells row col then
    { g with dirty := update g.dirty row (g.dirty row &&& ~~~(1#64 <<< col)) }
  else g

def acknowledgeRow (sent : Grid cols rows) (row : ℕ) :
    ℕ → BitVec 64 → Grid cols rows → Grid cols rows
  | 0, _, g => g
  | turns + 1, bits, g =>
    if bits = 0#64 then g
    else
      acknowledgeRow sent row turns (bits &&& (bits - 1))
        (g.acknowledgeCell sent row bits.ctz.toNat)

def acknowledgeSnapshot (g sent : Grid cols rows) : Grid cols rows :=
  (List.range rows).foldl (fun g row => acknowledgeRow sent row 64 (sent.dirty row) g) g

def dirtyAt (g : Grid cols rows) (row col : ℕ) : Bool := (g.dirty row).getLsbD col

def Bounded (g : Grid cols rows) : Prop :=
  ∀ row col, g.dirtyAt row col = true → row < rows ∧ col < cols

section

variable (g : Grid cols rows)
include g

theorem setCell_cells (row col : ℕ) (next : Cell) (r c : ℕ) :
    (g.setCell row col next).cells r c = if r = row ∧ c = col then next else g.cells r c := by
  unfold setCell
  by_cases h : g.cells row col = next
  · rw [if_neg (not_not.2 h)]
    by_cases hat : r = row ∧ c = col
    · rw [if_pos hat, hat.1, hat.2, h]
    · rw [if_neg hat]
  rw [if_pos h]
  by_cases hr : r = row
  · subst hr
    by_cases hc : c = col
    · subst hc
      simp
    · simp [hc]
  · simp [hr]

theorem setCell_dirtyAt {row col : ℕ} (next : Cell) (hcol : col < 64)
    (r c : ℕ) : (g.setCell row col next).dirtyAt r c =
      (g.dirtyAt r c || decide (r = row ∧ c = col ∧ g.cells r c ≠ next)) := by
  unfold setCell dirtyAt
  by_cases h : g.cells row col = next
  · rw [if_neg (not_not.2 h)]
    have hfalse : ¬(r = row ∧ c = col ∧ g.cells r c ≠ next) := by
      intro hall
      exact hall.2.2 (hall.1 ▸ hall.2.1 ▸ h)
    rw [decide_eq_false hfalse, Bool.or_false]
  rw [if_pos h]
  dsimp only
  by_cases hr : r = row
  · subst hr
    rw [update_self, getLsbD_or_bit _ hcol]
    by_cases hc : c = col
    · subst hc
      simp [h]
    · simp [hc, Ne.symm hc]
  · rw [update_of_ne hr]
    simp [hr]

private theorem setCells_spec (row : ℕ) (next : ℕ → Cell) (n : ℕ)
    (hn : n ≤ 64) (r c : ℕ) :
    let line := (List.range n).foldl (fun g col => g.setCell row col (next col)) g
    (line.cells r c = if r = row ∧ c < n then next c else g.cells r c) ∧
      line.dirtyAt r c = (g.dirtyAt r c || decide (r = row ∧ c < n ∧ g.cells r c ≠ next c)) := by
  induction n with
  | zero => simp
  | succ n ih =>
    obtain ⟨hcells, hdirty⟩ := ih (by omega)
    simp only [List.range_succ, List.foldl_append, List.foldl_cons, List.foldl_nil]
    rw [setCell_cells, setCell_dirtyAt _ _ (by omega), hcells, hdirty]
    by_cases hr : r = row
    · rcases Nat.lt_trichotomy c n with hlt | heq | hgt
      · have hne : c ≠ n := by omega
        have hsucc : c < n + 1 := by omega
        simp [hr, hlt, hne, hsucc]
      · subst heq
        simp [hr]
      · have hne : c ≠ n := by omega
        have hnot : ¬c < n := by omega
        have hsucc : ¬c < n + 1 := by omega
        simp [hr, hne, hnot, hsucc]
    · simp [hr]

theorem setLine_cells (row : ℕ) (text : List UInt8) (fg bg : Rgb565)
    (r c : ℕ) : (g.setLine row text fg bg).cells r c =
      if row < rows ∧ r = row ∧ c < cols then lineCell text fg bg c else g.cells r c := by
  unfold setLine
  by_cases hrow : rows ≤ row
  · rw [if_pos hrow, if_neg (by omega)]
  · rw [if_neg hrow, (setCells_spec g row _ cols g.fits r c).1]
    simp [Nat.not_le.1 hrow]

/-- The cells that a line changes become dirty, and no cell becomes clean. -/
theorem setLine_dirtyAt (row : ℕ) (text : List UInt8) (fg bg : Rgb565)
    (r c : ℕ) : (g.setLine row text fg bg).dirtyAt r c =
      (g.dirtyAt r c || decide (g.cells r c ≠ (g.setLine row text fg bg).cells r c)) := by
  rw [setLine_cells]
  unfold setLine
  by_cases hrow : rows ≤ row
  · rw [if_pos hrow, if_neg (by omega)]
    simp
  rw [if_neg hrow, (setCells_spec g row _ cols g.fits r c).2]
  by_cases hat : r = row ∧ c < cols
  · simp [Nat.not_le.1 hrow, hat]
  have hfalse : ¬(r = row ∧ c < cols ∧ g.cells r c ≠ lineCell text fg bg c) :=
    fun h => hat ⟨h.1, h.2.1⟩
  rw [decide_eq_false hfalse, if_neg fun h => hat h.2]
  simp

theorem markAllDirty_dirtyAt (r c : ℕ) :
    g.markAllDirty.dirtyAt r c = if r < rows then decide (c < cols) else g.dirtyAt r c := by
  unfold markAllDirty dirtyAt
  by_cases hr : r < rows
  · simp only [if_pos hr]
    have hfits := g.fits
    by_cases hfull : cols = 64
    · rw [if_pos hfull, BitVec.getLsbD_allOnes, hfull]
    have hlt : cols < 64 := by omega
    have hmask : 1#64 <<< cols - 1#64 = BitVec.ofNat 64 (2 ^ cols - 1) := by
      have hpow : 2 ^ cols < 2 ^ 64 := Nat.pow_lt_pow_right (by decide) hlt
      have hpos : 0 < 2 ^ cols := Nat.two_pow_pos cols
      apply BitVec.eq_of_toNat_eq
      rw [BitVec.toNat_sub, BitVec.toNat_ofNat, ← BitVec.twoPow_eq, BitVec.toNat_twoPow,
        BitVec.toNat_ofNat]
      omega
    rw [if_neg hfull, hmask, BitVec.getLsbD_ofNat, Nat.testBit_two_pow_sub_one,
      ← Bool.decide_and]
    congr 1
    apply propext
    omega
  · simp only [if_neg hr]

end

def Acknowledged (g sent : Grid cols rows) (row col : ℕ) : Prop :=
  col < cols ∧ g.cells row col = sent.cells row col

theorem acknowledgeCell_cells (g sent : Grid cols rows) (row col : ℕ) :
    (g.acknowledgeCell sent row col).cells = g.cells := by
  unfold acknowledgeCell
  split <;> rfl

theorem acknowledgeCell_dirtyAt (g sent : Grid cols rows) (row col r c : ℕ) :
    (g.acknowledgeCell sent row col).dirtyAt r c = true ↔
      g.dirtyAt r c = true ∧ ¬(r = row ∧ c = col ∧ g.Acknowledged sent row col) := by
  unfold acknowledgeCell
  by_cases hack : col < cols ∧ g.cells row col = sent.cells row col
  · simp only [if_pos hack, dirtyAt]
    by_cases hr : r = row
    · subst hr
      rw [update_self, getLsbD_and_not_bit, Bool.and_eq_true, decide_eq_true_eq]
      have hsame : Acknowledged g sent r col := hack
      constructor
      · intro h
        exact ⟨h.1, fun hat => h.2 hat.2.1.symm⟩
      · intro h
        exact ⟨h.1, fun heq => h.2 ⟨rfl, heq.symm, hsame⟩⟩
    · rw [update_of_ne hr]
      exact ⟨fun h => ⟨h, fun hat => hr hat.1⟩, fun h => h.1⟩
  · rw [if_neg hack]
    exact ⟨fun h => ⟨h, fun hat => hack hat.2.2⟩, fun h => h.1⟩

private theorem acknowledgeRow_spec (sent : Grid cols rows) (row : ℕ) :
    ∀ (turns : ℕ) (bits : BitVec 64) (g : Grid cols rows),
      (∀ c, bits.getLsbD c = true → 64 ≤ turns + c) →
      (acknowledgeRow sent row turns bits g).cells = g.cells ∧
        ∀ r c, (acknowledgeRow sent row turns bits g).dirtyAt r c = true ↔
          g.dirtyAt r c = true ∧ ¬(r = row ∧ bits.getLsbD c = true ∧ g.Acknowledged sent row c)
  | 0, bits, g, hturns => by
    refine ⟨rfl, ?_⟩
    intro r c
    have hclear : ¬bits.getLsbD c = true := by
      intro h
      have hge := hturns c h
      rw [BitVec.getLsbD_of_ge bits c (by omega)] at h
      cases h
    exact ⟨fun h => ⟨h, fun hat => hclear hat.2.1⟩, fun h => h.1⟩
  | turns + 1, bits, g, hturns => by
    unfold acknowledgeRow
    by_cases hzero : bits = 0#64
    · rw [if_pos hzero]
      refine ⟨rfl, ?_⟩
      intro r c
      have hclear : ¬bits.getLsbD c = true := by
        rw [hzero, BitVec.getLsbD_zero]
        exact Bool.false_ne_true
      exact ⟨fun h => ⟨h, fun hat => hclear hat.2.1⟩, fun h => h.1⟩
    rw [if_neg hzero]
    have hlow := BitVec.getLsbD_true_ctz_of_ne_zero hzero
    have hrest : ∀ c, (bits &&& (bits - 1)).getLsbD c = true ↔
        bits.getLsbD c = true ∧ c ≠ bits.ctz.toNat := by
      intro c
      rw [getLsbD_and_sub_one hzero, Bool.and_eq_true, decide_eq_true_eq]
    have hlater : ∀ c, (bits &&& (bits - 1)).getLsbD c = true → 64 ≤ turns + c := by
      intro c hc
      obtain ⟨hbit, hne⟩ := (hrest c).1 hc
      have hle := ctz_le hbit
      have hfirst := hturns _ hlow
      omega
    obtain ⟨hcells, hdirty⟩ := acknowledgeRow_spec sent row turns (bits &&& (bits - 1))
      (g.acknowledgeCell sent row bits.ctz.toNat) hlater
    refine ⟨hcells.trans (acknowledgeCell_cells ..), ?_⟩
    intro r c
    simp only [Acknowledged, acknowledgeCell_cells] at hdirty
    rw [hdirty, acknowledgeCell_dirtyAt, hrest]
    constructor
    · rintro ⟨⟨hold, hfirst⟩, hlater⟩
      refine ⟨hold, ?_⟩
      rintro ⟨hr, hbit, hack⟩
      by_cases hc : c = bits.ctz.toNat
      · exact hfirst ⟨hr, hc, hc ▸ hack⟩
      · exact hlater ⟨hr, ⟨hbit, hc⟩, hack⟩
    · rintro ⟨hold, hnot⟩
      refine ⟨⟨hold, ?_⟩, ?_⟩
      · rintro ⟨hr, hc, hack⟩
        exact hnot ⟨hr, hc ▸ hlow, hc ▸ hack⟩
      · rintro ⟨hr, ⟨hbit, _⟩, hack⟩
        exact hnot ⟨hr, hbit, hack⟩

private theorem acknowledgeRows_spec (g sent : Grid cols rows) (n : ℕ) :
    let after := (List.range n).foldl
      (fun g row => acknowledgeRow sent row 64 (sent.dirty row) g) g
    after.cells = g.cells ∧ ∀ r c, after.dirtyAt r c = true ↔
      g.dirtyAt r c = true ∧ ¬(r < n ∧ sent.dirtyAt r c = true ∧ g.Acknowledged sent r c) := by
  induction n with
  | zero => exact ⟨rfl, fun r c => ⟨fun h => ⟨h, fun hat => by omega⟩, fun h => h.1⟩⟩
  | succ n ih =>
    obtain ⟨hcells, hdirty⟩ := ih
    simp only [List.range_succ, List.foldl_append, List.foldl_cons, List.foldl_nil]
    obtain ⟨hkeep, hbits⟩ := acknowledgeRow_spec sent n 64 (sent.dirty n)
      ((List.range n).foldl (fun g row => acknowledgeRow sent row 64 (sent.dirty row) g) g)
      (fun c _ => by omega)
    refine ⟨hkeep.trans hcells, ?_⟩
    intro r c
    simp only [Acknowledged, hcells] at hbits
    rw [hbits, hdirty]
    constructor
    · rintro ⟨⟨hold, hbefore⟩, hrow⟩
      refine ⟨hold, ?_⟩
      rintro ⟨hr, hsent, hack⟩
      by_cases heq : r = n
      · subst heq
        exact hrow ⟨rfl, hsent, hack⟩
      · exact hbefore ⟨by omega, hsent, hack⟩
    · rintro ⟨hold, hnot⟩
      refine ⟨⟨hold, ?_⟩, ?_⟩
      · rintro ⟨hr, hsent, hack⟩
        exact hnot ⟨by omega, hsent, hack⟩
      rintro ⟨hr, hsent, hack⟩
      subst hr
      exact hnot ⟨by omega, hsent, hack⟩

theorem acknowledgeSnapshot_cells (g sent : Grid cols rows) :
    (g.acknowledgeSnapshot sent).cells = g.cells :=
  (acknowledgeRows_spec g sent rows).1

/-- Acknowledging cleans the cells that are marked in what was sent and have not changed. -/
theorem acknowledgeSnapshot_dirtyAt (g sent : Grid cols rows) (r c : ℕ) :
    (g.acknowledgeSnapshot sent).dirtyAt r c = true ↔ g.dirtyAt r c = true ∧
      ¬(r < rows ∧ sent.dirtyAt r c = true ∧ g.Acknowledged sent r c) :=
  (acknowledgeRows_spec g sent rows).2 r c

theorem Bounded.new (fits : cols ≤ 64) (bg : Rgb565) :
    (Grid.new fits bg : Grid cols rows).Bounded := by
  intro row col h
  simp [dirtyAt, Grid.new] at h

variable {g : Grid cols rows}

theorem Bounded.setLine (h : g.Bounded) (row : ℕ) (text : List UInt8) (fg bg : Rgb565) :
    (g.setLine row text fg bg).Bounded := by
  intro r c hdirty
  rw [setLine_dirtyAt, Bool.or_eq_true, decide_eq_true_eq] at hdirty
  rcases hdirty with hold | hchanged
  · exact h r c hold
  rw [setLine_cells] at hchanged
  by_cases hat : row < rows ∧ r = row ∧ c < cols
  · omega
  · rw [if_neg hat] at hchanged
    exact absurd rfl hchanged

theorem Bounded.markAllDirty (h : g.Bounded) : g.markAllDirty.Bounded := by
  intro r c hdirty
  rw [markAllDirty_dirtyAt] at hdirty
  by_cases hr : r < rows
  · rw [if_pos hr, decide_eq_true_eq] at hdirty
    exact ⟨hr, hdirty⟩
  · rw [if_neg hr] at hdirty
    exact h r c hdirty

theorem Bounded.clear (h : g.Bounded) (bg : Rgb565) : (g.clear bg).Bounded :=
  Bounded.markAllDirty (g := { g with cells := _ }) h

theorem Bounded.acknowledge (h : g.Bounded) (sent : Grid cols rows) :
    (g.acknowledgeSnapshot sent).Bounded :=
  fun r c hdirty => h r c ((acknowledgeSnapshot_dirtyAt g sent r c).1 hdirty).1

end Grid

end HarborKernel.TextGrid
