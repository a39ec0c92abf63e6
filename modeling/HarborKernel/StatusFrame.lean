import HarborKernel.TextDrain

/-!
One repaint of the status surface (`status.rs`, `flush_pending_frame`). The grid is copied under the
lock, the copy is drained to the panel outside it, and the result is settled under the lock again;
lines may be written to the live grid in between. The acknowledgement is given the copy after it
was drained, when no cell of it is marked any more, so it never cleans a cell of the live grid.
-/

namespace HarborKernel.TextGrid

inductive Page
  | overview
  | agents
  | resources
  | network
  | calibration
  | fault
deriving DecidableEq

inductive UiMode
  | boot
  | ready
  | degraded
  | fault
  | confirm
deriving DecidableEq

inductive Health
  | ready
  | unavailable
  | error
  | unknown
deriving DecidableEq

/-- The fields of the status state that a repaint reads or writes. -/
structure StatusState (cols rows : ℕ) where
  grid : Grid cols rows
  pendingPage : Option Page
  mode : UiMode
  autoRotate : Bool
  calibrationCount : ℕ
  health : Health
  flushes : UInt32
  flushErrors : UInt32
  bytes : UInt64

structure FlushReport where
  bytes : UInt64

/-- The display as the answers of its panel; without one every operation fails. -/
structure Display where
  chrome : Page → UiMode → ℕ → Bool
  blit : Option (List Run → Run → Except Unit Unit)

structure PendingFrame (cols rows : ℕ) where
  page : Page
  mode : UiMode
  calibrationStep : ℕ
  snapshot : Grid cols rows

def maxCells : ℕ := 4
def cellBytes : ℕ := 128

def saturatingInc (n : UInt32) : UInt32 := if n = 0xFFFFFFFF then n else n + 1

def saturatingAdd (a b : UInt64) : UInt64 :=
  if 2 ^ 64 ≤ a.toNat + b.toNat then 0xFFFFFFFFFFFFFFFF else a + b

variable {cols rows : ℕ}

def takeFrame (st : StatusState cols rows) :
    Option (PendingFrame cols rows) × StatusState cols rows :=
  match st.pendingPage with
  | none => (none, st)
  | some page =>
    (some ⟨page, st.mode, st.calibrationCount, st.grid⟩, { st with pendingPage := none })

def sentBytes (calls : List Run) : UInt64 :=
  calls.foldl (fun n run => saturatingAdd n (UInt64.ofNat (run.cells.length * cellBytes))) 0

def flushDirty (fuel : ℕ) (display : Display) (grid : Grid cols rows) :
    Option (Except Unit FlushReport × Grid cols rows) :=
  match display.blit with
  | none => some (.error (), grid)
  | some blit => (grid.drainDirtyRuns blit fuel maxCells).map fun d =>
      (d.result.map fun _ => ⟨sentBytes d.calls⟩, d.grid)

def setMode (st : StatusState cols rows) (mode : UiMode) : StatusState cols rows :=
  { st with mode, autoRotate := mode = .ready }

def recordFlush (st : StatusState cols rows) : Except Unit FlushReport → StatusState cols rows
  | .ok report => { st with flushes := saturatingInc st.flushes
                            bytes := saturatingAdd st.bytes report.bytes }
  | .error _ => { st with flushErrors := saturatingInc st.flushErrors }

def settleFrame (st : StatusState cols rows) (painted : Bool)
    (flushed : Except Unit FlushReport) (snapshot : Grid cols rows) : StatusState cols rows :=
  let st := if painted && flushed.isOk then
      { st with grid := st.grid.acknowledgeSnapshot snapshot }
    else setMode { st with grid := st.grid.markAllDirty, health := .error } .degraded
  recordFlush st flushed

/-- A line that someone else writes under the lock. -/
structure Line where
  row : ℕ
  text : List UInt8
  fg : Rgb565
  bg : Rgb565

namespace Grid

def write (g : Grid cols rows) (line : Line) : Grid cols rows :=
  g.setLine line.row line.text line.fg line.bg

def writeAll (g : Grid cols rows) (lines : List Line) : Grid cols rows := lines.foldl write g

/-- One of the lines gave the cell a different value. -/
def Changed (g : Grid cols rows) (lines : List Line) (r c : ℕ) : Prop :=
  ∃ before line after, lines = before ++ line :: after ∧
    ((g.writeAll before).write line).cells r c ≠ (g.writeAll before).cells r c

theorem Changed.cons_iff (g : Grid cols rows) (line : Line) (lines : List Line) (r c : ℕ) :
    g.Changed (line :: lines) r c ↔
      (g.write line).cells r c ≠ g.cells r c ∨ (g.write line).Changed lines r c := by
  constructor
  · rintro ⟨before, next, after, heq, hne⟩
    cases before with
    | nil =>
      cases heq
      exact .inl hne
    | cons first before =>
      cases heq
      exact .inr ⟨before, next, after, rfl, hne⟩
  · rintro (hne | ⟨before, next, after, rfl, hne⟩)
    · exact ⟨[], line, lines, rfl, hne⟩
    · exact ⟨line :: before, next, after, rfl, hne⟩

theorem writeAll_dirtyAt (lines : List Line) (g : Grid cols rows) (r c : ℕ) :
    (g.writeAll lines).dirtyAt r c = true ↔ g.dirtyAt r c = true ∨ g.Changed lines r c := by
  induction lines generalizing g with
  | nil =>
    refine ⟨.inl, ?_⟩
    rintro (h | ⟨before, line, after, heq, _⟩)
    · exact h
    · cases before <;> cases heq
  | cons line lines ih =>
    rw [Changed.cons_iff, ← or_assoc]
    refine (ih (g.write line)).trans ?_
    rw [write, setLine_dirtyAt, Bool.or_eq_true, decide_eq_true_eq, ne_comm]

theorem writeAll_cells (lines : List Line) (g : Grid cols rows) (r c : ℕ)
    (h : (g.writeAll lines).cells r c ≠ g.cells r c) : g.Changed lines r c := by
  induction lines generalizing g with
  | nil => exact absurd rfl h
  | cons line lines ih =>
    rw [Changed.cons_iff]
    by_cases hfirst : (g.write line).cells r c = g.cells r c
    · exact .inr (ih (g.write line) (hfirst.symm ▸ h))
    · exact .inl hfirst

end Grid

/-- A repaint, with the lines that are written to the live grid between the copy and the
acknowledgement. -/
def flushPendingFrame (fuel : ℕ) (display : Display) (lines : List Line)
    (st : StatusState cols rows) : Option (StatusState cols rows) :=
  match takeFrame st with
  | (none, st) => some st
  | (some frame, st) =>
    let painted := display.chrome frame.page frame.mode frame.calibrationStep
    (flushDirty fuel display frame.snapshot).map fun (flushed, snapshot) =>
      settleFrame { st with grid := st.grid.writeAll lines } painted flushed snapshot

/-- There is a frame to paint, and painting and flushing it succeed. -/
def Succeeds (fuel : ℕ) (display : Display) (st : StatusState cols rows) : Prop :=
  ∃ page report snapshot, st.pendingPage = some page ∧
    display.chrome page st.mode st.calibrationCount = true ∧
    flushDirty fuel display st.grid = some (.ok report, snapshot)

variable {fuel : ℕ} {display : Display} {grid : Grid cols rows}

theorem flushDirty_clean (hfuel : 64 < fuel) {snapshot : Grid cols rows} {report : FlushReport}
    (hb : grid.Bounded) (h : flushDirty fuel display grid = some (.ok report, snapshot)) (r c : ℕ) :
    snapshot.dirtyAt r c = false := by
  unfold flushDirty at h
  cases hblit : display.blit with
  | none =>
    simp only [hblit] at h
    cases h
  | some blit =>
    simp only [hblit] at h
    have hcap : 1 ≤ maxCells := by decide
    obtain ⟨d, hd, hend⟩ := Grid.drainDirtyRuns_spec (f := blit) hb hcap hfuel
    rw [hd, Option.map_some, Option.some.injEq, Prod.mk.injEq] at h
    obtain ⟨hresult, hgrid⟩ := h
    rcases hend with hdone | ⟨e, _, _, _, _, herror, _⟩
    · rw [← hgrid]
      exact hdone.clean hb r c
    · rw [herror] at hresult
      cases hresult

/-- What is dirty after a successful repaint: whatever was dirty at the copy, and what the lines
changed. -/
theorem flushPendingFrame_spec (hfuel : 64 < fuel) {st : StatusState cols rows}
    (hb : st.grid.Bounded) (hok : Succeeds fuel display st) (lines : List Line) :
    ∃ last, flushPendingFrame fuel display lines st = some last ∧
      last.grid.cells = (st.grid.writeAll lines).cells ∧
      ∀ r c, last.grid.dirtyAt r c = true ↔
        st.grid.dirtyAt r c = true ∨ st.grid.Changed lines r c := by
  obtain ⟨page, report, snapshot, hpage, hchrome, hflush⟩ := hok
  have hclean := flushDirty_clean hfuel hb hflush
  refine ⟨settleFrame { st with pendingPage := none, grid := st.grid.writeAll lines } true
    (.ok report) snapshot, ?_, Grid.acknowledgeSnapshot_cells _ _, ?_⟩
  · simp only [flushPendingFrame, takeFrame, hpage, hchrome, hflush, Option.map_some]
  intro r c
  refine (Grid.acknowledgeSnapshot_dirtyAt _ snapshot r c).trans ?_
  rw [hclean r c, ← Grid.writeAll_dirtyAt]
  constructor
  · intro hdirty
    exact hdirty.1
  · intro hdirty
    exact ⟨hdirty, fun hack => Bool.false_ne_true hack.2.1⟩

theorem unchanged_nil (g : Grid cols rows) (r c : ℕ) : ¬g.Changed [] r c := by
  rintro ⟨before, line, after, heq, _⟩
  cases before <;> cases heq

/-- After a repaint a cell is dirty just when it was changed while the repaint ran, if and only if
every cell that was dirty at the copy is changed meanwhile. -/
theorem repaint_leaves_changed {cols rows : ℕ} (st : StatusState cols rows)
    (hg : st.grid.Reachable) (fuel : ℕ) (hfuel : 64 < fuel) (display : Display)
    (hok : Succeeds fuel display st) (lines : List Line) :
    ∃ last, flushPendingFrame fuel display lines st = some last ∧
      (((∀ r c, last.grid.dirtyAt r c = true → st.grid.Changed lines r c) ∧
        (∀ r c, last.grid.cells r c ≠ st.grid.cells r c → last.grid.dirtyAt r c = true) ∧
        (lines = [] → ∀ r c, last.grid.dirtyAt r c = false)) ↔
      ∀ r c, st.grid.dirtyAt r c = true → st.grid.Changed lines r c) := by
  obtain ⟨last, hlast, hcells, hdirty⟩ := flushPendingFrame_spec hfuel hg.bounded hok lines
  refine ⟨last, hlast, ?_, ?_⟩
  · rintro ⟨hchanged, -, -⟩ r c hold
    exact hchanged r c ((hdirty r c).2 (.inl hold))
  intro hcond
  have hchanged : ∀ r c, last.grid.dirtyAt r c = true → st.grid.Changed lines r c :=
    fun r c h => ((hdirty r c).1 h).elim (hcond r c) id
  refine ⟨hchanged, ?_, ?_⟩
  · intro r c hne
    rw [hcells] at hne
    exact (hdirty r c).2 (.inr (Grid.writeAll_cells lines st.grid r c hne))
  intro hnone r c
  by_contra hset
  have hsome := hchanged r c (Bool.eq_true_of_not_eq_false hset)
  rw [hnone] at hsome
  exact unchanged_nil st.grid r c hsome

def working : Display := ⟨fun _ _ _ => true, some fun _ _ => .ok ()⟩

def blankStatus (grid : Grid cols rows) : StatusState cols rows :=
  ⟨grid, some .overview, .ready, true, 0, .ready, 0, 0, 0⟩

theorem succeeds_working (hfuel : 64 < fuel) (hb : grid.Bounded) :
    Succeeds fuel working (blankStatus grid) := by
  have hcap : 1 ≤ maxCells := by decide
  obtain ⟨d, hd, hend⟩ :=
    Grid.drainDirtyRuns_spec (f := fun _ _ => (.ok () : Except Unit Unit)) hb hcap hfuel
  rcases hend with ⟨hok, _⟩ | ⟨e, _, _, _, _, _, _, hfail, _⟩
  · refine ⟨.overview, ⟨sentBytes d.calls⟩, d.grid, rfl, rfl, ?_⟩
    simp only [flushDirty, working, blankStatus, hd, Option.map_some, hok, Except.map]
  · cases hfail

/-- On the panel of the board the line that is being sent is overwritten meanwhile. -/
theorem repaint_leaves_changed_line :
    ∃ st last : StatusState 60 36, st.grid.dirtyAt 0 0 = true ∧
      flushPendingFrame 65 working [⟨0, [65, 66], white, 0⟩] st = some last ∧
      (∀ r c, last.grid.dirtyAt r c = true →
        st.grid.Changed [⟨0, [65, 66], white, 0⟩] r c) := by
  obtain ⟨grid, hg, hsent, hover⟩ : ∃ grid : Grid 60 36, grid.Reachable ∧
      grid.dirtyAt 0 0 = true ∧ ∀ r c, grid.dirtyAt r c = true →
        (grid.write ⟨0, [65, 66], white, 0⟩).cells r c ≠ grid.cells r c := by
    refine ⟨_, .setLine (.new (by omega) 0) 0 [72, 105] white 0, ?_, ?_⟩
    · rw [Grid.setLine_dirtyAt, Grid.setLine_cells]
      decide +kernel
    intro r c hdirty
    rw [Grid.write, Grid.setLine_cells, Grid.setLine_cells]
    rw [Grid.setLine_dirtyAt, Grid.setLine_cells] at hdirty
    by_cases hin : 0 < 36 ∧ r = 0 ∧ c < 60
    · obtain ⟨-, rfl, hc⟩ := hin
      revert c
      decide +kernel
    · simp [Grid.new, Grid.dirtyAt] at hdirty
      exact absurd ⟨by decide, hdirty.1, hdirty.2.1⟩ hin
  obtain ⟨last, hlast, hiff⟩ := repaint_leaves_changed (blankStatus grid) hg 65 (by omega) working
    (succeeds_working (by omega) hg.bounded) [⟨0, [65, 66], white, 0⟩]
  refine ⟨blankStatus grid, last, hsent, hlast, (hiff.2 ?_).1⟩
  intro r c hdirty
  exact (Grid.Changed.cons_iff grid ⟨0, [65, 66], white, 0⟩ [] r c).2 (.inl (hover r c hdirty))

theorem repaint_keeps_mark (hg : grid.Reachable) {r c : ℕ} (hdirty : grid.dirtyAt r c = true) :
    ∃ last, Succeeds 65 working (blankStatus grid) ∧
      flushPendingFrame 65 working [] (blankStatus grid) = some last ∧
      last.grid.dirtyAt r c = true := by
  have hb : (blankStatus grid).grid.Bounded := hg.bounded
  have hok : Succeeds 65 working (blankStatus grid) := succeeds_working (by omega) hg.bounded
  obtain ⟨last, hlast, _, hiff⟩ := flushPendingFrame_spec (by omega) hb hok []
  exact ⟨last, hok, hlast, (hiff r c).2 (.inl hdirty)⟩

/-- On the panel of the board a line is sent and nobody writes meanwhile; its cells stay dirty. -/
theorem repaint_leaves_sent_cell :
    ∃ st last : StatusState 60 36, st.grid.Reachable ∧ Succeeds 65 working st ∧
      flushPendingFrame 65 working [] st = some last ∧
      last.grid.dirtyAt 0 0 = true ∧ ¬st.grid.Changed [] 0 0 := by
  obtain ⟨grid, hg, hdirty⟩ : ∃ grid : Grid 60 36, grid.Reachable ∧ grid.dirtyAt 0 0 = true := by
    refine ⟨_, .setLine (.new (by omega) 0) 0 [72, 105] white 0, ?_⟩
    rw [Grid.setLine_dirtyAt, Grid.setLine_cells]
    decide +kernel
  obtain ⟨last, hok, hlast, hstill⟩ := repaint_keeps_mark hg hdirty
  exact ⟨blankStatus grid, last, hg, hok, hlast, hstill, unchanged_nil _ 0 0⟩

end HarborKernel.TextGrid
