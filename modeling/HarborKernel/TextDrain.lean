import HarborKernel.TextGrid

/-!
What a drain of the text grid does. It sweeps the grid in row-major order; at every moment the
cells before its position are exactly those that are clean again, and each of them that was dirty
is in one of the runs handed out. A run starts at the first dirty cell left and ends at the first
clean cell or at the cap.
-/

namespace HarborKernel.TextGrid

open Function BitWords

namespace Run

def stop (run : Run) : ℕ := run.start + run.cells.length

def Covers (run : Run) (row col : ℕ) : Prop :=
  run.row = row ∧ run.start ≤ col ∧ col < run.stop

instance (run : Run) (row col : ℕ) : Decidable (run.Covers row col) :=
  inferInstanceAs (Decidable (_ ∧ _ ∧ _))

/-- The first run ends before the second starts, in row-major order. -/
def Precedes (a b : Run) : Prop := a.row < b.row ∨ (a.row = b.row ∧ a.stop ≤ b.start)

theorem Precedes.not_both {a b : Run} (h : Precedes a b) {row col : ℕ} (ha : a.Covers row col)
    (hb : b.Covers row col) : False := by
  unfold Precedes Covers at *
  omega

end Run

theorem covers_at_most_once {calls : List Run} (h : calls.Pairwise Run.Precedes) (row col : ℕ) :
    (calls.filter fun run => run.Covers row col).length ≤ 1 := by
  have hpairs := h.filter fun run => decide (run.Covers row col)
  have hcovers : ∀ run ∈ calls.filter fun run => run.Covers row col, run.Covers row col := by
    intro run hmem
    exact of_decide_eq_true (List.mem_filter.1 hmem).2
  cases hlist : calls.filter fun run => run.Covers row col with
  | nil => exact Nat.zero_le 1
  | cons a rest =>
    cases rest with
    | nil => exact le_rfl
    | cons b rest =>
      rw [hlist] at hpairs hcovers
      have hab := List.rel_of_pairwise_cons hpairs (List.mem_cons_self ..)
      exact (hab.not_both (hcovers a (by simp)) (hcovers b (by simp))).elim

def Answered {ε : Type} (f : List Run → Run → Except ε Unit) (calls : List Run) : Prop :=
  ∀ before run after, calls = before ++ run :: after → f before run = .ok ()

theorem Answered.nil {ε : Type} (f : List Run → Run → Except ε Unit) : Answered f [] := by
  intro before run after h
  cases before <;> cases h

theorem Answered.concat {ε : Type} {f : List Run → Run → Except ε Unit} {calls : List Run}
    (h : Answered f calls) {run : Run} (hrun : f calls run = .ok ()) :
    Answered f (calls ++ [run]) := by
  intro before next after heq
  rcases List.eq_nil_or_concat after with rfl | ⟨rest, last, rfl⟩
  · obtain ⟨rfl, hlast⟩ := List.append_inj' heq rfl
    cases hlast
    exact hrun
  · rw [List.concat_eq_append, ← List.cons_append, ← List.append_assoc] at heq
    exact h before next rest (List.append_inj' heq rfl).1

namespace Grid

variable {cols rows : ℕ}

theorem runLength_le (bits : BitVec 64) (left col : ℕ) : runLength cols bits left col ≤ left := by
  induction left generalizing col with
  | zero => exact le_rfl
  | succ left ih =>
    unfold runLength
    split
    · exact Nat.succ_le_succ (ih (col + 1))
    · exact Nat.zero_le _

theorem runLength_dirty (fits : cols ≤ 64) (bits : BitVec 64) (left col : ℕ) {k : ℕ}
    (hk : k < runLength cols bits left col) :
    col + k < cols ∧ bits.getLsbD (col + k) = true := by
  induction left generalizing col k with
  | zero => exact absurd hk (Nat.not_lt_zero k)
  | succ left ih =>
    unfold runLength at hk
    split at hk
    · rename_i hhere
      cases k with
      | zero => exact ⟨hhere.1, (and_bit_ne_zero bits (by omega)).1 hhere.2⟩
      | succ k =>
        have hnext := ih (col + 1) (Nat.lt_of_succ_lt_succ hk)
        rwa [show col + 1 + k = col + (k + 1) by omega] at hnext
    · exact absurd hk (Nat.not_lt_zero k)

/-- The count stops at the cap, at the edge of the grid or at a clean cell. -/
theorem runLength_maximal (fits : cols ≤ 64) (bits : BitVec 64) (left col : ℕ) :
    runLength cols bits left col = left ∨ cols ≤ col + runLength cols bits left col ∨
      bits.getLsbD (col + runLength cols bits left col) = false := by
  induction left generalizing col with
  | zero => exact .inl rfl
  | succ left ih =>
    unfold runLength
    split
    · have hshift : col + (runLength cols bits left (col + 1) + 1) =
          col + 1 + runLength cols bits left (col + 1) := by omega
      rw [hshift]
      rcases ih (col + 1) with hcap | hedge | hclean
      · exact .inl (congrArg (· + 1) hcap)
      · exact .inr (.inl hedge)
      · exact .inr (.inr hclean)
    rename_i hhere
    right
    by_cases hcol : col < cols
    · right
      by_contra hset
      exact hhere ⟨hcol, (and_bit_ne_zero bits (by omega)).2 (Bool.eq_true_of_not_eq_false hset)⟩
    · exact .inl (Nat.not_lt.1 hcol)

/-- A run as it is handed out: a stretch of dirty cells with their contents that is cut only at
the cap, on the right and, where the call before it was cut there, on the left. -/
structure Cut (g : Grid cols rows) (maxRun : ℕ) (calls : List Run) (run : Run) : Prop where
  row : run.row < rows
  nonempty : 1 ≤ run.cells.length
  capped : run.cells.length ≤ maxRun
  inside : run.stop ≤ cols
  contents : run.cells = (List.range' run.start run.cells.length).map (g.cells run.row)
  dirty : ∀ col, run.start ≤ col → col < run.stop → g.dirtyAt run.row col = true
  right : run.cells.length = maxRun ∨ g.dirtyAt run.row run.stop = false
  left : run.start = 0 ∨ g.dirtyAt run.row (run.start - 1) = false ∨
    ∃ prev ∈ calls, prev.row = run.row ∧ prev.stop = run.start ∧ prev.cells.length = maxRun

variable {run : Run} {ε : Type} {f : List Run → Run → Except ε Unit} {fuel : ℕ}

theorem Cut.mono {g : Grid cols rows} {maxRun : ℕ} {calls calls' : List Run}
    (h : g.Cut maxRun calls run) (hsub : ∀ c ∈ calls, c ∈ calls') : g.Cut maxRun calls' run := by
  refine { h with left := ?_ }
  rcases h.left with hstart | hclean | ⟨prev, hprev, hrest⟩
  · exact .inl hstart
  · exact .inr (.inl hclean)
  · exact .inr (.inr ⟨prev, hsub prev hprev, hrest⟩)

def Passed (row p r c : ℕ) : Prop := r < row ∨ (r = row ∧ c < p)

structure Swept (g : Grid cols rows) (maxRun row p : ℕ) (now : Grid cols rows)
    (calls : List Run) : Prop where
  cells : now.cells = g.cells
  dirty : ∀ r c, now.dirtyAt r c = true ↔ g.dirtyAt r c = true ∧ ¬Passed row p r c
  sound : ∀ run ∈ calls, g.Cut maxRun calls run
  ordered : calls.Pairwise Run.Precedes
  behind : ∀ run ∈ calls, run.row < row ∨ (run.row = row ∧ run.stop ≤ p)
  complete : ∀ r c, Passed row p r c → g.dirtyAt r c = true → ∃ run ∈ calls, run.Covers r c
  edge : p = 0 ∨ ∃ prev ∈ calls, prev.row = row ∧ prev.stop = p ∧
    (prev.cells.length = maxRun ∨ g.dirtyAt row p = false)

variable {g now : Grid cols rows} {maxRun row p : ℕ} {calls : List Run}

theorem Swept.start (g : Grid cols rows) (maxRun : ℕ) : g.Swept maxRun 0 0 g [] where
  cells := rfl
  dirty r c := ⟨fun h => ⟨h, by unfold Passed; omega⟩, fun h => h.1⟩
  sound := nofun
  ordered := .nil
  behind := nofun
  complete r c hpassed := by
    unfold Passed at hpassed
    omega
  edge := .inl rfl

theorem Swept.dirty_iff (h : g.Swept maxRun row p now calls) (r c : ℕ) :
    now.dirtyAt r c = true ↔ g.dirtyAt r c = true ∧ ¬∃ run ∈ calls, run.Covers r c := by
  rw [h.dirty]
  constructor
  · rintro ⟨hdirty, hnot⟩
    refine ⟨hdirty, ?_⟩
    rintro ⟨run, hrun, hcovers⟩
    apply hnot
    have hbehind := h.behind run hrun
    unfold Run.Covers at hcovers
    unfold Passed
    omega
  · rintro ⟨hdirty, hnot⟩
    exact ⟨hdirty, fun hpassed => hnot (h.complete r c hpassed hdirty)⟩

theorem Swept.nextRow (h : g.Swept maxRun row p now calls) (hclean : now.dirty row = 0#64) :
    g.Swept maxRun (row + 1) 0 now calls := by
  have hempty : ∀ c, g.dirtyAt row c = true → Passed row p row c := by
    intro c hdirty
    by_contra hnot
    have hstill := (h.dirty row c).2 ⟨hdirty, hnot⟩
    rw [dirtyAt, hclean, BitVec.getLsbD_zero] at hstill
    cases hstill
  have hpassed : ∀ r c, g.dirtyAt r c = true → (Passed (row + 1) 0 r c ↔ Passed row p r c) := by
    intro r c hdirty
    by_cases hr : r = row
    · subst hr
      have hmine := hempty c hdirty
      exact ⟨fun _ => hmine, fun _ => .inl (Nat.lt_succ_self r)⟩
    · unfold Passed
      omega
  refine { cells := h.cells, dirty := ?_, sound := h.sound, ordered := h.ordered, behind := ?_,
           complete := ?_, edge := .inl rfl }
  · intro r c
    rw [h.dirty]
    constructor
    · rintro ⟨hdirty, hnot⟩
      exact ⟨hdirty, fun hp => hnot ((hpassed r c hdirty).1 hp)⟩
    · rintro ⟨hdirty, hnot⟩
      exact ⟨hdirty, fun hp => hnot ((hpassed r c hdirty).2 hp)⟩
  · intro run hrun
    have hbehind := h.behind run hrun
    omega
  · intro r c hp hdirty
    exact h.complete r c ((hpassed r c hdirty).1 hp) hdirty

/-- The run that a non-empty row hands out next, and where it lies. -/
theorem Swept.nextRun (hb : g.Bounded) (h : g.Swept maxRun row p now calls) (hmax : 1 ≤ maxRun)
    (hne : now.dirty row ≠ 0#64) :
    let run := now.nextRun maxRun row (now.dirty row)
    g.Cut maxRun calls run ∧ run.row = row ∧ p ≤ run.start ∧
      ∀ c, p ≤ c → c < run.start → g.dirtyAt row c = false := by
  have hfits := g.fits
  generalize hbits : now.dirty row = bits at *
  have hleft : ∀ c, bits.getLsbD c = true ↔ g.dirtyAt row c = true ∧ p ≤ c := by
    intro c
    have hrow := h.dirty row c
    rw [dirtyAt, hbits] at hrow
    rw [hrow]
    unfold Passed
    constructor
    · rintro ⟨hdirty, hnot⟩
      exact ⟨hdirty, by omega⟩
    · rintro ⟨hdirty, hp⟩
      exact ⟨hdirty, by omega⟩
  set start := bits.ctz.toNat with hstart
  set count := runLength cols bits maxRun start with hcount
  obtain ⟨hfirst, hp⟩ := (hleft start).1 (BitVec.getLsbD_true_ctz_of_ne_zero hne)
  obtain ⟨hrow, hcol⟩ := hb row start hfirst
  have hgap : ∀ c, p ≤ c → c < start → g.dirtyAt row c = false := by
    intro c hpc hlt
    by_contra hset
    have hle := ctz_le ((hleft c).2 ⟨Bool.eq_true_of_not_eq_false hset, hpc⟩)
    omega
  have hpos : 1 ≤ count := by
    by_contra hzero
    have hcount0 : count = 0 := by omega
    rcases runLength_maximal hfits bits maxRun start with hcap | hedge | hclean
    · omega
    · omega
    · rw [← hcount, hcount0, Nat.add_zero, BitVec.getLsbD_true_ctz_of_ne_zero hne] at hclean
      cases hclean
  have hrun : now.nextRun maxRun row bits =
      ⟨row, start, (List.range' start count).map (g.cells row)⟩ := by
    rw [Grid.nextRun, h.cells]
  have hlength : ((List.range' start count).map (g.cells row)).length = count := by
    rw [List.length_map, List.length_range']
  have hin : ∀ c, start ≤ c → c < start + count → c < cols ∧ bits.getLsbD c = true := by
    intro c hge hlt
    have hbit := runLength_dirty hfits bits maxRun start (k := c - start) (by omega)
    rwa [show start + (c - start) = c by omega] at hbit
  simp only [hrun]
  refine ⟨⟨hrow, ?_, ?_, ?_, ?_, ?_, ?_, ?_⟩, trivial, hp, hgap⟩
  · rw [hlength]
    exact hpos
  · rw [hlength]
    exact runLength_le bits maxRun start
  · have hlast := hin (start + count - 1) (by omega) (by omega)
    simp only [Run.stop, hlength]
    omega
  · rw [hlength]
  · intro c hge hlt
    rw [Run.stop, hlength] at hlt
    exact ((hleft c).1 (hin c hge hlt).2).1
  · simp only [Run.stop, hlength]
    rcases runLength_maximal hfits bits maxRun start with hcap | hedge | hclean
    · exact .inl hcap
    · right
      by_contra hset
      have hinside := (hb row _ (Bool.eq_true_of_not_eq_false hset)).2
      omega
    · right
      by_contra hset
      rw [← hcount, (hleft _).2 ⟨Bool.eq_true_of_not_eq_false hset, by omega⟩] at hclean
      cases hclean
  · -- the cell before the run is clean, or it ended the call before at the cap
    by_cases hzero : start = 0
    · exact .inl hzero
    right
    by_cases hat : p = start
    · rcases h.edge with hp0 | ⟨prev, hprev, hsame, hstop, hend⟩
      · omega
      rcases hend with hcap | hclean
      · exact .inr ⟨prev, hprev, hsame, hstop.trans hat, hcap⟩
      · rw [hat, hfirst] at hclean
        cases hclean
    · exact .inl (hgap (start - 1) (by omega) (by omega))

theorem Swept.precedes (h : g.Swept maxRun row p now calls) (hrow : run.row = row)
    (hp : p ≤ run.start) : ∀ prior ∈ calls, Run.Precedes prior run := by
  intro prior hprior
  have hbehind := h.behind prior hprior
  unfold Run.Precedes
  omega

/-- A successful call moves the sweep to the end of its run. -/
theorem Swept.advance (hb : g.Bounded) (h : g.Swept maxRun row p now calls) (hmax : 1 ≤ maxRun)
    (hne : now.dirty row ≠ 0#64) :
    let run := now.nextRun maxRun row (now.dirty row)
    g.Swept maxRun row run.stop
      { now with dirty := update now.dirty row
                  (clearRange (now.dirty row) run.start run.cells.length) } (calls ++ [run]) := by
  have hnext := h.nextRun hb hmax hne
  dsimp only at hnext ⊢
  generalize now.nextRun maxRun row (now.dirty row) = run at hnext ⊢
  obtain ⟨hcut, hrow, hp, hgap⟩ := hnext
  have hpos := hcut.nonempty
  have hstop : run.stop = run.start + run.cells.length := rfl
  refine ⟨h.cells, ?_, ?_, ?_, ?_, ?_, ?_⟩
  · intro r c
    by_cases hr : r = row
    · subst hr
      have hold := h.dirty r c
      simp only [dirtyAt, update_self] at hold ⊢
      rw [getLsbD_clearRange, Bool.and_eq_true, decide_eq_true_eq, hold]
      unfold Passed
      constructor
      · rintro ⟨⟨hdirty, hnot⟩, hout⟩
        refine ⟨hdirty, ?_⟩
        by_contra hpassed
        have hclean := hgap c (by omega) (by omega)
        rw [dirtyAt, hdirty] at hclean
        cases hclean
      · rintro ⟨hdirty, hnot⟩
        exact ⟨⟨hdirty, by omega⟩, by omega⟩
    · simp only [dirtyAt, update_of_ne hr]
      refine (h.dirty r c).trans ?_
      have hiff : Passed row p r c ↔ Passed row run.stop r c := by
        unfold Passed
        omega
      rw [hiff]
      rfl
  · intro other hother
    rcases List.mem_append.1 hother with hold | hnew
    · exact (h.sound other hold).mono fun c hc => List.mem_append_left _ hc
    · rw [List.mem_singleton.1 hnew]
      exact hcut.mono fun c hc => List.mem_append_left _ hc
  · apply List.pairwise_append.2
    refine ⟨h.ordered, List.pairwise_singleton _ _, ?_⟩
    intro a ha b hb
    rw [List.mem_singleton.1 hb]
    exact h.precedes hrow hp a ha
  · intro other hother
    rcases List.mem_append.1 hother with hold | hnew
    · have hbehind := h.behind other hold
      omega
    · rw [List.mem_singleton.1 hnew]
      exact .inr ⟨hrow, le_rfl⟩
  · intro r c hpassed hdirty
    by_cases hold : Passed row p r c
    · obtain ⟨other, hother, hcovers⟩ := h.complete r c hold hdirty
      exact ⟨other, List.mem_append_left _ hother, hcovers⟩
    refine ⟨run, List.mem_append_right _ (List.mem_singleton_self _), ?_⟩
    unfold Passed at hpassed hold
    have hr : r = row := by omega
    subst hr
    refine ⟨hrow, ?_, by omega⟩
    by_contra hlt
    have hclean := hgap c (by omega) (by omega)
    rw [hdirty] at hclean
    cases hclean
  · refine .inr ⟨run, List.mem_append_right _ (List.mem_singleton_self _), hrow, rfl, ?_⟩
    have hright := hcut.right
    rwa [hrow] at hright

section Callback

variable {ε : Type} (f : List Run → Run → Except ε Unit)

def Failed (g : Grid cols rows) (maxRun : ℕ) (d : Drained ε cols rows) : Prop :=
  ∃ e sent run row p, d.result = .error e ∧ d.calls = sent ++ [run] ∧ f sent run = .error e ∧
    Answered f sent ∧ g.Swept maxRun row p d.grid sent ∧ g.Cut maxRun sent run ∧
    ∀ prior ∈ sent, Run.Precedes prior run

def Completed (g : Grid cols rows) (maxRun row : ℕ) (d : Drained ε cols rows) : Prop :=
  d.result = .ok () ∧ g.Swept maxRun row 0 d.grid d.calls ∧ Answered f d.calls

variable {f}

/-- The loop over a row ends: every turn moves the position, which stays within the word. -/
theorem drainRow_spec (hb : g.Bounded) (hmax : 1 ≤ maxRun) :
    ∀ (fuel p : ℕ) (now : Grid cols rows) (calls : List Run),
      g.Swept maxRun row p now calls → Answered f calls → p ≤ 64 → 64 < fuel + p →
      ∃ d, drainRow f maxRun row fuel (now.dirty row) now calls = some d ∧
        (Completed f g maxRun (row + 1) d ∨ Failed f g maxRun d)
  | 0, p, _, _, _, _, hp, hfuel => by omega
  | fuel + 1, p, now, calls, h, hans, hp, hfuel => by
    rw [drainRow]
    by_cases hzero : now.dirty row = 0#64
    · rw [if_pos hzero]
      exact ⟨_, rfl, .inl ⟨rfl, h.nextRow hzero, hans⟩⟩
    rw [if_neg hzero]
    obtain ⟨hcut, hrow, hstart, _⟩ := h.nextRun hb hmax hzero
    cases hcall : f calls (now.nextRun maxRun row (now.dirty row)) with
    | error e =>
      refine ⟨⟨.error e, now, calls ++ [now.nextRun maxRun row (now.dirty row)]⟩, ?_,
        .inr ⟨e, calls, _, row, p, rfl, rfl, hcall, hans, h, hcut, h.precedes hrow hstart⟩⟩
      simp only [hcall]
    | ok done =>
      have hfits := g.fits
      have hnonempty := hcut.nonempty
      have hinside := hcut.inside
      have hstop : (now.nextRun maxRun row (now.dirty row)).stop =
        (now.nextRun maxRun row (now.dirty row)).start +
          (now.nextRun maxRun row (now.dirty row)).cells.length := rfl
      obtain ⟨d, hd, hend⟩ := drainRow_spec hb hmax fuel _ _ _ (h.advance hb hmax hzero)
        (hans.concat hcall) (by omega) (by omega)
      refine ⟨d, ?_, hend⟩
      simp only [update_self] at hd
      simp only [hcall]
      exact hd

theorem drainRows_spec (hb : g.Bounded) (hmax : 1 ≤ maxRun) {fuel : ℕ} (hfuel : 64 < fuel) :
    ∀ (n row : ℕ) (now : Grid cols rows) (calls : List Run),
      g.Swept maxRun row 0 now calls → Answered f calls →
      ∃ d, drainRows f maxRun fuel (List.range' row n) now calls = some d ∧
        (Completed f g maxRun (row + n) d ∨ Failed f g maxRun d)
  | 0, row, now, calls, h, hans => ⟨_, rfl, .inl ⟨rfl, h, hans⟩⟩
  | n + 1, row, now, calls, h, hans => by
    rw [List.range'_succ, drainRows]
    obtain ⟨⟨result, grid, made⟩, hd, hend⟩ :=
      drainRow_spec hb hmax fuel 0 now calls h hans (by omega) (by omega)
    rw [hd]
    rcases hend with ⟨hok, hswept, hans'⟩ | hfailed
    · cases hok
      obtain ⟨d, hd', hend'⟩ := drainRows_spec hb hmax hfuel n (row + 1) grid made hswept hans'
      rw [show row + 1 + n = row + (n + 1) by omega] at hend'
      exact ⟨d, hd', hend'⟩
    obtain ⟨e, _, _, _, _, herror, _⟩ := id hfailed
    cases herror
    exact ⟨_, rfl, .inr hfailed⟩

theorem drainDirtyRuns_spec (hb : g.Bounded) (hmax : 1 ≤ maxRun) {fuel : ℕ} (hfuel : 64 < fuel) :
    ∃ d, g.drainDirtyRuns f fuel maxRun = some d ∧
      (Completed f g maxRun rows d ∨ Failed f g maxRun d) := by
  obtain ⟨d, hd, hend⟩ := drainRows_spec hb hmax hfuel rows 0 g [] (.start g maxRun) (.nil f)
  rw [Nat.zero_add] at hend
  rw [drainDirtyRuns, if_neg (by omega), List.range_eq_range']
  exact ⟨d, hd, hend⟩

theorem Completed.clean (hb : g.Bounded) {d : Drained ε cols rows}
    (h : Completed f g maxRun rows d) (r c : ℕ) : d.grid.dirtyAt r c = false := by
  by_contra hset
  obtain ⟨hdirty, hnot⟩ := (h.2.1.dirty r c).1 (Bool.eq_true_of_not_eq_false hset)
  exact hnot (.inl (hb r c hdirty).1)

end Callback

/-- A drain cleans cells and does nothing else, whatever its fuel and cap. -/
theorem drainRow_dirtyAt :
    ∀ (fuel : ℕ) (bits : BitVec 64) (now : Grid cols rows) (calls : List Run)
      {d : Drained ε cols rows}, drainRow f maxRun row fuel bits now calls = some d →
      (∀ c, bits.getLsbD c = true → now.dirtyAt row c = true) →
      ∀ r c, d.grid.dirtyAt r c = true → now.dirtyAt r c = true
  | 0, _, _, _, _, hd, _, _, _, _ => by cases hd
  | fuel + 1, bits, now, calls, d, hd, hbits, r, c, hdirty => by
    rw [drainRow] at hd
    by_cases hzero : bits = 0#64
    · rw [if_pos hzero] at hd
      cases hd
      exact hdirty
    rw [if_neg hzero] at hd
    cases hcall : f calls (now.nextRun maxRun row bits) with
    | error e =>
      simp only [hcall, Option.some.injEq] at hd
      subst hd
      exact hdirty
    | ok done =>
      simp only [hcall] at hd
      have hless := drainRow_dirtyAt fuel _ _ _ hd (by
        intro c hc
        simpa only [dirtyAt, update_self] using hc) r c hdirty
      by_cases hr : r = row
      · subst hr
        simp only [dirtyAt, update_self] at hless
        rw [getLsbD_clearRange, Bool.and_eq_true] at hless
        exact hbits c hless.1
      · simpa only [dirtyAt, update_of_ne hr] using hless

theorem drainRows_dirtyAt :
    ∀ (list : List ℕ) (now : Grid cols rows) (calls : List Run) {d : Drained ε cols rows},
      drainRows f maxRun fuel list now calls = some d →
      ∀ r c, d.grid.dirtyAt r c = true → now.dirtyAt r c = true
  | [], _, _, _, hd, _, _, hdirty => by
    cases hd
    exact hdirty
  | row :: rest, now, calls, d, hd, r, c, hdirty => by
    rw [drainRows] at hd
    cases hrow : drainRow f maxRun row fuel (now.dirty row) now calls with
    | none =>
      simp only [hrow] at hd
      cases hd
    | some first =>
      obtain ⟨result, grid, made⟩ := first
      have hfirst := drainRow_dirtyAt fuel _ now calls hrow (fun _ h => h) r c
      cases result with
      | error e =>
        simp only [hrow, Option.some.injEq] at hd
        subst hd
        exact hfirst hdirty
      | ok done =>
        simp only [hrow] at hd
        exact hfirst (drainRows_dirtyAt rest grid made hd r c hdirty)

theorem Bounded.drain {d : Drained ε cols rows} (h : g.Bounded)
    (hd : g.drainDirtyRuns f fuel maxRun = some d) : d.grid.Bounded := by
  intro r c hdirty
  unfold drainDirtyRuns at hd
  split at hd
  · cases hd
    exact h r c hdirty
  · exact h r c (drainRows_dirtyAt _ g [] hd r c hdirty)

inductive Reachable : Grid cols rows → Prop
  | new (fits : cols ≤ 64) (bg : Rgb565) : Reachable (.new fits bg)
  | setLine {grid : Grid cols rows} (h : Reachable grid) (row : ℕ) (text : List UInt8)
      (fg bg : Rgb565) : Reachable (grid.setLine row text fg bg)
  | markAllDirty {grid : Grid cols rows} (h : Reachable grid) : Reachable grid.markAllDirty
  | clear {grid : Grid cols rows} (h : Reachable grid) (bg : Rgb565) : Reachable (grid.clear bg)
  | drain {grid : Grid cols rows} (h : Reachable grid) {ε : Type}
      (f : List Run → Run → Except ε Unit) (fuel cap : ℕ) {d : Drained ε cols rows}
      (hd : grid.drainDirtyRuns f fuel cap = some d) : Reachable d.grid
  | acknowledge {grid sent : Grid cols rows} (h : Reachable grid) (hsent : Reachable sent) :
      Reachable (grid.acknowledgeSnapshot sent)

theorem Reachable.bounded (h : Reachable g) : g.Bounded := by
  induction h with
  | new fits bg => exact .new fits bg
  | setLine _ row text fg bg ih => exact ih.setLine row text fg bg
  | markAllDirty _ ih => exact ih.markAllDirty
  | clear _ bg ih => exact ih.clear bg
  | drain _ f fuel maxRun hd ih => exact ih.drain hd
  | acknowledge _ _ ih _ => exact ih.acknowledge _

/-- Draining hands out every dirty cell once, as maximal runs cut at the cap, and can be taken
up again after a failed call. -/
theorem drain_exact_resumable {cols rows : ℕ} (g : Grid cols rows) (hg : Reachable g)
    (maxRun : ℕ) (hmax : 1 ≤ maxRun) {ε : Type} (f : List Run → Run → Except ε Unit) (fuel : ℕ)
    (hfuel : 64 < fuel) :
    ∃ d, g.drainDirtyRuns f fuel maxRun = some d ∧ d.grid.cells = g.cells ∧
      d.calls.Pairwise Run.Precedes ∧
      (∀ r c, (d.calls.filter fun run => run.Covers r c).length ≤ 1) ∧
      (∀ run ∈ d.calls, g.Cut maxRun d.calls run) ∧
      ((d.result = .ok () ∧ Answered f d.calls ∧
          (∀ r c, g.dirtyAt r c = true → ∃ run ∈ d.calls, run.Covers r c) ∧
          ∀ r c, d.grid.dirtyAt r c = false) ∨
        ∃ e sent failed, d.result = .error e ∧ d.calls = sent ++ [failed] ∧
          Answered f sent ∧ f sent failed = .error e ∧
          ∀ r c, d.grid.dirtyAt r c = true ↔
            g.dirtyAt r c = true ∧ ¬∃ run ∈ sent, run.Covers r c) := by
  have hb := hg.bounded
  obtain ⟨d, hd, hend⟩ := drainDirtyRuns_spec (f := f) hb hmax hfuel
  rcases hend with hdone | ⟨e, sent, run, row, p, hresult, hcalls, hfail, hans, hswept, hcut, hprec⟩
  · obtain ⟨hok, hswept, hans⟩ := id hdone
    refine ⟨d, hd, hswept.cells, hswept.ordered, covers_at_most_once hswept.ordered,
      hswept.sound, .inl ⟨hok, hans, ?_, hdone.clean hb⟩⟩
    intro r c hdirty
    exact hswept.complete r c (.inl (hb r c hdirty).1) hdirty
  have hordered : d.calls.Pairwise Run.Precedes := by
    rw [hcalls]
    apply List.pairwise_append.2
    refine ⟨hswept.ordered, List.pairwise_singleton _ _, ?_⟩
    intro a ha b hb
    rw [List.mem_singleton.1 hb]
    exact hprec a ha
  refine ⟨d, hd, hswept.cells, hordered, covers_at_most_once hordered, ?_,
    .inr ⟨e, sent, run, hresult, hcalls, hans, hfail, hswept.dirty_iff⟩⟩
  intro other hother
  rw [hcalls] at hother ⊢
  rcases List.mem_append.1 hother with hold | hnew
  · exact (hswept.sound other hold).mono fun c hc => List.mem_append_left _ hc
  · rw [List.mem_singleton.1 hnew]
    exact hcut.mono fun c hc => List.mem_append_left _ hc

/-- A line of four cells, handed out two at a time to a callback that fails at the second call. -/
theorem drain_exact_resumable_four :
    ∃ g : Grid 4 1, g.dirtyAt 0 3 = true ∧ ∃ d,
      g.drainDirtyRuns (fun sent _ => if sent.length = 1 then .error () else .ok ()) 65 2 =
        some d ∧ d.calls.Pairwise Run.Precedes := by
  refine ⟨(Grid.new (by omega) 0).setLine 0 [97, 98, 99, 100] white 0, by decide +kernel, ?_⟩
  obtain ⟨d, hd, _, hordered, _⟩ := drain_exact_resumable
    ((Grid.new (by omega) 0 : Grid 4 1).setLine 0 [97, 98, 99, 100] white 0)
    (.setLine (.new (by omega) 0) 0 _ white 0) 2 (by omega)
    (fun sent _ => if sent.length = 1 then .error () else .ok ()) 65 (by omega)
  exact ⟨d, hd, hordered⟩

end Grid

end HarborKernel.TextGrid
