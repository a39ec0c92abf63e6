import HarborKernel.Paging

/-!
The chunks of a mapping request (`Chunks::next` in `paging.rs`) are as few as possible. The sizes of
the three levels divide one another, so a piece of any tiling that starts inside a naturally aligned
chunk ends inside it. Each chunk of the iteration is the largest that fits where it starts; the
pieces of another tiling over the same bytes are at least one, and the argument repeats behind them.
-/

namespace HarborKernel.Paging

structure Chunks.Paged (c : Chunks) : Prop where
  va : c.va % pageSize = 0
  pa : c.pa % pageSize = 0
  remaining : c.remaining % pageSize = 0

def Chunks.advance (c : Chunks) : Chunks :=
  ⟨c.va + c.level.entrySize, c.pa + c.level.entrySize, c.remaining - c.level.entrySize⟩

def Chunks.rest : ℕ → Chunks → Chunks
  | 0, c => c
  | n + 1, c =>
    match c.next with
    | none => c
    | some (_, c') => c'.rest n

variable {c : Chunks} {va pa len n : ℕ} {l : List Chunk}

theorem Level.entrySize_dvd {level level' : Level} (h : level.entrySize ≤ level'.entrySize) :
    level.entrySize ∣ level'.entrySize := by
  revert h
  cases level <;> cases level' <;> decide

theorem find_level_le (p : Level → Bool) {level : Level} (h : p level = true) :
    level.entrySize ≤ ((([.L1, .L2, .L3] : List Level).find? p).getD .L3).entrySize := by
  cases h1 : p .L1 with
  | true =>
    rw [List.find?_cons_of_pos h1, Option.getD_some]
    cases level <;> decide
  | false =>
    rw [List.find?_cons_of_neg (by rw [h1]; decide)]
    cases h2 : p .L2 with
    | true =>
      rw [List.find?_cons_of_pos h2, Option.getD_some]
      cases level with
      | L1 => exact absurd (h1.symm.trans h) Bool.false_ne_true
      | L2 => exact le_rfl
      | L3 => decide
    | false =>
      cases level with
      | L1 => exact absurd (h1.symm.trans h) Bool.false_ne_true
      | L2 => exact absurd (h2.symm.trans h) Bool.false_ne_true
      | L3 =>
        generalize (List.find? p _).getD Level.L3 = found
        cases found <;> decide

theorem Chunks.level_largest (c : Chunks) (level : Level)
    (h : c.level.entrySize < level.entrySize) :
    c.va % level.entrySize ≠ 0 ∨ c.pa % level.entrySize ≠ 0 ∨ c.remaining < level.entrySize := by
  have hnot : ¬ (c.va % level.entrySize = 0 ∧ c.pa % level.entrySize = 0 ∧
      level.entrySize ≤ c.remaining) := by
    intro hfits
    have hle := find_level_le (fun level => decide (c.va % level.entrySize = 0 ∧
      c.pa % level.entrySize = 0 ∧ level.entrySize ≤ c.remaining)) (decide_eq_true hfits)
    exact absurd h (Nat.not_lt.2 hle)
  omega

/-- The pieces of a tiling that start inside an aligned chunk end inside it. -/
theorem Covers.cut {level : Level} {start : ℕ} (hl : Covers va pa len l) (hlow : start ≤ va)
    (hhigh : va ≤ start + level.entrySize) (hstart : start % level.entrySize = 0)
    (hlen : start + level.entrySize ≤ va + len)
    (hfirst : va = start → ∀ chunk ∈ l.head?, chunk.size ≤ level.entrySize) :
    ∃ l₁ l₂, l = l₁ ++ l₂ ∧ (va ≠ start + level.entrySize → l₁ ≠ []) ∧
      Covers (start + level.entrySize) (pa + (start + level.entrySize - va))
        (va + len - (start + level.entrySize)) l₂ := by
  induction l generalizing va pa len with
  | nil =>
    have hzero : len = 0 := hl
    refine ⟨[], [], rfl, fun hne => absurd ?_ hne, ?_⟩
    · omega
    · show va + len - (start + level.entrySize) = 0
      omega
  | cons chunk rest ih =>
    by_cases hdone : va = start + level.entrySize
    · refine ⟨[], chunk :: rest, rfl, fun hne => absurd hdone hne, ?_⟩
      rw [← hdone, Nat.sub_self, Nat.add_zero, Nat.add_sub_cancel_left]
      exact hl
    obtain ⟨hva, hpa, halign, halign', hfit, hrest⟩ := hl
    have hpos := chunk.level.entrySize_pos
    -- a larger piece would have to start where the chunk does
    have hsize : chunk.size ≤ level.entrySize := by
      by_contra hlarge
      have hdvd : level.entrySize ∣ chunk.size := Level.entrySize_dvd (by
        unfold Chunk.size at hlarge
        omega)
      have hmod : va % level.entrySize = 0 :=
        Nat.mod_eq_zero_of_dvd (hdvd.trans (Nat.dvd_of_mod_eq_zero halign))
      have heq : va = start := by
        obtain ⟨q, rfl⟩ := Nat.dvd_of_mod_eq_zero hmod
        obtain ⟨r, rfl⟩ := Nat.dvd_of_mod_eq_zero hstart
        have hlt : level.entrySize * q < level.entrySize * (r + 1) := by
          rw [Nat.mul_add, Nat.mul_one]
          omega
        have hqr := Nat.lt_of_mul_lt_mul_left hlt
        have hrq := Nat.le_of_mul_le_mul_left hlow level.entrySize_pos
        rw [show q = r by omega]
      exact hlarge (hfirst heq chunk rfl)
    have hdvd : chunk.size ∣ level.entrySize := Level.entrySize_dvd hsize
    have hend : va + chunk.size ≤ start + level.entrySize := by
      obtain ⟨q, hq⟩ := Nat.dvd_of_mod_eq_zero halign
      obtain ⟨r, hr⟩ := Nat.dvd_add (hdvd.trans (Nat.dvd_of_mod_eq_zero hstart)) hdvd
      rw [hq, hr] at hhigh hdone ⊢
      have hle := Nat.le_of_mul_le_mul_left hhigh hpos
      have hne : q ≠ r := by
        rintro rfl
        exact hdone rfl
      calc chunk.size * q + chunk.size = chunk.size * (q + 1) := (Nat.mul_succ _ _).symm
        _ ≤ chunk.size * r := Nat.mul_le_mul_left _ (by omega)
    obtain ⟨l₁, l₂, rfl, -, hcover⟩ := ih hrest (by omega) hend (by omega) (by
      intro heq
      have hsizepos : 0 < chunk.size := hpos
      omega)
    refine ⟨chunk :: l₁, l₂, rfl, fun _ => List.cons_ne_nil _ _, ?_⟩
    have hsub : pa + (start + level.entrySize - va) =
        pa + chunk.size + (start + level.entrySize - (va + chunk.size)) := by omega
    have hleft : va + len - (start + level.entrySize) =
        va + chunk.size + (len - chunk.size) - (start + level.entrySize) := by omega
    rw [hsub, hleft]
    exact hcover

theorem Covers.aligned {chunk : Chunk} (hl : Covers va pa len l) (hchunk : chunk ∈ l) :
    chunk.va % chunk.size = 0 ∧ chunk.pa % chunk.size = 0 := by
  induction l generalizing va pa len with
  | nil => exact absurd hchunk List.not_mem_nil
  | cons first rest ih =>
    obtain ⟨hva, hpa, halign, halign', -, hrest⟩ := hl
    rcases List.mem_cons.1 hchunk with rfl | hmem
    · rw [hva, hpa]
      exact ⟨halign, halign'⟩
    · exact ih hrest hmem

theorem Chunks.next_eq (hne : c.remaining ≠ 0) :
    c.next = some (⟨c.level, c.va, c.pa⟩, c.advance) := by
  rw [Chunks.next, if_neg hne]
  rfl

theorem Chunks.next_done (hzero : c.remaining = 0) : c.next = none := by
  rw [Chunks.next, if_pos hzero]

theorem Chunks.take_succ (hne : c.remaining ≠ 0) (n : ℕ) :
    c.take (n + 1) = ⟨c.level, c.va, c.pa⟩ :: c.advance.take n := by
  simp only [Chunks.take, Chunks.next_eq hne]

theorem Chunks.take_done (hzero : c.remaining = 0) (n : ℕ) : c.take n = [] := by
  cases n with
  | zero => rfl
  | succ n => simp only [Chunks.take, Chunks.next_done hzero]

theorem Chunks.Paged.fits (hc : c.Paged) (hne : c.remaining ≠ 0) :
    c.va % c.level.entrySize = 0 ∧ c.pa % c.level.entrySize = 0 ∧
      c.level.entrySize ≤ c.remaining := by
  refine Chunks.level_fits hc.va hc.pa ?_
  have hlen := hc.remaining
  unfold pageSize at *
  omega

theorem Chunks.Paged.advance (hc : c.Paged) : c.advance.Paged := by
  have hdvd := c.level.pageSize_dvd
  refine ⟨?_, ?_, ?_⟩
  · exact Nat.mod_eq_zero_of_dvd (Nat.dvd_add (Nat.dvd_of_mod_eq_zero hc.va) hdvd)
  · exact Nat.mod_eq_zero_of_dvd (Nat.dvd_add (Nat.dvd_of_mod_eq_zero hc.pa) hdvd)
  · exact Nat.mod_eq_zero_of_dvd (Nat.dvd_sub (Nat.dvd_of_mod_eq_zero hc.remaining) hdvd)

/-- No tiling has fewer pieces than the iteration gives. -/
theorem Chunks.Paged.take_minimal (hc : c.Paged) (n : ℕ) (hl : Covers c.va c.pa c.remaining l) :
    (c.take n).length ≤ l.length := by
  induction n generalizing c l with
  | zero => exact Nat.zero_le _
  | succ n ih =>
    by_cases hzero : c.remaining = 0
    · rw [Chunks.take_done hzero]
      exact Nat.zero_le _
    obtain ⟨hva', hpa', hfit⟩ := hc.fits hzero
    have hpos := c.level.entrySize_pos
    have hfirst : c.va = c.va → ∀ chunk ∈ l.head?, chunk.size ≤ c.level.entrySize := by
      intro _ chunk hchunk
      cases l with
      | nil => cases hchunk
      | cons first rest =>
        cases hchunk
        obtain ⟨-, -, halign, halign', hsize, -⟩ := hl
        by_contra hlarge
        have hno := c.level_largest chunk.level (Nat.not_le.1 hlarge)
        unfold Chunk.size at halign halign' hsize
        omega
    obtain ⟨l₁, l₂, rfl, hne, hcover⟩ :=
      hl.cut le_rfl (Nat.le_add_right _ _) hva' (by omega) hfirst
    have hsub : c.pa + (c.va + c.level.entrySize - c.va) = c.pa + c.level.entrySize := by omega
    have hleft : c.va + c.remaining - (c.va + c.level.entrySize) =
        c.remaining - c.level.entrySize := by omega
    rw [hsub, hleft] at hcover
    have hrest : (c.advance.take n).length ≤ l₂.length := ih hc.advance hcover
    have hone : 0 < l₁.length := List.length_pos_iff.2 (hne (by omega))
    rw [Chunks.take_succ hzero, List.length_cons, List.length_append]
    omega

/-- Where the chunks of the iteration lie, and that none could be larger. -/
theorem Chunks.Paged.take_largest (hc : c.Paged) (n : ℕ) {chunk : Chunk}
    (hchunk : chunk ∈ c.take n) :
    c.va ≤ chunk.va ∧ chunk.pa + c.va = chunk.va + c.pa ∧
      chunk.va + chunk.size ≤ c.va + c.remaining ∧
      ∀ level : Level, chunk.size < level.entrySize →
        chunk.va % level.entrySize ≠ 0 ∨ chunk.pa % level.entrySize ≠ 0 ∨
          c.va + c.remaining - chunk.va < level.entrySize := by
  induction n generalizing c with
  | zero => exact absurd hchunk List.not_mem_nil
  | succ n ih =>
    by_cases hzero : c.remaining = 0
    · rw [Chunks.take_done hzero] at hchunk
      exact absurd hchunk List.not_mem_nil
    obtain ⟨-, -, hfit⟩ := hc.fits hzero
    rw [Chunks.take_succ hzero] at hchunk
    rcases List.mem_cons.1 hchunk with rfl | hrest
    · refine ⟨le_rfl, Nat.add_comm _ _, Nat.add_le_add_left hfit _, fun level hlarge => ?_⟩
      have hno := c.level_largest level hlarge
      simp only
      omega
    obtain ⟨hlow, hdelta, hhigh, hlargest⟩ := ih hc.advance hrest
    simp only [Chunks.advance] at hlow hdelta hhigh hlargest
    refine ⟨by omega, by omega, by omega, fun level hlarge => ?_⟩
    have hno := hlargest level hlarge
    have hsum : c.va + c.level.entrySize + (c.remaining - c.level.entrySize) =
        c.va + c.remaining := by omega
    rw [hsum] at hno
    exact hno

theorem Chunks.Paged.rest_done (hc : c.Paged) (n : ℕ) (hn : c.remaining ≤ n * pageSize) :
    (c.rest n).next = none := by
  induction n generalizing c with
  | zero =>
    have hzero : c.remaining = 0 := by omega
    exact Chunks.next_done hzero
  | succ n ih =>
    by_cases hzero : c.remaining = 0
    · simp only [Chunks.rest, Chunks.next_done hzero]
    have hmin := Nat.le_of_dvd c.level.entrySize_pos c.level.pageSize_dvd
    simp only [Chunks.rest, Chunks.next_eq hzero]
    apply ih hc.advance
    rw [Nat.succ_mul] at hn
    simp only [Chunks.advance]
    omega

/-- A request is cut into the fewest chunks: they tile it in order at a constant distance, each is
the largest where it starts, and no tiling by aligned pieces has fewer. -/
theorem chunks_tile_minimal (va pa len : ℕ) (hva : va % pageSize = 0) (hpa : pa % pageSize = 0)
    (hlen : len % pageSize = 0) (hvb : va + len < 2 ^ 64) (hpb : pa + len < 2 ^ 64) :
    ∃ c, chunks va pa len = some c ∧ (c.rest (len / pageSize)).next = none ∧
      Covers va pa len c.toList ∧
      (∀ chunk ∈ c.toList, chunk.pa + va = chunk.va + pa ∧
        chunk.va + chunk.size < 2 ^ 64 ∧ chunk.pa + chunk.size < 2 ^ 64 ∧
        chunk.va % chunk.size = 0 ∧ chunk.pa % chunk.size = 0 ∧
        ∀ level : Level, chunk.size < level.entrySize →
          chunk.va % level.entrySize ≠ 0 ∨ chunk.pa % level.entrySize ≠ 0 ∨
            va + len - chunk.va < level.entrySize) ∧
      ∀ l, Covers va pa len l → c.toList.length ≤ l.length := by
  have hok : ¬ (va % pageSize ≠ 0 ∨ pa % pageSize ≠ 0 ∨ len % pageSize ≠ 0) := by omega
  have hchunks : chunks va pa len = some ⟨va, pa, len⟩ := if_neg hok
  have hcovers := chunks_covers hchunks
  have hc : Chunks.Paged ⟨va, pa, len⟩ := ⟨hva, hpa, hlen⟩
  refine ⟨⟨va, pa, len⟩, hchunks, ?_, hcovers, ?_, ?_⟩
  · exact hc.rest_done _
      (Nat.le_of_eq (Nat.div_mul_cancel (Nat.dvd_of_mod_eq_zero hlen)).symm)
  · intro chunk hchunk
    obtain ⟨hlow, hdelta, hhigh, hlargest⟩ := hc.take_largest (len / pageSize) hchunk
    obtain ⟨halign, halign'⟩ := hcovers.aligned hchunk
    simp only at hlow hdelta hhigh
    exact ⟨hdelta, by omega, by omega, halign, halign', hlargest⟩
  · intro l hl
    exact hc.take_minimal (len / pageSize) hl

theorem chunks_tile_minimal_three :
    ∃ c, chunks 0x1fe000 0x3fe000 0x203000 = some c ∧ Covers 0x1fe000 0x3fe000 0x203000 c.toList ∧
      ∀ l, Covers 0x1fe000 0x3fe000 0x203000 l → c.toList.length ≤ l.length := by
  obtain ⟨c, hchunks, -, hcovers, -, hminimal⟩ := chunks_tile_minimal 0x1fe000 0x3fe000 0x203000
    (by decide) (by decide) (by decide) (by decide) (by decide)
  exact ⟨c, hchunks, hcovers, hminimal⟩

end HarborKernel.Paging
