import Mathlib.Data.Nat.ModEq
import Mathlib.Tactic.Ring

/-!
The periodic timer (`timer.rs`, `time.rs`). The comparator takes absolute deadlines, each made
from the one before and not from the count at which the handler runs; periods without an
interrupt are added to the tick count.
-/

namespace HarborKernel.PeriodicTimer

structure NextDeadline where
  deadline : ℕ
  missed : ℕ

/-- `next_deadline` on 64-bit counts: the deadlines are checked additions and the product
saturates, but the number of periods wraps. -/
def nextDeadline (previous interval now : ℕ) : NextDeadline :=
  let interval := if interval = 0 then 1 else interval
  if previous + interval < 2 ^ 64 then
    if now < previous + interval then ⟨previous + interval, 0⟩
    else
      let periods := ((now - previous) / interval + 1) % 2 ^ 64
      let missed := (periods + 2 ^ 64 - 1) % 2 ^ 64
      let total := min (periods * interval) (2 ^ 64 - 1)
      if previous + total < 2 ^ 64 then ⟨previous + total, missed⟩
      else ⟨2 ^ 64 - 1, missed⟩
  else ⟨2 ^ 64 - 1, 0⟩

/-- The deadline of the core that keeps time, with the counters of ticks and of missed ones. -/
structure Clock where
  deadline : ℕ
  ticks : ℕ := 0
  missed : ℕ := 0

def Clock.onInterrupt (interval : ℕ) (c : Clock) (now : ℕ) : ℕ × Clock :=
  if interval = 0 then (0, c)
  else
    let next := nextDeadline c.deadline interval now
    (next.missed, { c with deadline := next.deadline })

def Clock.onTimerIrq (interval : ℕ) (c : Clock) (now : ℕ) : Clock :=
  let (missed, c) := c.onInterrupt interval now
  { c with missed := (c.missed + missed) % 2 ^ 64, ticks := (c.ticks + (missed + 1)) % 2 ^ 64 }

/-- Handler times at or after the deadline that is programmed, away from the end of the count. -/
def Served (interval : ℕ) : Clock → List ℕ → Prop
  | _, [] => True
  | c, now :: rest => c.deadline ≤ now ∧ now < 2 ^ 64 - 2 * interval ∧
      Served interval (c.onTimerIrq interval now) rest

section Series

variable {interval previous now : ℕ}

/-- The next deadline is the first one of the series after now. -/
theorem nextDeadline_spec (hpos : 1 ≤ interval) (hle : previous ≤ now)
    (hlt : now < 2 ^ 64 - 2 * interval) :
    let next := nextDeadline previous interval now
    next.deadline = previous + (next.missed + 1) * interval ∧ now < next.deadline ∧
      next.deadline ≤ now + interval := by
  have hmul : (now - previous) / interval * interval ≤ now - previous := Nat.div_mul_le_self ..
  have hnext := Nat.lt_div_mul_add hpos (a := now - previous)
  have hinterval : ¬interval = 0 := by omega
  generalize hq : (now - previous) / interval = q at hmul hnext
  have hsucc : (q + 1) * interval = q * interval + interval := Nat.succ_mul ..
  have hle' : q ≤ q * interval := Nat.le_mul_of_pos_right q hpos
  have hperiods : (q + 1) % 2 ^ 64 = q + 1 := Nat.mod_eq_of_lt (by omega)
  have hmissed : (q + 1 + 2 ^ 64 - 1) % 2 ^ 64 = q := by omega
  simp only [nextDeadline, if_neg hinterval, hq, hperiods, hmissed, hsucc]
  rw [if_pos (by omega)]
  split
  · simp only [Nat.zero_add, Nat.one_mul, true_and]
    omega
  rw [Nat.min_eq_left (by omega), if_pos (by omega)]
  simp only [hsucc, true_and]
  omega

def InPhase (interval first : ℕ) (c : Clock) : Prop :=
  c.deadline = first + c.ticks * interval ∧ c.deadline < 2 ^ 64

theorem InPhase.onTimerIrq {first : ℕ} {c : Clock} (hpos : 1 ≤ interval)
    (h : InPhase interval first c) (hle : c.deadline ≤ now) (hlt : now < 2 ^ 64 - 2 * interval) :
    InPhase interval first (c.onTimerIrq interval now) ∧
      now < (c.onTimerIrq interval now).deadline ∧
      (c.onTimerIrq interval now).deadline ≤ now + interval := by
  obtain ⟨heq, hafter, hbefore⟩ := nextDeadline_spec hpos hle hlt
  have hinterval : ¬interval = 0 := by omega
  simp only [Clock.onTimerIrq, Clock.onInterrupt, if_neg hinterval]
  refine ⟨?_, hafter, hbefore⟩
  have hdeadline : (nextDeadline c.deadline interval now).deadline =
      first + (c.ticks + ((nextDeadline c.deadline interval now).missed + 1)) * interval := by
    rw [heq, h.1]
    ring
  have hticks := Nat.le_mul_of_pos_right
    (c.ticks + ((nextDeadline c.deadline interval now).missed + 1)) hpos
  refine ⟨?_, by simp only; omega⟩
  simp only
  rw [Nat.mod_eq_of_lt (by omega), hdeadline]

end Series

/-- After any number of interrupts the deadline is in phase with the first one, the tick count is
exactly the periods that have passed, and the deadline is ahead of the last handler time by at
most a period. -/
theorem timer_keeps_time (interval first : ℕ) (hpos : 1 ≤ interval) (hfirst : first < 2 ^ 64)
    (nows : List ℕ) (hserved : Served interval ⟨first, 0, 0⟩ nows) :
    let c := nows.foldl (Clock.onTimerIrq interval) ⟨first, 0, 0⟩
    c.ticks * interval = c.deadline - first ∧ first ≤ c.deadline ∧
      c.deadline ≡ first [MOD interval] ∧
      ∀ now, nows.getLast? = some now → now < c.deadline ∧ c.deadline - now ≤ interval := by
  have hrun : ∀ (c : Clock), InPhase interval first c → Served interval c nows →
      InPhase interval first (nows.foldl (Clock.onTimerIrq interval) c) ∧
      ∀ now, nows.getLast? = some now →
        now < (nows.foldl (Clock.onTimerIrq interval) c).deadline ∧
        (nows.foldl (Clock.onTimerIrq interval) c).deadline ≤ now + interval := by
    clear hserved
    induction nows with
    | nil => exact fun c h _ => ⟨h, nofun⟩
    | cons now rest ih =>
      rintro c h ⟨hle, hlt, hrest⟩
      obtain ⟨hphase, hbounds⟩ := h.onTimerIrq hpos hle hlt
      obtain ⟨hlast, hnow⟩ := ih _ hphase hrest
      refine ⟨hlast, ?_⟩
      intro now' hnow'
      cases rest with
      | nil =>
        obtain rfl : now = now' := Option.some.inj hnow'
        exact hbounds
      | cons next rest => exact hnow now' (by rwa [List.getLast?_cons_cons] at hnow')
  obtain ⟨⟨heq, -⟩, hlast⟩ := hrun ⟨first, 0, 0⟩ ⟨by simp, hfirst⟩ hserved
  simp only at heq hlast ⊢
  refine ⟨by omega, by omega, ?_, ?_⟩
  · rw [heq]
    exact (Nat.modEq_iff_dvd' (Nat.le_add_right ..)).2 (by simp) |>.symm
  intro now hnow
  have := hlast now hnow
  omega

/-- Three interrupts with a period of ten: in time, two periods late, and exactly on a period. -/
theorem timer_keeps_time_three : Served 10 ⟨100, 0, 0⟩ [103, 135, 140] ∧
    let c := [103, 135, 140].foldl (Clock.onTimerIrq 10) ⟨100, 0, 0⟩
    c.ticks * 10 = c.deadline - 100 ∧ 100 ≤ c.deadline ∧ c.deadline ≡ 100 [MOD 10] ∧
      ∀ now, [103, 135, 140].getLast? = some now → now < c.deadline ∧ c.deadline - now ≤ 10 := by
  have hserved : Served 10 ⟨100, 0, 0⟩ [103, 135, 140] := by
    simp [Served, Clock.onTimerIrq, Clock.onInterrupt, nextDeadline]
  exact ⟨hserved, timer_keeps_time 10 100 (by decide) (by decide) _ hserved⟩

end HarborKernel.PeriodicTimer
