import Mathlib.Data.List.Basic

/-!
Labelled transition systems given by a partial step function.
`Reach` collects the states of the runs that start in `init` and take only
steps allowed by `ok`; the guard may look at the state before the step.
Invariants are established once per step and lifted to every such run.
-/

namespace HarborKernel.Transition

variable {σ ι : Type*}

def run (step : σ → ι → Option σ) : σ → List ι → Option σ
  | s, [] => some s
  | s, l :: rest => (step s l).bind fun s' => run step s' rest

inductive Reach (init : σ → Prop) (step : σ → ι → Option σ) (ok : σ → ι → Prop) : σ → Prop
  | start {s : σ} : init s → Reach init step ok s
  | next {s s' : σ} {l : ι} :
      Reach init step ok s → ok s l → step s l = some s' → Reach init step ok s'

variable {init : σ → Prop} {step : σ → ι → Option σ} {ok : σ → ι → Prop}

/-- A property that holds initially and survives every allowed step holds along every run. -/
theorem Reach.invariant {I : σ → Prop} (hinit : ∀ s, init s → I s)
    (hstep : ∀ s l s', I s → ok s l → step s l = some s' → I s')
    {s : σ} (h : Reach init step ok s) : I s := by
  induction h with
  | start h0 => exact hinit _ h0
  | next _ hok hs ih => exact hstep _ _ _ ih hok hs

/-- The invariant rule relative to an invariant `J` that is already known. -/
theorem Reach.invariant_of {J I : σ → Prop} (hJ : ∀ s, Reach init step ok s → J s)
    (hinit : ∀ s, init s → I s)
    (hstep : ∀ s l s', J s → J s' → I s → ok s l → step s l = some s' → I s')
    {s : σ} (h : Reach init step ok s) : I s := by
  induction h with
  | start h0 => exact hinit _ h0
  | next hr hok hs ih => exact hstep _ _ _ (hJ _ hr) (hJ _ (Reach.next hr hok hs)) ih hok hs

/-- Weakening the guard keeps every state reachable. -/
theorem Reach.mono {ok' : σ → ι → Prop} (himp : ∀ s l, ok s l → ok' s l)
    {s : σ} (h : Reach init step ok s) : Reach init step ok' s := by
  induction h with
  | start h0 => exact Reach.start h0
  | next _ hok hs ih => exact Reach.next ih (himp _ _ hok) hs

/-- Execution from a reachable state stays reachable when no step is guarded. -/
theorem Reach.run {s s' : σ} (ls : List ι) (h : Reach init step ok s)
    (hok : ∀ s l, l ∈ ls → ok s l) (hrun : Transition.run step s ls = some s') :
    Reach init step ok s' := by
  induction ls generalizing s with
  | nil =>
    simp only [Transition.run, Option.some.injEq] at hrun
    exact hrun ▸ h
  | cons l rest ih =>
    simp only [Transition.run, Option.bind_eq_some_iff] at hrun
    obtain ⟨s1, hs1, hrest⟩ := hrun
    exact ih (Reach.next h (hok s l (List.mem_cons_self ..)) hs1)
      (fun s l hl => hok s l (List.mem_cons_of_mem _ hl)) hrest

/-- Execution that checks the guard before every step stays reachable. -/
theorem Reach.runGuarded [∀ s l, Decidable (ok s l)] {s s' : σ} (ls : List ι)
    (h : Reach init step ok s)
    (hrun : Transition.run (fun s l => if ok s l then step s l else none) s ls = some s') :
    Reach init step ok s' := by
  induction ls generalizing s with
  | nil =>
    simp only [Transition.run, Option.some.injEq] at hrun
    exact hrun ▸ h
  | cons l rest ih =>
    simp only [Transition.run, Option.bind_eq_some_iff] at hrun
    obtain ⟨s1, hs1, hrest⟩ := hrun
    split at hs1
    · rename_i hok
      exact ih (Reach.next h hok hs1) hrest
    · contradiction

/-- A state with property `P` is reached by executing `ls`; the guard is checked on the way. -/
theorem Reach.exists_run [∀ s l, Decidable (ok s l)] {P : σ → Prop} [DecidablePred P] {s : σ}
    (ls : List ι) (h : Reach init step ok s)
    (hrun : ((Transition.run (fun s l => if ok s l then step s l else none) s ls).any
      fun s' => decide (P s')) = true) : ∃ s', Reach init step ok s' ∧ P s' := by
  obtain ⟨s', hs', hP⟩ := (Option.any_eq_true _ _).mp hrun
  exact ⟨s', h.runGuarded ls hs', of_decide_eq_true hP⟩

/-- A property that only ever gives way to `Q` lasts along a run, or the run has been
through `Q`. -/
theorem run_until {J P Q : σ → Prop} (hJ : ∀ s l s', J s → step s l = some s' → J s')
    (hstep : ∀ s l s', J s → P s → step s l = some s' → P s' ∨ Q s') :
    ∀ (ls : List ι) {s s' : σ}, J s → P s → Transition.run step s ls = some s' →
      P s' ∨ ∃ before after mid, ls = before ++ after ∧
        Transition.run step s before = some mid ∧ Q mid := by
  intro ls
  induction ls with
  | nil =>
    intro s s' _ hP hrun
    cases hrun
    exact .inl hP
  | cons l rest ih =>
    intro s s' hj hP hrun
    simp only [Transition.run, Option.bind_eq_some_iff] at hrun
    obtain ⟨s1, hs1, hrest⟩ := hrun
    rcases hstep s l s1 hj hP hs1 with hP1 | hQ1
    · rcases ih (hJ s l s1 hj hs1) hP1 hrest with hlast | ⟨before, after, mid, rfl, hmid, hQ⟩
      · exact .inl hlast
      · refine .inr ⟨l :: before, after, mid, rfl, ?_, hQ⟩
        simp only [Transition.run, hs1, Option.bind_some, hmid]
    · refine .inr ⟨[l], rest, s1, rfl, ?_, hQ1⟩
      simp only [Transition.run, hs1, Option.bind_some]

end HarborKernel.Transition
