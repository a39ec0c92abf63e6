import Mathlib.Tactic.Common

/-!
Programs that change a state and may stop with an error, keeping the state they
reached. `wp x s Q E` says what holds after running `x` from `s`: `Q` of the
value and the state when it succeeds, `E` of the error and the state when it
stops.
-/

namespace HarborKernel.ErrorState

variable {ε σ α β : Type}

/-- A program that only fails has a result when both parts have one. -/
theorem bind_eq_ok {x : Except ε α} {f : α → Except ε β} {b : β} :
    (x >>= f) = .ok b ↔ ∃ a, x = .ok a ∧ f a = .ok b := by
  cases x with
  | error e => exact ⟨nofun, nofun⟩
  | ok a =>
    constructor
    · intro h
      exact ⟨a, rfl, h⟩
    · rintro ⟨a', ha, h⟩
      cases ha
      exact h

def after : EStateM.Result ε σ α → σ
  | .ok _ s => s
  | .error _ s => s

variable {x : EStateM ε σ α} {f : α → EStateM ε σ β} {a : α} {e : ε} {R : β → σ → Prop}

theorem bind_ok {s s' : σ} (h : x s = .ok a s') : (x >>= f) s = f a s' := by
  change EStateM.bind x f s = _
  rw [EStateM.bind, h]

theorem bind_error {s s' : σ} (h : x s = .error e s') : (x >>= f) s = .error e s' := by
  change EStateM.bind x f s = _
  rw [EStateM.bind, h]

def wp (x : EStateM ε σ α) (s : σ) (Q : α → σ → Prop) (E : ε → σ → Prop) : Prop :=
  match x s with
  | .ok a s' => Q a s'
  | .error e s' => E e s'

variable {x : EStateM ε σ α} {f : α → EStateM ε σ β} {s s' : σ} {Q Q' : α → σ → Prop}
  {E E' : ε → σ → Prop}

theorem wp.ok (h : wp x s Q E) (hx : x s = .ok a s') : Q a s' := by
  rwa [wp, hx] at h

theorem wp.error (h : wp x s Q E) (hx : x s = .error e s') : E e s' := by
  rwa [wp, hx] at h

theorem wp.mono (h : wp x s Q E) (hQ : ∀ a s', Q a s' → Q' a s')
    (hE : ∀ e s', E e s' → E' e s') : wp x s Q' E' := by
  rcases hx : x s with ⟨a, s'⟩ | ⟨e, s'⟩
  · rw [wp, hx]
    exact hQ a s' (h.ok hx)
  · rw [wp, hx]
    exact hE e s' (h.error hx)

@[simp] theorem wp_pure : wp (pure a) s Q E ↔ Q a s := Iff.rfl

@[simp] theorem wp_get {Q : σ → σ → Prop} : wp get s Q E ↔ Q s s := Iff.rfl

@[simp] theorem wp_set {Q : Unit → σ → Prop} : wp (set s') s Q E ↔ Q () s' := Iff.rfl

@[simp] theorem wp_modify {g : σ → σ} {Q : Unit → σ → Prop} :
    wp (modify g) s Q E ↔ Q () (g s) := Iff.rfl

theorem wp_bind : wp (x >>= f) s R E ↔ wp x s (fun a s' => wp (f a) s' R E) E := by
  unfold wp
  rcases hx : x s with ⟨a, s'⟩ | ⟨e, s'⟩
  · rw [bind_ok hx]
  · rw [bind_error hx]

/-- Sequencing: the second program starts in a state the first may end in. -/
theorem wp.bind (h : wp x s Q E) (hf : ∀ a s', Q a s' → wp (f a) s' R E) : wp (x >>= f) s R E :=
  wp_bind.2 (h.mono hf fun _ _ he => he)

theorem wp.and (h : wp x s Q E) (h' : wp x s Q' E') :
    wp x s (fun a s' => Q a s' ∧ Q' a s') (fun e s' => E e s' ∧ E' e s') := by
  rcases hx : x s with ⟨a, s'⟩ | ⟨e, s'⟩
  · rw [wp, hx]
    exact ⟨h.ok hx, h'.ok hx⟩
  · rw [wp, hx]
    exact ⟨h.error hx, h'.error hx⟩

theorem wp.exists_ok (h : wp x s Q fun _ _ => False) : ∃ a s', x s = .ok a s' ∧ Q a s' := by
  rcases hx : x s with ⟨a, s'⟩ | ⟨e, s'⟩
  · exact ⟨a, s', rfl, h.ok hx⟩
  · exact (h.error hx).elim

theorem wp_after {I : σ → Prop} :
    wp x s (fun _ => I) (fun _ => I) ↔ I (after (x s)) := by
  unfold wp after
  rcases x s with ⟨a, s'⟩ | ⟨e, s'⟩ <;> rfl

def Tame {τ : Type} (f : σ → τ) (P : ε → Prop) (x : EStateM ε σ α) : Prop :=
  ∀ s, wp x s (fun _ s' => f s' = f s) fun e s' => f s' = f s ∧ P e

namespace Tame

variable {τ : Type} {g : σ → τ} {P : ε → Prop} {y : α → EStateM ε σ β}

theorem pure (a : α) : Tame g P (Pure.pure a : EStateM ε σ α) := fun _ => rfl

theorem throw {e : ε} (h : P e) : Tame g P (throw e : EStateM ε σ α) := fun _ => ⟨rfl, h⟩

theorem modify {h : σ → σ} (hg : ∀ s, g (h s) = g s) :
    Tame g P (modify h : EStateM ε σ PUnit) := hg

theorem get_bind {y : σ → EStateM ε σ β} (h : ∀ s, Tame g P (y s)) : Tame g P (get >>= y) :=
  fun s => h s s

theorem bind (hx : Tame g P x) (hy : ∀ a, Tame g P (y a)) : Tame g P (x >>= y) := fun s =>
  wp_bind.2 (wp.mono (hx s) (fun a s' hs' => wp.mono (hy a s') (fun _ _ hb => hb.trans hs')
    fun _ _ he => ⟨he.1.trans hs', he.2⟩) fun _ _ he => he)

end Tame

end HarborKernel.ErrorState
