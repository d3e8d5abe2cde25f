import Mathlib.Tactic.TypeStar

/-!
# Runs of a labelled transition system

A run is a list of labels, one step each. What one step preserves, a run preserves
(`Run.invariant`), and a run whose steps all meet a condition is a run of the restricted system
(`Guarded`).
-/

namespace Transition
variable {σ α : Type*}

/-- `Run step s as t`: the labels `as`, one step each, lead from `s` to `t`. -/
inductive Run (step : σ → α → σ → Prop) (s : σ) : List α → σ → Prop
  | nil : Run step s [] s
  | snoc {t u : σ} {as : List α} {a : α} : Run step s as t → step t a u → Run step s (as ++ [a]) u

/-- The system in which a step is taken only from states and with labels that meet `guard`. -/
def Guarded (step : σ → α → σ → Prop) (guard : σ → α → Prop) : σ → α → σ → Prop :=
  fun s a t => guard s a ∧ step s a t

variable {step step' : σ → α → σ → Prop} {s t u : σ} {as bs : List α}

theorem Run.append (h : Run step s as t) (h' : Run step t bs u) : Run step s (as ++ bs) u := by
  induction h' with
  | nil => simpa using h
  | snoc _ hstep ih =>
    rw [← List.append_assoc]
    exact .snoc ih hstep

theorem Run.single {a : α} (h : step s a t) : Run step s [a] t := .snoc .nil h

theorem Run.cons {a : α} (h : step s a t) (h' : Run step t as u) : Run step s (a :: as) u :=
  (Run.single h).append h'

theorem Run.eq_of_nil (h : Run step s [] t) : s = t := by
  generalize has : ([] : List α) = as at h
  cases h with
  | nil => rfl
  | snoc => simp at has

theorem Run.uncons {a : α} (h : Run step s (a :: as) t) : ∃ u, step s a u ∧ Run step u as t := by
  generalize hbs : a :: as = bs at h
  induction h generalizing as with
  | nil => simp at hbs
  | @snoc t v cs b hrun hlast ih =>
    cases cs with
    | nil =>
      cases hrun.eq_of_nil
      cases hbs
      exact ⟨v, hlast, .nil⟩
    | cons c cs =>
      cases hbs
      obtain ⟨u, hu, hrest⟩ := ih rfl
      exact ⟨u, hu, .snoc hrest hlast⟩

theorem Run.split (h : Run step s (as ++ bs) t) : ∃ u, Run step s as u ∧ Run step u bs t := by
  induction as generalizing s with
  | nil => exact ⟨s, .nil, h⟩
  | cons a as ih =>
    obtain ⟨v, hstep, hrest⟩ := h.uncons
    obtain ⟨u, hu, hlast⟩ := ih hrest
    exact ⟨u, .cons hstep hu, hlast⟩

theorem Run.of_single {a : α} (h : Run step s [a] t) : step s a t := by
  obtain ⟨u, hstep, hrest⟩ := h.uncons
  exact hrest.eq_of_nil ▸ hstep

/-- What every step preserves, every run preserves. -/
theorem Run.invariant {I : σ → Prop} (hstep : ∀ s a t, I s → step s a t → I t)
    (h : Run step s as t) (hs : I s) : I t := by
  induction h with
  | nil => exact hs
  | snoc _ hlast ih => exact hstep _ _ _ ih hlast

theorem Run.count {f : σ → Nat} (hstep : ∀ s a t, step s a t → f t = f s + 1)
    (h : Run step s as t) : f t = f s + as.length := by
  induction h with
  | nil => rfl
  | snoc _ hlast ih =>
    rw [hstep _ _ _ hlast, ih, List.length_append]
    rfl

theorem Run.mono (hsub : ∀ s a t, step s a t → step' s a t) (h : Run step s as t) :
    Run step' s as t := by
  induction h with
  | nil => exact .nil
  | snoc _ hlast ih => exact .snoc ih (hsub _ _ _ hlast)

theorem Run.of_guarded {guard : σ → α → Prop} (h : Run (Guarded step guard) s as t) :
    Run step s as t :=
  h.mono fun _ _ _ hstep => hstep.2

end Transition
