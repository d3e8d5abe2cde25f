import Mathlib.Order.Basic
import Mathlib.Tactic.TypeStar

/-!
# Code that takes locks

A shared state has one component for each mutex. An operation takes mutexes, runs code on the state,
and returns; what it holds is given back when it has returned. `WellLocked` says that it takes
mutexes in ascending order and touches only the components whose mutexes it holds, and `Code.exec` is
the operation run alone.
-/

namespace Locking

/-- A state with a component for each mutex. -/
abbrev State {ι : Type*} (V : ι → Type*) := (i : ι) → V i

/-- The code of an operation. -/
inductive Code {ι : Type*} (V : ι → Type*) (ρ : Type*) where
  /-- Return, or leave by an exception. -/
  | ret (r : ρ)
  | acquire (i : ι) (k : Code V ρ)
  /-- Run code on the state, and go on as the state before it says. -/
  | body (f : State V → State V) (k : State V → Code V ρ)

variable {ι : Type*} {V : ι → Type*} {ρ : Type*}

/-- The operation run alone. -/
def Code.exec : Code V ρ → State V → State V × ρ
  | .ret r, s => (s, r)
  | .acquire _ k, s => k.exec s
  | .body f k, s => (k s).exec (f s)

/-- Two states agree on the components of some mutexes. -/
def Agree (held : List ι) (s t : State V) : Prop := ∀ i ∈ held, s i = t i

/-- A state, with the components of some mutexes taken from another. -/
def overlay [DecidableEq ι] (held : List ι) (s t : State V) : State V :=
  fun i => if i ∈ held then t i else s i

/-- The code takes mutexes in ascending order, and touches only what it holds. -/
def WellLocked [Preorder ι] : List ι → Code V ρ → Prop
  | _, .ret _ => True
  | held, .acquire i k => (∀ h ∈ held, h < i) ∧ WellLocked (i :: held) k
  | held, .body f k =>
    (∀ s, ∀ i, i ∉ held → f s i = s i) ∧
      (∀ s t, Agree held s t → Agree held (f s) (f t) ∧ k s = k t) ∧ ∀ s, WellLocked held (k s)

/-! ### Agreement and overlays -/

theorem Agree.refl (held : List ι) (s : State V) : Agree held s s := fun _ _ => rfl

theorem Agree.symm {held : List ι} {s t : State V} (h : Agree held s t) : Agree held t s :=
  fun i hi => (h i hi).symm

theorem Agree.trans {held : List ι} {s t u : State V} (h : Agree held s t) (h' : Agree held t u) :
    Agree held s u := fun i hi => (h i hi).trans (h' i hi)

theorem Agree.mono {held taken : List ι} {s t : State V} (h : Agree taken s t)
    (hsub : ∀ i ∈ held, i ∈ taken) : Agree held s t := fun i hi => h i (hsub i hi)

section
variable [DecidableEq ι] {held taken : List ι} {s t u : State V}

theorem overlay_mem {i : ι} (h : i ∈ held) : overlay held s t i = t i := if_pos h

theorem overlay_notMem {i : ι} (h : i ∉ held) : overlay held s t i = s i := if_neg h

@[simp] theorem overlay_nil (s t : State V) : overlay [] s t = s := by
  funext i
  exact overlay_notMem (by simp)

theorem agree_overlay (held : List ι) (s t : State V) : Agree held (overlay held s t) t :=
  fun _ hi => overlay_mem hi

theorem agree_overlay_of_disjoint (h : ∀ i ∈ taken, i ∉ held) : Agree taken (overlay held s t) s :=
  fun i hi => overlay_notMem (h i hi)

theorem overlay_congr (h : Agree held t u) : overlay held s t = overlay held s u := by
  funext i
  by_cases hi : i ∈ held
  · rw [overlay_mem hi, overlay_mem hi, h i hi]
  · rw [overlay_notMem hi, overlay_notMem hi]

theorem overlay_comm (h : ∀ i ∈ held, i ∉ taken) :
    overlay taken (overlay held s t) u = overlay held (overlay taken s u) t := by
  funext i
  by_cases hi : i ∈ held
  · rw [overlay_notMem (h i hi), overlay_mem hi, overlay_mem hi]
  · rw [overlay_notMem (s := overlay taken s u) hi]
    by_cases hi' : i ∈ taken
    · rw [overlay_mem hi', overlay_mem hi']
    · rw [overlay_notMem hi', overlay_notMem hi, overlay_notMem hi']

theorem overlay_cons {i : ι} (h : s i = t i) : overlay (i :: held) s t = overlay held s t := by
  funext j
  by_cases hj : j ∈ held
  · rw [overlay_mem hj, overlay_mem (List.mem_cons_of_mem _ hj)]
  · rw [overlay_notMem hj]
    by_cases hji : j = i
    · subst hji
      rw [overlay_mem List.mem_cons_self, h]
    · rw [overlay_notMem]
      simp [hji, hj]

end

/-! ### Well-locked code -/

/-- A body that touches only what it holds does to an overlay what it does to the overlaid state. -/
theorem WellLocked.body_overlay [Preorder ι] [DecidableEq ι] {held : List ι}
    {f : State V → State V} {k : State V → Code V ρ} (h : WellLocked held (.body f k))
    (s t : State V) :
    f (overlay held s t) = overlay held s (f t) ∧ k (overlay held s t) = k t := by
  obtain ⟨hframe, hlocal, -⟩ := h
  obtain ⟨hf, hk⟩ := hlocal _ _ (agree_overlay held s t)
  refine ⟨?_, hk⟩
  funext i
  by_cases hi : i ∈ held
  · rw [overlay_mem hi, hf i hi]
  · rw [overlay_notMem hi, hframe _ i hi, overlay_notMem hi]

end Locking
