import Mathlib.Data.List.Forall2
import Wye.Base.Transition

/-!
# Loops that may fail

A computation in `Except` that comes to a result has taken every step of its own: a bind both parts, a
`mapM` one step for each element, and a `foldlM` a run of its body (`run_of_foldlM`), so that invariants
of runs are invariants of loops.
-/

namespace Loops

open Transition

variable {ε α β σ : Type}

theorem bind_eq_ok {x : Except ε α} {f : α → Except ε β} {b : β} :
    (x >>= f) = .ok b ↔ ∃ a, x = .ok a ∧ f a = .ok b := by
  cases x <;> simp [Bind.bind, Except.bind]

theorem mapM_eq_ok {f : α → Except ε β} {as : List α} {bs : List β} :
    as.mapM f = .ok bs ↔ List.Forall₂ (fun a b => f a = .ok b) as bs := by
  induction as generalizing bs with
  | nil =>
    rw [List.mapM_nil, List.forall₂_nil_left_iff]
    exact ⟨fun h => (Except.ok.inj h).symm, fun h => congrArg Except.ok h.symm⟩
  | cons a as ih =>
    rw [List.mapM_cons, bind_eq_ok]
    constructor
    · rintro ⟨b, hb, h⟩
      obtain ⟨rest, hrest, h⟩ := bind_eq_ok.mp h
      cases h
      exact .cons hb (ih.mp hrest)
    · intro h
      cases h with
      | cons hb hrest => exact ⟨_, hb, bind_eq_ok.mpr ⟨_, ih.mpr hrest, rfl⟩⟩

theorem exists_right {R : α → β → Prop} {as : List α} {bs : List β} (h : List.Forall₂ R as bs)
    {a : α} (ha : a ∈ as) : ∃ b ∈ bs, R a b := by
  induction h with
  | nil => exact absurd ha List.not_mem_nil
  | @cons a' b _ bs hab _ ih =>
    rcases List.mem_cons.mp ha with rfl | ha
    · exact ⟨b, List.mem_cons_self, hab⟩
    · obtain ⟨b', hb', hR⟩ := ih ha
      exact ⟨b', List.mem_cons_of_mem b hb', hR⟩

theorem exists_left {R : α → β → Prop} {as : List α} {bs : List β} (h : List.Forall₂ R as bs)
    {b : β} (hb : b ∈ bs) : ∃ a ∈ as, R a b :=
  exists_right h.flip hb

theorem eq_map {R : α → β → Prop} {as : List α} {bs : List β} (h : List.Forall₂ R as bs) {f : α → β}
    (hf : ∀ a ∈ as, ∀ b, R a b → b = f a) : bs = as.map f := by
  induction h with
  | nil => rfl
  | @cons a b as bs hab _ ih =>
    rw [List.map_cons, hf a List.mem_cons_self b hab,
      ih fun a' ha' => hf a' (List.mem_cons_of_mem a ha')]

theorem map_eq_filterMap {γ : Type} {R : α → β → Prop} {as : List α} {bs : List β}
    (h : List.Forall₂ R as bs) {f : α → Option γ} {g : β → γ}
    (hfg : ∀ a ∈ as, ∀ b, R a b → f a = some (g b)) : bs.map g = as.filterMap f := by
  induction h with
  | nil => rfl
  | @cons a b as bs hab _ ih =>
    rw [List.map_cons, List.filterMap_cons_some (hfg a List.mem_cons_self b hab),
      ih fun a' ha' => hfg a' (List.mem_cons_of_mem a ha')]

/-- A loop that comes to a result is a run of its body. -/
theorem run_of_foldlM {f : σ → α → Except ε σ} {as : List α} {s t : σ}
    (h : as.foldlM f s = .ok t) : Run (fun s a t => f s a = .ok t) s as t := by
  induction as generalizing s with
  | nil =>
    cases h
    exact .nil
  | cons a as ih =>
    rw [List.foldlM_cons, bind_eq_ok] at h
    obtain ⟨s', hstep, hrest⟩ := h
    exact .cons hstep (ih hrest)

end Loops
