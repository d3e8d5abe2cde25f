import Mathlib.Data.List.Induction
import Mathlib.Data.List.Pairwise
import Mathlib.Tactic.TypeStar

/-!
# What a history holds

Events enter values under keys and drop them. What is held under a key after a list of events is
computed by following them (`Effects.held`), and it is the value that some event has entered and no
event since has dropped (`Effects.held_iff`), when no key is entered twice.
-/

namespace History
variable {κ ν α : Type*}

/-- What events do to the value under each key. -/
structure Effects (κ ν α : Type*) where
  enters : α → κ → Option ν
  drops : α → κ → ν → Bool

namespace Effects
variable (E : Effects κ ν α) {as : List α} {k : κ} {v : ν}

/-- What is held under a key after one more event. -/
def next (k : κ) (held : Option ν) (a : α) : Option ν :=
  (E.enters a k).or (held.filter fun v => !E.drops a k v)

variable {E} in
theorem next_of_keeps {a : α} (henters : E.enters a k = none) (hdrops : ∀ v, E.drops a k v = false)
    (held : Option ν) : E.next k held a = held := by
  rw [next, henters]
  cases held <;> simp [hdrops]

variable {E} in
theorem next_of_enters {a : α} (henters : E.enters a k = some v) (held : Option ν) :
    E.next k held a = some v := by
  rw [next, henters]
  rfl

/-- What is held under a key after a list of events. -/
def held (as : List α) (k : κ) : Option ν := as.foldl (E.next k) none

/-- The value has been entered under the key, and has not been dropped since. -/
def Holds (as : List α) (k : κ) (v : ν) : Prop :=
  ∃ before a since, as = before ++ a :: since ∧ E.enters a k = some v ∧
    ∀ b ∈ since, E.drops b k v = false

/-- No key is entered twice. -/
def Once (as : List α) : Prop :=
  as.Pairwise fun a b => ∀ k, E.enters a k ≠ none → E.enters b k = none

@[simp] theorem held_nil (k : κ) : E.held [] k = none := rfl

theorem held_concat (as : List α) (a : α) (k : κ) :
    E.held (as ++ [a]) k = E.next k (E.held as k) a := by
  rw [held, List.foldl_append]
  rfl

theorem not_holds_nil : ¬ E.Holds [] k v := by
  rintro ⟨before, a, since, h, -⟩
  simp at h

theorem holds_concat (a : α) : E.Holds (as ++ [a]) k v ↔
    E.enters a k = some v ∨ (E.Holds as k v ∧ E.drops a k v = false) := by
  constructor
  · rintro ⟨before, b, since, h, henters, hdrops⟩
    rcases List.eq_nil_or_concat since with rfl | ⟨since', c, rfl⟩
    · obtain ⟨-, hab⟩ := List.append_inj' h rfl
      cases hab
      exact .inl henters
    · rw [List.concat_eq_append, ← List.cons_append, ← List.append_assoc] at h
      obtain ⟨rfl, hac⟩ := List.append_inj' h rfl
      cases hac
      rw [List.concat_eq_append] at hdrops
      refine .inr ⟨⟨before, b, since', rfl, henters, fun d hd => ?_⟩, ?_⟩
      · exact hdrops d (List.mem_append_left _ hd)
      · exact hdrops a (List.mem_append_right _ List.mem_cons_self)
  · rintro (henters | ⟨⟨before, b, since, rfl, henters, hdrops⟩, hkeep⟩)
    · exact ⟨as, a, [], rfl, henters, by simp⟩
    · refine ⟨before, b, since ++ [a], by simp, henters, fun d hd => ?_⟩
      rcases List.mem_append.mp hd with hd | hd
      · exact hdrops d hd
      · exact List.mem_singleton.mp hd ▸ hkeep

theorem enters_none_of_held {a : α} (honce : E.Once (as ++ [a])) (hheld : E.Holds as k v) :
    E.enters a k = none := by
  obtain ⟨before, b, since, rfl, henters, -⟩ := hheld
  refine (List.pairwise_append.mp honce).2.2 b ?_ a List.mem_cons_self k (by simp [henters])
  simp

/-- What is held is what has been entered and not dropped since. -/
theorem held_iff (honce : E.Once as) : E.held as k = some v ↔ E.Holds as k v := by
  induction as using List.reverseRecOn with
  | nil => exact iff_of_false (by simp) E.not_holds_nil
  | append_singleton as a ih =>
    have ih := ih (List.pairwise_append.mp honce).1
    rw [held_concat, next, holds_concat, ← ih]
    cases henters : E.enters a k with
    | some w =>
      have hno : E.held as k ≠ some v := by
        intro hheld
        have hnone := E.enters_none_of_held honce (ih.mp hheld)
        rw [henters] at hnone
        cases hnone
      simp [hno]
    | none => simp [Option.filter_eq_some_iff]

end Effects

end History
