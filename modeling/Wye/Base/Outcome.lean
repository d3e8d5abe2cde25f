import Mathlib.Data.List.Forall2
import Mathlib.Tactic.TypeStar

/-!
# What a call comes back with

A C++ call returns, throws, or never comes back: an assertion fails, `std::terminate` is called, or
a loop does not end.
-/

namespace Calls

/-- Why a call does not come back. -/
inductive Loss where
  | assertion
  | terminate
  | endless
  deriving DecidableEq, Repr

/-- What a call comes back with. -/
inductive Outcome (ε α : Type*) where
  | ok (a : α)
  | throw (e : ε)
  | lost (why : Loss)
  deriving DecidableEq, Repr

namespace Outcome
variable {ε α β γ : Type*}

instance (x : Outcome ε α) (why : Loss) : Decidable (x = .lost why) :=
  match x with
  | .ok _ => isFalse (by simp)
  | .throw _ => isFalse (by simp)
  | .lost why' => decidable_of_iff (why' = why) (by simp)

/-- What follows a call runs only when the call returns. -/
def bind : Outcome ε α → (α → Outcome ε β) → Outcome ε β
  | .ok a, f => f a
  | .throw e, _ => .throw e
  | .lost why, _ => .lost why

@[simp] theorem bind_ok (a : α) (f : α → Outcome ε β) : (Outcome.ok a).bind f = f a := rfl
@[simp] theorem bind_throw (e : ε) (f : α → Outcome ε β) : (Outcome.throw e).bind f = .throw e := rfl
@[simp] theorem bind_lost (why : Loss) (f : α → Outcome ε β) :
    (Outcome.lost why).bind f = .lost why := rfl

theorem bind_assoc (x : Outcome ε α) (f : α → Outcome ε β) (g : β → Outcome ε γ) :
    (x.bind f).bind g = x.bind fun a => (f a).bind g := by
  cases x <;> rfl

theorem bind_eq_ok {x : Outcome ε α} {f : α → Outcome ε β} {b : β} :
    x.bind f = .ok b ↔ ∃ a, x = .ok a ∧ f a = .ok b := by
  cases x <;> simp

/-- The call's answer, when it returns. -/
def map (f : α → β) (x : Outcome ε α) : Outcome ε β := x.bind fun a => .ok (f a)

@[simp] theorem map_ok (f : α → β) (a : α) : (Outcome.ok a : Outcome ε α).map f = .ok (f a) := rfl
@[simp] theorem map_throw (f : α → β) (e : ε) : (Outcome.throw e : Outcome ε α).map f = .throw e := rfl
@[simp] theorem map_lost (f : α → β) (why : Loss) :
    (Outcome.lost why : Outcome ε α).map f = .lost why := rfl

/-- Run a call on every element of a list, in order, passing a value along. -/
def foldl (f : β → α → Outcome ε β) : β → List α → Outcome ε β
  | b, [] => .ok b
  | b, a :: as => (f b a).bind fun b' => foldl f b' as

@[simp] theorem foldl_nil (f : β → α → Outcome ε β) (b : β) : foldl f b [] = .ok b := rfl

@[simp] theorem foldl_cons (f : β → α → Outcome ε β) (b : β) (a : α) (as : List α) :
    foldl f b (a :: as) = (f b a).bind fun b' => foldl f b' as := rfl

theorem foldl_append (f : β → α → Outcome ε β) (b : β) (as bs : List α) :
    foldl f b (as ++ bs) = (foldl f b as).bind fun b' => foldl f b' bs := by
  induction as generalizing b with
  | nil => rfl
  | cons a as ih => simp only [List.cons_append, foldl_cons, bind_assoc, ih]

/-- Run a call on every element of a list, in order, and keep the answers. -/
def traverse (f : α → Outcome ε β) : List α → Outcome ε (List β)
  | [] => .ok []
  | a :: as => (f a).bind fun b => (traverse f as).map fun bs => b :: bs

theorem map_eq_ok {f : α → β} {x : Outcome ε α} {b : β} :
    x.map f = .ok b ↔ ∃ a, x = .ok a ∧ f a = b := by
  cases x <;> simp

/-- Every call returned, and the answers are in order. -/
theorem traverse_eq_ok {f : α → Outcome ε β} {as : List α} {bs : List β} :
    traverse f as = .ok bs ↔ List.Forall₂ (fun a b => f a = .ok b) as bs := by
  induction as generalizing bs with
  | nil => cases bs <;> simp [traverse]
  | cons a as ih =>
    rw [traverse, bind_eq_ok]
    cases bs with
    | nil => simp [map_eq_ok]
    | cons b bs =>
      rw [List.forall₂_cons]
      constructor
      · rintro ⟨b', hb', h⟩
        obtain ⟨bs', hbs', heq⟩ := map_eq_ok.mp h
        cases heq
        exact ⟨hb', ih.mp hbs'⟩
      · rintro ⟨hb, hbs⟩
        exact ⟨b, hb, map_eq_ok.mpr ⟨bs, ih.mpr hbs, rfl⟩⟩

theorem traverse_filter {f : α → Outcome ε β} {p : α → Bool} {q : β → Bool}
    (hpq : ∀ a b, f a = .ok b → p a = q b) {as : List α} {bs : List β}
    (h : traverse f as = .ok bs) : traverse f (as.filter p) = .ok (bs.filter q) := by
  rw [traverse_eq_ok] at h ⊢
  induction h with
  | nil => exact .nil
  | @cons a b as bs hab _ ih =>
    rw [List.filter_cons, List.filter_cons, hpq a b hab]
    split
    · exact .cons hab ih
    · exact ih

/-! ### Calls that only an assertion can stop -/

/-- The call returns, or an assertion fails. -/
def Asserts (x : Outcome ε α) : Prop := (∃ a, x = .ok a) ∨ x = .lost .assertion

theorem asserts_ok (a : α) : (Outcome.ok a : Outcome ε α).Asserts := .inl ⟨a, rfl⟩

theorem Asserts.ne_throw {x : Outcome ε α} (h : x.Asserts) (e : ε) : x ≠ .throw e := by
  rcases h with ⟨a, rfl⟩ | rfl <;> simp

theorem Asserts.why {x : Outcome ε α} (h : x.Asserts) {why : Loss} (hx : x = .lost why) :
    why = .assertion := by
  rcases h with ⟨a, rfl⟩ | rfl
  · cases hx
  · cases hx
    rfl

theorem Asserts.ne_terminate {x : Outcome ε α} (h : x.Asserts) : x ≠ .lost .terminate :=
  fun hx => by cases h.why hx

theorem Asserts.bind {x : Outcome ε α} {f : α → Outcome ε β} (hx : x.Asserts)
    (hf : ∀ a, (f a).Asserts) : (x.bind f).Asserts := by
  rcases hx with ⟨a, rfl⟩ | rfl
  · exact hf a
  · exact .inr rfl

theorem Asserts.ite {c : Prop} [Decidable c] {x y : Outcome ε α} (hx : x.Asserts)
    (hy : y.Asserts) : (if c then x else y).Asserts := by
  split
  · exact hx
  · exact hy

theorem asserts_foldl {f : β → α → Outcome ε β} (hf : ∀ b a, (f b a).Asserts) (b : β)
    (as : List α) : (foldl f b as).Asserts := by
  induction as generalizing b with
  | nil => exact asserts_ok b
  | cons a as ih => exact (hf b a).bind ih

end Outcome

end Calls
