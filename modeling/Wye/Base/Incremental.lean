import Wye.Base.Transition
import Mathlib.Data.List.Basic

/-!
# Readers that are given their input in pieces

A reader looks at the input that it has at hand. It asks for more, or it takes some of it and moves
on, or it fails. It is `Stable` when input that comes behind what is at hand changes none of its
decisions but the one to ask for more. Then a run over what is at hand is a run over all of the input
(`Stable.run_append`), and where it comes to does not depend on how far it has got before
(`run_comparable`, `run_unique`).
-/

namespace Incremental

open Transition

variable {σ κ ε α : Type*}

/-- What a reader does next. -/
inductive Move (σ κ ε : Type*) where
  | more
  | take (k : κ) (n : Nat) (s : σ)
  | fail (e : ε)
  deriving DecidableEq, Repr

/-- A reader takes the front of what is at hand, and says what it was. -/
def Step (move : σ → List α → Move σ κ ε) (c : σ × List α) (k : κ) (d : σ × List α) : Prop :=
  ∃ n s, move c.1 c.2 = .take k n s ∧ d = (s, c.2.drop n)

/-- What comes behind the input at hand does not change a decision. -/
structure Stable (move : σ → List α → Move σ κ ε) : Prop where
  le : ∀ {s a k n t}, move s a = .take k n t → n ≤ a.length
  take : ∀ {s a k n t}, move s a = .take k n t → ∀ b, move s (a ++ b) = .take k n t
  fail : ∀ {s a e}, move s a = .fail e → ∀ b, move s (a ++ b) = .fail e

variable {move : σ → List α → Move σ κ ε} {c d d' : σ × List α} {s t : σ} {a b q : List α}
  {ks ks' : List κ} {k : κ} {e : ε}

theorem Step.of_take {n : Nat} (h : move s a = .take k n t) : Step move (s, a) k (t, a.drop n) :=
  ⟨n, t, h, rfl⟩

theorem run_take {n : Nat} (h : move s a = .take k n t) : Run (Step move) (s, a) [k] (t, a.drop n) :=
  .single (.of_take h)

theorem Step.unique {k' : κ} (h : Step move c k d) (h' : Step move c k' d') : k = k' ∧ d = d' := by
  obtain ⟨n, s, hmove, rfl⟩ := h
  obtain ⟨n', s', hmove', rfl⟩ := h'
  cases hmove.symm.trans hmove'
  exact ⟨rfl, rfl⟩

/-- Of two runs from one place, one goes on from where the other ends. -/
theorem run_comparable (h : Run (Step move) c ks d) (h' : Run (Step move) c ks' d') :
    (∃ l, Run (Step move) d l d' ∧ ks' = ks ++ l) ∨ ∃ l, Run (Step move) d' l d ∧ ks = ks' ++ l := by
  induction h with
  | nil => exact .inl ⟨ks', h', rfl⟩
  | @snoc t u as k hrun hstep ih =>
    rcases ih with ⟨l, hl, rfl⟩ | ⟨l, hl, rfl⟩
    · cases l with
      | nil =>
        cases hl.eq_of_nil
        exact .inr ⟨[k], .single hstep, by simp⟩
      | cons k' l =>
        obtain ⟨v, hv, hrest⟩ := hl.uncons
        obtain ⟨rfl, rfl⟩ := hstep.unique hv
        exact .inl ⟨l, hrest, by simp⟩
    · exact .inr ⟨l ++ [k], .snoc hl hstep, by simp⟩

/-- What has been read says where the reader is. -/
theorem run_eq (h : Run (Step move) c ks d) (h' : Run (Step move) c ks d') : d = d' := by
  rcases run_comparable h h' with ⟨l, hl, heq⟩ | ⟨l, hl, heq⟩
  · rw [List.self_eq_append_right.mp heq] at hl
    exact hl.eq_of_nil
  · rw [List.self_eq_append_right.mp heq] at hl
    exact hl.eq_of_nil.symm

theorem run_of_ended (hended : ∀ k n t, move c.1 c.2 ≠ .take k n t)
    (h : Run (Step move) c ks d) : ks = [] ∧ d = c := by
  cases ks with
  | nil => exact ⟨rfl, h.eq_of_nil.symm⟩
  | cons k ks =>
    obtain ⟨u, ⟨n, t, hmove, -⟩, -⟩ := h.uncons
    exact absurd hmove (hended k n t)

/-- A reader ends in one place. -/
theorem run_unique (h : Run (Step move) c ks d) (hd : ∀ k n t, move d.1 d.2 ≠ .take k n t)
    (h' : Run (Step move) c ks' d') (hd' : ∀ k n t, move d'.1 d'.2 ≠ .take k n t) :
    ks = ks' ∧ d = d' := by
  rcases run_comparable h h' with ⟨l, hl, rfl⟩ | ⟨l, hl, rfl⟩
  · obtain ⟨rfl, rfl⟩ := run_of_ended hd hl
    exact ⟨by simp, rfl⟩
  · obtain ⟨rfl, rfl⟩ := run_of_ended hd' hl
    exact ⟨by simp, rfl⟩

namespace Stable
variable (stable : Stable move)
include stable

theorem step_append (h : Step move (s, a) k (t, q)) (b : List α) :
    Step move (s, a ++ b) k (t, q ++ b) := by
  obtain ⟨n, u, hmove, heq⟩ := h
  cases heq
  refine ⟨n, t, stable.take hmove b, ?_⟩
  rw [List.drop_append_of_le_length (stable.le hmove)]

/-- A run goes the same way when more input is there. -/
theorem run_append (h : Run (Step move) (s, a) ks (t, q)) (b : List α) :
    Run (Step move) (s, a ++ b) ks (t, q ++ b) := by
  generalize hc : (s, a) = c at h
  generalize hd : (t, q) = d at h
  induction h generalizing t q with
  | nil =>
    cases hc.trans hd.symm
    exact .nil
  | @snoc u v as k hrun hstep ih =>
    subst hd
    exact .snoc (ih rfl) (stable.step_append (s := u.1) (a := u.2) hstep b)

end Stable

/-! ### Readers that move alike -/

/-- Two moves that are the same but for where they lead, and lead to places that are related. -/
inductive Move.Alike {τ : Type*} (R : σ → τ → Prop) : Move σ κ ε → Move τ κ ε → Prop
  | more : Alike R .more .more
  | take {k : κ} {n : ℕ} {s : σ} {t : τ} : R s t → Alike R (.take k n s) (.take k n t)
  | fail {e : ε} : Alike R (.fail e) (.fail e)

theorem Move.Alike.more_iff {τ : Type*} {R : σ → τ → Prop} {m : Move σ κ ε} {m' : Move τ κ ε}
    (h : Move.Alike R m m') : m = .more ↔ m' = .more := by
  cases h <;> simp

/-! ### Up to a place -/

/-- The reader that stops behind a token of a kind. -/
def upTo (stop : κ → Bool) (move : σ → List α → Move σ κ ε) (s : σ × Bool) (a : List α) :
    Move (σ × Bool) κ ε :=
  if s.2 then .more
  else
    match move s.1 a with
    | .more => .more
    | .take k n t => .take k n (t, stop k)
    | .fail e => .fail e

section
variable {stop : κ → Bool}

theorem upTo_stopped (s : σ) (a : List α) : upTo stop move (s, true) a = .more := rfl

theorem upTo_more_iff : upTo stop move (s, false) a = .more ↔ move s a = .more := by
  rw [upTo, if_neg Bool.false_ne_true]
  cases move s a <;> simp

theorem upTo_fail_iff : upTo stop move (s, false) a = .fail e ↔ move s a = .fail e := by
  rw [upTo, if_neg Bool.false_ne_true]
  cases move s a <;> simp

theorem upTo_take_iff {n : Nat} {x : σ × Bool} {b : Bool} :
    upTo stop move (s, b) a = .take k n x ↔ b = false ∧ move s a = .take k n x.1 ∧ x.2 = stop k := by
  obtain ⟨t, c⟩ := x
  cases b with
  | true => simp [upTo_stopped]
  | false =>
    rw [upTo, if_neg Bool.false_ne_true]
    cases hmove : move s a with
    | more => simp
    | fail e => simp
    | take k' n' t' =>
      simp only [Move.take.injEq, Prod.mk.injEq, true_and]
      constructor
      · rintro ⟨rfl, rfl, rfl, rfl⟩
        exact ⟨⟨rfl, rfl, rfl⟩, rfl⟩
      · rintro ⟨⟨rfl, rfl, rfl⟩, rfl⟩
        exact ⟨rfl, rfl, rfl, rfl⟩

theorem Stable.upTo (stable : Stable move) : Stable (upTo stop move) where
  le h := stable.le (upTo_take_iff.mp h).2.1
  take h b := by
    obtain ⟨hx, hmove, hstop⟩ := upTo_take_iff.mp h
    exact upTo_take_iff.mpr ⟨hx, stable.take hmove b, hstop⟩
  fail := by
    rintro ⟨s, c⟩ a e h b
    cases c with
    | true => cases h
    | false => exact upTo_fail_iff.mpr (stable.fail (upTo_fail_iff.mp h) b)

theorem Step.upTo (h : Step move (s, a) k (t, q)) :
    Step (upTo stop move) ((s, false), a) k ((t, stop k), q) := by
  obtain ⟨n, u, hmove, heq⟩ := h
  cases heq
  exact ⟨n, (t, stop k), upTo_take_iff.mpr ⟨rfl, hmove, rfl⟩, rfl⟩

theorem run_upTo (h : Run (Step move) (s, a) ks (t, q)) (hks : ∀ k ∈ ks, stop k = false) :
    Run (Step (upTo stop move)) ((s, false), a) ks ((t, false), q) := by
  generalize hc : (s, a) = c at h
  generalize hd : (t, q) = d at h
  induction h generalizing t q with
  | nil =>
    cases hc.trans hd.symm
    exact .nil
  | @snoc u v as k hrun hstep ih =>
    subst hd
    have hlast : Step (upTo stop move) ((u.1, false), u.2) k ((t, stop k), q) := hstep.upTo
    rw [hks k (by simp)] at hlast
    exact .snoc (ih (fun k' hk' => hks k' (by simp [hk'])) rfl) hlast

theorem run_of_upTo {x y : σ × Bool} (h : Run (Step (upTo stop move)) (x, a) ks (y, q)) :
    Run (Step move) (x.1, a) ks (y.1, q) := by
  generalize hc : (x, a) = c at h
  generalize hd : (y, q) = d at h
  induction h generalizing y q with
  | nil =>
    cases hc.trans hd.symm
    exact .nil
  | @snoc u v as k hrun hstep ih =>
    subst hd
    obtain ⟨n, w, hmove, heq⟩ := hstep
    cases heq
    exact .snoc (ih rfl) ⟨n, y.1, (upTo_take_iff.mp hmove).2.1, rfl⟩

theorem exists_stop {x : σ × Bool} (h : Run (Step (upTo stop move)) ((s, false), a) ks (x, q))
    (hx : x.2 = true) : ∃ k ∈ ks, stop k = true := by
  generalize hc : ((s, false), a) = c at h
  generalize hd : (x, q) = d at h
  cases h with
  | nil =>
    cases hc.trans hd.symm
    cases hx
  | @snoc u v ks k _ hstep =>
    subst hd
    obtain ⟨n, y, hmove, heq⟩ := hstep
    cases heq
    exact ⟨k, by simp, (upTo_take_iff.mp hmove).2.2.symm.trans hx⟩

end

/-! ### How long a reader goes on -/

/-- A bound on the steps from a place, for a reader that takes nothing only so often in a row. -/
def budget (rank : σ → Nat) (most : Nat) (c : σ × List α) : Nat :=
  (most + 1) * c.2.length + rank c.1

theorem Step.budget_lt {rank : σ → Nat} {most : Nat} (hmost : ∀ s, rank s ≤ most)
    (le : ∀ {s a k n t}, move s a = .take k n t → n ≤ a.length)
    (hrank : ∀ {s a k t}, move s a = .take k 0 t → rank t < rank s) (h : Step move c k d) :
    budget rank most d < budget rank most c := by
  obtain ⟨n, t, hmove, rfl⟩ := h
  rw [budget, budget, List.length_drop]
  rcases Nat.eq_zero_or_pos n with rfl | hn
  · exact Nat.add_lt_add_left (hrank hmove) _
  · have hlen := le hmove
    have ht := hmost t
    have hsplit : (most + 1) * c.2.length = (most + 1) * (c.2.length - n) + (most + 1) * n := by
      rw [← Nat.mul_add, Nat.sub_add_cancel hlen]
    have hone : most + 1 ≤ (most + 1) * n := Nat.le_mul_of_pos_right _ hn
    rw [hsplit, Nat.add_assoc]
    refine Nat.add_lt_add_left ?_ _
    calc rank t < most + 1 := Nat.lt_succ_of_le ht
      _ ≤ (most + 1) * n := hone
      _ ≤ (most + 1) * n + rank c.1 := Nat.le_add_right _ _

theorem run_budget {rank : σ → Nat} {most : Nat} (hmost : ∀ s, rank s ≤ most)
    (le : ∀ {s a k n t}, move s a = .take k n t → n ≤ a.length)
    (hrank : ∀ {s a k t}, move s a = .take k 0 t → rank t < rank s) (h : Run (Step move) c ks d) :
    budget rank most d + ks.length ≤ budget rank most c := by
  induction h with
  | nil => exact Nat.le_refl _
  | snoc _ hstep ih =>
    have hlt := hstep.budget_lt hmost le hrank
    rw [List.length_append, List.length_singleton]
    omega

end Incremental
