import Mathlib.Data.List.Basic
import Mathlib.Data.List.Find

/-!
# Descriptor tables

The open files of a process under its descriptors, and the calls that change them. A list of moves, each
of which puts a file under a descriptor and closes others, comes to the same as all of them at once if
no move touches what an earlier one has put in place (`foldl_act`).
-/

namespace Descriptors

variable {α : Type}

/-- A slot for each descriptor that the process may have. -/
abbrev Table (α : Type) := List (Option α)

namespace Table

/-- The file under a descriptor. -/
def entry (t : Table α) (d : Nat) : Option α := t[d]?.join

/-- A file under a descriptor. -/
def put (t : Table α) (d : Nat) (a : α) : Table α := t.set d (some a)

/-- `close`, which fails without effect if nothing is open there. -/
def clear (t : Table α) (d : Nat) : Table α := t.set d none

/-- The lowest descriptor that is free. -/
def free (t : Table α) : Option Nat := t.findIdx? Option.isNone

/-- A new file, under the lowest descriptor that is free. -/
def openNext (t : Table α) (a : α) : Option (Nat × Table α) := t.free.map fun d => (d, t.put d a)

/-- `dup2`. -/
def dup2 (t : Table α) (h d : Nat) : Option (Table α) :=
  if d < t.length then (t.entry h).map (t.put d) else none

section
variable {t t' : Table α} {d h x : Nat} {a : α}

@[simp] theorem length_put : (t.put d a).length = t.length := List.length_set

@[simp] theorem length_clear : (t.clear d).length = t.length := List.length_set

theorem entry_put (hd : d < t.length) : (t.put d a).entry x = if x = d then some a else t.entry x := by
  rw [entry, put, List.getElem?_set]
  by_cases hx : x = d
  · subst hx
    rw [if_pos rfl, if_pos rfl, if_pos hd]
    rfl
  · rw [if_neg (Ne.symm hx), if_neg hx, entry]

theorem entry_clear : (t.clear d).entry x = if x = d then none else t.entry x := by
  rw [entry, clear, List.getElem?_set]
  by_cases hx : x = d
  · subst hx
    rw [if_pos rfl, if_pos rfl]
    split <;> rfl
  · rw [if_neg (Ne.symm hx), if_neg hx, entry]

theorem free_spec (h : t.free = some d) : d < t.length ∧ t.entry d = none := by
  obtain ⟨hd, hnone, -⟩ := List.findIdx?_eq_some_iff_getElem.mp h
  refine ⟨hd, ?_⟩
  rw [entry, List.getElem?_eq_getElem hd, Option.isNone_iff_eq_none.mp hnone]
  rfl

theorem openNext_spec (h : t.openNext a = some (d, t')) :
    d < t.length ∧ t.entry d = none ∧ t' = t.put d a := by
  obtain ⟨d', hfree, heq⟩ := Option.map_eq_some_iff.mp h
  cases heq
  exact ⟨(free_spec hfree).1, (free_spec hfree).2, rfl⟩

theorem dup2_spec (h' : t.dup2 h d = some t') :
    d < t.length ∧ ∃ a, t.entry h = some a ∧ t' = t.put d a := by
  rw [dup2] at h'
  split at h'
  · obtain ⟨a, ha, rfl⟩ := Option.map_eq_some_iff.mp h'
    exact ⟨‹_›, a, ha, rfl⟩
  · cases h'

theorem dup2_eq (hd : d < t.length) (ha : t.entry h = some a) : t.dup2 h d = some (t.put d a) := by
  rw [dup2, if_pos hd, ha]
  rfl

end

end Table

/-! ### Moves -/

/-- A file is put under a descriptor: which one depends on what is under some others. Some are closed
then. -/
structure Move (α : Type) where
  target : Nat
  reads : List Nat
  takes : List Nat
  value : (Nat → Option α) → Option α
  reads_only : ∀ f g, (∀ x ∈ reads, f x = g x) → value f = value g

/-- What is under the descriptors behind a move. -/
def Move.act (f : Nat → Option α) (m : Move α) (x : Nat) : Option α :=
  if x = m.target then m.value f else if x ∈ m.takes then none else f x

/-- Of two moves the later one does not touch what the earlier one has put in place, nor read what it
has closed. -/
structure Move.Apart (m m' : Move α) : Prop where
  target : m.target ≠ m'.target
  reads : m.target ∉ m'.reads
  takes : m.target ∉ m'.takes
  taken : ∀ x ∈ m.takes, x ∉ m'.reads

/-- All moves at once. -/
def together (ms : List (Move α)) (f : Nat → Option α) (x : Nat) : Option α :=
  match ms.find? (·.target = x) with
  | some m => m.value f
  | none => if ∃ m ∈ ms, x ∈ m.takes then none else f x

/-- Moves one after the other are moves at once. -/
theorem foldl_act {ms : List (Move α)} (h : ms.Pairwise Move.Apart) (f : Nat → Option α) :
    ms.foldl Move.act f = together ms f := by
  induction ms generalizing f with
  | nil =>
    funext x
    simp [together]
  | cons m ms ih =>
    obtain ⟨hm, hms⟩ := List.pairwise_cons.mp h
    rw [List.foldl_cons, ih hms]
    funext x
    unfold together
    by_cases hx : m.target = x
    · have hnone : ms.find? (·.target = x) = none := by
        rw [List.find?_eq_none]
        intro m' hm'
        simpa [← hx] using Ne.symm (hm m' hm').target
      have hkept : ¬ ∃ m' ∈ ms, x ∈ m'.takes := by
        rintro ⟨m', hm', hmem⟩
        exact (hm m' hm').takes (hx ▸ hmem)
      rw [hnone, List.find?_cons_of_pos (by simpa using hx)]
      simp only [if_neg hkept, Move.act, if_pos hx.symm]
    · rw [List.find?_cons_of_neg (by simpa using hx)]
      cases hfind : ms.find? (·.target = x) with
      | some m' =>
        have hm' := hm m' (List.mem_of_find?_eq_some hfind)
        refine m'.reads_only _ _ fun y hy => ?_
        have hne : y ≠ m.target := fun heq => hm'.reads (heq ▸ hy)
        rw [Move.act, if_neg hne, if_neg fun hmem => hm'.taken y hmem hy]
      | none =>
        by_cases htaken : ∃ m' ∈ ms, x ∈ m'.takes
        · rw [if_pos htaken, if_pos]
          obtain ⟨m', hm', hmem⟩ := htaken
          exact ⟨m', List.mem_cons_of_mem m hm', hmem⟩
        · rw [if_neg htaken, Move.act, if_neg (Ne.symm hx)]
          by_cases hmem : x ∈ m.takes
          · rw [if_pos hmem, if_pos ⟨m, List.mem_cons_self, hmem⟩]
          · rw [if_neg hmem, if_neg]
            rintro ⟨m', hm', hmem'⟩
            rcases List.mem_cons.mp hm' with rfl | hm'
            · exact hmem hmem'
            · exact htaken ⟨m', hm', hmem'⟩

end Descriptors
