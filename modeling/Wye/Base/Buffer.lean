import Mathlib.Data.List.Basic
import Mathlib.Tactic.TypeStar

/-!
# Parts of a buffer

A buffer is a list of a fixed length. A part of it is looked at (`view`), written over (`overwrite`),
or copied to another place in it (`copyN`).
-/

namespace Buffer

variable {α : Type*} {b bytes : List α} {start size k n : Nat}

/-- The part of a length that begins at a place. -/
def view (b : List α) (start size : Nat) : List α := (b.drop start).take size

/-- Other elements in place of the ones from `start` on. -/
def overwrite (b : List α) (start : Nat) (bytes : List α) : List α :=
  b.take start ++ bytes ++ b.drop (start + bytes.length)

/-- `std::copy_n` to a place that is not behind the first element. A copy onto itself changes
nothing. -/
def copyN (b : List α) (first count result : Nat) : Option (List α) :=
  if first + count ≤ b.length ∧ result ≤ first then some (overwrite b result (view b first count))
  else none

theorem length_view (h : start + size ≤ b.length) : (view b start size).length = size := by
  rw [view, List.length_take, List.length_drop]
  omega

theorem drop_view (k : Nat) : (view b start size).drop k = view b (start + k) (size - k) := by
  rw [view, view, List.drop_take, List.drop_drop]

theorem take_view (h : k ≤ size) : (view b start size).take k = view b start k := by
  rw [view, view, List.take_take, Nat.min_eq_left h]

theorem view_append (b : List α) (start k n : Nat) :
    view b start (k + n) = view b start k ++ view b (start + k) n := by
  rw [view, view, view, List.take_add, List.drop_drop]

theorem length_overwrite (h : start + bytes.length ≤ b.length) :
    (overwrite b start bytes).length = b.length := by
  rw [overwrite, List.length_append, List.length_append, List.length_take, List.length_drop]
  omega

theorem view_overwrite (h : start + bytes.length ≤ b.length) :
    view (overwrite b start bytes) start bytes.length = bytes := by
  have hlen : (b.take start).length = start := by
    rw [List.length_take]
    omega
  rw [view, overwrite, List.append_assoc, List.drop_left' hlen, List.take_left]

theorem view_overwrite_before (h : start ≤ b.length) (hk : k + n ≤ start) :
    view (overwrite b start bytes) k n = view b k n := by
  have hlen : (b.take start).length = start := by
    rw [List.length_take]
    omega
  rw [view, view, overwrite, List.append_assoc, List.drop_append_of_le_length (by omega),
    List.take_append_of_le_length (by rw [List.length_drop]; omega), List.drop_take,
    List.take_take, Nat.min_eq_left (by omega)]

theorem view_overwrite_behind (h : start + bytes.length ≤ b.length)
    (hk : start + bytes.length ≤ k) : view (overwrite b start bytes) k n = view b k n := by
  have hlen : (b.take start ++ bytes).length = start + bytes.length := by
    rw [List.length_append, List.length_take]
    omega
  obtain ⟨m, rfl⟩ := Nat.exists_eq_add_of_le hk
  rw [view, view, overwrite, ← List.drop_drop, List.drop_left' hlen, List.drop_drop]

theorem copyN_eq {first count result : Nat} (h : first + count ≤ b.length) (hr : result ≤ first) :
    copyN b first count result = some (overwrite b result (view b first count)) := if_pos ⟨h, hr⟩

end Buffer
