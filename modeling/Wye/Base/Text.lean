import Mathlib.Algebra.Group.Int.Defs
import Mathlib.Algebra.Group.Nat.Defs
import Mathlib.Data.List.Basic
import Mathlib.Data.List.Infix
import Mathlib.Data.List.TakeWhile

/-!
# Text

A `std::string` is a list of characters; a byte is a character below `256`. The functions here are
the ones of `std::string` and of Python's `str` that the models use, and the facts about splitting
at a separator that hold of any text.
-/

namespace Text

/-- A `std::string`. -/
abbrev Str := List Char

/-- `std::string::npos`, the `size_t` that stands for "not found". -/
def npos : Nat := 2 ^ 64 - 1

/-- `s.find(c)`. -/
def find (c : Char) (s : Str) : Nat := (s.findIdx? (· == c)).getD npos

/-- The `int` a `size_t` is converted to. -/
def toInt (n : Nat) : Int := (BitVec.ofNat 32 n).toInt

/-- A C string ends at its first NUL. -/
def cString (s : Str) : Str := s.takeWhile (· ≠ Char.ofNat 0)

/-- Python's `s.split(sep, 1)`. -/
def splitOnce (sep : Char) (s : Str) : List Str :=
  if sep ∈ s then [s.takeWhile (· ≠ sep), (s.dropWhile (· ≠ sep)).tail] else [s]

/-- `sep.join(parts)`. -/
def join (sep : Char) (parts : List Str) : Str := [sep].intercalate parts

/-! ### Joined texts -/

@[simp] theorem join_nil (sep : Char) : join sep [] = [] := rfl

@[simp] theorem join_singleton (sep : Char) (x : Str) : join sep [x] = x := by
  simp [join]

theorem join_cons_cons (sep : Char) (x y : Str) (ys : List Str) :
    join sep (x :: y :: ys) = x ++ sep :: join sep (y :: ys) := by
  simp [join, List.intercalate_cons_cons]

theorem join_append_cons (sep : Char) {xs : List Str} (hxs : xs ≠ []) (y : Str) (ys : List Str) :
    join sep (xs ++ y :: ys) = join sep xs ++ sep :: join sep (y :: ys) := by
  induction xs with
  | nil => exact absurd rfl hxs
  | cons x xs ih =>
    cases xs with
    | nil => rw [List.singleton_append, join_cons_cons, join_singleton]
    | cons x' xs =>
      rw [List.cons_append, List.cons_append, join_cons_cons, ← List.cons_append, ih (by simp),
        join_cons_cons, List.append_assoc]
      rfl

theorem notMem_join {sep c : Char} (hc : c ≠ sep) {xs : List Str} (h : ∀ x ∈ xs, c ∉ x) :
    c ∉ join sep xs := by
  induction xs with
  | nil => exact List.not_mem_nil
  | cons x xs ih =>
    obtain ⟨hx, hxs⟩ := List.forall_mem_cons.mp h
    cases xs with
    | nil => rwa [join_singleton]
    | cons y ys =>
      rw [join_cons_cons, List.mem_append, List.mem_cons]
      rintro (hmem | hmem | hmem)
      · exact hx hmem
      · exact hc hmem
      · exact ih hxs hmem

theorem notMem_of_mem_splitOn {sep : Char} {s x : Str} (h : x ∈ s.splitOn sep) : sep ∉ x := by
  induction s generalizing x with
  | nil => simp_all
  | cons c s ih =>
    rw [List.splitOn_cons_eq_if_modifyHead] at h
    split at h
    · rcases List.mem_cons.mp h with rfl | h
      · exact List.not_mem_nil
      · exact ih h
    · rename_i hc
      obtain ⟨y, ys, hy⟩ := List.exists_cons_of_ne_nil (List.splitOn_ne_nil sep s)
      rw [hy] at h ih
      rcases List.mem_cons.mp h with rfl | h
      · rw [List.mem_cons, not_or]
        exact ⟨fun heq => hc (by simp [heq]), ih List.mem_cons_self⟩
      · exact ih (List.mem_cons_of_mem y h)

/-- What has been joined is split again, unless there is nothing to join or a part holds the
separator. -/
theorem splitOn_join_iff {sep : Char} {xs : List Str} :
    (join sep xs).splitOn sep = xs ↔ xs ≠ [] ∧ ∀ x ∈ xs, sep ∉ x := by
  constructor
  · intro h
    refine ⟨?_, fun x hx => notMem_of_mem_splitOn (s := join sep xs) (h.symm ▸ hx)⟩
    rintro rfl
    exact List.splitOn_ne_nil sep _ h
  · rintro ⟨hne, hxs⟩
    exact List.splitOn_intercalate sep hxs hne

/-! ### The first separator -/

theorem findIdx?_append_cons {c : Char} {a b : Str} (ha : c ∉ a) :
    (a ++ c :: b).findIdx? (· == c) = some a.length := by
  induction a with
  | nil => simp [List.findIdx?_cons]
  | cons x a ih =>
    have hx : x ≠ c := fun h => ha (by simp [h])
    have ha' : c ∉ a := fun h => ha (List.mem_cons_of_mem _ h)
    rw [List.cons_append, List.findIdx?_cons, ih ha']
    simp [hx]

theorem find_append_cons {c : Char} {a b : Str} (ha : c ∉ a) : find c (a ++ c :: b) = a.length := by
  rw [find, findIdx?_append_cons ha, Option.getD_some]

theorem find_of_notMem {c : Char} {s : Str} (hs : c ∉ s) : find c s = npos := by
  have h : s.findIdx? (· == c) = none := by
    rw [List.findIdx?_eq_none_iff]
    intro x hx
    simp only [beq_eq_false_iff_ne]
    rintro rfl
    exact hs hx
  rw [find, h, Option.getD_none]

/-- A text that holds the separator is what stands before the first one, the separator, and the
rest. -/
theorem exists_first {c : Char} {s : Str} (hs : c ∈ s) : ∃ a b, s = a ++ c :: b ∧ c ∉ a := by
  induction s with
  | nil => simp at hs
  | cons x s ih =>
    by_cases hx : x = c
    · exact ⟨[], s, by simp [hx], by simp⟩
    · obtain ⟨a, b, rfl, ha⟩ := ih (by simpa [Ne.symm hx] using hs)
      exact ⟨x :: a, b, rfl, by simp [Ne.symm hx, ha]⟩

theorem forall_ne {c : Char} {s : Str} (hs : c ∉ s) : ∀ x ∈ s, decide (x ≠ c) = true := by
  intro x hx
  refine decide_eq_true ?_
  rintro rfl
  exact hs hx

theorem takeWhile_append_cons {c : Char} {a : Str} (ha : c ∉ a) (b : Str) :
    (a ++ c :: b).takeWhile (· ≠ c) = a ∧ ((a ++ c :: b).dropWhile (· ≠ c)).tail = b := by
  rw [List.takeWhile_append_of_pos (forall_ne ha), List.dropWhile_append_of_pos (forall_ne ha)]
  simp

theorem splitOnce_append_cons {c : Char} {a : Str} (ha : c ∉ a) (b : Str) :
    splitOnce c (a ++ c :: b) = [a, b] := by
  obtain ⟨htake, hdrop⟩ := takeWhile_append_cons ha b
  rw [splitOnce, if_pos (by simp), htake, hdrop]

theorem first_unique {c : Char} {a b a' b' : Str} (ha : c ∉ a) (ha' : c ∉ a')
    (h : a ++ c :: b = a' ++ c :: b') : a = a' ∧ b = b' := by
  have hlen : a.length = a'.length := by
    rw [← find_append_cons (b := b) ha, h, find_append_cons ha']
  obtain ⟨rfl, hb⟩ := List.append_inj h hlen
  exact ⟨rfl, (List.cons.inj hb).2⟩

theorem toInt_eq (n : Nat) :
    toInt n = if n % 2 ^ 32 < 2 ^ 31 then (n % 2 ^ 32 : Int) else (n % 2 ^ 32 : Int) - 2 ^ 32 := by
  rw [toInt, BitVec.toInt_eq_toNat_cond, BitVec.toNat_ofNat]
  split <;> split <;> omega

theorem toInt_npos : toInt npos = -1 := by decide

/-! ### Lines -/

/-- A line read by `std::getline`, and whether a newline ended it. -/
structure Line where
  text : Str
  terminated : Bool
  deriving DecidableEq, Repr

/-- A line as it stands in the stream. -/
def Line.whole (l : Line) : Str := if l.terminated then l.text ++ ['\n'] else l.text

/-- The lines of a stream, as `std::getline` reads them up to the end of the stream. -/
def lines : Str → List Line
  | [] => []
  | c :: s =>
    if c = '\n' then ⟨[], true⟩ :: lines s
    else
      match lines s with
      | [] => [⟨[c], false⟩]
      | l :: ls => ⟨c :: l.text, l.terminated⟩ :: ls

theorem lines_append_newline {a : Str} (ha : '\n' ∉ a) (s : Str) :
    lines (a ++ '\n' :: s) = ⟨a, true⟩ :: lines s := by
  induction a with
  | nil => rfl
  | cons c a ih =>
    rw [List.mem_cons, not_or] at ha
    rw [List.cons_append, lines, if_neg (Ne.symm ha.1), ih ha.2]

theorem lines_of_notMem {s : Str} (hs : '\n' ∉ s) (hne : s ≠ []) : lines s = [⟨s, false⟩] := by
  induction s with
  | nil => exact absurd rfl hne
  | cons c s ih =>
    rw [List.mem_cons, not_or] at hs
    rw [lines, if_neg (Ne.symm hs.1)]
    cases s with
    | nil => rfl
    | cons d s => rw [ih hs.2 (by simp)]

theorem lines_cases (s : Str) :
    s = [] ∨ (s ≠ [] ∧ '\n' ∉ s ∧ lines s = [⟨s, false⟩]) ∨
      ∃ a b, s = a ++ '\n' :: b ∧ '\n' ∉ a ∧ lines s = ⟨a, true⟩ :: lines b := by
  by_cases hs : '\n' ∈ s
  · obtain ⟨a, b, rfl, ha⟩ := exists_first hs
    exact .inr (.inr ⟨a, b, rfl, ha, lines_append_newline ha b⟩)
  · by_cases hne : s = []
    · exact .inl hne
    · exact .inr (.inl ⟨hne, hs, lines_of_notMem hs hne⟩)

theorem flatMap_lines (s : Str) : (lines s).flatMap Line.whole = s := by
  induction hlen : s.length using Nat.strong_induction_on generalizing s with
  | _ k ih =>
    rcases lines_cases s with rfl | ⟨-, -, hlines⟩ | ⟨a, b, rfl, -, hlines⟩
    · rfl
    · rw [hlines]
      exact List.append_nil s
    · have hshort : b.length < k := by
        rw [← hlen, List.length_append, List.length_cons]
        omega
      rw [hlines, List.flatMap_cons, ih b.length hshort b rfl]
      exact List.append_assoc a ['\n'] b

/-! ### C strings -/

theorem cString_of_notMem {s : Str} (hs : Char.ofNat 0 ∉ s) : cString s = s :=
  List.takeWhile_eq_self_iff.mpr (forall_ne hs)

theorem cString_append_cons {a : Str} {c : Char} (ha : Char.ofNat 0 ∉ a) (hc : c ≠ Char.ofNat 0)
    (b : Str) : cString (a ++ c :: b) = a ++ c :: cString b := by
  have hcut : cString (c :: b) = c :: cString b :=
    List.takeWhile_cons_of_pos (p := fun x => decide (x ≠ Char.ofNat 0)) (decide_eq_true hc)
  rw [← hcut]
  exact List.takeWhile_append_of_pos (forall_ne ha)

end Text
