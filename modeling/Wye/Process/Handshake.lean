import Wye.Process.Run

/-!
# The start-up handshake

What a worker may send on descriptor 3 before its start counts as successful, as a grammar
(`Handshake`), and what the reading loop makes of a stream: it ends well exactly on the streams of
the grammar (`readLoop_ok_iff`), and the inputs it stores are the ones reported by the lines before
the first line that stops it (`readLoop_inputs`).
-/

namespace Wye

open Text Calls

/-- A position that is still not negative as an `int`. -/
def FitsInt (n : Nat) : Prop := n % 2 ^ 32 < 2 ^ 31

/-- A line after which the loop reads on. -/
inductive StartLine : Str → Prop
  | init : StartLine "INIT".toList
  | input {name : Str} (addr : Str) : ':' ∉ name → FitsInt name.length →
      StartLine ("INPUT:".toList ++ (name ++ ':' :: addr))
  | notice (text : Str) : StartLine ("NOTICE:".toList ++ text)

/-- A stream that starts with lines that the loop reads on after, and then `RUNNING`. -/
inductive Handshake : Str → Prop
  | running (rest : Str) : Handshake ("RUNNING".toList ++ '\n' :: rest)
  | line {l stream : Str} : StartLine l → '\n' ∉ l → Handshake stream →
      Handshake (l ++ '\n' :: stream)

/-- The name and the address that a line reports. -/
def inputOf (l : Str) : Option (Str × Str) :=
  if l.take 6 = "INPUT:".toList then (parseInput (l.drop 6)).toOption else none

/-- Whether the loop reads on after a line. -/
def continues (l : Str) : Bool :=
  l = "INIT".toList || (inputOf l).isSome || l.take 7 = "NOTICE:".toList

/-- The inputs that a worker reports: those of the lines before the first one that stops the loop,
the last address of each name. -/
def reported (stream : Str) : Inputs :=
  (((lines stream).takeWhile fun l => continues l.text).filterMap fun l => inputOf l.text).foldl
    (fun inputs i => inputs.insert i.1 i.2) ∅

/-! ### `INPUT:` lines -/

theorem toInt_of_fits {n : Nat} (h : FitsInt n) : toInt n = (n % 2 ^ 32 : Nat) := by
  unfold FitsInt at h
  rw [toInt_eq, if_pos h]
  norm_cast

theorem toInt_neg {n : Nat} (h : ¬ FitsInt n) : toInt n < 0 := by
  unfold FitsInt at h
  rw [toInt_eq, if_neg h]
  omega

theorem parseInput_append {name : Str} (addr : Str) (hname : ':' ∉ name)
    (hfit : FitsInt name.length) :
    parseInput (name ++ ':' :: addr) = .ok ((name ++ ':' :: addr).take (name.length % 2 ^ 32),
      (name ++ ':' :: addr).drop (name.length % 2 ^ 32 + 1)) := by
  have hpos : toInt (find ':' (name ++ ':' :: addr)) = (name.length % 2 ^ 32 : Nat) := by
    rw [find_append_cons hname, toInt_of_fits hfit]
  unfold parseInput
  rw [hpos, if_neg (by omega), if_neg (by omega)]
  congr 3

theorem parseInput_short {name : Str} (addr : Str) (hname : ':' ∉ name)
    (hlen : name.length < 2 ^ 31) : parseInput (name ++ ':' :: addr) = .ok (name, addr) := by
  have hmod : name.length % 2 ^ 32 = name.length := Nat.mod_eq_of_lt (by omega)
  rw [parseInput_append addr hname (by rw [FitsInt, hmod]; exact hlen), hmod]
  simp

theorem parseInput_isOk_iff (x : Str) :
    (parseInput x).toOption.isSome = true ↔
      ∃ name addr, x = name ++ ':' :: addr ∧ ':' ∉ name ∧ FitsInt name.length := by
  constructor
  · intro h
    by_cases hx : ':' ∈ x
    · obtain ⟨name, addr, rfl, hname⟩ := exists_first hx
      refine ⟨name, addr, rfl, hname, ?_⟩
      by_contra hfit
      have hneg : toInt (find ':' (name ++ ':' :: addr)) < 0 := by
        rw [find_append_cons hname]
        exact toInt_neg hfit
      unfold parseInput at h
      by_cases h₁ : toInt (find ':' (name ++ ':' :: addr)) = -1
      · simp [h₁, Except.toOption] at h
      · simp only [if_neg h₁, if_pos (show toInt (find ':' (name ++ ':' :: addr)) + 1 < 0 by omega)] at h
        simp [Except.toOption] at h
    · unfold parseInput at h
      rw [find_of_notMem hx, toInt_npos] at h
      simp [Except.toOption] at h
  · rintro ⟨name, addr, rfl, hname, hfit⟩
    rw [parseInput_append addr hname hfit]
    rfl

theorem take_eq_iff (l pre : Str) : l.take pre.length = pre ↔ ∃ x, l = pre ++ x := by
  constructor
  · intro h
    refine ⟨l.drop pre.length, ?_⟩
    conv_lhs => rw [← List.take_append_drop pre.length l, h]
  · rintro ⟨x, rfl⟩
    simp

theorem inputOf_of_ne {l : Str} (h : l.take 6 ≠ "INPUT:".toList) : inputOf l = none := by
  rw [inputOf, if_neg h]

theorem inputOf_of_eq {l : Str} (h : l.take 6 = "INPUT:".toList) :
    inputOf l = (parseInput (l.drop 6)).toOption := by
  rw [inputOf, if_pos h]

theorem continues_iff (l : Str) : continues l = true ↔ StartLine l := by
  simp only [continues, Bool.or_eq_true, decide_eq_true_eq]
  constructor
  · rintro ((rfl | h) | h)
    · exact .init
    · unfold inputOf at h
      split at h
      · rename_i htake
        obtain ⟨x, rfl⟩ := (take_eq_iff _ "INPUT:".toList).mp htake
        rw [show ("INPUT:".toList ++ x).drop 6 = x from rfl] at h
        obtain ⟨name, addr, rfl, hname, hfit⟩ := (parseInput_isOk_iff x).mp h
        exact .input addr hname hfit
      · simp at h
    · obtain ⟨x, rfl⟩ := (take_eq_iff _ "NOTICE:".toList).mp h
      exact .notice x
  · rintro (_ | ⟨addr, hname, hfit⟩ | text)
    · exact .inl (.inl rfl)
    · refine .inl (.inr ?_)
      rw [inputOf_of_eq rfl]
      exact (parseInput_isOk_iff _).mpr ⟨_, addr, rfl, hname, hfit⟩
    · exact .inr rfl

/-! ### The loop -/

theorem take_six {l x : Str} (h : l.take 7 = x) : l.take 6 = x.take 6 := by
  rw [← h, List.take_take]
  rfl

theorem continues_eq_false {l : Str} (h₁ : l ≠ "INIT".toList) (h₂ : inputOf l = none)
    (h₃ : l.take 7 ≠ "NOTICE:".toList) : continues l = false := by
  rw [continues, decide_eq_false h₁, h₂, decide_eq_false h₃]
  rfl

/-- What the loop does at a line: it reads on, with the input the line reports, or it stops. -/
theorem readLoop_cons (inputs : Inputs) (l : Line) (ls : List Line) :
    readLoop inputs (l :: ls) =
      if continues l.text then
        readLoop ((inputOf l.text).elim inputs fun i => inputs.insert i.1 i.2) ls
      else ((readLoop inputs [l]).1, inputs) := by
  by_cases h₁ : l.text = "INIT".toList
  · have hc : continues l.text = true := by rw [h₁]; rfl
    have hi : inputOf l.text = none := by rw [h₁]; rfl
    rw [hc, if_pos rfl, hi, readLoop, if_pos h₁]
    rfl
  by_cases h₂ : l.text.take 6 = "INPUT:".toList
  · have hi := inputOf_of_eq h₂
    cases hp : parseInput (l.text.drop 6) with
    | ok i =>
      rw [hp] at hi
      have hc : continues l.text = true := by
        rw [continues, hi]
        simp only [Except.toOption, Option.isSome_some, Bool.or_true, Bool.true_or]
      simp only [hc, if_true, readLoop, if_neg h₁, if_pos h₂, hp, hi]
      rfl
    | error e =>
      rw [hp] at hi
      have h₃ : l.text.take 7 ≠ "NOTICE:".toList := by
        intro h₃
        rw [take_six h₃] at h₂
        exact absurd h₂ (by decide)
      simp only [continues_eq_false h₁ hi h₃, Bool.false_eq_true, if_false, readLoop, if_neg h₁,
        if_pos h₂, hp]
  have hi := inputOf_of_ne h₂
  by_cases h₃ : l.text.take 7 = "NOTICE:".toList
  · have h₄ : l.text.take 6 ≠ "ERROR:".toList := by
      rw [take_six h₃]
      decide
    have hc : continues l.text = true := by
      rw [continues, decide_eq_true h₃, Bool.or_true]
    simp only [hc, if_true, readLoop, if_neg h₁, if_neg h₂, if_neg h₄, if_pos h₃, hi]
    rfl
  · simp only [continues_eq_false h₁ hi h₃, Bool.false_eq_true, if_false, readLoop, if_neg h₁,
      if_neg h₂, if_neg h₃]
    split
    · rfl
    · split <;> rfl

theorem readLoop_stop {inputs : Inputs} {l : Line} (hl : continues l.text = false) :
    (readLoop inputs [l]).1 = .ok false ↔ l = ⟨"RUNNING".toList, true⟩ := by
  obtain ⟨text, terminated⟩ := l
  simp only [continues, Bool.or_eq_false_iff, decide_eq_false_iff_not] at hl
  obtain ⟨⟨h₁, hi⟩, h₃⟩ := hl
  rw [Line.mk.injEq]
  by_cases h₂ : text.take 6 = "INPUT:".toList
  · have hne : text ≠ "RUNNING".toList := by
      rintro rfl
      exact absurd h₂ (by decide)
    rw [inputOf_of_eq h₂] at hi
    cases hp : parseInput (text.drop 6) with
    | ok i =>
      rw [hp] at hi
      exact absurd hi (by simp [Except.toOption])
    | error e =>
      simp only [readLoop, if_neg h₁, if_pos h₂, hp, hne, false_and, reduceCtorEq]
  · simp only [readLoop, if_neg h₁, if_neg h₂, if_neg h₃]
    by_cases h₄ : text.take 6 = "ERROR:".toList
    · have hne : text ≠ "RUNNING".toList := by
        rintro rfl
        exact absurd h₄ (by decide)
      simp only [if_pos h₄, hne, false_and, reduceCtorEq]
    · by_cases h₅ : text = "RUNNING".toList
      · rw [if_neg h₄, if_pos h₅]
        simp only [Except.ok.injEq, Bool.not_eq_false', h₅, true_and]
      · rw [if_neg h₄, if_neg h₅]
        simp only [reduceCtorEq, h₅, false_and]

theorem readLoop_inputs (inputs : Inputs) (ls : List Line) :
    (readLoop inputs ls).2 =
      ((ls.takeWhile fun l => continues l.text).filterMap fun l => inputOf l.text).foldl
        (fun inputs i => inputs.insert i.1 i.2) inputs := by
  induction ls generalizing inputs with
  | nil => rfl
  | cons l ls ih =>
    rw [readLoop_cons]
    cases hc : continues l.text with
    | false => simp [hc]
    | true =>
      rw [if_pos rfl, ih, List.takeWhile_cons, if_pos hc]
      cases hi : inputOf l.text with
      | none => simp [hi]
      | some i => simp [hi]

theorem handshake_inputs (stream : Str) : (handshake ∅ stream).2 = reported stream := by
  rw [reported, ← readLoop_inputs, handshake]
  split <;> simp_all

theorem handshake_append_iff {a b : Str} (ha : '\n' ∉ a) :
    Handshake (a ++ '\n' :: b) ↔ a = "RUNNING".toList ∨ StartLine a ∧ Handshake b := by
  constructor
  · intro h
    generalize hs : a ++ '\n' :: b = s at h
    cases h with
    | running rest =>
      left
      exact (first_unique ha (by decide) hs).1
    | line hl hn hrest =>
      obtain ⟨rfl, rfl⟩ := first_unique ha hn hs
      exact .inr ⟨hl, hrest⟩
  · rintro (rfl | ⟨hl, hb⟩)
    · exact .running b
    · exact .line hl ha hb

theorem Handshake.newline_mem {s : Str} (h : Handshake s) : '\n' ∈ s := by
  cases h <;> simp

theorem not_continues_running : continues "RUNNING".toList = false := by decide

/-- The loop ends well exactly on the streams of the grammar. -/
theorem readLoop_ok_iff (inputs : Inputs) (s : Str) :
    (readLoop inputs (lines s)).1 = .ok false ↔ Handshake s := by
  induction hn : s.length using Nat.strong_induction_on generalizing s inputs with
  | _ n ih =>
    rcases lines_cases s with rfl | ⟨hne, hnl, hs⟩ | ⟨a, b, rfl, ha, hs⟩
    · refine iff_of_false (by simp [lines, readLoop]) fun h => ?_
      simpa using h.newline_mem
    · refine iff_of_false ?_ fun h => hnl h.newline_mem
      rw [hs, readLoop_cons]
      cases hc : continues s with
      | true => simp [readLoop]
      | false =>
        intro h
        exact absurd (congrArg Line.terminated ((readLoop_stop hc).mp h)) Bool.false_ne_true
    · rw [hs, readLoop_cons, handshake_append_iff ha]
      cases hc : continues a with
      | true =>
        have hne : a ≠ "RUNNING".toList := by
          rintro rfl
          rw [not_continues_running] at hc
          simp at hc
        have hlen : b.length < n := by
          rw [← hn, List.length_append, List.length_cons]
          omega
        rw [if_pos rfl, ih b.length hlen _ _ rfl]
        simp only [hne, (continues_iff a).mp hc, true_and, false_or]
      | false =>
        have hstart : ¬ StartLine a := fun h => by simp [(continues_iff a).mpr h] at hc
        rw [if_neg Bool.false_ne_true, readLoop_stop hc, Line.mk.injEq]
        simp only [hstart, false_and, or_false, and_true]

theorem handshake_ok_iff (s : Str) : (handshake ∅ s).1 = .ok () ↔ Handshake s := by
  rw [← readLoop_ok_iff ∅ s, handshake]
  split <;> simp_all

theorem handshake_throws {s : Str} (h : ¬ Handshake s) : ∃ e, (handshake ∅ s).1 = .throw e := by
  rw [← readLoop_ok_iff ∅ s] at h
  rw [handshake]
  split
  · exact ⟨_, rfl⟩
  · exact ⟨_, rfl⟩
  · rename_i heq
    exact absurd (by rw [heq]) h

end Wye
