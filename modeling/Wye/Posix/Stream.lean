import Wye.Process.Handshake

/-!
# The stream of a worker

`run_process` reads the lines of a worker from a `pistream` while they arrive. What it makes of them does
not depend on the pieces in which `read` brings them, nor on the size of the buffer: it is `handshake` on
the whole stream, and what stands behind the line that decides is still there to be read (`behind`,
`readHandshake_spec`).
-/

namespace Wye

open Text Calls

namespace Posix

/-- `systembuf`: what is in its buffer from `gptr()` to `egptr()`, and the pieces in which `read` brings
the rest, up to the end of the pipe or an error. -/
structure Systembuf where
  bufsize : Nat := 8192
  readBuf : Str := []
  arrives : List Str
  deriving DecidableEq, Repr

namespace Systembuf

/-- `systembuf::underflow`. At the end `read` brings nothing. -/
def underflow (sb : Systembuf) : Option Char × Systembuf :=
  match sb.arrives with
  | [] => (none, sb)
  | x :: xs =>
    let arrives := if x.length ≤ sb.bufsize then xs else x.drop sb.bufsize :: xs
    match x.take sb.bufsize with
    | [] => (none, { sb with arrives })
    | c :: cs => (some c, { sb with readBuf := c :: cs, arrives })

/-- `std::streambuf::sgetc`. -/
def sgetc (sb : Systembuf) : Option Char × Systembuf :=
  match sb.readBuf with
  | [] => sb.underflow
  | c :: _ => (some c, sb)

/-- `std::streambuf::sbumpc` behind `sgetc`. -/
def sbumpc (sb : Systembuf) : Systembuf := { sb with readBuf := sb.readBuf.drop 1 }

/-- What has not been taken yet. -/
def left (sb : Systembuf) : Str := sb.readBuf ++ sb.arrives.flatten

/-- A buffer has room, and before the end `read` brings something. -/
structure Ok (sb : Systembuf) : Prop where
  size : 0 < sb.bufsize
  pieces : [] ∉ sb.arrives

end Systembuf

/-- `pistream`, as far as `std::getline` goes. -/
structure Pistream where
  systembuf : Systembuf
  eofbit : Bool := false
  failbit : Bool := false
  deriving DecidableEq, Repr

namespace Pistream

/-- Characters are taken up to a newline, or to the end. -/
def extract : Nat → Str → Systembuf → Option (Str × Bool × Systembuf)
  | 0, _, _ => none
  | n + 1, line, sb =>
    match sb.sgetc with
    | (none, sb) => some (line, false, sb)
    | (some c, sb) =>
      if c = '\n' then some (line, true, sb.sbumpc) else extract n (line ++ [c]) sb.sbumpc

/-- `std::getline`: a line, if the stream is good behind it. -/
def getline (n : Nat) (out : Pistream) : Option (Option Str × Pistream) :=
  if out.eofbit || out.failbit then some (none, { out with failbit := true })
  else
    match extract n [] out.systembuf with
    | none => none
    | some (line, true, systembuf) => some (some line, { out with systembuf })
    | some ([], false, systembuf) => some (none, ⟨systembuf, true, true⟩)
    | some (line, false, systembuf) => some (some line, ⟨systembuf, true, false⟩)

end Pistream

/-- The loop of `run_process` on its stream. -/
def readStream : Nat → Inputs → Pistream → Option (Except Exn Unit × Inputs × Pistream)
  | 0, _, _ => none
  | n + 1, inputs, out =>
    match out.getline (n + 1) with
    | none => none
    | some (none, out) => some (.ok (), inputs, out)
    | some (some line, out) =>
      if line = "INIT".toList then readStream n inputs out
      else if line.take 6 = "INPUT:".toList then
        match parseInput (line.drop 6) with
        | .error e => some (.error e, inputs, out)
        | .ok (name, input) => readStream n (inputs.insert name input) out
      else if line.take 6 = "ERROR:".toList then
        some (.error (.runtimeError ("Process failed to start: ".toList ++ line.drop 6)), inputs, out)
      else if line.take 7 = "NOTICE:".toList then readStream n inputs out
      else if line = "RUNNING".toList then some (.ok (), inputs, out)
      else some (.error (.runtimeError ("Bad return string: ".toList ++ line)), inputs, out)

/-- The loop, and the checks of the stream behind it. `systembuf` throws nothing, so `out.bad()` is
never set. -/
def readHandshake (n : Nat) (inputs : Inputs) (out : Pistream) :
    Option (Outcome Exn Unit × Inputs × Pistream) :=
  match readStream n inputs out with
  | none => none
  | some (.error e, inputs, out) => some (.throw e, inputs, out)
  | some (.ok (), inputs, out) =>
    if out.eofbit then
      some (.throw (.runtimeError "Process didn't send RUNNING".toList), inputs, out)
    else some (.ok (), inputs, out)

/-- What of a stream stands behind the first line after which the loop does not read on. -/
def behind (stream : Str) : Str :=
  (((lines stream).dropWhile fun l => continues l.text).drop 1).flatMap Line.whole

theorem behind_append_newline {a : Str} (ha : '\n' ∉ a) (b : Str) :
    behind (a ++ '\n' :: b) = if continues a then behind b else b := by
  rw [behind, lines_append_newline ha, List.dropWhile_cons]
  split
  · rfl
  · exact flatMap_lines b

theorem behind_of_notMem {s : Str} (hs : '\n' ∉ s) : behind s = [] := by
  by_cases hne : s = []
  · rw [hne]
    rfl
  · rw [behind, lines_of_notMem hs hne, List.dropWhile_cons]
    split <;> rfl

/-! ### Characters -/

section
variable {sb : Systembuf} {a b s line : Str} {c : Char} {n : Nat}

theorem Systembuf.Ok.sgetc_end (h : sb.Ok) (hleft : sb.left = []) : sb.sgetc = (none, sb) := by
  obtain ⟨bufsize, readBuf, arrives⟩ := sb
  obtain ⟨hread, hflat⟩ := List.append_eq_nil_iff.mp hleft
  dsimp only at hread hflat
  subst hread
  cases arrives with
  | nil => rfl
  | cons x xs =>
    rw [List.flatten_cons, List.append_eq_nil_iff] at hflat
    exact absurd (hflat.1 ▸ List.mem_cons_self) h.pieces

theorem Systembuf.Ok.sgetc_next (h : sb.Ok) (hleft : sb.left = c :: s) :
    ∃ sb' : Systembuf, sb.sgetc = (some c, sb') ∧ sb'.sbumpc.Ok ∧ sb'.sbumpc.left = s := by
  obtain ⟨bufsize, readBuf, arrives⟩ := sb
  cases readBuf with
  | cons d ds =>
    obtain ⟨rfl, hs⟩ := List.cons.inj hleft
    exact ⟨_, rfl, ⟨h.size, h.pieces⟩, hs⟩
  | nil =>
    cases arrives with
    | nil => cases hleft
    | cons x xs =>
      cases x with
      | nil => exact absurd List.mem_cons_self h.pieces
      | cons d ds =>
        obtain ⟨rfl, hs⟩ := List.cons.inj hleft
        obtain ⟨k, rfl⟩ : ∃ k, bufsize = k + 1 := ⟨bufsize - 1, by have := h.size; dsimp only at this; omega⟩
        have hxs : [] ∉ xs := fun hmem => h.pieces (List.mem_cons_of_mem _ hmem)
        refine ⟨_, rfl, ⟨h.size, ?_⟩, ?_⟩
        · dsimp only [Systembuf.sbumpc]
          split
          · exact hxs
          · rename_i hlong
            rw [List.mem_cons, not_or]
            exact ⟨fun hnil => hlong (List.drop_eq_nil_iff.mp hnil.symm), hxs⟩
        · dsimp only [Systembuf.sbumpc, Systembuf.left]
          rw [← hs]
          split
          · rename_i hshort
            rw [List.take_of_length_le (by simpa using hshort)]
            rfl
          · rw [List.drop_succ_cons, List.drop_succ_cons, List.drop_zero, List.flatten_cons,
              ← List.append_assoc, List.take_append_drop]
            rfl

/-! ### Lines -/

theorem extract_newline (h : sb.Ok) (ha : '\n' ∉ a) (hleft : sb.left = a ++ '\n' :: b)
    (hn : a.length < n) : ∃ sb', Pistream.extract n line sb = some (line ++ a, true, sb') ∧ sb'.Ok ∧
      sb'.left = b := by
  induction a generalizing n line sb with
  | nil =>
    obtain ⟨n, rfl⟩ := Nat.exists_eq_add_of_lt hn
    obtain ⟨sb', hget, hok, hleft'⟩ := h.sgetc_next hleft
    refine ⟨_, ?_, hok, hleft'⟩
    rw [Pistream.extract, hget, List.append_nil]
    exact if_pos rfl
  | cons c a ih =>
    rw [List.mem_cons, not_or] at ha
    obtain ⟨n, rfl⟩ := Nat.exists_eq_add_of_lt hn
    obtain ⟨sb', hget, hok, hleft'⟩ := h.sgetc_next hleft
    obtain ⟨sb'', hextract, hok', hleft''⟩ := @ih _ (line ++ [c]) _ hok ha.2 hleft'
      (show a.length < (c :: a).length + n by rw [List.length_cons]; omega)
    refine ⟨sb'', ?_, hok', hleft''⟩
    rw [Pistream.extract, hget]
    dsimp only
    rw [if_neg (Ne.symm ha.1), hextract, List.append_assoc]
    rfl

theorem extract_end (h : sb.Ok) (ha : '\n' ∉ a) (hleft : sb.left = a) (hn : a.length < n) :
    ∃ sb', Pistream.extract n line sb = some (line ++ a, false, sb') ∧ sb'.Ok ∧ sb'.left = [] := by
  induction a generalizing n line sb with
  | nil =>
    obtain ⟨n, rfl⟩ := Nat.exists_eq_add_of_lt hn
    refine ⟨sb, ?_, h, hleft⟩
    rw [Pistream.extract, h.sgetc_end hleft, List.append_nil]
  | cons c a ih =>
    rw [List.mem_cons, not_or] at ha
    obtain ⟨n, rfl⟩ := Nat.exists_eq_add_of_lt hn
    obtain ⟨sb', hget, hok, hleft'⟩ := h.sgetc_next hleft
    obtain ⟨sb'', hextract, hok', hleft''⟩ := @ih _ (line ++ [c]) _ hok ha.2 hleft'
      (show a.length < (c :: a).length + n by rw [List.length_cons]; omega)
    refine ⟨sb'', ?_, hok', hleft''⟩
    rw [Pistream.extract, hget]
    dsimp only
    rw [if_neg (Ne.symm ha.1), hextract, List.append_assoc]
    rfl

theorem getline_newline (h : sb.Ok) (ha : '\n' ∉ a) (hleft : sb.left = a ++ '\n' :: b)
    (hn : a.length < n) : ∃ sb', Pistream.getline n ⟨sb, false, false⟩ =
      some (some a, ⟨sb', false, false⟩) ∧ sb'.Ok ∧ sb'.left = b := by
  obtain ⟨sb', hextract, hok, hleft'⟩ := @extract_newline sb a b [] n h ha hleft hn
  refine ⟨sb', ?_, hok, hleft'⟩
  simp only [Pistream.getline, Bool.or_self, Bool.false_eq_true, if_false, hextract, List.nil_append]

theorem getline_last (h : sb.Ok) (hne : sb.left ≠ []) (hnl : '\n' ∉ sb.left)
    (hn : sb.left.length < n) : ∃ sb', Pistream.getline n ⟨sb, false, false⟩ =
      some (some sb.left, ⟨sb', true, false⟩) ∧ sb'.left = [] := by
  obtain ⟨sb', hextract, -, hleft'⟩ := @extract_end sb sb.left [] n h hnl rfl hn
  obtain ⟨c, s, hcons⟩ := List.exists_cons_of_ne_nil hne
  refine ⟨sb', ?_, hleft'⟩
  simp only [Pistream.getline, Bool.or_self, Bool.false_eq_true, if_false, hextract, List.nil_append,
    hcons]

theorem getline_end (h : sb.Ok) (hleft : sb.left = []) :
    Pistream.getline (n + 1) ⟨sb, false, false⟩ = some (none, ⟨sb, true, true⟩) := by
  have hextract : Pistream.extract (n + 1) [] sb = some ([], false, sb) := by
    rw [Pistream.extract, h.sgetc_end hleft]
  simp only [Pistream.getline, Bool.or_self, Bool.false_eq_true, if_false, hextract]

theorem getline_eof {out : Pistream} (h : out.eofbit = true) :
    out.getline n = some (none, { out with failbit := true }) := by
  rw [Pistream.getline, h, Bool.true_or, if_pos rfl]

/-! ### The loop -/

theorem readStream_line (inputs : Inputs) (line : Str) :
    (continues line = true ∧ ∃ inputs',
      (∀ ended ls, readLoop inputs (⟨line, ended⟩ :: ls) = readLoop inputs' ls) ∧
      ∀ n out out', Pistream.getline (n + 1) out = some (some line, out') →
        readStream (n + 1) inputs out = readStream n inputs' out') ∨
    (continues line = false ∧ ∃ r : Except Exn Unit,
      (∀ ended ls, readLoop inputs (⟨line, ended⟩ :: ls) = (r.map fun _ => !ended, inputs)) ∧
      ∀ n out out', Pistream.getline (n + 1) out = some (some line, out') →
        readStream (n + 1) inputs out = some (r, inputs, out')) := by
  by_cases hinit : line = "INIT".toList
  · refine .inl ⟨by rw [hinit]; rfl, inputs, fun ended ls => ?_, fun n out out' hget => ?_⟩
    · simp only [readLoop, if_pos hinit]
    · simp only [readStream, hget, if_pos hinit]
  by_cases hinput : line.take 6 = "INPUT:".toList
  · have hi := inputOf_of_eq hinput
    cases hparse : parseInput (line.drop 6) with
    | error e =>
      rw [hparse] at hi
      have hnotice : line.take 7 ≠ "NOTICE:".toList := by
        intro hnotice
        rw [take_six hnotice] at hinput
        exact absurd hinput (by decide)
      refine .inr ⟨continues_eq_false hinit hi hnotice, .error e, fun ended ls => ?_,
        fun n out out' hget => ?_⟩
      · simp only [readLoop, if_neg hinit, if_pos hinput, hparse, Except.map]
      · simp only [readStream, hget, if_neg hinit, if_pos hinput, hparse]
    | ok i =>
      rw [hparse] at hi
      have hc : continues line = true := by
        rw [continues, hi]
        simp only [Except.toOption, Option.isSome_some, Bool.or_true, Bool.true_or]
      refine .inl ⟨hc, inputs.insert i.1 i.2, fun ended ls => ?_, fun n out out' hget => ?_⟩
      · simp only [readLoop, if_neg hinit, if_pos hinput, hparse]
      · simp only [readStream, hget, if_neg hinit, if_pos hinput, hparse]
  have hi := inputOf_of_ne hinput
  by_cases herror : line.take 6 = "ERROR:".toList
  · have hnotice : line.take 7 ≠ "NOTICE:".toList := by
      intro hnotice
      rw [take_six hnotice] at herror
      exact absurd herror (by decide)
    refine .inr ⟨continues_eq_false hinit hi hnotice,
      .error (.runtimeError ("Process failed to start: ".toList ++ line.drop 6)),
      fun ended ls => ?_, fun n out out' hget => ?_⟩
    · simp only [readLoop, if_neg hinit, if_neg hinput, if_pos herror, Except.map]
    · simp only [readStream, hget, if_neg hinit, if_neg hinput, if_pos herror]
  by_cases hnotice : line.take 7 = "NOTICE:".toList
  · have hc : continues line = true := by rw [continues, decide_eq_true hnotice, Bool.or_true]
    refine .inl ⟨hc, inputs, fun ended ls => ?_, fun n out out' hget => ?_⟩
    · simp only [readLoop, if_neg hinit, if_neg hinput, if_neg herror, if_pos hnotice]
    · simp only [readStream, hget, if_neg hinit, if_neg hinput, if_neg herror, if_pos hnotice]
  refine .inr ⟨continues_eq_false hinit hi hnotice, ?_⟩
  by_cases hrunning : line = "RUNNING".toList
  · refine ⟨.ok (), fun ended ls => ?_, fun n out out' hget => ?_⟩
    · simp only [readLoop, if_neg hinit, if_neg hinput, if_neg herror, if_neg hnotice,
        if_pos hrunning, Except.map]
    · simp only [readStream, hget, if_neg hinit, if_neg hinput, if_neg herror, if_neg hnotice,
        if_pos hrunning]
  · refine ⟨.error (.runtimeError ("Bad return string: ".toList ++ line)),
      fun ended ls => ?_, fun n out out' hget => ?_⟩
    · simp only [readLoop, if_neg hinit, if_neg hinput, if_neg herror, if_neg hnotice,
        if_neg hrunning, Except.map]
    · simp only [readStream, hget, if_neg hinit, if_neg hinput, if_neg herror, if_neg hnotice,
        if_neg hrunning]

/-- The loop makes of the stream what it makes of its lines, and stops behind the one that decides. -/
theorem readStream_spec (h : sb.Ok) (hn : sb.left.length + 1 < n) (inputs : Inputs) :
    ∃ r inputs' out' a, readStream n inputs ⟨sb, false, false⟩ = some (r, inputs', out') ∧
      out'.systembuf.left = behind sb.left ∧ sb.left = a ++ behind sb.left ∧
      readLoop inputs (lines a) = (r.map fun _ => out'.eofbit, inputs') ∧
      readLoop inputs (lines sb.left) = readLoop inputs (lines a) := by
  induction hlen : sb.left.length using Nat.strong_induction_on generalizing sb n inputs with
  | _ k ih =>
    obtain ⟨n, rfl⟩ : ∃ m, n = m + 1 := ⟨n - 1, by omega⟩
    rcases lines_cases sb.left with hnil | ⟨hne, hnl, hlines⟩ | ⟨a, b, hleft, ha, hlines⟩
    · refine ⟨.ok (), inputs, ⟨sb, true, true⟩, [], ?_, ?_, ?_, rfl, by rw [hnil]⟩
      · simp only [readStream, getline_end h hnil]
      · rw [hnil]
        rfl
      · rw [hnil]
        rfl
    · obtain ⟨sb', hget, hleft'⟩ := getline_last h hne hnl (n := n + 1) (by omega)
      have hbehind := behind_of_notMem hnl
      rcases readStream_line inputs sb.left with ⟨-, inputs', hloop, hstream⟩ | ⟨-, r, hloop, hstream⟩
      · obtain ⟨n, rfl⟩ : ∃ m, n = m + 1 := ⟨n - 1, by omega⟩
        refine ⟨.ok (), inputs', ⟨sb', true, true⟩, sb.left, ?_, hleft'.trans hbehind.symm, ?_, ?_, rfl⟩
        · rw [hstream _ _ _ hget, readStream, getline_eof rfl]
        · rw [hbehind, List.append_nil]
        · rw [hlines, hloop]
          rfl
      · refine ⟨r, inputs, ⟨sb', true, false⟩, sb.left, hstream _ _ _ hget,
          hleft'.trans hbehind.symm, ?_, ?_, rfl⟩
        · rw [hbehind, List.append_nil]
        · rw [hlines, hloop]
          rfl
    · obtain ⟨sb', hget, hok, hleft'⟩ := getline_newline h ha hleft (n := n + 1) (by
        rw [hleft, List.length_append] at hn
        omega)
      have hbehind := behind_append_newline ha b
      rw [← hleft] at hbehind
      rcases readStream_line inputs a with ⟨hc, inputs', hloop, hstream⟩ | ⟨hc, r, hloop, hstream⟩
      · have hshort : sb'.left.length + 1 ≤ sb.left.length := by
          rw [hleft', hleft, List.length_append, List.length_cons]
          omega
        rw [hc, if_pos rfl, ← hleft'] at hbehind
        obtain ⟨r, inputs'', out', a', hread, hrest, hsplit, hends, hsame⟩ :=
          @ih sb'.left.length (by omega) sb' n hok (by omega) inputs' rfl
        refine ⟨r, inputs'', out', a ++ '\n' :: a', (hstream _ _ _ hget).trans hread,
          hrest.trans hbehind.symm, ?_, ?_, ?_⟩
        · rw [hbehind, List.append_assoc, List.cons_append, ← hsplit, hleft', ← hleft]
        · rw [lines_append_newline ha, hloop, hends]
        · rw [hlines, hloop, lines_append_newline ha, hloop, ← hleft', hsame]
      · rw [hc, if_neg Bool.false_ne_true] at hbehind
        refine ⟨r, inputs, ⟨sb', false, false⟩, a ++ ['\n'], hstream _ _ _ hget,
          hleft'.trans hbehind.symm, ?_, ?_, ?_⟩
        · rw [hbehind, List.append_assoc, hleft]
          rfl
        · rw [lines_append_newline ha, hloop]
          rfl
        · rw [hlines, hloop, lines_append_newline ha, hloop]

end

/-- In whatever pieces a worker's lines arrive, they are what they are all together, and what the worker
writes behind the one that decides is not looked at and is left in the stream. -/
theorem readHandshake_spec {sb : Systembuf} (h : sb.Ok) {n : Nat} (hn : sb.left.length + 1 < n)
    (inputs : Inputs) : ∃ out' a,
      readHandshake n inputs { systembuf := sb } =
        some ((handshake inputs sb.left).1, (handshake inputs sb.left).2, out') ∧
      out'.systembuf.left = behind sb.left ∧ sb.left = a ++ behind sb.left ∧
      handshake inputs sb.left = handshake inputs a := by
  obtain ⟨r, inputs', out', a, hread, hrest, hsplit, hends, hsame⟩ := readStream_spec h hn inputs
  refine ⟨out', a, ?_, hrest, hsplit, by rw [handshake, hsame, handshake]⟩
  rw [readHandshake, hread, handshake, hsame, hends]
  cases r with
  | error e => rfl
  | ok u =>
    cases heof : out'.eofbit with
    | false => simp only [Except.map, heof, Bool.false_eq_true, if_false]
    | true => simp only [Except.map, heof, if_true]

/-- Two pieces of a stream, behind which the worker writes something else. -/
theorem readHandshake_pieces : ∃ out',
    readHandshake 40 ∅ { systembuf := { bufsize := 4, arrives := ["INIT\nRUN".toList, "NING\nx".toList] } } =
      some (.ok (), ∅, out') ∧ out'.systembuf.left = "x".toList := by
  obtain ⟨out', a, hread, hrest, -⟩ := @readHandshake_spec
    { bufsize := 4, arrives := ["INIT\nRUN".toList, "NING\nx".toList] } ⟨by decide, by decide⟩ 40
    (by decide) ∅
  exact ⟨out', hread, hrest⟩

end Posix

end Wye
