import Wye.Base.Maps
import Wye.Manager.Spec

/-!
# What a worker has to send

The start-up protocol as the authors of workers know it: lines that are `INIT`, a notice, or the report
of an input, and then `RUNNING`. While lines are shorter than `2 ^ 31`, so that a position in one fits
an `int`, this is the grammar of `Handshake`, and `run_process` gets to its reply on the streams of the
grammar and throws on all others. The inputs are then the last address of every name reported before
`RUNNING`.
-/

namespace Wye

open Text Calls

/-- The line that reports an input. -/
def inputLine (name addr : Str) : Str := "INPUT:".toList ++ (name ++ ':' :: addr)

/-- A line that may come before `RUNNING`. -/
def StartupLine (l : Str) : Prop :=
  l = "INIT".toList ∨ (∃ text, l = "NOTICE:".toList ++ text) ∨
    ∃ name addr, ':' ∉ name ∧ l = inputLine name addr

/-- The stream is made of start-up lines, the line `RUNNING`, and a rest. -/
def Startup (ls : List Str) (rest stream : Str) : Prop :=
  (∀ l ∈ ls, StartupLine l ∧ '\n' ∉ l) ∧
    stream = ls.flatMap (· ++ ['\n']) ++ ("RUNNING".toList ++ '\n' :: rest)

/-- The address is the last one that the lines report for the name. -/
def LastReport (ls : List Str) (name addr : Str) : Prop :=
  ∃ before after, ls = before ++ inputLine name addr :: after ∧ ':' ∉ name ∧
    ∀ addr', inputLine name addr' ∉ after

/-! ### Short lines -/

theorem FitsInt.of_lt {n : Nat} (h : n < 2 ^ 31) : FitsInt n := by
  rw [FitsInt, Nat.mod_eq_of_lt (by omega)]
  exact h

theorem name_length_lt {name addr : Str} (h : (inputLine name addr).length < 2 ^ 31) :
    name.length < 2 ^ 31 := by
  have hle : ∀ pre : Str, name.length ≤ (pre ++ (name ++ ':' :: addr)).length := by
    intro pre
    rw [List.length_append, List.length_append]
    omega
  exact lt_of_le_of_lt (hle _) h

theorem startLine_iff {l : Str} (hlen : l.length < 2 ^ 31) : StartLine l ↔ StartupLine l := by
  constructor
  · rintro (_ | ⟨addr, hname, -⟩ | text)
    · exact .inl rfl
    · exact .inr (.inr ⟨_, addr, hname, rfl⟩)
    · exact .inr (.inl ⟨text, rfl⟩)
  · rintro (rfl | ⟨text, rfl⟩ | ⟨name, addr, hname, rfl⟩)
    · exact .init
    · exact .notice text
    · exact .input addr hname (.of_lt (name_length_lt hlen))

theorem inputOf_iff {l name addr : Str} (hlen : l.length < 2 ^ 31) :
    inputOf l = some (name, addr) ↔ ':' ∉ name ∧ l = inputLine name addr := by
  constructor
  · intro h
    by_cases htake : l.take 6 = "INPUT:".toList
    · obtain ⟨x, rfl⟩ := (take_eq_iff l "INPUT:".toList).mp htake
      have hok : (parseInput x).toOption = some (name, addr) := by
        rw [inputOf_of_eq htake] at h
        exact h
      obtain ⟨name', addr', rfl, hname', -⟩ :=
        (parseInput_isOk_iff x).mp (by rw [hok]; rfl)
      rw [parseInput_short addr' hname' (@name_length_lt name' addr' hlen)] at hok
      cases hok
      exact ⟨hname', rfl⟩
    · rw [inputOf_of_ne htake] at h
      cases h
  · rintro ⟨hname, rfl⟩
    have hshort := parseInput_short addr hname (name_length_lt hlen)
    rw [inputOf_of_eq rfl]
    show (parseInput (name ++ ':' :: addr)).toOption = _
    rw [hshort]
    rfl

/-! ### Streams of the grammar -/

theorem lines_startup {ls : List Str} (hls : ∀ l ∈ ls, '\n' ∉ l) (tail : Str) :
    lines (ls.flatMap (· ++ ['\n']) ++ tail) = ls.map (⟨·, true⟩) ++ lines tail := by
  induction ls with
  | nil => rfl
  | cons l ls ih =>
    have hrest := ih fun l' hl' => hls l' (List.mem_cons_of_mem _ hl')
    rw [List.flatMap_cons, List.append_assoc, List.append_assoc, List.singleton_append,
      lines_append_newline (hls l List.mem_cons_self), hrest]
    rfl

theorem Startup.lines_eq {ls : List Str} {rest stream : Str} (h : Startup ls rest stream) :
    lines stream = ls.map (⟨·, true⟩) ++ ⟨"RUNNING".toList, true⟩ :: lines rest := by
  rw [h.2, lines_startup fun l hl => (h.1 l hl).2, lines_append_newline (by decide)]

theorem Startup.cons {l rest stream : Str} {ls : List Str} (hl : StartupLine l) (hn : '\n' ∉ l)
    (h : Startup ls rest stream) : Startup (l :: ls) rest (l ++ '\n' :: stream) := by
  refine ⟨fun l' hl' => ?_, ?_⟩
  · rcases List.mem_cons.mp hl' with rfl | hl'
    · exact ⟨hl, hn⟩
    · exact h.1 l' hl'
  · rw [h.2, List.flatMap_cons, List.append_assoc, List.append_assoc, List.singleton_append]

theorem Startup.short {ls : List Str} {rest stream : Str} (h : Startup ls rest stream)
    (hshort : ∀ l ∈ lines stream, l.text.length < 2 ^ 31) : ∀ l ∈ ls, l.length < 2 ^ 31 := by
  intro l hl
  refine hshort ⟨l, true⟩ ?_
  rw [h.lines_eq]
  exact List.mem_append_left _ (List.mem_map_of_mem hl)

theorem Startup.handshake {ls : List Str} {rest stream : Str} (h : Startup ls rest stream)
    (hmem : ∀ l ∈ ls, l.length < 2 ^ 31) : Handshake stream := by
  obtain ⟨hls, rfl⟩ := h
  induction ls with
  | nil => exact .running rest
  | cons l ls ih =>
    obtain ⟨hl, hn⟩ := hls l List.mem_cons_self
    have hrest := ih (fun l' hl' => hmem l' (List.mem_cons_of_mem _ hl'))
      fun l' hl' => hls l' (List.mem_cons_of_mem _ hl')
    rw [List.flatMap_cons, List.append_assoc, List.append_assoc, List.singleton_append]
    exact .line ((startLine_iff (hmem l List.mem_cons_self)).mpr hl) hn hrest

/-- While lines are short, the streams that the loop accepts are those of the protocol. -/
theorem exists_startup {stream : Str} (h : Handshake stream)
    (hshort : ∀ l ∈ lines stream, l.text.length < 2 ^ 31) : ∃ ls rest, Startup ls rest stream := by
  induction h with
  | running rest => exact ⟨[], rest, by simp [Startup]⟩
  | @line l stream hl hn _ ih =>
    rw [lines_append_newline hn] at hshort
    have hline := (startLine_iff (hshort _ List.mem_cons_self)).mp hl
    obtain ⟨ls, rest, h⟩ := ih fun l' hl' => hshort l' (List.mem_cons_of_mem _ hl')
    exact ⟨l :: ls, rest, h.cons hline hn⟩

theorem Startup.reported {ls : List Str} {rest stream : Str} (h : Startup ls rest stream)
    (hmem : ∀ l ∈ ls, l.length < 2 ^ 31) :
    reported stream = (ls.filterMap inputOf).foldl (fun inputs i => inputs.insert i.1 i.2) ∅ := by
  have htake : ((lines stream).takeWhile fun l => continues l.text) = ls.map (⟨·, true⟩) := by
    rw [h.lines_eq, List.takeWhile_append_of_pos]
    · rw [List.takeWhile_cons_of_neg (by decide), List.append_nil]
    · intro l hl
      obtain ⟨l', hl', rfl⟩ := List.mem_map.mp hl
      exact (continues_iff l').mpr ((startLine_iff (hmem l' hl')).mpr (h.1 l' hl').1)
  rw [Wye.reported, htake, List.filterMap_map]
  rfl

theorem get_reported {ls : List Str} {rest stream : Str} (h : Startup ls rest stream)
    (hmem : ∀ l ∈ ls, l.length < 2 ^ 31) (name addr : Str) :
    (reported stream)[name]? = some addr ↔ LastReport ls name addr := by
  rw [h.reported hmem, Maps.get_insertAll, Maps.lastOf_filterMap]
  constructor
  · rintro ⟨before, l, after, rfl, hl, hafter⟩
    obtain ⟨hname, rfl⟩ := (inputOf_iff (hmem l (by simp))).mp hl
    refine ⟨before, after, rfl, hname, fun addr' haddr' => ?_⟩
    exact hafter _ haddr' addr' ((inputOf_iff (hmem _ (by simp [haddr']))).mpr ⟨hname, rfl⟩)
  · rintro ⟨before, after, rfl, hname, hafter⟩
    refine ⟨before, _, after, rfl, (inputOf_iff (hmem _ (by simp))).mpr ⟨hname, rfl⟩, ?_⟩
    intro l hl addr' hl'
    obtain ⟨-, rfl⟩ := (inputOf_iff (hmem l (by simp [hl]))).mp hl'
    exact hafter addr' hl

/-! ### The start -/

namespace Process
variable {self : Process}

theorem runProcess_of_startup (hmodel : self.model ≠ .application) (hin : self.inputs = ∅)
    {ls : List Str} {rest stream : Str} (h : Startup ls rest stream)
    (hmem : ∀ l ∈ ls, l.length < 2 ^ 31) (pid : Pid) (os : Os) :
    self.runProcess (.child pid stream) os =
      (reply self.id (reported stream), { self with proc := some pid, inputs := reported stream },
        os.fork self.id pid (cString self.exec) (self.args.map cString)) := by
  have hok := (handshake_ok_iff stream).mpr (h.handshake hmem)
  rw [runProcess_child, started, hin, if_neg hmodel, if_neg hmodel, hok, handshake_inputs]
  rfl

/-- A start throws unless the stream is one of the protocol. On a stream of the protocol it goes on to
the reply, whatever comes after `RUNNING`, and the inputs are the last reports of all names. -/
theorem runProcess_startup (self : Process) (hmodel : self.model ≠ .application)
    (hin : self.inputs = ∅) (pid : Pid) (stream : Str) (os : Os)
    (hshort : ∀ l ∈ lines stream, l.text.length < 2 ^ 31) :
    ((∃ e, (self.runProcess (.child pid stream) os).1 = .throw e) ↔
      ¬ ∃ ls rest, Startup ls rest stream) ∧
    ∀ ls rest, Startup ls rest stream →
      (self.runProcess (.child pid stream) os).1 =
        reply self.id (self.runProcess (.child pid stream) os).2.1.inputs ∧
      (∀ rest' stream', Startup ls rest' stream' →
        self.runProcess (.child pid stream') os = self.runProcess (.child pid stream) os) ∧
      ∀ name addr, (self.runProcess (.child pid stream) os).2.1.inputs[name]? = some addr ↔
        LastReport ls name addr := by
  constructor
  · rw [runProcess_throws_iff hin, Launch.Starts, or_iff_right hmodel, not_iff_not]
    constructor
    · intro h
      exact exists_startup h hshort
    · rintro ⟨ls, rest, h⟩
      exact h.handshake (h.short hshort)
  · intro ls rest h
    have hmem := h.short hshort
    rw [runProcess_of_startup hmodel hin h hmem]
    refine ⟨rfl, fun rest' stream' h' => ?_, fun name addr => get_reported h hmem name addr⟩
    rw [runProcess_of_startup hmodel hin h' hmem, h'.reported hmem, h.reported hmem]

/-- Lines that report one name twice, the second time with colons in the address. -/
def twiceLines : List Str := ["INIT".toList, inputLine "in".toList "ipc://a".toList,
  "NOTICE:x".toList, inputLine "in".toList "tcp://b:2".toList]

theorem startup_twice :
    Startup twiceLines "INPUT:in:late".toList
      "INIT\nINPUT:in:ipc://a\nNOTICE:x\nINPUT:in:tcp://b:2\nRUNNING\nINPUT:in:late".toList := by
  refine ⟨?_, by decide⟩
  intro l hl
  rw [twiceLines, List.mem_cons, List.mem_cons, List.mem_cons, List.mem_singleton] at hl
  rcases hl with rfl | rfl | rfl | rfl
  · exact ⟨.inl rfl, by decide⟩
  · exact ⟨.inr (.inr ⟨_, _, by decide, rfl⟩), by decide⟩
  · exact ⟨.inr (.inl ⟨"x".toList, rfl⟩), by decide⟩
  · exact ⟨.inr (.inr ⟨_, _, by decide, rfl⟩), by decide⟩

theorem runProcess_startup_twice :
    (({ model := .python, id := firstUuid.1 } : Process).runProcess (.child 7
      "INIT\nINPUT:in:ipc://a\nNOTICE:x\nINPUT:in:tcp://b:2\nRUNNING\nINPUT:in:late".toList)
      {}).2.1.inputs["in".toList]? = some "tcp://b:2".toList :=
  ((runProcess_startup _ (by decide) rfl 7 _ {} (by decide)).2 _ _ startup_twice).2.2 _ _ |>.mpr
    ⟨["INIT".toList, inputLine "in".toList "ipc://a".toList, "NOTICE:x".toList], [], rfl, by decide,
      fun _ => List.not_mem_nil⟩

end Process

end Wye
