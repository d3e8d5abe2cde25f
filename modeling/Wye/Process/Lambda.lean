import Wye.Base.Literals
import Wye.Base.Maps
import Wye.Process.Run

/-!
# The source of a lambda worker

`lambda_process::init_process` pastes the lambda and the outputs between single quotes of a Python
program of two statements. What Python reads of it is what was pasted exactly when each of the texts
stands for itself between single quotes (`lambda_source_iff`).
-/

namespace Wye

open Text PropertyTree Literals Loops

/-! ### What Python reads -/

/-- The text that the tokenizer gets from `python -c`. -/
def commandText (src : Str) : Str := universal false (cString src)

/-- A character of a name. -/
def isNameChar (c : Char) : Bool := c.isAlphanum || c == '_'

/-- The program ends here: there may be a semicolon, blanks and comments. -/
def endsHere (s : Str) : Bool :=
  match s.dropWhile (fun c => c == ' ' || c == '\t') with
  | ';' :: s => skip false s == []
  | s => skip false s == []

/-- The first statement, and the second one up to the name of the function. -/
def importStatement : Str := "import wye.func; wye.func.".toList

/-- The program consists of the statement `import wye.func` and a call `wye.func.<call>(s, l)` with a
string literal and a list of string literals: the name and the values. -/
def statements (text : Str) : Option (Str × Str × List Str) :=
  if text.take importStatement.length = importStatement then
    let rest := text.drop importStatement.length
    match rest.dropWhile isNameChar with
    | '(' :: s => (arguments s).bind fun x =>
      if endsHere x.2 then some (rest.takeWhile isNameChar, x.1) else none
    | _ => none
  else none

/-- The functions that clients call. -/
def IsClientCall (call : Str) : Prop := call = "run_lambda".toList ∨ call = "run_generator".toList

/-- A text that can be pasted: it stands for itself between single quotes, and it holds no NUL, which
would end the program's text. -/
def Pastable (s : Str) : Prop := plain s = true ∧ Char.ofNat 0 ∉ s

instance (s : Str) : Decidable (Pastable s) := inferInstanceAs (Decidable (_ ∧ _))

/-! ### The source as it is read -/

theorem lambdaSource_eq (call lambda : Str) (outputs : Outputs) :
    lambdaSource call lambda outputs =
      importStatement ++ call ++ '(' :: pasteArguments lambda (outputArgs outputs) := by
  show importStatement ++ call ++ ['(', '\''] ++ lambda ++ ['\'', ',', ' ', '['] ++
      join ',' ((outputArgs outputs).map quote) ++ [']', ')'] =
    importStatement ++ call ++ '(' :: ('\'' :: (lambda ++ ['\'']) ++ [',', ' ', '['] ++
      (join ',' ((outputArgs outputs).map quote) ++ [']']) ++ [')'])
  simp only [List.append_assoc, List.cons_append, List.nil_append]

theorem cString_length_of_mem {s : Str} {d : Char} (hd : d ≠ Char.ofNat 0)
    (h : Char.ofNat 0 ∈ s ++ [d]) : (cString (s ++ [d])).length + 2 ≤ (s ++ [d]).length := by
  obtain ⟨a, b, hab, ha⟩ := exists_first h
  have hcut : cString (s ++ [d]) = a := by
    rw [hab]
    exact (takeWhile_append_cons ha b).1
  have hb : b ≠ [] := by
    rintro rfl
    exact hd (List.append_inj_right' hab rfl |> List.cons.inj |>.1)
  have hlen := List.length_pos_iff.mpr hb
  rw [hcut, hab, List.length_append, List.length_cons]
  omega

theorem IsClientCall.spec {call : Str} (h : IsClientCall call) :
    (∀ c ∈ call, isNameChar c = true) ∧ Char.ofNat 0 ∉ importStatement ++ call ∧
      '\r' ∉ importStatement ++ call := by
  rw [← List.all_eq_true]
  rcases h with rfl | rfl
  · exact ⟨by decide, by decide, by decide⟩
  · exact ⟨by decide, by decide, by decide⟩

theorem commandText_lambdaSource {call : Str} (hcall : IsClientCall call) (lambda : Str)
    (outputs : Outputs) : commandText (lambdaSource call lambda outputs) = importStatement ++
      (call ++ '(' :: universal false (cString (pasteArguments lambda (outputArgs outputs)))) := by
  obtain ⟨-, hnul, hcr⟩ := hcall.spec
  rw [commandText, lambdaSource_eq, cString_append_cons hnul (by decide),
    universal_append_cons (by decide) (by decide), universal_of_notMem hcr, List.append_assoc]

theorem statements_call {call : Str} (hcall : ∀ c ∈ call, isNameChar c = true) (s : Str) :
    statements (importStatement ++ (call ++ '(' :: s)) = (arguments s).bind fun x =>
      if endsHere x.2 then some (call, x.1) else none := by
  have htake : (call ++ '(' :: s).takeWhile isNameChar = call := by
    rw [List.takeWhile_append_of_pos hcall, List.takeWhile_cons_of_neg (by decide), List.append_nil]
  have hdrop : (call ++ '(' :: s).dropWhile isNameChar = '(' :: s := by
    rw [List.dropWhile_append_of_pos hcall, List.dropWhile_cons_of_neg (by decide)]
  rw [statements, List.take_left, if_pos rfl, List.drop_left]
  simp only [hdrop, htake]

theorem nul_mem_pasteArguments {v : Str} {vs : List Str} :
    Char.ofNat 0 ∈ pasteArguments v vs ↔ Char.ofNat 0 ∈ v ∨ ∃ w ∈ vs, Char.ofNat 0 ∈ w :=
  mem_pasteArguments (by decide)

/-- The pasted texts are read back, and nothing else, exactly when each can be pasted. -/
theorem statements_lambdaSource_iff {call : Str} (hcall : IsClientCall call) {lambda : Str}
    {outputs : Outputs} :
    statements (commandText (lambdaSource call lambda outputs)) =
        some (call, lambda, outputArgs outputs) ↔
      Pastable lambda ∧ ∀ arg ∈ outputArgs outputs, Pastable arg := by
  rw [commandText_lambdaSource hcall, statements_call hcall.spec.1]
  generalize outputArgs outputs = args
  constructor
  · intro h
    obtain ⟨⟨x, r⟩, hx, h⟩ := Option.bind_eq_some_iff.mp h
    split at h
    · cases h
      have hnul : Char.ofNat 0 ∉ pasteArguments lambda args := by
        intro hnul
        have hlen := arguments_length hx
        have huniversal := universal_length_le false (cString (pasteArguments lambda args))
        rw [pasteArguments] at hnul
        have hcut := cString_length_of_mem (by decide) hnul
        rw [← pasteArguments] at hcut
        omega
      rw [cString_of_notMem hnul] at hx
      obtain ⟨hlambda, hargs⟩ := arguments_paste_iff.mp ⟨r, hx⟩
      rw [nul_mem_pasteArguments, not_or] at hnul
      refine ⟨⟨hlambda, hnul.1⟩, fun arg harg => ⟨hargs arg harg, fun h => hnul.2 ?_⟩⟩
      exact ⟨arg, harg, h⟩
    · cases h
  · rintro ⟨hlambda, hargs⟩
    have hnul : Char.ofNat 0 ∉ pasteArguments lambda args := by
      rw [nul_mem_pasteArguments, not_or]
      refine ⟨hlambda.2, ?_⟩
      rintro ⟨arg, harg, h⟩
      exact (hargs arg harg).2 h
    rw [cString_of_notMem hnul, arguments_of_plain hlambda.1 fun arg harg => (hargs arg harg).1]
    rfl

/-! ### Lambda workers -/

/-- The program that a lambda worker runs calls `wye.func.<call>` with the lambda and with the arguments
that a python worker has for the same outputs, and does nothing else. -/
def SourceFaithful (proc : Process) (call lambda : Str) : Prop :=
  ∃ src, proc.exec = "/usr/bin/python".toList ∧ proc.args = ["python".toList, "-c".toList, src] ∧
    statements (commandText src) = some (call, lambda, outputArgs proc.outputs)

/-- Every text that the source takes from a request can be pasted: the lambda, and the text
`name:addr,addr,...` of each address group. -/
def AllPastable (lambda : Str) (outputs : Outputs) : Prop :=
  Pastable lambda ∧ ∀ i ∈ outputs.toList, ∀ a ∈ i.2, Pastable (outputArg i.1 a)

instance (lambda : Str) (outputs : Outputs) : Decidable (AllPastable lambda outputs) :=
  inferInstanceAs (Decidable (_ ∧ _))

theorem forall_outputArgs {P : Str → Prop} {outputs : Outputs} :
    (∀ arg ∈ outputArgs outputs, P arg) ↔ ∀ i ∈ outputs.toList, ∀ a ∈ i.2, P (outputArg i.1 a) := by
  simp only [outputArgs, List.mem_flatMap, List.mem_map]
  constructor
  · intro h i hi a ha
    exact h _ ⟨i, hi, a, ha, rfl⟩
  · rintro h arg ⟨i, hi, a, ha, rfl⟩
    exact h i hi a ha

theorem lambdaInit_args {p : Ptree} {self proc : Process} (h : lambdaInit p self = .ok proc)
    {call lambda : Str} (hcall : p.get? "call".toList = some call)
    (hlambda : p.get? "lambda".toList = some lambda) :
    proc.exec = "/usr/bin/python".toList ∧ proc.outputs = readOutputs p ∧
      proc.args = ["python".toList, "-c".toList, lambdaSource call lambda (readOutputs p)] := by
  simp only [lambdaInit, bind_eq_ok] at h
  obtain ⟨lambda', hlambda', jobId, -, call', hcall', h⟩ := h
  cases hlambda.symm.trans (field_eq_ok.mp hlambda')
  cases hcall.symm.trans (field_eq_ok.mp hcall')
  cases h
  exact ⟨rfl, rfl, rfl⟩

/-- The source of a lambda worker is faithful exactly when all that is pasted into it can be. -/
theorem lambda_source_iff {p : Ptree} {self proc : Process} (h : lambdaInit p self = .ok proc)
    {call lambda : Str} (hcall : p.get? "call".toList = some call) (hclient : IsClientCall call)
    (hlambda : p.get? "lambda".toList = some lambda) :
    SourceFaithful proc call lambda ↔ AllPastable lambda (readOutputs p) := by
  obtain ⟨hexec, houtputs, hargs⟩ := lambdaInit_args h hcall hlambda
  have hread := @statements_lambdaSource_iff call hclient lambda (readOutputs p)
  rw [forall_outputArgs] at hread
  rw [SourceFaithful, AllPastable, houtputs, ← hread]
  constructor
  · rintro ⟨src, -, hsrc, hstatements⟩
    cases hargs.symm.trans hsrc
    exact hstatements
  · intro hstatements
    exact ⟨_, hexec, hargs, hstatements⟩

/-- A request for a lambda worker with one output. -/
def lambdaRequest (lambda : Str) : Ptree :=
  .node [] ([("lambda".toList, lambda), ("job_id".toList, "job".toList),
      ("call".toList, "run_lambda".toList)].map (fun f => (f.1, .leaf f.2)) ++
    [("outputs".toList, .node [] [("output".toList, addressTree [["tcp://h:1".toList]])])])

theorem lambda_source_encoded : ∃ proc,
    lambdaInit (lambdaRequest "YwE=".toList) { model := .lambda, id := [] } = .ok proc ∧
      SourceFaithful proc "run_lambda".toList "YwE=".toList := by
  obtain ⟨proc, hproc⟩ : ∃ proc,
      lambdaInit (lambdaRequest "YwE=".toList) { model := .lambda, id := [] } = .ok proc := ⟨_, rfl⟩
  exact ⟨proc, hproc, (lambda_source_iff hproc rfl (.inl rfl) rfl).mpr (by decide +kernel)⟩

/-- A quote in the lambda ends the literal. -/
theorem not_lambda_source : ¬ ∀ (p : Ptree) (self proc : Process) (call lambda : Str),
    lambdaInit p self = .ok proc → p.get? "call".toList = some call → IsClientCall call →
      p.get? "lambda".toList = some lambda → SourceFaithful proc call lambda := by
  intro h
  obtain ⟨src, -, hsrc, hstatements⟩ := h (lambdaRequest "it's".toList)
    { model := .lambda, id := [] } _ "run_lambda".toList "it's".toList rfl rfl (.inl rfl) rfl
  cases hsrc
  exact absurd hstatements (by decide +kernel)

end Wye
