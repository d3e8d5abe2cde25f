import Wye.Manager.Spec

/-!
# What a request asks for

The job and the worker that a request asks for, from its own fields (`requestedJob`,
`requestedWorker`), and that these are what the manager enters (`Manager.prepareJob_eq_ok`,
`Manager.accepted_entry`).
-/

namespace Wye

open Text Calls PropertyTree Loops

/-- What of a worker never changes once it is in the map. -/
structure Entry where
  id : Str
  name : Str
  jobId : Str
  exec : Str
  args : List Str
  inputs : Inputs
  outputs : Outputs

def Process.entry (self : Process) : Entry :=
  ⟨self.id, self.name, self.jobId, self.exec, self.args, self.inputs, self.outputs⟩

/-! ### The fields of a request -/

/-- The job of a `create-job` request. -/
def requestedJob (p : Ptree) (env : Env) : Option Job :=
  if p.get? "operation".toList = some "create-job".toList then
    (p.get? "name".toList).bind fun name => (p.get? "description".toList).map fun description =>
      ⟨env.uuid.1, name, description⟩
  else none

/-- The address groups that a request asks for, under each name those given last. -/
def requestedOutputs (p : Ptree) : Outputs :=
  .ofList (((p.getChild? "outputs".toList).getD .empty).children.map fun i =>
    (i.1, i.2.children.map fun j => j.2.children.map fun k => k.2.data)) compare

/-- The program that a request asks for and its arguments. -/
def requestedCommand (p : Ptree) (outputs : Outputs) : Option (Str × List Str) :=
  (p.get? "model".toList).bind fun model =>
    if model = "application".toList then
      ((p.get? "exe".toList).filter fun exe => exe.head? == some '/').map fun exe =>
        (exe, [exe, []] ++ outputArgs outputs)
    else if model = "executable".toList then
      (p.get? "exe".toList).map fun exe => (exe, [exe, []] ++ outputArgs outputs)
    else if model = "python".toList then
      (p.get? "file".toList).map fun file =>
        ("/usr/bin/python".toList, ["python".toList, file] ++ outputArgs outputs)
    else if model = "lambda".toList then
      (p.get? "lambda".toList).bind fun lambda => (p.get? "call".toList).map fun call =>
        ("/usr/bin/python".toList, ["python".toList, "-c".toList, lambdaSource call lambda outputs])
    else if model = "lua".toList then
      (p.get? "file".toList).map fun file =>
        ("/usr/bin/lua".toList, ["lua".toList, file] ++ outputArgs outputs)
    else none

/-- The inputs that a request comes to: those its worker reports, if it has a child that is waited
for. -/
def requestedInputs (p : Ptree) : Launch → Inputs
  | .failed _ => ∅
  | .child _ stream =>
    if p.get? "model".toList = some "application".toList then ∅ else reported stream

/-- The worker of a `create-worker` request. -/
def requestedWorker (p : Ptree) (env : Env) : Option Entry :=
  if p.get? "operation".toList = some "create-worker".toList then
    (p.get? "job_id".toList).bind fun jobId =>
      (requestedCommand p (requestedOutputs p)).map fun command =>
        { id := env.uuid.1
          name := (p.get? "name".toList).getD []
          jobId := jobId
          exec := command.1
          args := command.2
          inputs := requestedInputs p env.launch
          outputs := requestedOutputs p }
  else none

/-! ### What the manager reads -/

namespace Manager

/-- The name of an operation in a request. -/
def Operation.text : Operation → Str
  | .createWorker => "create-worker".toList
  | .getWorkers => "get-workers".toList
  | .deleteWorker => "delete-worker".toList
  | .createJob => "create-job".toList
  | .getJob => "get-job".toList
  | .getJobs => "get-jobs".toList
  | .deleteJob => "delete-job".toList

theorem operationOf_eq_some {s : Str} {op : Operation} : operationOf s = some op ↔ s = op.text := by
  constructor
  · intro h
    unfold operationOf at h
    split_ifs at h <;> cases h <;> assumption
  · rintro rfl
    cases op <;> rfl

theorem required_eq_ok {p : Ptree} {key message v : Str} :
    required p key message = .ok v ↔ p.get? key = some v := by
  unfold required
  cases p.get? key <;> simp

theorem toOption_required (p : Ptree) (key message : Str) {α : Type} (f : Str → Except Exn α) :
    (required p key message >>= f).toOption = (p.get? key).bind fun v => (f v).toOption := by
  unfold required
  cases p.get? key <;> rfl

theorem requestOp_eq_ok {p : Ptree} {op : Operation} :
    requestOp p = .ok op ↔ p.get? "operation".toList = some op.text := by
  rw [requestOp, bind_eq_ok]
  simp only [required_eq_ok]
  constructor
  · rintro ⟨text, htext, h⟩
    rw [htext]
    cases hop : operationOf text with
    | none => simp [hop] at h
    | some op' =>
      rw [hop] at h
      cases h
      rw [operationOf_eq_some.mp hop]
  · intro h
    exact ⟨op.text, h, by rw [operationOf_eq_some.mpr rfl]⟩

theorem requiredId_eq_ok {p : Ptree} {id : Str} :
    requiredId p = .ok id ↔ p.get? "id".toList = some id := required_eq_ok

theorem prepareJob_eq_ok {p : Ptree} {env : Env} {j : Job} (hop : requestOp p = .ok .createJob) :
    prepareJob p env.uuid = .ok j ↔ requestedJob p env = some j := by
  have hcreate : p.get? "operation".toList = some "create-job".toList := requestOp_eq_ok.mp hop
  rw [requestedJob, if_pos hcreate]
  simp only [prepareJob, bind_eq_ok, required_eq_ok, Option.bind_eq_some_iff, Option.map_eq_some_iff]
  refine exists_congr fun name => and_congr_right fun _ => exists_congr fun description =>
    and_congr_right fun _ => ?_
  exact ⟨fun h => Except.ok.inj h, fun h => congrArg Except.ok h⟩

end Manager

theorem requestedOutputs_eq (p : Ptree) : requestedOutputs p = readOutputs p := by
  rw [requestedOutputs, Std.ExtTreeMap.ofList_eq_foldl, List.foldl_map, readOutputs]

theorem toOption_field (p : Ptree) (key : Str) {α : Type} (f : Str → Except Exn α) :
    (field p key >>= f).toOption = (p.get? key).bind fun v => (f v).toOption := by
  unfold field
  cases p.get? key <;> rfl

theorem Process.entered_entry {proc : Process} (hin : proc.inputs = ∅) (launch : Launch) :
    (proc.entered launch).entry = { proc.entry with
      inputs := match launch with
        | .failed _ => ∅
        | .child _ stream => if proc.model = .application then ∅ else reported stream } := by
  cases launch with
  | failed what => simp [entered, entry, hin]
  | child pid stream => simp [entered, entry, started, hin, handshake_inputs]


/-- What `init_process` makes of a request. -/
theorem initProcess_entry {p : Ptree} {model : Str} {m : Model}
    (hmodel : p.get? "model".toList = some model) (hm : Manager.modelOf model = some m) (id : Str) :
    (initProcess p { model := m, id := id }).toOption.map Process.entry =
      (p.get? "job_id".toList).bind fun jobId =>
        (requestedCommand p (requestedOutputs p)).map fun command =>
          ⟨id, (p.get? "name".toList).getD [], jobId, command.1, command.2, ∅, requestedOutputs p⟩ := by
  unfold Manager.modelOf at hm
  unfold requestedCommand
  rw [hmodel, Option.bind_some, requestedOutputs_eq]
  split_ifs at hm with h₁ h₂ h₃ h₄ h₅ <;> cases hm
  · rw [if_pos h₁]
    simp only [initProcess, applicationInit, initProgram, toOption_field]
    cases p.get? "exe".toList with
    | none => cases p.get? "job_id".toList <;> rfl
    | some exe =>
      have hcheck : exe.take 1 = "/".toList ↔ exe.head? = some '/' := by
        cases exe <;> simp
      by_cases hexe : exe.head? = some '/'
      · simp only [Option.bind_some, hcheck.mpr hexe, hexe, ne_eq, not_true_eq_false, if_false,
          Option.filter, beq_self_eq_true, if_true]
        unfold field
        cases p.get? "job_id".toList <;> rfl
      · have hnot : ¬ exe.take 1 = "/".toList := fun h => hexe (hcheck.mp h)
        simp only [Option.bind_some, ne_eq, hnot, not_false_eq_true, if_true, Option.filter, beq_iff_eq,
          hexe, if_false]
        cases p.get? "job_id".toList <;> rfl
  · rw [if_neg h₁, if_pos h₂]
    simp only [initProcess, executableInit, initProgram, toOption_field]
    unfold field
    cases p.get? "exe".toList <;> cases p.get? "job_id".toList <;> rfl
  · rw [if_neg h₁, if_neg h₂, if_pos h₃]
    simp only [initProcess, pythonInit, initScript, toOption_field]
    cases p.get? "file".toList <;> cases p.get? "job_id".toList <;> rfl
  · rw [if_neg h₁, if_neg h₂, if_neg h₃, if_pos h₄]
    simp only [initProcess, lambdaInit, toOption_field]
    cases p.get? "lambda".toList <;> cases p.get? "job_id".toList <;> cases p.get? "call".toList <;> rfl
  · rw [if_neg h₁, if_neg h₂, if_neg h₃, if_neg h₄, if_pos h₅]
    simp only [initProcess, luaInit, initScript, toOption_field]
    cases p.get? "file".toList <;> cases p.get? "job_id".toList <;> rfl


theorem requestedInputs_eq {p : Ptree} {model : Str} {m : Model} {proc : Process}
    (hmodel : p.get? "model".toList = some model) (hm : Manager.modelOf model = some m)
    (hproc : proc.model = m) (launch : Launch) :
    requestedInputs p launch = match launch with
      | .failed _ => ∅
      | .child _ stream => if proc.model = .application then ∅ else reported stream := by
  have happ : p.get? "model".toList = some "application".toList ↔ proc.model = .application := by
    rw [hmodel, hproc, Option.some_inj]
    unfold Manager.modelOf at hm
    split_ifs at hm with h₁ <;> cases hm
    · exact iff_of_true h₁ rfl
    all_goals exact iff_of_false h₁ (by simp)
  cases launch with
  | failed what => rfl
  | child pid stream => simp only [requestedInputs, happ]

/-- The worker that a request enters has the fields of the request. -/
theorem Manager.accepted_entry (p : Ptree) (env : Env) :
    (accepted p env.uuid).map (fun proc => (proc.entered env.launch).entry) =
      requestedWorker p env := by
  unfold requestedWorker
  by_cases hop : p.get? "operation".toList = some "create-worker".toList
  · have hcreate : requestOp p = .ok .createWorker := requestOp_eq_ok.mpr hop
    rw [if_pos hop, accepted, hcreate]
    dsimp only
    rw [prepareWorker, toOption_required]
    cases hmodel : p.get? "model".toList with
    | none =>
      rw [requestedCommand, hmodel]
      cases p.get? "job_id".toList <;> rfl
    | some model =>
      rw [Option.bind_some]
      cases hm : modelOf model with
      | none =>
        have hnot : requestedCommand p (requestedOutputs p) = none := by
          unfold modelOf at hm
          split_ifs at hm with h₁ h₂ h₃ h₄ h₅
          rw [requestedCommand, hmodel, Option.bind_some, if_neg h₁, if_neg h₂, if_neg h₃, if_neg h₄,
            if_neg h₅]
        rw [hnot]
        cases p.get? "job_id".toList <;> rfl
      | some m =>
        have hstarted : (initProcess p { model := m, id := env.uuid.1 }).toOption.map
            (fun proc => (proc.entered env.launch).entry) =
            ((initProcess p { model := m, id := env.uuid.1 }).toOption.map Process.entry).map
              fun e => { e with inputs := requestedInputs p env.launch } := by
          cases hinit : initProcess p { model := m, id := env.uuid.1 } with
          | error e => rfl
          | ok proc =>
            have hspec := initProcess_spec hinit
            have hins := requestedInputs_eq hmodel hm (hspec.model : proc.model = m) env.launch
            have hentry := Process.entered_entry hspec.inputs env.launch
            rw [← hins] at hentry
            exact congrArg some hentry
        refine hstarted.trans ?_
        rw [initProcess_entry hmodel hm, Option.map_bind]
        refine congrArg _ (funext fun jobId => ?_)
        exact Option.map_map ..
  · rw [if_neg hop]
    cases hacc : accepted p env.uuid with
    | none => rfl
    | some proc => exact absurd (requestOp_eq_ok.mp (op_of_accepted hacc)) hop

end Wye
