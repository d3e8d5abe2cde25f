import Wye.Base.Loops
import Wye.Process.Basic
import Wye.PropertyTree.Basic

/-!
# `init_process`

Each class reads the fields of a `create-worker` request into the command line of its worker. The
python and lua classes differ in their interpreter only, and the executable and application classes
in the check of the path only.
-/

namespace Wye

open Text PropertyTree Loops

/-- `p.get<std::string>(key)`. -/
def field (p : Ptree) (key : Str) : Except Exn Str :=
  match p.get? key with
  | some v => .ok v
  | none => .error (.badPath ("No such node (".toList ++ key ++ ")".toList))

/-- The loop over the `outputs` of a request: an address group for every child of a name. -/
def readOutputs (p : Ptree) : Outputs :=
  ((p.getChild? "outputs".toList).getD .empty).children.foldl (fun outputs i =>
    outputs.insert i.1 (i.2.children.map fun j => j.2.children.map fun k => k.2.data)) ∅

/-- One argument for an address group: `name:addr,addr,...`. -/
def outputArg (name : Str) (a : Address) : Str := name ++ ":".toList ++ join ',' a

/-- The loop that turns `outputs` into arguments. -/
def outputArgs (outputs : Outputs) : List Str :=
  outputs.toList.flatMap fun i => i.2.map (outputArg i.1)

/-- `init_process` of the classes that run a script with an interpreter. -/
def initScript (exec interpreter : Str) (p : Ptree) (self : Process) : Except Exn Process := do
  let file ← field p "file".toList
  let jobId ← field p "job_id".toList
  let outputs := readOutputs p
  return { self with
    exec := exec
    args := [interpreter, file] ++ outputArgs outputs
    jobId := jobId
    name := (p.get? "name".toList).getD self.name
    outputs := outputs }

/-- `init_process` of the classes that run a program. The second argument is the `file` that is
declared and never set. -/
def initProgram (check : Str → Except Exn Unit) (p : Ptree) (self : Process) :
    Except Exn Process := do
  let exec ← field p "exe".toList
  check exec
  let jobId ← field p "job_id".toList
  let outputs := readOutputs p
  return { self with
    exec := exec
    args := [exec, []] ++ outputArgs outputs
    jobId := jobId
    name := (p.get? "name".toList).getD self.name
    outputs := outputs }

/-- `python_process::init_process`. -/
def pythonInit : Ptree → Process → Except Exn Process :=
  initScript "/usr/bin/python".toList "python".toList

/-- `lua_process::init_process`. -/
def luaInit : Ptree → Process → Except Exn Process :=
  initScript "/usr/bin/lua".toList "lua".toList

/-- `executable_process::init_process`. -/
def executableInit : Ptree → Process → Except Exn Process := initProgram fun _ => .ok ()

/-- `application_process::init_process`, which wants an absolute path. -/
def applicationInit : Ptree → Process → Except Exn Process := initProgram fun exec =>
  if exec.take 1 ≠ "/".toList then
    .error (.runtimeError ("Absolute path not specifed for application: ".toList ++ exec))
  else .ok ()

/-- The source text that `lambda_process::init_process` hands to `python -c`. -/
def lambdaSource (call lambda : Str) (outputs : Outputs) : Str :=
  "import wye.func; wye.func.".toList ++ call ++ "('".toList ++ lambda ++ "', [".toList ++
    join ',' ((outputArgs outputs).map fun outs => "'".toList ++ outs ++ "'".toList) ++ "])".toList

/-- `lambda_process::init_process`. -/
def lambdaInit (p : Ptree) (self : Process) : Except Exn Process := do
  let lambda ← field p "lambda".toList
  let jobId ← field p "job_id".toList
  let call ← field p "call".toList
  let outputs := readOutputs p
  return { self with
    exec := "/usr/bin/python".toList
    args := ["python".toList, "-c".toList, lambdaSource call lambda outputs]
    jobId := jobId
    name := (p.get? "name".toList).getD self.name
    outputs := outputs }

/-- The virtual call `proc->init_process(p)`. -/
def initProcess (p : Ptree) (self : Process) : Except Exn Process :=
  match self.model with
  | .application => applicationInit p self
  | .executable => executableInit p self
  | .python => pythonInit p self
  | .lambda => lambdaInit p self
  | .lua => luaInit p self

/-! ### What every `init_process` leaves alone -/

/-- The request's `job_id` is the worker's, and the class, the id, the state, the inputs and the
handle are those the constructor set. -/
structure Initialised (p : Ptree) (before after : Process) : Prop where
  model : after.model = before.model
  id : after.id = before.id
  jobId : p.get? "job_id".toList = some after.jobId
  state : after.state = before.state
  inputs : after.inputs = before.inputs
  outputs : after.outputs = readOutputs p
  proc : after.proc = before.proc

theorem field_eq_ok {p : Ptree} {key v : Str} : field p key = .ok v ↔ p.get? key = some v := by
  unfold field
  cases p.get? key <;> simp

theorem initScript_spec {exec interpreter : Str} {p : Ptree} {self proc : Process}
    (h : initScript exec interpreter p self = .ok proc) : Initialised p self proc := by
  simp only [initScript, bind_eq_ok] at h
  obtain ⟨file, -, jobId, hj, h⟩ := h
  cases h
  exact ⟨rfl, rfl, field_eq_ok.mp hj, rfl, rfl, rfl, rfl⟩

theorem initProgram_spec {check : Str → Except Exn Unit} {p : Ptree} {self proc : Process}
    (h : initProgram check p self = .ok proc) : Initialised p self proc := by
  simp only [initProgram, bind_eq_ok] at h
  obtain ⟨exec, -, -, -, jobId, hj, h⟩ := h
  cases h
  exact ⟨rfl, rfl, field_eq_ok.mp hj, rfl, rfl, rfl, rfl⟩

theorem lambdaInit_spec {p : Ptree} {self proc : Process} (h : lambdaInit p self = .ok proc) :
    Initialised p self proc := by
  simp only [lambdaInit, bind_eq_ok] at h
  obtain ⟨lambda, -, jobId, hj, call, -, h⟩ := h
  cases h
  exact ⟨rfl, rfl, field_eq_ok.mp hj, rfl, rfl, rfl, rfl⟩

theorem initProcess_spec {p : Ptree} {self proc : Process} (h : initProcess p self = .ok proc) :
    Initialised p self proc := by
  unfold initProcess at h
  split at h
  · exact initProgram_spec h
  · exact initProgram_spec h
  · exact initScript_spec h
  · exact lambdaInit_spec h
  · exact initScript_spec h

end Wye
