import Wye.Process.Run

/-!
# The manager

`manager::handle` with its seven operations, the pass of the monitor thread and `stop`. An operation
that locks a mutex is written as the part before the lock, which reads the request only, and the
part under the lock (`…Locked`).
-/

namespace Wye

open Text Calls PropertyTree

/-- Whether a text is what `boost::uuids` prints for an id. -/
def isUuid (s : Str) : Bool := s.length == 36 && s.all ("0123456789abcdef-".toList.contains ·)

/-- The text of a generated id. -/
abbrev Uuid := { s : Str // isUuid s = true }

/-- `job`. -/
structure Job where
  id : Str
  name : Str
  description : Str
  deriving DecidableEq, Repr

abbrev Workers := Std.ExtTreeMap Str Process compare

abbrev Jobs := Std.ExtTreeMap Str Job compare

/-- `manager`: its two maps, and the operating system that its workers live in. -/
structure Manager where
  workers : Workers := ∅
  jobs : Jobs := ∅
  os : Os := {}
  deriving DecidableEq

/-- What a request meets outside the manager: the id the generator gives next, how a launch goes,
and what happens in the operating system meanwhile. -/
structure Env where
  uuid : Uuid
  launch : Launch := .failed []
  script : List (List OsEvent) := []

namespace Manager

/-- The argument of a mandatory field, with the message sent when it is missing. -/
def required (p : Ptree) (key message : Str) : Except Exn Str :=
  match p.get? key with
  | some v => .ok v
  | none => .error (.invalidRequest message)

/-- The `id` of a request. -/
def requiredId (p : Ptree) : Except Exn Str :=
  required p "id".toList "Must supply an 'id' value".toList

/-! ### Workers -/

/-- The class of a model name. -/
def modelOf (model : Str) : Option Model :=
  if model = "application".toList then some .application
  else if model = "executable".toList then some .executable
  else if model = "python".toList then some .python
  else if model = "lambda".toList then some .lambda
  else if model = "lua".toList then some .lua
  else none

/-- `create_worker` before it locks: the worker of the model asked for, initialised. -/
def prepareWorker (p : Ptree) (uuid : Uuid) : Except Exn Process := do
  let model ← required p "model".toList "Must supply a 'model' value".toList
  match modelOf model with
  | none => .error (.invalidRequest ("Worker model '".toList ++ model ++ "' not known".toList))
  | some model => initProcess p { model := model, id := uuid.1 }

/-- `create_worker` under `workers_mutex`: the worker is in the map while it is started, and stays
there when an exception leaves `run_process`. -/
def enterLocked (proc : Process) (launch : Launch) (m : Manager) : Outcome Exn Ptree × Manager :=
  let (r, proc, os) := proc.runProcess launch m.os
  let m := { m with workers := m.workers.insert proc.id proc, os := os }
  match r with
  | .ok t => (.ok t, m)
  | .throw e => (.throw (.runtimeError e.what), m)
  | .lost why => (.lost why, m)

/-- `manager::create_worker`. -/
def createWorker (p : Ptree) (env : Env) (m : Manager) : Outcome Exn Ptree × Manager :=
  match prepareWorker p env.uuid with
  | .error e => (.throw e, m)
  | .ok proc => m.enterLocked proc env.launch

/-- The loop that describes the workers that `keep` selects. -/
def describeAll (keep : Process → Bool) (ws : List (Str × Process)) : Outcome Exn Ptree :=
  Outcome.foldl (fun r v =>
    if keep v.2 then v.2.describe.bind fun w => r.addChild v.1 w else .ok r) .empty ws

/-- `manager::get_workers`, all of it under `workers_mutex`. -/
def getWorkers (m : Manager) : Outcome Exn Ptree × Manager :=
  (describeAll (fun _ => true) m.workers.toList, m)

/-- Take a worker out of the map. The map holds the last pointer to it, so its destructor runs. -/
def remove (m : Manager) (v : Str × Process) : Outcome Exn Unit × Manager :=
  let (r, os) := v.2.destroy m.os
  (r, { m with workers := m.workers.erase v.1, os := os })

/-- `delete_worker` under `workers_mutex`. -/
def deleteWorkerLocked (id : Str) (m : Manager) : Outcome Exn Ptree × Manager :=
  match m.workers[id]? with
  | none => (.throw (.invalidRequest ("Worker '".toList ++ id ++ "' not known.".toList)), m)
  | some proc =>
    let (r, m) := m.remove (id, proc)
    (r.map fun _ => .empty, m)

/-- `manager::delete_worker`. -/
def deleteWorker (p : Ptree) (m : Manager) : Outcome Exn Ptree × Manager :=
  match requiredId p with
  | .error e => (.throw e, m)
  | .ok id => m.deleteWorkerLocked id

/-! ### Jobs -/

/-- `create_job` before it locks. -/
def prepareJob (p : Ptree) (uuid : Uuid) : Except Exn Job := do
  let name ← required p "name".toList "Must supply a 'name'.".toList
  let description ← required p "description".toList "Must supply a 'description'.".toList
  return ⟨uuid.1, name, description⟩

/-- `create_job` under `jobs_mutex`. -/
def enterJobLocked (j : Job) (m : Manager) : Outcome Exn Ptree × Manager :=
  (Ptree.empty.put "id".toList j.id, { m with jobs := m.jobs.insert j.id j })

/-- `manager::create_job`. -/
def createJob (p : Ptree) (env : Env) (m : Manager) : Outcome Exn Ptree × Manager :=
  match prepareJob p env.uuid with
  | .error e => (.throw e, m)
  | .ok j => m.enterJobLocked j

/-- The exception for an unknown job. -/
def unknownJob (id : Str) : Exn :=
  .invalidRequest ("Job '".toList ++ id ++ "' not known.".toList)

/-- The loop of `delete_job`: find a worker of the job from the start of the map, erase it, and start
again, until none is left. -/
def deleteLoop : Nat → Str → Manager → Outcome Exn Unit × Manager
  | 0, _, m => (.lost .endless, m)
  | fuel + 1, id, m =>
    match m.workers.toList.find? (·.2.jobId == id) with
    | none => (.ok (), m)
    | some v =>
      match m.remove v with
      | (.ok _, m) => deleteLoop fuel id m
      | (.throw e, m) => (.throw e, m)
      | (.lost why, m) => (.lost why, m)

/-- `delete_job` under both mutexes, for a known job. -/
def deleteJobLocked (id : Str) (m : Manager) : Outcome Exn Ptree × Manager :=
  match m.deleteLoop (m.workers.size + 1) id with
  | (.ok _, m) => (.ok .empty, { m with jobs := m.jobs.erase id })
  | (.throw e, m) => (.throw e, m)
  | (.lost why, m) => (.lost why, m)

/-- `manager::delete_job`. -/
def deleteJob (p : Ptree) (m : Manager) : Outcome Exn Ptree × Manager :=
  match requiredId p with
  | .error e => (.throw e, m)
  | .ok id => if m.jobs.contains id then m.deleteJobLocked id else (.throw (unknownJob id), m)

/-- The entry of a job: fields that are empty are left out. -/
def describeJob (j : Job) : Outcome Exn Ptree :=
  (if j.name ≠ [] then Ptree.empty.put "name".toList j.name else .ok .empty).bind fun r =>
  if j.description ≠ [] then r.put "description".toList j.description else .ok r

/-- `manager::get_jobs`, all of it under `jobs_mutex`. -/
def getJobs (m : Manager) : Outcome Exn Ptree × Manager :=
  (Outcome.foldl (fun r v => (describeJob v.2).bind fun e => r.addChild v.1 e) .empty
    m.jobs.toList, m)

/-- `get_job` under both mutexes. -/
def getJobLocked (id : Str) (j : Job) (m : Manager) : Outcome Exn Ptree × Manager :=
  ((describeAll (·.jobId == id) m.workers.toList).bind fun w =>
    (describeJob j).bind fun r => r.addChild "workers".toList w, m)

/-- `manager::get_job`. -/
def getJob (p : Ptree) (m : Manager) : Outcome Exn Ptree × Manager :=
  match requiredId p with
  | .error e => (.throw e, m)
  | .ok id =>
    match m.jobs[id]? with
    | none => (.throw (unknownJob id), m)
    | some j => m.getJobLocked id j

/-! ### Requests -/

/-- The operations of `manager::handle`. -/
inductive Operation where
  | createWorker
  | getWorkers
  | deleteWorker
  | createJob
  | getJob
  | getJobs
  | deleteJob
  deriving DecidableEq, Repr

/-- The operation of a name. -/
def operationOf (op : Str) : Option Operation :=
  if op = "create-worker".toList then some .createWorker
  else if op = "get-workers".toList then some .getWorkers
  else if op = "delete-worker".toList then some .deleteWorker
  else if op = "create-job".toList then some .createJob
  else if op = "get-job".toList then some .getJob
  else if op = "get-jobs".toList then some .getJobs
  else if op = "delete-job".toList then some .deleteJob
  else none

/-- The operation a request asks for. -/
def requestOp (p : Ptree) : Except Exn Operation := do
  let op ← required p "operation".toList "Must supply an 'operation' value".toList
  match operationOf op with
  | none => .error (.invalidRequest ("Operation '".toList ++ op ++ "' not recognised.".toList))
  | some op => .ok op

/-- `manager::handle`. -/
def handle (p : Ptree) (env : Env) (m : Manager) : Outcome Exn Ptree × Manager :=
  match requestOp p with
  | .error e => (.throw e, m)
  | .ok .createWorker => m.createWorker p env
  | .ok .getWorkers => m.getWorkers
  | .ok .deleteWorker => m.deleteWorker p
  | .ok .createJob => m.createJob p env
  | .ok .getJob => m.getJob p
  | .ok .getJobs => m.getJobs
  | .ok .deleteJob => m.deleteJob p

/-! ### The monitor and the end -/

/-- One turn of the monitor's loop. -/
def visit (m : Manager) (id : Str) : Outcome Exn Bool × Manager :=
  match m.workers[id]? with
  | none => (.ok false, m)
  | some proc =>
    let (r, proc, os) := proc.isRunning m.os.tick
    (r, { m with workers := m.workers.insert id proc, os := os })

/-- The monitor's loop over the workers. -/
def passLoop : List Str → Manager → Outcome Exn Unit × Manager
  | [], m => (.ok (), m)
  | id :: ids, m =>
    match m.visit id with
    | (.ok _, m) => passLoop ids m
    | (.throw e, m) => (.throw e, m)
    | (.lost why, m) => (.lost why, m)

/-- One pass of the monitor thread, under `workers_mutex`. -/
def monitorPass (m : Manager) : Outcome Exn Unit × Manager := passLoop m.workers.keys m

/-- An order in which the elements of a map may be destroyed, which `std::map::clear` leaves open. -/
structure ClearOrder where
  arrange : List (Str × Process) → List (Str × Process)
  perm : ∀ vs, (arrange vs).Perm vs

/-- `workers.clear()`, one worker after another. -/
def clearLoop : List (Str × Process) → Manager → Outcome Exn Unit × Manager
  | [], m => (.ok (), m)
  | v :: vs, m =>
    match m.remove v with
    | (.ok _, m) => clearLoop vs m
    | (.throw e, m) => (.throw e, m)
    | (.lost why, m) => (.lost why, m)

/-- `manager::stop`. -/
def stop (order : ClearOrder) (m : Manager) : Outcome Exn Unit × Manager :=
  let (r, m) := clearLoop (order.arrange m.workers.toList) m
  (r, { m with workers := ∅ })

end Manager

end Wye
