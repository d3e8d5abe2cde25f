import Wye.Locking.Serial
import Wye.Manager.Spec

/-!
# The operations in threads

Each operation of the manager as code that takes `jobs_mutex` and `workers_mutex` where the source
does, and gives them back when its scope is left, by a return or by an exception. A body runs on the
two maps; what it meets in the operating system is an input of the operation. The code is well locked
(`codeOf_wellLocked`) and, run alone, is the operation of `Manager` (`exec_codeOf`), so the general
results on locking apply: there is no deadlock, and every run is a serial one (`serialisable`).
-/

namespace Wye

open Text Calls PropertyTree Locking

/-- The two mutexes, in the order in which they are taken. -/
inductive Mutex where
  | jobs
  | workers
  deriving DecidableEq, Repr

def Mutex.rank : Mutex → Nat
  | .jobs => 0
  | .workers => 1

instance : Preorder Mutex := Preorder.lift Mutex.rank

theorem Mutex.jobs_lt_workers : Mutex.jobs < Mutex.workers := by
  change Mutex.rank .jobs < Mutex.rank .workers
  decide

/-- What a mutex guards. -/
abbrev Guarded : Mutex → Type
  | .jobs => Jobs
  | .workers => Workers

/-- The two maps. -/
abbrev Maps := State Guarded

/-- The manager that an operation sees: the two maps, and the operating system it meets. -/
def managerOf (s : Maps) (os : Os) : Manager := ⟨s .workers, s .jobs, os⟩

/-- The maps of a manager. -/
def mapsOf (m : Manager) : Maps
  | .jobs => m.jobs
  | .workers => m.workers

/-- What a thread may run: a request, a pass of the monitor, or `stop`. -/
inductive Task where
  | handle (p : Ptree) (env : Env) (os : Os)
  | pass (os : Os)
  | stop (order : Manager.ClearOrder) (os : Os)

abbrev ManagerCode := Code Guarded (Outcome Exn Ptree)

namespace Manager

/-- What is done under the mutexes that are held, and the return. -/
def under (f : Manager → Outcome Exn Ptree × Manager) (os : Os) : ManagerCode :=
  .body (fun s => mapsOf (f (managerOf s os)).2) fun s => .ret (f (managerOf s os)).1

/-- The code of a pass under the lock. -/
def passBody (m : Manager) : Outcome Exn Ptree × Manager :=
  (uncaught m.monitorPass.1, m.monitorPass.2)

/-- The code of `stop` under the lock. -/
def stopBody (order : ClearOrder) (m : Manager) : Outcome Exn Ptree × Manager :=
  (uncaught (m.stop order).1, (m.stop order).2)

/-- The code of a request: what comes before the first lock, and the locks. -/
def handleCode (p : Ptree) (env : Env) (os : Os) : ManagerCode :=
  match requestOp p with
  | .error e => .ret (.throw e)
  | .ok .createWorker =>
    match prepareWorker p env.uuid with
    | .error e => .ret (.throw e)
    | .ok proc => .acquire .workers (under (enterLocked proc env.launch) os)
  | .ok .getWorkers => .acquire .workers (under getWorkers os)
  | .ok .deleteWorker =>
    match requiredId p with
    | .error e => .ret (.throw e)
    | .ok id => .acquire .workers (under (deleteWorkerLocked id) os)
  | .ok .createJob =>
    match prepareJob p env.uuid with
    | .error e => .ret (.throw e)
    | .ok j => .acquire .jobs (under (enterJobLocked j) os)
  | .ok .getJob =>
    match requiredId p with
    | .error e => .ret (.throw e)
    | .ok id =>
      .acquire .jobs (.body (fun s => s) fun s =>
        match (s .jobs)[id]? with
        | none => .ret (.throw (unknownJob id))
        | some j => .acquire .workers (under (getJobLocked id j) os))
  | .ok .getJobs => .acquire .jobs (under getJobs os)
  | .ok .deleteJob =>
    match requiredId p with
    | .error e => .ret (.throw e)
    | .ok id =>
      .acquire .jobs (.body (fun s => s) fun s =>
        if (s .jobs).contains id then .acquire .workers (under (deleteJobLocked id) os)
        else .ret (.throw (unknownJob id)))

end Manager

/-- The code of a task. -/
def codeOf : Task → ManagerCode
  | .handle p env os => Manager.handleCode p env os
  | .pass os => .acquire .workers (Manager.under Manager.passBody os)
  | .stop order os => .acquire .workers (Manager.under (Manager.stopBody order) os)

/-- A task done at once. -/
def Task.run (s : Maps) : Task → Outcome Exn Ptree × Manager
  | .handle p env os => (managerOf s os).handle p env
  | .pass os => (managerOf s os).passBody
  | .stop order os => (managerOf s os).stopBody order

/-- Tasks done at once, one after another. -/
def Task.runAll (s : Maps) : List Task → Maps × List (Outcome Exn Ptree)
  | [] => (s, [])
  | task :: tasks =>
    let (r, m) := task.run s
    let (s, rs) := runAll (mapsOf m) tasks
    (s, r :: rs)

/-! ### Run alone -/

@[simp] theorem mapsOf_managerOf (s : Maps) (os : Os) : mapsOf (managerOf s os) = s := by
  funext i
  cases i <;> rfl

/-- The code of a task, run alone, does the task. -/
theorem exec_codeOf (task : Task) (s : Maps) :
    (codeOf task).exec s = (mapsOf (task.run s).2, (task.run s).1) := by
  cases task with
  | pass os => rfl
  | stop order os => rfl
  | handle p env os =>
    simp only [codeOf, Task.run, Manager.handleCode, Manager.handle]
    cases Manager.requestOp p with
    | error e => simp [Code.exec]
    | ok op =>
      cases op with
      | createWorker =>
        simp only [Manager.createWorker]
        cases Manager.prepareWorker p env.uuid with
        | error e => simp [Code.exec]
        | ok proc => rfl
      | getWorkers => rfl
      | deleteWorker =>
        simp only [Manager.deleteWorker]
        cases Manager.requiredId p with
        | error e => simp [Code.exec]
        | ok id => rfl
      | createJob =>
        simp only [Manager.createJob]
        cases Manager.prepareJob p env.uuid with
        | error e => simp [Code.exec]
        | ok j => rfl
      | getJob =>
        simp only [Manager.getJob]
        cases Manager.requiredId p with
        | error e => simp [Code.exec]
        | ok id =>
          have hjobs : (managerOf s os).jobs = s .jobs := rfl
          simp only [Code.exec, hjobs]
          cases (s .jobs)[id]? with
          | none => simp [Code.exec]
          | some j => rfl
      | getJobs => rfl
      | deleteJob =>
        simp only [Manager.deleteJob]
        cases Manager.requiredId p with
        | error e => simp [Code.exec]
        | ok id =>
          have hjobs : (managerOf s os).jobs = s .jobs := rfl
          simp only [Code.exec, hjobs]
          cases (s .jobs).contains id with
          | false => simp [Code.exec]
          | true => rfl

theorem serial_codeOf (s : Maps) (tasks : List Task) :
    serial codeOf s tasks = Task.runAll s tasks := by
  induction tasks generalizing s with
  | nil => rfl
  | cons task tasks ih =>
    rw [serial, Task.runAll, exec_codeOf]
    simp only [ih]

/-! ### Well locked -/

namespace Manager

/-- The function neither reads nor writes the jobs. -/
def JobsBlind {α : Type} (f : Manager → α × Manager) : Prop :=
  ∀ m j, f { m with jobs := j } = ((f m).1, { (f m).2 with jobs := j })

/-- The function neither reads nor writes the workers. -/
def WorkersBlind {α : Type} (f : Manager → α × Manager) : Prop :=
  ∀ m w, f { m with workers := w } = ((f m).1, { (f m).2 with workers := w })

theorem JobsBlind.wellLocked {f : Manager → Outcome Exn Ptree × Manager} (h : JobsBlind f)
    (os : Os) : WellLocked [.workers] (under f os) := by
  have hjobs : ∀ m, (f m).2.jobs = m.jobs := fun m => congrArg (fun x => x.2.jobs) (h m m.jobs)
  refine ⟨fun s i hi => ?_, fun s t hst => ?_, fun s => trivial⟩
  · cases i with
    | jobs => exact hjobs (managerOf s os)
    | workers => simp at hi
  · have hw : s .workers = t .workers := hst .workers (by simp)
    have heq : managerOf t os = { managerOf s os with jobs := t .jobs } := by
      simp [managerOf, hw]
    have hf := h (managerOf s os) (t .jobs)
    rw [← heq] at hf
    refine ⟨fun i hi => ?_, ?_⟩
    · rw [List.mem_singleton.mp hi]
      exact congrArg (fun x => x.2.workers) hf.symm
    · exact congrArg (fun x => Code.ret x.1) hf.symm

theorem WorkersBlind.wellLocked {f : Manager → Outcome Exn Ptree × Manager} (h : WorkersBlind f)
    (os : Os) : WellLocked [.jobs] (under f os) := by
  have hworkers : ∀ m, (f m).2.workers = m.workers :=
    fun m => congrArg (fun x => x.2.workers) (h m m.workers)
  refine ⟨fun s i hi => ?_, fun s t hst => ?_, fun s => trivial⟩
  · cases i with
    | jobs => simp at hi
    | workers => exact hworkers (managerOf s os)
  · have hj : s .jobs = t .jobs := hst .jobs (by simp)
    have heq : managerOf t os = { managerOf s os with workers := t .workers } := by
      simp [managerOf, hj]
    have hf := h (managerOf s os) (t .workers)
    rw [← heq] at hf
    refine ⟨fun i hi => ?_, ?_⟩
    · rw [List.mem_singleton.mp hi]
      exact congrArg (fun x => x.2.jobs) hf.symm
    · exact congrArg (fun x => Code.ret x.1) hf.symm

theorem under_wellLocked (f : Manager → Outcome Exn Ptree × Manager) (os : Os) :
    WellLocked [.workers, .jobs] (under f os) := by
  refine ⟨fun s i hi => ?_, fun s t hst => ?_, fun s => trivial⟩
  · cases i <;> simp at hi
  · have heq : s = t := by
      funext i
      cases i with
      | jobs => exact hst .jobs (by simp)
      | workers => exact hst .workers (by simp)
    subst heq
    exact ⟨.refl _ _, rfl⟩

theorem jobsBlind_enterLocked (proc : Process) (launch : Launch) :
    JobsBlind (enterLocked proc launch) := by
  intro m j
  simp only [enterLocked]
  split <;> rfl

theorem jobsBlind_getWorkers : JobsBlind getWorkers := fun _ _ => rfl

theorem jobsBlind_deleteWorkerLocked (id : Str) : JobsBlind (deleteWorkerLocked id) := by
  intro m j
  simp only [deleteWorkerLocked]
  split <;> rfl

theorem jobsBlind_visit (id : Str) : JobsBlind fun m => m.visit id := by
  intro m j
  simp only [visit]
  split <;> rfl

theorem jobsBlind_passLoop (ids : List Str) : JobsBlind (passLoop ids) := by
  induction ids with
  | nil => exact fun _ _ => rfl
  | cons id ids ih =>
    intro m j
    have hvisit : visit { m with jobs := j } id =
        ((m.visit id).1, { (m.visit id).2 with jobs := j }) := jobsBlind_visit id m j
    simp only [passLoop]
    rw [hvisit]
    cases m.visit id with
    | mk r m' =>
      cases r with
      | ok _ => exact ih m' j
      | throw e => rfl
      | lost why => rfl

theorem jobsBlind_clearLoop (vs : List (Str × Process)) : JobsBlind (clearLoop vs) := by
  induction vs with
  | nil => exact fun _ _ => rfl
  | cons v vs ih =>
    intro m j
    have hremove : remove { m with jobs := j } v =
        ((m.remove v).1, { (m.remove v).2 with jobs := j }) := rfl
    simp only [clearLoop]
    rw [hremove]
    cases m.remove v with
    | mk r m' =>
      cases r with
      | ok _ => exact ih m' j
      | throw e => rfl
      | lost why => rfl

theorem jobsBlind_passBody : JobsBlind passBody := by
  intro m j
  have h := jobsBlind_passLoop m.workers.keys m j
  simp only [passBody, monitorPass, h]

theorem jobsBlind_stopBody (order : ClearOrder) : JobsBlind (stopBody order) := by
  intro m j
  have h := jobsBlind_clearLoop (order.arrange m.workers.toList) m j
  simp only [stopBody, stop, h]

theorem workersBlind_enterJobLocked (j : Job) : WorkersBlind (enterJobLocked j) := fun _ _ => rfl

theorem workersBlind_getJobs : WorkersBlind getJobs := fun _ _ => rfl

end Manager

theorem workers_wellLocked {k : ManagerCode} (h : WellLocked [Mutex.workers] k) :
    WellLocked [] (.acquire .workers k) := ⟨by simp, h⟩

theorem jobs_wellLocked {k : ManagerCode} (h : WellLocked [Mutex.jobs] k) :
    WellLocked [] (.acquire .jobs k) := ⟨by simp, h⟩

theorem check_wellLocked {k : Maps → ManagerCode}
    (hlocal : ∀ s t, s .jobs = t .jobs → k s = k t) (h : ∀ s, WellLocked [Mutex.jobs] (k s)) :
    WellLocked [Mutex.jobs] (.body (fun s => s) k) :=
  ⟨fun _ _ _ => rfl, fun s t hst => ⟨hst, hlocal s t (hst .jobs (by simp))⟩, h⟩

theorem both_wellLocked (f : Manager → Outcome Exn Ptree × Manager) (os : Os) :
    WellLocked [Mutex.jobs] (.acquire .workers (Manager.under f os)) :=
  ⟨by simpa using Mutex.jobs_lt_workers, Manager.under_wellLocked f os⟩

/-- Every task takes the mutexes in order, and touches only what they guard. -/
theorem codeOf_wellLocked (task : Task) : WellLocked [] (codeOf task) := by
  cases task with
  | pass os => exact workers_wellLocked (Manager.jobsBlind_passBody.wellLocked os)
  | stop order os => exact workers_wellLocked ((Manager.jobsBlind_stopBody order).wellLocked os)
  | handle p env os =>
    simp only [codeOf, Manager.handleCode]
    cases Manager.requestOp p with
    | error e => trivial
    | ok op =>
      cases op with
      | createWorker =>
        dsimp only
        cases Manager.prepareWorker p env.uuid with
        | error e => trivial
        | ok proc =>
          exact workers_wellLocked ((Manager.jobsBlind_enterLocked proc env.launch).wellLocked os)
      | getWorkers => exact workers_wellLocked (Manager.jobsBlind_getWorkers.wellLocked os)
      | deleteWorker =>
        dsimp only
        cases Manager.requiredId p with
        | error e => trivial
        | ok id => exact workers_wellLocked ((Manager.jobsBlind_deleteWorkerLocked id).wellLocked os)
      | createJob =>
        dsimp only
        cases Manager.prepareJob p env.uuid with
        | error e => trivial
        | ok j => exact jobs_wellLocked ((Manager.workersBlind_enterJobLocked j).wellLocked os)
      | getJob =>
        dsimp only
        cases Manager.requiredId p with
        | error e => trivial
        | ok id =>
          refine jobs_wellLocked (check_wellLocked (fun s t hst => by rw [hst]) fun s => ?_)
          cases (s .jobs)[id]? with
          | none => trivial
          | some j => exact both_wellLocked _ os
      | getJobs => exact jobs_wellLocked (Manager.workersBlind_getJobs.wellLocked os)
      | deleteJob =>
        dsimp only
        cases Manager.requiredId p with
        | error e => trivial
        | ok id =>
          refine jobs_wellLocked (check_wellLocked (fun s t hst => by rw [hst]) fun s => ?_)
          cases (s .jobs).contains id with
          | false => trivial
          | true => exact both_wellLocked _ os

/-- Any number of threads, each running any tasks: no cycle of threads waits for each other, the
responses are those of the tasks done at once in the order in which each took its last mutex, and so
is each map whose mutex is free. Once all threads are idle, these are all the tasks and both maps. -/
theorem serialisable {τ : Type} [DecidableEq τ] {s : Maps}
    {c : Config Guarded (Outcome Exn Ptree) Task τ} (h : Reachable codeOf s c) :
    (∀ t, ¬ Relation.TransGen (WaitsFor c) t t) ∧
      (Task.runAll s ((finished c.log).map Done.op)).2 = (finished c.log).map Done.response ∧
      (∀ i, c.owner i = none → c.state i = (Task.runAll s ((finished c.log).map Done.op)).1 i) ∧
      ((∀ t, c.threads t = none) → (finished c.log).map Done.op = c.log.map Record.op ∧
        c.state = (Task.runAll s (c.log.map Record.op)).1) := by
  obtain ⟨hresponses, hstate⟩ := h.serial codeOf_wellLocked
  rw [serial_codeOf] at hresponses hstate
  refine ⟨h.no_deadlock codeOf_wellLocked, hresponses, hstate, fun hidle => ?_⟩
  have hall := h.all_finished codeOf_wellLocked hidle
  refine ⟨hall, ?_⟩
  rw [← hall]
  funext i
  exact hstate i (h.free codeOf_wellLocked hidle i)

/-- A request for a job by its id. -/
def getJobRequest (id : Str) : Ptree := .ofFields
  [("operation".toList, "get-job".toList), ("id".toList, id)]

/-- The maps of a job with a worker. -/
def jobMaps : Maps := mapsOf (Service.perform {} [.request jobRequest { uuid := firstUuid },
  .request (pythonRequest firstUuid.1)
    { uuid := secondUuid, launch := .child 7 "RUNNING\n".toList }]).manager

def enterTask : Task := .handle (pythonRequest firstUuid.1)
  { uuid := thirdUuid, launch := .child 8 "RUNNING\n".toList } {}

def readTask : Task := .handle (getJobRequest firstUuid.1) { uuid := firstUuid } {}

/-- A worker of a job is entered while the job is read: the reader waits for the workers. -/
theorem serialisable_get_job :
    ∃ c : Config Guarded (Outcome Exn Ptree) Task Bool, (∀ t, c.threads t = none) ∧
      c.log.map Record.op = [enterTask, readTask] ∧
      (finished c.log).map Done.response = (Task.runAll jobMaps [enterTask, readTask]).2 ∧
      c.state = (Task.runAll jobMaps [enterTask, readTask]).1 := by
  have h : Reachable codeOf jobMaps _ :=
    ((((((((((((((Relation.ReflTransGen.refl.tail
      (.start true readTask rfl)).tail
      (.start false enterTask rfl)).tail
      (.acquire (t := true) rfl rfl)).tail
      (.acquire (t := false) rfl rfl)).tail
      (.body (t := true) rfl)).tail
      (.body (t := false) rfl)).tail
      (.leave (t := false) rfl)).tail
      (.release (t := false) rfl)).tail
      (.acquire (t := true) rfl rfl)).tail
      (.respond (t := false) rfl)).tail
      (.body (t := true) rfl)).tail
      (.leave (t := true) rfl)).tail
      (.release (t := true) rfl)).tail
      (.release (t := true) rfl)).tail
      (.respond (t := true) rfl)
  obtain ⟨hops, hstate⟩ := (serialisable h).2.2.2 fun t => by cases t <;> rfl
  refine ⟨_, fun t => ?_, rfl, ?_, hstate⟩
  · cases t <;> rfl
  · rw [← (serialisable h).2.1, hops]
    rfl

end Wye
