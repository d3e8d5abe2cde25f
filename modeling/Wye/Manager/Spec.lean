import Wye.Base.Maps
import Wye.Manager.Step
import Wye.Process.Handshake

/-!
# What the operations do

One lemma for each operation says everything it can do to the manager, and `handled` says it of a
request. From these, `handle_preserves`, `passLoop_preserves` and `stop_preserves` reduce an
invariant of the manager to its changes: a worker is entered, a worker is removed, a worker is
visited, and the map of jobs changes.
-/

namespace Wye

open Text Calls PropertyTree Loops

/-! ### The start of a worker -/

theorem reply_asserts (id : Str) (inputs : Inputs) : (reply id inputs).Asserts := by
  refine (Ptree.put_asserts _ _ _).bind fun r => ?_
  exact .ite ((Ptree.putAll_asserts _ _).bind fun ins => r.addChild_asserts _ ins)
    (Outcome.asserts_ok r)

/-- The launches after which a start is not rejected: there is a child, and if the class waits for
its handshake, the child completes it. -/
def Launch.Starts (model : Model) : Launch → Prop
  | .failed _ => False
  | .child _ stream => model = .application ∨ Handshake stream

namespace Process
variable {self : Process}

/-- The worker that `run_process` leaves behind once there is a child. -/
def started (self : Process) (pid : Pid) (stream : Str) : Process :=
  { self with
    proc := some pid
    inputs := if self.model = .application then self.inputs else (handshake self.inputs stream).2 }

@[simp] theorem started_model (pid : Pid) (stream : Str) :
    (self.started pid stream).model = self.model := rfl
@[simp] theorem started_id (pid : Pid) (stream : Str) : (self.started pid stream).id = self.id := rfl
@[simp] theorem started_name (pid : Pid) (stream : Str) :
    (self.started pid stream).name = self.name := rfl
@[simp] theorem started_jobId (pid : Pid) (stream : Str) :
    (self.started pid stream).jobId = self.jobId := rfl
@[simp] theorem started_state (pid : Pid) (stream : Str) :
    (self.started pid stream).state = self.state := rfl
@[simp] theorem started_outputs (pid : Pid) (stream : Str) :
    (self.started pid stream).outputs = self.outputs := rfl
@[simp] theorem started_exec (pid : Pid) (stream : Str) :
    (self.started pid stream).exec = self.exec := rfl
@[simp] theorem started_args (pid : Pid) (stream : Str) :
    (self.started pid stream).args = self.args := rfl
@[simp] theorem started_proc (pid : Pid) (stream : Str) :
    (self.started pid stream).proc = some pid := rfl

theorem runProcess_child (self : Process) (pid : Pid) (stream : Str) (os : Os) :
    self.runProcess (.child pid stream) os =
      ((if self.model = .application then .ok () else (handshake self.inputs stream).1).bind
          fun _ => reply self.id (self.started pid stream).inputs,
        self.started pid stream,
        os.fork self.id pid (cString self.exec) (self.args.map cString)) := by
  by_cases hm : self.model = .application
  · simp [runProcess, run, started, hm]
  · simp [runProcess, run, started, hm]

/-- The worker that `create_worker` leaves in the map. -/
def entered (self : Process) : Launch → Process
  | .failed _ => self
  | .child pid stream => self.started pid stream

/-- A start is rejected exactly after the launches that are no start. -/
theorem runProcess_throws_iff (hin : self.inputs = ∅) (launch : Launch) (os : Os) :
    (∃ e, (self.runProcess launch os).1 = .throw e) ↔ ¬ launch.Starts self.model := by
  cases launch with
  | failed what => exact iff_of_true ⟨_, rfl⟩ fun h => h
  | child pid stream =>
    have hreply := (reply_asserts self.id (self.started pid stream).inputs).ne_throw
    rw [runProcess_child, hin]
    by_cases hm : self.model = .application
    · rw [if_pos hm, Outcome.bind_ok]
      exact iff_of_false (fun ⟨e, he⟩ => hreply e he) (not_not.mpr (.inl hm))
    · rw [if_neg hm]
      by_cases hs : Handshake stream
      · rw [(handshake_ok_iff stream).mpr hs, Outcome.bind_ok]
        exact iff_of_false (fun ⟨e, he⟩ => hreply e he) (not_not.mpr (.inr hs))
      · obtain ⟨e, he⟩ := handshake_throws hs
        rw [he, Outcome.bind_throw]
        exact iff_of_true ⟨_, rfl⟩ fun h => h.elim hm hs

theorem runProcess_lost {launch : Launch} {os : Os} {why : Loss}
    (h : (self.runProcess launch os).1 = .lost why) : why = .assertion := by
  cases launch with
  | failed what => cases h
  | child pid stream =>
    have hreply := reply_asserts self.id (self.started pid stream).inputs
    rw [runProcess_child] at h
    split at h
    · exact hreply.why h
    · unfold handshake at h
      split at h
      · cases h
      · cases h
      · exact hreply.why h

end Process

namespace Manager
variable {m : Manager}

theorem enterLocked_failed (proc : Process) (what : Str) (m : Manager) :
    m.enterLocked proc (.failed what) =
      (.throw (.runtimeError what), { m with workers := m.workers.insert proc.id proc }) := rfl

theorem enterLocked_child (proc : Process) (pid : Pid) (stream : Str) (m : Manager) :
    (m.enterLocked proc (.child pid stream)).2 =
      { m with
        workers := m.workers.insert proc.id (proc.started pid stream)
        os := m.os.fork proc.id pid (cString proc.exec) (proc.args.map cString) } := by
  rw [enterLocked, Process.runProcess_child]
  dsimp only
  split <;> rfl

theorem enterLocked_workers (proc : Process) (launch : Launch) (m : Manager) :
    (m.enterLocked proc launch).2.workers = m.workers.insert proc.id (proc.entered launch) := by
  cases launch with
  | failed what => rfl
  | child pid stream => rw [enterLocked_child]; rfl

theorem enterLocked_jobs (proc : Process) (launch : Launch) (m : Manager) :
    (m.enterLocked proc launch).2.jobs = m.jobs := by
  cases launch with
  | failed what => rfl
  | child pid stream => rw [enterLocked_child]

theorem enterLocked_throws_iff (proc : Process) (launch : Launch) (m : Manager) :
    (∃ e, (m.enterLocked proc launch).1 = .throw e) ↔
      ∃ e, (proc.runProcess launch m.os).1 = .throw e := by
  rw [enterLocked]
  dsimp only
  split <;> simp_all

theorem enterLocked_lost {proc : Process} {launch : Launch} {why : Loss}
    (h : (m.enterLocked proc launch).1 = .lost why) : why = .assertion := by
  rw [enterLocked] at h
  dsimp only at h
  split at h
  · cases h
  · cases h
  · cases h
    exact Process.runProcess_lost ‹_›

/-! ### Removal -/

end Manager

theorem Process.destroy_cases (self : Process) (os : Os) :
    (self.destroy os).1 = .ok () ∨ (self.destroy os).1 = .lost .terminate := by
  unfold Process.destroy
  split
  · exact .inl rfl
  · dsimp only
    split
    · exact .inr rfl
    · split
      · exact .inr rfl
      · exact .inl rfl

namespace Manager
variable {m : Manager}

@[simp] theorem remove_jobs (m : Manager) (v : Str × Process) : (m.remove v).2.jobs = m.jobs := rfl

@[simp] theorem remove_workers (m : Manager) (v : Str × Process) :
    (m.remove v).2.workers = m.workers.erase v.1 := rfl

theorem remove_cases (m : Manager) (v : Str × Process) :
    (m.remove v).1 = .ok () ∨ (m.remove v).1 = .lost .terminate := v.2.destroy_cases m.os

theorem deleteLoop_preserves {I : Manager → Prop} {id : Str}
    (hremove : ∀ m v, I m → m.workers[v.1]? = some v.2 → v.2.jobId = id → I (m.remove v).2)
    (fuel : Nat) {m : Manager} (hm : I m) : I (m.deleteLoop fuel id).2 := by
  induction fuel generalizing m with
  | zero => exact hm
  | succ fuel ih =>
    rw [deleteLoop]
    cases hf : m.workers.toList.find? (·.2.jobId == id) with
    | none => exact hm
    | some v =>
      have hv := hremove m v hm (Maps.mem_toList.mp (List.mem_of_find?_eq_some hf))
        (by simpa using List.find?_some hf)
      dsimp only
      cases hr : m.remove v with
      | mk r m' =>
        rw [hr] at hv
        cases r with
        | ok _ => exact ih hv
        | throw e => exact hv
        | lost why => exact hv

/-- The loop of `delete_job` comes to its end, unless a destructor ends the service, and then the
workers left are those of other jobs. -/
theorem deleteLoop_spec {fuel : Nat} (id : Str) (hfuel : m.workers.size < fuel) :
    (m.deleteLoop fuel id).1 = .lost .terminate ∨
      (m.deleteLoop fuel id).1 = .ok () ∧ (m.deleteLoop fuel id).2.jobs = m.jobs ∧
        ∀ k : Str, (m.deleteLoop fuel id).2.workers[k]? =
          (m.workers[k]?).filter fun v => v.jobId != id := by
  induction fuel generalizing m with
  | zero => omega
  | succ fuel ih =>
    rw [deleteLoop]
    cases hf : m.workers.toList.find? (·.2.jobId == id) with
    | none =>
      refine .inr ⟨rfl, rfl, fun k => ?_⟩
      dsimp only
      cases hk : m.workers[k]? with
      | none => rfl
      | some v =>
        have hne := List.find?_eq_none.mp hf (k, v) (Maps.mem_toList.mpr hk)
        simpa [Option.filter] using hne
    | some v =>
      have hv : m.workers[v.1]? = some v.2 := Maps.mem_toList.mp (List.mem_of_find?_eq_some hf)
      have hjob : v.2.jobId = id := by simpa using List.find?_some hf
      have hsize := Maps.size_erase_lt hv
      dsimp only
      cases hr : m.remove v with
      | mk r m' =>
        have hm' : m' = (m.remove v).2 := by rw [hr]
        rcases remove_cases m v with hok | hlost
        · rw [hr] at hok
          cases hok
          have hrest := ih (m := m') (by rw [hm', remove_workers]; omega)
          refine hrest.imp_right fun ⟨hok, hjobs, hworkers⟩ => ⟨hok, ?_, fun k => ?_⟩
          · rw [hjobs, hm', remove_jobs]
          · rw [hworkers k, hm', remove_workers, Maps.get_erase]
            split
            · rename_i hk
              rw [← hk, hv]
              simp [Option.filter, hjob]
            · rfl
        · rw [hr] at hlost
          cases hlost
          exact .inl rfl

theorem deleteJobLocked_cases (id : Str) (m : Manager) :
    (m.deleteJobLocked id).1 = .lost .terminate ∨ (m.deleteJobLocked id).1 = .ok .empty ∧
      (m.deleteJobLocked id).2.jobs = m.jobs.erase id ∧
      ∀ k : Str, (m.deleteJobLocked id).2.workers[k]? =
        (m.workers[k]?).filter fun v => v.jobId != id := by
  have hspec := deleteLoop_spec id (Nat.lt_succ_self m.workers.size)
  rw [deleteJobLocked]
  cases hr : m.deleteLoop (m.workers.size + 1) id with
  | mk o m' =>
    rw [hr] at hspec
    rcases hspec with hlost | ⟨hok, hjobs, hworkers⟩
    · cases hlost
      exact .inl rfl
    · cases hok
      exact .inr ⟨rfl, congrArg (·.erase id) hjobs, hworkers⟩

/-! ### Answers -/

end Manager

theorem Process.describe_asserts (self : Process) : self.describe.Asserts := by
  refine (Ptree.put_asserts _ _ _).bind fun p => ?_
  refine (Outcome.Asserts.ite (p.put_asserts _ _) (Outcome.asserts_ok p)).bind fun p => ?_
  refine (p.put_asserts _ _).bind fun p => ?_
  refine (p.put_asserts _ _).bind fun p => ?_
  refine (p.put_asserts _ _).bind fun p => ?_
  refine (Outcome.Asserts.ite (p.addChild_asserts _ _) (Outcome.asserts_ok p)).bind fun p => ?_
  refine (Outcome.Asserts.ite ((Ptree.putAll_asserts _ _).bind fun ins => p.addChild_asserts _ ins)
    (Outcome.asserts_ok p)).bind fun p => ?_
  exact .ite ((Ptree.addAll_asserts _ _).bind fun outs => p.addChild_asserts _ outs)
    (Outcome.asserts_ok p)

namespace Manager
variable {m : Manager}

theorem describeAll_asserts (keep : Process → Bool) (ws : List (Str × Process)) :
    (describeAll keep ws).Asserts := by
  refine Outcome.asserts_foldl (fun r v => ?_) _ ws
  exact .ite (v.2.describe_asserts.bind fun w => r.addChild_asserts v.1 w) (Outcome.asserts_ok r)

theorem describeJob_asserts (j : Job) : (describeJob j).Asserts := by
  refine (Outcome.Asserts.ite (Ptree.put_asserts _ _ _) (Outcome.asserts_ok _)).bind fun r => ?_
  exact .ite (r.put_asserts _ _) (Outcome.asserts_ok r)

theorem getWorkers_asserts (m : Manager) : m.getWorkers.1.Asserts :=
  describeAll_asserts (fun _ => true) m.workers.toList

theorem getJobs_asserts (m : Manager) : m.getJobs.1.Asserts := by
  rw [getJobs]
  refine Outcome.asserts_foldl (fun r v => ?_) _ _
  exact (describeJob_asserts v.2).bind fun e => r.addChild_asserts v.1 e

theorem getJobLocked_asserts (id : Str) (j : Job) (m : Manager) :
    (m.getJobLocked id j).1.Asserts :=
  (describeAll_asserts _ _).bind fun w => (describeJob_asserts j).bind fun r =>
    r.addChild_asserts _ w

theorem enterJobLocked_asserts (j : Job) (m : Manager) : (m.enterJobLocked j).1.Asserts :=
  Ptree.put_asserts .empty "id".toList j.id

/-! ### Requests -/

/-- The worker that a request makes `create_worker` enter, if it gets that far. -/
def accepted (p : Ptree) (uuid : Uuid) : Option Process :=
  match requestOp p with
  | .ok .createWorker => (prepareWorker p uuid).toOption
  | _ => none

/-- What a request can come to. -/
inductive Handled (m : Manager) (p : Ptree) (env : Env) : Outcome Exn Ptree × Manager → Prop
  | rejected (e : Exn) : accepted p env.uuid = none → Handled m p env (.throw e, m)
  | listed : requestOp p = .ok .getWorkers → Handled m p env m.getWorkers
  | jobsListed : requestOp p = .ok .getJobs → Handled m p env m.getJobs
  | described (id : Str) (j : Job) : requestOp p = .ok .getJob → requiredId p = .ok id →
      m.jobs[id]? = some j → Handled m p env (m.getJobLocked id j)
  | entered (proc : Process) : accepted p env.uuid = some proc →
      Handled m p env (m.enterLocked proc env.launch)
  | removed (v : Str × Process) : requestOp p = .ok .deleteWorker → requiredId p = .ok v.1 →
      m.workers[v.1]? = some v.2 →
      Handled m p env ((m.remove v).1.map fun _ => .empty, (m.remove v).2)
  | jobEntered (j : Job) : requestOp p = .ok .createJob → prepareJob p env.uuid = .ok j →
      Handled m p env (m.enterJobLocked j)
  | jobDeleted (id : Str) : requestOp p = .ok .deleteJob → requiredId p = .ok id →
      m.jobs.contains id = true → Handled m p env (m.deleteJobLocked id)

theorem accepted_of_op {p : Ptree} {uuid : Uuid} {op : Operation} (hop : requestOp p = .ok op)
    (hne : op ≠ .createWorker) : accepted p uuid = none := by
  rw [accepted, hop]
  cases op with
  | createWorker => exact absurd rfl hne
  | _ => rfl

theorem op_of_accepted {p : Ptree} {uuid : Uuid} {proc : Process}
    (hacc : accepted p uuid = some proc) : requestOp p = .ok .createWorker := by
  rw [accepted] at hacc
  split at hacc
  · assumption
  · cases hacc

/-- What a request can come to, by its operation. -/
theorem handled (p : Ptree) (env : Env) (m : Manager) : Handled m p env (m.handle p env) := by
  unfold handle
  cases hop : requestOp p with
  | error e => exact .rejected e (by rw [accepted, hop])
  | ok op =>
    cases op with
    | createWorker =>
      dsimp only
      unfold createWorker
      cases hp : prepareWorker p env.uuid with
      | error e => exact .rejected e (by rw [accepted, hop, hp]; rfl)
      | ok proc => exact .entered proc (by rw [accepted, hop, hp]; rfl)
    | getWorkers => exact .listed hop
    | deleteWorker =>
      dsimp only
      unfold deleteWorker
      cases hid : requiredId p with
      | error e => exact .rejected e (accepted_of_op hop (by simp))
      | ok id =>
        dsimp only
        unfold deleteWorkerLocked
        cases hw : m.workers[id]? with
        | none => exact .rejected _ (accepted_of_op hop (by simp))
        | some proc => exact .removed (id, proc) hop hid hw
    | createJob =>
      dsimp only
      unfold createJob
      cases hp : prepareJob p env.uuid with
      | error e => exact .rejected e (accepted_of_op hop (by simp))
      | ok j => exact .jobEntered j hop hp
    | getJob =>
      dsimp only
      unfold getJob
      cases hid : requiredId p with
      | error e => exact .rejected e (accepted_of_op hop (by simp))
      | ok id =>
        dsimp only
        cases hj : m.jobs[id]? with
        | none => exact .rejected _ (accepted_of_op hop (by simp))
        | some j => exact .described id j hop hid hj
    | getJobs => exact .jobsListed hop
    | deleteJob =>
      dsimp only
      unfold deleteJob
      cases hid : requiredId p with
      | error e => exact .rejected e (accepted_of_op hop (by simp))
      | ok id =>
        dsimp only
        split
        · exact .jobDeleted id hop hid ‹_›
        · exact .rejected _ (accepted_of_op hop (by simp))

theorem handle_of_accepted {p : Ptree} {env : Env} {proc : Process}
    (hacc : accepted p env.uuid = some proc) : m.handle p env = m.enterLocked proc env.launch := by
  have h := handled p env m
  generalize m.handle p env = r at h
  cases h with
  | rejected e hnone => simp [hnone] at hacc
  | entered proc' hacc' =>
    rw [hacc] at hacc'
    cases hacc'
    rfl
  | listed hop => simp [accepted_of_op hop (by simp)] at hacc
  | jobsListed hop => simp [accepted_of_op hop (by simp)] at hacc
  | described id j hop => simp [accepted_of_op hop (by simp)] at hacc
  | removed v hop => simp [accepted_of_op hop (by simp)] at hacc
  | jobEntered j hop => simp [accepted_of_op hop (by simp)] at hacc
  | jobDeleted id hop => simp [accepted_of_op hop (by simp)] at hacc

/-- What the worker that `create_worker` enters looks like before it is started. -/
theorem accepted_spec {p : Ptree} {uuid : Uuid} {proc : Process}
    (h : accepted p uuid = some proc) : proc.id = uuid.1 ∧ proc.state = .running ∧
      proc.inputs = ∅ ∧ proc.proc = none ∧ proc.outputs = readOutputs p ∧
      p.get? "job_id".toList = some proc.jobId := by
  unfold accepted at h
  split at h
  · rename_i hop
    cases hp : prepareWorker p uuid with
    | error e => simp [hp, Except.toOption] at h
    | ok proc' =>
      rw [hp] at h
      cases h
      simp only [prepareWorker, bind_eq_ok] at hp
      obtain ⟨name, -, hp⟩ := hp
      split at hp
      · simp at hp
      · have hinit := initProcess_spec hp
        exact ⟨hinit.id, hinit.state, hinit.inputs, hinit.proc, hinit.outputs, hinit.jobId⟩
  · simp at h

theorem prepareJob_id {p : Ptree} {uuid : Uuid} {j : Job} (h : prepareJob p uuid = .ok j) :
    j.id = uuid.1 := by
  simp only [prepareJob, bind_eq_ok] at h
  obtain ⟨name, -, description, -, h⟩ := h
  cases h
  rfl

/-- What a request preserves: what entering the accepted worker, removing workers and changing the
map of jobs preserve. -/
theorem handle_preserves {I : Manager → Prop} {p : Ptree} {env : Env} (hm : I m)
    (henter : ∀ proc, accepted p env.uuid = some proc → I (m.enterLocked proc env.launch).2)
    (hremove : ∀ m v, I m → m.workers[v.1]? = some v.2 → I (m.remove v).2)
    (hjob : ∀ j, prepareJob p env.uuid = .ok j → I { m with jobs := m.jobs.insert j.id j })
    (hdrop : ∀ m id, I m → I { m with jobs := m.jobs.erase id }) : I (m.handle p env).2 := by
  have h := handled p env m
  generalize m.handle p env = r at h
  cases h with
  | rejected e => exact hm
  | listed => exact hm
  | jobsListed => exact hm
  | described id j => exact hm
  | entered proc hacc => exact henter proc hacc
  | removed v _ _ hv => exact hremove m v hm hv
  | jobEntered j _ hj => exact hjob j hj
  | jobDeleted id =>
    rw [deleteJobLocked]
    have hloop : I (m.deleteLoop (m.workers.size + 1) id).2 :=
      deleteLoop_preserves (fun m v hm hv _ => hremove m v hm hv) _ hm
    cases hr : m.deleteLoop (m.workers.size + 1) id with
    | mk r m' =>
      rw [hr] at hloop
      cases r with
      | ok _ => exact hdrop m' id hloop
      | throw e => exact hloop
      | lost why => exact hloop

/-! ### The monitor and `stop` -/

/-- What visiting a worker preserves, a pass preserves. -/
theorem passLoop_preserves {I : Manager → Prop} (hvisit : ∀ m id, I m → I (m.visit id).2)
    (ids : List Str) {m : Manager} (hm : I m) : I (passLoop ids m).2 := by
  induction ids generalizing m with
  | nil => exact hm
  | cons id ids ih =>
    have hv := hvisit m id hm
    rw [passLoop]
    cases hr : m.visit id with
    | mk r m' =>
      rw [hr] at hv
      cases r with
      | ok _ => exact ih hv
      | throw e => exact hv
      | lost why => exact hv

theorem clearLoop_preserves {I : Manager → Prop}
    (hremove : ∀ m v, I m → m.workers[v.1]? = some v.2 → I (m.remove v).2)
    {vs : List (Str × Process)} (hdistinct : (vs.map Prod.fst).Nodup) {m : Manager} (hm : I m)
    (hvs : ∀ v ∈ vs, m.workers[v.1]? = some v.2) : I (clearLoop vs m).2 := by
  induction vs generalizing m with
  | nil => exact hm
  | cons v vs ih =>
    rw [List.map_cons, List.nodup_cons] at hdistinct
    have hv := hremove m v hm (hvs v List.mem_cons_self)
    rw [clearLoop]
    cases hr : m.remove v with
    | mk r m' =>
      rw [hr] at hv
      cases r with
      | ok _ =>
        refine ih hdistinct.2 hv fun w hw => ?_
        have hne : v.1 ≠ w.1 := fun h => hdistinct.1 (h ▸ List.mem_map_of_mem hw)
        have hm' : m' = (m.remove v).2 := by rw [hr]
        rw [hm', remove_workers, Maps.get_erase_of_ne hne]
        exact hvs w (List.mem_cons_of_mem _ hw)
      | throw e => exact hv
      | lost why => exact hv

theorem mem_arrange {order : ClearOrder} {v : Str × Process} :
    v ∈ order.arrange m.workers.toList ↔ m.workers[v.1]? = some v.2 :=
  (order.perm _).mem_iff.trans Maps.mem_toList

theorem nodup_arrange (order : ClearOrder) (m : Manager) :
    ((order.arrange m.workers.toList).map Prod.fst).Nodup :=
  ((order.perm _).map Prod.fst).nodup_iff.mpr (Maps.nodup_keys m.workers)

theorem stop_preserves {I : Manager → Prop} (order : ClearOrder)
    (hremove : ∀ m v, I m → m.workers[v.1]? = some v.2 → I (m.remove v).2)
    (hclear : ∀ m, I m → I { m with workers := ∅ }) (hm : I m) : I (m.stop order).2 :=
  hclear _ (clearLoop_preserves hremove (nodup_arrange order m) hm fun _ hv => mem_arrange.mp hv)

end Manager

/-! ### Requests for the runs on fixed inputs -/

def firstUuid : Uuid := ⟨"00000000-0000-4000-8000-000000000001".toList, by decide⟩

def secondUuid : Uuid := ⟨"00000000-0000-4000-8000-000000000002".toList, by decide⟩

def thirdUuid : Uuid := ⟨"00000000-0000-4000-8000-000000000003".toList, by decide⟩

def fourthUuid : Uuid := ⟨"00000000-0000-4000-8000-000000000004".toList, by decide⟩

/-- A request for a python worker. -/
def pythonRequest (jobId : Str) : Ptree := .ofFields
  [("operation".toList, "create-worker".toList), ("model".toList, "python".toList),
    ("file".toList, "worker.py".toList), ("job_id".toList, jobId)]

/-- A request for a job. -/
def jobRequest : Ptree := .ofFields [("operation".toList, "create-job".toList),
  ("name".toList, "job".toList), ("description".toList, "a job".toList)]

/-- A request to delete a worker. -/
def deleteRequest (id : Str) : Ptree := .ofFields
  [("operation".toList, "delete-worker".toList), ("id".toList, id)]

end Wye
