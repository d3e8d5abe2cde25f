import Wye.Manager.Invariant

/-!
# What a failed request leaves behind

`create_worker` puts the worker in the map before it starts it, and the map keeps its pointer when
`run_process` throws. So a request fails cleanly (`Service.FailsCleanly`) exactly when it is not one
whose worker is accepted and then does not start.
-/

namespace Wye

open Text Calls PropertyTree

namespace Manager
variable {m : Manager}

theorem remove_ne_throw (m : Manager) (v : Str × Process) (e : Exn) : (m.remove v).1 ≠ .throw e := by
  rcases remove_cases m v with h | h <;> simp [h]

theorem deleteJobLocked_ne_throw (id : Str) (m : Manager) (e : Exn) :
    (m.deleteJobLocked id).1 ≠ .throw e := by
  rw [deleteJobLocked]
  rcases deleteLoop_spec id (Nat.lt_succ_self m.workers.size) with h | ⟨h, -⟩
  · split <;> simp_all
  · split <;> simp_all

/-- A request that throws has changed nothing, or it has entered a worker that did not start. -/
theorem handle_throws {p : Ptree} {env : Env} {e : Exn} (he : (m.handle p env).1 = .throw e) :
    (m.handle p env).2 = m ∨
      ∃ proc, accepted p env.uuid = some proc ∧ ¬ env.launch.Starts proc.model := by
  have h := handled p env m
  generalize m.handle p env = r at h he
  cases h with
  | rejected e => exact .inl rfl
  | listed => exact .inl rfl
  | jobsListed => exact .inl rfl
  | described id j => exact .inl rfl
  | entered proc hacc =>
    obtain ⟨-, -, hin, -⟩ := accepted_spec hacc
    refine .inr ⟨proc, hacc, ?_⟩
    rw [← Process.runProcess_throws_iff hin env.launch m.os, ← enterLocked_throws_iff]
    exact ⟨e, he⟩
  | removed v =>
    have hne := remove_ne_throw m v
    cases hr : (m.remove v).1 <;> simp_all
  | jobEntered j => exact absurd he ((enterJobLocked_asserts j m).ne_throw e)
  | jobDeleted id => exact absurd he (deleteJobLocked_ne_throw id m e)

theorem handle_leaves_worker {p : Ptree} {env : Env} {proc : Process}
    (hacc : accepted p env.uuid = some proc) (hstart : ¬ env.launch.Starts proc.model) :
    (∃ e, (m.handle p env).1 = .throw e) ∧
      (m.handle p env).2.workers[env.uuid.1]? ≠ none := by
  obtain ⟨hid, -, hin, -⟩ := accepted_spec hacc
  rw [handle_of_accepted hacc]
  constructor
  · rw [enterLocked_throws_iff, Process.runProcess_throws_iff hin]
    exact hstart
  · cases env.launch with
    | failed what => simp [enterLocked_failed, ← hid]
    | child pid stream => simp [enterLocked_child, ← hid]

end Manager

/-- If the request throws, the two maps are as before, and no child that was started for it runs on
or is held by a worker. -/
def Service.FailsCleanly (s : Service) (p : Ptree) (env : Env) : Prop :=
  ∀ e, (s.step (.request p env)).1 = .throw e →
    (s.step (.request p env)).2.manager.jobs = s.manager.jobs ∧
    (s.step (.request p env)).2.manager.workers = s.manager.workers ∧
    ∀ c ∈ (s.step (.request p env)).2.manager.os.children, c.owner = env.uuid.1 →
      c.status ≠ .running ∧
        ∀ v, (s.step (.request p env)).2.manager.workers[c.owner]? = some v → v.proc ≠ some c.pid

/-- A request fails cleanly exactly when it does not ask for a worker that is accepted and whose
launch is then no start: `posix_launch` throws, or the class waits for the handshake and the stream
is not one. -/
theorem Service.failsCleanly_iff {s : Service} (hs : s.Reachable) {p : Ptree} {env : Env}
    (hvalid : (Action.request p env).Valid s) :
    s.FailsCleanly p env ↔ ¬ ∃ proc, Manager.accepted p env.uuid = some proc ∧
      ¬ env.launch.Starts proc.model := by
  have hsound := hs.sound
  constructor
  · rintro hclean ⟨proc, hacc, hstart⟩
    obtain ⟨⟨e, he⟩, hentered⟩ :=
      Manager.handle_leaves_worker (m := s.manager.withScript env.script) hacc hstart
    obtain ⟨-, hworkers, -⟩ := hclean e he
    refine hentered ?_
    change (s.step (.request p env)).2.manager.workers[env.uuid.1]? = none
    rw [hworkers, Option.eq_none_iff_forall_ne_some]
    intro v hv
    exact hvalid.1 (hsound.workerIssued _ v hv)
  · rintro hstart e he
    rcases Manager.handle_throws (m := s.manager.withScript env.script) he with hm | hbad
    · have hstep : (s.step (.request p env)).2.manager =
          ((s.manager.withScript env.script).handle p env).2.withScript [] := rfl
      rw [hstep, hm]
      refine ⟨rfl, rfl, fun c hc howner => ?_⟩
      exact absurd (howner ▸ hsound.ownerIssued c hc) hvalid.1
    · exact absurd hbad hstart

/-! ### A worker that reports an error -/

/-- After an `ERROR:` line the worker is still in the map, with a child that runs. -/
theorem Service.not_failsCleanly : ¬ ∀ s : Service, s.Reachable → ∀ p env,
    (Action.request p env).Valid s → s.FailsCleanly p env := by
  intro h
  have hclean := h {} ⟨[], .nil⟩ (pythonRequest "job".toList)
    { uuid := firstUuid, launch := .child 7 "INIT\nERROR:no input\n".toList } (by decide)
    _ rfl
  have hworkers := congrArg (·.size) hclean.2.1
  exact absurd hworkers (by decide)

/-- A service with a worker rejects a request for another one that names no file. -/
theorem Service.failsCleanly_no_file :
    let s := Service.perform {} [.request (pythonRequest "job".toList)
      { uuid := firstUuid, launch := .child 7 "RUNNING\n".toList }]
    let p := Ptree.ofFields [("operation".toList, "create-worker".toList),
      ("model".toList, "python".toList), ("job_id".toList, "job".toList)]
    let env : Env := { uuid := secondUuid, launch := .child 8 "RUNNING\n".toList }
    (∃ e, (s.step (.request p env)).1 = .throw e) ∧ s.FailsCleanly p env := by
  refine ⟨⟨_, rfl⟩, (Service.failsCleanly_iff ?_ (by decide)).mpr ?_⟩
  · exact Service.Performs.reachable (by decide)
  · rintro ⟨proc, hacc, -⟩
    cases hacc

end Wye
