import Wye.Manager.Store

/-!
# After a job is deleted

`delete_job` removes the job and the workers that carry its id. `create_worker` takes any `job_id`,
known or not, so a worker may carry the id again later: but only one that a later request brings
(`Service.later_workers_of_deleted_job`). The id itself is never issued again.
-/

namespace Wye

open Text Calls PropertyTree Transition

/-- The request asks for a worker with an id that carries a job. -/
def Action.Brings (a : Action) (k jobId : Str) : Prop :=
  ∃ p env proc, a = .request p env ∧ Manager.accepted p env.uuid = some proc ∧ proc.id = k ∧
    proc.jobId = jobId

theorem Service.jobIds_step {s : Service} {a : Action} {k : Str} {v : Process}
    (h : (s.step a).2.manager.workers[k]? = some v) :
    (∃ v', s.manager.workers[k]? = some v' ∧ v'.jobId = v.jobId) ∨ a.Brings k v.jobId := by
  rcases Service.workers_step h with ⟨v', hv', heq⟩ | ⟨p, env, proc, ha, hacc, hid, heq⟩
  · exact .inl ⟨v', hv', congrArg Entry.jobId heq⟩
  · refine .inr ⟨p, env, proc, ha, hacc, hid, ?_⟩
    refine Eq.trans ?_ (congrArg Entry.jobId heq)
    cases env.launch <;> rfl

/-- A job that is unknown after its id was issued stays unknown. -/
theorem Service.unknown_step {s : Service} {a : Action} (hvalid : a.Valid s) {id : Str}
    (hissued : id ∈ s.issued) (hnone : s.manager.jobs[id]? = none) :
    (s.step a).2.manager.jobs[id]? = none := by
  cases a with
  | request p env =>
    refine Manager.handle_preserves (m := s.manager.withScript env.script)
      (I := fun m => m.jobs[id]? = none) hnone ?_ (fun _ _ hm _ => hm) ?_ ?_
    · intro proc _
      rw [Manager.enterLocked_jobs]
      exact hnone
    · intro j hj
      have hne : j.id ≠ id := by
        rw [Manager.prepareJob_id hj]
        exact fun heq => hvalid.1 (heq ▸ hissued)
      exact (Maps.get_insert_of_ne hne j).trans hnone
    · intro m k hm
      dsimp only
      rw [Maps.get_erase]
      split
      · rfl
      · exact hm
  | pass script =>
    exact Manager.passLoop_preserves (m := s.manager.withScript script)
      (I := fun m => m.jobs[id]? = none) (fun m k hm => by
        unfold Manager.visit
        split <;> exact hm) _ hnone
  | stop script order =>
    exact Manager.stop_preserves (m := s.manager.withScript script)
      (I := fun m => m.jobs[id]? = none) order (fun _ _ hm _ => hm) (fun _ hm => hm) hnone
  | event e => exact hnone

/-- After a deletion that has succeeded, a worker that carries the job's id has been brought by a
request handled since, and the job stays unknown. -/
theorem Service.later_workers_of_deleted_job {s t : Service} (hs : s.Reachable) {p : Ptree}
    {env : Env} {id : Str} {r : Ptree}
    (hop : Manager.requestOp p = .ok .deleteJob) (hid : Manager.requiredId p = .ok id)
    (hok : (s.step (.request p env)).1 = .ok r) {as : List Action}
    (hrun : Run Service.Step (s.step (.request p env)).2 as t) :
    (∀ (k : Str) v, t.manager.workers[k]? = some v → v.jobId = id → ∃ a ∈ as, a.Brings k id) ∧
      t.manager.jobs[id]? = none := by
  suffices h : (∀ (k : Str) v, t.manager.workers[k]? = some v → v.jobId = id →
      ∃ a ∈ as, a.Brings k id) ∧ id ∈ t.issued ∧ t.manager.jobs[id]? = none from ⟨h.1, h.2.2⟩
  induction hrun with
  | nil =>
    obtain ⟨hknown, heq⟩ := Manager.handle_deleteJob (m := s.manager.withScript env.script) hop hid hok
    rcases Manager.deleteJobLocked_cases id (s.manager.withScript env.script) with
      hlost | ⟨-, hjobs, hworkers⟩
    · rw [← heq] at hlost
      cases hlost.symm.trans hok
    have hmanager : (s.step (.request p env)).2.manager =
        ((s.manager.withScript env.script).deleteJobLocked id).2.withScript [] := by
      rw [← heq]
      rfl
    rw [hmanager]
    refine ⟨fun k v hv hjob => ?_, List.mem_cons_of_mem _ ?_, ?_⟩
    · have hv' := (hworkers k).symm.trans hv
      simp [Option.filter_eq_some_iff, hjob] at hv'
    · obtain ⟨j, hj⟩ := Option.isSome_iff_exists.mp
        (Std.ExtTreeMap.isSome_getElem?_eq_contains.trans hknown)
      exact hs.sound.jobIssued id j hj
    · change ((s.manager.withScript env.script).deleteJobLocked id).2.jobs[id]? = none
      rw [hjobs, Maps.get_erase_self]
  | @snoc t u as a hlast hstep ih =>
    obtain ⟨hworkers, hissued, hnone⟩ := ih
    obtain ⟨-, hvalid', rfl⟩ := hstep
    refine ⟨fun k v hv hjob => ?_, Service.issued_step hissued, Service.unknown_step hvalid' hissued hnone⟩
    rcases Service.jobIds_step hv with ⟨v', hv', hjob'⟩ | hbrings
    · obtain ⟨b, hb, hbrings⟩ := hworkers k v' hv' (hjob'.trans hjob)
      exact ⟨b, List.mem_append_left _ hb, hbrings⟩
    · exact ⟨a, List.mem_append_right _ List.mem_cons_self, hjob ▸ hbrings⟩

/-- A request that names an operation and an id. -/
def idRequest (op id : Str) : Ptree := .ofFields [("operation".toList, op), ("id".toList, id)]

/-- The state after a job has been created under the first id. -/
def jobCreated : Service := Service.perform {} [.request jobRequest { uuid := firstUuid }]

theorem jobCreated_reachable : jobCreated.Reachable :=
  Service.Performs.reachable (by decide)

/-- The job is deleted. -/
def deletion : Action :=
  .request (idRequest "delete-job".toList firstUuid.1) { uuid := secondUuid }

/-- A worker that carries the job's id is brought. -/
def lateWorker : Action :=
  .request (pythonRequest firstUuid.1) { uuid := thirdUuid, launch := .child 7 "RUNNING\n".toList }

/-- A job is deleted, and a worker that carries its id comes later. -/
theorem Service.late_worker_of_deleted_job :
    (∀ (k : Str) v, (jobCreated.perform [deletion, lateWorker]).manager.workers[k]? = some v →
        v.jobId = firstUuid.1 → ∃ a ∈ [lateWorker], a.Brings k firstUuid.1) ∧
      (jobCreated.perform [deletion, lateWorker]).manager.jobs[firstUuid.1]? = none :=
  Service.later_workers_of_deleted_job jobCreated_reachable
    (p := idRequest "delete-job".toList firstUuid.1) rfl rfl rfl (.single ⟨by decide, by decide, rfl⟩)

/-- A worker with the id of a deleted job. -/
theorem Service.not_deleted_jobs_stay_empty : ¬ ∀ s t : Service, s.Reachable → ∀ p env id r,
    (Action.request p env).Valid s → s.up = true → Manager.requestOp p = .ok .deleteJob →
    Manager.requiredId p = .ok id → (s.step (.request p env)).1 = .ok r →
    ∀ as, Run Service.Step (s.step (.request p env)).2 as t →
      ∀ (k : Str) v, t.manager.workers[k]? = some v → v.jobId ≠ id := by
  intro h
  have hjob := h jobCreated (jobCreated.perform [deletion, lateWorker]) jobCreated_reachable
    (idRequest "delete-job".toList firstUuid.1) { uuid := secondUuid } firstUuid.1 .empty (by decide)
    (by decide) rfl rfl rfl [lateWorker] (.single ⟨by decide, by decide, rfl⟩) thirdUuid.1 _ rfl
  exact hjob rfl

end Wye
