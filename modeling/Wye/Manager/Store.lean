import Wye.Base.History
import Wye.Manager.Answers
import Wye.Manager.Requested

/-!
# The manager as a store

The purpose of the manager, stated without its maps: from the history of the actions and their
answers, a job is there when a request has created it and none has deleted it since, and a worker is
there when a request has entered it and none has deleted it or its job since (`jobEffects`,
`workerEffects`). The maps hold exactly that (`Service.storesHistory_of_run`), and the lists show
exactly the maps, as long as the names of the workers can be written (`Service.refines_history`).
-/

namespace Wye

open Text Calls PropertyTree Ptree Transition

/-- An action, and the answer it got. -/
abbrev Event := Action × Outcome Exn Ptree

/-! ### The abstract store -/

/-- The worker that an event enters, whether the request succeeds or not. -/
def entersWorker (x : Event) (k : Str) : Option Entry :=
  match x.1 with
  | .request p env => if env.uuid.1 = k then requestedWorker p env else none
  | _ => none

/-- Whether an event drops a worker: its deletion, the deletion of its job, or `stop`. -/
def dropsWorker (x : Event) (k : Str) (e : Entry) : Bool :=
  match x with
  | (.request p _, .ok _) =>
    (p.get? "operation".toList == some "delete-worker".toList && p.get? "id".toList == some k) ||
      (p.get? "operation".toList == some "delete-job".toList && p.get? "id".toList == some e.jobId)
  | (.stop _ _, _) => true
  | _ => false

/-- The job that an event enters. -/
def entersJob (x : Event) (k : Str) : Option Job :=
  match x.1 with
  | .request p env => if env.uuid.1 = k then requestedJob p env else none
  | _ => none

/-- Whether an event drops a job. -/
def dropsJob (x : Event) (k : Str) (_ : Job) : Bool :=
  match x with
  | (.request p _, .ok _) =>
    p.get? "operation".toList == some "delete-job".toList && p.get? "id".toList == some k
  | _ => false

def workerEffects : History.Effects Str Entry Event := ⟨entersWorker, dropsWorker⟩

def jobEffects : History.Effects Str Job Event := ⟨entersJob, dropsJob⟩

namespace Service

/-- The actions of a run with their answers. -/
def history (s : Service) : List Action → List Event
  | [] => []
  | a :: as => (a, (s.step a).1) :: history (s.step a).2 as

theorem perform_concat (s : Service) (as : List Action) (a : Action) :
    s.perform (as ++ [a]) = ((s.perform as).step a).2 := by
  induction as generalizing s with
  | nil => rfl
  | cons b as ih => exact ih (s.step b).2

theorem history_concat (s : Service) (as : List Action) (a : Action) :
    s.history (as ++ [a]) = s.history as ++ [(a, ((s.perform as).step a).1)] := by
  induction as generalizing s with
  | nil => rfl
  | cons b as ih => exact congrArg (_ :: ·) (ih (s.step b).2)

theorem run_eq_perform {s t : Service} {as : List Action} (h : Run Service.Step s as t) :
    t = s.perform as := by
  induction h with
  | nil => rfl
  | snoc _ hstep ih =>
    obtain ⟨-, -, rfl⟩ := hstep
    rw [perform_concat, ← ih]

end Service

/-! ### One step -/

namespace Manager
variable {m : Manager}

theorem handle_deleteJob {p : Ptree} {env : Env} {id : Str} (hop : requestOp p = .ok .deleteJob)
    (hid : requiredId p = .ok id) {r : Ptree} (h : (m.handle p env).1 = .ok r) :
    m.jobs.contains id = true ∧ m.handle p env = m.deleteJobLocked id := by
  rw [handle, hop] at h ⊢
  simp only [deleteJob, hid] at h ⊢
  split at h
  · rename_i hc
    exact ⟨hc, by rw [if_pos hc]⟩
  · cases h

theorem monitorPass_entries (m : Manager) (k : Str) :
    (m.monitorPass.2.workers[k]?).map Process.entry = (m.workers[k]?).map Process.entry := by
  refine passLoop_preserves (I := fun m' => (m'.workers[k]?).map Process.entry =
    (m.workers[k]?).map Process.entry) (fun m' id hm' => ?_) _ rfl
  rw [← hm', visit]
  cases hv : m'.workers[id]? with
  | none => rfl
  | some u =>
    dsimp only
    rw [Maps.get_insert]
    split
    · rename_i hid
      rw [← hid, hv]
      rcases u.isRunning_self m'.os.tick with hself | hself
      · rw [hself]
      · rw [hself]
        rfl
    · rfl

theorem monitorPass_jobs (m : Manager) : m.monitorPass.2.jobs = m.jobs := by
  refine passLoop_preserves (I := fun m' => m'.jobs = m.jobs) (fun m' id hm' => ?_) _ rfl
  rw [← hm', visit]
  split <;> rfl

theorem dropsWorker_of_op {p : Ptree} {op : Operation} (hop : requestOp p = .ok op)
    (hworker : op ≠ .deleteWorker) (hjob : op ≠ .deleteJob) (env : Env) (r : Outcome Exn Ptree)
    (k : Str) (e : Entry) : dropsWorker (.request p env, r) k e = false := by
  cases r with
  | ok t =>
    rw [dropsWorker, requestOp_eq_ok.mp hop]
    cases op with
    | deleteWorker => exact absurd rfl hworker
    | deleteJob => exact absurd rfl hjob
    | _ => rfl
  | throw e => rfl
  | lost why => rfl

theorem dropsJob_of_op {p : Ptree} {op : Operation} (hop : requestOp p = .ok op)
    (hjob : op ≠ .deleteJob) (env : Env) (r : Outcome Exn Ptree) (k : Str) (j : Job) :
    dropsJob (.request p env, r) k j = false := by
  cases r with
  | ok t =>
    rw [dropsJob, requestOp_eq_ok.mp hop]
    cases op with
    | deleteJob => exact absurd rfl hjob
    | _ => rfl
  | throw e => rfl
  | lost why => rfl

theorem entersWorker_request (p : Ptree) (env : Env) (r : Outcome Exn Ptree) (k : Str) :
    entersWorker (.request p env, r) k =
      (accepted p env.uuid).bind fun proc =>
        if proc.id = k then some (proc.entered env.launch).entry else none := by
  rw [entersWorker]
  dsimp only
  rw [← accepted_entry]
  cases hacc : accepted p env.uuid with
  | none => simp
  | some proc => rw [Option.map_some, Option.bind_some, (accepted_spec hacc).1]

theorem entersWorker_of_op {p : Ptree} {op : Operation} (hop : requestOp p = .ok op)
    (hne : op ≠ .createWorker) (env : Env) (r : Outcome Exn Ptree) (k : Str) :
    entersWorker (.request p env, r) k = none := by
  rw [entersWorker_request, accepted_of_op hop hne]
  rfl

theorem entersJob_of_op {p : Ptree} (hop : requestOp p ≠ .ok .createJob) (env : Env)
    (r : Outcome Exn Ptree) (k : Str) : entersJob (.request p env, r) k = none := by
  have hnot : ¬ p.get? "operation".toList = some "create-job".toList :=
    fun h => hop (requestOp_eq_ok.mpr h)
  simp only [entersJob, requestedJob, if_neg hnot, ite_self]

/-- A request that comes back does to the workers what the store says. -/
theorem handle_entries {p : Ptree} {env : Env} (hcame : came (m.handle p env).1 = true) (k : Str) :
    ((m.handle p env).2.workers[k]?).map Process.entry =
      workerEffects.next k ((m.workers[k]?).map Process.entry)
        (.request p env, (m.handle p env).1) := by
  have h := handled p env m
  generalize m.handle p env = r at h hcame
  have hkeeps : ∀ op, requestOp p = .ok op → op ≠ .createWorker → op ≠ .deleteWorker →
      op ≠ .deleteJob → ∀ o, workerEffects.next k o (.request p env, r.1) = o :=
    fun op hop h₁ h₂ h₃ => History.Effects.next_of_keeps (entersWorker_of_op hop h₁ env r.1 k)
      (dropsWorker_of_op hop h₂ h₃ env r.1 k)
  cases h with
  | rejected e hnone =>
    refine (History.Effects.next_of_keeps ?_ (fun _ => rfl) _).symm
    exact (entersWorker_request p env (.throw e) k).trans (by rw [hnone]; rfl)
  | listed hop => exact (hkeeps _ hop (by simp) (by simp) (by simp) _).symm
  | jobsListed hop => exact (hkeeps _ hop (by simp) (by simp) (by simp) _).symm
  | described id j hop => exact (hkeeps _ hop (by simp) (by simp) (by simp) _).symm
  | jobEntered j hop => exact (hkeeps _ hop (by simp) (by simp) (by simp) _).symm
  | entered proc hacc =>
    have henters : entersWorker (.request p env, (m.enterLocked proc env.launch).1) k =
        if proc.id = k then some (proc.entered env.launch).entry else none := by
      rw [entersWorker_request, hacc]
      rfl
    have hdrops := dropsWorker_of_op (op_of_accepted hacc) (by simp) (by simp) env
      (m.enterLocked proc env.launch).1 k
    rw [enterLocked_workers, Maps.get_insert]
    by_cases hk : proc.id = k
    · rw [if_pos hk] at henters ⊢
      exact (History.Effects.next_of_enters henters _).symm
    · rw [if_neg hk] at henters ⊢
      exact (History.Effects.next_of_keeps henters hdrops _).symm
  | removed v hop hid hv =>
    have henters := entersWorker_of_op hop (by simp) env ((m.remove v).1.map fun _ => .empty) k
    rcases remove_cases m v with hok | hlost
    · rw [hok] at henters ⊢
      have hdrops : ∀ e, dropsWorker (.request p env, .ok .empty) k e = (v.1 == k) := by
        intro e
        rw [dropsWorker, requestOp_eq_ok.mp hop, requiredId_eq_ok.mp hid]
        exact (Bool.or_false _).trans (Bool.true_and _)
      rw [remove_workers, Maps.get_erase]
      by_cases hk : v.1 = k
      · rw [if_pos hk]
        simp only [Outcome.map_ok] at henters ⊢
        rw [History.Effects.next]
        cases hw : (m.workers[k]?).map Process.entry with
        | none => simp [workerEffects, henters]
        | some e => simp [workerEffects, henters, hdrops, hk]
      · rw [if_neg hk]
        refine (History.Effects.next_of_keeps henters (fun e => ?_) _).symm
        exact (hdrops e).trans (by simp [hk])
    · rw [hlost] at hcame
      cases hcame
  | jobDeleted id hop hid =>
    have henters := entersWorker_of_op hop (by simp) env (m.deleteJobLocked id).1 k
    rcases deleteJobLocked_cases id m with hlost | ⟨hok, -, hworkers⟩
    · rw [hlost] at hcame
      cases hcame
    · rw [hok] at henters ⊢
      have hdrops : ∀ e, dropsWorker (.request p env, .ok .empty) k e = (id == e.jobId) := by
        intro e
        rw [dropsWorker, requestOp_eq_ok.mp hop, requiredId_eq_ok.mp hid]
        exact (Bool.false_or _).trans (Bool.true_and _)
      rw [hworkers, History.Effects.next]
      cases hw : m.workers[k]? with
      | none => simp [workerEffects, henters]
      | some v =>
        by_cases hjob : v.jobId = id
        · simp [workerEffects, henters, hdrops, hjob, Option.filter, Process.entry]
        · simp [workerEffects, henters, hdrops, hjob, Option.filter, Process.entry, Ne.symm hjob]

theorem createJob_jobs {p : Ptree} {env : Env} (hop : requestOp p = .ok .createJob) (k : Str) :
    (m.handle p env).2.jobs[k]? =
      jobEffects.next k m.jobs[k]? (.request p env, (m.handle p env).1) := by
  have hdrops := dropsJob_of_op hop (by simp) env (m.handle p env).1 k
  have henters : entersJob (.request p env, (m.handle p env).1) k =
      if env.uuid.1 = k then requestedJob p env else none := rfl
  have hhandle : m.handle p env = m.createJob p env := by rw [handle, hop]
  cases hj : prepareJob p env.uuid with
  | error e =>
    have hnone : requestedJob p env = none := by
      cases hr : requestedJob p env with
      | none => rfl
      | some j =>
        rw [(prepareJob_eq_ok hop).mpr hr] at hj
        cases hj
    rw [hnone, ite_self] at henters
    rw [History.Effects.next_of_keeps henters hdrops, hhandle, createJob, hj]
  | ok j =>
    have hjobs : (m.handle p env).2.jobs = m.jobs.insert j.id j := by
      rw [hhandle, createJob, hj]
      rfl
    rw [(prepareJob_eq_ok hop).mp hj, ← prepareJob_id hj] at henters
    rw [hjobs, Maps.get_insert]
    by_cases hk : j.id = k
    · rw [if_pos hk] at henters ⊢
      exact (History.Effects.next_of_enters henters _).symm
    · rw [if_neg hk] at henters ⊢
      exact (History.Effects.next_of_keeps henters hdrops _).symm

theorem handle_jobs {p : Ptree} {env : Env} (hcame : came (m.handle p env).1 = true) (k : Str) :
    (m.handle p env).2.jobs[k]? =
      jobEffects.next k m.jobs[k]? (.request p env, (m.handle p env).1) := by
  by_cases hcreate : requestOp p = .ok .createJob
  · exact createJob_jobs hcreate k
  have h := handled p env m
  generalize m.handle p env = r at h hcame
  have henters := entersJob_of_op hcreate env r.1 k
  have hkeeps : ∀ op, requestOp p = .ok op → op ≠ .deleteJob →
      ∀ o, jobEffects.next k o (.request p env, r.1) = o :=
    fun op hop hne => History.Effects.next_of_keeps henters (dropsJob_of_op hop hne env r.1 k)
  cases h with
  | rejected e => exact (History.Effects.next_of_keeps henters (fun _ => rfl) _).symm
  | listed hop => exact (hkeeps _ hop (by simp) _).symm
  | jobsListed hop => exact (hkeeps _ hop (by simp) _).symm
  | described id j hop => exact (hkeeps _ hop (by simp) _).symm
  | entered proc hacc =>
    rw [enterLocked_jobs]
    exact (hkeeps _ (op_of_accepted hacc) (by simp) _).symm
  | removed v hop =>
    exact (hkeeps _ hop (by simp) _).symm
  | jobEntered j hop => exact absurd hop hcreate
  | jobDeleted id hop hid =>
    rcases deleteJobLocked_cases id m with hlost | ⟨hok, hjobs, -⟩
    · rw [hlost] at hcame
      cases hcame
    · rw [hok] at henters ⊢
      have hdrops : ∀ j, dropsJob (.request p env, .ok .empty) k j = (id == k) := by
        intro j
        rw [dropsJob, requestOp_eq_ok.mp hop, requiredId_eq_ok.mp hid]
        exact Bool.true_and _
      rw [hjobs, Maps.get_erase, History.Effects.next]
      by_cases hk : id = k
      · rw [if_pos hk]
        cases hw : m.jobs[k]? with
        | none => simp [jobEffects, henters]
        | some j => simp [jobEffects, henters, hdrops, hk]
      · rw [if_neg hk]
        exact (History.Effects.next_of_keeps henters
          (fun j => (hdrops j).trans (by simp [hk])) _).symm

end Manager

namespace Service
variable {s t : Service} {as : List Action}

theorem entries_step {a : Action} (hcame : (s.step a).2.up = true) (k : Str) :
    ((s.step a).2.manager.workers[k]?).map Process.entry =
      workerEffects.next k ((s.manager.workers[k]?).map Process.entry) (a, (s.step a).1) := by
  cases a with
  | request p env => exact Manager.handle_entries (m := s.manager.withScript env.script) hcame k
  | pass script =>
    exact (Manager.monitorPass_entries (s.manager.withScript script) k).trans
      (History.Effects.next_of_keeps rfl (fun _ => rfl) _).symm
  | stop script order =>
    have hnone : (s.step (.stop script order)).2.manager.workers = ∅ := rfl
    rw [hnone, History.Effects.next]
    cases (s.manager.workers[k]?).map Process.entry <;> simp [workerEffects, entersWorker, dropsWorker]
  | event e => exact (History.Effects.next_of_keeps rfl (fun _ => rfl) _).symm

theorem jobs_step {a : Action} (hcame : (s.step a).2.up = true) (k : Str) :
    (s.step a).2.manager.jobs[k]? = jobEffects.next k s.manager.jobs[k]? (a, (s.step a).1) := by
  cases a with
  | request p env => exact Manager.handle_jobs (m := s.manager.withScript env.script) hcame k
  | pass script =>
    exact (congrArg (·[k]?) (Manager.monitorPass_jobs (s.manager.withScript script))).trans
      (History.Effects.next_of_keeps rfl (fun _ => rfl) _).symm
  | stop script order =>
    have hjobs : (s.step (.stop script order)).2.manager.jobs = s.manager.jobs :=
      Manager.stop_preserves (I := fun m => m.jobs = s.manager.jobs) order (fun _ _ hm _ => hm)
        (fun _ hm => hm) (m := s.manager.withScript script) rfl
    rw [hjobs]
    exact (History.Effects.next_of_keeps rfl (fun _ => rfl) _).symm
  | event e => exact (History.Effects.next_of_keeps rfl (fun _ => rfl) _).symm

/-- The maps are what the store computes from the history. -/
theorem held_of_run (h : Run Service.Step {} as s) (hup : s.up = true) (k : Str) :
    (s.manager.workers[k]?).map Process.entry = workerEffects.held (history {} as) k ∧
      s.manager.jobs[k]? = jobEffects.held (history {} as) k := by
  induction h with
  | nil => exact ⟨by simp [history], by simp [history]⟩
  | @snoc t u as a hrun hstep ih =>
    have ht := run_eq_perform hrun
    obtain ⟨hupt, -, rfl⟩ := hstep
    obtain ⟨hworkers, hjobs⟩ := ih hupt
    rw [history_concat, History.Effects.held_concat, History.Effects.held_concat, ← hworkers, ← hjobs,
      ← ht]
    exact ⟨entries_step hup k, jobs_step hup k⟩

/-! ### Ids are entered once -/

theorem issued_step {a : Action} {k : Str} (h : k ∈ s.issued) : k ∈ (s.step a).2.issued := by
  cases a with
  | request p env => exact List.mem_cons_of_mem _ h
  | pass script => exact h
  | stop script order => exact h
  | event e => exact h

theorem enters_uuid {x : Event} {k : Str} (h : entersWorker x k ≠ none ∨ entersJob x k ≠ none) :
    ∃ p env, x.1 = .request p env ∧ env.uuid.1 = k := by
  obtain ⟨a, r⟩ := x
  cases a with
  | request p env =>
    refine ⟨p, env, rfl, ?_⟩
    by_contra hk
    simp [entersWorker, entersJob, hk] at h
  | pass script => exact absurd rfl (h.resolve_right fun h => h rfl)
  | stop script order => exact absurd rfl (h.resolve_right fun h => h rfl)
  | event e => exact absurd rfl (h.resolve_right fun h => h rfl)

theorem history_once (h : Run Service.Step {} as s) :
    (∀ x ∈ history {} as, ∀ k, entersWorker x k ≠ none ∨ entersJob x k ≠ none → k ∈ s.issued) ∧
      workerEffects.Once (history {} as) ∧ jobEffects.Once (history {} as) := by
  induction h with
  | nil => exact ⟨by simp [history], .nil, .nil⟩
  | @snoc t u as a hrun hstep ih =>
    have ht := run_eq_perform hrun
    obtain ⟨hissued, hworkers, hjobs⟩ := ih
    obtain ⟨-, hvalid, rfl⟩ := hstep
    -- what the step enters is the id it has just been given
    have hnew : ∀ r k, entersWorker (a, r) k ≠ none ∨ entersJob (a, r) k ≠ none →
        k ∈ (t.step a).2.issued ∧ k ∉ t.issued := by
      intro r k henters
      obtain ⟨p, env, hx, rfl⟩ := enters_uuid henters
      cases hx
      exact ⟨List.mem_cons_self, hvalid.1⟩
    rw [history_concat, ← ht]
    refine ⟨?_, ?_, ?_⟩
    · intro x hx k henters
      rcases List.mem_append.mp hx with hx | hx
      · exact issued_step (hissued x hx k henters)
      · cases List.mem_singleton.mp hx
        exact (hnew _ k henters).1
    · refine List.pairwise_append.mpr ⟨hworkers, List.pairwise_singleton _ _, ?_⟩
      intro x hx y hy k henters
      cases List.mem_singleton.mp hy
      by_contra hy
      exact (hnew _ k (.inl hy)).2 (hissued x hx k (.inl henters))
    · refine List.pairwise_append.mpr ⟨hjobs, List.pairwise_singleton _ _, ?_⟩
      intro x hx y hy k henters
      cases List.mem_singleton.mp hy
      by_contra hy
      exact (hnew _ k (.inr hy)).2 (hissued x hx k (.inr henters))

/-! ### Entries never change -/

theorem workers_step {a : Action} {k : Str} {v : Process}
    (h : (s.step a).2.manager.workers[k]? = some v) :
    (∃ v', s.manager.workers[k]? = some v' ∧ v'.entry = v.entry) ∨
      ∃ p env proc, a = .request p env ∧ Manager.accepted p env.uuid = some proc ∧ proc.id = k ∧
        (proc.entered env.launch).entry = v.entry := by
  cases a with
  | request p env =>
    refine Manager.handle_preserves (m := s.manager.withScript env.script)
      (I := fun m => ∀ v, m.workers[k]? = some v →
        (∃ v', s.manager.workers[k]? = some v' ∧ v'.entry = v.entry) ∨
          ∃ q env' proc, Action.request p env = .request q env' ∧
            Manager.accepted q env'.uuid = some proc ∧ proc.id = k ∧
            (proc.entered env'.launch).entry = v.entry)
      (fun v hv => .inl ⟨v, hv, rfl⟩) ?_ ?_ (fun _ _ v hv => .inl ⟨v, hv, rfl⟩) (fun _ _ hm => hm) v h
    · intro proc hacc v hv
      rw [Manager.enterLocked_workers, Maps.get_insert] at hv
      split at hv
      · rename_i hid
        cases hv
        exact .inr ⟨p, env, proc, rfl, hacc, hid, rfl⟩
      · exact .inl ⟨v, hv, rfl⟩
    · intro m w hm _ v hv
      rw [Manager.remove_workers, Maps.get_erase] at hv
      split at hv
      · cases hv
      · exact hm v hv
  | pass script =>
    have hentries := Manager.monitorPass_entries (s.manager.withScript script) k
    have hv : ((s.manager.withScript script).monitorPass.2.workers[k]?).map Process.entry =
        some v.entry := congrArg (Option.map Process.entry) h
    rw [hentries] at hv
    exact .inl (Option.map_eq_some_iff.mp hv)
  | stop script order =>
    have hnone : ((∅ : Workers)[k]?) = some v := h
    simp at hnone
  | event e => exact .inl ⟨v, h, rfl⟩

theorem entry_step {a : Action} (hvalid : a.Valid s) {k : Str} {e : Entry} (hissued : k ∈ s.issued)
    (h : ∀ v, s.manager.workers[k]? = some v → v.entry = e) :
    ∀ v, (s.step a).2.manager.workers[k]? = some v → v.entry = e := by
  intro v hv
  rcases workers_step hv with ⟨v', hv', heq⟩ | ⟨p, env, proc, rfl, hacc, rfl, -⟩
  · exact heq ▸ h v' hv'
  · rw [(Manager.accepted_spec hacc).1] at hissued
    exact absurd hissued hvalid.1

theorem entry_run (hs : s.Sound) (h : Run Service.Step s as t) {k : Str} {v v' : Process}
    (hv : s.manager.workers[k]? = some v) (hv' : t.manager.workers[k]? = some v') :
    v'.entry = v.entry := by
  have hinv := h.invariant
    (I := fun t => k ∈ t.issued ∧ ∀ w, t.manager.workers[k]? = some w → w.entry = v.entry) ?_ ?_
  · exact hinv.2 v' hv'
  · rintro t a _ ⟨hissued, ht⟩ ⟨-, hvalid, rfl⟩
    exact ⟨issued_step hissued, entry_step hvalid hissued ht⟩
  · refine ⟨hs.workerIssued k v hv, fun w hw => ?_⟩
    rw [hv] at hw
    cases hw
    rfl

end Service

/-! ### The lists -/

namespace Manager
variable {m : Manager} {issued : List Str}

theorem handle_deleteJob_others {p : Ptree} (env : Env) {id : Str}
    (hop : requestOp p = .ok .deleteJob) (hid : requiredId p = .ok id) :
    (m.handle p env).1 ≠ .lost .endless ∧ ∀ (k : Str) v, m.workers[k]? = some v → v.jobId ≠ id →
      (m.handle p env).2.workers[k]? = some v := by
  rw [handle, hop]
  simp only [deleteJob, hid]
  split
  · constructor
    · rcases deleteJobLocked_cases id m with h | ⟨h, -⟩ <;> simp [h]
    · intro k v hv hjob
      have hloop : (m.deleteLoop (m.workers.size + 1) id).2.workers[k]? = some v := by
        refine deleteLoop_preserves (I := fun m => m.workers[k]? = some v) (fun m w hm hw hwjob => ?_)
          _ hv
        have hne : w.1 ≠ k := by
          rintro rfl
          rw [hm] at hw
          cases hw
          exact hjob hwjob
        rw [remove_workers, Maps.get_erase_of_ne hne, hm]
      rw [deleteJobLocked]
      split <;> simp_all
  · exact ⟨by simp, fun k v hv _ => hv⟩

theorem getWorkers_children (h : m.Sound issued) {t : Ptree} (ht : m.getWorkers.1 = .ok t) :
    t.data = [] ∧ entries (fun _ => true) m.workers.toList = .ok t.children := by
  rw [getWorkers_eq h] at ht
  obtain ⟨es, hes, rfl⟩ := Outcome.map_eq_ok.mp ht
  exact ⟨rfl, hes⟩

theorem getJob_workers (h : m.Sound issued) {id : Str} {j : Job} {t : Ptree}
    (ht : (m.getJobLocked id j).1 = .ok t) : ∃ ws,
      t = .node [] ((jobEntry j).children ++ [("workers".toList, .node [] ws)]) ∧
      entries (·.jobId == id) m.workers.toList = .ok ws ∧
      ∀ t', m.getWorkers.1 = .ok t' →
        ws = t'.children.filter fun e => e.2.get? "job_id".toList == some id := by
  rw [getJobLocked_eq h] at ht
  obtain ⟨ws, hws, rfl⟩ := Outcome.map_eq_ok.mp ht
  refine ⟨ws, rfl, hws, fun t' ht' => ?_⟩
  have hall := (getWorkers_children h ht').2
  rw [entries, List.filter_true] at hall
  have hsome := Outcome.traverse_filter (p := fun v : Str × Process => v.2.jobId == id)
    (q := fun e => e.2.get? "job_id".toList == some id) ?_ hall
  · rw [entries, hsome] at hws
    exact (Outcome.ok.inj hws).symm
  · intro v e he
    obtain ⟨w, hw, rfl⟩ := Outcome.map_eq_ok.mp he
    rw [(Process.get?_describe hw).2.1]
    rfl

end Manager

theorem Service.step_getWorkers {s : Service} {p : Ptree}
    (hop : p.get? "operation".toList = some "get-workers".toList) (env : Env) :
    (s.step (.request p env)).1 = (s.manager.withScript env.script).getWorkers.1 := by
  have hreq : Manager.requestOp p = .ok .getWorkers := Manager.requestOp_eq_ok.mpr hop
  change ((s.manager.withScript env.script).handle p env).1 = _
  rw [Manager.handle, hreq]

theorem Service.step_getJob {s : Service} {p : Ptree} {id : Str} {j : Job}
    (hop : p.get? "operation".toList = some "get-job".toList)
    (hid : p.get? "id".toList = some id) (hj : s.manager.jobs[id]? = some j) (env : Env) :
    (s.step (.request p env)).1 = ((s.manager.withScript env.script).getJobLocked id j).1 := by
  have hreq : Manager.requestOp p = .ok .getJob := Manager.requestOp_eq_ok.mpr hop
  have hj' : (s.manager.withScript env.script).jobs[id]? = some j := hj
  change ((s.manager.withScript env.script).handle p env).1 = _
  rw [Manager.handle, hreq]
  simp only [Manager.getJob, Manager.requiredId_eq_ok.mpr hid, hj']

/-- The maps of a state hold what the history that led to it leaves in the store, and a list that is
answered is a list of them. -/
structure Service.StoresHistory (s : Service) (h : List Event) : Prop where
  /-- Keys are the ids of their values. -/
  workerId : ∀ (k : Str) v, s.manager.workers[k]? = some v → v.id = k
  jobId : ∀ (k : Str) j, s.manager.jobs[k]? = some j → j.id = k
  /-- The jobs are those created and not deleted since. -/
  jobs : ∀ (k : Str) j, s.manager.jobs[k]? = some j ↔ jobEffects.Holds h k j
  /-- The workers are those entered and not deleted, nor their job, since. -/
  workers : ∀ (k : Str) e, (∃ v, s.manager.workers[k]? = some v ∧ v.entry = e) ↔
    workerEffects.Holds h k e
  /-- `delete-job` ends, and removes no worker of another job. -/
  deleteJob : ∀ p env id, p.get? "operation".toList = some "delete-job".toList →
    p.get? "id".toList = some id → (s.step (.request p env)).1 ≠ .lost .endless ∧
      ∀ (k : Str) v, s.manager.workers[k]? = some v → v.jobId ≠ id →
        (s.step (.request p env)).2.manager.workers[k]? = some v
  /-- No entry changes. -/
  unchanged : ∀ as t, Run Service.Step s as t → ∀ (k : Str) v v', s.manager.workers[k]? = some v →
    t.manager.workers[k]? = some v' → v'.entry = v.entry
  /-- `get-jobs` lists the jobs, in the order of the map. -/
  getJobs : ∀ p env, p.get? "operation".toList = some "get-jobs".toList →
    (s.step (.request p env)).1 =
      .ok (.node [] (s.manager.jobs.toList.map fun v => (v.1, Manager.jobEntry v.2)))
  /-- `get-workers` lists the workers, in the order of the map, each described. -/
  getWorkers : ∀ p env t, p.get? "operation".toList = some "get-workers".toList →
    (s.step (.request p env)).1 = .ok t → t.data = [] ∧
      List.Forall₂ (fun v e => e.1 = v.1 ∧ v.2.describe = .ok e.2) s.manager.workers.toList t.children
  /-- `get-job` lists the job, and as its workers the entries of `get-workers` with its id. -/
  getJob : ∀ p env id t, p.get? "operation".toList = some "get-job".toList →
    p.get? "id".toList = some id → (s.step (.request p env)).1 = .ok t →
      ∃ j ws, s.manager.jobs[id]? = some j ∧
        t = .node [] ((Manager.jobEntry j).children ++ [("workers".toList, .node [] ws)]) ∧
        List.Forall₂ (fun v e => e.1 = v.1 ∧ v.2.describe = .ok e.2)
          (s.manager.workers.toList.filter fun v => v.2.jobId == id) ws ∧
        ∀ q env' t', q.get? "operation".toList = some "get-workers".toList →
          (s.step (.request q env')).1 = .ok t' →
            ws = t'.children.filter fun e => e.2.get? "job_id".toList == some id

/-- The manager is the store of a history: it holds what the store holds, and it answers with lists of
it that can be written. -/
structure Service.RefinesHistory (s : Service) (h : List Event) : Prop extends
    s.StoresHistory h where
  answersWorkers : ∀ p env, p.get? "operation".toList = some "get-workers".toList →
    ∃ t, (s.step (.request p env)).1 = .ok t ∧ t.representable = true
  answersJob : ∀ p env id j, p.get? "operation".toList = some "get-job".toList →
    p.get? "id".toList = some id → s.manager.jobs[id]? = some j →
      ∃ t, (s.step (.request p env)).1 = .ok t ∧ t.representable = true

namespace Service
variable {s : Service} {as : List Action}

theorem storesHistory_of_run (h : Run Service.Step {} as s) (hup : s.up = true) :
    s.StoresHistory (history {} as) := by
  have hs : s.Sound := Service.Reachable.sound ⟨as, h⟩
  obtain ⟨-, honceWorkers, honceJobs⟩ := Service.history_once h
  refine ⟨hs.workerId, hs.jobId, fun k j => ?_, fun k e => ?_, ?_, ?_, ?_, ?_, ?_⟩
  · rw [(Service.held_of_run h hup k).2, History.Effects.held_iff _ honceJobs]
  · rw [← History.Effects.held_iff _ honceWorkers, ← (Service.held_of_run h hup k).1,
      Option.map_eq_some_iff]
  · intro p env id hop hid
    exact Manager.handle_deleteJob_others (m := s.manager.withScript env.script) env
      (Manager.requestOp_eq_ok.mpr hop) (Manager.requiredId_eq_ok.mpr hid)
  · intro as t hrun k v v' hv hv'
    exact Service.entry_run hs hrun hv hv'
  · intro p env hop
    have hreq : Manager.requestOp p = .ok .getJobs := Manager.requestOp_eq_ok.mpr hop
    change ((s.manager.withScript env.script).handle p env).1 = _
    rw [Manager.handle, hreq]
    exact congrArg Prod.fst (Manager.getJobs_eq (hs.withScript env.script))
  · intro p env t hop ht
    obtain ⟨hdata, hes⟩ := Manager.getWorkers_children (hs.withScript env.script)
      (step_getWorkers hop env ▸ ht)
    rw [Manager.entries_eq_ok, List.filter_true] at hes
    exact ⟨hdata, hes⟩
  · intro p env id t hop hid ht
    have hreq : Manager.requestOp p = .ok .getJob := Manager.requestOp_eq_ok.mpr hop
    change ((s.manager.withScript env.script).handle p env).1 = .ok t at ht
    rw [Manager.handle, hreq] at ht
    simp only [Manager.getJob, Manager.requiredId_eq_ok.mpr hid] at ht
    split at ht
    · cases ht
    · rename_i j hj
      obtain ⟨ws, rfl, hes, hall⟩ := Manager.getJob_workers (hs.withScript env.script) ht
      refine ⟨j, ws, hj, rfl, Manager.entries_eq_ok.mp hes, fun q env' t' hop' ht' => ?_⟩
      exact hall t' (step_getWorkers hop' env' ▸ ht')

/-- The manager is the store of its history exactly when the names of its workers can be written. -/
theorem refinesHistory_iff (h : Run Service.Step {} as s) (hup : s.up = true) :
    s.RefinesHistory (history {} as) ↔ s.manager.Writable := by
  have hs : s.Sound := Service.Reachable.sound ⟨as, h⟩
  constructor
  · intro href
    have hop : listRequest.get? "operation".toList = some "get-workers".toList := rfl
    obtain ⟨t, ht, hrep⟩ := href.answersWorkers listRequest { uuid := firstUuid } hop
    have hwritten : Written (s.step (.request listRequest { uuid := firstUuid })).1 := by
      rw [ht, written_ok]
      exact hrep
    exact (getWorkers_written_iff hs (Manager.requestOp_eq_ok.mpr hop)).mp hwritten
  · intro hwritable
    refine ⟨storesHistory_of_run h hup, fun p env hop => ?_, fun p env id j hop hid hj => ?_⟩
    · rw [step_getWorkers hop env]
      exact (written_iff_of_asserts (Manager.getWorkers_asserts _)).mp
        ((Manager.getWorkers_written_iff (hs.withScript env.script)).mpr hwritable)
    · rw [step_getJob hop hid hj env]
      exact Manager.getJobLocked_answers (hs.withScript env.script) hwritable id j

/-- In every run in which the service is up the maps are the store of its history. The lists are so
exactly when the names of the workers can be written, and they can in every run whose workers bring
safe names. -/
theorem refines_history (h : Run Service.Step {} as s) (hup : s.up = true) :
    s.StoresHistory (history {} as) ∧
      (s.RefinesHistory (history {} as) ↔ s.manager.Writable) ∧
      (Run (Transition.Guarded Service.Step NamesSafe) {} as s → s.RefinesHistory (history {} as)) :=
  ⟨storesHistory_of_run h hup, refinesHistory_iff h hup,
    fun hsafe => (refinesHistory_iff h hup).mpr (ReachableBy.writable ⟨as, hsafe⟩)⟩

/-- A worker is entered, visited and deleted. -/
def deletedRun : List Action := [
  .request (pythonRequest "job".toList) { uuid := firstUuid, launch := .child 7 "RUNNING\n".toList },
  .pass [], .request (deleteRequest firstUuid.1) { uuid := secondUuid }]

theorem refines_history_deleted :
    (perform {} deletedRun).RefinesHistory (history {} deletedRun) :=
  have hsafe : Performs NamesSafe {} deletedRun := by decide +kernel
  (refines_history hsafe.run.of_guarded (by decide)).2.2 hsafe.run

/-- A request for a python worker with an output that has no name. -/
def unnamedRequest : Ptree := .node [] ((pythonRequest "job".toList).children ++
  [("outputs".toList, .node [] [([], .empty)])])

/-- A worker with an output that has no name is entered, and the workers cannot be listed any more. -/
theorem not_refines_history : ¬ ∀ s as, Run Service.Step {} as s → s.up = true →
    s.RefinesHistory (history {} as) := by
  intro h
  have hrun : Performs (fun _ _ => True) {} [.request unnamedRequest
    { uuid := firstUuid, launch := .child 7 "RUNNING\n".toList }] := by decide
  have href := h _ _ hrun.freeRun (by decide)
  obtain ⟨t, ht, -⟩ := href.answersWorkers listRequest { uuid := secondUuid } rfl
  exact absurd ht (by rintro ⟨⟩)

end Service

end Wye
