import Wye.Connection

/-!
# Replies and their status

Which requests a client should not have sent (`BadRequest`), said in terms of the request and the maps
only, and which status the reply has. `manager::handle` throws `invalid_request` for all of them but
one kind: what `init_process` throws is thrown again as it is, and the connection takes it for a
failure of its own (`classified_iff`).
-/

namespace Wye

open Text Calls PropertyTree

/-! ### Requests that cannot be accepted -/

/-- The fields that `init_process` of a class wants. -/
def Model.mandatory : Model → List Str
  | .application | .executable => ["exe".toList, "job_id".toList]
  | .python | .lua => ["file".toList, "job_id".toList]
  | .lambda => ["lambda".toList, "job_id".toList, "call".toList]

/-- A field of the class is missing, or the path of an application is not absolute. -/
def Model.Refuses (model : Model) (p : Ptree) : Prop :=
  (∃ key ∈ model.mandatory, p.get? key = none) ∨
    model = .application ∧ ∃ exe, p.get? "exe".toList = some exe ∧ exe.head? ≠ some '/'

namespace Manager

/-- The request names an operation. -/
def Asks (p : Ptree) (op : Operation) : Prop :=
  (p.get? "operation".toList).bind operationOf = some op

instance (p : Ptree) (op : Operation) : Decidable (Asks p op) :=
  inferInstanceAs (Decidable (_ = some op))

/-- The request is for a worker of a model. -/
def AsksModel (p : Ptree) (model : Model) : Prop :=
  Asks p .createWorker ∧ (p.get? "model".toList).bind modelOf = some model

/-- What is wrong with a request for an operation: the model is missing or unknown, or a field of the
model is wrong; the id is missing or unknown; the name or the description of a job is missing. -/
def Refuses (m : Manager) (p : Ptree) : Operation → Prop
  | .createWorker => (∀ model, ¬ AsksModel p model) ∨ ∃ model, AsksModel p model ∧ model.Refuses p
  | .deleteWorker => ¬ ∃ id : Str, p.get? "id".toList = some id ∧ m.workers[id]? ≠ none
  | .createJob => p.get? "name".toList = none ∨ p.get? "description".toList = none
  | .getJob | .deleteJob => ¬ ∃ id : Str, p.get? "id".toList = some id ∧ m.jobs[id]? ≠ none
  | .getWorkers | .getJobs => False

/-- The request itself cannot be accepted. -/
def Unacceptable (m : Manager) (p : Ptree) : Prop :=
  (∀ op, ¬ Asks p op) ∨ ∃ op, Asks p op ∧ m.Refuses p op

/-- The request is for a worker of a known model, with fields that `init_process` refuses. -/
def InitRefuses (p : Ptree) : Prop := ∃ model, AsksModel p model ∧ model.Refuses p

theorem Asks.unique {p : Ptree} {op op' : Operation} (h : Asks p op) (h' : Asks p op') : op = op' :=
  Option.some.inj (h.symm.trans h')

theorem AsksModel.unique {p : Ptree} {model model' : Model} (h : AsksModel p model)
    (h' : AsksModel p model') : model = model' :=
  Option.some.inj (h.2.symm.trans h'.2)

theorem InitRefuses.unacceptable {p : Ptree} (h : InitRefuses p) (m : Manager) :
    m.Unacceptable p := by
  obtain ⟨model, hasks, hrefuses⟩ := h
  exact .inr ⟨.createWorker, hasks.1, .inr ⟨model, hasks, hrefuses⟩⟩

theorem unacceptable_iff {m : Manager} {p : Ptree} {op : Operation} (h : Asks p op) :
    m.Unacceptable p ↔ m.Refuses p op := by
  constructor
  · rintro (hnone | ⟨op', hop', hrefuses⟩)
    · exact absurd h (hnone op)
    · exact h.unique hop' ▸ hrefuses
  · intro hrefuses
    exact .inr ⟨op, h, hrefuses⟩

end Manager

/-! ### What `init_process` throws -/

/-- An exception other than `invalid_request`. -/
def Exn.Internal (e : Exn) : Prop := ∀ what, e ≠ .invalidRequest what

theorem field_cases (p : Ptree) (key : Str) :
    (∃ v, p.get? key = some v ∧ field p key = .ok v) ∨
      p.get? key = none ∧ ∃ e, field p key = .error e ∧ e.Internal := by
  unfold field
  cases p.get? key with
  | some v => exact .inl ⟨v, rfl, rfl⟩
  | none => exact .inr ⟨rfl, _, rfl, fun what h => by cases h⟩

/-- `init_process` succeeds, or a field is refused. -/
def InitCase (p : Ptree) (model : Model) (r : Except Exn Process) : Prop :=
  (¬ model.Refuses p ∧ ∃ proc, r = .ok proc) ∨ model.Refuses p ∧ ∃ e, r = .error e ∧ e.Internal

theorem exists_lacking {p : Ptree} (a b : Str) :
    (∃ key ∈ [a, b], p.get? key = none) ↔ p.get? a = none ∨ p.get? b = none := by simp

theorem initScript_case {exec interpreter : Str} {p : Ptree} {self : Process} {model : Model}
    (hmodel : model = .python ∨ model = .lua) :
    InitCase p model (initScript exec interpreter p self) := by
  have hrefuses : model.Refuses p ↔
      p.get? "file".toList = none ∨ p.get? "job_id".toList = none := by
    rw [← exists_lacking]
    rcases hmodel with rfl | rfl
    · exact or_iff_left fun h => by cases h.1
    · exact or_iff_left fun h => by cases h.1
  rw [InitCase, hrefuses, initScript]
  rcases field_cases p "file".toList with ⟨file, hget, hf⟩ | ⟨hget, e, hf, he⟩
  · rcases field_cases p "job_id".toList with ⟨job, hget', hj⟩ | ⟨hget', e, hj, he⟩
    · rw [hf, hj, hget, hget']
      exact .inl ⟨by simp, _, rfl⟩
    · rw [hf, hj]
      exact .inr ⟨.inr hget', e, rfl, he⟩
  · rw [hf]
    exact .inr ⟨.inl hget, e, rfl, he⟩

theorem initProgram_case {check : Str → Except Exn Unit} {p : Ptree} {self : Process} {model : Model}
    (hmodel : model.mandatory = ["exe".toList, "job_id".toList])
    (hcheck : ∀ exe : Str, (¬ (model = .application ∧ exe.head? ≠ some '/') ∧ check exe = .ok ()) ∨
      (model = .application ∧ exe.head? ≠ some '/') ∧ ∃ e, check exe = .error e ∧ e.Internal) :
    InitCase p model (initProgram check p self) := by
  rw [InitCase, Model.Refuses, hmodel, exists_lacking, initProgram]
  rcases field_cases p "exe".toList with ⟨exe, hget, hx⟩ | ⟨hget, e, hx, he⟩
  · have hpath : (model = .application ∧
        ∃ exe, p.get? "exe".toList = some exe ∧ exe.head? ≠ some '/') ↔
        model = .application ∧ exe.head? ≠ some '/' := by
      refine and_congr_right fun _ => ⟨?_, fun h => ⟨exe, hget, h⟩⟩
      rintro ⟨exe', hget', h⟩
      exact Option.some.inj (hget.symm.trans hget') ▸ h
    rw [hpath, hx]
    rcases hcheck exe with ⟨habs, hc⟩ | ⟨hrel, e, hc, he⟩
    · rcases field_cases p "job_id".toList with ⟨job, hget', hj⟩ | ⟨hget', e, hj, he⟩
      · refine .inl ⟨?_, ?_⟩
        · rintro ((h | h) | h)
          · cases hget.symm.trans h
          · cases hget'.symm.trans h
          · exact habs h
        · exact ⟨_, by simp only [Bind.bind, Except.bind, hc, hj]; rfl⟩
      · exact .inr ⟨.inl (.inr hget'), e, by simp only [Bind.bind, Except.bind, hc, hj], he⟩
    · exact .inr ⟨.inr hrel, e, by simp only [Bind.bind, Except.bind, hc], he⟩
  · rw [hx]
    exact .inr ⟨.inl (.inl hget), e, rfl, he⟩

theorem executableInit_case (p : Ptree) (self : Process) :
    InitCase p .executable (executableInit p self) := by
  refine initProgram_case rfl fun exe => .inl ⟨?_, rfl⟩
  rintro ⟨h, -⟩
  cases h

theorem take_one_ne_iff (exe : Str) : exe.take 1 ≠ "/".toList ↔ exe.head? ≠ some '/' := by
  show exe.take 1 ≠ ['/'] ↔ exe.head? ≠ some '/'
  cases exe with
  | nil => simp
  | cons c exe => simp

theorem applicationInit_case (p : Ptree) (self : Process) :
    InitCase p .application (applicationInit p self) := by
  refine initProgram_case rfl fun exe => ?_
  by_cases hslash : exe.take 1 ≠ "/".toList
  · refine .inr ⟨⟨rfl, (take_one_ne_iff exe).mp hslash⟩, _, if_pos hslash, ?_⟩
    exact fun what h => by cases h
  · exact .inl ⟨fun h => hslash ((take_one_ne_iff exe).mpr h.2), if_neg hslash⟩

theorem lambdaInit_case (p : Ptree) (self : Process) :
    InitCase p .lambda (lambdaInit p self) := by
  have hlacking : ∀ a b c : Str, (∃ key ∈ [a, b, c], p.get? key = none) ↔
      p.get? a = none ∨ p.get? b = none ∨ p.get? c = none := by simp
  have hrefuses : Model.lambda.Refuses p ↔ p.get? "lambda".toList = none ∨
      p.get? "job_id".toList = none ∨ p.get? "call".toList = none := by
    rw [← hlacking]
    exact or_iff_left fun h => by cases h.1
  rw [InitCase, hrefuses, lambdaInit]
  rcases field_cases p "lambda".toList with ⟨lambda, hget, hl⟩ | ⟨hget, e, hl, he⟩
  · rcases field_cases p "job_id".toList with ⟨job, hget', hj⟩ | ⟨hget', e, hj, he⟩
    · rcases field_cases p "call".toList with ⟨call, hget'', hc⟩ | ⟨hget'', e, hc, he⟩
      · rw [hl, hj, hc, hget, hget', hget'']
        exact .inl ⟨by simp, _, rfl⟩
      · rw [hl, hj, hc]
        exact .inr ⟨.inr (.inr hget''), e, rfl, he⟩
    · rw [hl, hj]
      exact .inr ⟨.inr (.inl hget'), e, rfl, he⟩
  · rw [hl]
    exact .inr ⟨.inl hget, e, rfl, he⟩

theorem initProcess_case (p : Ptree) (self : Process) :
    InitCase p self.model (initProcess p self) := by
  unfold initProcess
  cases self.model with
  | application => exact applicationInit_case p self
  | executable => exact executableInit_case p self
  | python => exact initScript_case (.inl rfl)
  | lambda => exact lambdaInit_case p self
  | lua => exact initScript_case (.inr rfl)

/-! ### What `manager::handle` throws -/

namespace Manager
variable {m : Manager} {p : Ptree}

theorem required_cases (p : Ptree) (key message : Str) :
    (∃ v, p.get? key = some v ∧ required p key message = .ok v) ∨
      p.get? key = none ∧ required p key message = .error (.invalidRequest message) := by
  unfold required
  cases p.get? key with
  | some v => exact .inl ⟨v, rfl, rfl⟩
  | none => exact .inr ⟨rfl, rfl⟩

theorem requestOp_case (p : Ptree) : (∃ op, Asks p op ∧ requestOp p = .ok op) ∨
    (∀ op, ¬ Asks p op) ∧ ∃ what, requestOp p = .error (.invalidRequest what) := by
  unfold requestOp Asks
  rcases required_cases p "operation".toList "Must supply an 'operation' value".toList with
    ⟨name, hget, hr⟩ | ⟨hget, hr⟩
  · rw [hget, hr]
    simp only [Bind.bind, Except.bind, Option.bind_some]
    cases operationOf name with
    | some op => exact .inl ⟨op, rfl, rfl⟩
    | none => exact .inr ⟨fun op h => (nomatch h), _, rfl⟩
  · rw [hget, hr]
    exact .inr ⟨fun op h => (nomatch h), _, rfl⟩

theorem prepareWorker_case (hop : Asks p .createWorker) (uuid : Uuid) :
    (¬ m.Unacceptable p ∧ ∃ proc, prepareWorker p uuid = .ok proc) ∨
    (m.Unacceptable p ∧ ¬ InitRefuses p ∧
      ∃ what, prepareWorker p uuid = .error (.invalidRequest what)) ∨
    (InitRefuses p ∧ ∃ e, prepareWorker p uuid = .error e ∧ e.Internal) := by
  unfold prepareWorker
  by_cases hmodel : ∃ model, AsksModel p model
  · obtain ⟨model, hasks⟩ := hmodel
    obtain ⟨name, hget, hname⟩ := Option.bind_eq_some_iff.mp hasks.2
    rw [required, hget]
    simp only [Bind.bind, Except.bind, hname]
    rcases initProcess_case p { model := model, id := uuid.1 } with ⟨hok, proc, h⟩ | ⟨hno, e, h, he⟩
    · refine .inl ⟨?_, proc, h⟩
      rw [unacceptable_iff hop]
      rintro (hnone | ⟨model', hasks', hrefuses⟩)
      · exact hnone model hasks
      · exact hok (hasks.unique hasks' ▸ hrefuses)
    · exact .inr (.inr ⟨⟨model, hasks, hno⟩, e, h, he⟩)
  · rw [not_exists] at hmodel
    refine .inr (.inl ⟨.inr ⟨_, hop, .inl hmodel⟩, fun ⟨model, hasks, _⟩ => hmodel model hasks, ?_⟩)
    rcases required_cases p "model".toList "Must supply a 'model' value".toList with
      ⟨name, hget, hr⟩ | ⟨-, hr⟩
    · rw [hr]
      have hname : modelOf name = none := by
        cases hname : modelOf name with
        | none => rfl
        | some model => exact absurd ⟨hop, by rw [hget]; exact hname⟩ (hmodel model)
      simp only [Bind.bind, Except.bind, hname]
      exact ⟨_, rfl⟩
    · rw [hr]
      exact ⟨_, rfl⟩

/-- A request that cannot be accepted is refused with `invalid_request`, unless it is `init_process`
that refuses it; and no other request is. -/
inductive Judged (m : Manager) (p : Ptree) (r : Outcome Exn Ptree) : Prop
  | refused (what : Str) : m.Unacceptable p → ¬ InitRefuses p → r = .throw (.invalidRequest what) →
      Judged m p r
  | initRefused (e : Exn) : InitRefuses p → e.Internal → r = .throw e → Judged m p r
  | accepted : ¬ m.Unacceptable p → (∀ what, r ≠ .throw (.invalidRequest what)) → Judged m p r

theorem not_initRefuses {op : Operation} (hop : Asks p op) (hne : op ≠ .createWorker) :
    ¬ InitRefuses p := by
  rintro ⟨model, hasks, -⟩
  exact hne (hop.unique hasks.1)

theorem asserts_ne_invalid {x : Outcome Exn Ptree} (h : x.Asserts) (what : Str) :
    x ≠ .throw (.invalidRequest what) := h.ne_throw _

theorem remove_map_ne_throw (m : Manager) (v : Str × Process) (e : Exn) :
    ((m.remove v).1.map fun _ => Ptree.empty) ≠ .throw e := by
  rcases remove_cases m v with h | h <;> simp [h]

theorem judged_createWorker (hop : Asks p .createWorker) (env : Env) :
    Judged m p (m.createWorker p env).1 := by
  unfold createWorker
  rcases prepareWorker_case (m := m) hop env.uuid with ⟨hok, proc, h⟩ | ⟨hbad, hno, what, h⟩ |
    ⟨hno, e, h, he⟩
  · rw [h]
    refine .accepted hok fun what heq => ?_
    dsimp only at heq
    rw [enterLocked] at heq
    dsimp only at heq
    split at heq <;> cases heq
  · rw [h]
    exact .refused what hbad hno rfl
  · rw [h]
    exact .initRefused e hno he rfl

theorem judged_deleteWorker (hop : Asks p .deleteWorker) : Judged m p (m.deleteWorker p).1 := by
  have hno := not_initRefuses hop (by simp)
  unfold deleteWorker requiredId
  rcases required_cases p "id".toList "Must supply an 'id' value".toList with
    ⟨id, hget, hr⟩ | ⟨hget, hr⟩
  · rw [hr]
    dsimp only
    unfold deleteWorkerLocked
    cases hw : m.workers[id]? with
    | none =>
      refine .refused _ ((unacceptable_iff hop).mpr ?_) hno rfl
      rintro ⟨id', hget', hknown⟩
      exact hknown (Option.some.inj (hget.symm.trans hget') ▸ hw)
    | some proc =>
      refine .accepted ?_ fun what => remove_map_ne_throw m (id, proc) _
      rw [unacceptable_iff hop]
      exact fun hnone => hnone ⟨id, hget, by rw [hw]; simp⟩
  · rw [hr]
    refine .refused _ ((unacceptable_iff hop).mpr ?_) hno rfl
    rintro ⟨id', hget', -⟩
    cases hget.symm.trans hget'

theorem judged_job {op : Operation} (hop : Asks p op) (hjob : op = .getJob ∨ op = .deleteJob)
    {r : Outcome Exn Ptree}
    (hmissing : ∀ e, requiredId p = .error e → r = .throw e)
    (hunknown : ∀ id : Str, requiredId p = .ok id → m.jobs[id]? = none → r = .throw (unknownJob id))
    (hknown : ∀ (id : Str) j, requiredId p = .ok id → m.jobs[id]? = some j →
      ∀ what, r ≠ .throw (.invalidRequest what)) : Judged m p r := by
  have hno := not_initRefuses hop (by rcases hjob with rfl | rfl <;> simp)
  have hrefuses : m.Unacceptable p ↔
      ¬ ∃ id : Str, p.get? "id".toList = some id ∧ m.jobs[id]? ≠ none := by
    rw [unacceptable_iff hop]
    rcases hjob with rfl | rfl <;> rfl
  rcases required_cases p "id".toList "Must supply an 'id' value".toList with
    ⟨id, hget, hr⟩ | ⟨hget, hr⟩
  · cases hj : m.jobs[id]? with
    | none =>
      refine .refused _ (hrefuses.mpr ?_) hno (hunknown id hr hj)
      rintro ⟨id', hget', hne⟩
      exact hne (Option.some.inj (hget.symm.trans hget') ▸ hj)
    | some j =>
      refine .accepted ?_ (hknown id j hr hj)
      rw [hrefuses]
      exact fun hnone => hnone ⟨id, hget, by rw [hj]; simp⟩
  · refine .refused _ (hrefuses.mpr ?_) hno (hmissing _ hr)
    rintro ⟨id', hget', -⟩
    cases hget.symm.trans hget'

theorem judged_getJob (hop : Asks p .getJob) : Judged m p (m.getJob p).1 := by
  refine judged_job hop (.inl rfl) ?_ ?_ ?_
  · intro e he
    rw [getJob, he]
  · intro id hid hj
    simp only [getJob, hid, hj]
  · intro id j hid hj
    simp only [getJob, hid, hj]
    exact asserts_ne_invalid (getJobLocked_asserts id j m)

theorem judged_deleteJob (hop : Asks p .deleteJob) : Judged m p (m.deleteJob p).1 := by
  have hcontains : ∀ id : Str, m.jobs.contains id = true ↔ m.jobs[id]? ≠ none := by
    intro id
    rw [Std.ExtTreeMap.contains_eq_isSome_getElem?, Option.isSome_iff_ne_none]
  refine judged_job hop (.inr rfl) ?_ ?_ ?_
  · intro e he
    rw [deleteJob, he]
  · intro id hid hj
    simp only [deleteJob, hid]
    rw [if_neg (by rw [hcontains]; exact not_not.mpr hj)]
  · intro id j hid hj what
    simp only [deleteJob, hid]
    rw [if_pos ((hcontains id).mpr (by rw [hj]; simp))]
    rcases deleteJobLocked_cases id m with h | ⟨h, -⟩
    · rw [h]
      simp
    · rw [h]
      simp

theorem judged_createJob (hop : Asks p .createJob) (env : Env) :
    Judged m p (m.createJob p env).1 := by
  have hno := not_initRefuses hop (by simp)
  unfold createJob prepareJob
  rcases required_cases p "name".toList "Must supply a 'name'.".toList with
    ⟨name, hget, hr⟩ | ⟨hget, hr⟩
  · rcases required_cases p "description".toList "Must supply a 'description'.".toList with
      ⟨description, hget', hr'⟩ | ⟨hget', hr'⟩
    · rw [hr, hr']
      refine .accepted ?_ (asserts_ne_invalid (enterJobLocked_asserts _ m))
      rw [unacceptable_iff hop]
      rintro (h | h)
      · cases hget.symm.trans h
      · cases hget'.symm.trans h
    · rw [hr, hr']
      exact .refused _ ((unacceptable_iff hop).mpr (.inr hget')) hno rfl
  · rw [hr]
    exact .refused _ ((unacceptable_iff hop).mpr (.inl hget)) hno rfl

/-- What a request comes to, by what is wrong with it. -/
theorem judged (m : Manager) (p : Ptree) (env : Env) : Judged m p (m.handle p env).1 := by
  unfold handle
  rcases requestOp_case p with ⟨op, hop, hr⟩ | ⟨hnone, what, hr⟩
  · rw [hr]
    cases op with
    | createWorker => exact judged_createWorker hop env
    | getWorkers =>
      refine .accepted ?_ (asserts_ne_invalid m.getWorkers_asserts)
      exact fun h => (unacceptable_iff hop).mp h
    | deleteWorker => exact judged_deleteWorker hop
    | createJob => exact judged_createJob hop env
    | getJob => exact judged_getJob hop
    | getJobs =>
      refine .accepted ?_ (asserts_ne_invalid m.getJobs_asserts)
      exact fun h => (unacceptable_iff hop).mp h
    | deleteJob => exact judged_deleteJob hop
  · rw [hr]
    exact .refused what (.inl hnone) (fun ⟨_, hasks, _⟩ => hnone _ hasks.1) rfl

end Manager

namespace Connection

/-- The request is not JSON, or it cannot be accepted. -/
def BadRequest (l : Layers) (m : Manager) (body : Str) : Prop :=
  ∀ p, l.readJson body = .ok p → m.Unacceptable p

/-- What the status of a reply says: 400 that the request is bad, 500 that an acceptable request could
not be carried out, and any other is 200 with the tree that `manager::handle` has returned. -/
structure Classified (l : Layers) (m : Manager) (body : Str) (status : Nat) (reply : Str) :
    Prop where
  bad : status = 400 ↔ BadRequest l m body
  failed : status = 500 → ∃ p e, l.readJson body = .ok p ∧ ¬ m.Unacceptable p ∧
    l.handle p = .throw e ∧ reply = e.what
  done : status ≠ 400 → status ≠ 500 → status = 200 ∧ ∃ p t, l.readJson body = .ok p ∧
    l.handle p = .ok t ∧ l.writeJson t = .ok reply

variable {l : Layers} {m : Manager} {body : Str} {p : Ptree}

theorem respond_invalid (hread : l.readJson body = .ok p) {what : Str}
    (h : l.handle p = .throw (.invalidRequest what)) :
    respond l body = .await (.writeResponse 400 "Bad Request".toList what) := by
  simp only [respond, hread, h]

theorem respond_internal (hread : l.readJson body = .ok p) {e : Exn} (h : l.handle p = .throw e)
    (he : e.Internal) :
    respond l body = .await (.writeResponse 500 "Internal Server Error".toList e.what) := by
  unfold respond
  rw [hread]
  dsimp only
  rw [h]
  cases e with
  | invalidRequest what => exact absurd rfl (he what)
  | runtimeError what => rfl
  | badPath what => rfl
  | systemError what => rfl
  | outOfRange what => rfl

theorem badRequest_iff (hread : l.readJson body = .ok p) :
    BadRequest l m body ↔ m.Unacceptable p := by
  constructor
  · intro h
    exact h p hread
  · intro h p' hread'
    rw [hread] at hread'
    cases hread'
    exact h

theorem classified_accepted (hread : l.readJson body = .ok p) (hok : ¬ m.Unacceptable p)
    (hne : ∀ what, l.handle p ≠ .throw (.invalidRequest what)) {status : Nat} {reason reply : Str}
    (hreply : respond l body = .await (.writeResponse status reason reply)) :
    Classified l m body status reply := by
  have hbad : ¬ BadRequest l m body := by rwa [badRequest_iff hread]
  cases hh : l.handle p with
  | throw e =>
    have he : e.Internal := fun what heq => hne what (heq ▸ hh)
    rw [respond_internal hread hh he] at hreply
    cases hreply
    exact ⟨iff_of_false (by decide) hbad, fun _ => ⟨p, e, hread, hok, hh, rfl⟩,
      fun _ h => absurd rfl h⟩
  | lost why =>
    simp only [respond, hread, hh] at hreply
    cases hreply
  | ok t =>
    simp only [respond, hread, hh] at hreply
    cases hw : l.writeJson t with
    | error what =>
      rw [hw] at hreply
      cases hreply
    | ok repbody =>
      rw [hw] at hreply
      cases hreply
      exact ⟨iff_of_false (by decide) hbad, fun h => absurd h (by decide),
        fun _ _ => ⟨rfl, p, t, hread, hh, hw⟩⟩

/-- Every reply has the right status exactly when the body is no request for a worker that
`init_process` refuses. -/
theorem classified_iff (readJson : Str → Except Str Ptree) (writeJson : Ptree → Except Str Str)
    (m : Manager) (env : Env) (body : Str) :
    (∀ status reason reply,
        respond (layersOf readJson writeJson m env) body =
          .await (.writeResponse status reason reply) →
        Classified (layersOf readJson writeJson m env) m body status reply) ↔
      ¬ ∃ p, readJson body = .ok p ∧ Manager.InitRefuses p := by
  generalize hl : layersOf readJson writeJson m env = l
  have hreadJson : l.readJson = readJson := by rw [← hl]; rfl
  have hhandle : ∀ p, l.handle p = (m.handle p env).1 := fun p => by rw [← hl]; rfl
  rw [← hreadJson]
  cases hread : l.readJson body with
  | error what =>
    refine iff_of_true (fun status reason reply hreply => ?_) (by simp)
    simp only [respond, hread] at hreply
    cases hreply
    refine ⟨iff_of_true rfl fun p hp => ?_, fun h => absurd h (by decide), fun h => absurd rfl h⟩
    rw [hread] at hp
    cases hp
  | ok p =>
    have hiff : (∃ p', Except.ok p = (Except.ok p' : Except Str Ptree) ∧ Manager.InitRefuses p') ↔
        Manager.InitRefuses p := by simp
    rw [hiff]
    rcases m.judged p env with ⟨what, hbad, hno, heq⟩ | ⟨e, hinit, he, heq⟩ | ⟨hok, hne⟩
    · refine iff_of_true (fun status reason reply hreply => ?_) hno
      rw [respond_invalid hread ((hhandle p).trans heq)] at hreply
      cases hreply
      exact ⟨iff_of_true rfl ((badRequest_iff hread).mpr hbad), fun h => absurd h (by decide),
        fun h => absurd rfl h⟩
    · -- the request is bad, and the reply says 500
      refine iff_of_false (fun h => ?_) (not_not.mpr hinit)
      have hreply := h _ _ _ (respond_internal hread ((hhandle p).trans heq) he)
      have hbad := hreply.bad.mpr ((badRequest_iff hread).mpr (hinit.unacceptable m))
      exact absurd hbad (by decide)
    · refine iff_of_true (fun status reason reply hreply => ?_) fun hinit =>
        hok (hinit.unacceptable m)
      exact classified_accepted hread hok (fun what => (hhandle p).symm ▸ hne what) hreply

/-- A request for a python worker without a file. -/
def filelessRequest : Ptree := .ofFields [("operation".toList, "create-worker".toList),
  ("model".toList, "python".toList), ("job_id".toList, "job".toList)]

/-- The reply to a request for a worker without its file says that the server has failed. -/
theorem not_classified : ¬ ∀ s : Service, s.Reachable →
    ∀ (readJson : Str → Except Str Ptree) (writeJson : Ptree → Except Str Str) (env : Env)
      (body : Str) (status : Nat) (reason reply : Str),
      respond (layersOf readJson writeJson s.manager env) body =
        .await (.writeResponse status reason reply) →
      Classified (layersOf readJson writeJson s.manager env) s.manager body status reply := by
  intro h
  have hclassified := h {} ⟨[], .nil⟩ (fun _ => .ok filelessRequest) (fun _ => .error [])
    { uuid := firstUuid }
    "\x7b\"operation\":\"create-worker\",\"model\":\"python\",\"job_id\":\"job\"\x7d".toList
  have hbad := (hclassified 500 "Internal Server Error".toList _ rfl).bad.mpr fun p hp => by
    cases hp
    exact .inr ⟨.createWorker, by decide, .inr ⟨.python, ⟨by decide, by decide⟩, .inl
      ⟨"file".toList, List.mem_cons_self, by decide⟩⟩⟩
  exact absurd hbad (by decide)

end Connection

end Wye
