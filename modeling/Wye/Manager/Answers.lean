import Wye.Manager.Listing
import Wye.Process.Names

/-!
# Answers that can be written

An answer is written by `write_json` outside the handler that turns errors into replies. The trees of
a reply and of the lists hold the names of inputs and outputs as paths, so whether a request is
answered with a tree that can be written depends on the names that the workers have brought. In a run
whose workers bring safe names (`NamesSafe`) every answer can be written (`answers_written`), and the
first worker that brings others makes an answer that cannot (`not_written_of_names`).
-/

namespace Wye

open Text Calls PropertyTree Ptree Transition

/-- No empty-path assertion has failed, and a tree that is answered can be written. -/
def Written (r : Outcome Exn Ptree) : Prop :=
  r ≠ .lost .assertion ∧ ∀ t, r = .ok t → t.representable = true

theorem written_ok {t : Ptree} : Written (.ok t) ↔ t.representable = true := by
  simp [Written]

theorem written_throw (e : Exn) : Written (.throw e) := by simp [Written]

theorem written_iff_of_asserts {r : Outcome Exn Ptree} (h : r.Asserts) :
    Written r ↔ ∃ t, r = .ok t ∧ t.representable = true := by
  rcases h with ⟨t, rfl⟩ | rfl <;> simp [Written]

instance (r : Outcome Exn Ptree) : Decidable (Written r) :=
  match r with
  | .ok _ => decidable_of_iff _ written_ok.symm
  | .throw e => .isTrue (written_throw e)
  | .lost why => decidable_of_iff (why ≠ .assertion) (by simp [Written])

namespace Manager
variable {m : Manager} {issued : List Str}

/-- The names of all workers can be written. -/
def Writable (m : Manager) : Prop := ∀ (k : Str) v, m.workers[k]? = some v → v.Writable

/-! ### Lists -/

theorem entries_iff (keep : Process → Bool) (ws : List (Str × Process)) :
    (∃ es, entries keep ws = .ok es ∧ ∀ e ∈ es, e.2.verify = true) ↔
      ∀ v ∈ ws, keep v.2 = true → v.2.Writable := by
  simp only [entries_eq_ok]
  induction ws with
  | nil => simp
  | cons v ws ih =>
    rw [List.forall_mem_cons, ← ih, List.filter_cons]
    cases hkeep : keep v.2 with
    | false => simp
    | true =>
      rw [if_pos rfl, v.2.writable_iff]
      constructor
      · rintro ⟨es, hes, hverify⟩
        cases hes with
        | @cons _ e _ es he hes =>
          obtain ⟨he', hverify⟩ := List.forall_mem_cons.mp hverify
          exact ⟨fun _ => ⟨e.2, he.2, he'⟩, es, hes, hverify⟩
      · rintro ⟨hv, es, hes, hverify⟩
        obtain ⟨w, hw, hw'⟩ := hv rfl
        exact ⟨(v.1, w) :: es, .cons ⟨rfl, hw⟩ hes, List.forall_mem_cons.mpr ⟨hw', hverify⟩⟩

theorem getWorkers_written_iff (h : m.Sound issued) : Written m.getWorkers.1 ↔ m.Writable := by
  rw [written_iff_of_asserts m.getWorkers_asserts, getWorkers_eq h]
  have hentries := entries_iff (fun _ => true) m.workers.toList
  constructor
  · rintro ⟨t, ht, hrep⟩
    obtain ⟨es, hes, rfl⟩ := Outcome.map_eq_ok.mp ht
    have hverify := (verify_node _).mp (verify_of_representable hrep)
    exact fun k v hv => hentries.mp ⟨es, hes, hverify⟩ (k, v) (Maps.mem_toList.mpr hv) rfl
  · intro hm
    obtain ⟨es, hes, hverify⟩ := hentries.mpr fun v hv _ => hm v.1 v.2 (Maps.mem_toList.mp hv)
    rw [hes]
    exact ⟨_, rfl, representable_of_verify rfl ((verify_node _).mpr hverify)⟩

theorem verify_jobEntry (j : Job) : (jobEntry j).verify = true := by
  unfold jobEntry
  rw [verify_node]
  by_cases hn : j.name = [] <;> by_cases hd : j.description = [] <;> simp [hn, hd]

theorem getJobs_written (h : m.Sound issued) : Written m.getJobs.1 := by
  rw [getJobs_eq h, written_ok]
  refine representable_of_verify rfl ((verify_node _).mpr fun e he => ?_)
  obtain ⟨v, -, rfl⟩ := List.mem_map.mp he
  exact verify_jobEntry v.2

theorem getJobLocked_answers (h : m.Sound issued) (hm : m.Writable) (id : Str) (j : Job) :
    ∃ t, (m.getJobLocked id j).1 = .ok t ∧ t.representable = true := by
  obtain ⟨es, hes, hverify⟩ := (entries_iff (·.jobId == id) m.workers.toList).mpr
    fun v hv _ => hm v.1 v.2 (Maps.mem_toList.mp hv)
  have hjob := ((verify_iff _).mp (verify_jobEntry j)).2
  rw [getJobLocked_eq h, hes, Outcome.map_ok]
  refine ⟨_, rfl, representable_of_verify rfl ((verify_node _).mpr ?_)⟩
  rw [List.forall_mem_append, List.forall_mem_singleton]
  exact ⟨hjob, (verify_node _).mpr hverify⟩

theorem getJobLocked_written (h : m.Sound issued) (hm : m.Writable) (id : Str) (j : Job) :
    Written (m.getJobLocked id j).1 := by
  obtain ⟨t, ht, hrep⟩ := getJobLocked_answers h hm id j
  rw [ht, written_ok]
  exact hrep

/-! ### The other answers -/

theorem enterLocked_written {proc : Process} {launch : Launch}
    (h : PutSafe (proc.entered launch).inputs) (m : Manager) :
    Written (m.enterLocked proc launch).1 := by
  cases launch with
  | failed what => exact written_throw _
  | child pid stream =>
    obtain ⟨t, ht, hrep⟩ := (reply_iff proc.id _).mp h
    have hstart : ∀ x : Outcome Exn Unit,
        x = (if proc.model = .application then .ok () else (handshake proc.inputs stream).1) →
          (∃ e, x = .throw e) ∨ x = .ok () := by
      rintro x rfl
      unfold handshake
      split
      · exact .inr rfl
      · split <;> simp
    rw [Process.entered] at ht
    rw [enterLocked, Process.runProcess_child, ht]
    rcases hstart _ rfl with ⟨e, he⟩ | hok
    · rw [he]
      exact written_throw _
    · rw [hok]
      exact written_ok.mpr hrep

theorem deleteJobLocked_written (id : Str) (m : Manager) : Written (m.deleteJobLocked id).1 := by
  rw [deleteJobLocked]
  rcases deleteLoop_spec id (Nat.lt_succ_self m.workers.size) with h | ⟨h, -⟩
  · split <;> simp_all [Written]
  · split <;> simp_all [Written]
    decide

/-- A request is answered with a tree that can be written, when the names of the workers can be and
so can those of the worker it brings. -/
theorem handle_written (h : m.Sound issued) (hm : m.Writable) {p : Ptree} {env : Env}
    (hbrings : ∀ proc, accepted p env.uuid = some proc → PutSafe (proc.entered env.launch).inputs) :
    Written (m.handle p env).1 := by
  have hh := handled p env m
  generalize m.handle p env = r at hh
  cases hh with
  | rejected e => exact written_throw e
  | listed => exact (getWorkers_written_iff h).mpr hm
  | jobsListed => exact getJobs_written h
  | described id j => exact getJobLocked_written h hm id j
  | entered proc hacc => exact enterLocked_written (hbrings proc hacc) m
  | removed v =>
    rcases remove_cases m v with hr | hr
    · rw [hr]
      exact written_ok.mpr (by decide)
    · rw [hr]
      simp [Written]
  | jobEntered j =>
    have hput : (m.enterJobLocked j).1 = .ok (Ptree.empty.pushBack "id".toList (leaf j.id)) :=
      put_plain (k := "id".toList) (by decide) (t := Ptree.empty) rfl j.id
    rw [hput, written_ok]
    exact representable_of_verify rfl (verify_pushBack rfl verify_empty (verify_leaf j.id))
  | jobDeleted id => exact deleteJobLocked_written id m

/-! ### What keeps the names -/

theorem Writable.insert (h : m.Writable) {k : Str} {v : Process} (hv : v.Writable) :
    Writable { m with workers := m.workers.insert k v } := by
  intro a w ha
  rw [Maps.get_insert] at ha
  split at ha
  · cases ha
    exact hv
  · exact h a w ha

theorem Writable.remove (h : m.Writable) (v : Str × Process) : (m.remove v).2.Writable := by
  intro a w ha
  rw [remove_workers, Maps.get_erase] at ha
  split at ha
  · cases ha
  · exact h a w ha

theorem Writable.handle (h : m.Writable) {p : Ptree} {env : Env}
    (hbrings : ∀ proc, accepted p env.uuid = some proc → (proc.entered env.launch).Writable) :
    (m.handle p env).2.Writable := by
  refine handle_preserves h ?_ (fun m v hm _ => hm.remove v) (fun j _ => h) fun m id hm => hm
  intro proc hacc k v hv
  rw [enterLocked_workers] at hv
  exact h.insert (hbrings proc hacc) k v hv

theorem visit_writable_iff (m : Manager) (id : Str) : (m.visit id).2.Writable ↔ m.Writable := by
  unfold Manager.visit
  cases hv : m.workers[id]? with
  | none => rfl
  | some v =>
    have hself : (v.isRunning m.os.tick).2.1.Writable ↔ v.Writable := by
      rcases v.isRunning_self m.os.tick with hself | hself <;> rw [hself]
      exact ⟨fun h => ⟨h.inputs, h.outputs⟩, fun h => ⟨h.inputs, h.outputs⟩⟩
    constructor
    · intro h k w hw
      by_cases hk : id = k
      · subst hk
        cases hv.symm.trans hw
        exact hself.mp (h id _ (Maps.get_insert_self _ _))
      · exact h k w ((Maps.get_insert_of_ne hk _).trans hw)
    · exact fun h => h.insert (hself.mpr (h id v hv))

theorem monitorPass_writable_iff (m : Manager) : m.monitorPass.2.Writable ↔ m.Writable :=
  passLoop_preserves (I := fun m' => m'.Writable ↔ m.Writable)
    (fun m' id h => (m'.visit_writable_iff id).trans h) m.workers.keys Iff.rfl

theorem Writable.stop (h : m.Writable) (order : ClearOrder) : (m.stop order).2.Writable :=
  stop_preserves order (fun _ v hm _ => hm.remove v) (fun _ _ => by simp [Writable]) h

end Manager

/-- The names that a worker reports can be written, if its class waits for them. -/
def Launch.NamesSafe (model : Model) : Launch → Prop
  | .failed _ => True
  | .child _ stream => model ≠ .application → PutSafe (reported stream)

instance (model : Model) (launch : Launch) : Decidable (launch.NamesSafe model) :=
  match launch with
  | .failed _ => isTrue trivial
  | .child _ stream => inferInstanceAs (Decidable (model ≠ .application → PutSafe (reported stream)))

namespace Service

/-- The names that a request brings can be written: those of the outputs it asks for, and those of
the inputs that its worker reports. -/
def NamesSafe (_ : Service) : Action → Prop
  | .request p env => ∀ proc ∈ Manager.accepted p env.uuid,
      OutputsSafe (readOutputs p) ∧ env.launch.NamesSafe proc.model
  | _ => True

instance (s : Service) (a : Action) : Decidable (s.NamesSafe a) :=
  match a with
  | .request p env => inferInstanceAs (Decidable (∀ proc ∈ Manager.accepted p env.uuid,
      OutputsSafe (readOutputs p) ∧ env.launch.NamesSafe proc.model))
  | .pass _ | .stop _ _ | .event _ => isTrue trivial

theorem namesSafe_request_iff (s : Service) (p : Ptree) (env : Env) :
    s.NamesSafe (.request p env) ↔
      ∀ proc, Manager.accepted p env.uuid = some proc → (proc.entered env.launch).Writable := by
  refine forall₂_congr fun proc hacc => ?_
  obtain ⟨-, -, hin, -, hout, -⟩ := Manager.accepted_spec hacc
  have hempty : PutSafe (∅ : Inputs) := putSafe_of_size (by simp)
  rw [← hout, and_comm]
  cases env.launch with
  | failed what =>
    have hins : PutSafe proc.inputs := hin ▸ hempty
    exact ⟨fun ⟨_, houts⟩ => ⟨hins, houts⟩, fun h => ⟨trivial, h.outputs⟩⟩
  | child pid stream =>
    have hiff : PutSafe (proc.started pid stream).inputs ↔
        (Launch.child pid stream).NamesSafe proc.model := by
      rw [Process.started, hin, handshake_inputs, Launch.NamesSafe]
      by_cases hmodel : proc.model = .application
      · simp [hmodel, hempty]
      · simp [hmodel]
    exact ⟨fun ⟨hins, houts⟩ => ⟨hiff.mpr hins, houts⟩, fun h => ⟨hiff.mp h.inputs, h.outputs⟩⟩

theorem writable_step {s : Service} (h : s.manager.Writable) {a : Action} (ha : s.NamesSafe a) :
    (s.step a).2.manager.Writable := by
  cases a with
  | request p env =>
    exact Manager.Writable.handle (m := s.manager.withScript env.script) h
      ((s.namesSafe_request_iff p env).mp ha)
  | pass script =>
    exact (s.manager.withScript script).monitorPass_writable_iff.mpr h
  | stop script order => exact Manager.Writable.stop (m := s.manager.withScript script) h order
  | event e => exact h

theorem ReachableBy.writable {s : Service} (h : s.ReachableBy NamesSafe) : s.manager.Writable :=
  h.invariant (I := fun s => s.manager.Writable) (by simp [Manager.Writable])
    fun _ _ hs _ _ ha => writable_step hs ha

theorem getWorkers_written_iff {s : Service} (hs : s.Sound) {p : Ptree} {env : Env}
    (hop : Manager.requestOp p = .ok .getWorkers) :
    Written (s.step (.request p env)).1 ↔ s.manager.Writable := by
  have hstep : (s.step (.request p env)).1 = (s.manager.withScript env.script).getWorkers.1 := by
    change ((s.manager.withScript env.script).handle p env).1 = _
    rw [Manager.handle, hop]
  rw [hstep]
  exact Manager.getWorkers_written_iff (hs.withScript env.script)

/-- A worker that brings other names is in the map, and if its request was answered so that it can
be written, no list of the workers is. -/
theorem not_written_of_names {s : Service} {p : Ptree} {env : Env}
    (hnames : ¬ s.NamesSafe (.request p env))
    (hwritten : Written (s.step (.request p env)).1) : (s.step (.request p env)).2.up = true ∧
      ¬ (s.step (.request p env)).2.manager.Writable := by
  rw [namesSafe_request_iff] at hnames
  push Not at hnames
  obtain ⟨proc, hacc, hproc⟩ := hnames
  have hhandle := Manager.handle_of_accepted (m := s.manager.withScript env.script) hacc
  constructor
  · change came ((s.manager.withScript env.script).handle p env).1 = true
    have hne : ((s.manager.withScript env.script).handle p env).1 ≠ .lost .assertion := hwritten.1
    rw [hhandle] at hne ⊢
    cases hr : ((s.manager.withScript env.script).enterLocked proc env.launch).1 with
    | ok t => rfl
    | throw e => rfl
    | lost why =>
      cases Manager.enterLocked_lost hr
      exact absurd hr hne
  · intro hafter
    refine hproc (hafter proc.id _ ?_)
    change ((s.manager.withScript env.script).handle p env).2.workers[proc.id]? = _
    rw [hhandle, Manager.enterLocked_workers, Maps.get_insert_self]

/-- In every run whose workers bring safe names, every answer can be written; and a worker that
brings others is answered so, or every list of the workers is, which still includes it. -/
theorem answers_written {s : Service} (h : s.ReachableBy NamesSafe) (p : Ptree) (env : Env) :
    (s.NamesSafe (.request p env) → Written (s.step (.request p env)).1) ∧
      (¬ s.NamesSafe (.request p env) → (Action.request p env).Valid s →
        ¬ Written (s.step (.request p env)).1 ∨ ((s.step (.request p env)).2.up = true ∧
          ∀ p' env', Manager.requestOp p' = .ok .getWorkers →
            ¬ Written ((s.step (.request p env)).2.step (.request p' env')).1)) := by
  have hsound := h.reachable.sound
  constructor
  · intro hnames
    refine Manager.handle_written (m := s.manager.withScript env.script)
      (hsound.withScript env.script) h.writable fun proc hacc => ?_
    exact ((s.namesSafe_request_iff p env).mp hnames proc hacc).inputs
  · intro hnames hvalid
    by_cases hwritten : Written (s.step (.request p env)).1
    · obtain ⟨hup, hafter⟩ := not_written_of_names hnames hwritten
      refine .inr ⟨hup, fun p' env' hop => ?_⟩
      rw [getWorkers_written_iff (hsound.step hvalid) hop]
      exact hafter
    · exact .inl hwritten

/-! ### Two inputs whose names collide -/

/-- A request to list the workers. -/
def listRequest : Ptree := .ofFields [("operation".toList, "get-workers".toList)]

/-- The list of a worker that reports `a` and `b.c`. -/
theorem answers_written_dotted : Written ((Service.perform {} [
    .request (pythonRequest "job".toList)
      { uuid := firstUuid, launch := .child 7 "INPUT:a:x\nINPUT:b.c:y\nRUNNING\n".toList }]).step
    (.request listRequest { uuid := secondUuid })).1 :=
  (answers_written (Performs.reachableBy (by decide +kernel)) _ _).1 (by decide +kernel)

/-- The reply to a worker that reports `a` and `a.b`. -/
theorem not_answers_written : ¬ ∀ s : Service, s.Reachable → ∀ p env,
    (Action.request p env).Valid s → Written (s.step (.request p env)).1 := by
  intro h
  have hwritten := h {} ⟨[], .nil⟩ (pythonRequest "job".toList)
    { uuid := firstUuid, launch := .child 7 "INPUT:a:x\nINPUT:a.b:y\nRUNNING\n".toList } (by decide +kernel)
  exact absurd hwritten (by decide +kernel)

end Service

end Wye
