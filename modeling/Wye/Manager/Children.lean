import Wye.Manager.Reporting

/-!
# Children and their workers

Every child that has not been reaped has its worker in the map, and that worker holds its pid
(`Manager.Attended`). A worker comes into the map before its child is forked, and it goes with its
child: a destructor leaves no unreaped child under its pid, even when it throws
(`Process.destroy_child?`), and `is_running` lets go of a pid only when no unreaped child stands under
it. The other way round, a worker that has been stopped has a child, and it has been reaped
(`Manager.Retired`).
-/

namespace Wye

open Text Calls PropertyTree Transition

/-! ### What the calls leave under a pid -/

namespace Os
variable {os : Os} {pid : Pid}

@[simp] theorem record_child? (os : Os) (sender : Str) (call : Call) (pid pid' : Pid) :
    (os.record sender call pid).child? pid' = os.child? pid' := rfl

theorem child?_of_kill (h : os.kill pid = -1) : os.child? pid = none := by
  rw [kill] at h
  split at h
  · rename_i hnobody
    rw [target] at hnobody
    split at hnobody
    · cases hnobody
    · assumption
  · omega

theorem waitpid_child? (os : Os) (pid : Pid) : (os.waitpid pid).2.child? pid = none := by
  rw [waitpid]
  split
  · assumption
  · rw [child?_eq_none]
    intro c hc hpid
    obtain ⟨c₀, -, rfl⟩ := List.mem_map.mp hc
    by_cases hholds : c₀.holds pid = true
    · rw [if_pos hholds]
    · rw [if_neg hholds] at hpid ⊢
      rw [Child.holds_iff, not_and, not_not] at hholds
      exact hholds hpid

end Os

/-- Whether it returns or throws, a destructor leaves no unreaped child under its pid. -/
theorem Process.destroy_child? (self : Process) (os : Os) {pid : Pid} (hp : self.proc = some pid) :
    (self.destroy os).2.child? pid = none := by
  rw [destroy, hp]
  dsimp only
  split
  · rename_i hkill
    rw [Os.record_child?]
    exact Os.child?_of_kill hkill
  · split
    · exact Os.waitpid_child? _ pid
    · exact Os.waitpid_child? _ pid

namespace Manager
variable {m : Manager} {issued : List Str}

/-! ### No orphans -/

/-- A child that has not been reaped has its worker in the map, and the worker holds its pid. -/
structure Attended (issued : List Str) (m : Manager) : Prop where
  sound : m.Sound issued
  holds : ∀ c ∈ m.os.children, c.status ≠ .reaped →
    ∃ v, m.workers[c.owner]? = some v ∧ v.proc = some c.pid

theorem Attended.init : Attended [] {} := ⟨.init, by simp⟩

theorem Attended.issue (h : m.Attended issued) (uuid : Uuid) : m.Attended (uuid.1 :: issued) :=
  ⟨h.sound.issue uuid, h.holds⟩

theorem Attended.ages (h : m.Attended issued) {os : Os} (hages : m.os.Ages os) (hs : os.Sound) :
    Attended issued { m with os := os } := by
  refine ⟨h.sound.ages hages hs, fun c hc hlive => ?_⟩
  obtain ⟨c₀, hc₀, howner, hpid, hle⟩ := hages.mem_old hc
  rw [howner, hpid]
  exact h.holds c₀ hc₀ (ChildStatus.not_reaped_of_le hle hlive)

theorem Attended.withScript (h : m.Attended issued) (script : List (List OsEvent)) :
    (m.withScript script).Attended issued :=
  h.ages (.of_eq rfl) ⟨h.sound.os.pids, h.sound.os.apart⟩

theorem Attended.remove (h : m.Attended issued) {v : Str × Process}
    (hv : m.workers[v.1]? = some v.2) : (m.remove v).2.Attended issued := by
  have hages := h.ages (v.2.destroy_ages m.os) (v.2.destroy_sound h.sound.os)
  refine ⟨h.sound.remove v, fun c hc hlive => ?_⟩
  obtain ⟨w, hw, hp⟩ := hages.holds c hc hlive
  refine ⟨w, ?_, hp⟩
  have hne : v.1 ≠ c.owner := by
    intro howner
    have hvw : v.2 = w := Option.some.inj (hv.symm.trans (howner ▸ hw))
    have hnone := v.2.destroy_child? m.os (hvw ▸ hp)
    exact hlive (Os.child?_eq_none.mp hnone c hc rfl)
  rw [remove_workers, Maps.get_erase_of_ne hne]
  exact hw

theorem Attended.enterLocked (h : m.Attended issued) {p : Ptree} {uuid : Uuid} {proc : Process}
    {launch : Launch} (hacc : accepted p uuid = some proc) (hnew : uuid.1 ∉ issued)
    (hvalid : launch.Valid m.os) : (m.enterLocked proc launch).2.Attended (uuid.1 :: issued) := by
  refine ⟨h.sound.enterLocked hacc hnew hvalid, fun c hc hlive => ?_⟩
  obtain ⟨hid, -⟩ := accepted_spec hacc
  have hold : ∀ c ∈ m.os.children, c.status ≠ .reaped →
      ∃ v, (m.enterLocked proc launch).2.workers[c.owner]? = some v ∧ v.proc = some c.pid := by
    intro c hc hlive
    have hne : proc.id ≠ c.owner := fun heq => hnew (hid ▸ heq ▸ h.sound.ownerIssued c hc)
    obtain ⟨v, hv, hp⟩ := h.holds c hc hlive
    refine ⟨v, ?_, hp⟩
    rw [enterLocked_workers, Maps.get_insert_of_ne hne]
    exact hv
  cases launch with
  | failed what => exact hold c hc hlive
  | child pid stream =>
    rw [enterLocked_child, Os.fork, List.mem_append, List.mem_singleton] at hc
    rcases hc with hc | rfl
    · exact hold c hc hlive
    · refine ⟨proc.started pid stream, ?_, rfl⟩
      rw [enterLocked_workers]
      exact Maps.get_insert_self proc.id _

/-- A visit lets go of a pid only when no unreaped child stands under it. -/
theorem Attended.visit (h : m.Attended issued) (id : Str) : (m.visit id).2.Attended issued := by
  refine ⟨h.sound.visit id, ?_⟩
  cases hv : m.workers[id]? with
  | none =>
    rw [Manager.visit, hv]
    exact h.holds
  | some v =>
    have hages := h.ages (m.os.tick_ages.trans (v.isRunning_ages m.os.tick))
      (v.isRunning_sound (Os.tick_sound h.sound.os))
    rw [visit_eq hv]
    intro c hc hlive
    obtain ⟨w, hw, hp⟩ := hages.holds c hc hlive
    by_cases hid : id = c.owner
    · subst hid
      have hvw : v = w := Option.some.inj (hv.symm.trans hw)
      refine ⟨_, Maps.get_insert_self c.owner _, ?_⟩
      subst hvw
      rcases v.isRunning_cases m.os.tick with ⟨-, hr⟩ | ⟨-, -, hr⟩ |
        ⟨pid, -, hp', ⟨hnone, hr⟩ | ⟨d, -, hr⟩⟩
      · rw [hr]
        exact hp
      · rw [hr]
        exact hp
      · rw [hr] at hc
        have hpid : pid = c.pid := Option.some.inj (hp'.symm.trans hp)
        subst hpid
        exact absurd (Os.child?_eq_none.mp hnone c hc rfl) hlive
      · rw [hr]
        exact hp
    · exact ⟨w, (Maps.get_insert_of_ne hid _).trans hw, hp⟩

theorem Attended.handle (h : m.Attended issued) {p : Ptree} {env : Env}
    (hnew : env.uuid.1 ∉ issued) (hvalid : env.launch.Valid m.os) :
    (m.handle p env).2.Attended (env.uuid.1 :: issued) := by
  refine handle_preserves (h.issue env.uuid) ?_ ?_ ?_ ?_
  · intro proc hacc
    exact h.enterLocked hacc hnew hvalid
  · intro m v hm hv
    exact hm.remove hv
  · intro j hj
    refine ⟨(h.issue env.uuid).sound.insertJob ?_, h.holds⟩
    rw [prepareJob_id hj]
    exact List.mem_cons_self
  · intro m id hm
    exact ⟨hm.sound.eraseJob id, hm.holds⟩

theorem Attended.monitorPass (h : m.Attended issued) : m.monitorPass.2.Attended issued :=
  passLoop_preserves (fun _ id hm => hm.visit id) _ h

theorem Attended.reaped (h : m.Attended issued) (hnone : ∀ k : Str, m.workers[k]? = none) :
    ∀ c ∈ m.os.children, c.status = .reaped := by
  intro c hc
  by_contra hlive
  obtain ⟨v, hv, -⟩ := h.holds c hc hlive
  rw [hnone] at hv
  cases hv

theorem clearLoop_workers {vs : List (Str × Process)} (hok : (clearLoop vs m).1 = .ok ())
    {k : Str} (hk : m.workers[k]? = none ∨ k ∈ vs.map Prod.fst) :
    (clearLoop vs m).2.workers[k]? = none := by
  induction vs generalizing m with
  | nil => simpa [clearLoop] using hk
  | cons v vs ih =>
    rw [clearLoop] at hok ⊢
    cases hr : m.remove v with
    | mk r m' =>
      have hm' : m' = (m.remove v).2 := by rw [hr]
      rw [hr] at hok
      cases r with
      | ok _ =>
        refine ih hok ?_
        rw [hm', remove_workers, Maps.get_erase]
        split
        · exact .inl rfl
        · rename_i hne
          rcases hk with hk | hk
          · exact .inl hk
          · rw [List.map_cons, List.mem_cons] at hk
            exact .inr (hk.resolve_left (Ne.symm hne))
      | throw e => cases hok
      | lost why => cases hok

theorem stop_cases (order : ClearOrder) (m : Manager) :
    (m.stop order).1 = .ok () ∨ (m.stop order).1 = .lost .terminate := by
  unfold stop
  dsimp only
  generalize order.arrange m.workers.toList = vs
  induction vs generalizing m with
  | nil => exact .inl rfl
  | cons v vs ih =>
    have hcases := remove_cases m v
    rw [clearLoop]
    cases hr : m.remove v with
    | mk r m' =>
      rw [hr] at hcases
      rcases hcases with rfl | rfl
      · exact ih m'
      · exact .inr rfl

/-- `stop` leaves no unreaped child, if no destructor throws. -/
theorem Attended.stop (h : m.Attended issued) {order : ClearOrder} (hok : (m.stop order).1 = .ok ()) :
    (m.stop order).2.Attended issued := by
  have hclear : (clearLoop (order.arrange m.workers.toList) m).2.Attended issued :=
    clearLoop_preserves (fun _ v hm hv => hm.remove hv) (nodup_arrange order m) h
      fun v hv => mem_arrange.mp hv
  refine ⟨h.sound.stop order, fun c hc hlive => ?_⟩
  refine absurd (hclear.reaped (fun k => ?_) c hc) hlive
  refine clearLoop_workers hok ?_
  cases hk : m.workers[k]? with
  | none => exact .inl rfl
  | some v => exact .inr (List.mem_map.mpr ⟨(k, v), mem_arrange.mpr hk, rfl⟩)

end Manager

namespace Service
variable {s : Service}

/-- No destructor throws: neither a request nor `stop` ends the service. -/
def DestructorsReturn (s : Service) : Action → Prop
  | .request p env => (s.step (.request p env)).1 ≠ .lost .terminate
  | .stop script order => (s.step (.stop script order)).1 ≠ .lost .terminate
  | _ => True

instance (s : Service) (a : Action) : Decidable (s.DestructorsReturn a) :=
  match a with
  | .request p env => inferInstanceAs (Decidable ((s.step (.request p env)).1 ≠ .lost .terminate))
  | .stop script order =>
    inferInstanceAs (Decidable ((s.step (.stop script order)).1 ≠ .lost .terminate))
  | .pass _ | .event _ => isTrue trivial

theorem stop_ok_of_destructorsReturn {script : List (List OsEvent)} {order : Manager.ClearOrder}
    (h : s.DestructorsReturn (.stop script order)) :
    ((s.manager.withScript script).stop order).1 = .ok () := by
  change uncaught ((s.manager.withScript script).stop order).1 ≠ _ at h
  rcases Manager.stop_cases order (s.manager.withScript script) with hok | hlost
  · exact hok
  · rw [hlost] at h
    exact absurd rfl h

theorem Attended.step (h : s.manager.Attended s.issued) {a : Action} (hvalid : a.Valid s)
    (hreturn : s.DestructorsReturn a) :
    (s.step a).2.manager.Attended (s.step a).2.issued := by
  cases a with
  | request p env => exact ((h.withScript env.script).handle hvalid.1 hvalid.2).withScript []
  | pass script => exact (h.withScript script).monitorPass.withScript []
  | stop script order =>
    exact ((h.withScript script).stop (stop_ok_of_destructorsReturn hreturn)).withScript []
  | event e =>
    exact (h.ages (s.manager.os.event_ages e) (Os.event_sound h.sound.os e)).withScript []

theorem ReachableBy.attended (h : s.ReachableBy DestructorsReturn) :
    s.manager.Attended s.issued :=
  h.invariant (I := fun s => s.manager.Attended s.issued) .init
    fun _ _ hs _ hvalid hreturn => Attended.step hs hvalid hreturn

/-- Every child that has not been reaped belongs to exactly one worker in the map, and that worker
holds its pid. -/
def NoOrphans (s : Service) : Prop :=
  ∀ c ∈ s.manager.os.children, c.status ≠ .reaped →
    ∃! k : Str, ∃ v, s.manager.workers[k]? = some v ∧ v.id = c.owner ∧ v.proc = some c.pid

/-- While no destructor throws there are no orphans, and so no unreaped child is left when there is
no worker, and none after `stop`. -/
theorem noOrphans (h : s.ReachableBy DestructorsReturn) :
    s.NoOrphans ∧
    (s.manager.workers = ∅ → ∀ c ∈ s.manager.os.children, c.status = .reaped) ∧
    ∀ script order, s.DestructorsReturn (.stop script order) →
      ∀ c ∈ (s.step (.stop script order)).2.manager.os.children, c.status = .reaped := by
  have hattended := h.attended
  refine ⟨fun c hc hlive => ?_, fun hempty => ?_, fun script order hreturn => ?_⟩
  · obtain ⟨v, hv, hp⟩ := hattended.holds c hc hlive
    refine ⟨c.owner, ⟨v, hv, hattended.sound.workerId _ v hv, hp⟩, ?_⟩
    rintro k ⟨w, hw, hid, -⟩
    exact (hattended.sound.workerId k w hw).symm.trans hid
  · exact hattended.reaped fun k => by rw [hempty]; exact Std.ExtTreeMap.getElem?_empty
  · have hstop := (hattended.withScript script).stop (stop_ok_of_destructorsReturn hreturn)
    exact hstop.reaped fun k => Std.ExtTreeMap.getElem?_empty

/-- A worker's start is rejected after the fork, a second worker's child ends and a pass reaps it, and
its pid goes to the child of a third worker. -/
def reuseRun : List Action := [
  .request (pythonRequest "job".toList) { uuid := firstUuid, launch := .child 7 "ERROR:x\n".toList },
  .request (pythonRequest "job".toList) { uuid := secondUuid, launch := .child 8 "RUNNING\n".toList },
  .event (.exits 8), .pass [],
  .request (pythonRequest "job".toList) { uuid := thirdUuid, launch := .child 8 "RUNNING\n".toList }]

theorem noOrphans_pid_reused : (perform {} reuseRun).NoOrphans :=
  (noOrphans (Performs.reachableBy (by decide +kernel))).1

end Service

/-! ### Stopped workers -/

namespace Manager
variable {m : Manager} {issued : List Str}

/-- The child of a stopped worker has been reaped. -/
structure Retired (issued : List Str) (m : Manager) : Prop where
  sound : m.Sound issued
  reaped : ∀ (k : Str) v, m.workers[k]? = some v → v.state = .stopped →
    ∃ c ∈ m.os.children, c.owner = k ∧ c.status = .reaped

theorem Retired.init : Retired [] {} := ⟨.init, by simp⟩

theorem Retired.issue (h : m.Retired issued) (uuid : Uuid) : m.Retired (uuid.1 :: issued) :=
  ⟨h.sound.issue uuid, h.reaped⟩

theorem Retired.ages (h : m.Retired issued) {os : Os} (hages : m.os.Ages os) (hs : os.Sound) :
    Retired issued { m with os := os } := by
  refine ⟨h.sound.ages hages hs, fun k v hv hst => ?_⟩
  obtain ⟨c, hc, howner, hreaped⟩ := h.reaped k v hv hst
  obtain ⟨c', hc', howner', -, hle⟩ := hages.mem hc
  rw [hreaped] at hle
  exact ⟨c', hc', howner'.trans howner, hle⟩

theorem Retired.withScript (h : m.Retired issued) (script : List (List OsEvent)) :
    (m.withScript script).Retired issued :=
  h.ages (.of_eq rfl) ⟨h.sound.os.pids, h.sound.os.apart⟩

theorem Retired.remove (h : m.Retired issued) (v : Str × Process) :
    (m.remove v).2.Retired issued := by
  have hages := h.ages (v.2.destroy_ages m.os) (v.2.destroy_sound h.sound.os)
  refine ⟨h.sound.remove v, fun k w hw hst => ?_⟩
  rw [remove_workers, Maps.get_erase] at hw
  split at hw
  · cases hw
  · exact hages.reaped k w hw hst

theorem Retired.enterLocked (h : m.Retired issued) {p : Ptree} {uuid : Uuid} {proc : Process}
    {launch : Launch} (hacc : accepted p uuid = some proc) (hnew : uuid.1 ∉ issued)
    (hvalid : launch.Valid m.os) : (m.enterLocked proc launch).2.Retired (uuid.1 :: issued) := by
  refine ⟨h.sound.enterLocked hacc hnew hvalid, fun k v hv hst => ?_⟩
  obtain ⟨-, hstate, -⟩ := accepted_spec hacc
  rw [enterLocked_workers, Maps.get_insert] at hv
  split at hv
  · -- the new worker is running
    cases hv
    have hrun : (proc.entered launch).state = proc.state := by
      cases launch <;> rfl
    rw [hrun, hstate] at hst
    cases hst
  · obtain ⟨c, hc, hcs⟩ := h.reaped k v hv hst
    refine ⟨c, ?_, hcs⟩
    cases launch with
    | failed what => exact hc
    | child pid stream =>
      rw [enterLocked_child]
      exact List.mem_append_left _ hc

/-- A visit stops a worker only when the child that it has been tracking is reaped. -/
theorem Retired.visit (h : m.Retired issued) (id : Str) : (m.visit id).2.Retired issued := by
  refine ⟨h.sound.visit id, ?_⟩
  cases hv : m.workers[id]? with
  | none =>
    rw [Manager.visit, hv]
    exact h.reaped
  | some v =>
    have hages := h.ages (m.os.tick_ages.trans (v.isRunning_ages m.os.tick))
      (v.isRunning_sound (Os.tick_sound h.sound.os))
    rw [visit_eq hv]
    intro k w hw hst
    dsimp only at hw
    rw [Maps.get_insert] at hw
    split at hw
    · rename_i hid
      subst hid
      cases hw
      by_cases hst' : v.state = .stopped
      · exact hages.reaped id v hv hst'
      · rcases v.isRunning_cases m.os.tick with ⟨hstopped, -⟩ | ⟨-, -, hr⟩ |
          ⟨pid, -, hp, ⟨hnone, hr⟩ | ⟨c, -, hr⟩⟩
        · exact absurd hstopped hst'
        · rw [hr] at hst
          exact absurd hst hst'
        · obtain ⟨c, hc, howner, hpid⟩ := hages.sound.tracked id v pid hv hp
          refine ⟨c, hc, howner, ?_⟩
          rw [hr] at hc
          exact Os.child?_eq_none.mp hnone c hc hpid
        · rw [hr] at hst
          exact absurd hst hst'
    · exact hages.reaped k w hw hst

theorem Retired.handle (h : m.Retired issued) {p : Ptree} {env : Env}
    (hnew : env.uuid.1 ∉ issued) (hvalid : env.launch.Valid m.os) :
    (m.handle p env).2.Retired (env.uuid.1 :: issued) := by
  refine handle_preserves (h.issue env.uuid) ?_ ?_ ?_ ?_
  · intro proc hacc
    exact h.enterLocked hacc hnew hvalid
  · intro m v hm _
    exact hm.remove v
  · intro j hj
    refine ⟨(h.issue env.uuid).sound.insertJob ?_, h.reaped⟩
    rw [prepareJob_id hj]
    exact List.mem_cons_self
  · intro m id hm
    exact ⟨hm.sound.eraseJob id, hm.reaped⟩

theorem Retired.monitorPass (h : m.Retired issued) : m.monitorPass.2.Retired issued :=
  passLoop_preserves (fun _ id hm => hm.visit id) _ h

theorem Retired.stop (h : m.Retired issued) (order : ClearOrder) : (m.stop order).2.Retired issued :=
  stop_preserves order (fun _ v hm _ => hm.remove v) (fun _ hm => ⟨hm.sound.clear, by simp⟩) h

end Manager

namespace Service
variable {s : Service}

theorem Retired.step (h : s.manager.Retired s.issued) {a : Action} (hvalid : a.Valid s) :
    (s.step a).2.manager.Retired (s.step a).2.issued := by
  cases a with
  | request p env => exact ((h.withScript env.script).handle hvalid.1 hvalid.2).withScript []
  | pass script => exact (h.withScript script).monitorPass.withScript []
  | stop script order => exact ((h.withScript script).stop order).withScript []
  | event e =>
    exact (h.ages (s.manager.os.event_ages e) (Os.event_sound h.sound.os e)).withScript []

theorem Reachable.retired (h : s.Reachable) : s.manager.Retired s.issued :=
  h.invariant (I := fun s => s.manager.Retired s.issued) .init
    fun _ _ hs _ hvalid => Retired.step hs hvalid

end Service

/-- The worker is stopped: it has no handle, the one child it has had has been reaped, and its
destructor issues no call. -/
structure Process.StoppedIn (v : Process) (os : Os) : Prop where
  state : v.state = .stopped
  proc : v.proc = none
  reaped : ∃ c ∈ os.children, c.owner = v.id ∧ c.status = .reaped ∧
    ∀ d ∈ os.children, d.owner = v.id → d = c
  silent : ∀ os', v.destroy os' = (.ok (), os')

theorem Manager.Retired.stoppedIn {m : Manager} {issued : List Str} (h : m.Retired issued) {k : Str}
    {v : Process} (hv : m.workers[k]? = some v) (hst : v.state = .stopped) : v.StoppedIn m.os := by
  have hproc := h.sound.stopped k v hv hst
  obtain ⟨c, hc, howner, hreaped⟩ := h.reaped k v hv hst
  have hid := h.sound.workerId k v hv
  refine ⟨hst, hproc, ⟨c, hc, howner.trans hid.symm, hreaped, fun d hd hdk => ?_⟩, fun os' => ?_⟩
  · -- a worker has at most one child
    exact List.inj_on_of_nodup_map h.sound.owners hd hc (hdk.trans (hid.trans howner.symm))
  · rw [Process.destroy, hproc]

namespace Service
variable {s : Service}

/-- A worker that has been stopped is stopped from then on, until it is removed. -/
theorem stoppedIn_of_run (hs : s.Reachable) {k : Str} {v : Process}
    (hv : s.manager.workers[k]? = some v) (hst : v.state = .stopped) {as : List Action} {t : Service}
    (hrun : Run Service.Step s as t) {w : Process} (hw : t.manager.workers[k]? = some w) :
    w.StoppedIn t.manager.os := by
  have hnow : s.manager.Stopped k := fun v' hv' => Option.some.inj (hv.symm.trans hv') ▸ hst
  obtain ⟨-, hstopped⟩ := stopped_of_run hrun (hs.sound.workerIssued k v hv) hnow
  obtain ⟨bs, hbs⟩ := hs
  exact (Reachable.retired ⟨bs ++ as, hbs.append hrun⟩).stoppedIn hw (hstopped w hw)

/-- A worker is started, its child ends, and two passes go by. -/
def stoppedRun : List Action := exitedRun ++ [.pass []]

/-- The pid of the child that has been reaped goes to another worker's, and a pass goes by. -/
def reusedSince : List Action := [
  .request (pythonRequest "job".toList) { uuid := secondUuid, launch := .child 7 "RUNNING\n".toList },
  .pass []]

theorem stoppedIn_pid_reused :
    ∃ w, (perform (perform {} stoppedRun) reusedSince).manager.workers[firstUuid.1]? = some w ∧
      w.StoppedIn (perform (perform {} stoppedRun) reusedSince).manager.os :=
  ⟨_, rfl, stoppedIn_of_run (Performs.reachable (by decide +kernel)) (k := firstUuid.1) rfl rfl
    (Performs.freeRun (by decide +kernel)) rfl⟩

end Service

end Wye
