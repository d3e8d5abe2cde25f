import Wye.Manager.Invariant

/-!
# The monitor

A pass visits the workers in the order of the map and asks each whether it is running. It comes back
exactly when no worker that counts as running lacks a child (`passLoop_ok_iff`), and then it has
visited every worker. Such a worker is left behind only by a `create-worker` request whose launch
throws (`Service.nullFree_step_iff`), so without one the monitor thread never dies.
-/

namespace Wye

open Text Calls PropertyTree Transition

/-- The monitor can ask the worker: it has a child, or it has been stopped. -/
def Process.Watchable (v : Process) : Prop := v.state = .running → v.proc ≠ none

instance (v : Process) : Decidable v.Watchable := inferInstanceAs (Decidable (_ → _))

theorem Process.isRunning_ok_iff (self : Process) (os : Os) :
    (∃ b, (self.isRunning os).1 = .ok b) ↔ self.Watchable := by
  rcases isRunning_cases self os with ⟨hst, h⟩ | ⟨hst, hp, h⟩ | ⟨pid, hst, hp, ⟨-, h⟩ | ⟨c, -, h⟩⟩ <;>
    simp [Watchable, *]

theorem Process.Watchable.isRunning {self : Process} (h : self.Watchable) (os : Os) :
    (self.isRunning os).2.1.Watchable := by
  rcases isRunning_self self os with hself | hself <;> rw [hself]
  · exact h
  · intro hst
    simp at hst

namespace Manager
variable {m : Manager}

/-- Every worker in the map can be asked. -/
def NullFree (m : Manager) : Prop := ∀ (k : Str) v, m.workers[k]? = some v → v.Watchable

/-! ### One visit -/

theorem visit_eq {id : Str} {v : Process} (hv : m.workers[id]? = some v) :
    m.visit id = ((v.isRunning m.os.tick).1,
      { m with
        workers := m.workers.insert id (v.isRunning m.os.tick).2.1
        os := (v.isRunning m.os.tick).2.2 }) := by
  rw [visit, hv]

theorem visit_other {id k : Str} (hne : id ≠ k) :
    (m.visit id).2.workers[k]? = m.workers[k]? := by
  cases hv : m.workers[id]? with
  | none => rw [visit, hv]
  | some v => rw [visit_eq hv, Maps.get_insert_of_ne hne]

theorem visit_self {id : Str} {v : Process} (hv : m.workers[id]? = some v) :
    (m.visit id).2.workers[id]? = some (v.isRunning m.os.tick).2.1 := by
  rw [visit_eq hv, Maps.get_insert_self]

theorem visit_ages (m : Manager) (id : Str) : m.os.Ages (m.visit id).2.os := by
  cases hv : m.workers[id]? with
  | none =>
    rw [visit, hv]
    exact .refl m.os
  | some v =>
    rw [visit_eq hv]
    exact m.os.tick_ages.trans (v.isRunning_ages m.os.tick)

/-! ### A pass -/

theorem passLoop_cons (id : Str) (ids : List Str) (m : Manager) :
    (passLoop (id :: ids) m).1 = .ok () ↔
      (∃ b, (m.visit id).1 = .ok b) ∧ (passLoop ids (m.visit id).2).1 = .ok () := by
  rw [passLoop]
  cases hr : m.visit id with
  | mk r m' => cases r <;> simp

theorem passLoop_cons_snd {id : Str} {ids : List Str} (h : ∃ b, (m.visit id).1 = .ok b) :
    passLoop (id :: ids) m = passLoop ids (m.visit id).2 := by
  obtain ⟨b, hb⟩ := h
  rw [passLoop]
  cases hr : m.visit id with
  | mk r m' =>
    rw [hr] at hb
    cases hb
    rfl

theorem passLoop_append {as bs : List Str} (h : (passLoop as m).1 = .ok ()) :
    passLoop (as ++ bs) m = passLoop bs (passLoop as m).2 := by
  induction as generalizing m with
  | nil => rfl
  | cons id as ih =>
    obtain ⟨hvisit, hrest⟩ := (passLoop_cons id as m).mp h
    rw [List.cons_append, passLoop_cons_snd hvisit, passLoop_cons_snd hvisit, ih hrest]

theorem passLoop_other {ids : List Str} {k : Str} (hk : k ∉ ids) :
    (passLoop ids m).2.workers[k]? = m.workers[k]? := by
  induction ids generalizing m with
  | nil => rfl
  | cons id ids ih =>
    rw [List.mem_cons, not_or] at hk
    have hother := visit_other (m := m) (Ne.symm hk.1)
    rw [passLoop]
    cases hr : m.visit id with
    | mk r m' =>
      rw [hr] at hother
      cases r with
      | ok _ => exact (ih hk.2).trans hother
      | throw e => exact hother
      | lost why => exact hother

/-- A pass comes back exactly when every worker it visits can be asked. -/
theorem passLoop_ok_iff {ids : List Str} (hdistinct : ids.Nodup) :
    (passLoop ids m).1 = .ok () ↔
      ∀ id ∈ ids, ∀ v, m.workers[id]? = some v → v.Watchable := by
  induction ids generalizing m with
  | nil => exact iff_of_true rfl (by simp)
  | cons id ids ih =>
    rw [List.nodup_cons] at hdistinct
    have hfirst : (∃ b, (m.visit id).1 = .ok b) ↔
        ∀ v, m.workers[id]? = some v → v.Watchable := by
      cases hv : m.workers[id]? with
      | none => simp [visit, hv]
      | some v =>
        rw [visit_eq hv]
        dsimp only
        rw [v.isRunning_ok_iff]
        exact ⟨fun h v' hv' => Option.some.inj hv' ▸ h, fun h => h v rfl⟩
    rw [passLoop_cons, hfirst, ih hdistinct.2, List.forall_mem_cons]
    refine and_congr_right fun _ => forall₂_congr fun k hk => ?_
    have hne : id ≠ k := fun hid => hdistinct.1 (hid ▸ hk)
    rw [visit_other hne]

theorem nodup_keys (m : Manager) : m.workers.keys.Nodup := Std.ExtTreeMap.nodup_keys

theorem mem_keys {k : Str} : k ∈ m.workers.keys ↔ ∃ v, m.workers[k]? = some v := by
  rw [Std.ExtTreeMap.mem_keys, Std.ExtTreeMap.mem_iff_isSome_getElem?, Option.isSome_iff_exists]

theorem monitorPass_ok_iff (m : Manager) : m.monitorPass.1 = .ok () ↔ m.NullFree := by
  rw [monitorPass, passLoop_ok_iff m.nodup_keys]
  exact ⟨fun h k v hv => h k (mem_keys.mpr ⟨v, hv⟩) v hv, fun h k _ v hv => h k v hv⟩

/-- A pass that comes back has asked each worker once, in the state to which the visits before it have
led. -/
theorem monitorPass_visit {pre post : List Str} {id : Str} {v : Process}
    (hkeys : m.workers.keys = pre ++ id :: post) (hv : m.workers[id]? = some v)
    (hnull : m.NullFree) :
    m.monitorPass.2.workers[id]? = some (v.isRunning (passLoop pre m).2.os.tick).2.1 ∧
      (passLoop (pre ++ [id]) m).2.os = (v.isRunning (passLoop pre m).2.os.tick).2.2 := by
  have hdistinct := m.nodup_keys
  rw [hkeys, List.nodup_append, List.nodup_cons] at hdistinct
  obtain ⟨hpre, ⟨hnotpost, -⟩, hapart⟩ := hdistinct
  have hnotpre : id ∉ pre := fun h => hapart id h id List.mem_cons_self rfl
  have hok : (passLoop pre m).1 = .ok () :=
    (passLoop_ok_iff hpre).mpr fun k _ w hw => hnull k w hw
  have hget : (passLoop pre m).2.workers[id]? = some v := by rw [passLoop_other hnotpre, hv]
  have hvisit : ∃ b, ((passLoop pre m).2.visit id).1 = .ok b := by
    rw [visit_eq hget]
    exact (v.isRunning_ok_iff _).mpr (hnull id v hv)
  constructor
  · rw [monitorPass, hkeys, passLoop_append hok, passLoop_cons_snd hvisit, passLoop_other hnotpost,
      visit_self hget]
  · rw [passLoop_append hok, passLoop_cons_snd hvisit, visit_eq hget]
    rfl

/-- The child under the pid of a worker that counts as running. -/
def childOf (m : Manager) (id : Str) : Option Child :=
  (m.workers[id]?).bind fun v => if v.state = .running then v.proc.bind m.os.child? else none

/-- Whether some worker of a list has, at the time a pass gets to it, a child with a property under
its pid. -/
def finds (p : Child → Bool) : List Str → Manager → Bool
  | [], _ => false
  | id :: ids, m =>
    let m := { m with os := m.os.tick }
    (m.childOf id).any p || finds p ids m

/-! ### Workers without a child -/

theorem NullFree.insert (h : m.NullFree) {k : Str} {v : Process} (hv : v.Watchable) :
    NullFree { m with workers := m.workers.insert k v } := by
  intro a w ha
  rw [Maps.get_insert] at ha
  split at ha
  · cases ha
    exact hv
  · exact h a w ha

theorem NullFree.remove (h : m.NullFree) (v : Str × Process) : (m.remove v).2.NullFree := by
  intro a w ha
  rw [remove_workers, Maps.get_erase] at ha
  split at ha
  · simp at ha
  · exact h a w ha

theorem NullFree.visit (h : m.NullFree) (id : Str) : (m.visit id).2.NullFree := by
  cases hv : m.workers[id]? with
  | none =>
    rw [Manager.visit, hv]
    exact h
  | some v =>
    rw [visit_eq hv]
    exact h.insert ((h id v hv).isRunning m.os.tick)

end Manager

/-- The request enters no worker whose launch throws. -/
def Manager.Launches (p : Ptree) (env : Env) : Prop :=
  match env.launch with
  | .failed _ => Manager.accepted p env.uuid = none
  | .child _ _ => True

instance (p : Ptree) (env : Env) : Decidable (Manager.Launches p env) := by
  unfold Manager.Launches
  split
  · exact decidable_of_iff ((Manager.accepted p env.uuid).isNone = true) Option.isNone_iff_eq_none
  · exact isTrue trivial

namespace Manager
variable {m : Manager}

/-- The worker of a launch that throws cannot be asked; every other request leaves only workers that
can. -/
theorem NullFree.handle_iff (h : m.NullFree) (p : Ptree) (env : Env) :
    (m.handle p env).2.NullFree ↔ Launches p env := by
  constructor
  · intro hafter
    unfold Launches
    split
    · rename_i what hlaunch
      rw [Option.eq_none_iff_forall_ne_some]
      intro proc hacc
      obtain ⟨-, hstate, -, hproc, -, -⟩ := accepted_spec hacc
      rw [handle_of_accepted hacc, hlaunch, enterLocked_failed] at hafter
      exact hafter proc.id proc (Maps.get_insert_self _ _) hstate hproc
    · trivial
  · intro hl
    refine handle_preserves h ?_ (fun m v hm _ => hm.remove v) (fun _ _ => h) fun m id hm => hm
    intro proc hacc
    unfold Launches at hl
    cases hlaunch : env.launch with
    | failed what =>
      rw [hlaunch, hacc] at hl
      cases hl
    | child pid stream =>
      rw [enterLocked_child]
      exact h.insert fun _ => by simp

theorem NullFree.monitorPass (h : m.NullFree) : m.monitorPass.2.NullFree :=
  passLoop_preserves (fun _ id hm => hm.visit id) _ h

theorem NullFree.stop (h : m.NullFree) (order : ClearOrder) : (m.stop order).2.NullFree :=
  stop_preserves (I := NullFree) order (fun _ v hm _ => hm.remove v) (fun _ _ => by simp [NullFree]) h

end Manager

/-- The step enters no worker whose launch throws. -/
def Service.Launches (_ : Service) : Action → Prop
  | .request p env => Manager.Launches p env
  | _ => True

instance (s : Service) (a : Action) : Decidable (s.Launches a) :=
  match a with
  | .request p env => inferInstanceAs (Decidable (Manager.Launches p env))
  | .pass _ | .stop _ _ | .event _ => isTrue trivial

/-- Of the steps from a state in which every worker can be asked, those that enter a worker whose
launch throws, and only those, lead to a state in which one cannot. -/
theorem Service.nullFree_step_iff {s : Service} (h : s.manager.NullFree) (a : Action) :
    (s.step a).2.manager.NullFree ↔ s.Launches a := by
  cases a with
  | request p env =>
    exact Manager.NullFree.handle_iff (m := s.manager.withScript env.script) h p env
  | pass script =>
    exact iff_of_true (Manager.NullFree.monitorPass (m := s.manager.withScript script) h) trivial
  | stop script order =>
    exact iff_of_true (Manager.NullFree.stop (m := s.manager.withScript script) h order) trivial
  | event e => exact iff_of_true h trivial

/-- Every worker can be asked, and a pass of the monitor comes back and has asked every worker: with the
operating system as the visits before it leave it, and with one more moment gone by. -/
structure Service.Monitored (s : Service) : Prop where
  nullFree : s.manager.NullFree
  comes : ∀ script, (s.step (.pass script)).1 = .ok .empty
  visits : ∀ script pre id post v, s.manager.workers.keys = pre ++ id :: post →
    s.manager.workers[id]? = some v →
    let m := s.manager.withScript script
    let os := (Manager.passLoop pre m).2.os.tick
    (s.step (.pass script)).2.manager.workers[id]? = some (v.isRunning os).2.1 ∧
      (Manager.passLoop (pre ++ [id]) m).2.os = (v.isRunning os).2.2

theorem Service.monitored_of_nullFree {s : Service} (h : s.manager.NullFree) : s.Monitored where
  nullFree := h
  comes script := by
    have hok := (s.manager.withScript script).monitorPass_ok_iff.mpr h
    change uncaught (s.manager.withScript script).monitorPass.1 = _
    rw [hok]
    rfl
  visits script _ _ _ _ hkeys hv :=
    Manager.monitorPass_visit (m := s.manager.withScript script) hkeys hv h

theorem Service.ReachableBy.nullFree {s : Service} (h : s.ReachableBy Service.Launches) :
    s.manager.NullFree :=
  h.invariant (I := fun s => s.manager.NullFree) (by simp [Manager.NullFree])
    fun _ a hs _ _ hl => (Service.nullFree_step_iff hs a).mpr hl

/-- In every run in which no launch of an accepted worker throws, the monitor thread lives and visits
every worker; and a step that breaks the condition leaves a worker that cannot be asked. -/
theorem Service.monitored_of_launches {s : Service} (h : s.ReachableBy Service.Launches) :
    s.Monitored ∧ ∀ a, ¬ s.Launches a → ¬ (s.step a).2.Monitored := by
  exact ⟨monitored_of_nullFree h.nullFree, fun a ha hmon =>
    ha ((Service.nullFree_step_iff h.nullFree a).mp hmon.nullFree)⟩

/-- A worker whose handshake has failed can still be asked. -/
theorem Service.monitored_after_error : Service.Monitored (Service.perform {} [
    .request (pythonRequest "job".toList) { uuid := firstUuid, launch := .child 7 "ERROR:x\n".toList },
    .pass []]) :=
  (Service.monitored_of_launches (Performs.reachableBy (by decide))).1

/-- A launch that throws leaves a worker on which the next pass dies. -/
theorem Service.not_monitored : ¬ ∀ s : Service, s.Reachable → s.Monitored := by
  intro h
  have hmon := h (Service.perform {} [.request (pythonRequest "job".toList)
    { uuid := firstUuid, launch := .failed "fork(2) failed".toList }])
    (Performs.reachable (by decide))
  exact absurd (hmon.comes []) (by rintro ⟨⟩)

end Wye
