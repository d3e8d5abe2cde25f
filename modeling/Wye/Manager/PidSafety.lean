import Wye.Manager.Monitor

/-!
# What the destructors signal

`is_running` waits for a child without a look at what `waitpid` returns. When it reaps a child, the
worker keeps the pid, and from then on a destructor may signal nobody, or whoever has the pid by then.
As long as no pass of the monitor reaps a child (`Service.Reapless`), every worker that holds a pid
has an unreaped child under it (`Manager.Safe`), and every signal reaches that child.
-/

namespace Wye

open Text Calls PropertyTree Transition

/-- The signal has reached the unreaped child of the worker it was issued for. -/
def Signal.Hits (sig : Signal) : Prop := sig.target = .child sig.sender

instance (sig : Signal) : Decidable sig.Hits := inferInstanceAs (Decidable (sig.target = _))

namespace Os
variable {os : Os}

@[simp] theorem event_signals (os : Os) (e : OsEvent) : (os.event e).signals = os.signals := by
  cases e with
  | exits pid => rfl
  | spawns pid =>
    unfold event
    dsimp only
    split <;> rfl

@[simp] theorem tick_signals (os : Os) : os.tick.signals = os.signals := by
  have h : ∀ (es : List OsEvent) (os : Os), (es.foldl event os).signals = os.signals := by
    intro es
    induction es with
    | nil => exact fun _ => rfl
    | cons e es ih => exact fun os => (ih _).trans (os.event_signals e)
  unfold tick
  split
  · rfl
  · exact h _ os

@[simp] theorem setStatus_signals (os : Os) (pid : Pid) (status : ChildStatus) :
    (os.setStatus pid status).signals = os.signals := rfl

@[simp] theorem record_signals (os : Os) (sender : Str) (call : Call) (pid : Pid) :
    (os.record sender call pid).signals = os.signals ++ [⟨sender, call, pid, os.target pid⟩] := rfl

theorem waitpid_child {pid : Pid} {c : Child} (h : os.child? pid = some c) :
    os.waitpid pid = ((pid : Int), os.setStatus pid .reaped) := by
  rw [waitpid, h]

end Os

theorem Process.destroy_owned (self : Process) {os : Os} (hs : os.Sound)
    (howns : ∀ pid, self.proc = some pid → os.Owns self.id pid)
    (hsig : ∀ sig ∈ os.signals, sig.Hits) :
    (self.destroy os).1 = .ok () ∧ (∀ sig ∈ (self.destroy os).2.signals, sig.Hits) ∧
      ∀ owner pid, owner ≠ self.id → os.Owns owner pid → (self.destroy os).2.Owns owner pid := by
  cases hproc : self.proc with
  | none =>
    rw [destroy, hproc]
    exact ⟨rfl, hsig, fun _ _ _ h => h⟩
  | some pid =>
    have hown := howns pid hproc
    have h₁ := Os.tick_owns hown
    have hs₁ := Os.tick_sound hs
    have ht₁ := hs₁.target h₁
    -- recording a call changes the record only
    have hs₂ : (os.tick.record self.id .kill pid).Sound := ⟨hs₁.pids, hs₁.apart⟩
    have h₃ : (os.tick.record self.id .kill pid).tick.Owns self.id pid := Os.tick_owns h₁
    have hs₃ := Os.tick_sound hs₂
    have ht₃ := hs₃.target h₃
    obtain ⟨c, hc, hcowner, hcpid, hclive⟩ := h₃
    have hchild := hs₃.child? hc hclive
    rw [hcpid] at hchild
    have hkill : os.tick.kill pid = 0 := by
      rw [Os.kill, ht₁, if_neg (by simp)]
    have hwait : ((os.tick.record self.id .kill pid).tick.record self.id .wait pid).waitpid pid =
        ((pid : Int), _) := Os.waitpid_child hchild
    have hdestroy : self.destroy os = (.ok (),
        ((os.tick.record self.id .kill pid).tick.record self.id .wait pid).setStatus pid
          .reaped) := by
      rw [destroy, hproc]
      dsimp only
      rw [hkill, if_neg (by decide), hwait]
      dsimp only
      rw [if_neg (by omega)]
    rw [hdestroy]
    refine ⟨rfl, ?_, ?_⟩
    · intro sig hmem
      simp only [Os.setStatus_signals, Os.record_signals, Os.tick_signals, List.mem_append, List.mem_singleton] at hmem
      rcases hmem with (hmem | rfl) | rfl
      · exact hsig sig hmem
      · exact ht₁
      · exact ht₃
    · intro owner pid' hne howner
      have h₂' : (os.tick.record self.id .kill pid).Owns owner pid' := Os.tick_owns howner
      have h₃' : ((os.tick.record self.id .kill pid).tick.record self.id .wait pid).Owns owner pid' :=
        Os.tick_owns h₂'
      refine Os.setStatus_owns h₃' ?_ _
      rintro rfl
      have htarget := hs₃.target h₃'
      rw [ht₃] at htarget
      exact hne (Target.child.inj htarget).symm

namespace Manager
variable {m : Manager} {issued : List Str}

/-- Every worker that holds a pid has an unreaped child under it, and all signals so far have hit. -/
structure Safe (issued : List Str) (m : Manager) : Prop where
  sound : m.Sound issued
  owns : ∀ (k : Str) v pid, m.workers[k]? = some v → v.proc = some pid → m.os.Owns k pid
  hits : ∀ sig ∈ m.os.signals, sig.Hits

theorem Safe.init : Safe [] {} := ⟨.init, by simp, by simp⟩

theorem Safe.withScript (h : m.Safe issued) (script : List (List OsEvent)) :
    (m.withScript script).Safe issued := ⟨h.sound.withScript script, h.owns, h.hits⟩

theorem Safe.issue (h : m.Safe issued) (uuid : Uuid) : m.Safe (uuid.1 :: issued) :=
  ⟨h.sound.issue uuid, h.owns, h.hits⟩

theorem Safe.event (h : m.Safe issued) (e : OsEvent) :
    Safe issued { m with os := m.os.event e } where
  sound := h.sound.ages (m.os.event_ages e) (Os.event_sound h.sound.os e)
  owns k v pid hv hp := Os.event_owns (h.owns k v pid hv hp) e
  hits := by simpa using h.hits

theorem Safe.remove (h : m.Safe issued) {v : Str × Process} (hv : m.workers[v.1]? = some v.2) :
    (m.remove v).1 = .ok () ∧ (m.remove v).2.Safe issued := by
  have hid := h.sound.workerId v.1 v.2 hv
  obtain ⟨hok, hsig, hother⟩ := v.2.destroy_owned h.sound.os
    (fun pid hp => hid ▸ h.owns v.1 v.2 pid hv hp) h.hits
  refine ⟨hok, h.sound.remove v, fun k w pid hk hp => ?_, hsig⟩
  rw [remove_workers, Maps.get_erase] at hk
  split at hk
  · simp at hk
  · rename_i hne
    exact hother k pid (by rw [hid]; exact Ne.symm hne) (h.owns k w pid hk hp)

theorem Safe.enterLocked (h : m.Safe issued) {p : Ptree} {uuid : Uuid} {proc : Process}
    {launch : Launch} (hacc : accepted p uuid = some proc) (hnew : uuid.1 ∉ issued)
    (hvalid : launch.Valid m.os) : (m.enterLocked proc launch).2.Safe (uuid.1 :: issued) := by
  have hsound := h.sound.enterLocked hacc hnew hvalid
  obtain ⟨-, -, -, hproc, -, -⟩ := accepted_spec hacc
  cases launch with
  | failed what =>
    rw [enterLocked_failed] at hsound ⊢
    refine ⟨hsound, fun k v pid hk hp => ?_, h.hits⟩
    dsimp only at hk
    rw [Maps.get_insert] at hk
    split at hk
    · cases hk
      simp [hproc] at hp
    · exact h.owns k v pid hk hp
  | child pid stream =>
    rw [enterLocked_child] at hsound ⊢
    refine ⟨hsound, fun k v pid' hk hp => ?_, h.hits⟩
    dsimp only at hk
    rw [Maps.get_insert] at hk
    split at hk
    · rename_i hkey
      cases hk
      cases hp
      exact ⟨⟨proc.id, pid, cString proc.exec, proc.args.map cString, .running⟩,
        by simp [Os.fork], hkey, rfl, by simp⟩
    · obtain ⟨c, hc, hcs⟩ := h.owns k v pid' hk hp
      exact ⟨c, List.mem_append_left _ hc, hcs⟩

/-- The loop of `delete_job` never meets a destructor that does not return. -/
theorem Safe.deleteLoop (h : m.Safe issued) (fuel : Nat) (id : Str) :
    (m.deleteLoop fuel id).1 ≠ .lost .terminate := by
  induction fuel generalizing m with
  | zero => simp [Manager.deleteLoop]
  | succ fuel ih =>
    rw [Manager.deleteLoop]
    cases hf : m.workers.toList.find? (·.2.jobId == id) with
    | none => simp
    | some v =>
      obtain ⟨hok, hsafe⟩ := h.remove (Maps.mem_toList.mp (List.mem_of_find?_eq_some hf))
      dsimp only
      cases hr : m.remove v with
      | mk r m' =>
        rw [hr] at hok hsafe
        cases hok
        exact ih hsafe

theorem Safe.clearLoop {vs : List (Str × Process)} (hdistinct : (vs.map Prod.fst).Nodup)
    (h : m.Safe issued) (hvs : ∀ v ∈ vs, m.workers[v.1]? = some v.2) :
    (Manager.clearLoop vs m).1 = .ok () := by
  induction vs generalizing m with
  | nil => rfl
  | cons v vs ih =>
    rw [List.map_cons, List.nodup_cons] at hdistinct
    obtain ⟨hok, hsafe⟩ := h.remove (hvs v List.mem_cons_self)
    rw [Manager.clearLoop]
    cases hr : m.remove v with
    | mk r m' =>
      have hm' : m' = (m.remove v).2 := by rw [hr]
      rw [hr] at hok hsafe
      cases hok
      refine ih hdistinct.2 hsafe fun w hw => ?_
      have hne : v.1 ≠ w.1 := fun hvw => hdistinct.1 (hvw ▸ List.mem_map_of_mem hw)
      rw [hm', remove_workers, Maps.get_erase_of_ne hne]
      exact hvs w (List.mem_cons_of_mem _ hw)

theorem Safe.handle_ne_terminate (h : m.Safe issued) (p : Ptree) (env : Env) :
    (m.handle p env).1 ≠ .lost .terminate := by
  have hh := handled p env m
  generalize m.handle p env = r at hh
  cases hh with
  | rejected e => simp
  | listed => exact m.getWorkers_asserts.ne_terminate
  | jobsListed => exact m.getJobs_asserts.ne_terminate
  | described id j => exact (getJobLocked_asserts id j m).ne_terminate
  | entered proc => exact fun hlost => by cases enterLocked_lost hlost
  | removed v _ _ hv => simp [(h.remove hv).1]
  | jobEntered j => exact (enterJobLocked_asserts j m).ne_terminate
  | jobDeleted id =>
    have hloop := h.deleteLoop (m.workers.size + 1) id
    rw [deleteJobLocked]
    split <;> simp_all

theorem Safe.handle (h : m.Safe issued) {p : Ptree} {env : Env} (hnew : env.uuid.1 ∉ issued)
    (hvalid : env.launch.Valid m.os) : (m.handle p env).2.Safe (env.uuid.1 :: issued) := by
  refine handle_preserves (h.issue env.uuid) ?_ ?_ ?_ ?_
  · intro proc hacc
    exact h.enterLocked hacc hnew hvalid
  · intro m v hm hv
    exact (hm.remove hv).2
  · intro j hj
    refine ⟨(h.issue env.uuid).sound.insertJob ?_, h.owns, h.hits⟩
    rw [prepareJob_id hj]
    exact List.mem_cons_self
  · intro m id hm
    exact ⟨hm.sound.eraseJob id, hm.owns, hm.hits⟩

theorem Safe.stop (h : m.Safe issued) (order : ClearOrder) :
    (m.stop order).1 = .ok () ∧ (m.stop order).2.Safe issued := by
  constructor
  · exact h.clearLoop (nodup_arrange order m) fun v hv => mem_arrange.mp hv
  · refine stop_preserves order (fun _ v hm hv => (hm.remove hv).2) (fun m hm => ?_) h
    exact ⟨hm.sound.clear, by simp, hm.hits⟩

theorem Safe.visit (h : m.Safe issued) {id : Str} {v : Process} (hv : m.workers[id]? = some v)
    (hfinds : (childOf { m with os := m.os.tick } id).any (·.status == .exited) = false) :
    (m.visit id).2 = { m with os := m.os.tick } := by
  have hself : m.workers.insert id v = m.workers := Maps.insert_of_get hv
  unfold Manager.visit
  rw [hv]
  dsimp only
  rcases v.isRunning_cases m.os.tick with ⟨-, hr⟩ | ⟨-, -, hr⟩ |
    ⟨pid, hrun, hp, ⟨hnone, -⟩ | ⟨c, hc, hr⟩⟩
  · rw [hr, hself]
  · rw [hr, hself]
  · obtain ⟨c, hc, -, hpid, hlive⟩ := Os.tick_owns (h.owns id v pid hv hp)
    exact absurd (Os.child?_eq_none.mp hnone c hc hpid) hlive
  · have hstatus : ¬ c.status = .exited := by simpa [childOf, hv, hrun, hp, hc] using hfinds
    rw [hr, hself, if_neg hstatus]

theorem Safe.passLoop {ids : List Str} (hids : ∀ id ∈ ids, ∃ v, m.workers[id]? = some v)
    (hfinds : finds (·.status == .exited) ids m = false) (h : m.Safe issued) : (passLoop ids m).2.Safe issued := by
  induction ids generalizing m with
  | nil => exact h
  | cons id ids ih =>
    obtain ⟨hfirst, hrest⟩ := Bool.or_eq_false_iff.mp hfinds
    have htick : Safe issued { m with os := m.os.tick } := by
      refine ⟨h.sound.ages m.os.tick_ages (Os.tick_sound h.sound.os), fun k v pid hk hp => ?_, ?_⟩
      · exact Os.tick_owns (h.owns k v pid hk hp)
      · simpa using h.hits
    obtain ⟨v, hv⟩ := hids id List.mem_cons_self
    have hvisit := h.visit hv hfirst
    rw [Manager.passLoop]
    cases hr : m.visit id with
    | mk r m' =>
      rw [hr] at hvisit
      subst hvisit
      cases r with
      | ok _ => exact ih (fun id hid => hids id (List.mem_cons_of_mem _ hid)) hrest htick
      | throw e => exact htick
      | lost why => exact htick

theorem Safe.monitorPass (h : m.Safe issued) (hfinds : finds (·.status == .exited) m.workers.keys m = false) :
    m.monitorPass.2.Safe issued := by
  exact h.passLoop (fun id hid => mem_keys.mp hid) hfinds

end Manager

/-- A pass of the monitor finds, at no worker it visits, an exited child under the worker's pid. -/
def Service.Reapless (s : Service) : Action → Prop
  | .pass script => Manager.finds (·.status == .exited) s.manager.workers.keys
      (s.manager.withScript script) = false
  | _ => True

instance (s : Service) (a : Action) : Decidable (s.Reapless a) :=
  match a with
  | .pass script => inferInstanceAs (Decidable (Manager.finds (·.status == .exited)
      s.manager.workers.keys (s.manager.withScript script) = false))
  | .request _ _ | .stop _ _ | .event _ => isTrue trivial

theorem Service.ReachableBy.safe {s : Service} (h : s.ReachableBy Service.Reapless) :
    s.manager.Safe s.issued := by
  refine h.invariant (I := fun s => s.manager.Safe s.issued) .init ?_
  intro s a hs _ hvalid hreap
  cases a with
  | request p env => exact ((hs.withScript env.script).handle hvalid.1 hvalid.2).withScript []
  | pass script => exact ((hs.withScript script).monitorPass hreap).withScript []
  | stop script order => exact ((hs.withScript script).stop order).2.withScript []
  | event e => exact (hs.event e).withScript []

/-- Every `kill` and every blocking `waitpid` so far has reached the unreaped child of the worker it
was issued for, and neither a request nor `stop` ends the service through a destructor. -/
structure Service.PidSafe (s : Service) : Prop where
  hits : ∀ sig ∈ s.manager.os.signals, sig.Hits
  request : ∀ p env, (s.step (.request p env)).1 ≠ .lost .terminate
  stop : ∀ script order, (s.step (.stop script order)).1 ≠ .lost .terminate

/-- In every run whose passes reap no child, destructors signal their own child only. -/
theorem Service.pidSafe_of_reapless {s : Service} (h : s.ReachableBy Service.Reapless) :
    s.PidSafe where
  hits := h.safe.hits
  request p env := (h.safe.withScript env.script).handle_ne_terminate p env
  stop script order := by
    have hok := ((h.safe.withScript script).stop order).1
    change uncaught ((s.manager.withScript script).stop order).1 ≠ _
    rw [hok]
    simp [uncaught]

/-- A worker is visited while its child runs, and is deleted after its child has ended. -/
theorem Service.pidSafe_delete_after_exit : (Service.perform {} [
    .request (pythonRequest "job".toList) { uuid := firstUuid, launch := .child 7 "RUNNING\n".toList },
    .pass [], .event (.exits 7),
    .request (deleteRequest firstUuid.1) { uuid := secondUuid }]).PidSafe :=
  Service.pidSafe_of_reapless (Performs.reachableBy (by decide))

/-- A worker's child ends, a pass reaps it, its pid goes to another process, and that process gets the
signal of the worker's deletion. -/
theorem Service.not_pidSafe : ¬ ∀ s : Service, s.Reachable → s.PidSafe := by
  intro h
  have hsafe := h (Service.perform {} [
    .request (pythonRequest "job".toList) { uuid := firstUuid, launch := .child 7 "RUNNING\n".toList },
    .event (.exits 7), .pass [], .event (.spawns 7),
    .request (deleteRequest firstUuid.1) { uuid := secondUuid }])
    (Performs.reachable (by decide))
  exact absurd hsafe.hits (by decide)

end Wye
