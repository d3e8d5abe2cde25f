import Wye.Manager.Spec
import Wye.Pids

/-!
# The invariant of the manager

What holds of the two maps and of the children between any two steps (`Manager.Sound`): keys are the
ids of their values, ids are among those generated, every worker has at most one child, pids are as
the operating system keeps them, and a worker holds the pid of its own child or none. The child may
have been reaped: that it has not is not an invariant of the service.
-/

namespace Wye

open Text Calls PropertyTree Transition

/-! ### The calls of a worker -/

namespace Process
variable {self : Process} {os : Os}

theorem isRunning_cases (self : Process) (os : Os) :
    (self.state = .stopped ∧ self.isRunning os = (.ok false, self, os)) ∨
    (self.state = .running ∧ self.proc = none ∧
      self.isRunning os = (.throw (.runtimeError "Process null pointer!".toList), self, os)) ∨
    ∃ pid, self.state = .running ∧ self.proc = some pid ∧
      ((os.child? pid = none ∧
          self.isRunning os = (.ok false, { self with state := .stopped, proc := none }, os)) ∨
        ∃ c, os.child? pid = some c ∧
          self.isRunning os = (.ok true, self,
            if c.status = .exited then os.setStatus pid .reaped else os)) := by
  unfold isRunning
  cases hstate : self.state with
  | stopped => exact .inl ⟨rfl, by rw [if_pos (by simp)]⟩
  | running =>
    rw [if_neg (by simp)]
    cases hproc : self.proc with
    | none => exact .inr (.inl ⟨rfl, rfl, rfl⟩)
    | some pid =>
      refine .inr (.inr ⟨pid, rfl, rfl, ?_⟩)
      dsimp only [Os.waitpidNohang]
      cases hc : os.child? pid with
      | none => exact .inl ⟨rfl, rfl⟩
      | some c =>
        refine .inr ⟨c, rfl, ?_⟩
        dsimp only
        split
        · dsimp only
          rw [if_neg (by omega)]
        · dsimp only
          rw [if_neg (by omega)]

/-- `is_running` leaves the worker as it is or stops it. -/
theorem isRunning_self (self : Process) (os : Os) :
    (self.isRunning os).2.1 = self ∨
      (self.isRunning os).2.1 = { self with state := .stopped, proc := none } := by
  rcases isRunning_cases self os with ⟨-, h⟩ | ⟨-, -, h⟩ | ⟨pid, -, -, ⟨-, h⟩ | ⟨c, -, h⟩⟩ <;>
    simp [h]

theorem isRunning_ages (self : Process) (os : Os) : os.Ages (self.isRunning os).2.2 := by
  rcases isRunning_cases self os with ⟨-, h⟩ | ⟨-, -, h⟩ | ⟨pid, -, -, ⟨-, h⟩ | ⟨c, -, h⟩⟩ <;> rw [h]
  · exact .refl os
  · exact .refl os
  · exact .refl os
  · dsimp only
    split
    · exact os.setStatus_ages pid (by simp)
    · exact .refl os

theorem isRunning_sound (hs : os.Sound) (self : Process) : (self.isRunning os).2.2.Sound := by
  refine (self.isRunning_ages os).sound hs fun c _ _ hnot => ?_
  rcases isRunning_cases self os with ⟨-, h⟩ | ⟨-, -, h⟩ | ⟨pid, -, -, ⟨-, h⟩ | ⟨c, -, h⟩⟩ <;> rw [h]
  · exact hnot
  · exact hnot
  · exact hnot
  · dsimp only
    split <;> exact hnot

theorem destroy_ages (self : Process) (os : Os) : os.Ages (self.destroy os).2 := by
  unfold destroy
  split
  · exact .refl os
  · have h := os.tick_ages
    dsimp only
    split
    · exact h.trans (.of_eq rfl)
    · have h' := (h.trans (.of_eq rfl)).trans (Os.tick_ages (os.tick.record self.id .kill ‹_›))
      split
      · exact (h'.trans (.of_eq rfl)).trans (Os.waitpid_ages _ _)
      · exact (h'.trans (.of_eq rfl)).trans (Os.waitpid_ages _ _)

theorem destroy_sound (hs : os.Sound) (self : Process) : (self.destroy os).2.Sound := by
  unfold destroy
  split
  · exact hs
  · have h := Os.tick_sound hs
    have hrec : ∀ (os : Os) call pid, os.Sound → (os.record self.id call pid).Sound :=
      fun os _ _ h => ⟨h.pids, h.apart⟩
    dsimp only
    split
    · exact hrec _ _ _ h
    · have h' := Os.tick_sound (hrec _ .kill ‹_› h)
      split
      · exact Os.waitpid_sound (hrec _ _ _ h') _
      · exact Os.waitpid_sound (hrec _ _ _ h') _

end Process

namespace Manager
variable {m : Manager} {issued : List Str}

/-- What holds of the manager between any two steps. -/
structure Sound (issued : List Str) (m : Manager) : Prop where
  workerId : ∀ (k : Str) v, m.workers[k]? = some v → v.id = k
  workerIssued : ∀ (k : Str) v, m.workers[k]? = some v → k ∈ issued
  jobId : ∀ (k : Str) j, m.jobs[k]? = some j → j.id = k
  jobIssued : ∀ (k : Str) j, m.jobs[k]? = some j → k ∈ issued
  uuids : ∀ k ∈ issued, isUuid k = true
  owners : (m.os.children.map Child.owner).Nodup
  ownerIssued : ∀ c ∈ m.os.children, c.owner ∈ issued
  os : m.os.Sound
  tracked : ∀ (k : Str) v pid, m.workers[k]? = some v → v.proc = some pid →
    ∃ c ∈ m.os.children, c.owner = k ∧ c.pid = pid
  stopped : ∀ (k : Str) v, m.workers[k]? = some v → v.state = .stopped → v.proc = none

theorem Sound.init : Sound [] {} where
  workerId := by simp
  workerIssued := by simp
  jobId := by simp
  jobIssued := by simp
  uuids := by simp
  owners := by simp
  ownerIssued := by simp
  os := ⟨by simp, by simp⟩
  tracked := by simp
  stopped := by simp

theorem Sound.issue (h : m.Sound issued) (uuid : Uuid) : m.Sound (uuid.1 :: issued) where
  workerId := h.workerId
  workerIssued k v hv := List.mem_cons_of_mem _ (h.workerIssued k v hv)
  jobId := h.jobId
  jobIssued k j hj := List.mem_cons_of_mem _ (h.jobIssued k j hj)
  uuids k hk := by
    rcases List.mem_cons.mp hk with rfl | hk
    · exact uuid.2
    · exact h.uuids k hk
  owners := h.owners
  ownerIssued c hc := List.mem_cons_of_mem _ (h.ownerIssued c hc)
  os := h.os
  tracked := h.tracked
  stopped := h.stopped

theorem Sound.ages (h : m.Sound issued) {os : Os} (hages : m.os.Ages os) (hs : os.Sound) :
    Sound issued { m with os := os } where
  workerId := h.workerId
  workerIssued := h.workerIssued
  jobId := h.jobId
  jobIssued := h.jobIssued
  uuids := h.uuids
  owners := by
    dsimp only
    rw [hages.owners]
    exact h.owners
  ownerIssued c hc := by
    obtain ⟨c', hc', howner, -⟩ := hages.mem_old hc
    rw [howner]
    exact h.ownerIssued c' hc'
  os := hs
  tracked k v pid hv hp := by
    obtain ⟨c, hc, howner, hpid⟩ := h.tracked k v pid hv hp
    obtain ⟨c', hc', howner', hpid', -⟩ := hages.mem hc
    exact ⟨c', hc', howner'.trans howner, hpid'.trans hpid⟩
  stopped := h.stopped

theorem Sound.withScript (h : m.Sound issued) (script : List (List OsEvent)) :
    (m.withScript script).Sound issued :=
  h.ages (.of_eq rfl) ⟨h.os.pids, h.os.apart⟩

theorem Sound.erase (h : m.Sound issued) (k : Str) :
    Sound issued { m with workers := m.workers.erase k } := by
  have hsub : ∀ (a : Str) v, (m.workers.erase k)[a]? = some v → m.workers[a]? = some v := by
    intro a v ha
    rw [Maps.get_erase] at ha
    split at ha
    · simp at ha
    · exact ha
  exact { h with
    workerId := fun a v ha => h.workerId a v (hsub a v ha)
    workerIssued := fun a v ha => h.workerIssued a v (hsub a v ha)
    tracked := fun a v pid ha => h.tracked a v pid (hsub a v ha)
    stopped := fun a v ha => h.stopped a v (hsub a v ha) }

theorem Sound.clear (h : m.Sound issued) : Sound issued { m with workers := ∅ } :=
  { h with
    workerId := by simp
    workerIssued := by simp
    tracked := by simp
    stopped := by simp }

theorem Sound.remove (h : m.Sound issued) (v : Str × Process) : (m.remove v).2.Sound issued :=
  (h.ages (v.2.destroy_ages m.os) (v.2.destroy_sound h.os)).erase v.1

theorem Sound.insertJob (h : m.Sound issued) {j : Job} (hj : j.id ∈ issued) :
    Sound issued { m with jobs := m.jobs.insert j.id j } :=
  { h with
    jobId := fun k j' hk => by
      rw [Maps.get_insert] at hk
      split at hk
      · rename_i hkey
        cases hk
        exact hkey
      · exact h.jobId k j' hk
    jobIssued := fun k j' hk => by
      rw [Maps.get_insert] at hk
      split at hk
      · rename_i hkey
        exact hkey ▸ hj
      · exact h.jobIssued k j' hk }

theorem Sound.eraseJob (h : m.Sound issued) (id : Str) :
    Sound issued { m with jobs := m.jobs.erase id } := by
  have hsub : ∀ (k : Str) j, (m.jobs.erase id)[k]? = some j → m.jobs[k]? = some j := by
    intro k j hk
    rw [Maps.get_erase] at hk
    split at hk
    · simp at hk
    · exact hk
  exact { h with
    jobId := fun k j hk => h.jobId k j (hsub k j hk)
    jobIssued := fun k j hk => h.jobIssued k j (hsub k j hk) }

theorem Sound.insert (h : m.Sound issued) {k : Str} {v : Process} (hid : v.id = k)
    (hk : k ∈ issued)
    (htracked : ∀ pid, v.proc = some pid → ∃ c ∈ m.os.children, c.owner = k ∧ c.pid = pid)
    (hstopped : v.state = .stopped → v.proc = none) :
    Sound issued { m with workers := m.workers.insert k v } := by
  have hcases : ∀ (a : Str) w, (m.workers.insert k v)[a]? = some w →
      (a = k ∧ w = v) ∨ m.workers[a]? = some w := by
    intro a w ha
    rw [Maps.get_insert] at ha
    split at ha
    · rename_i hkey
      cases ha
      exact .inl ⟨hkey.symm, rfl⟩
    · exact .inr ha
  refine { h with workerId := ?_, workerIssued := ?_, tracked := ?_, stopped := ?_ }
  · intro a w ha
    rcases hcases a w ha with ⟨rfl, rfl⟩ | ha
    · exact hid
    · exact h.workerId a w ha
  · intro a w ha
    rcases hcases a w ha with ⟨rfl, rfl⟩ | ha
    · exact hk
    · exact h.workerIssued a w ha
  · intro a w pid ha
    rcases hcases a w ha with ⟨rfl, rfl⟩ | ha
    · exact htracked pid
    · exact h.tracked a w pid ha
  · intro a w ha
    rcases hcases a w ha with ⟨rfl, rfl⟩ | ha
    · exact hstopped
    · exact h.stopped a w ha

theorem Sound.fork (h : m.Sound issued) {owner : Str} {pid : Pid} (howner : owner ∈ issued)
    (hnew : ∀ c ∈ m.os.children, c.owner ≠ owner) (hfree : m.os.inUse pid = false) (exec : Str)
    (argv : List Str) : Sound issued { m with os := m.os.fork owner pid exec argv } where
  workerId := h.workerId
  workerIssued := h.workerIssued
  jobId := h.jobId
  jobIssued := h.jobIssued
  uuids := h.uuids
  owners := by
    simp only [Os.fork, List.map_append, List.map_cons, List.map_nil, List.nodup_append]
    refine ⟨h.owners, List.nodup_singleton _, ?_⟩
    intro a ha b hb hab
    obtain ⟨c, hc, rfl⟩ := List.mem_map.mp ha
    exact hnew c hc (hab.trans (List.mem_singleton.mp hb))
  ownerIssued c hc := by
    rw [Os.fork, List.mem_append, List.mem_singleton] at hc
    rcases hc with hc | rfl
    · exact h.ownerIssued c hc
    · exact howner
  os := Os.fork_sound h.os hfree owner exec argv
  tracked k v pid' hv hp := by
    obtain ⟨c, hc, hcs⟩ := h.tracked k v pid' hv hp
    exact ⟨c, List.mem_append_left _ hc, hcs⟩
  stopped := h.stopped

theorem Sound.enterLocked (h : m.Sound issued) {p : Ptree} {uuid : Uuid} {proc : Process}
    {launch : Launch} (hacc : accepted p uuid = some proc) (hnew : uuid.1 ∉ issued)
    (hvalid : launch.Valid m.os) : (m.enterLocked proc launch).2.Sound (uuid.1 :: issued) := by
  obtain ⟨hid, hstate, -, hproc, -, -⟩ := accepted_spec hacc
  have hissue := h.issue uuid
  cases launch with
  | failed what =>
    rw [enterLocked_failed]
    refine hissue.insert rfl (by rw [hid]; exact List.mem_cons_self) ?_ ?_
    · simp [hproc]
    · simp [hstate]
  | child pid stream =>
    rw [enterLocked_child]
    have howner : proc.id ∈ uuid.1 :: issued := by
      rw [hid]
      exact List.mem_cons_self
    have hnone : ∀ c ∈ m.os.children, c.owner ≠ proc.id := by
      intro c hc howner
      rw [hid] at howner
      exact hnew (howner ▸ h.ownerIssued c hc)
    have hfork := hissue.fork howner hnone hvalid.2 (cString proc.exec) (proc.args.map cString)
    refine hfork.insert rfl howner ?_ ?_
    · intro pid' hpid
      cases hpid
      exact ⟨⟨proc.id, pid, cString proc.exec, proc.args.map cString, .running⟩,
        by simp [Os.fork], rfl, rfl⟩
    · intro hst
      rw [Process.started_state, hstate] at hst
      exact absurd hst (by decide)

theorem Sound.visit (h : m.Sound issued) (id : Str) : (m.visit id).2.Sound issued := by
  unfold Manager.visit
  cases hv : m.workers[id]? with
  | none => exact h
  | some v =>
    have hs := Os.tick_sound h.os
    have hages := h.ages (m.os.tick_ages.trans (v.isRunning_ages m.os.tick))
      (v.isRunning_sound hs)
    refine hages.insert ?_ (h.workerIssued id v hv) ?_ ?_
    · rcases v.isRunning_self m.os.tick with hself | hself <;> rw [hself]
      · exact h.workerId id v hv
      · exact h.workerId id v hv
    · intro pid hpid
      rcases v.isRunning_self m.os.tick with hself | hself
      · rw [hself] at hpid
        exact hages.tracked id v pid hv hpid
      · rw [hself] at hpid
        simp at hpid
    · intro hst
      rcases v.isRunning_self m.os.tick with hself | hself
      · rw [hself] at hst ⊢
        exact h.stopped id v hv hst
      · rw [hself]

/-- A request under a new id keeps the invariant. -/
theorem Sound.handle (h : m.Sound issued) {p : Ptree} {env : Env} (hnew : env.uuid.1 ∉ issued)
    (hvalid : env.launch.Valid m.os) : (m.handle p env).2.Sound (env.uuid.1 :: issued) := by
  refine handle_preserves (h.issue env.uuid) ?_ ?_ ?_ ?_
  · intro proc hacc
    exact h.enterLocked hacc hnew hvalid
  · intro m v hm _
    exact hm.remove v
  · intro j hj
    refine (h.issue env.uuid).insertJob ?_
    rw [prepareJob_id hj]
    exact List.mem_cons_self
  · intro m id hm
    exact hm.eraseJob id

theorem Sound.monitorPass (h : m.Sound issued) : m.monitorPass.2.Sound issued :=
  passLoop_preserves (fun _ id hm => hm.visit id) _ h

theorem Sound.stop (h : m.Sound issued) (order : ClearOrder) : (m.stop order).2.Sound issued :=
  stop_preserves order (fun _ v hm _ => hm.remove v) (fun _ hm => hm.clear) h

end Manager

/-- The invariant of the service. -/
def Service.Sound (s : Service) : Prop := s.manager.Sound s.issued

theorem Service.Sound.step {s : Service} (h : s.Sound) {a : Action} (hvalid : a.Valid s) :
    (s.step a).2.Sound := by
  cases a with
  | request p env =>
    exact ((h.withScript env.script).handle hvalid.1 hvalid.2).withScript []
  | pass script => exact ((h.withScript script).monitorPass).withScript []
  | stop script order => exact ((h.withScript script).stop order).withScript []
  | event e =>
    exact (h.ages (s.manager.os.event_ages e) (Os.event_sound h.os e)).withScript []

theorem Service.Reachable.sound {s : Service} (h : s.Reachable) : s.Sound :=
  h.invariant Manager.Sound.init fun _ _ hs _ hvalid => hs.step hvalid

end Wye
