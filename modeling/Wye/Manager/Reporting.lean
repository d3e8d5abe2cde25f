import Wye.Manager.Answers
import Wye.Manager.Monitor

/-!
# Whether dead workers are reported

A visit stops a worker only when no child stands under its pid. So a pass reports a dead worker
(`Service.Reports`) exactly when the worker is stopped already, or its pid is free of children when
the pass starts, or a worker visited earlier reaps the child under it (`Service.Notices`); and the pass
has to come back. A stopped worker stays stopped for good (`Service.stopped_of_run`), and it is shown
as long as the names of the workers can be written.
-/

namespace Wye

open Text Calls PropertyTree Transition

/-! ### The child under a pid, over time -/

namespace Os
variable {os os' : Os} {pid : Pid}

theorem Ages.child?_none (h : os.Ages os') (hnone : os.child? pid = none) :
    os'.child? pid = none := by
  rw [child?_eq_none] at hnone ⊢
  intro c' hc' hpid
  obtain ⟨c, hc, -, hpid', hle⟩ := h.mem_old hc'
  rw [hnone c hc (hpid'.symm.trans hpid)] at hle
  exact hle

theorem setStatus_child? (os : Os) {pid' : Pid} (hne : pid ≠ pid') (status : ChildStatus) :
    (os.setStatus pid' status).child? pid = os.child? pid := by
  have hother : ∀ c : Child, c.pid = pid → c.holds pid' = false := by
    rintro c rfl
    simp [Child.holds, hne]
  have hsame : ((fun c : Child => c.holds pid) ∘ fun c : Child =>
      if c.holds pid' then { c with status := status } else c) = fun c => c.holds pid := by
    funext c
    by_cases hc : c.pid = pid
    · simp [hother c hc]
    · have hfalse : (c.pid == pid) = false := by simpa using hc
      simp only [Function.comp_apply]
      split <;> simp [Child.holds, hfalse]
  rw [child?, setStatus, List.find?_map, hsame, child?]
  cases h : os.children.find? fun c => c.holds pid with
  | none => rfl
  | some c =>
    have hc : c.holds pid = true := by simpa using List.find?_some h
    simp [hother c (Child.holds_iff.mp hc).1]

theorem setStatus_reaped_child? (os : Os) (pid : Pid) :
    (os.setStatus pid .reaped).child? pid = none := by
  rw [child?_eq_none]
  intro c' hc' hpid
  obtain ⟨c, -, rfl⟩ := List.mem_map.mp hc'
  by_cases hc : c.holds pid = true
  · rw [if_pos hc]
  · rw [if_neg hc] at hpid ⊢
    by_contra hlive
    exact hc (Child.holds_iff.mpr ⟨hpid, hlive⟩)

theorem setStatus_exited_child? (os : Os) (pid : Pid) :
    (os.setStatus pid .exited).child? pid =
      (os.child? pid).map fun c => { c with status := .exited } := by
  have hsame : ((fun c : Child => c.holds pid) ∘ fun c : Child =>
      if c.holds pid then { c with status := .exited } else c) = fun c => c.holds pid := by
    funext c
    simp only [Function.comp_apply]
    split
    · rename_i hc
      rw [hc, Child.holds_iff]
      exact ⟨(Child.holds_iff.mp hc).1, by simp⟩
    · rfl
  rw [child?, setStatus, List.find?_map, hsame, child?]
  cases h : os.children.find? fun c => c.holds pid with
  | none => rfl
  | some c =>
    have hc : c.holds pid = true := by simpa using List.find?_some h
    simp [hc]

/-- What an event does to the child under a pid. -/
def seen (pid : Pid) (c : Option Child) : OsEvent → Option Child
  | .exits pid' => if pid' = pid then c.map fun c => { c with status := .exited } else c
  | .spawns _ => c

theorem event_child? (os : Os) (pid : Pid) (e : OsEvent) :
    (os.event e).child? pid = seen pid (os.child? pid) e := by
  cases e with
  | exits pid' =>
    change (os.setStatus pid' .exited).child? pid = _
    rw [seen]
    split
    · rename_i h
      rw [h, setStatus_exited_child?]
    · rename_i h
      exact os.setStatus_child? (Ne.symm h) .exited
  | spawns pid' =>
    unfold event
    dsimp only
    split <;> rfl

theorem events_child? (es : List OsEvent) (os : Os) (pid : Pid) :
    (es.foldl event os).child? pid = es.foldl (seen pid) (os.child? pid) := by
  induction es generalizing os with
  | nil => rfl
  | cons e es ih => rw [List.foldl_cons, List.foldl_cons, ih, event_child?]

theorem tick_child?_congr (hscript : os.script = os'.script) (h : os.child? pid = os'.child? pid) :
    os.tick.child? pid = os'.tick.child? pid := by
  unfold tick
  rw [hscript]
  split
  · exact h
  · rename_i es _ _
    change (es.foldl event os).child? pid = (es.foldl event os').child? pid
    rw [events_child?, events_child?, h]

theorem tick_script (os : Os) : os.tick.script = os.script.tail := by
  unfold tick
  split
  · rename_i h
    rw [h]
    rfl
  · rename_i h
    rw [h]
    rfl

theorem tick_child?_eq_none : os.tick.child? pid = none ↔ os.child? pid = none := by
  refine ⟨fun h => ?_, os.tick_ages.child?_none⟩
  have hes : ∀ (es : List OsEvent) (c : Option Child), es.foldl (seen pid) c = none → c = none := by
    intro es
    induction es with
    | nil => exact fun _ h => h
    | cons e es ih =>
      intro c hc
      have hseen := ih _ hc
      cases e with
      | exits pid' =>
        rw [seen] at hseen
        split at hseen
        · simpa using hseen
        · exact hseen
      | spawns pid' => exact hseen
  unfold tick at h
  split at h
  · exact h
  · exact hes _ _ ((events_child? _ os pid).symm.trans h)

end Os

namespace Manager
variable {m ideal : Manager} {pid : Pid}

/-! ### Reaping on the way -/

theorem passLoop_ages (ids : List Str) (m : Manager) : m.os.Ages (passLoop ids m).2.os :=
  passLoop_preserves (I := fun m' => m.os.Ages m'.os)
    (fun m' id h => h.trans (m'.visit_ages id)) ids (.refl m.os)

/-- A manager agrees, on the workers still to be visited and on the child under a pid, with one that
has only grown older. -/
structure Shadows (pid : Pid) (ids : List Str) (m ideal : Manager) : Prop where
  script : m.os.script = ideal.os.script
  child : m.os.child? pid = ideal.os.child? pid
  workers : ∀ k ∈ ids, m.workers[k]? = ideal.workers[k]?

/-- Whether the child is an exited one under a pid. -/
def exitedUnder (pid : Pid) (c : Child) : Bool := c.pid == pid && c.status == .exited

theorem Shadows.visit {id : Str} {ids : List Str} (h : Shadows pid (id :: ids) m ideal)
    (hnot : id ∉ ids) {v : Process} (hv : m.workers[id]? = some v) (hwatch : v.Watchable) :
    ((m.visit id).2.os.child? pid = none ∧ (m.os.child? pid = none ∨
        (childOf { ideal with os := ideal.os.tick } id).any (exitedUnder pid) = true)) ∨
      (Shadows pid ids (m.visit id).2 { ideal with os := ideal.os.tick } ∧
        (childOf { ideal with os := ideal.os.tick } id).any (exitedUnder pid) = false) := by
  have hchild := Os.tick_child?_congr h.script h.child
  have hrest : ∀ k ∈ ids, (m.visit id).2.workers[k]? = ideal.workers[k]? := by
    intro k hk
    have hne : id ≠ k := fun hid => hnot (hid ▸ hk)
    rw [visit_other hne]
    exact h.workers k (List.mem_cons_of_mem _ hk)
  have hscript : m.os.tick.script = ideal.os.tick.script := by
    rw [Os.tick_script, Os.tick_script, h.script]
  have hv' : ideal.workers[id]? = some v := by rw [← h.workers id List.mem_cons_self, hv]
  have hother : ∀ pid' (c : Child), pid ≠ pid' → ideal.os.tick.child? pid' = some c →
      exitedUnder pid c = false := by
    intro pid' c hne hc
    simp [exitedUnder, (Os.child?_mem hc).2.1, Ne.symm hne]
  rw [visit_eq hv] at hrest ⊢
  rcases v.isRunning_cases m.os.tick with ⟨hst, hr⟩ | ⟨hst, hp, hr⟩ |
    ⟨pid', hst, hp, ⟨hnone, hr⟩ | ⟨c, hc, hr⟩⟩
  · rw [hr] at hrest ⊢
    exact .inr ⟨⟨hscript, hchild, hrest⟩, by simp [childOf, hv', hst]⟩
  · exact absurd hp (hwatch hst)
  · rw [hr] at hrest ⊢
    by_cases hpid : pid = pid'
    · subst hpid
      exact .inl ⟨hnone, .inl (Os.tick_child?_eq_none.mp hnone)⟩
    · refine .inr ⟨⟨hscript, hchild, hrest⟩, ?_⟩
      cases hc : ideal.os.tick.child? pid' with
      | none => simp [childOf, hv', hst, hp, hc]
      | some c => simp [childOf, hv', hst, hp, hc, hother pid' c hpid hc]
  · rw [hr] at hrest ⊢
    by_cases hpid : pid = pid'
    · subst hpid
      have hideal : ideal.os.tick.child? pid = some c := by rw [← hchild, hc]
      by_cases hexit : c.status = .exited
      · rw [if_pos hexit]
        refine .inl ⟨Os.setStatus_reaped_child? _ _, .inr ?_⟩
        simp [childOf, hv', hst, hp, hideal, exitedUnder, (Os.child?_mem hc).2.1, hexit]
      · rw [if_neg hexit] at hrest ⊢
        refine .inr ⟨⟨hscript, hchild, hrest⟩, ?_⟩
        simp [childOf, hv', hst, hp, hideal, exitedUnder, hexit]
    · have hfalse : (childOf { ideal with os := ideal.os.tick } id).any (exitedUnder pid) = false := by
        cases hc' : ideal.os.tick.child? pid' with
        | none => simp [childOf, hv', hst, hp, hc']
        | some c' => simp [childOf, hv', hst, hp, hc', hother pid' c' hpid hc']
      refine .inr ⟨⟨?_, ?_, hrest⟩, hfalse⟩
      · dsimp only
        split <;> exact hscript
      · dsimp only
        split
        · exact (Os.setStatus_child? _ hpid _).trans hchild
        · exact hchild

theorem passLoop_child?_eq_none {ids : List Str} (hdistinct : ids.Nodup)
    (hids : ∀ id ∈ ids, ∃ v, m.workers[id]? = some v) (hok : (passLoop ids m).1 = .ok ())
    (h : Shadows pid ids m ideal) : (passLoop ids m).2.os.child? pid = none ↔
      m.os.child? pid = none ∨ finds (exitedUnder pid) ids ideal = true := by
  induction ids generalizing m ideal with
  | nil => simp [passLoop, finds]
  | cons id ids ih =>
    rw [List.nodup_cons] at hdistinct
    obtain ⟨v, hv⟩ := hids id List.mem_cons_self
    obtain ⟨hvisit, hrest⟩ := (passLoop_cons id ids m).mp hok
    have hwatch : v.Watchable := by
      rw [visit_eq hv] at hvisit
      exact (v.isRunning_ok_iff _).mp hvisit
    rw [passLoop_cons_snd hvisit, finds, Bool.or_eq_true]
    rcases h.visit hdistinct.1 hv hwatch with ⟨hfreed, hwhy⟩ | ⟨hshadows, hfalse⟩
    · refine iff_of_true ((passLoop_ages ids _).child?_none hfreed) ?_
      exact hwhy.imp_right .inl
    · have hids' : ∀ k ∈ ids, ∃ w, (m.visit id).2.workers[k]? = some w := by
        intro k hk
        have hne : id ≠ k := fun hid => hdistinct.1 (hid ▸ hk)
        rw [visit_other hne]
        exact hids k (List.mem_cons_of_mem _ hk)
      have htick : ideal.os.tick.child? pid = none ↔ m.os.child? pid = none := by
        rw [Os.tick_child?_eq_none, h.child]
      rw [ih hdistinct.2 hids' hrest hshadows, hshadows.child, hfalse, htick]
      simp

theorem keys_split {id : Str} (hid : id ∈ m.workers.keys) :
    ∃ post, m.workers.keys = m.workers.keys.takeWhile (· != id) ++ id :: post := by
  have hdrop := List.takeWhile_append_dropWhile (p := (· != id)) (l := m.workers.keys)
  cases hrest : m.workers.keys.dropWhile (· != id) with
  | nil =>
    rw [List.dropWhile_eq_nil_iff] at hrest
    simpa using hrest id hid
  | cons k post =>
    have hk : (k != id) = false := by
      have hne : m.workers.keys.dropWhile (· != id) ≠ [] := by simp [hrest]
      have h := List.head_dropWhile_not (· != id) hne
      simpa [hrest] using h
    have hkid : k = id := by simpa using hk
    refine ⟨post, ?_⟩
    rw [hrest, hkid] at hdrop
    exact hdrop.symm

/-- What a pass that comes back makes of a worker. -/
theorem monitorPass_worker {id : Str} {v : Process} (hv : m.workers[id]? = some v)
    (hnull : m.NullFree) : ∃ v', m.monitorPass.2.workers[id]? = some v' ∧
      (v'.state = .stopped ↔ v.state = .stopped ∨ ∃ pid, v.proc = some pid ∧
        (m.os.child? pid = none ∨
          finds (exitedUnder pid) (m.workers.keys.takeWhile (· != id)) m = true)) := by
  obtain ⟨post, hkeys⟩ := keys_split (mem_keys.mpr ⟨v, hv⟩)
  generalize hpre : m.workers.keys.takeWhile (· != id) = pre at hkeys ⊢
  have hdistinct := m.nodup_keys
  rw [hkeys] at hdistinct
  have hpredistinct := (List.nodup_append.mp hdistinct).1
  have hpreids : ∀ k ∈ pre, ∃ w, m.workers[k]? = some w := fun k hk =>
    mem_keys.mp (by rw [hkeys]; exact List.mem_append_left _ hk)
  have hpreok : (passLoop pre m).1 = .ok () :=
    (passLoop_ok_iff hpredistinct).mpr fun k _ w hw => hnull k w hw
  refine ⟨_, (monitorPass_visit hkeys hv hnull).1, ?_⟩
  have hfreed : ∀ pid, (passLoop pre m).2.os.tick.child? pid = none ↔
      m.os.child? pid = none ∨ finds (exitedUnder pid) pre m = true := fun pid =>
    Os.tick_child?_eq_none.trans
      (passLoop_child?_eq_none hpredistinct hpreids hpreok ⟨rfl, rfl, fun _ _ => rfl⟩)
  rcases v.isRunning_cases (passLoop pre m).2.os.tick with ⟨hst, hr⟩ | ⟨hst, hp, -⟩ |
    ⟨pid, hst, hp, ⟨hnone, hr⟩ | ⟨c, hc, hr⟩⟩
  · rw [hr]
    exact iff_of_true hst (.inl hst)
  · exact absurd hp (hnull id v hv hst)
  · rw [hr]
    exact iff_of_true rfl (.inr ⟨pid, hp, (hfreed pid).mp hnone⟩)
  · rw [hr]
    refine iff_of_false (by simp [hst]) ?_
    rintro (hst' | ⟨pid', hp', hfree⟩)
    · rw [hst] at hst'
      cases hst'
    · rw [hp] at hp'
      cases hp'
      rw [(hfreed pid).mpr hfree] at hc
      cases hc

/-! ### Stopped for good -/

/-- The worker with an id is stopped, if it is still there. -/
def Stopped (id : Str) (m : Manager) : Prop :=
  ∀ v, m.workers[id]? = some v → v.state = .stopped

theorem Stopped.remove {id : Str} (h : m.Stopped id) (v : Str × Process) :
    (m.remove v).2.Stopped id := by
  intro w hw
  rw [remove_workers, Maps.get_erase] at hw
  split at hw
  · simp at hw
  · exact h w hw

theorem Stopped.visit {id : Str} (h : m.Stopped id) (k : Str) : (m.visit k).2.Stopped id := by
  intro w hw
  by_cases hk : k = id
  · subst hk
    cases hv : m.workers[k]? with
    | none =>
      rw [Manager.visit, hv] at hw
      exact h w hw
    | some v =>
      rw [visit_self hv] at hw
      cases hw
      rcases v.isRunning_self m.os.tick with hself | hself <;> rw [hself]
      exact h v hv
  · rw [visit_other hk] at hw
    exact h w hw

theorem Stopped.handle {id : Str} (h : m.Stopped id) {p : Ptree} {env : Env}
    (hnew : env.uuid.1 ≠ id) : (m.handle p env).2.Stopped id := by
  refine handle_preserves h ?_ (fun m v hm _ => hm.remove v) (fun _ _ => h) fun m _ hm => hm
  intro proc hacc w hw
  obtain ⟨hid, -⟩ := accepted_spec hacc
  have hne : proc.id ≠ id := by rwa [hid]
  refine h w ?_
  cases hl : env.launch with
  | failed what =>
    rw [hl, enterLocked_failed] at hw
    exact (Maps.get_insert_of_ne hne _).symm.trans hw
  | child pid stream =>
    rw [hl, enterLocked_child] at hw
    exact (Maps.get_insert_of_ne hne _).symm.trans hw

end Manager

/-- A stopped worker stays stopped. -/
theorem Service.stopped_of_run {s t : Service} {as : List Action} {id : Str}
    (h : Run Service.Step s as t) (hissued : id ∈ s.issued) (hs : s.manager.Stopped id) :
    id ∈ t.issued ∧ t.manager.Stopped id := by
  refine h.invariant (I := fun s => id ∈ s.issued ∧ s.manager.Stopped id) ?_ ⟨hissued, hs⟩
  rintro s a _ ⟨hissued, hs⟩ ⟨-, hvalid, rfl⟩
  cases a with
  | request p env =>
    refine ⟨List.mem_cons_of_mem _ hissued, ?_⟩
    exact Manager.Stopped.handle (m := s.manager.withScript env.script) hs
      fun heq => hvalid.1 (heq ▸ hissued)
  | pass script =>
    exact ⟨hissued, Manager.passLoop_preserves (I := Manager.Stopped id)
      (fun _ k hm => hm.visit k) _ (m := s.manager.withScript script) hs⟩
  | stop script order =>
    exact ⟨hissued, Manager.stop_preserves (I := Manager.Stopped id) order
      (fun _ v hm _ => hm.remove v) (fun _ _ => by simp [Manager.Stopped])
      (m := s.manager.withScript script) hs⟩
  | event e => exact ⟨hissued, hs⟩

/-! ### What is shown -/

/-- The exit status of `wye-get-health` on the answer to `get-workers`. -/
def getHealth (workers : Ptree) : Nat :=
  let failCount := (workers.children.filter fun w =>
    (w.2.get? "state".toList).getD [] ≠ "RUNNING".toList).length
  if failCount ≠ 0 then 1 else 0

theorem getHealth_eq_one {workers w : Ptree} {id : Str} (hfind : workers.find id = some w)
    (hstate : w.get? "state".toList = some WorkerState.stopped.text) : getHealth workers = 1 := by
  have hmem : (id, w) ∈ workers.children.filter fun w =>
      (w.2.get? "state".toList).getD [] ≠ "RUNNING".toList := by
    refine List.mem_filter.mpr ⟨Ptree.lookup_mem hfind, ?_⟩
    simp only [hstate]
    decide
  rw [getHealth, if_pos]
  exact fun h => List.not_mem_nil (List.length_eq_zero_iff.mp h ▸ hmem)

/-- What shows the worker answers with a tree that can be written, and shows it as `STOPPED`:
`get-workers`, and so `wye-get-health`, and `get-job` for its job. -/
def Service.ShowsStopped (s : Service) (id : Str) : Prop :=
  ∀ v, s.manager.workers[id]? = some v → ∀ p env,
    (Manager.requestOp p = .ok .getWorkers →
      ∃ t, (s.step (.request p env)).1 = .ok t ∧ t.representable = true ∧ getHealth t = 1 ∧
        ∃ w, t.find id = some w ∧ w.get? "state".toList = some "STOPPED".toList) ∧
    (Manager.requestOp p = .ok .getJob → Manager.requiredId p = .ok v.jobId →
      ∀ j, s.manager.jobs[v.jobId]? = some j →
        ∃ t, (s.step (.request p env)).1 = .ok t ∧ t.representable = true ∧
          ∃ ws w, t.find "workers".toList = some ws ∧ ws.find id = some w ∧
            w.get? "state".toList = some "STOPPED".toList)

theorem Service.Sound.showsStopped {s : Service} (h : s.Sound) (hwritable : s.manager.Writable)
    {id : Str} (hstopped : s.manager.Stopped id) : s.ShowsStopped id := by
  intro v hv p env
  have hm := h.withScript env.script
  have hstate : ∀ w, v.describe = .ok w → w.get? "state".toList = some "STOPPED".toList := by
    intro w hw
    rw [(Process.get?_describe hw).2.2.2, hstopped v hv]
    rfl
  change (_ → ∃ t, ((s.manager.withScript env.script).handle p env).1 = .ok t ∧ _) ∧
    (_ → _ → ∀ j, _ → ∃ t, ((s.manager.withScript env.script).handle p env).1 = .ok t ∧ _)
  constructor
  · intro hop
    rw [Manager.handle, hop]
    obtain ⟨t, ht, hrep⟩ := (written_iff_of_asserts (Manager.getWorkers_asserts _)).mp
      ((Manager.getWorkers_written_iff hm).mpr hwritable)
    obtain ⟨w, hfind, hw⟩ := Manager.find_getWorkers hm ht hv
    exact ⟨t, ht, hrep, getHealth_eq_one hfind (hstate w hw), w, hfind, hstate w hw⟩
  · intro hop hid j hj
    have hj' : (s.manager.withScript env.script).jobs[v.jobId]? = some j := hj
    rw [Manager.handle, hop]
    simp only [Manager.getJob, hid, hj']
    obtain ⟨t, ht, hrep⟩ := Manager.getJobLocked_answers hm hwritable v.jobId j
    obtain ⟨ws, w, hws, hfind, hw⟩ := Manager.find_getJobLocked hm ht hv rfl
    exact ⟨t, ht, hrep, ws, w, hws, hfind, hstate w hw⟩

theorem Service.Sound.writable_of_shows {s : Service} (h : s.Sound) {id : Str} {v : Process}
    (hv : s.manager.workers[id]? = some v) (hshows : s.ShowsStopped id) : s.manager.Writable := by
  have hop : Manager.requestOp listRequest = .ok .getWorkers := rfl
  obtain ⟨t, ht, hrep, -⟩ := (hshows v hv listRequest { uuid := firstUuid }).1 hop
  have hwritten : Written (s.step (.request listRequest { uuid := firstUuid })).1 := by
    rw [ht, written_ok]
    exact hrep
  exact (getWorkers_written_iff h hop).mp hwritten

/-- A pass reports a worker: it comes back with the worker stopped, and from then on, while the steps
meet a condition, what shows the worker shows it so. -/
def Service.Reports (later : Service → Action → Prop) (s : Service) (script : List (List OsEvent))
    (id : Str) : Prop :=
  (s.step (.pass script)).1 = .ok .empty ∧
    (∃ v, (s.step (.pass script)).2.manager.workers[id]? = some v ∧ v.state = .stopped) ∧
    ∀ as t, Run (Transition.Guarded Service.Step later) (s.step (.pass script)).2 as t → t.ShowsStopped id

/-- The worker is stopped when the pass starts, or no child stands under its pid then, or a worker
that is visited earlier has the same pid and finds the child exited. -/
def Service.Notices (s : Service) (script : List (List OsEvent)) (id : Str) (v : Process) : Prop :=
  v.state = .stopped ∨ ∃ pid, v.proc = some pid ∧
    (s.manager.os.child? pid = none ∨
      Manager.finds (Manager.exitedUnder pid) (s.manager.workers.keys.takeWhile (· != id))
        (s.manager.withScript script) = true)

/-- A pass comes back with a worker stopped exactly when no worker lacks a child and the worker is
noticed. -/
theorem Service.stops_iff {s : Service} (script : List (List OsEvent)) {id : Str} {v : Process}
    (hv : s.manager.workers[id]? = some v) :
    ((s.step (.pass script)).1 = .ok .empty ∧
      ∃ v, (s.step (.pass script)).2.manager.workers[id]? = some v ∧ v.state = .stopped) ↔
    s.manager.NullFree ∧ s.Notices script id v := by
  have hok : (s.step (.pass script)).1 = .ok .empty ↔ s.manager.NullFree := by
    rw [show s.manager.NullFree ↔ _ from
      (Manager.monitorPass_ok_iff (s.manager.withScript script)).symm]
    change uncaught (s.manager.withScript script).monitorPass.1 = _ ↔ _
    cases (s.manager.withScript script).monitorPass.1 <;> simp [uncaught]
  rw [hok]
  refine and_congr_right fun hnull => ?_
  obtain ⟨v', hv', hiff⟩ := Manager.monitorPass_worker (m := s.manager.withScript script) hv hnull
  constructor
  · rintro ⟨v'', hv'', hst⟩
    have heq : v'' = v' := Option.some.inj (hv''.symm.trans hv')
    exact hiff.mp (heq ▸ hst)
  · exact fun hnotice => ⟨v', hv', hiff.mpr hnotice⟩

theorem Service.Reachable.stopped_later {s : Service} (hs : s.Reachable) (hup : s.up = true)
    {script : List (List OsEvent)} {id : Str} {v v' : Process}
    (hv : s.manager.workers[id]? = some v)
    (hv' : (s.step (.pass script)).2.manager.workers[id]? = some v') (hst : v'.state = .stopped)
    {as : List Action} {t : Service} (hrun : Run Service.Step (s.step (.pass script)).2 as t) :
    t.Sound ∧ t.manager.Stopped id := by
  have hafter : (s.step (.pass script)).2.manager.Stopped id := fun w hw => by
    have heq : w = v' := Option.some.inj (hw.symm.trans hv')
    exact heq ▸ hst
  have hissued : id ∈ s.issued := hs.sound.workerIssued id v hv
  have hreach : t.Reachable := by
    obtain ⟨bs, hbs⟩ := hs.step (a := .pass script) hup trivial
    exact ⟨bs ++ as, hbs.append hrun⟩
  exact ⟨hreach.sound, (Service.stopped_of_run hrun hissued hafter).2⟩

/-- A pass reports a worker, dead or alive, exactly when no worker lacks a child, so that the pass comes
back, the worker is noticed, and the names of the workers can be written; from then on each state that
still holds the worker shows it exactly when it can write the names of its workers. -/
theorem Service.reports_iff {s : Service} (hs : s.Reachable) (hup : s.up = true)
    (script : List (List OsEvent)) {id : Str} {v : Process}
    (hv : s.manager.workers[id]? = some v) :
    (s.Reports Service.NamesSafe script id ↔
      s.manager.NullFree ∧ s.Notices script id v ∧ s.manager.Writable) ∧
    (s.manager.NullFree ∧ s.Notices script id v →
      ∀ as t w, Run Service.Step (s.step (.pass script)).2 as t →
        t.manager.workers[id]? = some w → (t.ShowsStopped id ↔ t.manager.Writable)) := by
  have hpass : (s.step (.pass script)).2.manager.Writable ↔ s.manager.Writable :=
    (s.manager.withScript script).monitorPass_writable_iff
  have hsound : (s.step (.pass script)).2.Sound := hs.sound.step (a := .pass script) trivial
  refine ⟨⟨?_, ?_⟩, ?_⟩
  · rintro ⟨hcame, hstopped, hlater⟩
    obtain ⟨hnull, hnotice⟩ := (Service.stops_iff script hv).mp ⟨hcame, hstopped⟩
    obtain ⟨v', hv', -⟩ := hstopped
    exact ⟨hnull, hnotice, hpass.mp (hsound.writable_of_shows hv' (hlater [] _ .nil))⟩
  · rintro ⟨hnull, hnotice, hwritable⟩
    obtain ⟨hcame, v', hv', hst⟩ := (Service.stops_iff script hv).mpr ⟨hnull, hnotice⟩
    refine ⟨hcame, ⟨v', hv', hst⟩, fun as t hrun => ?_⟩
    obtain ⟨hsound, hstopped⟩ := hs.stopped_later hup hv hv' hst hrun.of_guarded
    refine hsound.showsStopped ?_ hstopped
    refine hrun.invariant (I := fun t => t.manager.Writable) ?_ (hpass.mpr hwritable)
    rintro u a _ hu ⟨hnames, -, -, rfl⟩
    exact writable_step hu hnames
  · rintro hnotice as t w hrun hw
    obtain ⟨-, v', hv', hst⟩ := (Service.stops_iff script hv).mpr hnotice
    obtain ⟨hsound, hstopped⟩ := hs.stopped_later hup hv hv' hst hrun
    exact ⟨hsound.writable_of_shows hw, fun hwritable => hsound.showsStopped hwritable hstopped⟩

/-- A worker is started, its child ends, and a pass goes by. -/
def exitedRun : List Action := [
  .request (pythonRequest "job".toList) { uuid := firstUuid, launch := .child 7 "RUNNING\n".toList },
  .event (.exits 7), .pass []]

/-- The first pass after the exit reaps the child, and the second reports the worker. -/
theorem Service.reports_second_pass :
    (Service.perform {} exitedRun).Reports Service.NamesSafe [] firstUuid.1 ∧
      ((Service.perform {} exitedRun).step (.pass [])).2.ShowsStopped firstUuid.1 := by
  have hs : (Service.perform {} exitedRun).ReachableBy Service.Launches :=
    Performs.reachableBy (by decide)
  have hwritable : (Service.perform {} exitedRun).manager.Writable :=
    ReachableBy.writable (Performs.reachableBy (by decide +kernel))
  have hnotice : ∀ v, (Service.perform {} exitedRun).manager.workers[firstUuid.1]? = some v →
      (Service.perform {} exitedRun).Notices [] firstUuid.1 v := by
    intro v hv
    cases hv
    exact .inr ⟨7, rfl, .inl (by decide)⟩
  obtain ⟨v, hv⟩ : ∃ v, (Service.perform {} exitedRun).manager.workers[firstUuid.1]? = some v :=
    ⟨_, rfl⟩
  obtain ⟨hreports, hshows⟩ := Service.reports_iff hs.reachable (by decide) [] hv
  exact ⟨hreports.mpr ⟨hs.nullFree, hnotice v hv, hwritable⟩,
    (hshows ⟨hs.nullFree, hnotice v hv⟩ [] _ _ .nil rfl).mpr
      ((Manager.monitorPass_writable_iff _).mpr hwritable)⟩

/-- The first pass after the exit does not report the worker. -/
theorem Service.not_reports : ¬ ∀ s : Service, s.Reachable → s.up = true → ∀ script id v,
    s.manager.workers[id]? = some v →
    (∃ c ∈ s.manager.os.children, c.owner = id ∧ c.status ≠ .running) →
    s.Reports (fun _ _ => True) script id := by
  intro h
  have hreports := h (Service.perform {} [
    .request (pythonRequest "job".toList) { uuid := firstUuid, launch := .child 7 "RUNNING\n".toList },
    .event (.exits 7)])
    (Performs.reachable (by decide)) (by decide) [] firstUuid.1 _
    rfl (by decide)
  obtain ⟨-, ⟨v, hv, hst⟩, -⟩ := hreports
  cases hv
  exact absurd hst (by decide)

end Wye
