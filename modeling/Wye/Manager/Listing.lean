import Wye.Manager.Invariant
import Wye.Process.Describe

/-!
# What the lists hold

Generated ids have no dots, so `get_workers`, `get_jobs` and `get_job` answer with one entry for each
worker or job they select, in the order of the map (`getWorkers_eq`, `getJobs_eq`,
`getJobLocked_eq`).
-/

namespace Wye

open Text Calls PropertyTree Ptree

theorem plain_of_isUuid {k : Str} (h : isUuid k = true) : Plain k := by
  simp only [isUuid, Bool.and_eq_true, beq_iff_eq, List.all_eq_true] at h
  constructor
  · rintro rfl
    simp at h
  · intro hdot
    exact absurd (h.2 '.' hdot) (by decide)

namespace Manager
variable {m : Manager} {issued : List Str}

/-- The entries of the workers that `keep` selects. -/
def entries (keep : Process → Bool) (ws : List (Str × Process)) :
    Outcome Exn (List (Str × Ptree)) :=
  Outcome.traverse (fun v => v.2.describe.map fun w => (v.1, w)) (ws.filter fun v => keep v.2)

theorem describeAll_eq {keep : Process → Bool} {ws : List (Str × Process)}
    (hkeys : ∀ v ∈ ws, Plain v.1) : describeAll keep ws = (entries keep ws).map (.node []) :=
  foldl_addChild (fun v : Str × Process => v.2.describe) (fun v => keep v.2) hkeys .empty

/-- The entry of a job. -/
def jobEntry (j : Job) : Ptree :=
  .node [] ((if j.name = [] then [] else [("name".toList, leaf j.name)]) ++
    if j.description = [] then [] else [("description".toList, leaf j.description)])

theorem describeJob_eq (j : Job) : describeJob j = .ok (jobEntry j) := by
  unfold describeJob jobEntry
  by_cases hn : j.name = []
  · rw [if_neg (not_not.mpr hn), if_pos hn, Outcome.bind_ok]
    by_cases hd : j.description = []
    · rw [if_neg (not_not.mpr hd), if_pos hd]
      rfl
    · rw [if_pos hd, if_neg hd, put_plain (by decide) rfl]
      rfl
  · rw [if_pos hn, if_neg hn, put_plain (by decide) rfl, Outcome.bind_ok]
    by_cases hd : j.description = []
    · rw [if_neg (not_not.mpr hd), if_pos hd]
      rfl
    · rw [if_pos hd, if_neg hd, put_plain (by decide) rfl]
      rfl

theorem Sound.plain_worker (h : m.Sound issued) {v : Str × Process} (hv : v ∈ m.workers.toList) :
    Plain v.1 :=
  plain_of_isUuid (h.uuids _ (h.workerIssued v.1 v.2 (Maps.mem_toList.mp hv)))

theorem Sound.plain_job (h : m.Sound issued) {v : Str × Job} (hv : v ∈ m.jobs.toList) : Plain v.1 :=
  plain_of_isUuid (h.uuids _ (h.jobIssued v.1 v.2 (Maps.mem_toList.mp hv)))

theorem getWorkers_eq (h : m.Sound issued) :
    m.getWorkers = ((entries (fun _ => true) m.workers.toList).map (.node []), m) := by
  rw [getWorkers, describeAll_eq fun v hv => h.plain_worker hv]

theorem getJobs_eq (h : m.Sound issued) :
    m.getJobs = (.ok (.node [] (m.jobs.toList.map fun v => (v.1, jobEntry v.2))), m) := by
  have hfold := foldl_addChild (ε := Exn) (fun v : Str × Job => describeJob v.2) (fun _ => true)
    (fun v hv => h.plain_job hv) .empty
  have htraverse : ∀ l : List (Str × Job), Outcome.traverse (ε := Exn)
      (fun v => (describeJob v.2).map fun w => (v.1, w)) (l.filter fun _ => true) =
        .ok (l.map fun v => (v.1, jobEntry v.2)) := by
    intro l
    rw [Outcome.traverse_eq_ok, List.filter_true, List.forall₂_map_right_iff, List.forall₂_same]
    intro v _
    rw [describeJob_eq]
    rfl
  rw [htraverse, Outcome.map_ok] at hfold
  rw [getJobs]
  exact congrArg (·, m) hfold

theorem getJobLocked_eq (h : m.Sound issued) (id : Str) (j : Job) :
    m.getJobLocked id j = ((entries (·.jobId == id) m.workers.toList).map fun ws =>
      .node [] ((jobEntry j).children ++ [("workers".toList, .node [] ws)]), m) := by
  rw [getJobLocked, describeAll_eq fun v hv => h.plain_worker hv, describeJob_eq]
  cases entries (·.jobId == id) m.workers.toList with
  | ok ws =>
    rw [Outcome.map_ok, Outcome.bind_ok, Outcome.bind_ok, addChild_plain (by decide)]
    rfl
  | throw e => rfl
  | lost why => rfl

theorem find_workers (j : Job) (ws : List (Str × Ptree)) :
    (Ptree.node [] ((jobEntry j).children ++ [("workers".toList, .node [] ws)])).find
      "workers".toList = some (.node [] ws) := by
  have hnone : lookup "workers".toList (jobEntry j).children = none := by
    unfold jobEntry
    by_cases hn : j.name = [] <;> by_cases hd : j.description = [] <;>
      simp only [hn, hd, if_true, if_false] <;> rfl
  rw [Ptree.find, children_node, lookup_append, hnone]
  rfl

theorem entries_eq_ok {keep : Process → Bool} {ws : List (Str × Process)}
    {es : List (Str × Ptree)} : entries keep ws = .ok es ↔
      List.Forall₂ (fun v e => e.1 = v.1 ∧ v.2.describe = .ok e.2)
        (ws.filter fun v => keep v.2) es := by
  rw [entries, Outcome.traverse_eq_ok]
  refine iff_of_eq (congrArg (fun R => List.Forall₂ R _ es) ?_)
  funext v e
  rw [eq_iff_iff, Outcome.map_eq_ok]
  constructor
  · rintro ⟨w, hw, rfl⟩
    exact ⟨rfl, hw⟩
  · rintro ⟨hkey, hw⟩
    exact ⟨e.2, hw, by rw [← hkey]⟩

theorem lookup_entries {ws : List (Str × Process)} {es : List (Str × Ptree)}
    (h : List.Forall₂ (fun v e => e.1 = v.1 ∧ v.2.describe = .ok e.2) ws es)
    (hdistinct : (ws.map Prod.fst).Nodup) {k : Str} {v : Process} (hv : (k, v) ∈ ws) :
    ∃ w, lookup k es = some w ∧ v.describe = .ok w := by
  induction h with
  | nil => simp at hv
  | @cons a e ws es hae _ ih =>
    rw [List.map_cons, List.nodup_cons] at hdistinct
    rcases List.mem_cons.mp hv with rfl | hv
    · exact ⟨e.2, by rw [lookup, if_pos hae.1], hae.2⟩
    · obtain ⟨w, hw, hdesc⟩ := ih hdistinct.2 hv
      refine ⟨w, ?_, hdesc⟩
      rw [lookup, if_neg, hw]
      rw [hae.1]
      rintro rfl
      exact hdistinct.1 (List.mem_map.mpr ⟨_, hv, rfl⟩)

theorem nodup_filter_keys (m : Manager) (keep : Process → Bool) :
    ((m.workers.toList.filter fun v => keep v.2).map Prod.fst).Nodup :=
  (Maps.nodup_keys m.workers).sublist (List.filter_sublist.map Prod.fst)

/-- What `get-workers` shows of a worker. -/
theorem find_getWorkers (h : m.Sound issued) {t : Ptree} (ht : m.getWorkers.1 = .ok t) {k : Str}
    {v : Process} (hv : m.workers[k]? = some v) : ∃ w, t.find k = some w ∧ v.describe = .ok w := by
  rw [getWorkers_eq h] at ht
  obtain ⟨es, hes, rfl⟩ := Outcome.map_eq_ok.mp ht
  exact lookup_entries (entries_eq_ok.mp hes) (nodup_filter_keys m fun _ => true)
    (List.mem_filter.mpr ⟨Maps.mem_toList.mpr hv, rfl⟩)

theorem find_getJobLocked (h : m.Sound issued) {id : Str} {j : Job} {t : Ptree}
    (ht : (m.getJobLocked id j).1 = .ok t) {k : Str} {v : Process} (hv : m.workers[k]? = some v)
    (hjob : v.jobId = id) :
    ∃ ws w, t.find "workers".toList = some ws ∧ ws.find k = some w ∧ v.describe = .ok w := by
  rw [getJobLocked_eq h] at ht
  obtain ⟨es, hes, rfl⟩ := Outcome.map_eq_ok.mp ht
  obtain ⟨w, hw, hdesc⟩ := lookup_entries (entries_eq_ok.mp hes)
    (nodup_filter_keys m (·.jobId == id)) (List.mem_filter.mpr ⟨Maps.mem_toList.mpr hv, by simpa using hjob⟩)
  exact ⟨_, w, find_workers j es, hw, hdesc⟩

end Manager

end Wye
