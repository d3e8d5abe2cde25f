import Mathlib.Data.List.Nodup
import Wye.Base.Transition
import Wye.Posix.Setup

/-!
# The pipes of the workers

The service starts workers and drops them in any order, while it opens and closes descriptors of its
own. Every worker has a pipe to itself: the service has only the end to read from, in the worker's
`posix_child`, and the worker alone has the end to write to (`run_piped`).
-/

namespace Wye

open Text Calls Descriptors Transition

namespace Posix

/-- `posix_child::~posix_child`, when the last copy of it goes. -/
def PosixChild.destroy (c : PosixChild) (t : Table File) : Table File :=
  (c.outputMap.map (·.2) ++ c.inputMap.map (·.2) ++ c.stderr.toList ++ c.stdout.toList ++
    c.stdin.toList).foldl Table.clear t

/-- A process that has been started, and the descriptors that it has at `execve`, if it comes to it. -/
structure Worker where
  proc : PosixChild
  opened : Outcome Str (Table File)
  deriving DecidableEq, Repr

/-- The descriptors of the service, and the processes that it has not dropped. -/
structure Host where
  fds : Fds
  workers : List Worker
  deriving DecidableEq, Repr

/-- What the service does with its descriptors. -/
inductive Event where
  | run
  | destroy
  | opens
  | closes
  deriving DecidableEq, Repr

/-- A step of the service. `setup` is what `posix_setup` throws in the child, if it does. The standard
streams of the service are never closed. -/
inductive Step (opens : Str → Bool → Bool) : Host → Event → Host → Prop
  | run {fds forked fds' : Fds} {workers : List Worker} {infoin infoout : InfoMap} {pid : Pid}
    {setup : Option Str} {proc : PosixChild} :
    posixInfos ∅ runOutputBehavior fds = (.ok (infoin, infoout), forked) →
    posixLaunch ∅ runOutputBehavior (some pid) fds = (.ok proc, fds') →
    Step opens ⟨fds, workers⟩ .run
      ⟨fds', workers ++ [⟨proc, posixStartChild opens setup infoin infoout forked.table⟩]⟩
  | failed {fds fds' : Fds} {workers : List Worker} {forks : Option Pid} {e : Exn} :
    posixLaunch ∅ runOutputBehavior forks fds = (.throw e, fds') →
    Step opens ⟨fds, workers⟩ .run ⟨fds', workers⟩
  | destroy {fds : Fds} {front back : List Worker} {w : Worker} :
    Step opens ⟨fds, front ++ w :: back⟩ .destroy
      ⟨{ fds with table := w.proc.destroy fds.table }, front ++ back⟩
  | opens {fds : Fds} {workers : List Worker} {n d : Nat} {t : Table File} :
    fds.table.openNext (.other n) = some (d, t) →
    Step opens ⟨fds, workers⟩ .opens ⟨{ fds with table := t }, workers⟩
  | closes {fds : Fds} {workers : List Worker} {n d : Nat} :
    2 < d → fds.table.entry d = some (.other n) →
    Step opens ⟨fds, workers⟩ .closes ⟨{ fds with table := fds.table.clear d }, workers⟩

/-! ### A launch -/

section
variable {fds fds' : Fds} {r w : Nat} {forks : Option Pid}

theorem runOutputBehavior_toList :
    runOutputBehavior.toList = [(1, .inherit), (2, .inherit), (3, .capture)] := rfl

theorem posixInfos_run_none (hpipe : fds.pipe = none) :
    posixInfos ∅ runOutputBehavior fds =
      (.throw (.systemError "boost::process::detail::pipe::pipe: pipe(2) failed".toList), fds) := by
  have hin : infoMap false (∅ : BehaviorMap).toList [] fds = (.ok [], fds) := rfl
  rw [posixInfos, hin]
  simp only [runOutputBehavior_toList, infoMap, streamInfo, hpipe]
  rfl

theorem posixInfos_run (hpipe : fds.pipe = some (r, w, fds')) :
    posixInfos ∅ runOutputBehavior fds = (.ok ([], runInfo r w), fds') := by
  have hin : infoMap false (∅ : BehaviorMap).toList [] fds = (.ok [], fds) := rfl
  rw [posixInfos, hin]
  simp only [runOutputBehavior_toList, infoMap, streamInfo, hpipe]
  rfl

theorem posixLaunch_run_none (hpipe : fds.pipe = none) :
    posixLaunch ∅ runOutputBehavior forks fds =
      (.throw (.systemError "boost::process::detail::pipe::pipe: pipe(2) failed".toList), fds) := by
  rw [posixLaunch, posixInfos_run_none hpipe]

theorem posixLaunch_run (hpipe : fds.pipe = some (r, w, fds')) :
    posixLaunch ∅ runOutputBehavior forks fds = match forks with
      | none => (.throw (.systemError "boost::process::detail::posix_start: fork(2) failed".toList),
        { fds' with table := (fds'.table.clear r).clear w })
      | some pid => (.ok ⟨pid, none, none, none, [], [(3, r)]⟩,
        { fds' with table := fds'.table.clear w }) := by
  rw [posixLaunch, posixInfos_run hpipe]
  cases forks <;> rfl

theorem Fds.pipe_spec (hpipe : fds.pipe = some (r, w, fds')) :
    r ≠ w ∧ fds.table.entry r = none ∧ fds.table.entry w = none ∧ fds'.pipes = fds.pipes + 1 ∧
      fds'.table.length = fds.table.length ∧ ∀ x, fds'.table.entry x =
        if x = w then some (.writeEnd fds.pipes) else if x = r then some (.readEnd fds.pipes)
        else fds.table.entry x := by
  rw [Fds.pipe] at hpipe
  split at hpipe
  · cases hpipe
  · rename_i r' t₁ hread
    split at hpipe
    · cases hpipe
    · rename_i w' t₂ hwrite
      cases hpipe
      obtain ⟨hr, hrfree, rfl⟩ := Table.openNext_spec hread
      obtain ⟨hw, hwfree, rfl⟩ := Table.openNext_spec hwrite
      rw [Table.entry_put hr] at hwfree
      have hne : w ≠ r := by
        rintro rfl
        simp at hwfree
      rw [if_neg hne] at hwfree
      refine ⟨Ne.symm hne, hrfree, hwfree, rfl, by simp, fun x => ?_⟩
      rw [Table.entry_put hw, Table.entry_put hr]

/-- A launch never fails an assertion. -/
theorem posixLaunch_run_ne_lost (why : Loss) :
    (posixLaunch ∅ runOutputBehavior forks fds).1 ≠ .lost why := by
  cases hpipe : fds.pipe with
  | none =>
    rw [posixLaunch_run_none hpipe]
    intro hlost
    cases hlost
  | some p =>
    obtain ⟨r, w, fds'⟩ := p
    rw [posixLaunch_run hpipe]
    intro hlost
    cases forks <;> cases hlost

theorem posixStartChild_setup {opens : Str → Bool → Bool} {infoin infoout : InfoMap}
    {t t' : Table File} {what : Str} (h : posixStartChild opens none infoin infoout t = .ok t') :
    posixStartChild opens (some what) infoin infoout t = .throw what := by
  obtain ⟨s₁, hin, hrest⟩ := Outcome.bind_eq_ok.mp h
  obtain ⟨s₂, hout, -⟩ := Outcome.bind_eq_ok.mp hrest
  rw [posixStartChild, hin, Outcome.bind_ok, hout, Outcome.bind_ok]

end

/-! ### One pipe for each worker -/

/-- Of pipes a process has only the end of pipe `n` to write to, under 3. -/
def WritesOnly (n : Nat) (t : Table File) : Prop :=
  ∀ x m, (t.entry x = some (.writeEnd m) ↔ x = 3 ∧ m = n) ∧ t.entry x ≠ some (.readEnd m)

/-- The service reads from pipe `n` under `h` what the worker writes. -/
structure Worker.Has (t : Table File) (h n : Nat) (w : Worker) : Prop where
  proc : ∃ pid, w.proc = ⟨pid, none, none, none, [], [(3, h)]⟩
  reads : t.entry h = some (.readEnd n)
  writes : (∃ t', w.opened = .ok t' ∧ WritesOnly n t') ∨ ∃ what, w.opened = .throw what

/-- Every pipe end of the service is to read from, and is a worker's; and every worker has one. -/
structure Host.Piped (s : Host) : Prop where
  size : 3 < s.fds.table.length
  standard : ∀ d, d = 1 ∨ d = 2 → ∃ n, s.fds.table.entry d = some (.other n)
  has : ∀ w ∈ s.workers, ∃ h n, w.Has s.fds.table h n
  handles : (s.workers.map (·.proc.outputMap)).Nodup
  reads : ∀ x n, s.fds.table.entry x = some (.readEnd n) →
    n < s.fds.pipes ∧ ∃ w ∈ s.workers, w.Has s.fds.table x n
  single : ∀ x x' n, s.fds.table.entry x = some (.readEnd n) →
    s.fds.table.entry x' = some (.readEnd n) → x = x'
  writes : ∀ x n, s.fds.table.entry x ≠ some (.writeEnd n)

section
variable {fds fds' : Fds} {t t' : Table File} {workers : List Worker} {w : Worker} {h h' n n' d : Nat}
  {s s' : Host} {e : Event} {opens : Str → Bool → Bool}

theorem Worker.Has.handle (hw : w.Has t h n) (hw' : w.Has t' h' n') : h = h' := by
  obtain ⟨pid, hproc⟩ := hw.proc
  obtain ⟨pid', hproc'⟩ := hw'.proc
  rw [hproc] at hproc'
  cases hproc'
  rfl

theorem Worker.Has.frame (hw : w.Has t h n) (heq : t'.entry h = t.entry h) : w.Has t' h n :=
  ⟨hw.proc, heq.trans hw.reads, hw.writes⟩

theorem Host.Piped.frame (hs : Host.Piped ⟨fds, workers⟩) (hlen : t.length = fds.table.length)
    (hsame : ∀ x, t.entry x = fds.table.entry x ∨
      (¬ (x = 1 ∨ x = 2) ∧ ∀ n, fds.table.entry x ≠ some (.readEnd n) ∧
        t.entry x ≠ some (.readEnd n) ∧ t.entry x ≠ some (.writeEnd n)))
    {pipes : Nat} (hpipes : fds.pipes ≤ pipes) : Host.Piped ⟨⟨t, pipes⟩, workers⟩ := by
  have hreads {x n : Nat} (hx : t.entry x = some (.readEnd n)) :
      fds.table.entry x = some (.readEnd n) := by
    rcases hsame x with heq | ⟨-, hother⟩
    · rw [← heq, hx]
    · exact absurd hx (hother n).2.1
  have hframe {w : Worker} {h n : Nat} (hw : w.Has fds.table h n) : w.Has t h n := by
    refine hw.frame ?_
    rcases hsame h with heq | ⟨-, hother⟩
    · exact heq
    · exact absurd hw.reads (hother n).1
  refine ⟨hlen ▸ hs.size, fun d hd => ?_, fun w hw => ?_, hs.handles, fun x n hx => ?_,
    fun x x' n hx hx' => hs.single x x' n (hreads hx) (hreads hx'), fun x n hx => ?_⟩
  · rcases hsame d with heq | ⟨hnot, -⟩
    · obtain ⟨n, hn⟩ := hs.standard d hd
      exact ⟨n, heq.trans hn⟩
    · exact absurd hd hnot
  · obtain ⟨h, n, hhas⟩ := hs.has w hw
    exact ⟨h, n, hframe hhas⟩
  · obtain ⟨hlt, w, hw, hhas⟩ := hs.reads x n (hreads hx)
    exact ⟨Nat.lt_of_lt_of_le hlt hpipes, w, hw, hframe hhas⟩
  · rcases hsame x with heq | ⟨-, hother⟩
    · exact hs.writes x n (heq ▸ hx)
    · exact (hother n).2.2 hx

theorem posixStartChild_writesOnly {r w : Nat} {setup : Option Str}
    (hs : Host.Piped ⟨fds, workers⟩) (hpipe : fds.pipe = some (r, w, fds')) :
    (∃ t, posixStartChild opens setup [] (runInfo r w) fds'.table = .ok t ∧ WritesOnly fds.pipes t) ∨
      ∃ what, posixStartChild opens setup [] (runInfo r w) fds'.table = .throw what := by
  obtain ⟨hne, hr, hw, -, hlen, hentry⟩ := Fds.pipe_spec hpipe
  obtain ⟨t, hstart, hsees⟩ := @posixStartChild_run opens fds'.table r w fds.pipes
    (hlen.symm ▸ hs.size) (by rw [hentry, if_neg hne, if_pos rfl]) (by rw [hentry, if_pos rfl])
  cases setup with
  | some what => exact .inr ⟨what, posixStartChild_setup hstart⟩
  | none =>
    refine .inl ⟨t, hstart, fun x m => ?_⟩
    rw [hsees]
    by_cases hthree : x = 3
    · simp [hthree, eq_comm]
    · rw [if_neg hthree]
      split
      · rename_i hstd
        obtain ⟨k, hk⟩ := hs.standard x hstd.1
        rw [hentry, if_neg hstd.2.2, if_neg hstd.2.1, hk]
        simp [hthree]
      · simp [hthree]

theorem Host.Piped.launch {r w : Nat} (hs : Host.Piped ⟨fds, workers⟩)
    (hpipe : fds.pipe = some (r, w, fds')) {pid : Pid} {opened : Outcome Str (Table File)}
    (hopened : (∃ t, opened = .ok t ∧ WritesOnly fds.pipes t) ∨ ∃ what, opened = .throw what) :
    Host.Piped ⟨{ fds' with table := fds'.table.clear w },
      workers ++ [⟨⟨pid, none, none, none, [], [(3, r)]⟩, opened⟩]⟩ := by
  obtain ⟨hne, hr, hw, hpipes, hlen, hentry⟩ := Fds.pipe_spec hpipe
  have hnow (x : Nat) : (fds'.table.clear w).entry x =
      if x = r then some (.readEnd fds.pipes) else fds.table.entry x := by
    rw [Table.entry_clear, hentry]
    by_cases hx : x = w
    · rw [if_pos hx, hx, if_neg (Ne.symm hne), hw]
    · rw [if_neg hx, if_neg hx]
  have hold {x : Nat} {file : File} (hx : fds.table.entry x = some file) : x ≠ r := by
    rintro rfl
    rw [hr] at hx
    cases hx
  have hkeep {x : Nat} {file : File} (hx : fds.table.entry x = some file) :
      (fds'.table.clear w).entry x = fds.table.entry x := by rw [hnow, if_neg (hold hx)]
  have hnew : Worker.Has (fds'.table.clear w) r fds.pipes
      ⟨⟨pid, none, none, none, [], [(3, r)]⟩, opened⟩ :=
    ⟨⟨pid, rfl⟩, by rw [hnow, if_pos rfl], hopened⟩
  refine ⟨?_, fun d hd => ?_, ?_, ?_, fun x n hx => ?_, fun x x' n hx hx' => ?_, fun x n hx => ?_⟩
  · exact (Table.length_clear.trans hlen).symm ▸ hs.size
  · obtain ⟨n, hn⟩ := hs.standard d hd
    exact ⟨n, (hkeep hn).trans hn⟩
  · refine List.forall_mem_append.mpr ⟨fun w' hw' => ?_, ?_⟩
    · obtain ⟨h, n, hhas⟩ := hs.has w' hw'
      exact ⟨h, n, hhas.frame (hkeep hhas.reads)⟩
    · exact List.forall_mem_singleton.mpr ⟨r, fds.pipes, hnew⟩
  · rw [List.map_append, List.map_singleton, ← List.concat_eq_append, List.nodup_concat]
    refine ⟨fun hmem => ?_, hs.handles⟩
    obtain ⟨w', hw', heq⟩ := List.mem_map.mp hmem
    obtain ⟨h, n, hhas⟩ := hs.has w' hw'
    obtain ⟨pid', hproc⟩ := hhas.proc
    rw [hproc] at heq
    cases heq
    exact hold hhas.reads rfl
  · simp only at hx ⊢
    rw [hnow] at hx
    split at hx
    · rename_i heq
      cases hx
      subst heq
      exact ⟨by omega, _, by simp, hnew⟩
    · obtain ⟨hlt, w', hw', hhas⟩ := hs.reads x n hx
      exact ⟨hpipes ▸ Nat.lt_succ_of_lt hlt, w', List.mem_append_left _ hw', hhas.frame (hkeep hx)⟩
  · simp only [hnow] at hx hx'
    split at hx <;> split at hx'
    · rw [‹x = r›, ‹x' = r›]
    · cases hx
      exact absurd (hs.reads x' _ hx').1 (Nat.lt_irrefl _)
    · cases hx'
      exact absurd (hs.reads x _ hx).1 (Nat.lt_irrefl _)
    · exact hs.single x x' n hx hx'
  · simp only [hnow] at hx
    split at hx
    · cases hx
    · exact hs.writes x n hx

theorem Host.Piped.drop {front back : List Worker} (hs : Host.Piped ⟨fds, front ++ w :: back⟩) :
    Host.Piped ⟨{ fds with table := w.proc.destroy fds.table }, front ++ back⟩ := by
  obtain ⟨h, n, hhas⟩ := hs.has w (by simp)
  obtain ⟨pid, hproc⟩ := hhas.proc
  have hdestroy : w.proc.destroy fds.table = fds.table.clear h := by
    rw [hproc]
    rfl
  have hnodup := hs.handles
  rw [List.map_append, List.map_cons, List.nodup_middle, ← List.map_append, List.nodup_cons] at hnodup
  have hkeep {w' : Worker} {h' n' : Nat} (hw' : w' ∈ front ++ back) (hhas' : w'.Has fds.table h' n') :
      w'.Has (fds.table.clear h) h' n' := by
    refine hhas'.frame ?_
    rw [Table.entry_clear, if_neg]
    rintro rfl
    obtain ⟨pid', hproc'⟩ := hhas'.proc
    refine hnodup.1 (List.mem_map.mpr ⟨w', hw', ?_⟩)
    rw [hproc, hproc']
  have hstill {x : Nat} {file : File} (hx : (fds.table.clear h).entry x = some file) :
      x ≠ h ∧ fds.table.entry x = some file := by
    rw [Table.entry_clear] at hx
    split at hx
    · cases hx
    · exact ⟨‹_›, hx⟩
  rw [hdestroy]
  refine ⟨Table.length_clear.symm ▸ hs.size, fun d hd => ?_, fun w' hw' => ?_, hnodup.2,
    fun x m hx => ?_, fun x x' m hx hx' => hs.single x x' m (hstill hx).2 (hstill hx').2,
    fun x m hx => hs.writes x m (hstill hx).2⟩
  · obtain ⟨m, hm⟩ := hs.standard d hd
    refine ⟨m, ?_⟩
    rw [Table.entry_clear, if_neg, hm]
    rintro rfl
    rw [hhas.reads] at hm
    cases hm
  · obtain ⟨h', n', hhas'⟩ := hs.has w' (by
      rcases List.mem_append.mp hw' with hmem | hmem <;> simp [hmem])
    exact ⟨h', n', hkeep hw' hhas'⟩
  · obtain ⟨hlt, w', hw', hhas'⟩ := hs.reads x m (hstill hx).2
    have hmem : w' ∈ front ++ back := by
      rcases List.mem_append.mp hw' with hmem | hmem
      · exact List.mem_append_left _ hmem
      · rcases List.mem_cons.mp hmem with rfl | hmem
        · exact absurd (hhas'.handle hhas) (hstill hx).1
        · exact List.mem_append_right _ hmem
    exact ⟨hlt, w', hmem, hkeep hmem hhas'⟩

/-- A step keeps the pipes of the workers apart. -/
theorem Host.Piped.step (hs : s.Piped) (hstep : Step opens s e s') : s'.Piped := by
  cases hstep with
  | @run fds forked fds' workers infoin infoout pid setup proc hinfos hlaunch =>
    cases hpipe : fds.pipe with
    | none =>
      rw [posixInfos_run_none hpipe] at hinfos
      cases hinfos
    | some p =>
      obtain ⟨r, w, fds₁⟩ := p
      rw [posixInfos_run hpipe] at hinfos
      rw [posixLaunch_run hpipe] at hlaunch
      cases hinfos
      cases hlaunch
      exact hs.launch hpipe (posixStartChild_writesOnly hs hpipe)
  | @failed fds fds' workers forks e hlaunch =>
    cases hpipe : fds.pipe with
    | none =>
      rw [posixLaunch_run_none hpipe] at hlaunch
      cases hlaunch
      exact hs
    | some p =>
      obtain ⟨r, w, fds₁⟩ := p
      rw [posixLaunch_run hpipe] at hlaunch
      cases forks with
      | some pid => cases hlaunch
      | none =>
        cases hlaunch
        obtain ⟨-, hr, hw, hpipes, hlen, hentry⟩ := Fds.pipe_spec hpipe
        refine hs.frame (by simpa using hlen) (fun x => .inl ?_) (by omega)
        rw [Table.entry_clear, Table.entry_clear, hentry]
        by_cases hxw : x = w
        · rw [if_pos hxw, hxw, hw]
        · by_cases hxr : x = r
          · rw [if_neg hxw, if_pos hxr, hxr, hr]
          · rw [if_neg hxw, if_neg hxr, if_neg hxw, if_neg hxr]
  | destroy => exact hs.drop
  | @opens fds workers n d t hopen =>
    obtain ⟨hd, hfree, rfl⟩ := Table.openNext_spec hopen
    refine hs.frame Table.length_put (fun x => ?_) (Nat.le_refl _)
    rw [Table.entry_put hd]
    by_cases hx : x = d
    · subst hx
      refine .inr ⟨fun hstd => ?_, fun m => by simp [hfree]⟩
      obtain ⟨m, hm⟩ := hs.standard x hstd
      rw [hfree] at hm
      cases hm
    · exact .inl (if_neg hx)
  | @closes fds workers n d hd hentry =>
    refine hs.frame Table.length_clear (fun x => ?_) (Nat.le_refl _)
    rw [Table.entry_clear]
    by_cases hx : x = d
    · subst hx
      exact .inr ⟨by omega, fun m => by simp [hentry]⟩
    · exact .inl (if_neg hx)

/-- A service that has just come up: no worker, no pipe, and standard streams. -/
structure Host.Fresh (s : Host) : Prop where
  workers : s.workers = []
  size : 3 < s.fds.table.length
  standard : ∀ d, d = 1 ∨ d = 2 → ∃ n, s.fds.table.entry d = some (.other n)
  pipes : ∀ x n, s.fds.table.entry x ≠ some (.readEnd n) ∧ s.fds.table.entry x ≠ some (.writeEnd n)

theorem Host.Fresh.piped (hs : s.Fresh) : s.Piped := by
  refine ⟨hs.size, hs.standard, ?_, ?_, fun x n hx => absurd hx (hs.pipes x n).1,
    fun x _ n hx => absurd hx (hs.pipes x n).1, fun x n => (hs.pipes x n).2⟩
  · simp [hs.workers]
  · simp [hs.workers]

/-- Whatever the service does from its start, every worker has a pipe to itself: only the service reads
from it, and only the worker can write to it. The service has no other ends of pipes, and a launch never
fails an assertion. -/
theorem run_piped {es : List Event} (hs : s.Fresh) (hrun : Run (Step opens) s es s') :
    (∀ w ∈ s'.workers, ∃ h n, w.proc.getOutput 3 = .ok h ∧ w.Has s'.fds.table h n) ∧
      (s'.workers.Pairwise fun w w' => ∀ h n h' n', w.Has s'.fds.table h n →
        w'.Has s'.fds.table h' n' → h ≠ h' ∧ n ≠ n') ∧
      (∀ x n, s'.fds.table.entry x = some (.readEnd n) → ∃ w ∈ s'.workers, w.Has s'.fds.table x n) ∧
      (∀ x n, s'.fds.table.entry x ≠ some (.writeEnd n)) ∧
      ∀ forks why, (posixLaunch ∅ runOutputBehavior forks s'.fds).1 ≠ .lost why := by
  have hpiped : s'.Piped := hrun.invariant (fun _ _ _ hs hstep => hs.step hstep) hs.piped
  refine ⟨fun w hw => ?_, ?_, fun x n hx => (hpiped.reads x n hx).2, hpiped.writes,
    fun forks why => posixLaunch_run_ne_lost why⟩
  · obtain ⟨h, n, hhas⟩ := hpiped.has w hw
    obtain ⟨pid, hproc⟩ := hhas.proc
    exact ⟨h, n, by rw [hproc]; rfl, hhas⟩
  · refine (List.pairwise_map.mp hpiped.handles).imp fun hne h n h' n' hhas hhas' => ?_
    obtain ⟨pid, hproc⟩ := hhas.proc
    obtain ⟨pid', hproc'⟩ := hhas'.proc
    have hhandle : h ≠ h' := by
      rintro rfl
      rw [hproc, hproc'] at hne
      exact hne rfl
    refine ⟨hhandle, ?_⟩
    rintro rfl
    exact hhandle (hpiped.single h h' n hhas.reads hhas'.reads)

end

/-- A service with its standard streams. -/
def smallHost : Host :=
  ⟨⟨[some (.other 0), some (.other 1), some (.other 2), none, none, none, none, none], 0⟩, []⟩

/-- Two workers are started, with a connection in between, and the first one is dropped. -/
theorem run_piped_two : ∃ s',
    Run (Step fun _ _ => true) smallHost [.run, .opens, .run, .destroy] s' ∧ s'.workers.length = 1 ∧
      ∀ w ∈ s'.workers, ∃ h n, w.proc.getOutput 3 = .ok h ∧ w.Has s'.fds.table h n := by
  have hfresh : smallHost.Fresh := by
    refine ⟨rfl, by decide, ?_, fun x n => ?_⟩
    · rintro d (rfl | rfl)
      · exact ⟨1, rfl⟩
      · exact ⟨2, rfl⟩
    · rcases x with _ | _ | _ | _ | _ | _ | _ | _ | x <;> constructor <;> intro hx <;> cases hx
  have hrun := Run.cons (@Step.run (fun _ _ => true) smallHost.fds _ _ [] _ _ 7 none _ rfl rfl)
    (Run.cons (@Step.opens _ _ _ 3 _ _ rfl)
      (Run.cons (@Step.run _ _ _ _ _ _ _ 8 none _ rfl rfl) (Run.single (@Step.destroy _ _ [] _ _))))
  exact ⟨_, hrun, rfl, (run_piped hfresh hrun).1⟩

end Posix

end Wye
