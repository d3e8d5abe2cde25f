import Mathlib.Data.List.Nodup
import Mathlib.Data.List.Pairwise
import Wye.Process.Basic

/-!
# Pids

What the operating system keeps true about pids (`Os.Sound`): no two unreaped children share one, and
no other process has the pid of an unreaped child. Everything that happens but a `fork` only makes
children older (`Os.Ages`): a child that has exited or has been reaped stays so. `Os.Owns` is what a
signal needs to reach the right process: an unreaped child of the worker under the pid.
-/

namespace Wye

open Text Calls

/-- A status that can follow another. -/
def ChildStatus.le : ChildStatus → ChildStatus → Prop
  | .running, _ => True
  | .exited, s => s ≠ .running
  | .reaped, s => s = .reaped

theorem ChildStatus.le_refl (s : ChildStatus) : s.le s := by cases s <;> simp [le]

theorem ChildStatus.le_trans {r s t : ChildStatus} (h : r.le s) (h' : s.le t) : r.le t := by
  cases r <;> cases s <;> cases t <;> simp_all [le]

theorem ChildStatus.not_reaped_of_le {s t : ChildStatus} (h : s.le t) (ht : t ≠ .reaped) :
    s ≠ .reaped := by
  rintro rfl
  exact ht h

theorem Child.holds_iff {c : Child} {pid : Pid} :
    c.holds pid = true ↔ c.pid = pid ∧ c.status ≠ .reaped := by
  simp [holds]

namespace Os
variable {os os' os'' : Os} {pid : Pid}

/-- What the operating system keeps true about pids. -/
structure Sound (os : Os) : Prop where
  pids : os.children.Pairwise fun c d => c.status ≠ .reaped → d.status ≠ .reaped → c.pid ≠ d.pid
  apart : ∀ c ∈ os.children, c.status ≠ .reaped → c.pid ∉ os.strangers

/-- A worker's unreaped child stands under a pid. -/
def Owns (os : Os) (owner : Str) (pid : Pid) : Prop :=
  ∃ c ∈ os.children, c.owner = owner ∧ c.pid = pid ∧ c.status ≠ .reaped

/-- The children are the same, and only older. -/
def Ages (os os' : Os) : Prop :=
  ∃ f : Child → ChildStatus, (∀ c : Child, c.status.le (f c)) ∧
    os'.children = os.children.map fun c => { c with status := f c }

/-! ### Growing older -/

theorem Ages.refl (os : Os) : os.Ages os := ⟨Child.status, fun c => c.status.le_refl, by simp⟩

theorem Ages.of_eq (h : os'.children = os.children) : os.Ages os' :=
  ⟨Child.status, fun c => c.status.le_refl, by simp [h]⟩

theorem Ages.trans (h : os.Ages os') (h' : os'.Ages os'') : os.Ages os'' := by
  obtain ⟨f, hf, hos'⟩ := h
  obtain ⟨g, hg, hos''⟩ := h'
  refine ⟨fun c => g { c with status := f c }, fun c => ChildStatus.le_trans (hf c) (hg { c with status := f c }), ?_⟩
  rw [hos'', hos', List.map_map]
  rfl

theorem Ages.owners (h : os.Ages os') :
    os'.children.map Child.owner = os.children.map Child.owner := by
  obtain ⟨f, -, hos'⟩ := h
  rw [hos', List.map_map]
  rfl

theorem Ages.mem (h : os.Ages os') {c : Child} (hc : c ∈ os.children) :
    ∃ c' ∈ os'.children, c'.owner = c.owner ∧ c'.pid = c.pid ∧ c.status.le c'.status := by
  obtain ⟨f, hf, hos'⟩ := h
  exact ⟨{ c with status := f c }, by rw [hos']; exact List.mem_map_of_mem hc, rfl, rfl, hf c⟩

theorem Ages.mem_old (h : os.Ages os') {c' : Child} (hc : c' ∈ os'.children) :
    ∃ c ∈ os.children, c'.owner = c.owner ∧ c'.pid = c.pid ∧ c.status.le c'.status := by
  obtain ⟨f, hf, hos'⟩ := h
  rw [hos', List.mem_map] at hc
  obtain ⟨c, hc, rfl⟩ := hc
  exact ⟨c, hc, rfl, rfl, hf c⟩

theorem Ages.sound (h : os.Ages os') (hs : os.Sound) (hstr : ∀ c ∈ os.children, c.status ≠ .reaped →
    c.pid ∉ os.strangers → c.pid ∉ os'.strangers) : os'.Sound := by
  constructor
  · obtain ⟨f, hf, hos'⟩ := h
    rw [hos', List.pairwise_map]
    refine hs.pids.imp fun {c d} hcd hc hd => hcd ?_ ?_
    · exact ChildStatus.not_reaped_of_le (hf c) hc
    · exact ChildStatus.not_reaped_of_le (hf d) hd
  · intro c' hc' hlive
    obtain ⟨c, hc, -, hpid, hle⟩ := h.mem_old hc'
    rw [hpid]
    have hlive' := ChildStatus.not_reaped_of_le hle hlive
    exact hstr c hc hlive' (hs.apart c hc hlive')

theorem setStatus_ages (os : Os) (pid : Pid) {status : ChildStatus} (h : status ≠ .running) :
    os.Ages (os.setStatus pid status) := by
  refine ⟨fun c => if c.holds pid then status else c.status, fun c => ?_, ?_⟩
  · dsimp only
    split
    · rename_i hc
      have hlive := (Child.holds_iff.mp hc).2
      cases hst : c.status with
      | running => trivial
      | exited => exact h
      | reaped => exact absurd hst hlive
    · exact c.status.le_refl
  · rw [setStatus]
    refine List.map_congr_left fun c _ => ?_
    dsimp only
    split <;> rfl

theorem event_ages (os : Os) (e : OsEvent) : os.Ages (os.event e) := by
  cases e with
  | exits pid => exact (os.setStatus_ages pid (by simp)).trans (.of_eq rfl)
  | spawns pid =>
    unfold event
    dsimp only
    split <;> exact .of_eq rfl

theorem events_ages (es : List OsEvent) (os : Os) : os.Ages (es.foldl event os) := by
  induction es generalizing os with
  | nil => exact .refl os
  | cons e es ih => exact (os.event_ages e).trans (ih _)

theorem tick_ages (os : Os) : os.Ages os.tick := by
  unfold tick
  split
  · exact .refl os
  · exact (events_ages _ os).trans (.of_eq rfl)

theorem waitpid_ages (os : Os) (pid : Pid) : os.Ages (os.waitpid pid).2 := by
  unfold waitpid
  split
  · exact .refl os
  · exact os.setStatus_ages pid (by simp)

/-! ### Who stands under a pid -/

theorem child?_mem {c : Child} (h : os.child? pid = some c) :
    c ∈ os.children ∧ c.pid = pid ∧ c.status ≠ .reaped := by
  rw [child?] at h
  exact ⟨List.mem_of_find?_eq_some h, Child.holds_iff.mp (by simpa using List.find?_some h)⟩

theorem child?_eq_none : os.child? pid = none ↔
    ∀ c ∈ os.children, c.pid = pid → c.status = .reaped := by
  rw [child?, List.find?_eq_none]
  refine forall₂_congr fun c _ => ?_
  rw [Child.holds_iff, not_and, not_not]

theorem Sound.child? (hs : os.Sound) {c : Child} (hc : c ∈ os.children) (hlive : c.status ≠ .reaped) :
    os.child? c.pid = some c := by
  cases h : os.child? c.pid with
  | none => exact absurd (child?_eq_none.mp h c hc rfl) hlive
  | some d =>
    obtain ⟨hd, hpid, hdlive⟩ := child?_mem h
    by_contra hne
    have hcd : c ≠ d := fun hcd => hne (by rw [hcd])
    have hsymm : Std.Symm fun c d : Child =>
        c.status ≠ .reaped → d.status ≠ .reaped → c.pid ≠ d.pid :=
      ⟨fun c d h hd hc => (h hc hd).symm⟩
    exact hs.pids.forall hc hd hcd hlive hdlive hpid.symm

theorem Sound.target (hs : os.Sound) {owner : Str} (h : os.Owns owner pid) :
    os.target pid = .child owner := by
  obtain ⟨c, hc, rfl, rfl, hlive⟩ := h
  rw [Os.target, hs.child? hc hlive]

theorem event_sound (hs : os.Sound) (e : OsEvent) : (os.event e).Sound := by
  refine (os.event_ages e).sound hs fun c hc hlive hnot => ?_
  cases e with
  | exits pid =>
    simp only [event, List.mem_filter]
    exact fun h => hnot h.1
  | spawns pid =>
    unfold event
    dsimp only
    split
    · exact hnot
    · rename_i hfree
      rw [List.mem_cons, not_or]
      refine ⟨?_, hnot⟩
      rintro rfl
      exact hfree (by rw [inUse, hs.child? hc hlive]; rfl)

theorem events_sound (es : List OsEvent) (hs : os.Sound) : (es.foldl event os).Sound := by
  induction es generalizing os with
  | nil => exact hs
  | cons e es ih => exact ih (event_sound hs e)

theorem tick_sound (hs : os.Sound) : os.tick.Sound := by
  unfold tick
  split
  · exact hs
  · rename_i es script _
    have h : (es.foldl event os).Sound := events_sound es hs
    exact ⟨h.pids, h.apart⟩

theorem waitpid_sound (hs : os.Sound) (pid : Pid) : (os.waitpid pid).2.Sound := by
  refine (os.waitpid_ages pid).sound hs fun c _ _ hnot => ?_
  unfold waitpid
  split <;> exact hnot

theorem fork_sound (hs : os.Sound) (hfree : os.inUse pid = false) (owner exec : Str)
    (argv : List Str) : (os.fork owner pid exec argv).Sound := by
  rw [inUse, Bool.or_eq_false_iff] at hfree
  obtain ⟨hnone, hstr⟩ := hfree
  rw [Option.isSome_eq_false_iff, Option.isNone_iff_eq_none, child?_eq_none] at hnone
  constructor
  · rw [fork, List.pairwise_append]
    refine ⟨hs.pids, List.pairwise_singleton _ _, ?_⟩
    intro c hc d hd hlive _ hpid
    rw [List.mem_singleton] at hd
    subst hd
    exact hlive (hnone c hc hpid)
  · intro c hc hlive
    rw [fork, List.mem_append, List.mem_singleton] at hc
    rcases hc with hc | rfl
    · exact hs.apart c hc hlive
    · simpa [fork] using hstr

/-! ### A worker's own child -/

theorem event_owns {owner : Str} (h : os.Owns owner pid) (e : OsEvent) :
    (os.event e).Owns owner pid := by
  obtain ⟨c, hc, howner, hpid, hlive⟩ := h
  cases e with
  | exits pid' =>
    refine ⟨if c.holds pid' then { c with status := .exited } else c,
      List.mem_map_of_mem hc, ?_, ?_, ?_⟩
    · split <;> exact howner
    · split <;> exact hpid
    · split <;> simp [hlive]
  | spawns pid' =>
    refine ⟨c, ?_, howner, hpid, hlive⟩
    unfold event
    dsimp only
    split <;> exact hc

theorem events_owns {owner : Str} (es : List OsEvent) (h : os.Owns owner pid) :
    (es.foldl event os).Owns owner pid := by
  induction es generalizing os with
  | nil => exact h
  | cons e es ih => exact ih (event_owns h e)

theorem tick_owns {owner : Str} (h : os.Owns owner pid) : os.tick.Owns owner pid := by
  unfold tick
  split
  · exact h
  · exact events_owns _ h

/-- A child is reaped only under its own pid. -/
theorem setStatus_owns {owner : Str} {pid' : Pid} (h : os.Owns owner pid) (hne : pid ≠ pid')
    (status : ChildStatus) : (os.setStatus pid' status).Owns owner pid := by
  obtain ⟨c, hc, howner, hpid, hlive⟩ := h
  refine ⟨c, List.mem_map.mpr ⟨c, hc, ?_⟩, howner, hpid, hlive⟩
  rw [if_neg]
  rw [Child.holds_iff]
  exact fun h => hne (hpid.symm.trans h.1)

end Os

end Wye
