import Wye.Base.Transition
import Wye.Manager.Basic

/-!
# The service

A run of the service is a list of actions from the start: requests, passes of the monitor thread,
`stop`, and events of the operating system. Each action is one step; that the mutexes make the
operations of concurrent threads behave so is `Wye.Manager.Serial`.

A request brings what it meets outside (`Env`), and an action is allowed when the generated id is new
and `fork` gives a pid that nobody holds (`Action.Valid`). The service is up until an assertion fails
or an exception leaves a destructor or the monitor thread.
-/

namespace Wye

open Text Calls PropertyTree Transition

/-- The service: the manager, the ids generated so far, and whether the program still runs. -/
structure Service where
  manager : Manager := {}
  issued : List Str := []
  up : Bool := true

/-- What happens next. -/
inductive Action where
  | request (p : Ptree) (env : Env)
  | pass (script : List (List OsEvent))
  | stop (script : List (List OsEvent)) (order : Manager.ClearOrder)
  | event (e : OsEvent)

/-- What happens outside during the next operation. -/
def Manager.withScript (m : Manager) (script : List (List OsEvent)) : Manager :=
  { m with os := { m.os with script := script } }

/-- Whether a call came back. -/
def came {α : Type} : Outcome Exn α → Bool
  | .lost _ => false
  | _ => true

/-- An exception that leaves the monitor thread or the signal handler ends the program. -/
def uncaught (r : Outcome Exn Unit) : Outcome Exn Ptree :=
  match r with
  | .ok _ => .ok .empty
  | .throw _ => .lost .terminate
  | .lost why => .lost why

namespace Service

/-- The service after an operation on its manager. -/
def after (s : Service) (r : Outcome Exn Ptree × Manager) : Outcome Exn Ptree × Service :=
  (r.1, { s with manager := r.2.withScript [], up := came r.1 })

/-- One action, with the answer to a request. -/
def step (s : Service) : Action → Outcome Exn Ptree × Service
  | .request p env =>
    { s with issued := env.uuid.1 :: s.issued }.after
      ((s.manager.withScript env.script).handle p env)
  | .pass script =>
    let (r, m) := (s.manager.withScript script).monitorPass
    s.after (uncaught r, m)
  | .stop script order =>
    let (r, m) := (s.manager.withScript script).stop order
    s.after (uncaught r, m)
  | .event e => s.after (.ok .empty, { s.manager with os := s.manager.os.event e })

end Service

/-- A launch gives a pid that is positive and free. -/
def Launch.Valid (os : Os) : Launch → Prop
  | .failed _ => True
  | .child pid _ => 0 < pid ∧ os.inUse pid = false

instance (os : Os) (launch : Launch) : Decidable (launch.Valid os) :=
  match launch with
  | .failed _ => isTrue trivial
  | .child pid _ => inferInstanceAs (Decidable (0 < pid ∧ os.inUse pid = false))

/-- The outside world keeps its promises: ids are new, and so are pids. -/
def Action.Valid (s : Service) : Action → Prop
  | .request _ env => env.uuid.1 ∉ s.issued ∧ env.launch.Valid s.manager.os
  | _ => True

instance (s : Service) (a : Action) : Decidable (a.Valid s) :=
  match a with
  | .request _ env =>
    inferInstanceAs (Decidable (env.uuid.1 ∉ s.issued ∧ env.launch.Valid s.manager.os))
  | .pass _ | .stop _ _ | .event _ => isTrue trivial

/-- One step of a run. -/
def Service.Step (s : Service) (a : Action) (s' : Service) : Prop :=
  s.up = true ∧ a.Valid s ∧ s' = (s.step a).2

/-- The states of the service, from its start. -/
def Service.Reachable (s : Service) : Prop := ∃ as, Run Service.Step {} as s

/-- The states reached by steps that all meet a condition. -/
def Service.ReachableBy (guard : Service → Action → Prop) (s : Service) : Prop :=
  ∃ as, Run (Guarded Service.Step guard) {} as s

theorem Service.ReachableBy.reachable {guard : Service → Action → Prop} {s : Service}
    (h : s.ReachableBy guard) : s.Reachable :=
  h.imp fun _ => Run.of_guarded

/-- What holds at the start and is preserved by every step holds in every state. -/
theorem Service.Reachable.invariant {I : Service → Prop} {s : Service} (h : s.Reachable)
    (hinit : I {}) (hstep : ∀ s a, I s → s.up = true → a.Valid s → I (s.step a).2) : I s := by
  obtain ⟨as, has⟩ := h
  refine has.invariant ?_ hinit
  rintro s a _ hs ⟨hup, hvalid, rfl⟩
  exact hstep s a hs hup hvalid

theorem Service.ReachableBy.invariant {guard : Service → Action → Prop} {I : Service → Prop}
    {s : Service} (h : s.ReachableBy guard) (hinit : I {})
    (hstep : ∀ s a, I s → s.up = true → a.Valid s → guard s a → I (s.step a).2) : I s := by
  obtain ⟨as, has⟩ := h
  refine has.invariant ?_ hinit
  rintro s a _ hs ⟨hg, hup, hvalid, rfl⟩
  exact hstep s a hs hup hvalid hg

theorem Service.Reachable.step {s : Service} (h : s.Reachable) {a : Action} (hup : s.up = true)
    (hvalid : a.Valid s) : (s.step a).2.Reachable := by
  obtain ⟨as, has⟩ := h
  exact ⟨_, has.snoc ⟨hup, hvalid, rfl⟩⟩

/-! ### Runs of given actions -/

namespace Service

/-- The state that a list of actions leads to. -/
def perform (s : Service) : List Action → Service
  | [] => s
  | a :: as => perform (s.step a).2 as

/-- Each action of a list can be taken when its turn comes. -/
def Performs (guard : Service → Action → Prop) (s : Service) : List Action → Prop
  | [] => True
  | a :: as => guard s a ∧ s.up = true ∧ a.Valid s ∧ Performs guard (s.step a).2 as

instance Performs.decidable (guard : Service → Action → Prop) [∀ s a, Decidable (guard s a)]
    (s : Service) (as : List Action) : Decidable (s.Performs guard as) :=
  match as with
  | [] => inferInstanceAs (Decidable True)
  | a :: as =>
    have := Performs.decidable guard (s.step a).2 as
    inferInstanceAs (Decidable (guard s a ∧ s.up = true ∧ a.Valid s ∧ _))

theorem Performs.run {guard : Service → Action → Prop} {s : Service} {as : List Action}
    (h : s.Performs guard as) : Run (Guarded Service.Step guard) s as (s.perform as) := by
  induction as generalizing s with
  | nil => exact .nil
  | cons a as ih =>
    obtain ⟨hguard, hup, hvalid, hrest⟩ := h
    exact .cons ⟨hguard, hup, hvalid, rfl⟩ (ih hrest)

theorem Performs.reachableBy {guard : Service → Action → Prop} {as : List Action}
    (h : Performs guard {} as) : (perform {} as).ReachableBy guard := ⟨as, h.run⟩

theorem Performs.freeRun {s : Service} {as : List Action} (h : s.Performs (fun _ _ => True) as) :
    Run Service.Step s as (s.perform as) := h.run.of_guarded

theorem Performs.reachable {as : List Action} (h : Performs (fun _ _ => True) {} as) :
    (perform {} as).Reachable := ⟨as, h.freeRun⟩

end Service

end Wye
