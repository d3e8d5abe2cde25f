import Wye.Base.Text

/-!
# The operating system's side

What the service sees of the operating system: the children it has forked, the pids that other
processes hold, and the calls `fork`, `kill` and `waitpid`. A child keeps its pid until it is reaped,
whether it still runs or not; a reaped child stays in the list, since its pid may be held on to.

`script` is what happens outside before each of the next calls of one operation: children and other
processes end, and new processes take free pids. `signals` records every `kill` and blocking
`waitpid`, with the process that stood under the pid at that moment.
-/

namespace Wye

open Text

/-- A `pid_t`. -/
abbrev Pid := Nat

/-- Where a child stands. An exited child is a zombie until it is waited for. -/
inductive ChildStatus where
  | running
  | exited
  | reaped
  deriving DecidableEq, Repr

/-- A child that the service has forked for a worker, with what it was asked to execute. -/
structure Child where
  owner : Str
  pid : Pid
  exec : Str
  argv : List Str
  status : ChildStatus
  deriving DecidableEq, Repr

/-- What happens outside the service. -/
inductive OsEvent where
  /-- The process with a pid ends. -/
  | exits (pid : Pid)
  /-- A process that is no child of the service starts. -/
  | spawns (pid : Pid)
  deriving DecidableEq, Repr

/-- What stands under a pid. -/
inductive Target where
  /-- The unreaped child of the worker with an id. -/
  | child (owner : Str)
  | stranger
  | nobody
  deriving DecidableEq, Repr

/-- The calls a destructor issues. -/
inductive Call where
  | kill
  | wait
  deriving DecidableEq, Repr

/-- A call issued for a worker, and what it hit. -/
structure Signal where
  sender : Str
  call : Call
  pid : Pid
  target : Target
  deriving DecidableEq, Repr

/-- The process table as far as the service meets it. -/
structure Os where
  children : List Child := []
  strangers : List Pid := []
  script : List (List OsEvent) := []
  signals : List Signal := []
  deriving DecidableEq, Repr

/-- Whether a child stands under a pid. -/
def Child.holds (c : Child) (pid : Pid) : Bool := c.pid == pid && c.status != .reaped

namespace Os

/-- The unreaped child under a pid. -/
def child? (os : Os) (pid : Pid) : Option Child := os.children.find? (·.holds pid)

/-- Whether a pid is taken. -/
def inUse (os : Os) (pid : Pid) : Bool := (os.child? pid).isSome || os.strangers.contains pid

/-- What a call on a pid reaches. -/
def target (os : Os) (pid : Pid) : Target :=
  match os.child? pid with
  | some c => .child c.owner
  | none => if os.strangers.contains pid then .stranger else .nobody

/-- Change the status of the unreaped child under a pid. -/
def setStatus (os : Os) (pid : Pid) (status : ChildStatus) : Os :=
  { os with children := os.children.map fun c =>
      if c.holds pid then { c with status := status } else c }

/-- One event outside. -/
def event (os : Os) : OsEvent → Os
  | .exits pid =>
    { os.setStatus pid .exited with strangers := os.strangers.filter (· != pid) }
  | .spawns pid => if os.inUse pid then os else { os with strangers := pid :: os.strangers }

/-- What happens outside before the next call. -/
def tick (os : Os) : Os :=
  match os.script with
  | [] => os
  | es :: script => { es.foldl event os with script := script }

/-- `fork` and `execve`, when `fork` succeeds with a pid. -/
def fork (os : Os) (owner : Str) (pid : Pid) (exec : Str) (argv : List Str) : Os :=
  { os with children := os.children ++ [⟨owner, pid, exec, argv, .running⟩] }

/-- `waitpid(pid, &status, WNOHANG)`. -/
def waitpidNohang (os : Os) (pid : Pid) : Int × Os :=
  match os.child? pid with
  | none => (-1, os)
  | some c => if c.status = .exited then (pid, os.setStatus pid .reaped) else (0, os)

/-- `waitpid(pid, &status, 0)`, which comes back once the child has ended. -/
def waitpid (os : Os) (pid : Pid) : Int × Os :=
  match os.child? pid with
  | none => (-1, os)
  | some _ => (pid, os.setStatus pid .reaped)

/-- `kill(pid, SIGTERM)`. -/
def kill (os : Os) (pid : Pid) : Int := if os.target pid = .nobody then -1 else 0

/-- Record a call. -/
def record (os : Os) (sender : Str) (call : Call) (pid : Pid) : Os :=
  { os with signals := os.signals ++ [⟨sender, call, pid, os.target pid⟩] }

end Os

end Wye
