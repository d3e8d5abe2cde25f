import Std.Data.ExtTreeMap
import Wye.Base.Outcome
import Wye.Os

/-!
# Workers

The object behind a worker (`worker` and `process` in one record), the exceptions it throws, and
what happens to its child outside its start: the check the monitor makes (`isRunning`) and the
destructor (`destroy`).
-/

namespace Wye

open Text Calls

/-- The exceptions thrown, with their `what()`. -/
inductive Exn where
  | invalidRequest (what : Str)
  | runtimeError (what : Str)
  /-- `boost::property_tree::ptree_bad_path`. -/
  | badPath (what : Str)
  /-- `boost::system::system_error`. -/
  | systemError (what : Str)
  /-- `std::out_of_range`. -/
  | outOfRange (what : Str)
  deriving DecidableEq, Repr

/-- `e.what()`. -/
def Exn.what : Exn → Str
  | .invalidRequest w | .runtimeError w | .badPath w | .systemError w | .outOfRange w => w

/-- `worker_state`. -/
inductive WorkerState where
  | running
  | stopped
  deriving DecidableEq, Repr

/-- The classes derived from `process`. -/
inductive Model where
  | application
  | executable
  | python
  | lambda
  | lua
  deriving DecidableEq, Repr

/-- `worker::address`. -/
abbrev Address := List Str

/-- `worker::address_list`. -/
abbrev AddressList := List Address

/-- `worker::outputs`. -/
abbrev Outputs := Std.ExtTreeMap Str AddressList compare

/-- `worker::inputs`. -/
abbrev Inputs := Std.ExtTreeMap Str Str compare

/-- A worker: its class, the members of `worker` and `process`, and the pid behind `proc` when that
pointer is not null. -/
structure Process where
  model : Model
  id : Str
  name : Str := []
  jobId : Str := []
  state : WorkerState := .running
  outputs : Outputs := ∅
  inputs : Inputs := ∅
  exec : Str := []
  args : List Str := []
  proc : Option Pid := none
  deriving DecidableEq

namespace Process

/-- `process::is_running`. A null `proc` throws; a failed `waitpid` is caught and stops the worker;
any other answer, the pid of a child that has just been reaped among them, counts as running. -/
def isRunning (self : Process) (os : Os) : Outcome Exn Bool × Process × Os :=
  if self.state ≠ .running then (.ok false, self, os)
  else
    match self.proc with
    | none => (.throw (.runtimeError "Process null pointer!".toList), self, os)
    | some pid =>
      let (r, os) := os.waitpidNohang pid
      if r = -1 then (.ok false, { self with state := .stopped, proc := none }, os)
      else (.ok true, self, os)

/-- `process::~process`: `terminate` and `wait` throw when `kill` and `waitpid` fail, and an
exception that leaves a destructor ends the service. -/
def destroy (self : Process) (os : Os) : Outcome Exn Unit × Os :=
  match self.proc with
  | none => (.ok (), os)
  | some pid =>
    let os := os.tick
    let killed := os.kill pid
    let os := os.record self.id .kill pid
    if killed = -1 then (.lost .terminate, os)
    else
      let os := os.tick
      let os' := os.record self.id .wait pid
      let (r, os') := os'.waitpid pid
      if r = -1 then (.lost .terminate, os') else (.ok (), os')

end Process

end Wye
