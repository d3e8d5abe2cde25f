import Wye.Process.Init
import Wye.PropertyTree.Paths

/-!
# `run_process`

A worker is started by `run` (`posix_launch` with descriptor 3 captured), and for all classes but
the application one the start ends when the worker has sent `RUNNING` on that descriptor. What the
new child sends before it closes the descriptor, or the failure of `pipe` or `fork`, is the
`Launch` of the request.
-/

namespace Wye

open Text Calls PropertyTree

/-- How a launch goes: `posix_launch` throws, or there is a child with a pid, which writes a stream
on descriptor 3. -/
inductive Launch where
  | failed (what : Str)
  | child (pid : Pid) (stream : Str)
  deriving DecidableEq, Repr

/-- `process::run`: on success the stream of descriptor 3. -/
def Process.run (self : Process) (launch : Launch) (os : Os) : Outcome Exn Str × Process × Os :=
  match launch with
  | .failed what => (.throw (.systemError what), self, os)
  | .child pid stream =>
    (.ok stream, { self with proc := some pid },
      os.fork self.id pid (cString self.exec) (self.args.map cString))

/-- What follows `INPUT:` in a line, read as a name and an address. The position of the colon goes
through an `int`; a negative one is past the end of every string. -/
def parseInput (line : Str) : Except Exn (Str × Str) :=
  let pos := toInt (find ':' line)
  if pos = -1 then
    .error (.runtimeError ("Did not interpret process output INPUT:".toList ++ line))
  else if pos + 1 < 0 then .error (.outOfRange "basic_string::substr".toList)
  else .ok (line.take pos.toNat, line.drop (pos + 1).toNat)

/-- The loop that reads the lines of descriptor 3 into `inputs`. It throws, or it ends with
`out.eof()` set or not. -/
def readLoop (inputs : Inputs) : List Line → Except Exn Bool × Inputs
  | [] => (.ok true, inputs)
  | l :: ls =>
    if l.text = "INIT".toList then readLoop inputs ls
    else if l.text.take 6 = "INPUT:".toList then
      match parseInput (l.text.drop 6) with
      | .error e => (.error e, inputs)
      | .ok (name, input) => readLoop (inputs.insert name input) ls
    else if l.text.take 6 = "ERROR:".toList then
      (.error (.runtimeError ("Process failed to start: ".toList ++ l.text.drop 6)), inputs)
    else if l.text.take 7 = "NOTICE:".toList then readLoop inputs ls
    else if l.text = "RUNNING".toList then (.ok (!l.terminated), inputs)
    else (.error (.runtimeError ("Bad return string: ".toList ++ l.text)), inputs)

/-- The reading loop and the checks of the stream after it. -/
def handshake (inputs : Inputs) (stream : Str) : Outcome Exn Unit × Inputs :=
  match readLoop inputs (lines stream) with
  | (.error e, inputs) => (.throw e, inputs)
  | (.ok true, inputs) => (.throw (.runtimeError "Process didn't send RUNNING".toList), inputs)
  | (.ok false, inputs) => (.ok (), inputs)

/-- The reply to a request that created a worker. -/
def reply (id : Str) (inputs : Inputs) : Outcome Exn Ptree :=
  (Ptree.empty.put "id".toList id).bind fun r =>
    if inputs.size > 0 then
      (Ptree.empty.putAll inputs.toList).bind fun ins => r.addChild "inputs".toList ins
    else .ok r

/-- `process::run_process` and `application_process::run_process`. -/
def Process.runProcess (self : Process) (launch : Launch) (os : Os) :
    Outcome Exn Ptree × Process × Os :=
  match self.run launch os with
  | (.ok stream, self, os) =>
    if self.model = .application then (reply self.id self.inputs, self, os)
    else
      let (r, inputs) := handshake self.inputs stream
      let self := { self with inputs := inputs }
      (r.bind fun _ => reply self.id self.inputs, self, os)
  | (.throw e, self, os) => (.throw e, self, os)
  | (.lost why, self, os) => (.lost why, self, os)

/-- One entry of an address group, or of `args`. -/
def element (d : Str) : Str × Ptree := ([], .leaf d)

/-- The subtree of one output name. -/
def addressTree (al : AddressList) : Ptree :=
  .node [] (al.map fun j => ([], .node [] (j.map element)))

/-- `process::describe`, into an empty tree. -/
def Process.describe (self : Process) : Outcome Exn Ptree :=
  (Ptree.empty.put "id".toList self.id).bind fun p =>
  (if self.name ≠ [] then p.put "name".toList self.name else .ok p).bind fun p =>
  (p.put "job_id".toList self.jobId).bind fun p =>
  (p.put "exec".toList self.exec).bind fun p =>
  (p.put "state".toList
    (if self.state = .running then "RUNNING".toList else "STOPPED".toList)).bind fun p =>
  (if self.args ≠ [] then p.addChild "args".toList (.node [] (self.args.map element))
    else .ok p).bind fun p =>
  (if self.inputs.size > 0 then
    (Ptree.empty.putAll self.inputs.toList).bind fun ins => p.addChild "inputs".toList ins
    else .ok p).bind fun p =>
  if self.outputs.size > 0 then
    (Ptree.empty.addAll (self.outputs.toList.map fun i => (i.1, addressTree i.2))).bind fun outs =>
      p.addChild "outputs".toList outs
  else .ok p

end Wye
