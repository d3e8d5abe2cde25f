import Wye.Client.Outputs
import Wye.Manager.Step

/-!
# The client library

`Job.implement` of the Python package: one `create-job` request, and then one `create-worker` request
for each instance of each worker, in the order in which the workers were defined. What the instances of
a worker report goes into the requests of the workers that are connected to it.

A value that has gone through JSON is the property tree that the service reads or writes. Dictionaries
that the user makes are listed in the order in which they are iterated; for those that `implement` fills
the order is a parameter (`Order`). What each request meets at the service is an `Exchange`: the actions
of others that come first, and the environment of the request.
-/

namespace Wye

open Text Calls PropertyTree

/-- A dictionary with texts for keys. -/
structure Dict (α : Type) where
  entries : List (Str × α)
  distinct : (entries.map Prod.fst).Nodup

/-- The order in which a dictionary with given keys is iterated. -/
structure Order where
  of : List Str → List Str
  perm : ∀ keys, (of keys).Perm keys

/-- The order of insertion. -/
def Order.insertion : Order := ⟨id, fun _ => .refl _⟩

namespace Python

/-! ### Values -/

/-- A list as JSON. -/
def jsonList (vs : List Ptree) : Ptree := .node [] (vs.map fun v => ([], v))

/-- A dictionary as JSON. -/
def jsonObject (entries : List (Str × Ptree)) : Ptree := .node [] entries

/-- Whether a value is a dictionary. A node without keys is a text, and one with empty keys a list. -/
def isObject (v : Ptree) : Bool := v.children.any fun c => c.1 != []

/-- `v[key]`. A key that has come more than once has its last value. -/
def item (key : Str) (v : Ptree) : Except PyError Ptree :=
  if isObject v then
    match Ptree.lookup key v.children.reverse with
    | some c => .ok c
    | none => .error (.keyError key)
  else .error .typeError

/-- `v.has_key(key)`. -/
def hasKey (key : Str) (v : Ptree) : Except PyError Bool :=
  if isObject v then .ok (Ptree.lookup key v.children).isSome
  else .error (.attributeError "has_key".toList)

/-- A value that is used as a text. -/
def text (v : Ptree) : Except PyError Str :=
  if v.children = [] then .ok v.data else .error .typeError

/-- `entries[key] = v`. -/
def setItem (key : Str) (v : Ptree) (entries : List (Str × Ptree)) : List (Str × Ptree) :=
  Ptree.upsert key (fun _ => v) entries

/-- `entries[key]`. -/
def getItem (entries : List (Str × Ptree)) (key : Str) : Except PyError Ptree :=
  match Ptree.lookup key entries with
  | some v => .ok v
  | none => .error (.keyError key)

/-! ### Requests -/

/-- What a request meets: what others do before it is handled, and its environment. -/
structure Exchange where
  others : List Action
  env : Env

/-- The service, and what the next requests meet. -/
structure World where
  service : Service
  exchanges : List Exchange

/-- A request that has been handled: the service just before. -/
structure Put where
  before : Service
  request : Ptree
  env : Env

/-- A response: the status, its reason, and the value of the body. -/
structure Response where
  status : Nat
  reason : Str
  json : Ptree

/-- `requests.put(url, data=json.dumps(req))`. Where the service is down, or does not come back with a
reply, the connection is closed. -/
def put (world : World) (req : Ptree) : Except PyError (Response × Put × World) :=
  match world.exchanges with
  | [] => .error .connectionError
  | x :: exchanges =>
    let before := world.service.perform x.others
    let (r, service) := before.step (.request req x.env)
    let respond (res : Response) : Except PyError (Response × Put × World) :=
      .ok (res, ⟨before, req, x.env⟩, ⟨service, exchanges⟩)
    if before.up then
      match r with
      | .ok t =>
        if t.representable then respond ⟨200, "OK".toList, t⟩ else .error .connectionError
      | .throw (.invalidRequest _) => respond ⟨400, "Bad Request".toList, .empty⟩
      | .throw _ => respond ⟨500, "Internal Server Error".toList, .empty⟩
      | .lost _ => .error .connectionError
    else .error .connectionError

/-! ### Workers -/

/-- Where the sockets of an output lead: a worker of the job, by its place, and one of its inputs. -/
structure Edge where
  target : Nat
  input : Str
  deriving DecidableEq

/-- `Worker`, before it is implemented. -/
structure Worker where
  name : Str
  model : Str
  params : Dict Str
  outputs : Dict (List Edge)
  parallelism : Nat

/-- `Job.define_python_worker`. The outputs may have been connected afterwards. -/
def definePythonWorker (name file : Str) (outputs : Dict (List Edge)) (parallelism : Nat) : Worker :=
  ⟨name, "python".toList, ⟨[("file".toList, file)], by simp⟩, outputs, parallelism⟩

/-- What `implement` adds to a worker, with the requests that have made its instances. -/
structure Made where
  ids : List Str := []
  inputs : List (Str × Ptree) := []
  puts : List Put := []

/-- `elt.get_inputs()`, when the workers before this one are made, and some instances of this one. -/
def getInputs (done : List Made) (self : Made) (target : Nat) :
    Except PyError (List (Str × Ptree)) :=
  match done[target]? with
  | some made => .ok made.inputs
  | none => if target = done.length then .ok self.inputs else .error (.attributeError "inputs".toList)

/-- The list `was` of an edge: `ins[x][name]` for every instance. -/
def edgeList (order : Order) (inputs : Nat → Except PyError (List (Str × Ptree))) (w : Edge) :
    Except PyError Ptree := do
  let ins ← inputs w.target
  let was ← (order.of (ins.map Prod.fst)).mapM fun x => do
    let reported ← getItem ins x
    item w.input reported
  return jsonList was

/-- The list `wals` of an output. -/
def outputList (order : Order) (inputs : Nat → Except PyError (List (Str × Ptree)))
    (ws : List Edge) : Except PyError Ptree := do
  let wals ← ws.mapM (edgeList order inputs)
  return jsonList wals

/-- `"%04d" % n`. -/
def fourDigits (n : Nat) : Str := (Nat.repr n).toList.leftpad 4 '0'

/-- The request for an instance of a worker. -/
def Worker.request (order : Order) (inputs : Nat → Except PyError (List (Str × Ptree))) (jobId : Str)
    (self : Worker) (instance_ : Nat) : Except PyError Ptree := do
  let req := [("operation".toList, .leaf "create-worker".toList),
    ("name".toList, .leaf (self.name ++ "-".toList ++ fourDigits instance_)),
    ("model".toList, .leaf self.model), ("job_id".toList, .leaf jobId)]
  let req := self.params.entries.foldl (fun req v => setItem v.1 (.leaf v.2) req) req
  if self.outputs.entries.length > 0 then
    let outputs ← self.outputs.entries.mapM fun v => do
      let wals ← outputList order inputs v.2
      return (v.1, wals)
    return jsonObject (setItem "outputs".toList (jsonObject outputs) req)
  else return jsonObject req

/-- One turn of the loop of `Worker.implement`. -/
def Worker.addInstance (order : Order) (jobId : Str) (done : List Made) (self : Worker)
    (s : Made × World) (instance_ : Nat) : Except PyError (Made × World) := do
  let req ← self.request order (getInputs done s.1) jobId instance_
  let (res, x, world) ← put s.2 req
  if res.status ≠ 200 then .error (.runtimeError res.reason)
  else
    let v ← item "id".toList res.json
    let id ← text v
    let known ← hasKey "inputs".toList res.json
    if known then
      let ins ← item "inputs".toList res.json
      return (⟨s.1.ids ++ [id], setItem id ins s.1.inputs, s.1.puts ++ [x]⟩, world)
    else return (⟨s.1.ids ++ [id], s.1.inputs, s.1.puts ++ [x]⟩, world)

/-- `Worker.implement`. -/
def Worker.implement (order : Order) (jobId : Str) (done : List Made) (self : Worker)
    (world : World) : Except PyError (Made × World) :=
  (List.range self.parallelism).foldlM (self.addInstance order jobId done) ({}, world)

/-! ### Jobs -/

/-- `Job`. -/
structure Job where
  name : Str
  description : Str
  workers : List Worker

/-- One turn of the loop of `Job.implement`. -/
def addWorker (order : Order) (jobId : Str) (s : List Made × World) (v : Worker) :
    Except PyError (List Made × World) := do
  let (made, world) ← v.implement order jobId s.1 s.2
  return (s.1 ++ [made], world)

/-- `Job.implement`, with what it adds to the workers. -/
def Job.implement (order : Order) (self : Job) (world : World) :
    Except PyError (Str × List Made × World) := do
  let (res, _, world) ← put world (jsonObject [("operation".toList, .leaf "create-job".toList),
    ("name".toList, .leaf self.name), ("description".toList, .leaf self.description)])
  if res.status ≠ 200 then .error (.runtimeError "Bad request".toList)
  else
    let v ← item "id".toList res.json
    let id ← text v
    let (done, world) ← self.workers.foldlM (addWorker order id) ([], world)
    return (id, done, world)

end Python

end Wye
