import Wye.Client.Basic
import Wye.Manager.Spec
import Wye.Process.Faithful

/-!
# What `implement` leaves behind

One lemma says what a turn of the loop of `Worker.implement` does when it comes back (`addInstance_spec`):
the service has started a child with the outputs of the request for arguments, and the dictionary of the
inputs has the subtree of the reply under the new id. From it, `Run.invariant` gives what is true of a
worker that is implemented (`MadeFor`), and the loop over the workers what is true of a job.
-/

namespace Wye

open Text Calls PropertyTree Ptree Transition Loops Std

namespace Python

/-! ### Replies -/

/-- The id that a request was given. -/
def Put.id (x : Put) : Str := x.env.uuid.1

/-- The id that a request will be given. -/
def Exchange.id (x : Exchange) : Str := x.env.uuid.1

/-- The inputs that a new child reports. -/
def Put.inputs (x : Put) : Inputs :=
  match x.env.launch with
  | .failed _ => ∅
  | .child _ stream => reported stream

/-- The service after a request. -/
def Put.after (x : Put) : Outcome Exn Ptree × Service := x.before.step (.request x.request x.env)

theorem put_spec {world world' : World} {req : Ptree} {res : Response} {x : Put}
    (h : put world req = .ok (res, x, world')) :
    world.exchanges.map Exchange.id = x.id :: world'.exchanges.map Exchange.id ∧ x.request = req ∧
      (res.status = 200 → x.after.1 = .ok res.json) := by
  rw [put] at h
  split at h
  · cases h
  · rename_i e exchanges heq
    dsimp only at h
    split at h
    · split at h
      · rename_i t hstep
        split at h
        · cases h
          exact ⟨by rw [heq]; rfl, rfl, fun _ => hstep⟩
        · cases h
      · cases h
        exact ⟨by rw [heq]; rfl, rfl, fun h => absurd h (by decide)⟩
      · cases h
        exact ⟨by rw [heq]; rfl, rfl, fun h => absurd h (by decide)⟩
      · cases h
    · cases h

theorem reply_cases {id : Str} {inputs : Inputs} {t : Ptree} (h : reply id inputs = .ok t) :
    (inputs.size = 0 ∧ t = .node [] [("id".toList, leaf id)]) ∨
      ∃ ins, (Ptree.empty.putAll inputs.toList : Outcome Exn Ptree) = .ok ins ∧ 0 < inputs.size ∧
        t = .node [] [("id".toList, leaf id), ("inputs".toList, ins)] := by
  rw [reply_eq] at h
  by_cases hsize : inputs.size > 0
  · rw [if_pos hsize] at h
    obtain ⟨es, hes, rfl⟩ := Outcome.map_eq_ok.mp h
    obtain ⟨ins, hins, rfl⟩ := Outcome.map_eq_ok.mp hes
    exact .inr ⟨ins, hins, hsize, rfl⟩
  · rw [if_neg hsize] at h
    cases h
    exact .inl ⟨by omega, rfl⟩

/-! ### The service's side of a request -/

/-- The request has made a python worker and started its child. -/
structure Put.Started (x : Put) (proc : Process) : Prop where
  init : pythonInit x.request { model := .python, id := x.id } = .ok proc
  forked : ∃ pid, x.after.2.manager.os.children = x.before.manager.os.children ++
    [⟨x.id, pid, cString proc.exec, proc.args.map cString, .running⟩]

theorem init_of_prepare {p : Ptree} {uuid : Uuid} {proc : Process}
    (hmodel : p.get? "model".toList = some "python".toList)
    (h : Manager.prepareWorker p uuid = .ok proc) :
    pythonInit p { model := .python, id := uuid.1 } = .ok proc := by
  rw [Manager.prepareWorker, bind_eq_ok] at h
  obtain ⟨model, hrequired, h⟩ := h
  rw [Manager.required, hmodel] at hrequired
  cases hrequired
  exact h

theorem runProcess_of_enterLocked {m : Manager} {proc : Process} {launch : Launch} {t : Ptree}
    (h : (m.enterLocked proc launch).1 = .ok t) : (proc.runProcess launch m.os).1 = .ok t := by
  rw [Manager.enterLocked] at h
  dsimp only at h
  split at h
  · cases h
    assumption
  · cases h
  · cases h

theorem started_of_answer {x : Put} {t : Ptree} (h : x.after.1 = .ok t)
    (hop : Manager.requestOp x.request = .ok .createWorker)
    (hmodel : x.request.get? "model".toList = some "python".toList) :
    ∃ proc, x.Started proc ∧ reply x.id x.inputs = .ok t := by
  have hcreate : x.after = Service.after { x.before with issued := x.env.uuid.1 :: x.before.issued }
      ((x.before.manager.withScript x.env.script).createWorker x.request x.env) := by
    rw [Put.after, Service.step, Manager.handle, hop]
  cases hprepare : Manager.prepareWorker x.request x.env.uuid with
  | error e =>
    rw [hcreate, Manager.createWorker, hprepare] at h
    cases h
  | ok proc =>
    have hinit := init_of_prepare hmodel hprepare
    have hspec : Initialised x.request _ proc := initScript_spec hinit
    rw [Manager.createWorker, hprepare] at hcreate
    dsimp only at hcreate
    cases hlaunch : x.env.launch with
    | failed what =>
      rw [hcreate, hlaunch, Manager.enterLocked_failed] at h
      cases h
    | child pid stream =>
      have hinputs : x.inputs = reported stream := by rw [Put.inputs, hlaunch]
      have hreply : reply x.id x.inputs = .ok t := by
        rw [hcreate, hlaunch] at h
        have hrun := runProcess_of_enterLocked h
        rw [Process.runProcess_child] at hrun
        obtain ⟨-, -, hrun⟩ := Outcome.bind_eq_ok.mp hrun
        have hclass : proc.model ≠ .application := by
          rw [hspec.model]
          exact Model.noConfusion
        rw [hspec.id, Process.started, if_neg hclass, hspec.inputs, handshake_inputs,
          ← hinputs] at hrun
        exact hrun
      refine ⟨proc, ⟨hinit, ⟨pid, ?_⟩⟩, hreply⟩
      rw [hcreate, hlaunch, Service.after, Manager.enterLocked_child, hspec.id]
      rfl

/-! ### Requests for python workers -/

variable {order : Order} {inputs : Nat → Except PyError (List (Str × Ptree))} {jobId : Str}

/-- The fields of a request for a python worker, the outputs apart. -/
def pythonFields (jobId name file : Str) (k : Nat) : List (Str × Ptree) :=
  [("operation".toList, .leaf "create-worker".toList),
    ("name".toList, .leaf (name ++ "-".toList ++ fourDigits k)),
    ("model".toList, .leaf "python".toList), ("job_id".toList, .leaf jobId),
    ("file".toList, .leaf file)]

/-- The texts of a list of texts. -/
def texts (v : Ptree) : List Str := v.children.map fun k => k.2.data

/-- The addresses that the request has for an edge. -/
def EdgeAddresses (order : Order) (inputs : Nat → Except PyError (List (Str × Ptree))) (e : Edge)
    (a : Address) : Prop := ∃ v, edgeList order inputs e = .ok v ∧ a = texts v

/-- The fields of a request before the outputs are added. -/
def Worker.fields (self : Worker) (jobId : Str) (k : Nat) : List (Str × Ptree) :=
  self.params.entries.foldl (fun req v => setItem v.1 (.leaf v.2) req)
    [("operation".toList, .leaf "create-worker".toList),
      ("name".toList, .leaf (self.name ++ "-".toList ++ fourDigits k)),
      ("model".toList, .leaf self.model), ("job_id".toList, .leaf jobId)]

theorem request_eq_ok {self : Worker} {k : Nat} {req : Ptree}
    (h : self.request order inputs jobId k = .ok req) :
    ∃ outs, List.Forall₂ (fun v o => o.1 = v.1 ∧ outputList order inputs v.2 = .ok o.2)
        self.outputs.entries outs ∧
      req = .node [] (if outs = [] then self.fields jobId k
        else setItem "outputs".toList (.node [] outs) (self.fields jobId k)) := by
  rw [Worker.request, ← Worker.fields] at h
  by_cases hlen : self.outputs.entries.length > 0
  · rw [if_pos hlen] at h
    obtain ⟨outs, houts, h⟩ := bind_eq_ok.mp h
    cases h
    rw [mapM_eq_ok] at houts
    refine ⟨outs, houts.imp fun v o ho => ?_, ?_⟩
    · obtain ⟨wals, hwals, ho⟩ := bind_eq_ok.mp ho
      cases ho
      exact ⟨rfl, hwals⟩
    · have hne : outs ≠ [] := by
        rintro rfl
        rw [houts.length_eq] at hlen
        exact absurd hlen (by simp)
      rw [if_neg hne]
      rfl
  · rw [if_neg hlen] at h
    cases h
    have hnil : self.outputs.entries = [] := List.length_eq_zero_iff.mp (by omega)
    exact ⟨[], hnil ▸ .nil, rfl⟩

theorem request_python {name file : Str} {outputs : Dict (List Edge)} {n k : Nat} {req : Ptree}
    (h : (definePythonWorker name file outputs n).request order inputs jobId k = .ok req) :
    ∃ outs, List.Forall₂ (fun v o => o.1 = v.1 ∧ outputList order inputs v.2 = .ok o.2)
        outputs.entries outs ∧
      req = .node [] (pythonFields jobId name file k ++
        if outs = [] then [] else [("outputs".toList, .node [] outs)]) := by
  obtain ⟨outs, houts, rfl⟩ := request_eq_ok h
  refine ⟨outs, houts, ?_⟩
  split
  · rfl
  · rfl

theorem get?_request_python {name file : Str} {k : Nat} (es : List (Str × Ptree)) :
    Manager.requestOp (.node [] (pythonFields jobId name file k ++ es)) = .ok .createWorker ∧
      (Ptree.node [] (pythonFields jobId name file k ++ es)).get? "model".toList =
        some "python".toList := by
  have hop : (Ptree.node [] (pythonFields jobId name file k ++ es)).get? "operation".toList =
      some "create-worker".toList := by
    rw [get?_plain (by decide)]
    rfl
  refine ⟨?_, ?_⟩
  · rw [Manager.requestOp, Manager.required, hop]
    rfl
  · rw [get?_plain (by decide)]
    rfl

theorem texts_jsonList (vs : List Ptree) : texts (jsonList vs) = vs.map data := by
  rw [texts, jsonList, children_node, List.map_map]
  rfl

theorem addresses_of_outputList {ws : List Edge} {t : Ptree}
    (h : outputList order inputs ws = .ok t) :
    List.Forall₂ (EdgeAddresses order inputs) ws (t.children.map fun j => texts j.2) := by
  obtain ⟨wals, hwals, h⟩ := bind_eq_ok.mp h
  cases h
  rw [mapM_eq_ok] at hwals
  rw [jsonList, children_node, List.map_map, List.forall₂_map_right_iff]
  exact hwals.imp fun e v hv => ⟨v, hv, rfl⟩

/-- The service reads the addresses of every output, and no other outputs. -/
theorem readOutputs_request {name file : Str} {outputs : Dict (List Edge)} {n k : Nat} {req : Ptree}
    (h : (definePythonWorker name file outputs n).request order inputs jobId k = .ok req) :
    (∀ o ws, (o, ws) ∈ outputs.entries → ∃ al, (readOutputs req)[(o : Str)]? = some al ∧
        List.Forall₂ (EdgeAddresses order inputs) ws al) ∧
      ∀ (o : Str) al, (readOutputs req)[o]? = some al → ∃ ws, (o, ws) ∈ outputs.entries ∧
        List.Forall₂ (EdgeAddresses order inputs) ws al := by
  obtain ⟨outs, houts, rfl⟩ := request_python h
  have hsubtree : (subtree (.node [] (pythonFields jobId name file k ++
      if outs = [] then [] else [("outputs".toList, .node [] outs)])) "outputs".toList).children =
      outs := by
    rw [subtree, getChild?_plain (by decide)]
    by_cases hnil : outs = []
    · rw [if_pos hnil, hnil]
      rfl
    · rw [if_neg hnil]
      rfl
  have hkeys : outs.map Prod.fst = outputs.entries.map Prod.fst := by
    rw [← List.forall₂_eq_eq_eq, List.forall₂_map_left_iff, List.forall₂_map_right_iff]
    exact houts.flip.imp fun o v ho => ho.1
  have hget : ∀ (o : Str) al, (readOutputs (.node [] (pythonFields jobId name file k ++
      if outs = [] then [] else [("outputs".toList, .node [] outs)])))[o]? = some al ↔
      ∃ t, (o, t) ∈ outs ∧ al = t.children.map fun j => texts j.2 := by
    intro o al
    rw [Process.readOutputs_eq, hsubtree, Maps.get_insertAll, Maps.lastOf_eq_some, List.mem_map]
    · constructor
      · rintro ⟨c, hc, heq⟩
        cases heq
        exact ⟨c.2, hc, rfl⟩
      · rintro ⟨t, ht, rfl⟩
        exact ⟨(o, t), ht, rfl⟩
    · rw [List.map_map]
      exact (hkeys ▸ outputs.distinct : (outs.map Prod.fst).Nodup)
  constructor
  · intro o ws hws
    obtain ⟨⟨o', t⟩, ht, rfl, hwals⟩ := exists_right houts hws
    exact ⟨_, (hget _ _).mpr ⟨t, ht, rfl⟩, addresses_of_outputList hwals⟩
  · intro o al hal
    obtain ⟨t, ht, rfl⟩ := (hget o al).mp hal
    obtain ⟨⟨o', ws⟩, hws, rfl, hwals⟩ := exists_left houts ht
    exact ⟨ws, hws, addresses_of_outputList hwals⟩

/-! ### One instance -/

theorem item_reply (id : Str) (ins : Ptree) :
    (item "id".toList (.node [] [("id".toList, leaf id)]) = .ok (leaf id) ∧
        hasKey "inputs".toList (.node [] [("id".toList, leaf id)]) = .ok false) ∧
      item "id".toList (.node [] [("id".toList, leaf id), ("inputs".toList, ins)]) =
          .ok (leaf id) ∧
        hasKey "inputs".toList (.node [] [("id".toList, leaf id), ("inputs".toList, ins)]) =
          .ok true ∧
        item "inputs".toList (.node [] [("id".toList, leaf id), ("inputs".toList, ins)]) = .ok ins :=
  ⟨⟨rfl, rfl⟩, rfl, rfl, rfl⟩

/-- What a turn of the loop of `Worker.implement` does when it comes back. -/
structure Added (order : Order) (jobId : Str) (done : List Made) (w : Worker) (s s' : Made × World)
    (x : Put) : Prop where
  asked : ∃ k, w.request order (getInputs done s.1) jobId k = .ok x.request
  started : ∃ proc, x.Started proc
  spent : s.2.exchanges.map Exchange.id = x.id :: s'.2.exchanges.map Exchange.id
  ids : s'.1.ids = s.1.ids ++ [x.id]
  puts : s'.1.puts = s.1.puts ++ [x]
  inputs : (x.inputs.size = 0 ∧ s'.1.inputs = s.1.inputs) ∨
    ∃ ins, (Ptree.empty.putAll x.inputs.toList : Outcome Exn Ptree) = .ok ins ∧ 0 < x.inputs.size ∧
      s'.1.inputs = setItem x.id ins s.1.inputs

theorem addInstance_spec {name file : Str} {outputs : Dict (List Edge)} {n k : Nat} {done : List Made}
    {s s' : Made × World}
    (h : (definePythonWorker name file outputs n).addInstance order jobId done s k = .ok s') :
    ∃ x, Added order jobId done (definePythonWorker name file outputs n) s s' x := by
  rw [Worker.addInstance, bind_eq_ok] at h
  obtain ⟨req, hreq, h⟩ := h
  obtain ⟨⟨res, x, world⟩, hput, hrest⟩ := bind_eq_ok.mp h
  obtain ⟨hspent, rfl, hok⟩ := put_spec hput
  dsimp only at hrest
  split at hrest
  · cases hrest
  · rename_i hstatus
    obtain ⟨outs, -, hrequest⟩ := request_python hreq
    have hread := @get?_request_python jobId name file k
      (if outs = [] then [] else [("outputs".toList, .node [] outs)])
    rw [← hrequest] at hread
    obtain ⟨proc, hstarted, hreply⟩ :=
      started_of_answer (hok (not_not.mp hstatus)) hread.1 hread.2
    rcases reply_cases hreply with ⟨hsize, hjson⟩ | ⟨ins, hins, hsize, hjson⟩
    · rw [hjson, (item_reply x.id .empty).1.1, (item_reply x.id .empty).1.2] at hrest
      cases hrest
      exact ⟨x, ⟨k, hreq⟩, ⟨proc, hstarted⟩, hspent, rfl, rfl, .inl ⟨hsize, rfl⟩⟩
    · obtain ⟨-, hid, hknown, hinputs⟩ := item_reply x.id ins
      rw [hjson, hid, hknown, hinputs] at hrest
      cases hrest
      exact ⟨x, ⟨k, hreq⟩, ⟨proc, hstarted⟩, hspent, rfl, rfl, .inr ⟨ins, hins, hsize, rfl⟩⟩

/-! ### A worker -/

/-- The subtree of the inputs in the reply to a request, under the id of the instance. -/
def InputsOf (x : Put) (entry : Str × Ptree) : Prop :=
  entry.1 = x.id ∧ (Ptree.empty.putAll x.inputs.toList : Outcome Exn Ptree) = .ok entry.2

/-- A worker that has been made: its instances have distinct ids, each was asked for with the inputs of
the workers before it, and the dictionary of the inputs has the instances that report some. -/
structure MadeFor (order : Order) (jobId : Str) (done : List Made) (w : Worker) (made : Made) :
    Prop where
  asked : ∀ x ∈ made.puts, ∃ self k, w.request order (getInputs done self) jobId k = .ok x.request
  started : ∀ x ∈ made.puts, ∃ proc, x.Started proc
  ids : made.ids = made.puts.map Put.id
  distinct : (made.puts.map Put.id).Nodup
  inputs : List.Forall₂ InputsOf (made.puts.filter fun x => x.inputs.size ≠ 0) made.inputs

/-- Some of the instances of a worker have been made, with the first of the ids that are given. -/
structure Making (order : Order) (jobId : Str) (done : List Made) (w : Worker) (ids : List Str)
    (s : Made × World) : Prop where
  made : MadeFor order jobId done w s.1
  spent : s.1.puts.map Put.id ++ s.2.exchanges.map Exchange.id = ids

variable {done : List Made} {w : Worker} {ids : List Str} {s s' : Made × World} {x : Put}

theorem keys_inputs {made : Made} (h : MadeFor order jobId done w made) :
    made.inputs.map Prod.fst = (made.puts.filter fun x => x.inputs.size ≠ 0).map Put.id := by
  rw [← List.forall₂_eq_eq_eq, List.forall₂_map_left_iff, List.forall₂_map_right_iff]
  exact h.inputs.flip.imp fun e x he => he.1

theorem Added.new (h : Added order jobId done w s s' x) (hs : Making order jobId done w ids s)
    (hids : ids.Nodup) : x.id ∉ s.1.puts.map Put.id := by
  intro hmem
  rw [← hs.spent, h.spent, List.nodup_append] at hids
  exact hids.2.2 x.id hmem x.id List.mem_cons_self rfl

theorem Added.making (h : Added order jobId done w s s' x) (hs : Making order jobId done w ids s)
    (hids : ids.Nodup) : Making order jobId done w ids s' := by
  have hspent : s'.1.puts.map Put.id ++ s'.2.exchanges.map Exchange.id = ids := by
    rw [h.puts, List.map_append, List.append_assoc, ← hs.spent, h.spent]
    rfl
  have hnew := h.new hs hids
  have hfilter : s'.1.puts.filter (fun x => x.inputs.size ≠ 0) =
      s.1.puts.filter (fun x => x.inputs.size ≠ 0) ++ [x].filter fun x => x.inputs.size ≠ 0 := by
    rw [h.puts, List.filter_append]
  refine ⟨⟨?_, ?_, ?_, ?_, ?_⟩, hspent⟩
  · rw [h.puts, List.forall_mem_append]
    refine ⟨hs.made.asked, ?_⟩
    rw [List.forall_mem_singleton]
    exact ⟨s.1, h.asked⟩
  · rw [h.puts, List.forall_mem_append]
    refine ⟨hs.made.started, ?_⟩
    rw [List.forall_mem_singleton]
    exact h.started
  · rw [h.ids, hs.made.ids, h.puts, List.map_append]
    rfl
  · rw [← hspent, List.nodup_append] at hids
    exact hids.1
  · rw [hfilter]
    rcases h.inputs with ⟨hsize, hinputs⟩ | ⟨ins, hins, hsize, hinputs⟩
    · rw [hinputs, List.filter_cons_of_neg (by simp [hsize]), List.filter_nil, List.append_nil]
      exact hs.made.inputs
    · have hlookup : lookup x.id s.1.inputs = none := by
        refine lookup_eq_none fun hmem => hnew ?_
        rw [keys_inputs hs.made] at hmem
        obtain ⟨y, hy, heq⟩ := List.mem_map.mp hmem
        exact List.mem_map.mpr ⟨y, List.mem_of_mem_filter hy, heq⟩
      have hone : [x].filter (fun x => x.inputs.size ≠ 0) = [x] :=
        List.filter_eq_self.mpr fun y hy => by
          rw [List.mem_singleton.mp hy]
          exact decide_eq_true (by omega)
      rw [hinputs, setItem, upsert_of_lookup_none _ hlookup, hone]
      exact List.rel_append hs.made.inputs (.cons ⟨rfl, hins⟩ .nil)

/-- A worker that `define_python_worker` makes. -/
def IsPython (w : Worker) : Prop := ∃ name file outputs n, w = definePythonWorker name file outputs n

/-- `Worker.implement` makes as many instances as it is asked for. -/
theorem implement_spec (hw : IsPython w) {world world' : World} {made : Made}
    (h : w.implement order jobId done world = .ok (made, world'))
    (hids : (world.exchanges.map Exchange.id).Nodup) :
    Making order jobId done w (world.exchanges.map Exchange.id) (made, world') ∧
      made.puts.length = w.parallelism := by
  obtain ⟨name, file, outputs, n, rfl⟩ := hw
  have hrun := run_of_foldlM h
  have hstart : Making order jobId done (definePythonWorker name file outputs n)
      (world.exchanges.map Exchange.id) ({}, world) :=
    ⟨⟨by simp, by simp, rfl, .nil, .nil⟩, rfl⟩
  refine ⟨hrun.invariant (fun s k s' hs hstep => ?_) hstart, ?_⟩
  · obtain ⟨x, hx⟩ := addInstance_spec hstep
    exact hx.making hs hids
  · have hcount := hrun.count (f := fun s => s.1.puts.length) fun s k s' hstep => by
      obtain ⟨x, hx⟩ := addInstance_spec hstep
      rw [hx.puts, List.length_append]
      rfl
    rw [List.length_range] at hcount
    exact hcount.trans (Nat.zero_add _)

/-! ### A job -/

/-- The workers of a job that have been made, each from those before it. -/
structure JobMade (order : Order) (jobId : Str) (workers : List Worker) (done : List Made) : Prop where
  length : done.length = workers.length
  made : ∀ j made, done[j]? = some made → ∃ w, workers[j]? = some w ∧
    MadeFor order jobId (done.take j) w made ∧ made.puts.length = w.parallelism

theorem JobMade.exists_made {workers : List Worker} (h : JobMade order jobId workers done) {j k : Nat}
    (hw : workers[j]? = some w) (hk : k ≤ j) : ∃ made, done[k]? = some made := by
  have hj := (List.getElem?_eq_some_iff.mp hw).1
  exact ⟨_, List.getElem?_eq_getElem (by rw [h.length]; omega)⟩

theorem addWorkers_spec {workers : List Worker} (hworkers : ∀ w ∈ workers, IsPython w)
    {world : World} (hids : (world.exchanges.map Exchange.id).Nodup) {s : List Made × World}
    (h : Run (fun s v s' => addWorker order jobId s v = .ok s') ([], world) workers s) :
    JobMade order jobId workers s.1 ∧ (s.2.exchanges.map Exchange.id).Nodup := by
  induction h with
  | nil => exact ⟨⟨rfl, by simp⟩, hids⟩
  | @snoc s s' workers w hrun hstep ih =>
    obtain ⟨hjob, hrest⟩ := ih fun v hv => hworkers v (List.mem_append_left _ hv)
    obtain ⟨⟨made, world'⟩, himplement, hs'⟩ := bind_eq_ok.mp hstep
    cases hs'
    obtain ⟨hmaking, hcount⟩ := implement_spec (hworkers w (by simp)) himplement hrest
    refine ⟨⟨?_, fun j made' hj => ?_⟩, ?_⟩
    · rw [List.length_append, List.length_append, hjob.length]
      rfl
    · rcases Nat.lt_or_ge j s.1.length with hlt | hge
      · rw [List.getElem?_append_left hlt] at hj
        obtain ⟨v, hv, hmade⟩ := hjob.made j made' hj
        refine ⟨v, ?_, ?_⟩
        · rw [List.getElem?_append_left (hjob.length ▸ hlt)]
          exact hv
        · rw [List.take_append_of_le_length hlt.le]
          exact hmade
      · rw [List.getElem?_append_right hge, List.getElem?_singleton] at hj
        split at hj
        · rename_i hj0
          cases hj
          have heq : j = s.1.length := by omega
          refine ⟨w, ?_, ?_⟩
          · rw [heq, hjob.length, List.getElem?_append_right (Nat.le_refl _), Nat.sub_self]
            rfl
          · rw [heq, List.take_left]
            exact ⟨hmaking.made, hcount⟩
        · cases hj
    · have hspent := hmaking.spent
      rw [← hspent, List.nodup_append] at hrest
      exact hrest.2.1

/-- What `Job.implement` leaves behind. -/
theorem implement_job_spec {job : Job} (hworkers : ∀ w ∈ job.workers, IsPython w) {world : World}
    (hids : (world.exchanges.map Exchange.id).Nodup) {r : Str × List Made × World}
    (h : job.implement order world = .ok r) : JobMade order r.1 job.workers r.2.1 := by
  obtain ⟨⟨res, x, world'⟩, hput, h⟩ := bind_eq_ok.mp h
  obtain ⟨hspent, -, -⟩ := put_spec hput
  dsimp only at h
  split at h
  · cases h
  · obtain ⟨v, -, h⟩ := bind_eq_ok.mp h
    obtain ⟨id, -, h⟩ := bind_eq_ok.mp h
    obtain ⟨⟨done, world''⟩, hloop, h⟩ := bind_eq_ok.mp h
    cases h
    rw [hspent, List.nodup_cons] at hids
    exact (addWorkers_spec hworkers hids.2 (run_of_foldlM hloop)).1

end Python

end Wye
