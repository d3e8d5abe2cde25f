import Wye.Client.Implement

/-!
# From inputs to sockets

The addresses that the instances of a worker report go into the replies, from there into the requests of
the workers connected to it, and as arguments to `parse_outputs`. On the way they are written under the
name of the input as a path, put together with commas, and cut at a NUL. Every socket is connected to
the addresses that were reported for its input exactly when these steps give them back
(`wired_iff`).
-/

namespace Wye

open Text Calls PropertyTree Ptree Transition Loops Std

namespace Python

variable {order : Order} {jobId : Str} {accepts : Str → Bool}

/-! ### What replies carry -/

/-- What the reply to a request has for an input. -/
def Put.replied (x : Put) (n : Str) : Option Str := effective x.inputs n

/-- What the replies to the instances of a worker have for an input, in the order in which the
dictionary of the inputs is iterated. -/
def Made.replied (order : Order) (made : Made) (n : Str) : List Str :=
  (order.of (made.puts.map Put.id)).filterMap fun id =>
    (made.puts.find? fun x => x.id = id).bind fun x => x.replied n

/-- What the instances of a worker have reported last for an input. -/
def Made.reported (made : Made) (n : Str) : List Str := made.puts.filterMap fun x => x.inputs[n]?

theorem find?_put {puts : List Put} (h : (puts.map Put.id).Nodup) {x : Put} (hx : x ∈ puts) :
    (puts.find? fun y => y.id = x.id) = some x := by
  induction puts with
  | nil => exact absurd hx List.not_mem_nil
  | cons y puts ih =>
    rw [List.map_cons, List.nodup_cons] at h
    rcases List.mem_cons.mp hx with rfl | hx
    · exact List.find?_cons_of_pos (decide_eq_true rfl)
    · have hne : y.id ≠ x.id := fun heq => h.1 (heq ▸ List.mem_map_of_mem hx)
      rw [List.find?_cons_of_neg (by simpa using hne), ih h.2 hx]

theorem data_item {m : Inputs} {ins c : Ptree} {n v : Str} (hn : Plain n)
    (hins : (Ptree.empty.putAll m.toList : Outcome Exn Ptree) = .ok ins)
    (hv : effective m n = some v) (hitem : item n ins = .ok c) : c.data = v := by
  have hfind : ins.find n = some c := by
    have hunique := (unique_leaf []).putAll hins
    rw [item] at hitem
    split at hitem
    · split at hitem
      · rename_i c' hlookup
        cases hitem
        cases hunique with
        | node hnodup _ =>
          rw [children_node, lookup_reverse hnodup] at hlookup
          exact hlookup
      · cases hitem
    · cases hitem
  have hdata := dataAt_putAll_map hins (dangling_plain hn) hv
  rw [components_plain hn, dataAt_cons, hfind] at hdata
  exact Option.some.inj hdata

theorem edgeAddresses_eq {earlier earlier' : List Made} {self made : Made} {w : Worker} {e : Edge}
    {a : Address} (h : EdgeAddresses order (getInputs earlier self) e a)
    (htarget : earlier[e.target]? = some made) (hmade : MadeFor order jobId earlier' w made)
    (hplain : Plain e.input) (hreports : ∀ x ∈ made.puts, e.input ∈ x.inputs) :
    a = made.replied order e.input := by
  obtain ⟨v, hv, rfl⟩ := h
  obtain ⟨ins, hins, hrest⟩ := bind_eq_ok.mp hv
  obtain ⟨was, hwas, hlist⟩ := bind_eq_ok.mp hrest
  rw [getInputs, htarget] at hins
  cases hins
  cases hlist
  rw [mapM_eq_ok] at hwas
  have hkeys : made.inputs.map Prod.fst = made.puts.map Put.id := by
    rw [keys_inputs hmade, List.filter_eq_self.mpr]
    intro x hx
    refine decide_eq_true fun hsize => ?_
    have hmem := hreports x hx
    rw [ExtTreeMap.eq_empty_iff_size_eq_zero.mpr hsize] at hmem
    exact absurd hmem ExtTreeMap.not_mem_empty
  rw [texts_jsonList, Made.replied, ← hkeys]
  refine map_eq_filterMap hwas fun id _ c hc => ?_
  obtain ⟨r, hr, hitem⟩ := bind_eq_ok.mp hc
  have hentry : (id, r) ∈ made.inputs := by
    rw [getItem] at hr
    split at hr
    · rename_i r' hlookup
      cases hr
      exact lookup_mem hlookup
    · cases hr
  obtain ⟨x, hx, rfl, hputAll⟩ := exists_left hmade.inputs hentry
  have hx := List.mem_of_mem_filter hx
  obtain ⟨addr, haddr⟩ := exists_get_of_mem (hreports x hx)
  obtain ⟨v, hv⟩ : ∃ v, effective x.inputs e.input = some v := by
    rw [effective, haddr]
    exact Option.isSome_iff_exists.mp (by simp)
  rw [find?_put hmade.distinct hx, Option.bind_some, Put.replied, hv,
    data_item hplain hputAll hv hitem]

/-! ### Jobs -/

/-- What holds of every edge of a job. -/
def Job.AllEdges (job : Job) (P : Edge → Prop) : Prop :=
  ∀ w ∈ job.workers, ∀ v ∈ w.outputs.entries, ∀ e ∈ v.2, P e

instance (job : Job) (P : Edge → Prop) [DecidablePred P] : Decidable (job.AllEdges P) :=
  inferInstanceAs (Decidable (∀ w ∈ job.workers, ∀ v ∈ w.outputs.entries, ∀ e ∈ v.2, P e))

/-- The jobs that the library is made for: python workers with an instance each at least, output names
that can go into an argument, and edges to inputs of workers that were defined earlier. -/
structure Job.Proper (job : Job) : Prop where
  python : ∀ w ∈ job.workers, IsPython w
  parallelism : ∀ w ∈ job.workers, 1 ≤ w.parallelism
  names : ∀ w ∈ job.workers, ∀ v ∈ w.outputs.entries, ':' ∉ v.1 ∧ Char.ofNat 0 ∉ v.1
  inputs : job.AllEdges fun e => Plain e.input
  earlier : ∀ (j : Nat) (w : Worker), job.workers[j]? = some w →
    ∀ v ∈ w.outputs.entries, ∀ e ∈ v.2, e.target < j

variable (accepts) in
/-- Every instance of the worker that an edge leads to reports the input, with an address that can go
into an argument and that zmq takes. -/
def Reports (done : List Made) (e : Edge) : Prop :=
  ∀ made ∈ done[e.target]?, ∀ x ∈ made.puts, ∃ addr ∈ x.inputs[e.input]?,
    ',' ∉ addr ∧ Char.ofNat 0 ∉ addr ∧ accepts addr = true

instance (done : List Made) : DecidablePred (Reports accepts done) := fun e =>
  inferInstanceAs (Decidable (∀ made ∈ done[e.target]?, ∀ x ∈ made.puts,
    ∃ addr ∈ x.inputs[e.input]?, ',' ∉ addr ∧ Char.ofNat 0 ∉ addr ∧ accepts addr = true))

/-- No instance of the worker that an edge leads to reports the name of the input with a dot behind
it. -/
def Undotted (done : List Made) (e : Edge) : Prop :=
  ∀ made ∈ done[e.target]?, ∀ x ∈ made.puts, x.inputs[e.input ++ ['.']]? = none

instance (done : List Made) : DecidablePred (Undotted done) := fun e =>
  inferInstanceAs (Decidable (∀ made ∈ done[e.target]?, ∀ x ∈ made.puts,
    x.inputs[e.input ++ ['.']]? = none))

variable (accepts) in
/-- The child of an instance gets from its arguments, those that follow the interpreter and the script,
a socket for every edge of an output, in order, and each is connected to what the instances of its target
have reported. -/
def WiredInstance (done : List Made) (w : Worker) (x : Put) : Prop :=
  ∃ child sockets,
    x.after.2.manager.os.children = x.before.manager.os.children ++ [child] ∧ child.owner = x.id ∧
    parseOutputs accepts (child.argv.drop 2) = .ok sockets ∧
    ∀ o ws, (o, ws) ∈ w.outputs.entries → ws ≠ [] → ∃ skts, sockets[(o : Str)]? = some skts ∧
      List.Forall₂ (fun (e : Edge) (skt : Socket) => ∃ made, done[e.target]? = some made ∧
        skt.Perm (made.reported e.input)) ws skts

variable (accepts) in
/-- All workers of a job are there with all their instances, and wired. -/
structure Wired (workers : List Worker) (done : List Made) : Prop where
  length : done.length = workers.length
  instances : ∀ (j : Nat) (w : Worker) (made : Made), workers[j]? = some w → done[j]? = some made →
    made.puts.length = w.parallelism ∧ ∀ x ∈ made.puts, WiredInstance accepts done w x

/-- What the replies carry for an edge, put together with commas and cut at a NUL, splits at the commas
into what was reported. -/
def Carried (order : Order) (done : List Made) (e : Edge) : Prop :=
  ∃ made ∈ done[e.target]?, (endpoints (made.replied order e.input)).Perm (made.reported e.input)

instance (order : Order) (done : List Made) : DecidablePred (Carried order done) := fun e =>
  inferInstanceAs (Decidable (∃ made ∈ done[e.target]?,
    (endpoints (made.replied order e.input)).Perm (made.reported e.input)))

/-- The addresses that the requests have for an edge. -/
def edgeReplied (order : Order) (done : List Made) (e : Edge) : Address :=
  ((done[e.target]?).map fun made => made.replied order e.input).getD []

/-! ### One instance -/

section
variable {job : Job} {done : List Made}

theorem addresses_eq (hjob : job.Proper) (hreports : job.AllEdges (Reports accepts done))
    (hdone : JobMade order jobId job.workers done) {j : Nat} {w : Worker}
    (hw : job.workers[j]? = some w) {self : Made} {v : Str × List Edge}
    (hv : v ∈ w.outputs.entries) {al : AddressList}
    (hal : List.Forall₂ (EdgeAddresses order (getInputs (done.take j) self)) v.2 al) :
    al = v.2.map (edgeReplied order done) := by
  have hmem := List.mem_of_getElem? hw
  refine eq_map hal fun e he a ha => ?_
  have hlt := hjob.earlier j w hw v hv e he
  obtain ⟨made, hmade⟩ := hdone.exists_made hw hlt.le
  have htarget : (done.take j)[e.target]? = some made := by
    rw [List.getElem?_take_of_lt hlt, hmade]
  obtain ⟨w', -, hfor, -⟩ := hdone.made e.target made hmade
  rw [edgeReplied, hmade]
  refine edgeAddresses_eq ha htarget hfor (hjob.inputs w hmem v hv e he) fun x hx => ?_
  obtain ⟨addr, haddr, -⟩ := hreports w hmem v hv e he made hmade x hx
  exact mem_of_get haddr

/-- The outputs that the worker of an instance is made with. -/
structure Connected (order : Order) (done : List Made) (w : Worker) (outputs : Outputs) : Prop where
  found : ∀ v ∈ w.outputs.entries,
    outputs[(v.1 : Str)]? = some (v.2.map (edgeReplied order done))
  only : ∀ (o : Str) al, outputs[o]? = some al → ∃ ws, (o, ws) ∈ w.outputs.entries ∧
    al = ws.map (edgeReplied order done)

theorem instance_child (hjob : job.Proper) (hreports : job.AllEdges (Reports accepts done))
    (hdone : JobMade order jobId job.workers done) {j : Nat} {w : Worker} {made : Made}
    (hw : job.workers[j]? = some w) (hmade : done[j]? = some made) {x : Put} (hx : x ∈ made.puts) :
    ∃ child outputs,
      x.after.2.manager.os.children = x.before.manager.os.children ++ [child] ∧ child.owner = x.id ∧
      child.argv.drop 2 = (outputArgs outputs).map cString ∧ Connected order done w outputs := by
  obtain ⟨w', hw', hfor, -⟩ := hdone.made j made hmade
  cases hw.symm.trans hw'
  obtain ⟨self, k, hrequest⟩ := hfor.asked x hx
  obtain ⟨proc, hinit, pid, hforked⟩ := hfor.started x hx
  have hargs := script_args (.inl hinit)
  have houtputs : proc.outputs = readOutputs x.request := (initScript_spec hinit).outputs
  refine ⟨_, proc.outputs, hforked, rfl, ?_, ?_⟩
  · rw [← hargs]
    exact (List.map_drop (f := cString)).symm
  · obtain ⟨name, file, outs, n, heq⟩ := hjob.python w (List.mem_of_getElem? hw)
    have haddresses := @addresses_eq order jobId accepts job done hjob hreports hdone j w hw self
    rw [heq] at hrequest
    obtain ⟨hfound, honly⟩ := readOutputs_request hrequest
    have hentries : w.outputs.entries = outs.entries := by rw [heq]; rfl
    rw [houtputs]
    refine ⟨fun v hv => ?_, fun o al hal => ?_⟩
    · obtain ⟨al, hal, hedges⟩ := hfound v.1 v.2 (hentries ▸ hv)
      rw [hal, haddresses hv hedges]
    · obtain ⟨ws, hws, hedges⟩ := honly o al hal
      exact ⟨ws, hentries ▸ hws, haddresses (v := (o, ws)) (hentries ▸ hws) hedges⟩

theorem carried_iff {e : Edge} : Carried order done e ↔ ∃ made, done[e.target]? = some made ∧
    (endpoints (edgeReplied order done e)).Perm (made.reported e.input) := by
  refine exists_congr fun made => and_congr_right fun hmade => ?_
  rw [edgeReplied, hmade]
  rfl

/-- An instance is wired exactly when every edge of its worker is carried. -/
theorem wiredInstance_iff (hjob : job.Proper) (hreports : job.AllEdges (Reports accepts done))
    (hdone : JobMade order jobId job.workers done) {j : Nat} {w : Worker} {made : Made}
    (hw : job.workers[j]? = some w) (hmade : done[j]? = some made) {x : Put} (hx : x ∈ made.puts) :
    WiredInstance accepts done w x ↔
      ∀ v ∈ w.outputs.entries, ∀ e ∈ v.2, Carried order done e := by
  obtain ⟨child, outputs, hforked, howner, hargv, hconnected⟩ :=
    instance_child hjob hreports hdone hw hmade hx
  have hmem := List.mem_of_getElem? hw
  have hnames : ∀ (name : Str) al, outputs[name]? = some al → ':' ∉ name ∧ Char.ofNat 0 ∉ name := by
    intro name al hal
    obtain ⟨ws, hws, -⟩ := hconnected.only name al hal
    exact hjob.names w hmem _ hws
  constructor
  · rintro ⟨child', sockets, hforked', -, hparse, hsockets⟩ v hv e he
    obtain rfl : child' = child := by
      have heq := List.append_cancel_left (hforked'.symm.trans hforked)
      exact (List.cons.inj heq).1
    have hne : v.2 ≠ [] := List.ne_nil_of_mem he
    rw [hargv] at hparse
    have hgot := get_received hnames hparse (hconnected.found v hv)
      fun hnil => hne (List.map_eq_nil_iff.mp hnil)
    obtain ⟨skts, hskts, hedges⟩ := hsockets v.1 v.2 hv hne
    cases hgot.symm.trans hskts
    rw [List.forall₂_map_right_iff, List.forall₂_map_right_iff, List.forall₂_same] at hedges
    exact carried_iff.mpr (hedges e he)
  · intro hcarried
    have hall : ∀ (name : Str) al, outputs[name]? = some al → ∀ a ∈ al, ∀ addr ∈ endpoints a,
        accepts addr = true := by
      intro name al hal a ha addr haddr
      obtain ⟨ws, hws, rfl⟩ := hconnected.only name al hal
      obtain ⟨e, he, rfl⟩ := List.mem_map.mp ha
      obtain ⟨target, htarget, hperm⟩ := carried_iff.mp (hcarried _ hws e he)
      obtain ⟨y, hy, hinput⟩ := List.mem_filterMap.mp (hperm.mem_iff.mp haddr)
      obtain ⟨addr', haddr', -, -, haccepts⟩ := hreports w hmem _ hws e he target htarget y hy
      cases hinput.symm.trans haddr'
      exact haccepts
    obtain ⟨sockets, hparse⟩ := exists_parse_received hnames hall
    refine ⟨child, sockets, hforked, howner, hargv ▸ hparse, fun o ws hws hne => ?_⟩
    refine ⟨_, get_received hnames hparse (hconnected.found _ hws)
      fun hnil => hne (List.map_eq_nil_iff.mp hnil), ?_⟩
    rw [List.forall₂_map_right_iff, List.forall₂_map_right_iff, List.forall₂_same]
    exact fun e he => carried_iff.mp (hcarried _ hws e he)

theorem wired_iff (hjob : job.Proper) (hreports : job.AllEdges (Reports accepts done))
    (hdone : JobMade order jobId job.workers done) : Wired accepts job.workers done ↔
      job.AllEdges (Carried order done) := by
  constructor
  · intro hwired w hw
    obtain ⟨j, hj⟩ := List.getElem?_of_mem hw
    obtain ⟨made, hmade⟩ := hdone.exists_made hj (Nat.le_refl j)
    obtain ⟨hcount, hinstances⟩ := hwired.instances j w made hj hmade
    obtain ⟨x, hx⟩ := List.exists_mem_of_length_pos (hcount ▸ hjob.parallelism w hw)
    exact (wiredInstance_iff hjob hreports hdone hj hmade hx).mp (hinstances x hx)
  · intro hcarried
    refine ⟨hdone.length, fun j w made hw hmade => ?_⟩
    obtain ⟨w', hw', -, hcount⟩ := hdone.made j made hmade
    cases hw.symm.trans hw'
    exact ⟨hcount, fun x hx => (wiredInstance_iff hjob hreports hdone hw hmade hx).mpr
      (hcarried w (List.mem_of_getElem? hw))⟩

/-! ### Edges that are carried -/

theorem replied_perm {made : Made} (hdistinct : (made.puts.map Put.id).Nodup) (n : Str) :
    (made.replied order n).Perm (made.puts.filterMap fun x => x.replied n) := by
  refine ((order.perm _).filterMap _).trans (List.Perm.of_eq ?_)
  rw [List.filterMap_map]
  refine List.filterMap_congr fun x hx => ?_
  rw [Function.comp_apply, find?_put hdistinct hx]
  rfl

/-- An edge is carried when no instance of its target reports the name of the input with a dot behind
it, or the dotted name has the same address. -/
theorem carried_of_effective {e : Edge} {made : Made} {w : Worker} {earlier : List Made}
    (hmade : done[e.target]? = some made) (hfor : MadeFor order jobId earlier w made)
    (hne : made.puts ≠ [])
    (hreports : ∀ x ∈ made.puts, ∃ addr, x.inputs[e.input]? = some addr ∧ ',' ∉ addr ∧
      Char.ofNat 0 ∉ addr)
    (heffective : ∀ x ∈ made.puts, effective x.inputs e.input = x.inputs[e.input]?) :
    Carried order done e := by
  have hperm : (made.replied order e.input).Perm (made.reported e.input) := by
    refine (replied_perm hfor.distinct e.input).trans (List.Perm.of_eq ?_)
    exact List.filterMap_congr heffective
  have hclean : ∀ addr ∈ made.replied order e.input, ',' ∉ addr ∧ Char.ofNat 0 ∉ addr := by
    intro addr haddr
    obtain ⟨x, hx, hinput⟩ := List.mem_filterMap.mp (hperm.mem_iff.mp haddr)
    obtain ⟨addr', haddr', hclean⟩ := hreports x hx
    cases hinput.symm.trans haddr'
    exact hclean
  have hsome : made.replied order e.input ≠ [] := by
    intro hnil
    obtain ⟨x, hx⟩ := List.exists_mem_of_ne_nil _ hne
    obtain ⟨addr, haddr, -⟩ := hreports x hx
    have hmem : addr ∈ made.reported e.input := List.mem_filterMap.mpr ⟨x, hx, haddr⟩
    rw [← hperm.mem_iff, hnil] at hmem
    exact absurd hmem List.not_mem_nil
  have hendpoints : endpoints (made.replied order e.input) = made.replied order e.input := by
    rw [endpoints, cString_of_notMem (notMem_join (by decide) fun addr h => (hclean addr h).2)]
    exact splitOn_join_iff.mpr ⟨hsome, fun addr h => (hclean addr h).1⟩
  refine ⟨made, hmade, ?_⟩
  rw [hendpoints]
  exact hperm

theorem carried_of_undotted (hjob : job.Proper) (hreports : job.AllEdges (Reports accepts done))
    (hdone : JobMade order jobId job.workers done) (hundotted : job.AllEdges (Undotted done)) :
    job.AllEdges (Carried order done) := by
  intro w hw v hv e he
  obtain ⟨j, hj⟩ := List.getElem?_of_mem hw
  obtain ⟨made, hmade⟩ := hdone.exists_made hj (hjob.earlier j w hj v hv e he).le
  obtain ⟨target, htarget, hfor, hcount⟩ := hdone.made e.target made hmade
  have hne : made.puts ≠ [] := by
    rw [← List.length_pos_iff, hcount]
    exact hjob.parallelism target (List.mem_of_getElem? htarget)
  refine carried_of_effective hmade hfor hne (fun x hx => ?_) fun x hx => ?_
  · obtain ⟨addr, haddr, hcomma, hnul, -⟩ := hreports w hw v hv e he made hmade x hx
    exact ⟨addr, haddr, hcomma, hnul⟩
  · rw [effective, hundotted w hw v hv e he made hmade x hx]
    rfl

end

/-- A job that has been implemented is wired exactly when what the replies carry for its edges is what
was reported; it is when no target reports the name of the input with a dot behind it. -/
theorem implement_wired {job : Job} (hjob : job.Proper) {world : World}
    (hids : (world.exchanges.map Exchange.id).Nodup) {r : Str × List Made × World}
    (h : job.implement order world = .ok r) (hreports : job.AllEdges (Reports accepts r.2.1)) :
    (Wired accepts job.workers r.2.1 ↔ job.AllEdges (Carried order r.2.1)) ∧
    (job.AllEdges (Undotted r.2.1) → Wired accepts job.workers r.2.1) := by
  have hdone := implement_job_spec hjob.python hids h
  have hiff := wired_iff hjob hreports hdone
  exact ⟨hiff, fun hundotted => hiff.mpr (carried_of_undotted hjob hreports hdone hundotted)⟩

/-- A job with workers of one kind, and one that is connected to inputs of them. -/
def pairJob (sinks : Nat) (edges : List Edge) : Job where
  name := "job".toList
  description := "a job".toList
  workers := [definePythonWorker "sink".toList "sink.py".toList ⟨[], .nil⟩ sinks,
    definePythonWorker "source".toList "source.py".toList ⟨[("output".toList, edges)], by simp⟩ 1]

theorem pairJob_proper {sinks : Nat} {edges : List Edge} (hsinks : 1 ≤ sinks)
    (hedges : ∀ e ∈ edges, e.target = 0 ∧ Plain e.input) : (pairJob sinks edges).Proper where
  python := by
    intro w hw
    rcases List.mem_cons.mp hw with rfl | hw
    · exact ⟨_, _, _, _, rfl⟩
    · exact ⟨_, _, _, _, List.mem_singleton.mp hw⟩
  parallelism := by
    intro w hw
    rcases List.mem_cons.mp hw with rfl | hw
    · exact hsinks
    · rw [List.mem_singleton.mp hw]
      exact le_rfl
  names := by
    intro w hw v hv
    rcases List.mem_cons.mp hw with rfl | hw
    · exact absurd hv List.not_mem_nil
    · rw [List.mem_singleton.mp hw] at hv
      rw [List.mem_singleton.mp hv]
      have hname : ':' ∉ "output".toList ∧ Char.ofNat 0 ∉ "output".toList := by decide
      exact hname
  inputs := by
    intro w hw v hv e he
    rcases List.mem_cons.mp hw with rfl | hw
    · exact absurd hv List.not_mem_nil
    · rw [List.mem_singleton.mp hw] at hv
      rw [List.mem_singleton.mp hv] at he
      exact (hedges e he).2
  earlier := by
    intro j w hw v hv e he
    rcases j with _ | _ | j
    · cases hw
      exact absurd hv List.not_mem_nil
    · cases hw
      rw [List.mem_singleton.mp hv] at he
      rw [(hedges e he).1]
      exact Nat.zero_lt_one
    · cases hw

/-- A service to itself, on which the workers write streams: the sinks, and then the source. -/
def pairWorld (sinks : List (Uuid × Pid × Str)) : World where
  service := {}
  exchanges := ⟨[], { uuid := firstUuid }⟩ ::
    (sinks.map fun x => ⟨[], { uuid := x.1, launch := .child x.2.1 x.2.2 }⟩) ++
    [⟨[], { uuid := secondUuid, launch := .child 7 "RUNNING\n".toList }⟩]

theorem pairWorld_ids {sinks : List (Uuid × Pid × Str)}
    (h : (firstUuid.1 :: sinks.map (·.1.1) ++ [secondUuid.1]).Nodup) :
    ((pairWorld sinks).exchanges.map Exchange.id).Nodup := by
  have hids : (pairWorld sinks).exchanges.map Exchange.id =
      firstUuid.1 :: sinks.map (·.1.1) ++ [secondUuid.1] := by
    simp [pairWorld, Exchange.id, Function.comp_def]
  rw [hids]
  exact h

/-- Whether a job is implemented, and what is left behind passes a check. -/
def passes (r : Except PyError (Str × List Made × World)) (check : List Made → Bool) : Bool :=
  match r with
  | .ok r => check r.2.1
  | .error _ => false

theorem exists_of_passes {x : Except PyError (Str × List Made × World)} {check : List Made → Bool}
    (h : passes x check = true) : ∃ r, x = .ok r ∧ check r.2.1 = true := by
  cases x with
  | ok r => exact ⟨r, rfl, h⟩
  | error e => cases h

def fanEdges : List Edge := [⟨0, "in".toList⟩, ⟨0, "side".toList⟩]

def fanSinks : List (Uuid × Pid × Str) := [
  (thirdUuid, 8, "INPUT:in:tcp://h:1\nINPUT:side:tcp://h:2\nRUNNING\n".toList),
  (fourthUuid, 9, "INPUT:in:tcp://h:3\nINPUT:side:tcp://h:4\nRUNNING\n".toList)]

/-- Two sinks report two inputs each, and the source is connected to all four. -/
theorem implement_wired_fan : ∃ r,
    (pairJob 2 fanEdges).implement .insertion (pairWorld fanSinks) = .ok r ∧
      Wired (· ≠ []) (pairJob 2 fanEdges).workers r.2.1 := by
  have hcheck : passes ((pairJob 2 fanEdges).implement .insertion (pairWorld fanSinks)) (fun done =>
      decide ((pairJob 2 fanEdges).AllEdges (Reports (· ≠ []) done) ∧
        (pairJob 2 fanEdges).AllEdges (Undotted done))) = true := by
    decide +kernel
  obtain ⟨r, hr, hchecked⟩ := exists_of_passes hcheck
  obtain ⟨hreports, hundotted⟩ := of_decide_eq_true hchecked
  exact ⟨r, hr, (implement_wired (pairJob_proper (by decide) (by decide)) (pairWorld_ids (by decide)) hr
    hreports).2 hundotted⟩

/-- The sink reports `in` and `in.`: the source is connected to the address of the latter. -/
theorem not_implement_wired : ¬ ∀ (order : Order) (accepts : Str → Bool) (job : Job) (world : World)
    (r : Str × List Made × World), job.Proper → (world.exchanges.map Exchange.id).Nodup →
      job.implement order world = .ok r → job.AllEdges (Reports accepts r.2.1) →
        Wired accepts job.workers r.2.1 := by
  intro h
  have hproper : (pairJob 1 [⟨0, "in".toList⟩]).Proper := pairJob_proper le_rfl (by decide)
  have hids : ((pairWorld [(thirdUuid, 8,
      "INPUT:in:tcp://h:1\nINPUT:in.:tcp://h:2\nRUNNING\n".toList)]).exchanges.map
        Exchange.id).Nodup := pairWorld_ids (by decide)
  have hcheck : passes ((pairJob 1 [⟨0, "in".toList⟩]).implement .insertion
      (pairWorld [(thirdUuid, 8, "INPUT:in:tcp://h:1\nINPUT:in.:tcp://h:2\nRUNNING\n".toList)]))
        (fun done => decide ((pairJob 1 [⟨0, "in".toList⟩]).AllEdges (Reports (· ≠ []) done) ∧
          ¬ (pairJob 1 [⟨0, "in".toList⟩]).AllEdges (Carried .insertion done))) = true := by
    decide +kernel
  obtain ⟨r, hr, hchecked⟩ := exists_of_passes hcheck
  obtain ⟨hreports, hcarried⟩ := of_decide_eq_true hchecked
  have hwired := h .insertion (· ≠ []) _ _ r hproper hids hr hreports
  have hdone := implement_job_spec hproper.python hids hr
  exact hcarried ((wired_iff hproper hreports hdone).mp hwired)

end Python

end Wye
