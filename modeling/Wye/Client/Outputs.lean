import Wye.Base.Maps
import Wye.Process.Run

/-!
# `parse_outputs`

What a worker makes of its arguments: `parse_outputs` of the Python package turns every argument
`name:addr,addr,...` into a socket that is connected to the addresses. It gives back the outputs that
`init_process` has turned into arguments exactly when the separators do not occur in names and
addresses and nothing is empty (`script_outputs_iff`).

Which endpoints `connect` takes is up to zmq; here it is a parameter.
-/

namespace Wye

open Text PropertyTree Loops

/-- The exceptions of the Python side. -/
inductive PyError where
  | attributeError (name : Str)
  | connectionError
  | indexError
  | keyError (key : Str)
  | typeError
  | runtimeError (what : Str)
  | zmqError (endpoint : Str)
  deriving DecidableEq, Repr

/-- A socket: the endpoints it is connected to. -/
abbrev Socket := List Str

/-- The dictionary that `parse_outputs` returns. -/
abbrev Sockets := Std.ExtTreeMap Str (List Socket) compare

namespace Python

variable (accepts : Str → Bool)

/-- The loop that connects a socket. -/
def connectAll : List Str → Except PyError Socket
  | [] => .ok []
  | v :: outs =>
    if accepts v then (connectAll outs).map fun skt => v :: skt else .error (.zmqError v)

/-- One turn of the loop of `parse_outputs`: the name and the socket of an argument. -/
def parseOutput (arg : Str) : Except PyError (Str × Socket) :=
  match splitOnce ':' arg with
  | name :: outs :: _ => (connectAll accepts (outs.splitOn ',')).map fun skt => (name, skt)
  | _ => .error .indexError

/-- The loop of `parse_outputs`. -/
def parseLoop (sockets : Sockets) : List Str → Except PyError Sockets
  | [] => .ok sockets
  | arg :: args =>
    match parseOutput accepts arg with
    | .error e => .error e
    | .ok (name, skt) =>
      parseLoop (sockets.insert name ((sockets[name]?).getD [] ++ [skt])) args

/-- `wye.parse_outputs`. -/
def parseOutputs (args : List Str) : Except PyError Sockets := parseLoop accepts ∅ args

variable {accepts}

/-! ### One argument -/

theorem connectAll_eq_ok {outs : List Str} {skt : Socket} :
    connectAll accepts outs = .ok skt ↔ skt = outs ∧ ∀ v ∈ outs, accepts v = true := by
  induction outs generalizing skt with
  | nil =>
    rw [connectAll, Except.ok.injEq, eq_comm]
    exact (and_iff_left fun _ hv => absurd hv List.not_mem_nil).symm
  | cons v outs ih =>
    rw [connectAll]
    by_cases hv : accepts v = true
    · rw [if_pos hv]
      cases hrest : connectAll accepts outs with
      | error e =>
        refine iff_of_false (fun h => by cases h) ?_
        rintro ⟨-, hall⟩
        have hok := ih.mpr ⟨rfl, fun w hw => hall w (List.mem_cons_of_mem v hw)⟩
        cases hrest.symm.trans hok
      | ok rest =>
        obtain ⟨rfl, hall⟩ := ih.mp hrest
        constructor
        · intro h
          cases h
          exact ⟨rfl, List.forall_mem_cons.mpr ⟨hv, hall⟩⟩
        · rintro ⟨rfl, -⟩
          rfl
    · rw [if_neg hv]
      refine iff_of_false (fun h => by cases h) ?_
      rintro ⟨-, hall⟩
      exact hv (hall v List.mem_cons_self)

theorem parseOutput_outputArg {name : Str} (hname : ':' ∉ name) (a : Address) (x : Str × Socket) :
    parseOutput accepts (outputArg name a) = .ok x ↔
      x = (name, (join ',' a).splitOn ',') ∧ ∀ v ∈ (join ',' a).splitOn ',', accepts v = true := by
  have hsplit : splitOnce ':' (outputArg name a) = [name, join ',' a] := by
    rw [outputArg, List.append_assoc]
    exact splitOnce_append_cons hname _
  rw [parseOutput, hsplit]
  dsimp only
  constructor
  · intro h
    cases hskt : connectAll accepts ((join ',' a).splitOn ',') with
    | error e =>
      rw [hskt] at h
      cases h
    | ok skt =>
      obtain ⟨rfl, hall⟩ := connectAll_eq_ok.mp hskt
      rw [hskt] at h
      cases h
      exact ⟨rfl, hall⟩
  · rintro ⟨rfl, hall⟩
    rw [connectAll_eq_ok.mpr ⟨rfl, hall⟩]
    rfl

theorem notMem_of_parseOutput {arg : Str} {x : Str × Socket} (h : parseOutput accepts arg = .ok x) :
    ':' ∉ x.1 := by
  rw [parseOutput, splitOnce] at h
  by_cases hc : ':' ∈ arg
  · rw [if_pos hc] at h
    dsimp only at h
    cases hskt : connectAll accepts (((arg.dropWhile (· ≠ ':')).tail).splitOn ',') with
    | error e =>
      rw [hskt] at h
      cases h
    | ok skt =>
      rw [hskt] at h
      cases h
      intro hmem
      have hne := List.mem_takeWhile_imp hmem
      exact absurd rfl (of_decide_eq_true hne)
  · rw [if_neg hc] at h
    cases h

theorem notMem_of_forall₂ {args : List Str} {xs : List (Str × Socket)}
    (h : List.Forall₂ (fun arg x => parseOutput accepts arg = .ok x) args xs) :
    ∀ x ∈ xs, ':' ∉ x.1 := by
  induction h with
  | nil => exact fun x hx => absurd hx List.not_mem_nil
  | cons hx _ ih => exact List.forall_mem_cons.mpr ⟨notMem_of_parseOutput hx, ih⟩

/-! ### All arguments -/

/-- The loop parses every argument and collects the sockets of each name. -/
theorem parseLoop_eq_ok {args : List Str} {sockets r : Sockets} :
    parseLoop accepts sockets args = .ok r ↔
      ∃ xs, List.Forall₂ (fun arg x => parseOutput accepts arg = .ok x) args xs ∧
        r = xs.foldl (fun m x => m.insert x.1 ((m[x.1]?).getD [] ++ [x.2])) sockets := by
  induction args generalizing sockets with
  | nil =>
    rw [parseLoop, Except.ok.injEq, eq_comm]
    constructor
    · rintro rfl
      exact ⟨[], .nil, rfl⟩
    · rintro ⟨xs, hxs, rfl⟩
      cases hxs
      rfl
  | cons arg args ih =>
    rw [parseLoop]
    cases harg : parseOutput accepts arg with
    | error e =>
      refine iff_of_false (fun h => by cases h) ?_
      rintro ⟨xs, hxs, -⟩
      cases hxs with
      | cons hx _ => cases harg.symm.trans hx
    | ok x =>
      dsimp only
      rw [ih]
      constructor
      · rintro ⟨xs, hxs, rfl⟩
        exact ⟨x :: xs, .cons harg hxs, rfl⟩
      · rintro ⟨xs, hxs, rfl⟩
        cases hxs with
        | cons hx hxs =>
          cases harg.symm.trans hx
          exact ⟨_, hxs, rfl⟩

theorem get_of_parseOutputs {args : List Str} {r : Sockets} (h : parseOutputs accepts args = .ok r) :
    ∃ xs, List.Forall₂ (fun arg x => parseOutput accepts arg = .ok x) args xs ∧
      ∀ name : Str, r[name]? =
        if Maps.valuesOf xs name = [] then none else some (Maps.valuesOf xs name) := by
  obtain ⟨xs, hxs, rfl⟩ := parseLoop_eq_ok.mp h
  exact ⟨xs, hxs, fun name => Maps.get_appendAll xs name⟩

/-! ### What has been encoded -/

/-- The groups of all names, one after another. -/
def groups (outputs : Outputs) : List (Str × Address) :=
  outputs.toList.flatMap fun i => i.2.map fun j => (i.1, j)

theorem outputArgs_eq (outputs : Outputs) :
    outputArgs outputs = (groups outputs).map fun g => outputArg g.1 g.2 := by
  rw [outputArgs, groups, List.map_flatMap]
  simp only [List.map_map]
  rfl

theorem valuesOf_groups {outputs : Outputs} {name : Str} {al : AddressList}
    (h : outputs[name]? = some al) : Maps.valuesOf (groups outputs) name = al :=
  Maps.valuesOf_spread (Maps.nodup_keys outputs) (Maps.mem_toList.mpr h)

theorem mem_groups {outputs : Outputs} {name : Str} {j : Address} :
    (name, j) ∈ groups outputs ↔ ∃ al, outputs[name]? = some al ∧ j ∈ al := by
  rw [groups, List.mem_flatMap]
  constructor
  · rintro ⟨i, hi, hj⟩
    obtain ⟨j', hj', heq⟩ := List.mem_map.mp hj
    cases heq
    exact ⟨i.2, Maps.mem_toList.mp hi, hj'⟩
  · rintro ⟨al, hal, hj⟩
    exact ⟨(name, al), Maps.mem_toList.mpr hal, List.mem_map.mpr ⟨j, hj, rfl⟩⟩

theorem forall₂_parse {gs : List (Str × Address)} (hcolon : ∀ g ∈ gs, ':' ∉ g.1)
    {xs : List (Str × Socket)} :
    List.Forall₂ (fun arg x => parseOutput accepts arg = .ok x)
        (gs.map fun g => outputArg g.1 g.2) xs ↔
      xs = gs.map (fun g => (g.1, (join ',' g.2).splitOn ',')) ∧
        ∀ g ∈ gs, ∀ v ∈ (join ',' g.2).splitOn ',', accepts v = true := by
  induction gs generalizing xs with
  | nil =>
    constructor
    · intro h
      cases h
      exact ⟨rfl, fun _ hg => absurd hg List.not_mem_nil⟩
    · rintro ⟨rfl, -⟩
      exact .nil
  | cons g gs ih =>
    have hg : ∀ x, parseOutput accepts (outputArg g.1 g.2) = .ok x ↔ _ :=
      parseOutput_outputArg (hcolon g List.mem_cons_self) g.2
    have hrest := hcolon
    rw [List.forall_mem_cons] at hrest
    constructor
    · intro h
      cases h with
      | cons hx hxs =>
        obtain ⟨rfl, hall⟩ := (hg _).mp hx
        obtain ⟨rfl, halls⟩ := (ih hrest.2).mp hxs
        exact ⟨rfl, List.forall_mem_cons.mpr ⟨hall, halls⟩⟩
    · rintro ⟨rfl, hall⟩
      obtain ⟨hfirst, halls⟩ := List.forall_mem_cons.mp hall
      exact .cons ((hg _).mpr ⟨rfl, hfirst⟩) ((ih hrest.2).mpr ⟨rfl, halls⟩)

theorem forall_groups {P : Str → Prop} {outputs : Outputs}
    (h : ∀ (name : Str) al, outputs[name]? = some al → P name) : ∀ g ∈ groups outputs, P g.1 := by
  intro g hg
  obtain ⟨al, hal, -⟩ := mem_groups.mp hg
  exact h g.1 al hal

theorem forall₂_outputArgs {outputs : Outputs}
    (hnames : ∀ (name : Str) al, outputs[name]? = some al → ':' ∉ name) {xs : List (Str × Socket)} :
    List.Forall₂ (fun arg x => parseOutput accepts arg = .ok x) (outputArgs outputs) xs ↔
      xs = (groups outputs).map (fun g => (g.1, (join ',' g.2).splitOn ',')) ∧
        ∀ g ∈ groups outputs, ∀ v ∈ (join ',' g.2).splitOn ',', accepts v = true := by
  rw [outputArgs_eq]
  exact forall₂_parse (forall_groups hnames)

theorem script_args {p : Ptree} {self proc : Process}
    (h : pythonInit p self = .ok proc ∨ luaInit p self = .ok proc) :
    proc.args.drop 2 = outputArgs proc.outputs := by
  have hscript : ∀ exec interpreter, initScript exec interpreter p self = .ok proc →
      proc.args.drop 2 = outputArgs proc.outputs := by
    intro exec interpreter h
    simp only [initScript, bind_eq_ok] at h
    obtain ⟨file, -, jobId, -, h⟩ := h
    cases h
    rfl
  rcases h with h | h
  · exact hscript _ _ h
  · exact hscript _ _ h

variable (accepts) in
/-- The separators do not occur, nothing is empty, and zmq takes every address. -/
def Decodable (outputs : Outputs) : Prop :=
  ∀ (name : Str) al, outputs[name]? = some al → ':' ∉ name ∧ al ≠ [] ∧
    ∀ a ∈ al, a ≠ [] ∧ ∀ addr ∈ a, ',' ∉ addr ∧ accepts addr = true

instance (accepts : Str → Bool) (outputs : Outputs) : Decidable (Decodable accepts outputs) :=
  decidable_of_iff (∀ i ∈ outputs.toList, ':' ∉ i.1 ∧ i.2 ≠ [] ∧
      ∀ a ∈ i.2, a ≠ [] ∧ ∀ addr ∈ a, ',' ∉ addr ∧ accepts addr = true)
    ⟨fun h name al hal => h (name, al) (Maps.mem_toList.mpr hal),
      fun h i hi => h i.1 i.2 (Maps.mem_toList.mp hi)⟩

theorem decodable_of_parseOutputs {outputs : Outputs}
    (h : parseOutputs accepts (outputArgs outputs) = .ok outputs) : Decodable accepts outputs := by
  obtain ⟨xs, hxs, hget⟩ := get_of_parseOutputs h
  have hvalues : ∀ (name : Str) al, outputs[name]? = some al →
      Maps.valuesOf xs name ≠ [] ∧ al = Maps.valuesOf xs name := by
    intro name al hal
    rw [hget] at hal
    split at hal
    · cases hal
    · rename_i hne
      exact ⟨hne, (Option.some.inj hal).symm⟩
  -- a name that comes back is the name of an argument
  have hnames : ∀ (name : Str) al, outputs[name]? = some al → ':' ∉ name := by
    intro name al hal
    have hmem : name ∈ xs.map Prod.fst := by
      by_contra hno
      exact (hvalues name al hal).1 (Maps.valuesOf_eq_nil.mpr hno)
    obtain ⟨x, hx, rfl⟩ := List.mem_map.mp hmem
    exact notMem_of_forall₂ hxs x hx
  obtain ⟨rfl, hall⟩ := (forall₂_outputArgs hnames).mp hxs
  intro name al hal
  obtain ⟨hne, heq⟩ := hvalues name al hal
  have hgroups := valuesOf_groups hal
  rw [Maps.valuesOf_map_snd (fun j => (join ',' j).splitOn ','), hgroups] at hne heq
  refine ⟨hnames name al hal, fun hnil => hne (by rw [hnil]; rfl), fun a ha => ?_⟩
  have ha' : (join ',' a).splitOn ',' = a :=
    List.map_inj_left.mp (heq.symm.trans (List.map_id al).symm) a ha
  have hg : (name, a) ∈ groups outputs := mem_groups.mpr ⟨al, hal, ha⟩
  obtain ⟨hane, hsep⟩ := splitOn_join_iff.mp ha'
  exact ⟨hane, fun addr haddr => ⟨hsep addr haddr, hall _ hg addr (by rw [ha']; exact haddr)⟩⟩

theorem parseOutputs_of_decodable {outputs : Outputs} (h : Decodable accepts outputs) :
    parseOutputs accepts (outputArgs outputs) = .ok outputs := by
  have hsplit : ∀ g ∈ groups outputs, (join ',' g.2).splitOn ',' = g.2 := by
    intro g hg
    obtain ⟨al, hal, hj⟩ := mem_groups.mp hg
    obtain ⟨hne, haddr⟩ := (h g.1 al hal).2.2 g.2 hj
    exact splitOn_join_iff.mpr ⟨hne, fun addr haddr' => (haddr addr haddr').1⟩
  have hxs : List.Forall₂ (fun arg x => parseOutput accepts arg = .ok x) (outputArgs outputs)
      (groups outputs) := by
    refine (forall₂_outputArgs fun name al hal => (h name al hal).1).mpr ⟨?_, fun g hg v hv => ?_⟩
    · refine ((List.map_id _).symm.trans (List.map_inj_left.mpr fun g hg => ?_))
      rw [hsplit g hg]
      rfl
    · obtain ⟨al, hal, hj⟩ := mem_groups.mp hg
      rw [hsplit g hg] at hv
      exact (((h g.1 al hal).2.2 g.2 hj).2 v hv).2
  refine parseLoop_eq_ok.mpr ⟨_, hxs, Std.ExtTreeMap.ext_getElem? fun name => ?_⟩
  rw [Maps.get_appendAll]
  cases hal : outputs[name]? with
  | none =>
    rw [if_pos]
    refine Maps.valuesOf_eq_nil.mpr fun hmem => ?_
    obtain ⟨g, hg, rfl⟩ := List.mem_map.mp hmem
    obtain ⟨al, hal', -⟩ := mem_groups.mp hg
    cases hal.symm.trans hal'
  | some al =>
    rw [valuesOf_groups hal, if_neg (h name al hal).2.1]

/-- A worker of a script gets its outputs back exactly when they can be decoded. -/
theorem script_outputs_iff (accepts : Str → Bool) {p : Ptree} {self proc : Process}
    (h : pythonInit p self = .ok proc ∨ luaInit p self = .ok proc) :
    parseOutputs accepts (proc.args.drop 2) = .ok proc.outputs ↔ Decodable accepts proc.outputs := by
  rw [script_args h]
  exact ⟨decodable_of_parseOutputs, parseOutputs_of_decodable⟩

/-- A request for a worker of any model, with outputs. -/
def workerRequest (outputs : List (Str × AddressList)) : Ptree :=
  .node [] ([("exe".toList, "/bin/worker".toList), ("file".toList, "worker.py".toList),
      ("job_id".toList, "job".toList)].map (fun f => (f.1, .leaf f.2)) ++
    [("outputs".toList, .node [] (outputs.map fun o => (o.1, addressTree o.2)))])

/-- A request with one output, for a socket that is connected to two addresses, and one more. -/
def twoGroups : Ptree := workerRequest
  [("output".toList, [["ipc://a".toList, "ipc://b".toList], ["ipc://c".toList]])]

theorem script_outputs_two_groups : ∃ proc,
    pythonInit twoGroups { model := .python, id := [] } = .ok proc ∧
    parseOutputs (· ≠ []) (proc.args.drop 2) = .ok proc.outputs := by
  obtain ⟨proc, hproc⟩ : ∃ proc, pythonInit twoGroups { model := .python, id := [] } = .ok proc :=
    ⟨_, rfl⟩
  have hdecodable : Decodable (· ≠ []) proc.outputs := by
    rw [(initScript_spec hproc).outputs]
    decide +kernel
  exact ⟨proc, hproc, (script_outputs_iff _ (.inl hproc)).mpr hdecodable⟩

/-- A name without a group leaves no argument, and the worker does not know it. -/
theorem not_script_outputs : ¬ ∀ (accepts : Str → Bool) (p : Ptree) (self proc : Process),
    pythonInit p self = .ok proc ∨ luaInit p self = .ok proc →
      parseOutputs accepts (proc.args.drop 2) = .ok proc.outputs := by
  intro h
  have hout := h (fun _ => true) (workerRequest [("output".toList, [])])
    { model := .python, id := [] } _ (.inl rfl)
  exact absurd hout (by decide +kernel)

/-! ### What reaches the worker -/

/-- The endpoints of the socket of a group whose argument has gone through `execve`. -/
def endpoints (a : Address) : Socket := (cString (join ',' a)).splitOn ','

theorem cString_outputArg {name : Str} (h : Char.ofNat 0 ∉ name) (a : Address) :
    cString (outputArg name a) = outputArg name [cString (join ',' a)] := by
  have hcolon : ∀ b : Address, outputArg name b = name ++ ':' :: join ',' b := by
    intro b
    rw [outputArg, List.append_assoc]
    rfl
  rw [hcolon, hcolon, cString_append_cons h (by decide), join_singleton]

theorem received_eq {outputs : Outputs}
    (hnul : ∀ (name : Str) al, outputs[name]? = some al → Char.ofNat 0 ∉ name) :
    (outputArgs outputs).map cString =
      ((groups outputs).map fun g => (g.1, [cString (join ',' g.2)])).map
        fun g => outputArg g.1 g.2 := by
  rw [outputArgs_eq, List.map_map, List.map_map]
  exact List.map_congr_left fun g hg => cString_outputArg (forall_groups hnul g hg) g.2

theorem forall₂_received {outputs : Outputs}
    (hnames : ∀ (name : Str) al, outputs[name]? = some al → ':' ∉ name ∧ Char.ofNat 0 ∉ name)
    {xs : List (Str × Socket)} :
    List.Forall₂ (fun arg x => parseOutput accepts arg = .ok x) ((outputArgs outputs).map cString) xs ↔
      xs = (groups outputs).map (fun g => (g.1, endpoints g.2)) ∧
        ∀ g ∈ groups outputs, ∀ v ∈ endpoints g.2, accepts v = true := by
  have hcolon : ∀ g ∈ (groups outputs).map fun g => (g.1, [cString (join ',' g.2)]), ':' ∉ g.1 := by
    intro g hg
    obtain ⟨g', hg', rfl⟩ := List.mem_map.mp hg
    exact forall_groups (fun name al hal => (hnames name al hal).1) g' hg'
  have hsplit : ∀ a : Address, (join ',' [cString (join ',' a)]).splitOn ',' = endpoints a := by
    intro a
    rw [join_singleton]
    rfl
  rw [received_eq fun name al hal => (hnames name al hal).2, forall₂_parse hcolon, List.map_map,
    List.forall_mem_map]
  simp only [Function.comp_def, hsplit]

theorem get_received {outputs : Outputs}
    (hnames : ∀ (name : Str) al, outputs[name]? = some al → ':' ∉ name ∧ Char.ofNat 0 ∉ name)
    {sockets : Sockets} (h : parseOutputs accepts ((outputArgs outputs).map cString) = .ok sockets)
    {name : Str} {al : AddressList} (hal : outputs[name]? = some al) (hne : al ≠ []) :
    sockets[name]? = some (al.map endpoints) := by
  obtain ⟨xs, hxs, hget⟩ := get_of_parseOutputs h
  obtain ⟨rfl, -⟩ := (forall₂_received hnames).mp hxs
  have hvalues : Maps.valuesOf ((groups outputs).map fun g => (g.1, endpoints g.2)) name =
      al.map endpoints := by
    rw [Maps.valuesOf_map_snd, valuesOf_groups hal]
  rw [hget, hvalues, if_neg fun hnil => hne (List.map_eq_nil_iff.mp hnil)]

theorem exists_parse_received {outputs : Outputs}
    (hnames : ∀ (name : Str) al, outputs[name]? = some al → ':' ∉ name ∧ Char.ofNat 0 ∉ name)
    (hall : ∀ (name : Str) al, outputs[name]? = some al → ∀ a ∈ al, ∀ v ∈ endpoints a,
      accepts v = true) :
    ∃ sockets, parseOutputs accepts ((outputArgs outputs).map cString) = .ok sockets := by
  have hxs := (@forall₂_received accepts outputs hnames _).mpr ⟨rfl, fun g hg => by
    obtain ⟨al, hal, ha⟩ := mem_groups.mp hg
    exact hall g.1 al hal g.2 ha⟩
  exact ⟨_, parseLoop_eq_ok.mpr ⟨_, hxs, rfl⟩⟩

/-! ### Programs and scripts -/

theorem program_args {p : Ptree} {self proc : Process} (h : executableInit p self = .ok proc) :
    proc.args.drop 1 = [] :: outputArgs proc.outputs := by
  simp only [executableInit, initProgram, bind_eq_ok] at h
  obtain ⟨exec, -, -, -, jobId, -, h⟩ := h
  cases h
  rfl

theorem connectAll_ne_indexError (outs : List Str) :
    connectAll accepts outs ≠ .error .indexError := by
  induction outs with
  | nil => exact fun h => by cases h
  | cons v outs ih =>
    rw [connectAll]
    split
    · cases hrest : connectAll accepts outs with
      | ok rest => exact fun h => by cases h
      | error e =>
        rintro h
        cases h
        exact ih hrest
    · exact fun h => by cases h

theorem parseOutput_ne_indexError (name : Str) (a : Address) :
    parseOutput accepts (outputArg name a) ≠ .error .indexError := by
  have hcolon : ':' ∈ outputArg name a := by
    rw [outputArg]
    exact List.mem_append_left _ (List.mem_append_right _ List.mem_cons_self)
  rw [parseOutput, splitOnce, if_pos hcolon]
  dsimp only
  intro h
  cases hskt : connectAll accepts (((outputArg name a).dropWhile (· ≠ ':')).tail.splitOn ',') with
  | ok skt =>
    rw [hskt] at h
    cases h
  | error e =>
    rw [hskt] at h
    cases h
    exact connectAll_ne_indexError _ hskt

theorem parseOutputs_ne_indexError (outputs : Outputs) :
    parseOutputs accepts (outputArgs outputs) ≠ .error .indexError := by
  rw [parseOutputs, outputArgs_eq]
  generalize (∅ : Sockets) = sockets
  induction groups outputs generalizing sockets with
  | nil => exact fun h => by cases h
  | cons g gs ih =>
    rw [List.map_cons, parseLoop]
    split
    · rename_i e he
      intro h
      cases h
      exact parseOutput_ne_indexError g.1 g.2 he
    · exact ih _

variable (accepts) in
/-- A program and a script with the same outputs see the same arguments, the outputs and nothing else,
and start alike. -/
structure StartAlike (program script : Process) : Prop where
  same : program.args.drop 1 = script.args.drop 2
  outputs : program.args.drop 1 = outputArgs program.outputs
  start : parseOutputs accepts (program.args.drop 1) = parseOutputs accepts (script.args.drop 2)

/-- They never do: the program sees an empty argument first, and cannot be started with it. -/
theorem never_startAlike (accepts : Str → Bool) {p q : Ptree} {self self' program script : Process}
    (hprogram : executableInit p self = .ok program)
    (hscript : pythonInit q self' = .ok script ∨ luaInit q self' = .ok script)
    (houtputs : program.outputs = script.outputs) :
    ¬ StartAlike accepts program script ∧
      script.args.drop 2 = outputArgs script.outputs ∧
      program.args.drop 1 = [] :: script.args.drop 2 ∧
      parseOutputs accepts (program.args.drop 1) = .error .indexError ∧
      parseOutputs accepts (script.args.drop 2) ≠ .error .indexError := by
  have hargs := script_args hscript
  have hargs' := program_args hprogram
  rw [houtputs] at hargs'
  refine ⟨fun h => ?_, hargs, hargs'.trans (by rw [hargs]), ?_, ?_⟩
  · have heq := h.outputs
    rw [hargs', houtputs] at heq
    exact absurd (congrArg List.length heq) (by simp)
  · rw [hargs']
    rfl
  · rw [hargs]
    exact parseOutputs_ne_indexError _

theorem never_startAlike_two_groups : ∃ program script,
    executableInit twoGroups { model := .executable, id := [] } = .ok program ∧
    pythonInit twoGroups { model := .python, id := [] } = .ok script ∧
    ¬ StartAlike (· ≠ []) program script := by
  obtain ⟨program, hprogram⟩ :
      ∃ program, executableInit twoGroups { model := .executable, id := [] } = .ok program :=
    ⟨_, rfl⟩
  obtain ⟨script, hscript⟩ :
      ∃ script, pythonInit twoGroups { model := .python, id := [] } = .ok script := ⟨_, rfl⟩
  have houtputs : program.outputs = script.outputs :=
    (initProgram_spec hprogram).outputs.trans (initScript_spec hscript).outputs.symm
  exact ⟨program, script, hprogram, hscript,
    (never_startAlike _ hprogram (.inl hscript) houtputs).1⟩

/-- A program without outputs is started with an empty argument. -/
theorem not_startAlike : ¬ ∀ (accepts : Str → Bool) (p q : Ptree)
    (self self' program script : Process), executableInit p self = .ok program →
      (pythonInit q self' = .ok script ∨ luaInit q self' = .ok script) →
      program.outputs = script.outputs → StartAlike accepts program script := by
  intro h
  have hsame := (h (fun _ => true) (workerRequest []) (workerRequest [])
    { model := .executable, id := [] } { model := .python, id := [] } _ _ rfl (.inl rfl) rfl).same
  exact absurd hsame (by decide +kernel)

end Python

end Wye
