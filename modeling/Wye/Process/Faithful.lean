import Wye.Process.Names

/-!
# What a description tells

A reader of a description wants the worker back from it: the arguments, the address of each input, and
the outputs by the loops that have read them from the request. The names of inputs and outputs are
written as paths, and a name is a key again exactly when it is a path of one component
(`Process.faithful_iff`).
-/

namespace Wye

open Text Calls PropertyTree Ptree Std

/-- The subtree under a key; a tree without entries when there is none. -/
def subtree (w : Ptree) (key : Str) : Ptree := (w.getChild? key).getD .empty

/-- A tree that tells the worker: its texts, its arguments in order, one direct child for each of its
inputs, and its outputs as `init_process` reads them. -/
structure Described (proc : Process) (w : Ptree) : Prop where
  id : w.get? "id".toList = some proc.id
  name : (w.get? "name".toList).getD [] = proc.name
  jobId : w.get? "job_id".toList = some proc.jobId
  exec : w.get? "exec".toList = some proc.exec
  state : w.get? "state".toList = some proc.state.text
  args : (subtree w "args".toList).children.map (fun c => c.2.data) = proc.args
  inputs : ((subtree w "inputs".toList).children.map fun c => (c.1, c.2.data)).Perm
    proc.inputs.toList
  outputs : readOutputs w = proc.outputs

/-- `describe` comes back with a tree that tells the worker, and a reply that creates the worker has the
same inputs. -/
def Process.Faithful (proc : Process) : Prop :=
  ∃ w, proc.describe = .ok w ∧ Described proc w ∧
    ∀ (self : Process) (launch : Launch) (os os' : Os) (r : Ptree),
      self.runProcess launch os = (.ok r, proc, os') →
        r.getChild? "inputs".toList = w.getChild? "inputs".toList

namespace Process

variable {proc : Process} {w : Ptree}

/-! ### The entries of a description -/

/-- A description with given subtrees for the inputs and the outputs. -/
def description (proc : Process) (ins outs : Ptree) : Ptree :=
  .node [] (proc.ownEntries ++
    (if proc.inputs.size > 0 then [("inputs".toList, ins)] else []) ++
    (if proc.outputs.size > 0 then [("outputs".toList, outs)] else []))

theorem inputsEntry_of_putAll {ins : Ptree}
    (h : (Ptree.empty.putAll proc.inputs.toList : Outcome Exn Ptree) = .ok ins) :
    proc.inputsEntry = .ok (if proc.inputs.size > 0 then [("inputs".toList, ins)] else []) := by
  rw [inputsEntry, h]
  split <;> rfl

theorem outputsEntry_of_addAll {outs : Ptree}
    (h : (Ptree.empty.addAll (outputTrees proc.outputs) : Outcome Exn Ptree) = .ok outs) :
    proc.outputsEntry = .ok (if proc.outputs.size > 0 then [("outputs".toList, outs)] else []) := by
  rw [outputsEntry, ← outputTrees, h]
  split <;> rfl

theorem toList_of_size {β : Type} {m : ExtTreeMap Str β compare} (h : ¬ m.size > 0) :
    m.toList = [] := by
  rw [← List.length_eq_zero_iff, ExtTreeMap.length_toList]
  omega

theorem putAll_of_inputsEntry {es : List (Str × Ptree)} (h : proc.inputsEntry = .ok es) :
    ∃ ins, (Ptree.empty.putAll proc.inputs.toList : Outcome Exn Ptree) = .ok ins := by
  rw [inputsEntry] at h
  split at h
  · obtain ⟨ins, hins, -⟩ := Outcome.map_eq_ok.mp h
    exact ⟨ins, hins⟩
  · rename_i hsize
    exact ⟨.empty, by rw [toList_of_size hsize]; rfl⟩

theorem addAll_of_outputsEntry {es : List (Str × Ptree)} (h : proc.outputsEntry = .ok es) :
    ∃ outs, (Ptree.empty.addAll (outputTrees proc.outputs) : Outcome Exn Ptree) = .ok outs := by
  rw [outputsEntry] at h
  split at h
  · obtain ⟨outs, houts, -⟩ := Outcome.map_eq_ok.mp h
    exact ⟨outs, houts⟩
  · rename_i hsize
    exact ⟨.empty, by rw [outputTrees, toList_of_size hsize]; rfl⟩

theorem describe_eq_ok_iff : proc.describe = .ok w ↔ ∃ ins outs,
    (Ptree.empty.putAll proc.inputs.toList : Outcome Exn Ptree) = .ok ins ∧
    (Ptree.empty.addAll (outputTrees proc.outputs) : Outcome Exn Ptree) = .ok outs ∧
      w = proc.description ins outs := by
  constructor
  · intro h
    obtain ⟨es, fs, hes, hfs, rfl⟩ := describe_eq_ok h
    obtain ⟨ins, hins⟩ := putAll_of_inputsEntry hes
    obtain ⟨outs, houts⟩ := addAll_of_outputsEntry hfs
    cases hes.symm.trans (inputsEntry_of_putAll hins)
    cases hfs.symm.trans (outputsEntry_of_addAll houts)
    exact ⟨ins, outs, hins, houts, rfl⟩
  · rintro ⟨ins, outs, hins, houts, rfl⟩
    rw [describe_eq, inputsEntry_of_putAll hins, outputsEntry_of_addAll houts]
    rfl

theorem lookup_ownEntries_none {key : Str}
    (h : key ∉ ["id", "name", "job_id", "exec", "state", "args"].map String.toList) :
    lookup key proc.ownEntries = none := by
  refine lookup_eq_none fun hmem => h ?_
  rw [ownEntries] at hmem
  by_cases hname : proc.name = [] <;> by_cases hargs : proc.args = [] <;>
    simp only [hname, hargs, if_true, if_false] at hmem <;> simp at hmem ⊢ <;> tauto

theorem lookup_entry (key k : Str) (t : Ptree) (c : Prop) [Decidable c] :
    lookup key (if c then [(k, t)] else []) = if k = key ∧ c then some t else none := by
  by_cases hc : c <;> by_cases hk : k = key <;> simp [lookup, hc, hk]

theorem getChild?_description {key : Str} (hkey : Plain key) (ins outs : Ptree) :
    (proc.description ins outs).getChild? key =
      ((lookup key proc.ownEntries).or
        (if "inputs".toList = key ∧ proc.inputs.size > 0 then some ins else none)).or
        (if "outputs".toList = key ∧ proc.outputs.size > 0 then some outs else none) := by
  rw [getChild?_plain hkey, Ptree.find, description, children_node, lookup_append, lookup_append,
    lookup_entry, lookup_entry]

theorem getChild?_own {key : Str} (hkey : Plain key) (hinputs : "inputs".toList ≠ key)
    (houtputs : "outputs".toList ≠ key) (ins outs : Ptree) :
    (proc.description ins outs).getChild? key = lookup key proc.ownEntries := by
  rw [getChild?_description hkey, if_neg fun h => hinputs h.1, if_neg fun h => houtputs h.1,
    Option.or_none, Option.or_none]

theorem getChild?_inputs (ins outs : Ptree) :
    (proc.description ins outs).getChild? "inputs".toList =
      if proc.inputs.size > 0 then some ins else none := by
  rw [getChild?_description (by decide), lookup_ownEntries_none (by decide +kernel), Option.none_or,
    if_neg (c := "outputs".toList = "inputs".toList ∧ _) fun h => absurd h.1 (by decide),
    Option.or_none]
  simp only [true_and]

theorem getChild?_outputs (ins outs : Ptree) :
    (proc.description ins outs).getChild? "outputs".toList =
      if proc.outputs.size > 0 then some outs else none := by
  rw [getChild?_description (by decide), lookup_ownEntries_none (by decide +kernel), Option.none_or,
    if_neg (c := "inputs".toList = "outputs".toList ∧ _) fun h => absurd h.1 (by decide),
    Option.none_or]
  simp only [true_and]

theorem subtree_inputs {ins : Ptree} (outs : Ptree)
    (h : (Ptree.empty.putAll proc.inputs.toList : Outcome Exn Ptree) = .ok ins) :
    subtree (proc.description ins outs) "inputs".toList = ins := by
  rw [subtree, getChild?_inputs]
  split
  · rfl
  · rename_i hsize
    rw [toList_of_size hsize] at h
    cases h
    rfl

theorem subtree_outputs {outs : Ptree} (ins : Ptree)
    (h : (Ptree.empty.addAll (outputTrees proc.outputs) : Outcome Exn Ptree) = .ok outs) :
    subtree (proc.description ins outs) "outputs".toList = outs := by
  rw [subtree, getChild?_outputs]
  split
  · rfl
  · rename_i hsize
    rw [outputTrees, toList_of_size hsize] at h
    cases h
    rfl

/-! ### What is always told -/

theorem getChild?_name (ins outs : Ptree) : (proc.description ins outs).getChild? "name".toList =
    if proc.name = [] then none else some (leaf proc.name) := by
  have hlookup : lookup "name".toList proc.ownEntries =
      if proc.name = [] then none else some (leaf proc.name) := by
    rw [ownEntries]
    by_cases hname : proc.name = []
    · by_cases hargs : proc.args = [] <;> rw [if_pos hname, if_pos hname] <;> simp [hargs, lookup]
    · rw [if_neg hname, if_neg hname]
      rfl
  rw [getChild?_own (by decide) (by decide) (by decide), hlookup]

theorem getChild?_args (ins outs : Ptree) : (proc.description ins outs).getChild? "args".toList =
    if proc.args = [] then none else some (.node [] (proc.args.map element)) := by
  have hlookup : lookup "args".toList proc.ownEntries =
      if proc.args = [] then none else some (.node [] (proc.args.map element)) := by
    rw [ownEntries]
    by_cases hname : proc.name = [] <;> by_cases hargs : proc.args = [] <;>
      simp [hname, hargs, lookup]
  rw [getChild?_own (by decide) (by decide) (by decide), hlookup]

theorem args_description (ins outs : Ptree) :
    (subtree (proc.description ins outs) "args".toList).children.map (fun c => c.2.data) =
      proc.args := by
  rw [subtree, getChild?_args]
  split
  · rename_i hargs
    exact hargs.symm
  · rw [Option.getD_some, children_node, List.map_map]
    exact List.map_id proc.args

theorem name_description (ins outs : Ptree) :
    ((proc.description ins outs).get? "name".toList).getD [] = proc.name := by
  rw [get?, getChild?_name]
  split
  · rename_i hname
    exact hname.symm
  · rfl

theorem getChild?_reply {self : Process} {launch : Launch} {os os' : Os} {r ins : Ptree}
    (h : self.runProcess launch os = (.ok r, proc, os'))
    (hins : (Ptree.empty.putAll proc.inputs.toList : Outcome Exn Ptree) = .ok ins) :
    r.getChild? "inputs".toList = if proc.inputs.size > 0 then some ins else none := by
  have hreply : reply proc.id proc.inputs = .ok r := by
    cases launch with
    | failed what => cases congrArg Prod.fst h
    | child pid stream =>
      rw [runProcess, run] at h
      dsimp only at h
      split at h
      · cases congrArg (fun x => x.2.1) h
        exact congrArg Prod.fst h
      · cases congrArg (fun x => x.2.1) h
        obtain ⟨-, -, hr⟩ := Outcome.bind_eq_ok.mp (congrArg Prod.fst h)
        exact hr
  have hentry := inputsEntry_of_putAll hins
  rw [inputsEntry] at hentry
  rw [reply_eq, hentry, Outcome.map_ok, Outcome.ok.injEq] at hreply
  rw [← hreply, getChild?_plain (by decide), Ptree.find, children_node, lookup,
    if_neg (by decide), lookup_entry]
  simp only [true_and]

/-! ### The names -/

theorem readOutputs_eq (w : Ptree) : readOutputs w =
    ((subtree w "outputs".toList).children.map fun i =>
      (i.1, i.2.children.map fun j => j.2.children.map fun k => k.2.data)).foldl
        (fun m x => m.insert x.1 x.2) ∅ := by
  rw [List.foldl_map]
  rfl

theorem mem_readOutputs {n : Str} (h : n ∈ readOutputs w) :
    ∃ c ∈ (subtree w "outputs".toList).children, c.1 = n := by
  obtain ⟨al, hal⟩ := exists_get_of_mem h
  rw [readOutputs_eq, Maps.get_insertAll] at hal
  have hlast := Maps.lastOf_filterMap (f := some) (k := n) (v := al)
    ((subtree w "outputs".toList).children.map fun i =>
      (i.1, i.2.children.map fun j => j.2.children.map fun k => k.2.data))
  simp only [List.filterMap_some] at hlast
  obtain ⟨before, c, after, heq, hc, -⟩ := hlast.mp hal
  cases hc
  have hmem := List.mem_map.mp (heq ▸ List.mem_append_right before List.mem_cons_self)
  obtain ⟨c, hc, hcn⟩ := hmem
  exact ⟨c, hc, congrArg Prod.fst hcn⟩

theorem readOutputs_of_children {outputs : Outputs}
    (h : (subtree w "outputs".toList).children = outputTrees outputs) : readOutputs w = outputs := by
  have hgroups : ∀ al : AddressList, (addressTree al).children.map
      (fun j => j.2.children.map fun k => k.2.data) = al := by
    intro al
    rw [addressTree, children_node, List.map_map]
    refine (List.map_congr_left fun j _ => ?_).trans (List.map_id al)
    show (j.map element).map (fun k => k.2.data) = j
    rw [List.map_map]
    exact List.map_id j
  rw [readOutputs_eq, h, outputTrees, List.map_map]
  refine Eq.trans ?_ (Maps.insertAll_toList outputs)
  congr 1
  refine (List.map_congr_left fun i _ => ?_).trans (List.map_id _)
  show (i.1, (addressTree i.2).children.map _) = i
  rw [hgroups]

theorem plain_of_inputs {ins : Ptree}
    (hins : (Ptree.empty.putAll proc.inputs.toList : Outcome Exn Ptree) = .ok ins)
    (h : (ins.children.map fun c => (c.1, c.2.data)).Perm proc.inputs.toList) :
    ∀ n ∈ proc.inputs, Plain n := by
  have hchild : ∀ n ∈ proc.inputs, ∃ nv ∈ proc.inputs.toList, [n] <+: fragments nv.1 := by
    intro n hn
    obtain ⟨v, hv⟩ := exists_get_of_mem hn
    obtain ⟨c, hc, hcv⟩ := List.mem_map.mp (h.mem_iff.mpr (Maps.mem_toList.mpr hv))
    cases hcv
    exact child_of_putAll hins hc
  have hdot : ∀ n ∈ proc.inputs, '.' ∉ n := by
    intro n hn
    obtain ⟨nv, -, hprefix⟩ := hchild n hn
    have hlead := hprefix.trans (fragments_prefix_components nv.1)
    exact dot_notMem (hlead.subset List.mem_cons_self)
  intro n hn
  obtain ⟨nv, hnv, hprefix⟩ := hchild n hn
  exact (plain_of_fragments (hdot nv.1 (mem_of_get (Maps.mem_toList.mp hnv))) hprefix).2

theorem plain_of_outputs {outs : Ptree}
    (houts : (Ptree.empty.addAll (outputTrees proc.outputs) : Outcome Exn Ptree) = .ok outs)
    (h : ∀ n ∈ proc.outputs, ∃ c ∈ outs.children, c.1 = n) : ∀ n ∈ proc.outputs, Plain n := by
  intro n hn
  obtain ⟨c, hc, rfl⟩ := h n hn
  obtain ⟨nc, -, hmem⟩ := child_of_addAll houts hc
  obtain ⟨al, hal⟩ := exists_get_of_mem hn
  have hdang := not_dangling_of_addAll houts _ (outputTrees_mem hal)
  refine ⟨?_, dot_notMem hmem⟩
  intro hnil
  rw [hnil] at hdang
  exact absurd hdang (by decide)

theorem Faithful.plain (h : proc.Faithful) :
    (∀ n ∈ proc.inputs, Plain n) ∧ ∀ n ∈ proc.outputs, Plain n := by
  obtain ⟨w, hw, hdescribed, -⟩ := h
  obtain ⟨ins, outs, hins, houts, rfl⟩ := describe_eq_ok_iff.mp hw
  refine ⟨plain_of_inputs hins ?_, plain_of_outputs houts fun n hn => ?_⟩
  · have hperm := hdescribed.inputs
    rwa [subtree_inputs outs hins] at hperm
  · rw [← hdescribed.outputs] at hn
    have hchild := mem_readOutputs hn
    rwa [subtree_outputs ins houts] at hchild

theorem faithful_of_plain (hinputs : ∀ n ∈ proc.inputs, Plain n)
    (houtputs : ∀ n ∈ proc.outputs, Plain n) : proc.Faithful := by
  have hins := putAll_plain (ε := Exn)
    (fun nv h => hinputs nv.1 (mem_of_get (Maps.mem_toList.mp h))) (Maps.nodup_keys proc.inputs)
  have houts : (Ptree.empty.addAll (outputTrees proc.outputs) : Outcome Exn Ptree) =
      .ok (.node [] (outputTrees proc.outputs)) := by
    refine addAll_plain fun nc h => ?_
    obtain ⟨al, hal, -⟩ := mem_outputTrees h
    exact houtputs nc.1 (mem_of_get hal)
  have hw := describe_eq_ok_iff.mpr ⟨_, _, hins, houts, rfl⟩
  obtain ⟨hid, hjob, hexec, hstate⟩ := get?_describe hw
  refine ⟨_, hw, ⟨hid, name_description _ _, hjob, hexec, hstate, args_description _ _, ?_, ?_⟩, ?_⟩
  · rw [subtree_inputs _ hins, children_node, List.map_map]
    exact List.Perm.of_eq (List.map_id _)
  · exact readOutputs_of_children (congrArg Ptree.children (subtree_outputs _ houts))
  · intro self launch os os' r hr
    rw [getChild?_reply hr hins, getChild?_inputs]

/-- A worker can be told from its description, and from the reply that creates it, exactly when no name
of an input or an output is empty or holds a dot. -/
theorem faithful_iff (proc : Process) :
    proc.Faithful ↔ (∀ n ∈ proc.inputs, Plain n) ∧ ∀ n ∈ proc.outputs, Plain n :=
  ⟨Faithful.plain, fun h => faithful_of_plain h.1 h.2⟩

/-- The request for a script. -/
def scriptRequest : Ptree :=
  .ofFields [("file".toList, "worker.py".toList), ("job_id".toList, "job".toList)]

/-- The worker of a script that reports the input `a.b`. -/
theorem not_faithful : ¬ ∀ (p : Ptree) (self before proc : Process) (launch : Launch) (os os' : Os)
    (r : Ptree), initProcess p self = .ok before →
      before.runProcess launch os = (.ok r, proc, os') → proc.Faithful := by
  intro h
  obtain ⟨before, hbefore⟩ : ∃ before,
      initProcess scriptRequest { model := .python, id := [] } = .ok before := ⟨_, rfl⟩
  obtain ⟨r, proc, os', hrun, hmem⟩ : ∃ r proc os', before.runProcess
      (.child 7 "INPUT:a.b:x\nRUNNING\n".toList) {} = (.ok r, proc, os') ∧
      "a.b".toList ∈ proc.inputs := by
    cases hbefore
    exact ⟨_, _, _, rfl, by decide +kernel⟩
  have hplain := (h _ _ _ _ _ _ _ _ hbefore hrun).plain.1 _ hmem
  exact absurd hplain (by decide)

/-! ### Descriptions apart -/

theorem text_injective {a b : WorkerState} (h : a.text = b.text) : a = b := by
  cases a <;> cases b <;> first | rfl | exact absurd h (by decide)

end Process

/-- Two workers that one tree tells differ in their class and the handle of their child at most. -/
theorem Described.unique {proc other : Process} {w : Ptree} (h : Described proc w)
    (h' : Described other w) :
    other = { proc with model := other.model, proc := other.proc } := by
  have hinputs : other.inputs = proc.inputs :=
    ExtTreeMap.ext_toList (h'.inputs.symm.trans h.inputs)
  have hid := Option.some.inj (h'.id.symm.trans h.id)
  have hjob := Option.some.inj (h'.jobId.symm.trans h.jobId)
  have hexec := Option.some.inj (h'.exec.symm.trans h.exec)
  have hstate := Process.text_injective (Option.some.inj (h'.state.symm.trans h.state))
  have hname := h'.name.symm.trans h.name
  have hargs := h'.args.symm.trans h.args
  have houtputs := h'.outputs.symm.trans h.outputs
  cases other
  cases proc
  simp_all

end Wye
