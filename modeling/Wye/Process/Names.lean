import Wye.Process.Describe
import Wye.PropertyTree.Names

/-!
# Names from outside

The names of the inputs come from a worker, those of the outputs from a request, and both are used
as paths. A description and a reply can be written, that is no assertion fails and `write_json`
accepts the tree, exactly when the names are safe to use so (`Process.writable_iff`, `reply_iff`).
-/

namespace Wye

open Text Calls PropertyTree Ptree Std

/-! ### The subtree of a name of the outputs -/

theorem verify_elements (as : List Str) : (Ptree.node [] (as.map element)).verify = true := by
  rw [verify_iff]
  refine ⟨.inl rfl, fun p hp => ?_⟩
  obtain ⟨a, -, rfl⟩ := List.mem_map.mp hp
  exact verify_leaf a

theorem verify_addressTree (al : AddressList) : (addressTree al).verify = true := by
  rw [verify_iff]
  refine ⟨.inl rfl, fun p hp => ?_⟩
  obtain ⟨as, -, rfl⟩ := List.mem_map.mp hp
  exact verify_elements as

theorem dataAt_list {α : Type} (f : α → Ptree) (as : List α) (k : Str) (r : List Str) :
    (Ptree.node [] (as.map fun a => ([], f a))).dataAt (k :: r) =
      if k = [] then as.head?.bind fun a => (f a).dataAt r else none := by
  rw [dataAt_cons, Ptree.find, children_node]
  by_cases hk : k = []
  · subst hk
    cases as <;> simp [lookup]
  · rw [if_neg hk, lookup_eq_none]
    · rfl
    · simpa using fun _ _ => hk

theorem dataAt_addressTree {al : AddressList} {r : List Str} {d : Str}
    (h : (addressTree al).dataAt r = some d) (hd : d ≠ []) :
    r = [[], []] ∧ ∃ as gs, al = (d :: as) :: gs := by
  cases r with
  | nil => exact absurd (Option.some.inj h).symm hd
  | cons k r =>
    rw [addressTree, dataAt_list, Option.ite_none_right_eq_some, Option.bind_eq_some_iff] at h
    obtain ⟨rfl, g, hg, h⟩ := h
    obtain ⟨gs, rfl⟩ := List.head?_eq_some_iff.mp hg
    cases r with
    | nil => exact absurd (Option.some.inj h).symm hd
    | cons k r =>
      change (Ptree.node [] (g.map fun a => ([], leaf a))).dataAt (k :: r) = some d at h
      rw [dataAt_list, Option.ite_none_right_eq_some, Option.bind_eq_some_iff] at h
      obtain ⟨rfl, a, ha, h⟩ := h
      obtain ⟨as, rfl⟩ := List.head?_eq_some_iff.mp ha
      cases r with
      | nil => exact ⟨rfl, as, gs, by rw [← Option.some.inj h]; rfl⟩
      | cons k r => cases h

/-- The outputs that can be described. -/
structure OutputsSafe (outputs : Outputs) : Prop where
  /-- No name is empty or ends in a dot. -/
  names : ∀ n ∈ outputs, dangling n = false
  /-- No name leads past the first address of a name. -/
  first : ∀ n a as gs, outputs[n]? = some ((a :: as) :: gs) → a ≠ [] →
    ∀ n' ∈ outputs, ¬ n ++ "...".toList <+: n'

/-- The subtrees that `describe` adds for the outputs. -/
def outputTrees (outputs : Outputs) : List (Str × Ptree) :=
  outputs.toList.map fun i => (i.1, addressTree i.2)

theorem mem_outputTrees {outputs : Outputs} {nc : Str × Ptree} (h : nc ∈ outputTrees outputs) :
    ∃ al, outputs[nc.1]? = some al ∧ nc.2 = addressTree al := by
  obtain ⟨i, hi, rfl⟩ := List.mem_map.mp h
  exact ⟨i.2, Maps.mem_toList.mp hi, rfl⟩

theorem outputTrees_mem {outputs : Outputs} {n : Str} {al : AddressList}
    (h : outputs[n]? = some al) : (n, addressTree al) ∈ outputTrees outputs :=
  List.mem_map.mpr ⟨(n, al), Maps.mem_toList.mpr h, rfl⟩

theorem components_dots (n : Str) : components n ++ [[], []] = components (n ++ "..".toList) :=
  (components_append_dot n ".".toList).symm

theorem OutputsSafe.addAll_ok {outputs : Outputs} (h : OutputsSafe outputs) :
    ∃ t, (Ptree.empty.addAll (outputTrees outputs) : Outcome Exn Ptree) = .ok t ∧ t.data = [] ∧
      t.verify = true := by
  refine Ptree.addAll_ok (fun nc hnc => ?_) (fun nc hnc => ?_) fun nc hnc r d hr hd nc' hnc' hp => ?_
  · obtain ⟨al, hal, -⟩ := mem_outputTrees hnc
    exact h.names _ (mem_of_get hal)
  · obtain ⟨al, -, htree⟩ := mem_outputTrees hnc
    rw [htree]
    exact verify_addressTree al
  · obtain ⟨al, hal, htree⟩ := mem_outputTrees hnc
    obtain ⟨al', hal', -⟩ := mem_outputTrees hnc'
    rw [htree] at hr
    obtain ⟨rfl, as, gs, rfl⟩ := dataAt_addressTree hr hd
    rw [components_dots] at hp ⊢
    rcases components_prefix_iff.mp hp with heq | ⟨r, heq⟩
    · rw [heq]
    · exact absurd ⟨r, by simp [heq]⟩ (h.first nc.1 d as gs hal hd nc'.1 (mem_of_get hal'))

theorem keys_addressTree {al : AddressList} {r : List Str}
    (h : (addressTree al).dataAt r ≠ none) : ∀ k ∈ r, k = [] := by
  cases r with
  | nil => simp
  | cons k r =>
    obtain ⟨d, hd⟩ := Option.ne_none_iff_exists'.mp h
    rw [addressTree, dataAt_list, Option.ite_none_right_eq_some, Option.bind_eq_some_iff] at hd
    obtain ⟨rfl, g, -, hd⟩ := hd
    cases r with
    | nil => simp
    | cons k r =>
      change (Ptree.node [] (g.map fun a => ([], leaf a))).dataAt (k :: r) = some d at hd
      rw [dataAt_list, Option.ite_none_right_eq_some, Option.bind_eq_some_iff] at hd
      obtain ⟨rfl, a, -, hd⟩ := hd
      cases r with
      | nil => simp
      | cons k r => cases hd

/-- In the order of the map no name leads to a node that an earlier one has made. -/
theorem fresh_outputTrees {outputs : Outputs} (hnames : ∀ n ∈ outputs, dangling n = false) :
    (outputTrees outputs).Pairwise fun nc' nc => ¬ components nc.1 <+: components nc'.1 ∧
      ∀ r, components nc.1 = components nc'.1 ++ r → nc'.2.dataAt r = none := by
  rw [outputTrees, List.pairwise_map]
  refine ExtTreeMap.ordered_keys_toList.imp_of_mem fun {i' i} hi' hi hlt => ⟨fun hp => ?_, ?_⟩
  · rcases components_prefix_iff.mp hp with heq | ⟨r, heq⟩
    · rw [heq, compare_self] at hlt
      cases hlt
    · rw [heq] at hlt
      exact not_compare_append_cons _ _ _ hlt
  · intro r heq
    by_contra hr
    have hkeys := keys_addressTree hr
    have hdang := hnames i.1 (mem_of_get (Maps.mem_toList.mp hi))
    cases hlast : r.getLast? with
    | none =>
      rw [List.getLast?_eq_none_iff.mp hlast, List.append_nil] at heq
      rw [components_injective heq, compare_self] at hlt
      cases hlt
    | some k =>
      have hk := hkeys k (List.mem_of_getLast? hlast)
      rw [dangling, heq, List.getLast?_append, hlast, hk] at hdang
      simp at hdang

theorem OutputsSafe.of_addAll {outputs : Outputs} {t : Ptree}
    (ht : (Ptree.empty.addAll (outputTrees outputs) : Outcome Exn Ptree) = .ok t)
    (hverify : t.verify = true) : OutputsSafe outputs := by
  have hnames : ∀ n ∈ outputs, dangling n = false := by
    intro n hn
    obtain ⟨al, hal⟩ := exists_get_of_mem hn
    exact not_dangling_of_addAll ht _ (outputTrees_mem hal)
  have hfound := fun n al (hal : outputs[n]? = some al) r d hr =>
    dataAt_addAll ht (fresh_outputTrees hnames) (outputTrees_mem hal) (r := r) (d := d) hr
  refine ⟨hnames, ?_⟩
  rintro n a as gs hal ha _ hn' ⟨r, rfl⟩
  obtain ⟨al', hal'⟩ := exists_get_of_mem hn'
  have hdata := hfound n _ hal [[], []] a rfl
  have hthere := hfound _ _ hal' [] [] rfl
  obtain ⟨k, ks, hk⟩ := List.exists_cons_of_ne_nil (components_ne_nil r)
  rw [List.append_nil, show n ++ "...".toList ++ r = (n ++ "..".toList) ++ '.' :: r by simp,
    components_append_dot, ← components_dots, hk, dataAt_of_verify hverify hdata ha] at hthere
  cases hthere

theorem addAll_outputs_iff (outputs : Outputs) : OutputsSafe outputs ↔
    ∃ t, (Ptree.empty.addAll (outputTrees outputs) : Outcome Exn Ptree) = .ok t ∧
      t.verify = true :=
  ⟨fun h => h.addAll_ok.imp fun _ h => ⟨h.1, h.2.2⟩, fun ⟨_, ht, hverify⟩ => .of_addAll ht hverify⟩

instance (outputs : Outputs) : Decidable (OutputsSafe outputs) :=
  decidable_of_iff (builds (Ptree.empty.addAll (outputTrees outputs) : Outcome Exn Ptree) = true)
    (builds_iff.trans (addAll_outputs_iff outputs).symm)

/-! ### Descriptions and replies -/

/-- The names of the worker are safe to use as paths. -/
structure Process.Writable (proc : Process) : Prop where
  inputs : PutSafe proc.inputs
  outputs : OutputsSafe proc.outputs

theorem verify_node (es : List (Str × Ptree)) :
    (Ptree.node [] es).verify = true ↔ ∀ e ∈ es, e.2.verify = true :=
  (verify_iff _).trans (and_iff_right (.inl rfl))

/-- A subtree that is built only when there is something to put in it. -/
theorem entry_ok_iff (key : Str) {n : Nat} {x : Outcome Exn Ptree} {P : Prop}
    (hx : P ↔ ∃ t, x = .ok t ∧ t.verify = true) (hnone : n = 0 → P) :
    P ↔ ∃ es, (if n > 0 then x.map fun t => [(key, t)] else .ok []) = Outcome.ok es ∧
      ∀ e ∈ es, e.2.verify = true := by
  by_cases hn : n > 0
  · rw [if_pos hn, hx]
    constructor
    · rintro ⟨t, rfl, hverify⟩
      exact ⟨[(key, t)], rfl, by simpa using hverify⟩
    · rintro ⟨es, hes, hverify⟩
      obtain ⟨t, rfl, rfl⟩ := Outcome.map_eq_ok.mp hes
      exact ⟨t, rfl, hverify (key, t) List.mem_cons_self⟩
  · rw [if_neg hn]
    exact iff_of_true (hnone (by omega)) ⟨[], rfl, by simp⟩

theorem putSafe_of_size {m : Inputs} (h : m.size = 0) : PutSafe m := by
  rw [ExtTreeMap.eq_empty_iff_size_eq_zero.mpr h]
  exact ⟨by simp, by simp, by simp⟩

theorem outputsSafe_of_size {m : Outputs} (h : m.size = 0) : OutputsSafe m := by
  rw [ExtTreeMap.eq_empty_iff_size_eq_zero.mpr h]
  exact ⟨by simp, by simp⟩

namespace Process

theorem verify_ownEntries (proc : Process) : ∀ e ∈ proc.ownEntries, e.2.verify = true := by
  have hname : ∀ e ∈ (if proc.name = [] then [] else [("name".toList, leaf proc.name)] :
      List (Str × Ptree)), e.2.verify = true := by
    split <;> simp
  have hargs : ∀ e ∈ (if proc.args = [] then [] else
      [("args".toList, .node [] (proc.args.map element))] : List (Str × Ptree)),
      e.2.verify = true := by
    split <;> simp [verify_elements]
  simp only [ownEntries, List.forall_mem_cons, List.forall_mem_append, verify_leaf, true_and]
  exact ⟨hname, hargs⟩

/-- A worker's description can be written exactly when its names can. -/
theorem writable_iff (proc : Process) :
    proc.Writable ↔ ∃ w, proc.describe = .ok w ∧ w.verify = true := by
  have hins := entry_ok_iff "inputs".toList (putAll_map_iff (m := proc.inputs) (ε := Exn))
    putSafe_of_size
  have houts := entry_ok_iff "outputs".toList (addAll_outputs_iff proc.outputs) outputsSafe_of_size
  constructor
  · rintro ⟨hi, ho⟩
    obtain ⟨ins, hins, hinsv⟩ := hins.mp hi
    obtain ⟨outs, houts, houtsv⟩ := houts.mp ho
    rw [describe_eq, inputsEntry, hins, outputsEntry, ← outputTrees, houts]
    refine ⟨_, rfl, (verify_node _).mpr ?_⟩
    simp only [List.forall_mem_append]
    exact ⟨⟨verify_ownEntries proc, hinsv⟩, houtsv⟩
  · rintro ⟨w, hw, hverify⟩
    obtain ⟨ins, outs, hins', houts', rfl⟩ := describe_eq_ok hw
    have hall := (verify_node _).mp hverify
    simp only [List.forall_mem_append] at hall
    exact ⟨hins.mpr ⟨ins, hins', hall.1.2⟩, houts.mpr ⟨outs, houts', hall.2⟩⟩

end Process

theorem reply_eq (id : Str) (inputs : Inputs) : reply id inputs =
    (if inputs.size > 0 then
      (Ptree.empty.putAll inputs.toList).map fun ins => [("inputs".toList, ins)]
    else .ok []).map fun es => .node [] (("id".toList, leaf id) :: es) := by
  rw [reply, put_plain (by decide) rfl, Outcome.bind_ok]
  split
  · cases Ptree.empty.putAll (ε := Exn) inputs.toList with
    | ok ins =>
      rw [Outcome.bind_ok, addChild_plain (by decide)]
      rfl
    | throw e => rfl
    | lost why => rfl
  · rfl

/-- A reply can be written exactly when the names of the inputs can. -/
theorem reply_iff (id : Str) (inputs : Inputs) :
    PutSafe inputs ↔ ∃ t, reply id inputs = .ok t ∧ t.representable = true := by
  have hins := entry_ok_iff "inputs".toList (putAll_map_iff (m := inputs) (ε := Exn))
    putSafe_of_size
  rw [hins, reply_eq]
  constructor
  · rintro ⟨es, hes, hverify⟩
    rw [hes]
    refine ⟨_, rfl, representable_of_verify rfl ((verify_node _).mpr ?_)⟩
    simpa using hverify
  · rintro ⟨t, ht, hrep⟩
    obtain ⟨es, hes, rfl⟩ := Outcome.map_eq_ok.mp ht
    exact ⟨es, hes, (List.forall_mem_cons.mp ((verify_node _).mp (verify_of_representable hrep))).2⟩

end Wye
