import Wye.Process.Run

/-!
# What `describe` writes

The keys `describe` puts have no dots and stand once, so its tree is a list of entries
(`describe_eq`). Only the subtrees of `inputs` and `outputs` are built under names from outside.
-/

namespace Wye

open Text Calls PropertyTree Ptree

/-- The text of a state. -/
def WorkerState.text : WorkerState → Str
  | .running => "RUNNING".toList
  | .stopped => "STOPPED".toList

namespace Process

/-- The entries of a description before `inputs` and `outputs`. -/
def ownEntries (self : Process) : List (Str × Ptree) :=
  ("id".toList, leaf self.id) ::
    ((if self.name = [] then [] else [("name".toList, leaf self.name)]) ++
      ("job_id".toList, leaf self.jobId) :: ("exec".toList, leaf self.exec) ::
        ("state".toList, leaf self.state.text) ::
          if self.args = [] then [] else [("args".toList, .node [] (self.args.map element))])

/-- The entry of the inputs, when there are any. -/
def inputsEntry (self : Process) : Outcome Exn (List (Str × Ptree)) :=
  if self.inputs.size > 0 then
    (Ptree.empty.putAll self.inputs.toList).map fun ins => [("inputs".toList, ins)]
  else .ok []

/-- The entry of the outputs, when there are any. -/
def outputsEntry (self : Process) : Outcome Exn (List (Str × Ptree)) :=
  if self.outputs.size > 0 then
    (Ptree.empty.addAll (self.outputs.toList.map fun i => (i.1, addressTree i.2))).map fun outs =>
      [("outputs".toList, outs)]
  else .ok []

theorem putAll_entry (t : Ptree) (self : Process) :
    (if self.inputs.size > 0 then
      (Ptree.empty.putAll self.inputs.toList).bind fun ins => t.addChild "inputs".toList ins
      else .ok t) = self.inputsEntry.map fun es => node t.data (t.children ++ es) := by
  unfold inputsEntry
  split
  · cases Ptree.empty.putAll (ε := Exn) self.inputs.toList with
    | ok ins =>
      rw [Outcome.bind_ok, addChild_plain (by decide)]
      rfl
    | throw e => rfl
    | lost why => rfl
  · simp

theorem addAll_entry (t : Ptree) (self : Process) :
    (if self.outputs.size > 0 then
      (Ptree.empty.addAll (self.outputs.toList.map fun i => (i.1, addressTree i.2))).bind fun outs =>
        t.addChild "outputs".toList outs
      else .ok t) = self.outputsEntry.map fun es => node t.data (t.children ++ es) := by
  unfold outputsEntry
  split
  · cases Ptree.empty.addAll (ε := Exn)
        (self.outputs.toList.map fun i => (i.1, addressTree i.2)) with
    | ok outs =>
      rw [Outcome.bind_ok, addChild_plain (by decide)]
      rfl
    | throw e => rfl
    | lost why => rfl
  · simp

theorem describe_eq (self : Process) :
    self.describe = self.inputsEntry.bind fun ins => self.outputsEntry.map fun outs =>
      .node [] (self.ownEntries ++ ins ++ outs) := by
  have hstate : (if self.state = .running then "RUNNING".toList else "STOPPED".toList) =
      self.state.text := by
    cases self.state <;> rfl
  -- each `put` and `add_child` before the inputs appends an entry
  have hown : self.describe = (Outcome.ok (.node [] self.ownEntries)).bind fun t =>
      (if self.inputs.size > 0 then
        (Ptree.empty.putAll self.inputs.toList).bind fun ins => t.addChild "inputs".toList ins
        else .ok t).bind fun p =>
      if self.outputs.size > 0 then
        (Ptree.empty.addAll (self.outputs.toList.map fun i => (i.1, addressTree i.2))).bind fun outs =>
          p.addChild "outputs".toList outs
      else .ok p := by
    unfold describe ownEntries
    rw [hstate, put_plain (by decide) rfl, Outcome.bind_ok]
    by_cases hname : self.name = []
    · rw [if_neg (not_not.mpr hname), if_pos hname, Outcome.bind_ok, put_plain (by decide) rfl,
        Outcome.bind_ok, put_plain (by decide) rfl, Outcome.bind_ok, put_plain (by decide) rfl,
        Outcome.bind_ok]
      by_cases hargs : self.args = []
      · rw [if_neg (not_not.mpr hargs), if_pos hargs]
        rfl
      · rw [if_pos hargs, if_neg hargs, addChild_plain (by decide)]
        rfl
    · rw [if_pos hname, if_neg hname, put_plain (by decide) rfl, Outcome.bind_ok,
        put_plain (by decide) rfl, Outcome.bind_ok, put_plain (by decide) rfl, Outcome.bind_ok,
        put_plain (by decide) rfl, Outcome.bind_ok]
      by_cases hargs : self.args = []
      · rw [if_neg (not_not.mpr hargs), if_pos hargs]
        rfl
      · rw [if_pos hargs, if_neg hargs, addChild_plain (by decide)]
        rfl
  rw [hown, Outcome.bind_ok, putAll_entry]
  cases self.inputsEntry with
  | ok ins =>
    rw [Outcome.map_ok, Outcome.bind_ok, addAll_entry, Outcome.bind_ok]
    rfl
  | throw e => rfl
  | lost why => rfl

theorem describe_eq_ok {self : Process} {w : Ptree} (h : self.describe = .ok w) :
    ∃ ins outs, self.inputsEntry = .ok ins ∧ self.outputsEntry = .ok outs ∧
      w = .node [] (self.ownEntries ++ ins ++ outs) := by
  rw [describe_eq, Outcome.bind_eq_ok] at h
  obtain ⟨ins, hins, h⟩ := h
  obtain ⟨outs, houts, hw⟩ := Outcome.map_eq_ok.mp h
  exact ⟨ins, outs, hins, houts, hw.symm⟩

theorem get?_describe {self : Process} {w : Ptree} (h : self.describe = .ok w) :
    w.get? "id".toList = some self.id ∧ w.get? "job_id".toList = some self.jobId ∧
      w.get? "exec".toList = some self.exec ∧ w.get? "state".toList = some self.state.text := by
  obtain ⟨ins, outs, -, -, rfl⟩ := describe_eq_ok h
  simp only [get?_plain (k := "id".toList) (by decide), get?_plain (k := "job_id".toList) (by decide),
    get?_plain (k := "exec".toList) (by decide), get?_plain (k := "state".toList) (by decide)]
  unfold ownEntries
  by_cases hname : self.name = []
  · rw [if_pos hname]
    exact ⟨rfl, rfl, rfl, rfl⟩
  · rw [if_neg hname]
    exact ⟨rfl, rfl, rfl, rfl⟩

end Process

end Wye
