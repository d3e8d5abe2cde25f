import Wye.Base.Outcome
import Wye.Base.Text

/-!
# Property trees

`boost::property_tree::ptree`: a node holds data and an ordered list of keyed children, and a key
may stand more than once. `put` and `add_child` read their key as a path split at `'.'`. They fail
an assertion where a node has to be made and the path is empty or ends in `'.'`; where the node is
there, such a path only loses its empty last component.
-/

namespace PropertyTree

open Text Calls

/-- `boost::property_tree::ptree`. -/
inductive Ptree where
  | node (data : Str) (children : List (Str × Ptree))

namespace Ptree

/-- The data of a node, `data()`. -/
def data : Ptree → Str
  | node d _ => d

/-- The children of a node, in order. -/
def children : Ptree → List (Str × Ptree)
  | node _ cs => cs

/-- A default-constructed tree. -/
def empty : Ptree := node [] []

/-- A node with data only. -/
def leaf (d : Str) : Ptree := node d []

/-- A JSON object of strings, as `read_json` gives it. -/
def ofFields (fields : List (Str × Str)) : Ptree := node [] (fields.map fun f => (f.1, leaf f.2))

/-- `put_value`. -/
def putValue (t : Ptree) (d : Str) : Ptree := node d t.children

/-- `push_back`. -/
def pushBack (t : Ptree) (k : Str) (c : Ptree) : Ptree := node t.data (t.children ++ [(k, c)])

@[simp] theorem data_node (d : Str) (cs) : (node d cs).data = d := rfl
@[simp] theorem children_node (d : Str) (cs) : (node d cs).children = cs := rfl
@[simp] theorem data_empty : empty.data = [] := rfl
@[simp] theorem children_empty : empty.children = [] := rfl
@[simp] theorem data_leaf (d : Str) : (leaf d).data = d := rfl
@[simp] theorem children_leaf (d : Str) : (leaf d).children = [] := rfl
@[simp] theorem data_putValue (t : Ptree) (d : Str) : (t.putValue d).data = d := rfl
@[simp] theorem children_putValue (t : Ptree) (d : Str) : (t.putValue d).children = t.children := rfl
@[simp] theorem data_pushBack (t : Ptree) (k : Str) (c : Ptree) : (t.pushBack k c).data = t.data := rfl
@[simp] theorem children_pushBack (t : Ptree) (k : Str) (c : Ptree) :
    (t.pushBack k c).children = t.children ++ [(k, c)] := rfl

@[simp] theorem node_eta (t : Ptree) : node t.data t.children = t := by cases t; rfl

/-! ### Children -/

/-- The first child with a key. -/
def lookup (k : Str) : List (Str × Ptree) → Option Ptree
  | [] => none
  | (k', c) :: cs => if k' = k then some c else lookup k cs

/-- Replace the first child with a key, or append one made from an empty tree. -/
def upsert (k : Str) (f : Ptree → Ptree) : List (Str × Ptree) → List (Str × Ptree)
  | [] => [(k, f empty)]
  | (k', c) :: cs => if k' = k then (k', f c) :: cs else (k', c) :: upsert k f cs

/-- `find`. -/
def find (t : Ptree) (k : Str) : Option Ptree := lookup k t.children

@[simp] theorem lookup_nil (k : Str) : lookup k [] = none := rfl

theorem lookup_append (k : Str) (cs ds : List (Str × Ptree)) :
    lookup k (cs ++ ds) = (lookup k cs).or (lookup k ds) := by
  induction cs with
  | nil => rfl
  | cons c cs ih =>
    simp only [List.cons_append, lookup]
    split
    · rfl
    · exact ih

theorem lookup_eq_none {k : Str} {cs : List (Str × Ptree)} (h : k ∉ cs.map Prod.fst) :
    lookup k cs = none := by
  induction cs with
  | nil => rfl
  | cons c cs ih =>
    simp only [List.map_cons, List.mem_cons, not_or] at h
    rw [lookup, if_neg (Ne.symm h.1), ih h.2]

theorem lookup_ne_none {c : Str × Ptree} {cs : List (Str × Ptree)} (h : c ∈ cs) :
    lookup c.1 cs ≠ none := by
  induction cs with
  | nil => exact absurd h List.not_mem_nil
  | cons d cs ih =>
    rw [lookup]
    split
    · exact Option.some_ne_none _
    · rename_i hne
      rcases List.mem_cons.mp h with rfl | h
      · exact absurd rfl hne
      · exact ih h

theorem lookup_reverse {cs : List (Str × Ptree)} (h : (cs.map Prod.fst).Nodup) (k : Str) :
    lookup k cs.reverse = lookup k cs := by
  induction cs with
  | nil => rfl
  | cons c cs ih =>
    obtain ⟨k', c⟩ := c
    rw [List.map_cons, List.nodup_cons] at h
    rw [List.reverse_cons, lookup_append, ih h.2]
    by_cases hk : k' = k
    · have hnone : lookup k cs = none := lookup_eq_none (hk ▸ h.1)
      simp [lookup, hk, hnone]
    · simp [lookup, hk]

theorem lookup_mem {k : Str} {cs : List (Str × Ptree)} {c : Ptree} (h : lookup k cs = some c) :
    (k, c) ∈ cs := by
  induction cs with
  | nil => simp at h
  | cons d cs ih =>
    obtain ⟨k', d⟩ := d
    simp only [lookup] at h
    split at h
    · rename_i hk
      cases h
      simp [hk]
    · exact List.mem_cons_of_mem _ (ih h)

theorem lookup_upsert (k k' : Str) (f : Ptree → Ptree) (cs : List (Str × Ptree)) :
    lookup k' (upsert k f cs) =
      if k = k' then some (f ((lookup k cs).getD empty)) else lookup k' cs := by
  induction cs with
  | nil => by_cases h : k = k' <;> simp [upsert, lookup, h]
  | cons c cs ih =>
    obtain ⟨j, c⟩ := c
    by_cases hj : j = k
    · subst hj
      by_cases h : j = k' <;> simp [upsert, lookup, h]
    · by_cases h : k = k'
      · subst h
        simp [upsert, lookup, hj, ih]
      · rw [if_neg h, upsert, if_neg hj, lookup, ih, if_neg h, lookup]

theorem upsert_of_lookup_none {k : Str} {cs : List (Str × Ptree)} (f : Ptree → Ptree)
    (h : lookup k cs = none) : upsert k f cs = cs ++ [(k, f empty)] := by
  induction cs with
  | nil => rfl
  | cons c cs ih =>
    obtain ⟨j, c⟩ := c
    simp only [lookup] at h
    split at h
    · simp at h
    · rename_i hj
      rw [upsert, if_neg hj, ih h]
      rfl

theorem mem_upsert {k : Str} {f : Ptree → Ptree} {cs : List (Str × Ptree)} {p : Str × Ptree}
    (h : p ∈ upsert k f cs) : p ∈ cs ∨ p = (k, f ((lookup k cs).getD empty)) := by
  induction cs with
  | nil => simpa [upsert] using h
  | cons c cs ih =>
    obtain ⟨j, c⟩ := c
    by_cases hj : j = k
    · subst hj
      simp only [upsert, if_true, List.mem_cons] at h
      rcases h with rfl | h
      · exact .inr (by simp [lookup])
      · exact .inl (List.mem_cons_of_mem _ h)
    · simp only [upsert, if_neg hj, List.mem_cons] at h
      simp only [lookup, if_neg hj]
      rcases h with rfl | h
      · exact .inl (List.mem_cons_self ..)
      · exact (ih h).imp_left (List.mem_cons_of_mem _)

/-! ### Paths -/

/-- The components of a path, an empty last one included. -/
def components (path : Str) : List Str := path.splitOn '.'

/-- Whether a path is empty or ends in `'.'`: whether its last component is empty. -/
def dangling (path : Str) : Bool := (components path).getLast? == some []

/-- The keys `string_path::reduce` gives before the path is used up. -/
def fragments (path : Str) : List Str :=
  if dangling path then (components path).dropLast else components path

/-- `walk_path`: the node under a path, taking the first child at each key. -/
def walk : Ptree → List Str → Option Ptree
  | t, [] => some t
  | t, k :: ks => (t.find k).bind fun c => walk c ks

/-- Rewrite the node under a path, making the nodes that are missing on the way (`force_path`). -/
def updateAt (f : Ptree → Ptree) : Ptree → List Str → Ptree
  | t, [] => f t
  | t, k :: ks => node t.data (upsert k (fun c => updateAt f c ks) t.children)

variable {ε : Type*}

/-- `get_child_optional`. -/
def getChild? (t : Ptree) (path : Str) : Option Ptree := t.walk (fragments path)

/-- `get<std::string>`, which throws on `none`. -/
def get? (t : Ptree) (path : Str) : Option Str := (t.getChild? path).map data

/-- `put_child`. -/
def putChild (t : Ptree) (path : Str) (c : Ptree) : Outcome ε Ptree :=
  if dangling path then .lost .assertion else .ok (updateAt (fun _ => c) t (fragments path))

/-- `put`. -/
def put (t : Ptree) (path : Str) (d : Str) : Outcome ε Ptree :=
  match t.getChild? path with
  | some _ => .ok (updateAt (fun c => c.putValue d) t (fragments path))
  | none => t.putChild path (leaf d)

/-- `add_child`. -/
def addChild (t : Ptree) (path : Str) (c : Ptree) : Outcome ε Ptree :=
  if dangling path then .lost .assertion
  else
    .ok (updateAt (fun parent => parent.pushBack ((fragments path).getLastD []) c) t
      (fragments path).dropLast)

theorem put_asserts (t : Ptree) (path d : Str) : (t.put path d : Outcome ε Ptree).Asserts := by
  unfold put putChild
  split
  · exact .inl ⟨_, rfl⟩
  · split
    · exact .inr rfl
    · exact .inl ⟨_, rfl⟩

theorem addChild_asserts (t : Ptree) (path : Str) (c : Ptree) :
    (t.addChild path c : Outcome ε Ptree).Asserts := by
  unfold addChild
  split
  · exact .inr rfl
  · exact .inl ⟨_, rfl⟩

/-! ### What `write_json` accepts -/

mutual
/-- No node below has both data and children. -/
def verify : Ptree → Bool
  | node d cs => (d.isEmpty || cs.isEmpty) && verifyAll cs
/-- `verify` of every child. -/
def verifyAll : List (Str × Ptree) → Bool
  | [] => true
  | (_, t) :: cs => t.verify && verifyAll cs
end

/-- `verify_json`: the trees `write_json` does not throw on. -/
def representable (t : Ptree) : Bool := t.data.isEmpty && t.verify

theorem verifyAll_iff (cs : List (Str × Ptree)) :
    verifyAll cs = true ↔ ∀ p ∈ cs, p.2.verify = true := by
  induction cs with
  | nil => simp [verifyAll]
  | cons p cs ih =>
    obtain ⟨k, c⟩ := p
    simp [verifyAll, ih]

theorem verify_iff (t : Ptree) :
    t.verify = true ↔ (t.data = [] ∨ t.children = []) ∧ ∀ p ∈ t.children, p.2.verify = true := by
  cases t with
  | node d cs =>
    simp only [verify, Bool.and_eq_true, Bool.or_eq_true, List.isEmpty_iff, verifyAll_iff,
      data_node, children_node]

@[simp] theorem verify_leaf (d : Str) : (leaf d).verify = true := by simp [leaf, verify, verifyAll]

@[simp] theorem verify_empty : empty.verify = true := verify_leaf []

theorem representable_of_verify {t : Ptree} (hd : t.data = []) (h : t.verify = true) :
    t.representable = true := by
  simp [representable, hd, h]

theorem verify_of_representable {t : Ptree} (h : t.representable = true) : t.verify = true := by
  simp only [representable, Bool.and_eq_true] at h
  exact h.2

theorem verify_pushBack {t c : Ptree} {k : Str} (hd : t.data = []) (ht : t.verify = true)
    (hc : c.verify = true) : (t.pushBack k c).verify = true := by
  rw [verify_iff] at ht ⊢
  refine ⟨.inl hd, ?_⟩
  intro p hp
  simp only [children_pushBack, List.mem_append, List.mem_singleton] at hp
  rcases hp with hp | rfl
  · exact ht.2 p hp
  · exact hc

end Ptree

end PropertyTree
