import Wye.PropertyTree.Basic

/-!
# A property tree as a map from paths to data

`dataAt t q` is the data of the node that the keys `q` lead to. `put` and `add_child` are described
by what they do to this map (`dataAt_put`, `dataAt_addChild`), and when no key stands twice among
the children of a node, the map decides whether `write_json` accepts the tree
(`verify_of_dataAt`). Two loops over named values are followed to their end: `putAll`, which puts a
text under every name, and `addAll`, which adds a subtree under every name.
-/

namespace PropertyTree

open Text Calls

namespace Ptree
variable {ε : Type*}

/-- The data of the node that a list of keys leads to. -/
def dataAt (t : Ptree) (q : List Str) : Option Str := (t.walk q).map data

@[simp] theorem walk_nil (t : Ptree) : t.walk [] = some t := rfl

theorem walk_cons (t : Ptree) (k : Str) (ks : List Str) :
    t.walk (k :: ks) = (t.find k).bind fun c => c.walk ks := rfl

@[simp] theorem dataAt_nil (t : Ptree) : t.dataAt [] = some t.data := rfl

theorem dataAt_cons (t : Ptree) (k : Str) (ks : List Str) :
    t.dataAt (k :: ks) = (t.find k).bind fun c => c.dataAt ks := by
  cases h : t.find k <;> simp [dataAt, walk_cons, h]

@[simp] theorem find_empty (k : Str) : empty.find k = none := rfl

@[simp] theorem find_leaf (d k : Str) : (leaf d).find k = none := rfl

@[simp] theorem dataAt_empty_cons (k : Str) (ks : List Str) : empty.dataAt (k :: ks) = none := rfl

@[simp] theorem dataAt_leaf_cons (d k : Str) (ks : List Str) : (leaf d).dataAt (k :: ks) = none := rfl

theorem walk_append (t : Ptree) (p q : List Str) :
    t.walk (p ++ q) = (t.walk p).bind fun c => c.walk q := by
  induction p generalizing t with
  | nil => rfl
  | cons k p ih =>
    rw [List.cons_append, walk_cons, walk_cons]
    cases t.find k with
    | none => rfl
    | some c => exact ih c

theorem dataAt_append (t : Ptree) (p q : List Str) :
    t.dataAt (p ++ q) = (t.walk p).bind fun c => c.dataAt q := by
  rw [dataAt, walk_append]
  cases t.walk p <;> rfl

theorem dataAt_of_prefix {t : Ptree} {p q : List Str} (h : p <+: q) (hq : t.dataAt q ≠ none) :
    t.dataAt p ≠ none := by
  obtain ⟨r, rfl⟩ := h
  rw [dataAt_append] at hq
  cases hp : t.walk p with
  | none => simp [hp] at hq
  | some c => simp [dataAt, hp]

theorem not_prefix_self_append (p : List Str) (k : Str) (r : List Str) : ¬ p ++ k :: r <+: p := by
  intro h
  have hlen := h.length_le
  simp only [List.length_append, List.length_cons] at hlen
  omega

/-! ### Rewriting under a path -/

theorem find_updateAt_cons (f : Ptree → Ptree) (t : Ptree) (k k' : Str) (ks : List Str) :
    (updateAt f t (k :: ks)).find k' =
      if k = k' then some (updateAt f ((t.find k).getD empty) ks) else t.find k' := by
  simp only [updateAt, find, children_node, lookup_upsert]

@[simp] theorem data_updateAt_cons (f : Ptree → Ptree) (t : Ptree) (k : Str) (ks : List Str) :
    (updateAt f t (k :: ks)).data = t.data := rfl

theorem dataAt_updateAt_append (f : Ptree → Ptree) (t : Ptree) (p r : List Str) :
    (updateAt f t p).dataAt (p ++ r) = (f ((t.walk p).getD empty)).dataAt r := by
  induction p generalizing t with
  | nil => rfl
  | cons k p ih =>
    rw [List.cons_append, dataAt_cons, find_updateAt_cons, if_pos rfl, Option.bind_some, ih,
      walk_cons]
    cases h : t.find k with
    | some c => rfl
    | none => cases p <;> rfl

theorem dataAt_updateAt_elsewhere (f : Ptree → Ptree) {t : Ptree} {p q : List Str}
    (h : ¬ p <+: q) :
    (updateAt f t p).dataAt q =
      if q <+: p then some ((t.dataAt q).getD []) else t.dataAt q := by
  induction p generalizing t q with
  | nil => exact absurd (List.nil_prefix) h
  | cons k p ih =>
    cases q with
    | nil => simp
    | cons k' q =>
      by_cases hk : k = k'
      · subst hk
        have hq : ¬ p <+: q := fun hpq => h (List.cons_prefix_cons.mpr ⟨rfl, hpq⟩)
        rw [dataAt_cons, find_updateAt_cons, if_pos rfl, Option.bind_some, ih hq, dataAt_cons]
        simp only [List.cons_prefix_cons, true_and]
        cases t.find k with
        | some c => rfl
        | none => cases q <;> simp
      · rw [dataAt_cons, find_updateAt_cons, if_neg hk, ← dataAt_cons, if_neg]
        rintro hp
        exact hk (List.cons_prefix_cons.mp hp).1.symm

theorem verify_updateAt {f : Ptree → Ptree} {t : Ptree} {p : List Str} (ht : t.verify = true)
    (hf : ∀ c, t.walk p = some c ∨ t.walk p = none ∧ c = empty → (f c).verify = true)
    (hdata : ∀ q d, q <+: p → q ≠ p → t.dataAt q = some d → d = []) :
    (updateAt f t p).verify = true := by
  induction p generalizing t with
  | nil => exact hf t (.inl rfl)
  | cons k p ih =>
    rw [verify_iff] at ht
    rw [updateAt, verify_iff]
    refine ⟨.inl (hdata [] _ List.nil_prefix (by simp) (dataAt_nil t)), ?_⟩
    intro x hx
    rcases mem_upsert hx with hx | rfl
    · exact ht.2 x hx
    · cases hc : lookup k t.children with
      | none =>
        refine ih verify_empty ?_ ?_
        · rintro c (hc' | ⟨-, rfl⟩)
          · cases p with
            | nil =>
              cases hc'
              exact hf _ (.inr ⟨by simp [walk_cons, find, hc], rfl⟩)
            | cons k' p => simp [walk_cons] at hc'
          · exact hf _ (.inr ⟨by simp [walk_cons, find, hc], rfl⟩)
        · intro q d _ _ hd
          cases q with
          | nil => simpa using hd.symm
          | cons k' q => simp at hd
      | some c =>
        refine ih (ht.2 _ (lookup_mem hc)) ?_ ?_
        · intro c' hc'
          refine hf c' ?_
          simpa [walk_cons, find, hc] using hc'
        · intro q d hq hne hd
          refine hdata (k :: q) d (List.cons_prefix_cons.mpr ⟨rfl, hq⟩) (by simpa using hne) ?_
          rw [dataAt_cons, find, hc]
          exact hd

theorem verify_walk {t c : Ptree} {p : List Str} (ht : t.verify = true) (h : t.walk p = some c) :
    c.verify = true := by
  induction p generalizing t with
  | nil =>
    cases h
    exact ht
  | cons k p ih =>
    rw [walk_cons, Option.bind_eq_some_iff] at h
    obtain ⟨c', hc', h⟩ := h
    exact ih (((verify_iff t).mp ht).2 _ (lookup_mem hc')) h

theorem dataAt_of_verify {t : Ptree} (ht : t.verify = true) {q : List Str} {d : Str}
    (hq : t.dataAt q = some d) (hd : d ≠ []) (k : Str) (r : List Str) :
    t.dataAt (q ++ k :: r) = none := by
  obtain ⟨c, hc, rfl⟩ := Option.map_eq_some_iff.mp hq
  have hverify := (verify_iff c).mp (verify_walk ht hc)
  rw [dataAt_append, hc, Option.bind_some, dataAt_cons, Ptree.find, hverify.1.resolve_left hd]
  rfl

/-! ### Trees without repeated keys -/

/-- No key stands twice among the children of a node. -/
inductive Unique : Ptree → Prop
  | node {d : Str} {cs : List (Str × Ptree)} : (cs.map Prod.fst).Nodup → (∀ p ∈ cs, Unique p.2) →
      Unique (.node d cs)

theorem unique_leaf (d : Str) : Unique (leaf d) := .node (by simp) (by simp)

theorem Unique.putValue {t : Ptree} (h : Unique t) (d : Str) : Unique (t.putValue d) := by
  cases h with
  | node hnd hall => exact .node hnd hall

theorem keys_upsert (k : Str) (f : Ptree → Ptree) (cs : List (Str × Ptree)) :
    (upsert k f cs).map Prod.fst =
      if k ∈ cs.map Prod.fst then cs.map Prod.fst else cs.map Prod.fst ++ [k] := by
  induction cs with
  | nil => simp [upsert]
  | cons c cs ih =>
    obtain ⟨j, c⟩ := c
    by_cases hj : j = k
    · simp [upsert, hj]
    · have hkj : k ≠ j := fun h => hj h.symm
      simp only [upsert, if_neg hj, List.map_cons, ih, List.mem_cons, hkj, false_or]
      split <;> rfl

theorem Unique.updateAt {f : Ptree → Ptree} {t : Ptree} (h : Unique t) (p : List Str)
    (hf : ∀ c, Unique c → Unique (f c)) : Unique (updateAt f t p) := by
  induction p generalizing t with
  | nil => exact hf t h
  | cons k p ih =>
    cases h with
    | @node d cs hnd hall =>
      refine .node ?_ ?_
      · rw [children_node, keys_upsert]
        split
        · exact hnd
        · rename_i hk
          exact List.nodup_append.mpr ⟨hnd, by simp, by
            rintro a ha b hb rfl
            exact hk (List.mem_singleton.mp hb ▸ ha)⟩
      · intro x hx
        rcases mem_upsert hx with hx | rfl
        · exact hall x hx
        · simp only [children_node]
          cases hc : lookup k cs with
          | none => exact ih (unique_leaf [])
          | some c => exact ih (hall _ (lookup_mem hc))

theorem Unique.find_mem {t : Ptree} (h : Unique t) {p : Str × Ptree} (hp : p ∈ t.children) :
    t.find p.1 = some p.2 := by
  cases h with
  | @node d cs hnd hall =>
    simp only [children_node] at hp
    simp only [find, children_node]
    clear hall
    induction cs with
    | nil => simp at hp
    | cons c cs ih =>
      simp only [List.map_cons, List.nodup_cons] at hnd
      rcases List.mem_cons.mp hp with rfl | hp
      · simp [lookup]
      · rw [lookup, if_neg, ih hnd.2 hp]
        rintro hk
        exact hnd.1 (hk ▸ List.mem_map_of_mem hp)

/-- Where no key repeats, a tree is accepted when no node with data has a child. -/
theorem verify_of_dataAt {t : Ptree} (hu : Unique t)
    (h : ∀ q d k, t.dataAt q = some d → d ≠ [] → t.dataAt (q ++ [k]) = none) :
    t.verify = true := by
  induction hu with
  | @node d cs hnd hall ih =>
    have hu : Unique (node d cs) := .node hnd hall
    rw [verify_iff]
    constructor
    · by_contra hne
      rw [not_or] at hne
      obtain ⟨hd, hcs⟩ := hne
      obtain ⟨c, cs', hcs'⟩ := List.exists_cons_of_ne_nil hcs
      have hnone := h [] d c.1 rfl hd
      rw [List.nil_append, dataAt_cons, hu.find_mem (hcs' ▸ List.mem_cons_self ..)] at hnone
      simp at hnone
    · intro p hp
      refine ih p hp ?_
      intro q d' k hd' hne
      have hstep : ∀ r, (node d cs).dataAt (p.1 :: r) = p.2.dataAt r := by
        intro r
        rw [dataAt_cons, hu.find_mem hp]
        rfl
      rw [← hstep, ← List.cons_append]
      exact h (p.1 :: q) d' k (by rw [hstep, hd']) hne

/-! ### `put` -/

/-- `put` gives the node its data and makes the nodes that are missing on the way. -/
theorem dataAt_put {t t' : Ptree} {path d : Str} (h : (t.put path d : Outcome ε Ptree) = .ok t')
    (q : List Str) :
    t'.dataAt q = if q = fragments path then some d
      else if q <+: fragments path then some ((t.dataAt q).getD []) else t.dataAt q := by
  rw [put, getChild?] at h
  by_cases hq : fragments path <+: q
  · obtain ⟨r, rfl⟩ := hq
    cases hc : t.walk (fragments path) with
    | some c =>
      rw [hc] at h
      cases h
      rw [dataAt_updateAt_append, hc, Option.getD_some, dataAt_append, hc, Option.bind_some]
      cases r with
      | nil => simp
      | cons k r => simp [dataAt_cons, find, not_prefix_self_append]
    | none =>
      simp only [hc, putChild] at h
      split at h
      · simp at h
      · cases h
        rw [dataAt_updateAt_append, dataAt_append, hc, Option.bind_none]
        cases r with
        | nil => simp
        | cons k r => simp [not_prefix_self_append]
  · have hne : q ≠ fragments path := fun he => hq (he ▸ List.prefix_refl _)
    rw [if_neg hne]
    cases hc : t.walk (fragments path) with
    | some c =>
      rw [hc] at h
      cases h
      exact dataAt_updateAt_elsewhere _ hq
    | none =>
      simp only [hc, putChild] at h
      split at h
      · simp at h
      · cases h
        exact dataAt_updateAt_elsewhere _ hq

theorem Unique.put {t t' : Ptree} {path d : Str} (ht : Unique t)
    (h : (t.put path d : Outcome ε Ptree) = .ok t') : Unique t' := by
  rw [Ptree.put] at h
  cases hc : t.getChild? path with
  | some c =>
    rw [hc] at h
    cases h
    exact ht.updateAt _ fun c hc => hc.putValue d
  | none =>
    simp only [hc, putChild] at h
    split at h
    · simp at h
    · cases h
      exact ht.updateAt _ fun _ _ => unique_leaf d

theorem put_ok {t : Ptree} {path : Str} (d : Str)
    (h : dangling path = true → t.dataAt (fragments path) ≠ none) :
    ∃ t', (t.put path d : Outcome ε Ptree) = .ok t' := by
  rw [put, getChild?]
  cases hc : t.walk (fragments path) with
  | some c => exact ⟨_, rfl⟩
  | none =>
    have hd : dangling path = false := by
      by_contra hd
      refine h (by simpa using hd) ?_
      simp [dataAt, hc]
    exact ⟨_, by simp only [putChild, hd]; rfl⟩

theorem dataAt_of_put {t t' : Ptree} {path d : Str}
    (h : (t.put path d : Outcome ε Ptree) = .ok t') (hd : dangling path = true) :
    t.dataAt (fragments path) ≠ none := by
  rw [put, getChild?] at h
  rw [dataAt]
  cases hc : t.walk (fragments path) with
  | some c => simp
  | none =>
    rw [hc] at h
    simp [putChild, hd] at h

/-! ### A loop of `put` -/

/-- `for (auto i : l) t.put(i.first, i.second)`. -/
def putAll (t : Ptree) (l : List (Str × Str)) : Outcome ε Ptree :=
  Outcome.foldl (fun t nv => t.put nv.1 nv.2) t l

theorem putAll_asserts (t : Ptree) (l : List (Str × Str)) :
    (t.putAll l : Outcome ε Ptree).Asserts :=
  Outcome.asserts_foldl (fun t nv => t.put_asserts nv.1 nv.2) t l

/-- The text put last under a list of keys. -/
def lastPut (l : List (Str × Str)) (q : List Str) : Option Str :=
  (l.reverse.find? fun nv => fragments nv.1 = q).map Prod.snd

theorem lastPut_concat (l : List (Str × Str)) (nv : Str × Str) (q : List Str) :
    lastPut (l ++ [nv]) q = if fragments nv.1 = q then some nv.2 else lastPut l q := by
  simp only [lastPut, List.reverse_append, List.reverse_singleton, List.singleton_append,
    List.find?_cons]
  by_cases h : fragments nv.1 = q <;> simp [h]

theorem exists_of_lastPut {l : List (Str × Str)} {q : List Str} {v : Str}
    (h : lastPut l q = some v) : ∃ nv ∈ l, fragments nv.1 = q ∧ nv.2 = v := by
  rw [lastPut, Option.map_eq_some_iff] at h
  obtain ⟨nv, hnv, rfl⟩ := h
  refine ⟨nv, ?_, by simpa using List.find?_some hnv, rfl⟩
  simpa using List.mem_of_find?_eq_some hnv

/-- Whether some name of the list leads to a list of keys or past it. -/
def Reached (l : List (Str × Str)) (q : List Str) : Prop :=
  q = [] ∨ ∃ nv ∈ l, q <+: fragments nv.1

theorem putAll_concat (t : Ptree) (l : List (Str × Str)) (nv : Str × Str) :
    (t.putAll (l ++ [nv]) : Outcome ε Ptree) = (t.putAll l).bind fun t' => t'.put nv.1 nv.2 := by
  rw [putAll, Outcome.foldl_append]
  congr 1
  funext t'
  cases h : (t'.put nv.1 nv.2 : Outcome ε Ptree) <;> simp [h]

open Classical in
/-- The tree a loop of `put` builds, as a map: at a name stands what was put there last, on the way
to a name there is no data, and there is nothing else. -/
theorem dataAt_putAll {l : List (Str × Str)} {t : Ptree}
    (h : (empty.putAll l : Outcome ε Ptree) = .ok t) (q : List Str) :
    t.dataAt q = (lastPut l q).or (if Reached l q then some [] else none) := by
  induction l using List.reverseRecOn generalizing t with
  | nil =>
    cases h
    cases q with
    | nil => simp [lastPut, Reached]
    | cons k q => simp [lastPut, Reached]
  | append_singleton l nv ih =>
    rw [putAll_concat, Outcome.bind_eq_ok] at h
    obtain ⟨t', ht', h⟩ := h
    rw [dataAt_put h, ih ht', lastPut_concat]
    by_cases hq : q = fragments nv.1
    · rw [if_pos hq, if_pos hq.symm]
      rfl
    · rw [if_neg hq, if_neg (Ne.symm hq)]
      have hr : Reached (l ++ [nv]) q ↔ Reached l q ∨ q <+: fragments nv.1 := by
        simp only [Reached, List.mem_append, List.mem_singleton]
        constructor
        · rintro (h | ⟨x, hx | rfl, hp⟩)
          · exact .inl (.inl h)
          · exact .inl (.inr ⟨x, hx, hp⟩)
          · exact .inr hp
        · rintro ((h | ⟨x, hx, hp⟩) | hp)
          · exact .inl h
          · exact .inr ⟨x, .inl hx, hp⟩
          · exact .inr ⟨nv, .inr rfl, hp⟩
      by_cases hp : q <+: fragments nv.1
      · rw [if_pos hp, if_pos (hr.mpr (.inr hp))]
        cases lastPut l q with
        | some v => rfl
        | none => split <;> rfl
      · rw [if_neg hp]
        simp only [hr, hp, or_false]

theorem Unique.putAll {l : List (Str × Str)} {t t' : Ptree} (ht : Unique t)
    (h : (t.putAll l : Outcome ε Ptree) = .ok t') : Unique t' := by
  induction l generalizing t with
  | nil =>
    cases h
    exact ht
  | cons nv l ih =>
    simp only [Ptree.putAll, Outcome.foldl_cons, Outcome.bind_eq_ok] at h
    obtain ⟨t₁, h₁, h⟩ := h
    exact ih (ht.put h₁) h

theorem putAll_ok {l : List (Str × Str)}
    (h : ∀ l₁ nv l₂, l = l₁ ++ nv :: l₂ → dangling nv.1 = true → Reached l₁ (fragments nv.1)) :
    ∃ t, (empty.putAll l : Outcome ε Ptree) = .ok t := by
  induction l using List.reverseRecOn with
  | nil => exact ⟨_, rfl⟩
  | append_singleton l nv ih =>
    obtain ⟨t, ht⟩ := ih fun l₁ nv' l₂ hl hd => h l₁ nv' (l₂ ++ [nv]) (by simp [hl]) hd
    rw [putAll_concat, ht, Outcome.bind_ok]
    refine put_ok nv.2 fun hd => ?_
    classical
    rw [dataAt_putAll ht, if_pos (h l nv [] rfl hd)]
    cases lastPut l (fragments nv.1) <;> simp

/-- The tree a loop of `put` builds is accepted by `write_json` when no name leads past a name that
was last given data. -/
theorem verify_putAll {l : List (Str × Str)} {t : Ptree}
    (h : (empty.putAll l : Outcome ε Ptree) = .ok t)
    (hl : ∀ q v, lastPut l q = some v → v ≠ [] → ∀ nv ∈ l, ∀ k, ¬ q ++ [k] <+: fragments nv.1) :
    t.verify = true := by
  classical
  refine verify_of_dataAt ((unique_leaf []).putAll h) ?_
  intro q d k hq hd
  rw [dataAt_putAll h] at hq ⊢
  have hlast : lastPut l q = some d := by
    cases hv : lastPut l q with
    | some v => simpa [hv] using hq
    | none =>
      rw [hv, Option.none_or] at hq
      split at hq
      · exact absurd (Option.some.inj hq).symm hd
      · simp at hq
  have hno := hl q d hlast hd
  have h₁ : lastPut l (q ++ [k]) = none := by
    by_contra hne
    obtain ⟨v, hv⟩ := Option.ne_none_iff_exists'.mp hne
    obtain ⟨nv, hnv, hf, -⟩ := exists_of_lastPut hv
    exact hno nv hnv k (hf ▸ List.prefix_refl _)
  have h₂ : ¬ Reached l (q ++ [k]) := by
    rintro (h | ⟨nv, hnv, hp⟩)
    · simp at h
    · exact hno nv hnv k hp
  rw [h₁, if_neg h₂]
  rfl

/-! ### `add_child` -/

theorem components_ne_nil (path : Str) : components path ≠ [] := List.splitOn_ne_nil _ _

theorem fragments_of_not_dangling {path : Str} (h : dangling path = false) :
    fragments path = components path := by
  simp [fragments, h]

theorem addChild_of_not_dangling {t c : Ptree} {path : Str} (h : dangling path = false) :
    (t.addChild path c : Outcome ε Ptree) = .ok (updateAt (fun parent =>
      parent.pushBack ((components path).getLast (components_ne_nil path)) c) t
      (components path).dropLast) := by
  rw [addChild, h, fragments_of_not_dangling h]
  simp [List.getLastD_eq_getLast?, List.getLast?_eq_some_getLast (components_ne_nil path)]

theorem not_dangling_of_addChild {t t' c : Ptree} {path : Str}
    (h : (t.addChild path c : Outcome ε Ptree) = .ok t') : dangling path = false := by
  cases hdang : dangling path with
  | false => rfl
  | true => simp [addChild, hdang] at h

theorem find_pushBack (t c : Ptree) (k k' : Str) :
    (t.pushBack k c).find k' = (t.find k').or (if k = k' then some c else none) := by
  rw [find, children_pushBack, lookup_append]
  rfl

/-- The tree with a child added, as a map: what was there stays, the nodes on the way are made, and
a child under a new key is found there. -/
theorem dataAt_addChild {t t' c : Ptree} {path : Str}
    (h : (t.addChild path c : Outcome ε Ptree) = .ok t') (q : List Str) :
    t'.dataAt q = (t.dataAt q).or
      (if q <+: (components path).dropLast then some []
      else if components path <+: q ∧ t.dataAt (components path) = none then
        c.dataAt (q.drop (components path).length)
      else none) := by
  rw [addChild_of_not_dangling (not_dangling_of_addChild h)] at h
  cases h
  have hlast := List.dropLast_append_getLast (components_ne_nil path)
  generalize (components path).getLast (components_ne_nil path) = last at hlast
  generalize hway : (components path).dropLast = way at hlast
  rw [← hlast]
  by_cases hp : way <+: q
  · obtain ⟨r, rfl⟩ := hp
    rw [dataAt_updateAt_append]
    cases r with
    | nil =>
      rw [List.append_nil, if_pos (List.prefix_refl way), dataAt_nil, data_pushBack, dataAt]
      cases t.walk way <;> rfl
    | cons k r =>
      have hpre : way ++ [last] <+: way ++ k :: r ↔ last = k := by
        rw [List.prefix_append_right_inj, List.cons_prefix_cons]
        simp
      have hdrop : (way ++ k :: r).drop (way ++ [last]).length = r := by
        rw [List.append_cons way k r, List.drop_left' (by simp)]
      rw [if_neg (not_prefix_self_append way k r), dataAt_cons, find_pushBack, hdrop,
        dataAt_append, dataAt_append]
      simp only [hpre]
      cases t.walk way with
      | none => by_cases hk : last = k <;> simp [hk]
      | some c' =>
        rw [Option.getD_some, Option.bind_some, Option.bind_some, dataAt_cons, dataAt_cons]
        by_cases hk : last = k
        · subst hk
          cases c'.find last <;> simp
        · cases c'.find k <;> simp [hk]
  · have hno : ¬ way ++ [last] <+: q := fun h => hp ((List.prefix_append _ _).trans h)
    rw [dataAt_updateAt_elsewhere _ hp, if_neg (fun h : _ ∧ _ => hno h.1)]
    split
    · cases t.dataAt q <;> rfl
    · rw [Option.or_none]

theorem dataAt_addChild_cases {t t' c : Ptree} {path : Str}
    (h : (t.addChild path c : Outcome ε Ptree) = .ok t') {q : List Str} {d : Str}
    (hq : t'.dataAt q = some d) : t.dataAt q = some d ∨
      (q <+: (components path).dropLast ∧ d = []) ∨
      ∃ r, q = components path ++ r ∧ c.dataAt r = some d := by
  rw [dataAt_addChild h, Option.or_eq_some_iff] at hq
  rcases hq with hq | ⟨-, hq⟩
  · exact .inl hq
  · split at hq
    · exact .inr (.inl ⟨‹_›, (Option.some.inj hq).symm⟩)
    · rw [Option.ite_none_right_eq_some] at hq
      obtain ⟨⟨⟨r, rfl⟩, -⟩, hq⟩ := hq
      exact .inr (.inr ⟨r, rfl, by simpa using hq⟩)

theorem dataAt_addChild_new {t t' c : Ptree} {path : Str}
    (h : (t.addChild path c : Outcome ε Ptree) = .ok t') (hnew : t.dataAt (components path) = none)
    (r : List Str) : t'.dataAt (components path ++ r) = c.dataAt r := by
  have hnone : t.dataAt (components path ++ r) = none := by
    by_contra hr
    exact dataAt_of_prefix (List.prefix_append _ r) hr hnew
  have hlong : ¬ components path ++ r <+: (components path).dropLast := by
    intro hp
    have hlen := hp.length_le
    have hpos := List.length_pos_of_ne_nil (components_ne_nil path)
    rw [List.length_append, List.length_dropLast] at hlen
    omega
  rw [dataAt_addChild h, hnone, Option.none_or, if_neg hlong, if_pos ⟨List.prefix_append _ r, hnew⟩,
    List.drop_left]

theorem data_addChild {t t' c : Ptree} {path : Str}
    (h : (t.addChild path c : Outcome ε Ptree) = .ok t') : t'.data = t.data := by
  rw [addChild] at h
  split at h
  · simp at h
  · cases h
    cases (fragments path).dropLast <;> rfl

/-- `for (auto i : l) t.add_child(i.first, i.second)`. -/
def addAll (t : Ptree) (l : List (Str × Ptree)) : Outcome ε Ptree :=
  Outcome.foldl (fun t nc => t.addChild nc.1 nc.2) t l

theorem addAll_asserts (t : Ptree) (l : List (Str × Ptree)) :
    (t.addAll l : Outcome ε Ptree).Asserts :=
  Outcome.asserts_foldl (fun t nc => t.addChild_asserts nc.1 nc.2) t l

theorem addAll_concat (t : Ptree) (l : List (Str × Ptree)) (nc : Str × Ptree) :
    (t.addAll (l ++ [nc]) : Outcome ε Ptree) = (t.addAll l).bind fun t' => t'.addChild nc.1 nc.2 := by
  rw [addAll, Outcome.foldl_append]
  congr 1
  funext t'
  cases h : (t'.addChild nc.1 nc.2 : Outcome ε Ptree) <;> simp [h]

theorem not_dangling_of_addAll {l : List (Str × Ptree)} {t t' : Ptree}
    (h : (t.addAll l : Outcome ε Ptree) = .ok t') : ∀ nc ∈ l, dangling nc.1 = false := by
  induction l generalizing t with
  | nil => simp
  | cons nc l ih =>
    simp only [addAll, Outcome.foldl_cons, Outcome.bind_eq_ok] at h
    obtain ⟨t₁, h₁, h⟩ := h
    exact List.forall_mem_cons.mpr ⟨not_dangling_of_addChild h₁, ih h⟩

theorem dataAt_addAll_cases {l : List (Str × Ptree)} {t : Ptree}
    (h : (empty.addAll l : Outcome ε Ptree) = .ok t) {q : List Str} (hq : t.dataAt q ≠ none) :
    q = [] ∨ ∃ nc ∈ l, q <+: components nc.1 ∨
      ∃ r, q = components nc.1 ++ r ∧ nc.2.dataAt r ≠ none := by
  induction l using List.reverseRecOn generalizing t with
  | nil =>
    cases h
    cases q with
    | nil => exact .inl rfl
    | cons k q => exact absurd rfl hq
  | append_singleton l nc ih =>
    rw [addAll_concat, Outcome.bind_eq_ok] at h
    obtain ⟨t', ht', h⟩ := h
    obtain ⟨d, hd⟩ := Option.ne_none_iff_exists'.mp hq
    rcases dataAt_addChild_cases h hd with hold | ⟨hway, -⟩ | ⟨r, hr, hd⟩
    · refine (ih ht' (by rw [hold]; simp)).imp_right fun ⟨nc', hnc', hcases⟩ => ?_
      exact ⟨nc', List.mem_append_left _ hnc', hcases⟩
    · exact .inr ⟨nc, by simp, .inl (hway.trans (List.dropLast_prefix _))⟩
    · exact .inr ⟨nc, by simp, .inr ⟨r, hr, by rw [hd]; simp⟩⟩

/-- What was added is found again, when no name leads to a node that an earlier one has made. -/
theorem dataAt_addAll {l : List (Str × Ptree)} {t : Ptree}
    (h : (empty.addAll l : Outcome ε Ptree) = .ok t)
    (hfresh : l.Pairwise fun nc' nc => ¬ components nc.1 <+: components nc'.1 ∧
      ∀ r, components nc.1 = components nc'.1 ++ r → nc'.2.dataAt r = none)
    {nc : Str × Ptree} (hnc : nc ∈ l) {r : List Str} {d : Str} (hr : nc.2.dataAt r = some d) :
    t.dataAt (components nc.1 ++ r) = some d := by
  induction l using List.reverseRecOn generalizing t with
  | nil => simp at hnc
  | append_singleton l last ih =>
    rw [addAll_concat, Outcome.bind_eq_ok] at h
    obtain ⟨t', ht', h⟩ := h
    obtain ⟨hfresh', -, hlast⟩ := List.pairwise_append.mp hfresh
    rcases List.mem_append.mp hnc with hnc | hnc
    · rw [dataAt_addChild h, ih ht' hfresh' hnc, Option.some_or]
    · rw [List.mem_singleton] at hnc
      subst hnc
      rw [dataAt_addChild_new h, hr]
      by_contra hold
      rcases dataAt_addAll_cases ht' hold with hnil | ⟨nc', hnc', hp | ⟨r', heq, hr'⟩⟩
      · exact components_ne_nil nc.1 hnil
      · exact (hlast nc' hnc' nc (by simp)).1 hp
      · exact hr' ((hlast nc' hnc' nc (by simp)).2 r' heq)

theorem addAll_ok {l : List (Str × Ptree)} (hdang : ∀ nc ∈ l, dangling nc.1 = false)
    (hverify : ∀ nc ∈ l, nc.2.verify = true)
    (hclash : ∀ nc ∈ l, ∀ r d, nc.2.dataAt r = some d → d ≠ [] → ∀ nc' ∈ l,
      components nc.1 ++ r <+: components nc'.1 → components nc.1 ++ r = components nc'.1) :
    ∃ t, (empty.addAll l : Outcome ε Ptree) = .ok t ∧ t.data = [] ∧ t.verify = true := by
  suffices h : ∀ l₁ l₂, l = l₁ ++ l₂ → ∃ t, (empty.addAll l₁ : Outcome ε Ptree) = .ok t ∧
      t.data = [] ∧ t.verify = true ∧ ∀ q d, t.dataAt q = some d → d ≠ [] →
        ∃ nc ∈ l₁, ∃ r, q = components nc.1 ++ r ∧ nc.2.dataAt r = some d by
    obtain ⟨t, ht, hd, hv, -⟩ := h l [] (by simp)
    exact ⟨t, ht, hd, hv⟩
  intro l₁
  induction l₁ using List.reverseRecOn with
  | nil =>
    intro l₂ _
    refine ⟨empty, rfl, rfl, verify_empty, ?_⟩
    intro q d hq hd
    cases q with
    | nil => exact absurd (by simpa using hq.symm) hd
    | cons k q => simp at hq
  | append_singleton l₁ nc ih =>
    intro l₂ hl
    obtain ⟨t, ht, htd, htv, hdata⟩ := ih (nc :: l₂) (by simp [hl])
    have hmem : nc ∈ l := by simp [hl]
    have hmem₁ : ∀ x ∈ l₁, x ∈ l := fun x hx => by simp [hl, hx]
    have hok := addChild_of_not_dangling (ε := ε) (t := t) (c := nc.2) (hdang nc hmem)
    have hstep : (empty.addAll (l₁ ++ [nc]) : Outcome ε Ptree) = t.addChild nc.1 nc.2 := by
      rw [addAll_concat, ht, Outcome.bind_ok]
    -- a node on the way that has data would be data of a tree added earlier
    have hway : ∀ q d, q <+: components nc.1 → q ≠ components nc.1 → t.dataAt q = some d →
        d = [] := by
      intro q d hq hne htq
      by_contra hd
      obtain ⟨nc', hnc', r, rfl, hr⟩ := hdata q d htq hd
      exact hne (hclash nc' (hmem₁ nc' hnc') r d hr hd nc hmem hq)
    have hlen : (components nc.1).dropLast <+: components nc.1 := List.dropLast_prefix _
    have hshort : ∀ q, q <+: (components nc.1).dropLast → q ≠ components nc.1 := by
      rintro q hq rfl
      have h₁ := hq.length_le
      have h₂ := List.length_pos_iff.mpr (components_ne_nil nc.1)
      rw [List.length_dropLast] at h₁
      omega
    refine ⟨_, hstep.trans hok, ?_, ?_, ?_⟩
    · rw [data_addChild hok, htd]
    · refine verify_updateAt htv ?_ fun q d hq _ => hway q d (hq.trans hlen) (hshort q hq)
      rintro c (hc | ⟨-, rfl⟩)
      · have hcd : t.dataAt (components nc.1).dropLast = some c.data := by simp [dataAt, hc]
        refine verify_pushBack (hway _ _ hlen (hshort _ (List.prefix_refl _)) hcd) ?_ (hverify nc hmem)
        exact verify_walk htv hc
      · exact verify_pushBack rfl verify_empty (hverify nc hmem)
    · intro q d hq hd
      rcases dataAt_addChild_cases hok hq with h | ⟨-, rfl⟩ | ⟨r, hr, hr'⟩
      · obtain ⟨nc', hnc', r, hr⟩ := hdata q d h hd
        exact ⟨nc', List.mem_append_left _ hnc', r, hr⟩
      · exact absurd rfl hd
      · exact ⟨nc, by simp, r, hr, hr'⟩

/-! ### Names without dots -/

/-- A name that is its own path. -/
def Plain (k : Str) : Prop := k ≠ [] ∧ '.' ∉ k

instance (k : Str) : Decidable (Plain k) := inferInstanceAs (Decidable (_ ∧ _))

theorem components_plain {k : Str} (h : Plain k) : components k = [k] :=
  List.splitOn_eq_singleton h.2

theorem dangling_plain {k : Str} (h : Plain k) : dangling k = false := by
  simp [dangling, components_plain h, h.1]

theorem fragments_plain {k : Str} (h : Plain k) : fragments k = [k] := by
  rw [fragments_of_not_dangling (dangling_plain h), components_plain h]

theorem getChild?_plain {k : Str} (h : Plain k) (t : Ptree) : t.getChild? k = t.find k := by
  rw [getChild?, fragments_plain h, walk_cons]
  cases t.find k <;> rfl

theorem get?_plain {k : Str} (h : Plain k) (t : Ptree) : t.get? k = (t.find k).map data := by
  rw [get?, getChild?_plain h]

theorem put_plain {k : Str} (h : Plain k) {t : Ptree} (hk : t.find k = none) (d : Str) :
    (t.put k d : Outcome ε Ptree) = .ok (t.pushBack k (leaf d)) := by
  rw [put, getChild?_plain h, hk]
  dsimp only
  rw [putChild, dangling_plain h, if_neg Bool.false_ne_true, fragments_plain h]
  simp only [updateAt, upsert_of_lookup_none _ hk]
  rfl

theorem addChild_plain {k : Str} (h : Plain k) (t c : Ptree) :
    (t.addChild k c : Outcome ε Ptree) = .ok (t.pushBack k c) := by
  rw [addChild, dangling_plain h, if_neg Bool.false_ne_true, fragments_plain h]
  rfl

theorem foldl_addChild {α : Type*} {key : α → Str} (render : α → Outcome ε Ptree) (keep : α → Bool)
    {as : List α} (hkeys : ∀ a ∈ as, Plain (key a)) (t : Ptree) :
    Outcome.foldl (fun r a => if keep a then (render a).bind fun w => r.addChild (key a) w else .ok r)
        t as =
      (Outcome.traverse (fun a => (render a).map fun w => (key a, w)) (as.filter keep)).map fun es =>
        node t.data (t.children ++ es) := by
  induction as generalizing t with
  | nil => simp [Outcome.traverse]
  | cons a as ih =>
    have hrest := fun t => ih (fun b hb => hkeys b (List.mem_cons_of_mem _ hb)) t
    rw [Outcome.foldl_cons]
    cases hk : keep a with
    | false =>
      rw [if_neg Bool.false_ne_true, Outcome.bind_ok, hrest, List.filter_cons, hk,
        if_neg Bool.false_ne_true]
    | true =>
      rw [if_pos rfl, List.filter_cons, hk, if_pos rfl, Outcome.traverse]
      cases render a with
      | ok w =>
        rw [Outcome.bind_ok, addChild_plain (hkeys a List.mem_cons_self), Outcome.bind_ok, hrest]
        cases Outcome.traverse (fun a => (render a).map fun w => (key a, w)) (as.filter keep) <;>
          simp
      | throw e => rfl
      | lost why => rfl

end Ptree

end PropertyTree
