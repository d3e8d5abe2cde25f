import Wye.Base.Maps
import Wye.PropertyTree.Paths

/-!
# Maps as trees

A `std::map` is put into a tree one name after another, in the order of the names, which are read as
paths. A name and the same name with a dot at the end lead to one node, and the second comes later,
so the node holds its text (`effective`). `putAll_map_iff` says for which maps the loop fails no
assertion and `write_json` accepts the tree (`PutSafe`).
-/

namespace PropertyTree

open Text Calls Std

namespace Ptree

/-! ### Dotted names -/

theorem components_append_dot (a b : Str) :
    components (a ++ '.' :: b) = components a ++ components b :=
  List.splitOn_append_cons_self a b

theorem join_components (a : Str) : join '.' (components a) = a := List.intercalate_splitOn '.'

theorem components_injective {a b : Str} (h : components a = components b) : a = b := by
  rw [← join_components a, ← join_components b, h]

theorem components_prefix_iff {a b : Str} :
    components a <+: components b ↔ b = a ∨ ∃ r, b = a ++ '.' :: r := by
  constructor
  · rintro ⟨s, hs⟩
    cases s with
    | nil => exact .inl (components_injective (by simpa using hs.symm))
    | cons y ys =>
      refine .inr ⟨join '.' (y :: ys), ?_⟩
      rw [← join_components b, ← hs, join_append_cons '.' (components_ne_nil a), join_components]
  · rintro (rfl | ⟨r, rfl⟩)
    · exact List.prefix_refl _
    · rw [components_append_dot]
      exact List.prefix_append _ _

theorem dangling_append_dot (a b : Str) : dangling (a ++ '.' :: b) = dangling b := by
  rw [dangling, components_append_dot, List.getLast?_append_of_ne_nil _ (components_ne_nil b)]
  rfl

theorem fragments_append_dot (a b : Str) :
    fragments (a ++ '.' :: b) = components a ++ fragments b := by
  rw [fragments, dangling_append_dot, components_append_dot, fragments]
  split
  · exact List.dropLast_append_of_ne_nil (components_ne_nil b)
  · rfl

@[simp] theorem dangling_dot (n : Str) : dangling (n ++ ['.']) = true := dangling_append_dot n []

theorem fragments_dot (n : Str) : fragments (n ++ ['.']) = components n := by
  rw [fragments_append_dot]
  exact List.append_nil _

theorem fragments_nil : fragments [] = [] := rfl

theorem dangling_cases {n : Str} (h : dangling n = true) : n = [] ∨ ∃ q, n = q ++ ['.'] := by
  obtain ⟨xs, hxs⟩ : ∃ xs, components n = xs ++ [[]] := by
    rw [dangling, beq_iff_eq, List.getLast?_eq_some_iff] at h
    exact h
  rw [← join_components n, hxs]
  by_cases hnil : xs = []
  · exact .inl (by simp [hnil])
  · exact .inr ⟨join '.' xs, by rw [join_append_cons '.' hnil, join_singleton]⟩

/-- A path leads to the node under its name, or under its name without the dot at the end. -/
theorem fragments_eq_components_iff {n q : Str} (hq : dangling q = false) :
    fragments n = components q ↔ n = q ∨ n = q ++ ['.'] := by
  constructor
  · intro h
    by_cases hn : dangling n = true
    · rcases dangling_cases hn with rfl | ⟨p, rfl⟩
      · exact absurd h.symm (components_ne_nil q)
      · rw [fragments_dot] at h
        exact .inr (by rw [components_injective h])
    · rw [fragments_of_not_dangling (by simpa using hn)] at h
      exact .inl (components_injective h)
  · rintro (rfl | rfl)
    · exact fragments_of_not_dangling hq
    · exact fragments_dot q

theorem fragments_prefix_components (n : Str) : fragments n <+: components n := by
  unfold fragments
  split
  · exact List.dropLast_prefix _
  · exact List.prefix_refl _

/-! ### The order of names -/

theorem compare_append_cons (a : Str) (c : Char) (r : Str) : compare a (a ++ c :: r) = .lt := by
  induction a with
  | nil => rfl
  | cons x a ih =>
    rw [List.cons_append, List.compare_cons_cons]
    simp [ih]

theorem not_compare_append_cons (a : Str) (c : Char) (r : Str) : compare (a ++ c :: r) a ≠ .lt := by
  rw [OrientedOrd.eq_swap, compare_append_cons]
  decide

theorem lt_of_split {β : Type*} {m : ExtTreeMap Str β compare} {l₁ l₂ : List (Str × β)}
    {nv : Str × β} (hl : m.toList = l₁ ++ nv :: l₂) :
    (∀ nv' ∈ l₁, compare nv'.1 nv.1 = .lt) ∧ ∀ nv' ∈ l₂, compare nv.1 nv'.1 = .lt := by
  have hsorted := ExtTreeMap.ordered_keys_toList (t := m)
  rw [hl, List.pairwise_append, List.pairwise_cons] at hsorted
  exact ⟨fun nv' h => hsorted.2.2 nv' h nv List.mem_cons_self, hsorted.2.1.1⟩

theorem mem_before {β : Type*} {m : ExtTreeMap Str β compare} {l₁ l₂ : List (Str × β)} {n : Str}
    {c : Char} {r : Str} {v w : β} (hl : m.toList = l₁ ++ (n ++ c :: r, w) :: l₂)
    (hn : m[n]? = some v) : (n, v) ∈ l₁ := by
  have hmem := Maps.mem_toList.mpr hn
  rw [hl] at hmem
  rcases List.mem_append.mp hmem with hmem | hmem
  · exact hmem
  rcases List.mem_cons.mp hmem with heq | hmem
  · have hlen := congrArg List.length (congrArg Prod.fst heq)
    simp at hlen
  · exact absurd ((lt_of_split hl).2 _ hmem) (not_compare_append_cons n c r)

/-! ### A map put in order -/

/-- The text that a name leads to once a map has been put. -/
def effective (m : ExtTreeMap Str Str compare) (n : Str) : Option Str :=
  m[n ++ ['.']]?.or m[n]?

/-- The maps that are put without a failed assertion into a tree that `write_json` accepts. -/
structure PutSafe (m : ExtTreeMap Str Str compare) : Prop where
  /-- A text put at the root stands alone. -/
  root : ∀ v, m[([] : Str)]? = some v → v ≠ [] → ∀ n ∈ m, n = []
  /-- A dot at the end only adds to a name that is there. -/
  dot : ∀ n, n ++ ['.'] ∈ m → n ∈ m ∧ dangling n = false
  /-- No name leads past a text. -/
  leaf : ∀ n v, dangling n = false → effective m n = some v → v ≠ [] → ∀ r, r ≠ [] →
    n ++ '.' :: r ∉ m

section
variable {m : ExtTreeMap Str Str compare} {ε : Type*}

theorem exists_get_of_mem {β : Type*} {m : ExtTreeMap Str β compare} {n : Str} (h : n ∈ m) :
    ∃ v, m[n]? = some v :=
  Option.isSome_iff_exists.mp (ExtTreeMap.mem_iff_isSome_getElem?.mp h)

theorem mem_of_get {β : Type*} {m : ExtTreeMap Str β compare} {n : Str} {v : β}
    (h : m[n]? = some v) : n ∈ m :=
  ExtTreeMap.mem_iff_isSome_getElem?.mpr (by rw [h]; rfl)

theorem split_toList {β : Type*} {m : ExtTreeMap Str β compare} {n : Str} {v : β}
    (h : m[n]? = some v) : ∃ l₁ l₂, m.toList = l₁ ++ (n, v) :: l₂ ∧
      (∀ nv ∈ l₁, nv.1 ≠ n) ∧ ∀ nv ∈ l₂, nv.1 ≠ n := by
  obtain ⟨l₁, l₂, hl⟩ := List.append_of_mem (Maps.mem_toList.mpr h)
  have hnodup := Maps.nodup_keys m
  rw [hl, List.map_append, List.map_cons, List.nodup_append, List.nodup_cons] at hnodup
  obtain ⟨-, ⟨hafter, -⟩, hbefore⟩ := hnodup
  refine ⟨l₁, l₂, hl, fun nv hnv heq => ?_, fun nv hnv heq => hafter ?_⟩
  · exact hbefore _ (List.mem_map.mpr ⟨nv, hnv, rfl⟩) n List.mem_cons_self heq
  · exact List.mem_map.mpr ⟨nv, hnv, heq⟩

theorem lastPut_append_cons {l₁ l₂ : List (Str × Str)} {n v : Str} {q : List Str}
    (hq : fragments n = q) (hl₂ : ∀ nv ∈ l₂, fragments nv.1 ≠ q) :
    lastPut (l₁ ++ (n, v) :: l₂) q = some v := by
  induction l₂ using List.reverseRecOn with
  | nil => rw [lastPut_concat, if_pos hq]
  | append_singleton l₂ nv ih =>
    rw [← List.cons_append, ← List.append_assoc, lastPut_concat, if_neg (hl₂ nv (by simp)),
      ih fun nv' h => hl₂ nv' (by simp [h])]

theorem lastPut_eq_effective {n : Str} (hn : dangling n = false) :
    lastPut m.toList (components n) = effective m n := by
  have hfrag := fun n' => fragments_eq_components_iff (n := n') hn
  unfold effective
  cases hdot : m[n ++ ['.']]? with
  | some v =>
    obtain ⟨l₁, l₂, hl, -, hafter⟩ := split_toList hdot
    rw [hl, Option.some_or]
    refine lastPut_append_cons ((hfrag _).mpr (.inr rfl)) fun nv hnv heq => ?_
    rcases (hfrag nv.1).mp heq with heq | heq
    · -- the name without the dot stands before
      have hget : m[n]? = some nv.2 := by
        rw [← heq, ← Maps.mem_toList, hl]
        simp [hnv]
      have hlt := mem_before hl hget
      obtain ⟨l₁', l₂', hl', hbefore, -⟩ := split_toList hget
      have hnodup := Maps.nodup_keys m
      rw [hl, List.map_append, List.nodup_append] at hnodup
      exact hnodup.2.2 n (List.mem_map.mpr ⟨_, hlt, rfl⟩) n
        (List.mem_map.mpr ⟨nv, List.mem_cons_of_mem _ hnv, heq⟩) rfl
    · exact hafter nv hnv heq
  | none =>
    rw [Option.none_or]
    have hno : ∀ nv ∈ m.toList, nv.1 ≠ n ++ ['.'] := by
      rintro nv hnv heq
      have hget := Maps.mem_toList.mp hnv
      rw [heq, hdot] at hget
      cases hget
    cases hget : m[n]? with
    | some v =>
      obtain ⟨l₁, l₂, hl, -, hafter⟩ := split_toList hget
      rw [hl]
      refine lastPut_append_cons ((hfrag _).mpr (.inl rfl)) fun nv hnv heq => ?_
      rcases (hfrag nv.1).mp heq with heq | heq
      · exact hafter nv hnv heq
      · exact hno nv (by rw [hl]; simp [hnv]) heq
    | none =>
      by_contra hne
      obtain ⟨v, hv⟩ := Option.ne_none_iff_exists'.mp hne
      obtain ⟨nv, hnv, heq, -⟩ := exists_of_lastPut hv
      rcases (hfrag nv.1).mp heq with heq | heq
      · have h := Maps.mem_toList.mp hnv
        rw [heq, hget] at h
        cases h
      · exact hno nv hnv heq

theorem fragments_ne_nil {n : Str} (h : n ≠ []) : fragments n ≠ [] := by
  by_cases hn : dangling n = true
  · rcases dangling_cases hn with rfl | ⟨q, rfl⟩
    · exact absurd rfl h
    · rw [fragments_dot]
      exact components_ne_nil q
  · rw [fragments_of_not_dangling (by simpa using hn)]
    exact components_ne_nil n

theorem prefix_fragments {n q : Str} {k : Str} (h : components q ++ [k] <+: fragments n) :
    ∃ r, r ≠ [] ∧ n = q ++ '.' :: r := by
  have hprefix : components q <+: components n :=
    ((List.prefix_append _ _).trans h).trans (fragments_prefix_components n)
  rcases components_prefix_iff.mp hprefix with rfl | ⟨r, rfl⟩
  · exact absurd (h.trans (fragments_prefix_components n)) (not_prefix_self_append _ k [])
  · refine ⟨r, ?_, rfl⟩
    rintro rfl
    rw [fragments_dot] at h
    exact not_prefix_self_append _ k [] h

theorem PutSafe.putAll_ok (h : PutSafe m) :
    ∃ t, (empty.putAll m.toList : Outcome ε Ptree) = .ok t ∧ t.verify = true := by
  have hget : ∀ nv ∈ m.toList, m[nv.1]? = some nv.2 := fun nv hnv => Maps.mem_toList.mp hnv
  obtain ⟨t, ht⟩ := Ptree.putAll_ok (ε := ε) (l := m.toList) fun l₁ nv l₂ hl hdang => by
    rcases dangling_cases hdang with hnil | ⟨q, hq⟩
    · exact .inl (by rw [hnil]; rfl)
    · have hmem := mem_of_get (hget nv (by rw [hl]; simp))
      rw [hq] at hmem ⊢
      obtain ⟨hq', hdang'⟩ := h.dot q hmem
      obtain ⟨v, hv⟩ := exists_get_of_mem hq'
      obtain ⟨n, w⟩ := nv
      cases hq
      refine .inr ⟨(q, v), mem_before hl hv, ?_⟩
      rw [fragments_dot, fragments_of_not_dangling hdang']
  refine ⟨t, ht, verify_putAll ht fun q v hq hv nv hnv k hp => ?_⟩
  obtain ⟨nv', hnv', rfl, rfl⟩ := exists_of_lastPut hq
  by_cases hnil : nv'.1 = []
  · have hn := h.root nv'.2 (by rw [← hnil]; exact hget nv' hnv') hv nv.1 (mem_of_get (hget nv hnv))
    rw [hn, hnil] at hp
    simp [fragments_nil] at hp
  -- otherwise the text is the one that the name without a dot leads to
  obtain ⟨n, hdang, hfrag⟩ : ∃ n, dangling n = false ∧ fragments nv'.1 = components n := by
    by_cases hdang : dangling nv'.1 = true
    · obtain ⟨n, hn⟩ := (dangling_cases hdang).resolve_left hnil
      refine ⟨n, (h.dot n ?_).2, by rw [hn, fragments_dot]⟩
      exact hn ▸ mem_of_get (hget nv' hnv')
    · exact ⟨nv'.1, by simpa using hdang, fragments_of_not_dangling (by simpa using hdang)⟩
  rw [hfrag] at hq hp
  rw [lastPut_eq_effective hdang] at hq
  obtain ⟨r, hr, hn⟩ := prefix_fragments hp
  exact h.leaf n nv'.2 hdang hq hv r hr (hn ▸ mem_of_get (hget nv hnv))

/-- What stands at a name, once a map has been put. -/
theorem dataAt_putAll_map {t : Ptree} (ht : (empty.putAll m.toList : Outcome ε Ptree) = .ok t)
    {n v : Str} (hn : dangling n = false) (hv : effective m n = some v) :
    t.dataAt (components n) = some v := by
  classical
  rw [dataAt_putAll ht, lastPut_eq_effective hn, hv]
  rfl

theorem reached_of_mem {n : Str} (hn : n ∈ m) {q : List Str} (hq : q <+: fragments n) :
    Reached m.toList q := by
  obtain ⟨v, hv⟩ := exists_get_of_mem hn
  exact .inr ⟨(n, v), Maps.mem_toList.mpr hv, hq⟩

theorem PutSafe.of_putAll {t : Ptree} (ht : (empty.putAll m.toList : Outcome ε Ptree) = .ok t)
    (hverify : t.verify = true) : PutSafe m := by
  classical
  have hdata := dataAt_putAll ht
  have hreached : ∀ q, Reached m.toList q → t.dataAt q ≠ none := by
    intro q hq
    rw [hdata, if_pos hq]
    cases lastPut m.toList q <;> simp
  refine ⟨fun v hv hne n hn => ?_, fun n hn => ?_, fun n v hdang hv hne r hr hmem => ?_⟩
  · by_contra hnil
    obtain ⟨k, ks, hk⟩ := List.exists_cons_of_ne_nil (fragments_ne_nil hnil)
    have hroot : t.dataAt [] = some v := by
      obtain ⟨l₁, l₂, hl, -, hafter⟩ := split_toList hv
      rw [hdata, hl, lastPut_append_cons fragments_nil fun nv hnv heq =>
        fragments_ne_nil (hafter nv hnv) heq]
      rfl
    refine hreached (fragments n) (reached_of_mem hn (List.prefix_refl _)) ?_
    rw [hk]
    exact dataAt_of_verify hverify hroot hne k ks
  · obtain ⟨v, hv⟩ := exists_get_of_mem hn
    obtain ⟨l₁, l₂, hl, hbefore, -⟩ := split_toList hv
    have hput := ht
    rw [putAll, hl, Outcome.foldl_append, Outcome.bind_eq_ok] at hput
    obtain ⟨t₁, ht₁, hput⟩ := hput
    rw [Outcome.foldl_cons, Outcome.bind_eq_ok] at hput
    obtain ⟨t₂, hput, -⟩ := hput
    have hthere := dataAt_of_put hput (dangling_dot n)
    rw [fragments_dot, dataAt_putAll ht₁] at hthere
    have hr : Reached l₁ (components n) := by
      by_contra hno
      rw [if_neg hno, Option.or_none] at hthere
      obtain ⟨w, hw⟩ := Option.ne_none_iff_exists'.mp hthere
      obtain ⟨nv, hnv, hfrag, -⟩ := exists_of_lastPut hw
      exact hno (.inr ⟨nv, hnv, by rw [hfrag]⟩)
    obtain ⟨nv, hnv, hp⟩ := hr.resolve_left (components_ne_nil n)
    have hget : m[nv.1]? = some nv.2 := Maps.mem_toList.mp (by rw [hl]; simp [hnv])
    rcases components_prefix_iff.mp (hp.trans (fragments_prefix_components _)) with heq | ⟨r, heq⟩
    · rw [heq] at hget hp
      refine ⟨mem_of_get hget, ?_⟩
      by_contra hdang
      rw [fragments, if_pos (by simpa using hdang)] at hp
      have hlen := hp.length_le
      have hpos := List.length_pos_of_ne_nil (components_ne_nil n)
      rw [List.length_dropLast] at hlen
      omega
    · -- such a name stands after `n` with a dot
      cases r with
      | nil => exact absurd heq (hbefore nv hnv)
      | cons c r =>
        have hlt := (lt_of_split hl).1 nv hnv
        rw [heq, show n ++ '.' :: c :: r = (n ++ ['.']) ++ c :: r by simp] at hlt
        exact absurd hlt (not_compare_append_cons _ c r)
  · obtain ⟨k, ks, hk⟩ := List.exists_cons_of_ne_nil (fragments_ne_nil hr)
    refine hreached _ (reached_of_mem hmem (List.prefix_refl _)) ?_
    rw [fragments_append_dot, hk]
    exact dataAt_of_verify hverify (dataAt_putAll_map ht hdang hv) hne k ks

theorem putAll_map_iff : PutSafe m ↔
    ∃ t, (empty.putAll m.toList : Outcome ε Ptree) = .ok t ∧ t.verify = true :=
  ⟨PutSafe.putAll_ok, fun ⟨_, ht, hverify⟩ => .of_putAll ht hverify⟩

/-- Whether a tree is built in which every node can be written. -/
def builds : Outcome ε Ptree → Bool
  | .ok t => t.verify
  | _ => false

theorem builds_iff {x : Outcome ε Ptree} :
    builds x = true ↔ ∃ t, x = .ok t ∧ t.verify = true := by
  cases x <;> simp [builds]

instance (m : ExtTreeMap Str Str compare) : Decidable (PutSafe m) :=
  decidable_of_iff (builds (empty.putAll m.toList : Outcome Unit Ptree) = true)
    (builds_iff.trans putAll_map_iff.symm)

end

/-! ### Direct children -/

theorem dot_notMem {path k : Str} (h : k ∈ components path) : '.' ∉ k := notMem_of_mem_splitOn h

theorem child_of_putAll {l : List (Str × Str)} {t : Ptree}
    (h : (empty.putAll l : Outcome ε Ptree) = .ok t) {c : Str × Ptree} (hc : c ∈ t.children) :
    ∃ nv ∈ l, [c.1] <+: fragments nv.1 := by
  classical
  have hfind : t.find c.1 = some c.2 := ((unique_leaf []).putAll h).find_mem hc
  have hdata : t.dataAt [c.1] = some c.2.data := by
    rw [dataAt_cons, hfind]
    rfl
  rw [dataAt_putAll h, Option.or_eq_some_iff] at hdata
  rcases hdata with hlast | ⟨-, hreached⟩
  · obtain ⟨nv, hnv, hfrag, -⟩ := exists_of_lastPut hlast
    exact ⟨nv, hnv, hfrag ▸ List.prefix_refl _⟩
  · rw [Option.ite_none_right_eq_some] at hreached
    exact hreached.1.resolve_left (List.cons_ne_nil _ _)

theorem child_of_addAll {l : List (Str × Ptree)} {t : Ptree}
    (h : (empty.addAll l : Outcome ε Ptree) = .ok t) {c : Str × Ptree} (hc : c ∈ t.children) :
    ∃ nc ∈ l, c.1 ∈ components nc.1 := by
  have hfind : t.find c.1 ≠ none := lookup_ne_none hc
  have hdata : t.dataAt [c.1] ≠ none := by
    rw [dataAt_cons]
    cases hf : t.find c.1 with
    | none => exact absurd hf hfind
    | some c' => simp
  rcases dataAt_addAll_cases h hdata with hnil | ⟨nc, hnc, hprefix | ⟨r, hr, -⟩⟩
  · exact absurd hnil (List.cons_ne_nil _ _)
  · exact ⟨nc, hnc, hprefix.subset List.mem_cons_self⟩
  · obtain ⟨k, ks, hk⟩ := List.exists_cons_of_ne_nil (components_ne_nil nc.1)
    rw [hk, List.cons_append, List.cons.injEq] at hr
    exact ⟨nc, hnc, by rw [hk, hr.1]; exact List.mem_cons_self⟩

theorem putAll_plain {l : List (Str × Str)} (hplain : ∀ nv ∈ l, Plain nv.1)
    (hnodup : (l.map Prod.fst).Nodup) : (empty.putAll l : Outcome ε Ptree) =
      .ok (.node [] (l.map fun nv => (nv.1, leaf nv.2))) := by
  induction l using List.reverseRecOn with
  | nil => rfl
  | append_singleton l nv ih =>
    rw [List.map_append, List.nodup_append] at hnodup
    obtain ⟨hl, -, hdisjoint⟩ := hnodup
    rw [putAll_concat, ih (fun nv' h => hplain nv' (List.mem_append_left _ h)) hl, Outcome.bind_ok]
    have hnew : (Ptree.node [] (l.map fun nv => (nv.1, leaf nv.2))).find nv.1 = none := by
      refine lookup_eq_none ?_
      rw [children_node, List.map_map]
      exact fun hmem => hdisjoint nv.1 hmem nv.1 List.mem_cons_self rfl
    rw [put_plain (hplain nv (by simp)) hnew, List.map_append]
    rfl

theorem addAll_plain {l : List (Str × Ptree)} (hplain : ∀ nc ∈ l, Plain nc.1) :
    (empty.addAll l : Outcome ε Ptree) = .ok (.node [] l) := by
  induction l using List.reverseRecOn with
  | nil => rfl
  | append_singleton l nc ih =>
    rw [addAll_concat, ih fun nc' h => hplain nc' (List.mem_append_left _ h), Outcome.bind_ok,
      addChild_plain (hplain nc (by simp))]
    rfl

theorem plain_of_fragments {n n' : Str} (hn' : '.' ∉ n') (h : [n] <+: fragments n') : n = n' ∧ Plain n := by
  have hsingle : components n' = [n'] := List.splitOn_eq_singleton hn'
  have hmem : n ∈ components n' :=
    (h.trans (fragments_prefix_components n')).subset List.mem_cons_self
  rw [hsingle, List.mem_singleton] at hmem
  subst hmem
  refine ⟨rfl, ?_, hn'⟩
  rintro rfl
  exact absurd h.length_le (by rw [fragments_nil]; simp)

end Ptree

end PropertyTree
