import Mathlib.Data.List.Induction
import Mathlib.Tactic.TypeStar
import Std.Data.ExtTreeMap

/-!
# Lookups in ordered maps

`std::map` is `Std.ExtTreeMap`. Its lookup lemmas speak of `compare`; here they speak of equality of
keys. A map filled by one insertion after another holds the last value of each key (`lastOf`).
-/

namespace Maps

open Std

/-! ### The last value of a key -/

section
variable {α β γ : Type*} [DecidableEq α]

/-- The value of the last pair with a key. -/
def lastOf (xs : List (α × β)) (k : α) : Option β :=
  xs.foldl (fun found x => if x.1 = k then some x.2 else found) none

theorem lastOf_concat (xs : List (α × β)) (x : α × β) (k : α) :
    lastOf (xs ++ [x]) k = if x.1 = k then some x.2 else lastOf xs k := by
  rw [lastOf, List.foldl_append]
  rfl

variable {f : γ → Option (α × β)} {c : γ} {k : α} {w : β}

theorem lastOf_filterMap_concat (h : f c = some (k, w)) (cs : List γ) :
    lastOf ((cs ++ [c]).filterMap f) k = some w := by
  rw [List.filterMap_append, List.filterMap_cons, h, List.filterMap_nil]
  dsimp only
  rw [lastOf_concat, if_pos rfl]

theorem lastOf_filterMap_concat_other (h : ∀ w, f c ≠ some (k, w)) (cs : List γ) :
    lastOf ((cs ++ [c]).filterMap f) k = lastOf (cs.filterMap f) k := by
  rw [List.filterMap_append, List.filterMap_cons]
  rcases hc : f c with _ | ⟨a, v⟩
  · simp
  · have ha : a ≠ k := by
      rintro rfl
      exact h v hc
    dsimp only
    rw [List.filterMap_nil, lastOf_concat, if_neg ha]

theorem lastOf_filterMap (cs : List γ) (v : β) :
    lastOf (cs.filterMap f) k = some v ↔
      ∃ before c after, cs = before ++ c :: after ∧ f c = some (k, v) ∧
        ∀ d ∈ after, ∀ w, f d ≠ some (k, w) := by
  induction cs using List.reverseRecOn with
  | nil => simp [lastOf]
  | append_singleton cs c ih =>
    constructor
    · intro h
      by_cases hc : ∃ w, f c = some (k, w)
      · obtain ⟨w, hw⟩ := hc
        rw [lastOf_filterMap_concat hw] at h
        cases h
        exact ⟨cs, c, [], rfl, hw, by simp⟩
      · rw [not_exists] at hc
        rw [lastOf_filterMap_concat_other hc] at h
        obtain ⟨before, c', after, rfl, hc', hafter⟩ := ih.mp h
        refine ⟨before, c', after ++ [c], by simp, hc', fun d hd => ?_⟩
        rcases List.mem_append.mp hd with hd | hd
        · exact hafter d hd
        · exact List.mem_singleton.mp hd ▸ hc
    · rintro ⟨before, c', after, heq, hc', hafter⟩
      rcases List.eq_nil_or_concat after with rfl | ⟨after', d, rfl⟩
      · obtain ⟨-, hcc⟩ := List.append_inj' heq rfl
        cases hcc
        exact lastOf_filterMap_concat hc' cs
      · rw [List.concat_eq_append] at heq hafter
        rw [← List.cons_append, ← List.append_assoc] at heq
        obtain ⟨rfl, hcd⟩ := List.append_inj' heq rfl
        cases hcd
        rw [lastOf_filterMap_concat_other (hafter c (by simp))]
        exact ih.mpr ⟨before, c', after', rfl, hc', fun e he => hafter e (List.mem_append_left _ he)⟩

theorem lastOf_eq_some {xs : List (α × β)} (h : (xs.map Prod.fst).Nodup) {v : β} :
    lastOf xs k = some v ↔ (k, v) ∈ xs := by
  have hlast := lastOf_filterMap (f := some) (k := k) xs v
  rw [List.filterMap_some] at hlast
  rw [hlast]
  constructor
  · rintro ⟨before, c, after, rfl, hc, -⟩
    cases hc
    simp
  · intro hmem
    obtain ⟨before, after, rfl⟩ := List.append_of_mem hmem
    refine ⟨before, _, after, rfl, rfl, ?_⟩
    rintro d hd w hw
    cases hw
    rw [List.map_append, List.map_cons, List.nodup_append, List.nodup_cons] at h
    exact h.2.1.1 (List.mem_map.mpr ⟨_, hd, rfl⟩)

/-- The values of the pairs with a key, in order. -/
def valuesOf (xs : List (α × β)) (k : α) : List β := (xs.filter fun x => x.1 = k).map Prod.snd

theorem valuesOf_append (xs ys : List (α × β)) (k : α) :
    valuesOf (xs ++ ys) k = valuesOf xs k ++ valuesOf ys k := by
  rw [valuesOf, List.filter_append, List.map_append]
  rfl

theorem valuesOf_eq_nil {xs : List (α × β)} {k : α} :
    valuesOf xs k = [] ↔ k ∉ xs.map Prod.fst := by
  rw [valuesOf, List.map_eq_nil_iff, List.filter_eq_nil_iff]
  constructor
  · rintro h hk
    obtain ⟨x, hx, rfl⟩ := List.mem_map.mp hk
    exact h x hx (decide_eq_true rfl)
  · intro h x hx hk
    exact h (List.mem_map.mpr ⟨x, hx, of_decide_eq_true hk⟩)

theorem valuesOf_map_snd (g : β → γ) (xs : List (α × β)) (k : α) :
    valuesOf (xs.map fun x => (x.1, g x.2)) k = (valuesOf xs k).map g := by
  rw [valuesOf, valuesOf, List.filter_map, List.map_map, List.map_map]
  rfl

theorem valuesOf_map_mk (k : α) (vs : List β) (a : α) :
    valuesOf (vs.map fun v => (k, v)) a = if k = a then vs else [] := by
  induction vs with
  | nil => simp [valuesOf]
  | cons v vs ih =>
    rw [List.map_cons, ← List.singleton_append, valuesOf_append, ih]
    by_cases hk : k = a <;> simp [valuesOf, hk]

theorem valuesOf_spread {xs : List (α × List β)} (hdistinct : (xs.map Prod.fst).Nodup)
    {k : α} {vs : List β} (h : (k, vs) ∈ xs) :
    valuesOf (xs.flatMap fun x => x.2.map fun v => (x.1, v)) k = vs := by
  induction xs with
  | nil => exact absurd h List.not_mem_nil
  | cons x xs ih =>
    rw [List.map_cons, List.nodup_cons] at hdistinct
    rw [List.flatMap_cons, valuesOf_append, valuesOf_map_mk]
    rcases List.mem_cons.mp h with rfl | h
    · have hrest : valuesOf (xs.flatMap fun x => x.2.map fun v => (x.1, v)) k = [] := by
        rw [valuesOf_eq_nil]
        intro hk
        obtain ⟨y, hy, rfl⟩ := List.mem_map.mp hk
        obtain ⟨z, hz, hyz⟩ := List.mem_flatMap.mp hy
        obtain ⟨v, -, rfl⟩ := List.mem_map.mp hyz
        exact hdistinct.1 (List.mem_map.mpr ⟨z, hz, rfl⟩)
      rw [if_pos rfl, hrest, List.append_nil]
    · have hne : x.1 ≠ k := by
        rintro rfl
        exact hdistinct.1 (List.mem_map.mpr ⟨(x.1, vs), h, rfl⟩)
      rw [if_neg hne, List.nil_append]
      exact ih hdistinct.2 h

end

section
variable {α β : Type*} [Ord α] [TransOrd α] [LawfulEqOrd α]
  {m : ExtTreeMap α β compare}

theorem mem_toList {k : α} {v : β} : (k, v) ∈ m.toList ↔ m[k]? = some v :=
  ExtTreeMap.mem_toList_iff_getElem?_eq_some

omit [LawfulEqOrd α] in
theorem nodup_keys (m : ExtTreeMap α β compare) : (m.toList.map Prod.fst).Nodup := by
  rw [ExtTreeMap.map_fst_toList_eq_keys]
  exact ExtTreeMap.nodup_keys

omit [LawfulEqOrd α] in
theorem size_erase_lt {k : α} {v : β} (h : m[k]? = some v) : (m.erase k).size < m.size := by
  have hk : k ∈ m := by
    rw [ExtTreeMap.mem_iff_isSome_getElem?, h]
    rfl
  have hpos : m.size ≠ 0 := by
    intro h0
    rw [ExtTreeMap.eq_empty_iff_size_eq_zero.mpr h0] at hk
    simp at hk
  rw [ExtTreeMap.size_erase, if_pos (ExtTreeMap.contains_iff_mem.mpr hk)]
  omega

section
variable [DecidableEq α]

theorem get_insert (k a : α) (v : β) : (m.insert k v)[a]? = if k = a then some v else m[a]? := by
  rw [ExtTreeMap.getElem?_insert]
  simp only [Std.compare_eq_iff_eq]

theorem get_erase (k a : α) : (m.erase k)[a]? = if k = a then none else m[a]? := by
  rw [ExtTreeMap.getElem?_erase]
  simp only [Std.compare_eq_iff_eq]

@[simp] theorem get_insert_self (k : α) (v : β) : (m.insert k v)[k]? = some v := by
  rw [get_insert, if_pos rfl]

theorem insert_of_get {k : α} {v : β} (h : m[k]? = some v) : m.insert k v = m := by
  refine ExtTreeMap.ext_getElem? fun a => ?_
  rw [get_insert]
  split
  · rename_i hk
    rw [← hk, h]
  · rfl

theorem get_insert_of_ne {k a : α} (h : k ≠ a) (v : β) : (m.insert k v)[a]? = m[a]? := by
  rw [get_insert, if_neg h]

@[simp] theorem get_erase_self (k : α) : (m.erase k)[k]? = none := by
  rw [get_erase, if_pos rfl]

theorem get_erase_of_ne {k a : α} (h : k ≠ a) : (m.erase k)[a]? = m[a]? := by
  rw [get_erase, if_neg h]

/-! ### One insertion after another -/

/-- Inserting one pair after another leaves the last value of each key. -/
theorem get_insertAll (xs : List (α × β)) (k : α) :
    (xs.foldl (fun m x => m.insert x.1 x.2) (∅ : ExtTreeMap α β compare))[k]? = lastOf xs k := by
  induction xs using List.reverseRecOn with
  | nil => simp [lastOf]
  | append_singleton xs x ih =>
    rw [List.foldl_append, lastOf_concat, ← ih]
    exact get_insert x.1 k x.2

theorem insertAll_toList (m : ExtTreeMap α β compare) :
    m.toList.foldl (fun m x => m.insert x.1 x.2) (∅ : ExtTreeMap α β compare) = m := by
  refine ExtTreeMap.ext_getElem? fun k => ?_
  rw [get_insertAll]
  exact Option.ext fun v => (lastOf_eq_some (nodup_keys m)).trans mem_toList

/-- Appending one value after another to those of its key collects the values of each key. -/
theorem get_appendAll (xs : List (α × β)) (k : α) :
    (xs.foldl (fun m x => m.insert x.1 ((m[x.1]?).getD [] ++ [x.2]))
      (∅ : ExtTreeMap α (List β) compare))[k]? =
      if valuesOf xs k = [] then none else some (valuesOf xs k) := by
  induction xs using List.reverseRecOn with
  | nil => simp [valuesOf]
  | append_singleton xs x ih =>
    rw [List.foldl_append, List.foldl_cons, List.foldl_nil, get_insert, valuesOf_append]
    by_cases hk : x.1 = k
    · have hone : valuesOf [x] k = [x.2] := by simp [valuesOf, hk]
      rw [if_pos hk, hk, ih, hone, if_neg (List.append_ne_nil_of_right_ne_nil _ (List.cons_ne_nil _ _))]
      by_cases hnil : valuesOf xs k = []
      · rw [if_pos hnil, hnil]
        rfl
      · rw [if_neg hnil]
        rfl
    · have hnone : valuesOf [x] k = [] := by simp [valuesOf, hk]
      rw [if_neg hk, ih, hnone, List.append_nil]

end

end

end Maps
