import Mathlib.Data.List.Pairwise
import Mathlib.Logic.Function.Basic
import Mathlib.Logic.Relation
import Wye.Locking.Code

/-!
# Threads, mutexes, and serial order

Any number of threads run operations. A thread that is idle may start any operation; it takes a mutex
when nobody has it, runs a body, and when it has returned it gives back its mutexes, the last one
taken first, each in a step of its own (`Step`). The log keeps the operations in the order in which
each took its last mutex so far, with what it has taken, and its response once it has returned.

If the code of every operation is well locked, then in every reachable configuration no cycle of
threads waits for each other (`Reachable.no_deadlock`), the responses are those of running the
returned operations one after another in the order of the log, and so is every component whose mutex
nobody has (`Reachable.serial`).

Proof. An operation that has not returned holds all the mutexes it has taken, so what stands in the
log after it has taken others (`Inv.disjoint`). For the serial order only the operations that have
returned count. Their state `after` differs from the real one only where an operation under way holds
the mutex (`Inv.free`), and such an operation, run alone from any state that agrees with `after` on
what it holds, ends as its remaining code does from there with the real components put in (`Inv.sim`).
So when it returns, its effect is known: it writes the real components of what it holds. It may
stand in the middle of the log, but the operations after it commute with this effect
(`Consistent.insert`).
-/

namespace Locking

variable {ι : Type*} {V : ι → Type*} {ρ α τ : Type*}

/-! ### Serial runs -/

/-- Operations run one after another, with their responses. -/
def serial (code : α → Code V ρ) : State V → List α → State V × List ρ
  | s, [] => (s, [])
  | s, op :: ops =>
    let (s, r) := (code op).exec s
    let (s, rs) := serial code s ops
    (s, r :: rs)

/-- An operation that has returned, with the mutexes it has taken and its response. -/
structure Done (ι ρ α : Type*) where
  op : α
  taken : List ι
  response : ρ

/-- The state after operations run one after another. -/
def after (code : α → Code V ρ) : State V → List (Done ι ρ α) → State V
  | s, [] => s
  | s, d :: ds => after code ((code d.op).exec s).1 ds

/-- Each operation, run alone in its turn, gives its response, writes nothing but what it has taken,
and depends on nothing else. -/
def Consistent [DecidableEq ι] (code : α → Code V ρ) : State V → List (Done ι ρ α) → Prop
  | _, [] => True
  | s, d :: ds =>
    (∃ w, ∀ t, Agree d.taken t s → (code d.op).exec t = (overlay d.taken t w, d.response)) ∧
      Consistent code ((code d.op).exec s).1 ds

section
variable [DecidableEq ι] {code : α → Code V ρ} {s w : State V} {ds es : List (Done ι ρ α)}
  {taken : List ι}

theorem Consistent.serial_eq (h : Consistent code s ds) :
    serial code s (ds.map Done.op) = (after code s ds, ds.map Done.response) := by
  induction ds generalizing s with
  | nil => rfl
  | cons d ds ih =>
    obtain ⟨⟨w, hd⟩, hds⟩ := h
    have hexec := hd s (.refl _ s)
    rw [List.map_cons, serial, List.map_cons, after]
    simp only [ih hds]
    rw [hexec]

theorem Consistent.after_agree (h : Consistent code s ds)
    (hdisj : ∀ d ∈ ds, ∀ i ∈ taken, i ∉ d.taken) : Agree taken (after code s ds) s := by
  induction ds generalizing s with
  | nil => exact .refl taken s
  | cons d ds ih =>
    obtain ⟨⟨w, hd⟩, hds⟩ := h
    have hrest := ih hds fun e he => hdisj e (List.mem_cons_of_mem _ he)
    refine hrest.trans ?_
    rw [hd s (.refl _ s)]
    exact agree_overlay_of_disjoint (hdisj d List.mem_cons_self)

/-- Operations that have taken other mutexes commute with a write to the components of some. -/
theorem Consistent.overlay (h : Consistent code s ds) (w : State V)
    (hdisj : ∀ d ∈ ds, ∀ i ∈ taken, i ∉ d.taken) :
    Consistent code (overlay taken s w) ds ∧
      after code (Locking.overlay taken s w) ds = Locking.overlay taken (after code s ds) w := by
  induction ds generalizing s with
  | nil => exact ⟨trivial, rfl⟩
  | cons d ds ih =>
    obtain ⟨⟨v, hd⟩, hds⟩ := h
    have hfirst := hdisj d List.mem_cons_self
    have hagree : Agree d.taken (Locking.overlay taken s w) s :=
      agree_overlay_of_disjoint fun i hi hi' => hfirst i hi' hi
    have hexec : ((code d.op).exec (Locking.overlay taken s w)).1 =
        Locking.overlay taken ((code d.op).exec s).1 w := by
      rw [hd _ hagree, hd s (.refl _ s)]
      exact overlay_comm hfirst
    obtain ⟨hcons, hafter⟩ := ih hds fun e he => hdisj e (List.mem_cons_of_mem _ he)
    rw [← hexec] at hcons hafter
    exact ⟨⟨⟨v, fun t ht => hd t (ht.trans hagree)⟩, hcons⟩, hafter⟩

/-- An operation that returns is put before operations that have taken other mutexes. -/
theorem Consistent.insert {d : Done ι ρ α} (h : Consistent code s (ds ++ es))
    (hd : ∀ t, Agree d.taken t (after code s (ds ++ es)) →
      (code d.op).exec t = (Locking.overlay d.taken t w, d.response))
    (hdisj : ∀ e ∈ es, ∀ i ∈ d.taken, i ∉ e.taken) :
    Consistent code s (ds ++ d :: es) ∧
      after code s (ds ++ d :: es) = Locking.overlay d.taken (after code s (ds ++ es)) w := by
  induction ds generalizing s with
  | nil =>
    have hback : Agree d.taken s (after code s es) := (h.after_agree hdisj).symm
    have hexec := hd s hback
    obtain ⟨hcons, hafter⟩ := h.overlay w hdisj
    refine ⟨⟨⟨w, fun t ht => hd t (ht.trans hback)⟩, ?_⟩, ?_⟩
    · rw [hexec]
      exact hcons
    · rw [List.nil_append, after, hexec]
      exact hafter
  | cons e ds ih =>
    obtain ⟨he, hrest⟩ := h
    obtain ⟨hcons, hafter⟩ := ih hrest hd
    exact ⟨⟨he, hcons⟩, hafter⟩

end

/-! ### Configurations -/

/-- Where the operation of a thread stands. -/
inductive Phase (V : ι → Type*) (ρ : Type*) where
  | running (k : Code V ρ)
  /-- It has returned, and gives back what it holds. -/
  | leaving (r : ρ)

/-- The operation of a thread: what it holds, the last mutex taken first, and where it stands. -/
structure Active (V : ι → Type*) (ρ α : Type*) where
  op : α
  held : List ι
  phase : Phase V ρ

/-- An operation in the log. -/
structure Record (ι ρ α τ : Type*) where
  thread : τ
  op : α
  taken : List ι
  response : Option ρ

/-- The state, who has each mutex, what each thread does, and the log. -/
structure Config (V : ι → Type*) (ρ α τ : Type*) where
  state : State V
  owner : ι → Option τ
  threads : τ → Option (Active V ρ α)
  log : List (Record ι ρ α τ)

/-- No thread has begun. -/
def Config.init (s : State V) : Config V ρ α τ := ⟨s, fun _ => none, fun _ => none, []⟩

/-- The operation that has returned, if it has. -/
def Record.done? (x : Record ι ρ α τ) : Option (Done ι ρ α) :=
  x.response.map fun r => ⟨x.op, x.taken, r⟩

/-- The operations of a log that have returned. -/
def finished (log : List (Record ι ρ α τ)) : List (Done ι ρ α) := log.filterMap Record.done?

theorem finished_append (l l' : List (Record ι ρ α τ)) :
    finished (l ++ l') = finished l ++ finished l' := List.filterMap_append

theorem finished_cons_none {log : List (Record ι ρ α τ)} {x : Record ι ρ α τ}
    (h : x.response = none) : finished (x :: log) = finished log := by
  rw [finished, List.filterMap_cons_none]
  · rfl
  · simp [Record.done?, h]

theorem finished_cons_some {log : List (Record ι ρ α τ)} {x : Record ι ρ α τ} {r : ρ}
    (h : x.response = some r) : finished (x :: log) = ⟨x.op, x.taken, r⟩ :: finished log := by
  rw [finished, List.filterMap_cons_some]
  · rfl
  · simp [Record.done?, h]

theorem mem_finished {log : List (Record ι ρ α τ)} {d : Done ι ρ α} (h : d ∈ finished log) :
    ∃ x ∈ log, d.taken = x.taken := by
  obtain ⟨x, hx, hd⟩ := List.mem_filterMap.mp h
  obtain ⟨r, -, rfl⟩ := Option.map_eq_some_iff.mp hd
  exact ⟨x, hx, rfl⟩

/-! ### Who holds what -/

/-- Each mutex is held by the thread that owns it, once. -/
structure Owned (owner : ι → Option τ) (threads : τ → Option (Active V ρ α)) : Prop where
  owners : ∀ i t, owner i = some t ↔ ∃ a, threads t = some a ∧ i ∈ a.held
  nodup : ∀ t a, threads t = some a → a.held.Nodup

section
variable {owner : ι → Option τ} {threads : τ → Option (Active V ρ α)} {t : τ} {op : α}
  {held : List ι} {phase phase' : Phase V ρ}

theorem Owned.disjoint (h : Owned owner threads) {t u : τ} {a b : Active V ρ α}
    (ha : threads t = some a) (hb : threads u = some b) (hne : t ≠ u) :
    ∀ i ∈ a.held, i ∉ b.held := by
  intro i hi hi'
  have ht := (h.owners i t).mpr ⟨a, ha, hi⟩
  rw [(h.owners i u).mpr ⟨b, hb, hi'⟩] at ht
  exact hne (Option.some.inj ht).symm

variable [DecidableEq τ]

theorem update_eq_some {β : Type*} {f : τ → Option β} {t u : τ} {v : Option β} {b : β} :
    Function.update f t v u = some b ↔ (u = t ∧ v = some b) ∨ (u ≠ t ∧ f u = some b) := by
  by_cases hu : u = t
  · subst hu
    simp
  · simp [hu]

theorem Owned.start (h : Owned owner threads) (ht : threads t = none) :
    Owned owner (Function.update threads t (some ⟨op, [], phase⟩)) := by
  constructor
  · intro i u
    rw [h.owners]
    constructor
    · rintro ⟨a, ha, hi⟩
      refine ⟨a, update_eq_some.mpr (.inr ⟨?_, ha⟩), hi⟩
      rintro rfl
      rw [ht] at ha
      cases ha
    · rintro ⟨a, ha, hi⟩
      rcases update_eq_some.mp ha with ⟨-, heq⟩ | ⟨-, ha⟩
      · cases heq
        cases hi
      · exact ⟨a, ha, hi⟩
  · intro u a ha
    rcases update_eq_some.mp ha with ⟨-, heq⟩ | ⟨-, ha⟩
    · cases heq
      exact .nil
    · exact h.nodup u a ha

theorem Owned.respond (h : Owned owner threads) (ht : threads t = some ⟨op, [], phase⟩) :
    Owned owner (Function.update threads t none) := by
  constructor
  · intro i u
    rw [h.owners]
    constructor
    · rintro ⟨a, ha, hi⟩
      refine ⟨a, update_eq_some.mpr (.inr ⟨?_, ha⟩), hi⟩
      rintro rfl
      rw [ht] at ha
      cases ha
      cases hi
    · rintro ⟨a, ha, hi⟩
      rcases update_eq_some.mp ha with ⟨-, heq⟩ | ⟨-, ha⟩
      · cases heq
      · exact ⟨a, ha, hi⟩
  · intro u a ha
    rcases update_eq_some.mp ha with ⟨-, heq⟩ | ⟨-, ha⟩
    · cases heq
    · exact h.nodup u a ha

theorem Owned.go (h : Owned owner threads) (ht : threads t = some ⟨op, held, phase⟩) :
    Owned owner (Function.update threads t (some ⟨op, held, phase'⟩)) := by
  have hnodup := h.nodup t _ ht
  constructor
  · intro i u
    rw [h.owners]
    constructor
    · rintro ⟨a, ha, hi⟩
      by_cases hut : u = t
      · subst hut
        rw [ht] at ha
        cases ha
        exact ⟨_, update_eq_some.mpr (.inl ⟨rfl, rfl⟩), hi⟩
      · exact ⟨a, update_eq_some.mpr (.inr ⟨hut, ha⟩), hi⟩
    · rintro ⟨a, ha, hi⟩
      rcases update_eq_some.mp ha with ⟨rfl, heq⟩ | ⟨-, ha⟩
      · cases heq
        exact ⟨_, ht, hi⟩
      · exact ⟨a, ha, hi⟩
  · intro u a ha
    rcases update_eq_some.mp ha with ⟨-, heq⟩ | ⟨-, ha⟩
    · cases heq
      exact hnodup
    · exact h.nodup u a ha

variable [DecidableEq ι]

theorem Owned.acquire (h : Owned owner threads) (ht : threads t = some ⟨op, held, phase⟩) {i : ι}
    (hi : owner i = none) : Owned (Function.update owner i (some t))
      (Function.update threads t (some ⟨op, i :: held, phase'⟩)) := by
  constructor
  · intro j u
    rw [update_eq_some]
    constructor
    · rintro (⟨rfl, hu⟩ | ⟨-, hu⟩)
      · cases hu
        exact ⟨_, update_eq_some.mpr (.inl ⟨rfl, rfl⟩), List.mem_cons_self⟩
      · obtain ⟨a, ha, hmem⟩ := (h.owners j u).mp hu
        by_cases hut : u = t
        · subst hut
          rw [ht] at ha
          cases ha
          exact ⟨_, update_eq_some.mpr (.inl ⟨rfl, rfl⟩), List.mem_cons_of_mem _ hmem⟩
        · exact ⟨a, update_eq_some.mpr (.inr ⟨hut, ha⟩), hmem⟩
    · rintro ⟨a, ha, hmem⟩
      rcases update_eq_some.mp ha with ⟨rfl, heq⟩ | ⟨-, ha⟩
      · cases heq
        by_cases hj : j = i
        · exact .inl ⟨hj, rfl⟩
        · exact .inr ⟨hj, (h.owners j u).mpr ⟨_, ht, List.mem_of_ne_of_mem hj hmem⟩⟩
      · have hju := (h.owners j u).mpr ⟨a, ha, hmem⟩
        refine .inr ⟨?_, hju⟩
        rintro rfl
        rw [hi] at hju
        cases hju
  · intro u a ha
    rcases update_eq_some.mp ha with ⟨-, heq⟩ | ⟨-, ha⟩
    · cases heq
      refine List.nodup_cons.mpr ⟨fun hmem => ?_, h.nodup t _ ht⟩
      rw [(h.owners i t).mpr ⟨_, ht, hmem⟩] at hi
      cases hi
    · exact h.nodup u a ha

theorem Owned.release {i : ι} (h : Owned owner threads)
    (ht : threads t = some ⟨op, i :: held, phase⟩) : Owned (Function.update owner i none)
      (Function.update threads t (some ⟨op, held, phase'⟩)) := by
  have hnodup := List.nodup_cons.mp (h.nodup t _ ht)
  have hown := (h.owners i t).mpr ⟨_, ht, List.mem_cons_self⟩
  constructor
  · intro j u
    rw [update_eq_some]
    constructor
    · rintro (⟨-, hu⟩ | ⟨hj, hu⟩)
      · cases hu
      · obtain ⟨a, ha, hmem⟩ := (h.owners j u).mp hu
        by_cases hut : u = t
        · subst hut
          rw [ht] at ha
          cases ha
          exact ⟨_, update_eq_some.mpr (.inl ⟨rfl, rfl⟩), List.mem_of_ne_of_mem hj hmem⟩
        · exact ⟨a, update_eq_some.mpr (.inr ⟨hut, ha⟩), hmem⟩
    · rintro ⟨a, ha, hmem⟩
      refine .inr ⟨?_, ?_⟩
      · rintro rfl
        rcases update_eq_some.mp ha with ⟨rfl, heq⟩ | ⟨hut, ha⟩
        · cases heq
          exact hnodup.1 hmem
        · rw [(h.owners j u).mpr ⟨a, ha, hmem⟩] at hown
          exact hut (Option.some.inj hown)
      · rcases update_eq_some.mp ha with ⟨rfl, heq⟩ | ⟨-, ha⟩
        · cases heq
          exact (h.owners j u).mpr ⟨_, ht, List.mem_cons_of_mem _ hmem⟩
        · exact (h.owners j u).mpr ⟨a, ha, hmem⟩
  · intro u a ha
    rcases update_eq_some.mp ha with ⟨-, heq⟩ | ⟨-, ha⟩
    · cases heq
      exact hnodup.2
    · exact h.nodup u a ha

end

/-! ### Steps -/

variable [DecidableEq τ]

/-- The record of the operation a thread has under way. -/
def Record.pending (t : τ) (x : Record ι ρ α τ) : Bool := x.thread = t && x.response.isNone

section
variable {log : List (Record ι ρ α τ)} {t : τ}

theorem Record.pending_iff {x : Record ι ρ α τ} :
    x.pending t = true ↔ x.thread = t ∧ x.response = none := by
  simp [pending]

theorem log_split {p : Record ι ρ α τ} (h : log.filter (·.pending t) = [p]) :
    ∃ l l', log = l ++ p :: l' ∧ (∀ x ∈ l, x.pending t = false) ∧ p.pending t = true ∧
      ∀ x ∈ l', x.pending t = false := by
  obtain ⟨l, l', rfl, hl, hp, hl'⟩ := List.filter_eq_cons_iff.mp h
  refine ⟨l, l', rfl, ?_, hp, ?_⟩
  · simpa using hl
  · simpa using List.filter_eq_nil_iff.mp hl'

theorem filter_of_not_pending (h : ∀ x ∈ log, x.pending t = false) :
    log.filter (!·.pending t) = log := by
  rw [List.filter_eq_self]
  intro x hx
  simp [h x hx]

theorem map_of_not_pending {r : ρ} (h : ∀ x ∈ log, x.pending t = false) :
    (log.map fun x => if x.pending t then { x with response := some r } else x) = log := by
  have hid : ∀ x ∈ log, (if x.pending t then { x with response := some r } else x) = id x := by
    intro x hx
    rw [h x hx, if_neg Bool.false_ne_true, id]
  rw [List.map_congr_left hid, List.map_id]

end

variable [DecidableEq ι]

/-- One step of one thread. -/
inductive Step (code : α → Code V ρ) : Config V ρ α τ → Config V ρ α τ → Prop
  | start {c : Config V ρ α τ} (t : τ) (op : α) : c.threads t = none →
      Step code c { c with
        threads := Function.update c.threads t (some ⟨op, [], .running (code op)⟩)
        log := c.log ++ [⟨t, op, [], none⟩] }
  | acquire {c : Config V ρ α τ} {t : τ} {op : α} {held : List ι} {i : ι} {k : Code V ρ} :
      c.threads t = some ⟨op, held, .running (.acquire i k)⟩ → c.owner i = none →
      Step code c { c with
        owner := Function.update c.owner i (some t)
        threads := Function.update c.threads t (some ⟨op, i :: held, .running k⟩)
        log := c.log.filter (!·.pending t) ++ [⟨t, op, i :: held, none⟩] }
  | body {c : Config V ρ α τ} {t : τ} {op : α} {held : List ι} {f : State V → State V}
      {k : State V → Code V ρ} : c.threads t = some ⟨op, held, .running (.body f k)⟩ →
      Step code c { c with
        state := f c.state
        threads := Function.update c.threads t (some ⟨op, held, .running (k c.state)⟩) }
  | leave {c : Config V ρ α τ} {t : τ} {op : α} {held : List ι} {r : ρ} :
      c.threads t = some ⟨op, held, .running (.ret r)⟩ →
      Step code c { c with
        threads := Function.update c.threads t (some ⟨op, held, .leaving r⟩)
        log := c.log.map fun x => if x.pending t then { x with response := some r } else x }
  | release {c : Config V ρ α τ} {t : τ} {op : α} {i : ι} {held : List ι} {r : ρ} :
      c.threads t = some ⟨op, i :: held, .leaving r⟩ →
      Step code c { c with
        owner := Function.update c.owner i none
        threads := Function.update c.threads t (some ⟨op, held, .leaving r⟩) }
  | respond {c : Config V ρ α τ} {t : τ} {op : α} {r : ρ} :
      c.threads t = some ⟨op, [], .leaving r⟩ →
      Step code c { c with threads := Function.update c.threads t none }

/-- The configurations that the threads can get to. -/
def Reachable (code : α → Code V ρ) (s : State V) (c : Config V ρ α τ) : Prop :=
  Relation.ReflTransGen (Step code) (.init s) c

/-- A thread waits for a mutex that another has. -/
def WaitsFor (c : Config V ρ α τ) (t u : τ) : Prop :=
  ∃ op held i k, c.threads t = some ⟨op, held, .running (.acquire i k)⟩ ∧ c.owner i = some u

/-! ### The invariant -/

/-- The records that a thread's operation has in the log while it is under way. -/
def recordOf (t : τ) : Option (Active V ρ α) → List (Record ι ρ α τ)
  | some ⟨op, held, .running _⟩ => [⟨t, op, held, none⟩]
  | _ => []

/-- What holds of a configuration between any two steps. -/
structure Inv [Preorder ι] (code : α → Code V ρ) (s : State V) (c : Config V ρ α τ) : Prop where
  owned : Owned c.owner c.threads
  locked : ∀ t op held k, c.threads t = some ⟨op, held, .running k⟩ → WellLocked held k
  recorded : ∀ t, c.log.filter (·.pending t) = recordOf t (c.threads t)
  disjoint : c.log.Pairwise fun x y => x.response = none → ∀ i ∈ x.taken, i ∉ y.taken
  consistent : Consistent code s (finished c.log)
  free : ∀ i, (∀ x ∈ c.log, x.response = none → i ∉ x.taken) →
    c.state i = after code s (finished c.log) i
  sim : ∀ t op held k, c.threads t = some ⟨op, held, .running k⟩ →
    ∀ u, Agree held u (after code s (finished c.log)) →
      (code op).exec u = k.exec (overlay held u c.state)

section
variable [Preorder ι] {code : α → Code V ρ} {s : State V} {c c' : Config V ρ α τ}

theorem Inv.init (code : α → Code V ρ) (s : State V) :
    Inv code s (.init s : Config V ρ α τ) where
  owned := ⟨by simp [Config.init], by simp [Config.init]⟩
  locked := by simp [Config.init]
  recorded := by simp [Config.init, recordOf]
  disjoint := .nil
  consistent := trivial
  free _ _ := rfl
  sim := by simp [Config.init]

theorem Inv.active (h : Inv code s c) {x : Record ι ρ α τ} (hx : x ∈ c.log)
    (hpending : x.response = none) :
    ∃ k, c.threads x.thread = some ⟨x.op, x.taken, .running k⟩ := by
  have hmem : x ∈ recordOf x.thread (c.threads x.thread) := by
    rw [← h.recorded]
    exact List.mem_filter.mpr ⟨hx, Record.pending_iff.mpr ⟨rfl, hpending⟩⟩
  cases ht : c.threads x.thread with
  | none =>
    rw [ht] at hmem
    cases hmem
  | some a =>
    obtain ⟨op, held, phase⟩ := a
    rw [ht] at hmem
    cases phase with
    | running k =>
      rw [recordOf, List.mem_singleton] at hmem
      rw [hmem]
      exact ⟨k, rfl⟩
    | leaving r => cases hmem

theorem Inv.split (h : Inv code s c) {t : τ} {op : α} {held : List ι} {k : Code V ρ}
    (ht : c.threads t = some ⟨op, held, .running k⟩) : ∃ l l', c.log = l ++ ⟨t, op, held, none⟩ :: l' ∧
      (∀ x ∈ l, x.pending t = false) ∧ ∀ x ∈ l', x.pending t = false := by
  have hrec := h.recorded t
  rw [ht] at hrec
  obtain ⟨l, l', hlog, hl, -, hl'⟩ := log_split hrec
  exact ⟨l, l', hlog, hl, hl'⟩

/-! ### Each step -/

theorem Inv.start (h : Inv code s c) (hcode : ∀ op, WellLocked [] (code op)) {t : τ}
    (ht : c.threads t = none) (op : α) : Inv code s { c with
      threads := Function.update c.threads t (some ⟨op, [], .running (code op)⟩)
      log := c.log ++ [⟨t, op, [], none⟩] } := by
  have hfin : finished (c.log ++ [⟨t, op, [], none⟩]) = finished c.log := by
    rw [finished_append, finished_cons_none rfl]
    exact List.append_nil _
  refine ⟨h.owned.start ht, ?_, ?_, ?_, ?_, ?_, ?_⟩ <;> dsimp only
  · intro u op' held k ha
    rcases update_eq_some.mp ha with ⟨-, heq⟩ | ⟨-, ha⟩
    · cases heq
      exact hcode op
    · exact h.locked u op' held k ha
  · intro u
    rw [List.filter_append, h.recorded]
    by_cases hut : u = t
    · subst hut
      rw [Function.update_self, ht]
      simp [recordOf, Record.pending]
    · rw [Function.update_of_ne hut]
      simp [Record.pending, Ne.symm hut]
  · refine List.pairwise_append.mpr ⟨h.disjoint, List.pairwise_singleton _ _, ?_⟩
    intro x _ y hy _ i _
    rw [List.mem_singleton.mp hy]
    exact List.not_mem_nil
  · rw [hfin]
    exact h.consistent
  · intro i hi
    rw [hfin]
    exact h.free i fun x hx => hi x (List.mem_append_left _ hx)
  · intro u op' held k ha v hv
    rw [hfin] at hv
    rcases update_eq_some.mp ha with ⟨-, heq⟩ | ⟨-, ha⟩
    · cases heq
      rw [overlay_nil]
    · exact h.sim u op' held k ha v hv

theorem Inv.acquire (h : Inv code s c) {t : τ} {op : α} {held : List ι} {i : ι} {k : Code V ρ}
    (ht : c.threads t = some ⟨op, held, .running (.acquire i k)⟩) (hi : c.owner i = none) :
    Inv code s { c with
      owner := Function.update c.owner i (some t)
      threads := Function.update c.threads t (some ⟨op, i :: held, .running k⟩)
      log := c.log.filter (!·.pending t) ++ [⟨t, op, i :: held, none⟩] } := by
  obtain ⟨l, l', hlog, hl, hl'⟩ := h.split ht
  have hpending : Record.pending t (⟨t, op, held, none⟩ : Record ι ρ α τ) = true := by
    simp [Record.pending]
  have hfilter : c.log.filter (!·.pending t) = l ++ l' := by
    rw [hlog, List.filter_append, List.filter_cons, hpending, filter_of_not_pending hl,
      filter_of_not_pending hl']
    rfl
  have hfin : finished (c.log.filter (!·.pending t) ++ [⟨t, op, i :: held, none⟩]) =
      finished c.log := by
    rw [hfilter, hlog, finished_append, finished_append, finished_append, finished_cons_none rfl,
      finished_cons_none rfl]
    exact List.append_nil _
  -- what is still to come of the log is disjoint from what the thread holds, the new mutex included
  have hfree : ∀ x ∈ l ++ l', x.response = none → ∀ j ∈ x.taken, j ∉ i :: held := by
    intro x hx hnone j hj hj'
    have hmem : x ∈ c.log := by
      rw [hlog]
      rcases List.mem_append.mp hx with hx | hx
      · exact List.mem_append_left _ hx
      · exact List.mem_append_right _ (List.mem_cons_of_mem _ hx)
    have hne : x.thread ≠ t := by
      rintro rfl
      have hnot : x.pending x.thread = false := by
        rcases List.mem_append.mp hx with hx | hx
        · exact hl x hx
        · exact hl' x hx
      rw [Record.pending_iff.mpr ⟨rfl, hnone⟩] at hnot
      cases hnot
    obtain ⟨k', hactive⟩ := h.active hmem hnone
    rcases List.mem_cons.mp hj' with rfl | hj'
    · rw [(h.owned.owners j x.thread).mpr ⟨_, hactive, hj⟩] at hi
      cases hi
    · exact h.owned.disjoint hactive ht hne j hj hj'
  have hlocked := h.locked t op held _ ht
  have hstate : c.state i = after code s (finished c.log) i := by
    refine h.free i fun x hx hnone hmem => ?_
    obtain ⟨k', hactive⟩ := h.active hx hnone
    rw [(h.owned.owners i x.thread).mpr ⟨_, hactive, hmem⟩] at hi
    cases hi
  refine ⟨h.owned.acquire ht hi, ?_, ?_, ?_, ?_, ?_, ?_⟩ <;> dsimp only
  · intro u op' held' k' ha
    rcases update_eq_some.mp ha with ⟨-, heq⟩ | ⟨-, ha⟩
    · cases heq
      exact hlocked.2
    · exact h.locked u op' held' k' ha
  · intro u
    have hold := h.recorded u
    rw [hlog, List.filter_append, List.filter_cons] at hold
    rw [hfilter, List.filter_append, List.filter_append]
    by_cases hut : u = t
    · subst hut
      rw [Function.update_self, List.filter_eq_nil_iff.mpr, List.filter_eq_nil_iff.mpr]
      · simp [recordOf, Record.pending]
      · exact fun x hx => by simp [hl' x hx]
      · exact fun x hx => by simp [hl x hx]
    · rw [Function.update_of_ne hut, ← hold]
      simp [Record.pending, Ne.symm hut]
  · have hsub : (l ++ l').Pairwise fun x y => x.response = none → ∀ j ∈ x.taken, j ∉ y.taken := by
      rw [← hfilter]
      exact h.disjoint.filter _
    rw [hfilter]
    refine List.pairwise_append.mpr ⟨hsub, List.pairwise_singleton _ _, ?_⟩
    intro x hx y hy hnone j hj
    rw [List.mem_singleton.mp hy]
    exact hfree x hx hnone j hj
  · rw [hfin]
    exact h.consistent
  · intro j hj
    rw [hfin]
    refine h.free j fun x hx hnone hmem => ?_
    rw [hfilter] at hj
    rw [hlog, List.mem_append, List.mem_cons] at hx
    rcases hx with hx | rfl | hx
    · exact hj x (by simp [hx]) hnone hmem
    · exact hj ⟨t, op, i :: held, none⟩ (by simp) rfl (List.mem_cons_of_mem _ hmem)
    · exact hj x (by simp [hx]) hnone hmem
  · intro u op' held' k' ha v hv
    rw [hfin] at hv
    rcases update_eq_some.mp ha with ⟨-, heq⟩ | ⟨-, ha⟩
    · cases heq
      have hsim := h.sim t op held _ ht v (hv.mono fun j hj => List.mem_cons_of_mem _ hj)
      rw [hsim, Code.exec, overlay_cons]
      exact (hv i List.mem_cons_self).trans hstate.symm
    · exact h.sim u op' held' k' ha v hv

theorem Inv.body (h : Inv code s c) {t : τ} {op : α} {held : List ι} {f : State V → State V}
    {k : State V → Code V ρ} (ht : c.threads t = some ⟨op, held, .running (.body f k)⟩) :
    Inv code s { c with
      state := f c.state
      threads := Function.update c.threads t (some ⟨op, held, .running (k c.state)⟩) } := by
  have hlocked := h.locked t op held _ ht
  obtain ⟨l, l', hlog, -, -⟩ := h.split ht
  refine ⟨h.owned.go ht, ?_, ?_, ?_, ?_, ?_, ?_⟩ <;> dsimp only
  · intro u op' held' k' ha
    rcases update_eq_some.mp ha with ⟨-, heq⟩ | ⟨-, ha⟩
    · cases heq
      exact hlocked.2.2 c.state
    · exact h.locked u op' held' k' ha
  · intro u
    rw [h.recorded]
    by_cases hut : u = t
    · subst hut
      rw [Function.update_self, ht]
      rfl
    · rw [Function.update_of_ne hut]
  · exact h.disjoint
  · exact h.consistent
  · intro i hi
    have hnot : i ∉ held := hi ⟨t, op, held, none⟩ (by rw [hlog]; simp) rfl
    rw [hlocked.1 c.state i hnot]
    exact h.free i hi
  · intro u op' held' k' ha v hv
    rcases update_eq_some.mp ha with ⟨-, heq⟩ | ⟨hut, ha⟩
    · cases heq
      obtain ⟨hf, hk⟩ := hlocked.body_overlay v c.state
      rw [h.sim t op held _ ht v hv, Code.exec, hf, hk]
    · rw [h.sim u op' held' k' ha v hv]
      have hagree : Agree held' c.state (f c.state) := fun i hi =>
        (hlocked.1 c.state i (h.owned.disjoint ha ht hut i hi)).symm
      rw [overlay_congr hagree]

theorem Inv.leave (h : Inv code s c) {t : τ} {op : α} {held : List ι} {r : ρ}
    (ht : c.threads t = some ⟨op, held, .running (.ret r)⟩) : Inv code s { c with
      threads := Function.update c.threads t (some ⟨op, held, .leaving r⟩)
      log := c.log.map fun x => if x.pending t then { x with response := some r } else x } := by
  obtain ⟨l, l', hlog, hl, hl'⟩ := h.split ht
  have hpending : Record.pending t (⟨t, op, held, none⟩ : Record ι ρ α τ) = true := by
    simp [Record.pending]
  have hmap : (c.log.map fun x => if x.pending t then { x with response := some r } else x) =
      l ++ ⟨t, op, held, some r⟩ :: l' := by
    rw [hlog, List.map_append, List.map_cons, map_of_not_pending hl, map_of_not_pending hl',
      hpending]
    rfl
  have hold : finished c.log = finished l ++ finished l' := by
    rw [hlog, finished_append, finished_cons_none rfl]
  have hnew : finished (l ++ (⟨t, op, held, some r⟩ : Record ι ρ α τ) :: l') =
      finished l ++ ⟨op, held, r⟩ :: finished l' := by
    rw [finished_append, finished_cons_some rfl]
  have hdisjoint := h.disjoint
  rw [hlog, List.pairwise_append, List.pairwise_cons] at hdisjoint
  obtain ⟨hpl, ⟨hpt, hpl'⟩, hcross⟩ := hdisjoint
  -- the operation's effect is to write the components of what it holds
  obtain ⟨hcons, hafter⟩ := Consistent.insert (w := c.state) (d := ⟨op, held, r⟩)
    (hold ▸ h.consistent) (fun u hu => h.sim t op held _ ht u (by rw [hold]; exact hu))
    (fun e he => by
      obtain ⟨x, hx, htaken⟩ := mem_finished he
      rw [htaken]
      exact hpt x hx rfl)
  have hmem : (⟨t, op, held, none⟩ : Record ι ρ α τ) ∈ c.log := by
    rw [hlog]
    simp
  refine ⟨h.owned.go ht, ?_, ?_, ?_, ?_, ?_, ?_⟩ <;> dsimp only
  · intro u op' held' k' ha
    rcases update_eq_some.mp ha with ⟨-, heq⟩ | ⟨-, ha⟩
    · cases heq
    · exact h.locked u op' held' k' ha
  · intro u
    have hrec := h.recorded u
    rw [hlog, List.filter_append, List.filter_cons] at hrec
    rw [hmap, List.filter_append, List.filter_cons]
    by_cases hut : u = t
    · subst hut
      rw [Function.update_self, List.filter_eq_nil_iff.mpr, List.filter_eq_nil_iff.mpr]
      · simp [recordOf, Record.pending]
      · exact fun x hx => by simp [hl' x hx]
      · exact fun x hx => by simp [hl x hx]
    · rw [Function.update_of_ne hut, ← hrec]
      simp [Record.pending, Ne.symm hut]
  · rw [hmap, List.pairwise_append, List.pairwise_cons]
    refine ⟨hpl, ⟨fun x _ hnone => ?_, hpl'⟩, fun x hx y hy hnone => ?_⟩
    · cases hnone
    · rcases List.mem_cons.mp hy with rfl | hy
      · exact hcross x hx ⟨t, op, held, none⟩ List.mem_cons_self hnone
      · exact hcross x hx y (List.mem_cons_of_mem _ hy) hnone
  · rw [hmap, hnew]
    exact hcons
  · intro i hi
    rw [hmap] at hi ⊢
    rw [hnew, hafter]
    by_cases hheld : i ∈ held
    · rw [overlay_mem hheld]
    · rw [overlay_notMem hheld, ← hold]
      refine h.free i fun x hx hnone => ?_
      rw [hlog, List.mem_append, List.mem_cons] at hx
      rcases hx with hx | rfl | hx
      · exact hi x (by simp [hx]) hnone
      · exact hheld
      · exact hi x (by simp [hx]) hnone
  · intro u op' held' k' ha v hv
    rcases update_eq_some.mp ha with ⟨-, heq⟩ | ⟨hut, ha⟩
    · cases heq
    · refine h.sim u op' held' k' ha v ?_
      rw [hmap, hnew, hafter] at hv
      rw [hold]
      exact hv.trans (agree_overlay_of_disjoint fun i hi =>
        h.owned.disjoint ha ht hut i hi)

theorem Inv.depart (h : Inv code s c) {t : τ} {op : α} {held : List ι} {r : ρ}
    (ht : c.threads t = some ⟨op, held, .leaving r⟩) {a : Option (Active V ρ α)}
    (ha : ∀ op held k, a ≠ some ⟨op, held, .running k⟩) {owner : ι → Option τ}
    (howned : Owned owner (Function.update c.threads t a)) :
    Inv code s { c with owner := owner, threads := Function.update c.threads t a } := by
  refine ⟨howned, ?_, ?_, h.disjoint, h.consistent, h.free, ?_⟩ <;> dsimp only
  · intro u op' held' k hu
    rcases update_eq_some.mp hu with ⟨-, heq⟩ | ⟨-, hu⟩
    · exact absurd heq (ha _ _ _)
    · exact h.locked u op' held' k hu
  · intro u
    rw [h.recorded]
    by_cases hut : u = t
    · subst hut
      rw [Function.update_self, ht]
      cases a with
      | none => rfl
      | some a =>
        obtain ⟨op', held', phase⟩ := a
        cases phase with
        | running k => exact absurd rfl (ha op' held' k)
        | leaving r' => rfl
    · rw [Function.update_of_ne hut]
  · intro u op' held' k hu v hv
    rcases update_eq_some.mp hu with ⟨-, heq⟩ | ⟨-, hu⟩
    · exact absurd heq (ha _ _ _)
    · exact h.sim u op' held' k hu v hv

theorem Inv.step (h : Inv code s c) (hcode : ∀ op, WellLocked [] (code op))
    (hstep : Step code c c') : Inv code s c' := by
  cases hstep with
  | start t op ht => exact h.start hcode ht op
  | acquire ht hi => exact h.acquire ht hi
  | body ht => exact h.body ht
  | leave ht => exact h.leave ht
  | release ht => exact h.depart ht (by simp) (h.owned.release ht)
  | respond ht => exact h.depart ht (by simp) (h.owned.respond ht)

/-! ### Results -/

variable (hcode : ∀ op, WellLocked [] (code op))
include hcode

theorem Reachable.inv (h : Reachable code s c) : Inv code s c := by
  induction h with
  | refl => exact .init code s
  | tail _ hstep ih => exact ih.step hcode hstep

/-- Whoever waits, through others, for a thread waits for a mutex that is at most one the thread
has. -/
theorem Reachable.waits (h : Reachable code s c) {t u : τ}
    (hwaits : Relation.TransGen (WaitsFor c) t u) :
    ∃ op held i k, c.threads t = some ⟨op, held, .running (.acquire i k)⟩ ∧
      ∃ j, i ≤ j ∧ c.owner j = some u := by
  have hinv := h.inv hcode
  induction hwaits with
  | single hfirst =>
    obtain ⟨op, held, i, k, ht, hi⟩ := hfirst
    exact ⟨op, held, i, k, ht, i, le_rfl, hi⟩
  | @tail u v _ hlast ih =>
    obtain ⟨op, held, i, k, ht, j, hij, hj⟩ := ih
    obtain ⟨op', held', i', k', hu, hi'⟩ := hlast
    obtain ⟨a, ha, hmem⟩ := (hinv.owned.owners j u).mp hj
    rw [hu] at ha
    cases ha
    have hlt := (hinv.locked u op' held' _ hu).1 j hmem
    exact ⟨op, held, i, k, ht, i', hij.trans hlt.le, hi'⟩

/-- No threads wait for each other in a cycle. -/
theorem Reachable.no_deadlock (h : Reachable code s c) (t : τ) :
    ¬ Relation.TransGen (WaitsFor c) t t := by
  intro hcycle
  obtain ⟨op, held, i, k, ht, j, hij, hj⟩ := h.waits hcode hcycle
  obtain ⟨a, ha, hmem⟩ := ((h.inv hcode).owned.owners j t).mp hj
  rw [ht] at ha
  cases ha
  have hlt := ((h.inv hcode).locked t op held _ ht).1 j hmem
  exact absurd (hij.trans_lt hlt) (lt_irrefl i)

theorem Reachable.all_finished (h : Reachable code s c) (hidle : ∀ t, c.threads t = none) :
    (finished c.log).map Done.op = c.log.map Record.op := by
  have hall : ∀ x ∈ c.log, x.response ≠ none := by
    intro x hx hnone
    obtain ⟨k, hk⟩ := (h.inv hcode).active hx hnone
    rw [hidle] at hk
    cases hk
  generalize c.log = log at hall
  induction log with
  | nil => rfl
  | cons x log ih =>
    obtain ⟨r, hr⟩ := Option.ne_none_iff_exists'.mp (hall x List.mem_cons_self)
    rw [finished_cons_some hr, List.map_cons, List.map_cons,
      ih fun y hy => hall y (List.mem_cons_of_mem _ hy)]

/-- The responses so far are those of the returned operations run one after another, in the order in
which each took its last mutex, and so is every component whose mutex nobody has. -/
theorem Reachable.serial (h : Reachable code s c) :
    (Locking.serial code s ((finished c.log).map Done.op)).2 =
        (finished c.log).map Done.response ∧
      ∀ i, c.owner i = none →
        c.state i = (Locking.serial code s ((finished c.log).map Done.op)).1 i := by
  have hinv := h.inv hcode
  rw [hinv.consistent.serial_eq]
  refine ⟨rfl, fun i hfree => hinv.free i fun x hx hnone hmem => ?_⟩
  obtain ⟨k, hk⟩ := hinv.active hx hnone
  have howner := (hinv.owned.owners i x.thread).mpr ⟨_, hk, hmem⟩
  rw [hfree] at howner
  cases howner

theorem Reachable.free (h : Reachable code s c) (hidle : ∀ t, c.threads t = none) (i : ι) :
    c.owner i = none := by
  cases howner : c.owner i with
  | none => rfl
  | some t =>
    obtain ⟨a, ha, -⟩ := ((h.inv hcode).owned.owners i t).mp howner
    rw [hidle] at ha
    cases ha

end

end Locking
