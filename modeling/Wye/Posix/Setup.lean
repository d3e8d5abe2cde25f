import Wye.Posix.Launch

/-!
# The descriptors of a child

What `posix_start` makes of the table between `fork` and `execve`: each stream of the maps is a move of
descriptors (`StreamInfo.move`), and if no move touches what an earlier one has put in place, the child
sees every stream as the maps say it, and nothing else (`posixStartChild_given`).
-/

namespace Wye

open Text Calls Descriptors

namespace Posix

/-- A file is opened. -/
def fileMove (file : File) (d : Nat) : Move File := ⟨d, [], [], fun _ => some file, fun _ _ _ => rfl⟩

/-- A handle is moved. -/
def handleMove (h d : Nat) : Move File := ⟨d, [h], [h], fun f => f h, fun _ _ heq => heq h (by simp)⟩

/-- One end of a pipe is moved, and the other one closed. -/
def pipeMove (ours theirs d : Nat) : Move File :=
  ⟨d, [ours], [theirs, ours], fun f => if theirs = ours then none else f ours,
    fun _ _ heq => by rw [heq ours (by simp)]⟩

/-- A stream is directed to where another one goes. -/
def redirectMove (descTo d : Nat) : Move File :=
  ⟨d, [descTo], [], fun f => f descTo, fun _ _ heq => heq descTo (by simp)⟩

/-- What a turn of the loops does to the descriptors, if it does something. -/
def StreamInfo.move (out : Bool) (d : Nat) : StreamInfo → Option (Move File)
  | .useFile file => some (fileMove (.path file out) d)
  | .useHandle (some h) => some (handleMove h d)
  | .usePipe (some rend) (some wend) =>
    some (if out then pipeMove wend rend d else pipeMove rend wend d)
  | _ => none

/-- What the second loop of `setup_output` does. -/
def StreamInfo.redirection (d : Nat) : StreamInfo → Option (Move File)
  | .redirect descTo => some (redirectMove descTo d)
  | _ => none

/-- The moves of a loop. -/
def InfoMap.moves (out : Bool) (info : InfoMap) : List (Move File) :=
  info.filterMap fun i => i.2.move out i.1

def InfoMap.redirections (info : InfoMap) : List (Move File) :=
  info.filterMap fun i => i.2.redirection i.1

section
variable {opens : Str → Bool → Bool} {out : Bool} {d h x : Nat} {si : StreamInfo}
  {t t' : Table File} {info infoin infoout : InfoMap} {flags flags' : List Bool}

theorem posixRemap_spec (hremap : posixRemap h d t = .ok t') :
    t'.length = t.length ∧ d < t.length ∧ ∃ a, t.entry h = some a ∧
      ∀ x, t'.entry x = if x = h then none else if x = d then some a else t.entry x := by
  rw [posixRemap] at hremap
  split at hremap
  · cases hremap
  · rename_i u hdup
    obtain ⟨hd, a, ha, rfl⟩ := Table.dup2_spec hdup
    split at hremap
    · cases hremap
      refine ⟨by simp, hd, a, ha, fun x => ?_⟩
      rw [Table.entry_clear, Table.entry_put hd]
    · cases hremap

theorem setupPipe_spec {ours theirs : Nat}
    (hset : (if d ≠ ours then posixRemap ours d (t.clear theirs) else .ok (t.clear theirs)) = .ok t') :
    t'.length = t.length ∧ t'.entry = (pipeMove ours theirs d).act t.entry := by
  split at hset
  · rename_i hne
    obtain ⟨hlen, hd, a, ha, hentry⟩ := posixRemap_spec hset
    rw [Table.length_clear] at hlen
    refine ⟨hlen, funext fun x => ?_⟩
    rw [Table.entry_clear] at ha
    have hends : ours ≠ theirs := by
      intro heq
      rw [if_pos heq] at ha
      cases ha
    rw [if_neg hends] at ha
    rw [hentry, Table.entry_clear]
    simp only [pipeMove, Move.act, List.mem_cons, List.not_mem_nil, or_false, if_neg (Ne.symm hends), ha]
    by_cases hx : x = ours
    · subst hx
      rw [if_pos rfl, if_neg (Ne.symm hne), if_pos (.inr rfl)]
    · rw [if_neg hx]
      by_cases hx' : x = d
      · rw [if_pos hx', if_pos hx']
      · rw [if_neg hx', if_neg hx']
        by_cases htheirs : x = theirs
        · rw [if_pos htheirs, if_pos (.inl htheirs)]
        · rw [if_neg htheirs, if_neg (by simp [hx, htheirs])]
  · rename_i heq
    cases hset
    rw [not_not] at heq
    subst heq
    refine ⟨Table.length_clear, funext fun x => ?_⟩
    rw [Table.entry_clear]
    simp only [pipeMove, Move.act, List.mem_cons, List.not_mem_nil, or_false]
    by_cases hx : x = d
    · subst hx
      simp only [if_true, eq_comm]
    · by_cases htheirs : x = theirs
      · rw [if_pos htheirs, if_neg hx, if_pos (.inl htheirs)]
      · rw [if_neg htheirs, if_neg hx, if_neg (by simp [hx, htheirs])]

theorem setupStream_spec (hset : setupStream opens out d si t = .ok t') :
    t'.length = t.length ∧ t'.entry = match si.move out d with
      | some m => m.act t.entry
      | none => t.entry := by
  cases si with
  | close => cases hset
  | inherit =>
    cases hset
    exact ⟨rfl, rfl⟩
  | redirect descTo =>
    rw [setupStream] at hset
    split at hset
    · cases hset
      exact ⟨rfl, rfl⟩
    · cases hset
  | useFile file =>
    rw [setupStream] at hset
    split at hset
    · cases hset
    · rename_i fd u hopen
      split at hopen
      · obtain ⟨hfd, hnone, rfl⟩ := Table.openNext_spec hopen
        split at hset
        · rename_i hne
          obtain ⟨hlen, hd, a, ha, hentry⟩ := posixRemap_spec hset
          rw [Table.length_put] at hd
          rw [Table.entry_put hfd, if_pos rfl] at ha
          cases ha
          refine ⟨by rw [hlen, Table.length_put], funext fun x => ?_⟩
          rw [hentry, Table.entry_put hfd]
          simp only [StreamInfo.move, fileMove, Move.act, List.not_mem_nil, if_false]
          by_cases hx : x = fd
          · subst hx
            rw [if_pos rfl, if_neg hne, hnone]
          · rw [if_neg hx, if_neg hx]
        · rename_i heq
          cases hset
          rw [not_not] at heq
          subst heq
          refine ⟨by simp, funext fun x => ?_⟩
          rw [Table.entry_put hfd]
          simp only [StreamInfo.move, fileMove, Move.act, List.not_mem_nil, if_false]
      · cases hopen
  | useHandle handle =>
    cases handle with
    | none => cases hset
    | some h =>
      rw [setupStream] at hset
      split at hset
      · rename_i hne
        obtain ⟨hlen, hd, a, ha, hentry⟩ := posixRemap_spec hset
        refine ⟨hlen, funext fun x => ?_⟩
        rw [hentry]
        simp only [StreamInfo.move, handleMove, Move.act, List.mem_singleton, ha]
        by_cases hx : x = h
        · subst hx
          rw [if_pos rfl, if_neg hne, if_pos rfl]
        · rw [if_neg hx, if_neg hx]
      · rename_i heq
        cases hset
        rw [not_not] at heq
        subst heq
        refine ⟨rfl, funext fun x => ?_⟩
        simp only [StreamInfo.move, handleMove, Move.act, List.mem_singleton]
        split
        · rw [‹x = h›]
        · rfl
  | usePipe rend wend =>
    cases rend with
    | none => cases hset
    | some rend =>
      cases wend with
      | none => cases hset
      | some wend =>
        cases out with
        | true => exact setupPipe_spec hset
        | false => exact setupPipe_spec hset

/-- A loop is its moves, and keeps open what is in its map. -/
theorem setupStreams_spec (hset : setupStreams opens out info (t, flags) = .ok (t', flags')) :
    t'.length = t.length ∧ t'.entry = (info.moves out).foldl Move.act t.entry ∧
      flags'.length = flags.length ∧ (∀ d ∈ info.map (·.1), d < flags.length) ∧
      ∀ x, flags'[x]? = some true ↔ flags[x]? = some true ∧ x ∉ info.map (·.1) := by
  induction info generalizing t flags with
  | nil =>
    cases hset
    exact ⟨rfl, rfl, rfl, by simp, fun x => by simp⟩
  | cons i info ih =>
    obtain ⟨d, si⟩ := i
    rw [setupStreams] at hset
    split at hset
    · rename_i hd
      obtain ⟨u, hstream, hrest⟩ := Outcome.bind_eq_ok.mp hset
      obtain ⟨hlen, hentry⟩ := setupStream_spec hstream
      obtain ⟨hlen', hentry', hflags, hkeys, hkept⟩ := ih hrest
      rw [List.length_set] at hflags hkeys
      refine ⟨hlen'.trans hlen, ?_, hflags, List.forall_mem_cons.mpr ⟨hd, hkeys⟩, fun x => ?_⟩
      · rw [hentry', hentry, InfoMap.moves, InfoMap.moves, List.filterMap_cons]
        cases si.move out d <;> rfl
      · rw [hkept, List.getElem?_set]
        by_cases heq : d = x
        · subst heq
          simp [hd]
        · simp [heq, Ne.symm heq]
    · cases hset

theorem setupRedirects_spec (hset : setupRedirects info t = .ok t') : t'.length = t.length ∧
    t'.entry = info.redirections.foldl Move.act t.entry := by
  induction info generalizing t with
  | nil =>
    cases hset
    exact ⟨rfl, rfl⟩
  | cons i info ih =>
    obtain ⟨d, si⟩ := i
    cases si with
    | redirect descTo =>
      rw [setupRedirects] at hset
      split at hset
      · cases hset
      · rename_i u hdup
        obtain ⟨hd, a, ha, rfl⟩ := Table.dup2_spec hdup
        obtain ⟨hlen, hentry⟩ := ih hset
        refine ⟨by rw [hlen, Table.length_put], ?_⟩
        have hfirst : (t.put d a).entry = (redirectMove descTo d).act t.entry := by
          funext x
          rw [Table.entry_put hd]
          simp only [redirectMove, Move.act, List.not_mem_nil, if_false, ha]
        rw [hentry, hfirst]
        rfl
    | close | inherit | useFile | useHandle | usePipe => exact ih hset

theorem entry_closeFlagged (hlen : flags.length = t.length) (x : Nat) :
    (closeFlagged flags t).entry x = if flags[x]? = some true then none else t.entry x := by
  rw [Table.entry, closeFlagged, List.getElem?_zipWith, Table.entry]
  by_cases hx : x < t.length
  · have hflag : x < flags.length := hlen ▸ hx
    rw [List.getElem?_eq_getElem hx, List.getElem?_eq_getElem hflag]
    cases flags[x] <;> rfl
  · rw [List.getElem?_eq_none (by omega : t.length ≤ x), List.getElem?_eq_none (by omega)]
    rfl

/-- What a child sees under a descriptor: what the maps say, where the streams that are moved are taken
from the table behind `fork`, and the redirections from where these have been put. -/
def given (infoin infoout : InfoMap) (t : Table File) (x : Nat) : Option File :=
  if x ∈ infoin.map (·.1) ∨ x ∈ infoout.map (·.1) then
    together infoout.redirections (together (infoin.moves false ++ infoout.moves true) t.entry) x
  else none

/-- A child that comes to `execve` sees every stream as the maps say, and nothing else. -/
theorem posixStartChild_given {setup : Option Str}
    (hmoves : (infoin.moves false ++ infoout.moves true).Pairwise Move.Apart)
    (hredirections : infoout.redirections.Pairwise Move.Apart)
    (hstart : posixStartChild opens setup infoin infoout t = .ok t') :
    t'.length = t.length ∧ ∀ x, t'.entry x = given infoin infoout t x := by
  obtain ⟨⟨t₁, flags₁⟩, hin, hrest⟩ := Outcome.bind_eq_ok.mp hstart
  obtain ⟨⟨t₃, flags₂⟩, hout, hend⟩ := Outcome.bind_eq_ok.mp hrest
  obtain ⟨⟨t₂, flags⟩, hstreams, hredirects⟩ := Outcome.bind_eq_ok.mp hout
  obtain ⟨t₃', hredirect, heq⟩ := Outcome.map_eq_ok.mp hredirects
  cases heq
  obtain ⟨hlen₁, hentry₁, hflags₁, hkeys₁, hkept₁⟩ := setupStreams_spec hin
  obtain ⟨hlen₂, hentry₂, hflags₂, hkeys₂, hkept₂⟩ := setupStreams_spec hstreams
  obtain ⟨hlen₃, hentry₃⟩ := setupRedirects_spec hredirect
  cases setup with
  | some what => cases hend
  | none =>
    obtain rfl := (Outcome.ok.inj hend).symm
    rw [List.length_replicate] at hflags₁ hkeys₁
    have hflags : flags₂.length = t₃.length := by omega
    have hlen : (closeFlagged flags₂ t₃).length = t₃.length := by
      rw [closeFlagged, List.length_zipWith, hflags, Nat.min_self]
    refine ⟨by omega, fun x => ?_⟩
    have hflag : flags₂[x]? = some true ↔
        x < t.length ∧ ¬ (x ∈ infoin.map (·.1) ∨ x ∈ infoout.map (·.1)) := by
      rw [hkept₂, hkept₁, List.getElem?_replicate, not_or, and_assoc]
      exact and_congr_left fun _ => by split <;> simp [*]
    rw [entry_closeFlagged hflags, given]
    by_cases hkey : x ∈ infoin.map (·.1) ∨ x ∈ infoout.map (·.1)
    · rw [if_pos hkey, if_neg fun h => (hflag.mp h).2 hkey, hentry₃,
        foldl_act hredirections, hentry₂, hentry₁, ← List.foldl_append, foldl_act hmoves]
    · rw [if_neg hkey]
      by_cases hx : x < t.length
      · rw [if_pos (hflag.mpr ⟨hx, hkey⟩)]
      · rw [if_neg fun h => hx (hflag.mp h).1, Table.entry, List.getElem?_eq_none (by omega)]
        rfl

end

/-! ### A worker -/

/-- The streams of a worker whose pipe has two ends. -/
def runInfo (rend wend : Nat) : InfoMap :=
  [(1, .inherit), (2, .inherit), (3, .usePipe (some rend) (some wend))]

section
variable {opens : Str → Bool → Bool} {t : Table File} {r w n : Nat}

/-- A worker sees the other end of its pipe under 3, what it inherits under 1 and 2, and nothing
else. -/
theorem posixStartChild_run (hlen : 3 < t.length) (hr : t.entry r = some (.readEnd n))
    (hw : t.entry w = some (.writeEnd n)) :
    ∃ t', posixStartChild opens none [] (runInfo r w) t = .ok t' ∧ ∀ x, t'.entry x =
      if x = 3 then some (.writeEnd n)
      else if (x = 1 ∨ x = 2) ∧ x ≠ r ∧ x ≠ w then t.entry x else none := by
  have hends : r ≠ w := by
    rintro rfl
    rw [hr] at hw
    cases hw
  obtain ⟨u, hpipe⟩ : ∃ u, setupStream opens true 3 (.usePipe (some r) (some w)) t = .ok u := by
    have hclear : (t.clear r).entry w = some (.writeEnd n) := by
      rw [Table.entry_clear, if_neg (Ne.symm hends), hw]
    have hlen' : 3 < (t.clear r).length := by rwa [Table.length_clear]
    simp only [setupStream, if_true]
    by_cases hne : 3 = w
    · exact ⟨_, if_neg (not_not.mpr hne)⟩
    · rw [if_pos hne, posixRemap, Table.dup2_eq hlen' hclear]
      simp only [Table.entry_put hlen', if_neg (Ne.symm hne), hclear, Option.isSome_some, if_true]
      exact ⟨_, rfl⟩
  have hflags : (List.replicate t.length true).length = t.length := List.length_replicate
  have hstreams : setupStreams opens true (runInfo r w) (t, List.replicate t.length true) =
      .ok (u, (((List.replicate t.length true).set 1 false).set 2 false).set 3 false) := by
    simp only [runInfo, setupStreams, List.length_set, hflags, if_pos hlen,
      if_pos (show 1 < t.length by omega), if_pos (show 2 < t.length by omega)]
    change (setupStream opens true 3 (.usePipe (some r) (some w)) t).bind _ = _
    rw [hpipe]
    rfl
  have hstart : ∃ t', posixStartChild opens none [] (runInfo r w) t = .ok t' := by
    rw [posixStartChild, setupInput, setupStreams, Outcome.bind_ok, setupOutput, hstreams]
    exact ⟨_, rfl⟩
  obtain ⟨t', ht'⟩ := hstart
  have hmoves : (InfoMap.moves false [] ++ InfoMap.moves true (runInfo r w)).Pairwise Move.Apart :=
    List.pairwise_singleton _ (pipeMove w r 3)
  have hredirections : (InfoMap.redirections (runInfo r w)).Pairwise Move.Apart := List.Pairwise.nil
  obtain ⟨-, hgiven⟩ := posixStartChild_given hmoves hredirections ht'
  refine ⟨t', ht', fun x => ?_⟩
  have hsee : given [] (runInfo r w) t x = if x = 1 ∨ x = 2 ∨ x = 3 then
      (pipeMove w r 3).act t.entry x else none := by
    rw [given, ← foldl_act hredirections, ← foldl_act hmoves]
    refine if_congr ?_ rfl rfl
    simp [runInfo]
  rw [hgiven, hsee]
  simp only [pipeMove, Move.act, List.mem_cons, List.not_mem_nil, or_false, if_neg hends, hw]
  by_cases hthree : x = 3
  · rw [if_pos hthree, if_pos (by simp [hthree]), if_pos hthree]
  · rw [if_neg hthree, if_neg hthree]
    by_cases hstd : x = 1 ∨ x = 2
    · rw [if_pos (by tauto)]
      by_cases hx : x = r ∨ x = w
      · rw [if_pos hx, if_neg (by tauto)]
      · rw [if_neg hx, if_pos (by tauto)]
    · rw [if_neg (by tauto), if_neg (by tauto)]

end

end Posix

end Wye
