import Wye.Base.Descriptors
import Wye.Base.Maps
import Wye.Process.Basic

/-!
# `posix_launch`

The descriptors of a launch: the pipes that it opens for captured streams, what the child does with its
copy of the table between `fork` and `execve`, and what the parent keeps. `system_error` carries the
text that the library gives it; what the C library says about `errno` behind it is left out.
-/

namespace Wye

open Text Calls Descriptors

namespace Posix

/-- What is open under a descriptor. Pipes are numbered in the order in which they are made. -/
inductive File where
  | readEnd (pipe : Nat)
  | writeEnd (pipe : Nat)
  | path (name : Str) (out : Bool)
  | other (n : Nat)
  deriving DecidableEq, Repr

/-- `stream_behavior`. -/
inductive StreamBehavior where
  | capture
  | close
  | inherit
  | redirectToStdout
  | silence
  | posixRedirect (descTo : Nat)
  deriving DecidableEq, Repr

/-- `file_handle`, which is invalid or owns a descriptor. -/
abbrev FileHandle := Option Nat

/-- `stream_info`. -/
inductive StreamInfo where
  | close
  | inherit
  | redirect (descTo : Nat)
  | useFile (file : Str)
  | useHandle (handle : FileHandle)
  | usePipe (rend wend : FileHandle)
  deriving DecidableEq, Repr

/-- `behavior_map`. -/
abbrev BehaviorMap := Std.ExtTreeMap Nat StreamBehavior compare

/-- `info_map`, in the order of its keys. -/
abbrev InfoMap := List (Nat × StreamInfo)

/-- The descriptors of the service, and the number of the next pipe. -/
structure Fds where
  table : Table File
  pipes : Nat
  deriving DecidableEq, Repr

/-- `pipe(2)`. -/
def Fds.pipe (fds : Fds) : Option (Nat × Nat × Fds) :=
  match fds.table.openNext (.readEnd fds.pipes) with
  | none => none
  | some (r, t) =>
    match t.openNext (.writeEnd fds.pipes) with
    | none => none
    | some (w, t) => some (r, w, ⟨t, fds.pipes + 1⟩)

/-! ### Handles -/

/-- `file_handle::~file_handle`. -/
def FileHandle.destroy (h : FileHandle) (t : Table File) : Table File :=
  match h with
  | none => t
  | some d => t.clear d

/-- `file_handle::close`. -/
def FileHandle.close (h : FileHandle) (t : Table File) : Outcome Exn (Table File) :=
  match h with
  | none => .lost .assertion
  | some d => .ok (t.clear d)

/-- `stream_info::~stream_info`. -/
def StreamInfo.destroy (t : Table File) : StreamInfo → Table File
  | .useHandle h => FileHandle.destroy h t
  | .usePipe rend wend => FileHandle.destroy wend (FileHandle.destroy rend t)
  | _ => t

def InfoMap.destroy (info : InfoMap) (t : Table File) : Table File :=
  info.foldl (fun t i => i.2.destroy t) t

/-! ### The parent, up to `fork` -/

/-- `stream_info::stream_info`. -/
def streamInfo (sb : StreamBehavior) (out : Bool) (fds : Fds) : Outcome Exn StreamInfo × Fds :=
  match sb with
  | .close => (.ok .close, fds)
  | .inherit => (.ok .inherit, fds)
  | .redirectToStdout => (.ok (.redirect 1), fds)
  | .posixRedirect descTo => (.ok (.redirect descTo), fds)
  | .silence => (.ok (.useFile (if out then "/dev/null".toList else "/dev/zero".toList)), fds)
  | .capture =>
    match fds.pipe with
    | none =>
      (.throw (.systemError "boost::process::detail::pipe::pipe: pipe(2) failed".toList), fds)
    | some (r, w, fds) => (.ok (.usePipe (some r) (some w)), fds)

/-- The loops of `posix_launch` over the behaviors, behind some that are done. An exception destroys
these. -/
def infoMap (out : Bool) : List (Nat × StreamBehavior) → InfoMap → Fds → Outcome Exn InfoMap × Fds
  | [], info, fds => (.ok info, fds)
  | (d, sb) :: sbs, info, fds =>
    if sb ≠ .close then
      match streamInfo sb out fds with
      | (.ok si, fds) => infoMap out sbs (info ++ [(d, si)]) fds
      | (.throw e, fds) => (.throw e, { fds with table := info.destroy fds.table })
      | (.lost why, fds) => (.lost why, fds)
    else infoMap out sbs info fds

/-! ### The child -/

/-- `file_handle::posix_remap`. -/
def posixRemap (h d : Nat) (t : Table File) : Outcome Str (Table File) :=
  match t.dup2 h d with
  | none =>
    .throw "boost::process::detail::file_handle::posix_remap: dup2(2) failed".toList
  | some t =>
    if (t.entry h).isSome then .ok (t.clear h)
    else .throw "boost::process::detail::file_handle::posix_remap: close(2) failed".toList

/-- A turn of the loops of `setup_input` and `setup_output`. `opens` tells which files can be opened to
be read or written. -/
def setupStream (opens : Str → Bool → Bool) (out : Bool) (d : Nat) (si : StreamInfo)
    (t : Table File) : Outcome Str (Table File) :=
  match si with
  | .useFile file =>
    match if opens file out then t.openNext (.path file out) else none with
    | none =>
      .throw ((if out then "boost::process::detail::setup_output".toList
        else "boost::process::detail::setup_input".toList) ++
        ": open(2) of ".toList ++ file ++ " failed".toList)
    | some (fd, t) => if fd ≠ d then posixRemap fd d t else .ok t
  | .useHandle none => .lost .assertion
  | .useHandle (some h) => if h ≠ d then posixRemap h d t else .ok t
  | .usePipe (some rend) (some wend) =>
    let ours := if out then wend else rend
    let theirs := if out then rend else wend
    let t := t.clear theirs
    if d ≠ ours then posixRemap ours d t else .ok t
  | .usePipe _ _ => .lost .assertion
  | .inherit => .ok t
  | .redirect _ => if out then .ok t else .lost .assertion
  | .close => .lost .assertion

/-- A loop over the streams. What is in the map stays open. -/
def setupStreams (opens : Str → Bool → Bool) (out : Bool) :
    InfoMap → Table File × List Bool → Outcome Str (Table File × List Bool)
  | [], s => .ok s
  | (d, si) :: info, (t, closeflags) =>
    if d < closeflags.length then
      (setupStream opens out d si t).bind fun t =>
        setupStreams opens out info (t, closeflags.set d false)
    else .lost .assertion

/-- The second loop of `setup_output`. -/
def setupRedirects : InfoMap → Table File → Outcome Str (Table File)
  | [], t => .ok t
  | (d, .redirect descTo) :: info, t =>
    match t.dup2 descTo d with
    | none => .throw "boost::process::detail::file_handle::posix_dup: dup2(2) failed".toList
    | some t => setupRedirects info t
  | _ :: info, t => setupRedirects info t

/-- `setup_input`. -/
def setupInput (opens : Str → Bool → Bool) (info : InfoMap) (s : Table File × List Bool) :
    Outcome Str (Table File × List Bool) := setupStreams opens false info s

/-- `setup_output`. -/
def setupOutput (opens : Str → Bool → Bool) (info : InfoMap) (s : Table File × List Bool) :
    Outcome Str (Table File × List Bool) :=
  (setupStreams opens true info s).bind fun (t, closeflags) =>
    (setupRedirects info t).map fun t => (t, closeflags)

/-- The descriptors that are flagged are closed. -/
def closeFlagged (closeflags : List Bool) (t : Table File) : Table File :=
  List.zipWith (fun flag file => if flag then none else file) closeflags t

/-- The child's side of `posix_start`, up to `execve`. `setup` is what `posix_setup` throws, if it
does. -/
def posixStartChild (opens : Str → Bool → Bool) (setup : Option Str) (infoin infoout : InfoMap)
    (t : Table File) : Outcome Str (Table File) :=
  (setupInput opens infoin (t, List.replicate t.length true)).bind fun s =>
  (setupOutput opens infoout s).bind fun (t, closeflags) =>
    match setup with
    | none => .ok (closeFlagged closeflags t)
    | some what => .throw what

/-! ### The parent, behind `fork` -/

/-- The end of the loops of `posix_start`: the ends of the pipes that the child has are closed. -/
def closeChildEnds (out : Bool) : InfoMap → Table File → Outcome Exn (InfoMap × Table File)
  | [], t => .ok ([], t)
  | (d, .usePipe rend wend) :: info, t =>
    (FileHandle.close (if out then wend else rend) t).bind fun t =>
    (closeChildEnds out info t).map fun (info, t) =>
      ((d, if out then .usePipe rend none else .usePipe none wend) :: info, t)
  | i :: info, t => (closeChildEnds out info t).map fun (info, t) => (i :: info, t)

/-- `posix_info_locate_pipe`. -/
def posixInfoLocatePipe (info : InfoMap) (desc : Nat) (out : Bool) :
    Outcome Exn (FileHandle × InfoMap) :=
  match info.lookup desc with
  | none => .ok (none, info)
  | some si =>
    let info := info.filter (·.1 ≠ desc)
    match si with
    | .usePipe rend wend =>
      match if out then rend else wend with
      | none => .lost .assertion
      | some d => .ok (some d, info)
    | _ => .ok (none, info)

/-- `posix_child`. -/
structure PosixChild where
  id : Pid
  stdin : FileHandle
  stdout : FileHandle
  stderr : FileHandle
  inputMap : List (Nat × Nat)
  outputMap : List (Nat × Nat)
  deriving DecidableEq, Repr

/-- `posix_child::get_output`: the descriptor that its stream reads from. -/
def PosixChild.getOutput (self : PosixChild) (desc : Nat) : Outcome Exn Nat :=
  match if desc = 1 then self.stdout else if desc = 2 then self.stderr
    else self.outputMap.lookup desc with
  | none => .lost .assertion
  | some h => .ok h

/-- The loops of `posix_child::posix_child`: the ends that the parent keeps. -/
def keptEnds (out : Bool) : InfoMap → Outcome Exn (List (Nat × Nat))
  | [] => .ok []
  | (d, .usePipe rend wend) :: info =>
    match if out then rend else wend with
    | none => .lost .assertion
    | some h => (keptEnds out info).map fun kept => (d, h) :: kept
  | _ :: info => keptEnds out info

/-- `posix_child::posix_child`. -/
def posixChild (id : Pid) (infoin infoout : InfoMap) : Outcome Exn PosixChild :=
  (posixInfoLocatePipe infoin 0 false).bind fun (stdin, infoin) =>
  (posixInfoLocatePipe infoout 1 true).bind fun (stdout, infoout) =>
  (posixInfoLocatePipe infoout 2 true).bind fun (stderr, infoout) =>
  (keptEnds false infoin).bind fun inputMap =>
  (keptEnds true infoout).map fun outputMap => ⟨id, stdin, stdout, stderr, inputMap, outputMap⟩

/-- `posix_launch`, up to `fork`. -/
def posixInfos (inputBehavior outputBehavior : BehaviorMap) (fds : Fds) :
    Outcome Exn (InfoMap × InfoMap) × Fds :=
  match infoMap false inputBehavior.toList [] fds with
  | (.ok infoin, fds) =>
    match infoMap true outputBehavior.toList [] fds with
    | (.ok infoout, fds) => (.ok (infoin, infoout), fds)
    | (.throw e, fds) => (.throw e, { fds with table := infoin.destroy fds.table })
    | (.lost why, fds) => (.lost why, fds)
  | (.throw e, fds) => (.throw e, fds)
  | (.lost why, fds) => (.lost why, fds)

/-- `posix_launch`. `forks` is the pid that `fork` comes back with, if it does not fail. -/
def posixLaunch (inputBehavior outputBehavior : BehaviorMap) (forks : Option Pid) (fds : Fds) :
    Outcome Exn PosixChild × Fds :=
  match posixInfos inputBehavior outputBehavior fds with
  | (.ok (infoin, infoout), fds) =>
    match forks with
    | none =>
      (.throw (.systemError "boost::process::detail::posix_start: fork(2) failed".toList),
        { fds with table := infoin.destroy (infoout.destroy fds.table) })
    | some pid =>
      match closeChildEnds false infoin fds.table with
      | .ok (infoin, t) =>
        match closeChildEnds true infoout t with
        | .ok (infoout, t) => (posixChild pid infoin infoout, { fds with table := t })
        | .throw e => (.throw e, fds)
        | .lost why => (.lost why, fds)
      | .throw e => (.throw e, fds)
      | .lost why => (.lost why, fds)
  | (.throw e, fds) => (.throw e, fds)
  | (.lost why, fds) => (.lost why, fds)

/-- `ctx.output_behavior` in `process::run`. -/
def runOutputBehavior : BehaviorMap :=
  ((((∅ : BehaviorMap).insert 1 .inherit).insert 2 .inherit).insert 3 .capture)

end Posix

end Wye
