import Wye.Manager.Spec

/-!
# Connections

`connection::operator()` as a coroutine. Between two operations of the socket it stands at a `Point`:
it waits for an operation, or it is done. `resume` is what it does from the completion of an
operation to the next suspension, with the catch clauses it is nested in.

Every read and every write stands inside the outer `try`, and so do the catch clauses that write the
replies 400 and 500, and the serialisation of the answer. The outer clauses take the end of the
stream as a return and throw everything else again, into the loop of `ios.run`. So an exception
escapes exactly when an operation fails with another code or the answer cannot be written
(`escapes_iff`).
-/

namespace Wye

open Text Calls PropertyTree

/-- `boost::http::read_state`. -/
inductive ReadState where
  | empty
  | messageReady
  | bodyReady
  | finished
  deriving DecidableEq, Repr

/-- `boost::system::error_code`. -/
structure ErrorCode where
  category : Str
  value : Int
  deriving DecidableEq, Repr

/-- `asio::error::eof`. -/
def ErrorCode.eof : ErrorCode := ⟨"asio.misc".toList, 2⟩

/-- `http_errc::parsing_error`. -/
def ErrorCode.parsingError : ErrorCode := ⟨"http".toList, 3⟩

/-- What the socket shows once an operation has succeeded: its `read_state`, whether the message in
it asks for a 100, and the body of the message so far. -/
structure Received where
  readState : ReadState
  continueRequired : Bool := false
  body : Str := []
  deriving DecidableEq, Repr

/-- The operations on the socket. -/
inductive SocketOp where
  | readRequest
  | writeResponseContinue
  | readSome
  | readTrailers
  | writeResponse (status : Nat) (reason body : Str)
  deriving DecidableEq, Repr

/-- How an operation on the socket completes. -/
abbrev Completion := Except ErrorCode Received

/-- An exception on its way out of `operator()`. -/
inductive Raised where
  | systemError (code : ErrorCode)
  | exception (what : Str)
  deriving DecidableEq, Repr

/-- Where `operator()` stands. -/
inductive Point where
  | await (op : SocketOp)
  | returned
  | escaped (e : Raised)
  | lost (why : Loss)
  deriving DecidableEq, Repr

/-- What a connection calls: the JSON functions, which throw with a text, and `manager::handle`. -/
structure Layers where
  readJson : Str → Except Str Ptree
  handle : Ptree → Outcome Exn Ptree
  writeJson : Ptree → Except Str Str

namespace Connection

/-- The outer catch clauses. What is thrown again through `std::exception&` is a copy of that base
class, with a text of its own. -/
def caught : Raised → Point
  | .systemError code => if code ≠ .eof then .escaped (.systemError code) else .returned
  | .exception _ => .escaped (.exception "std::exception".toList)

/-- From the body of a request to the write of the reply. -/
def respond (l : Layers) (body : Str) : Point :=
  match l.readJson body with
  | .error _ => .await (.writeResponse 400 "Bad Request".toList
      "Your client sent a message this server could not interpret.".toList)
  | .ok pt =>
    match l.handle pt with
    | .throw (.invalidRequest errormsg) =>
      .await (.writeResponse 400 "Bad Request".toList errormsg)
    | .throw e => .await (.writeResponse 500 "Internal Server Error".toList e.what)
    | .lost why => .lost why
    | .ok pt =>
      match l.writeJson pt with
      | .error what => caught (.exception what)
      | .ok repbody => .await (.writeResponse 200 "OK".toList repbody)

/-- The loop that reads the rest of a request. With a `read_state` that its switch does not know it
spins. -/
def readRest (l : Layers) (r : Received) : Point :=
  match r.readState with
  | .messageReady => .await .readSome
  | .bodyReady => .await .readTrailers
  | .finished => .lost .endless
  | .empty => respond l r.body

/-- From the completion of an operation to the next suspension. -/
def resume (l : Layers) : SocketOp → Completion → Point
  | _, .error code => caught (.systemError code)
  | .readRequest, .ok r =>
    if r.continueRequired then .await .writeResponseContinue else readRest l r
  | .writeResponseContinue, .ok r | .readSome, .ok r | .readTrailers, .ok r => readRest l r
  | .writeResponse .., .ok _ => .returned

/-- `operator()` up to its first suspension. A socket that is closed already is not read. -/
def start (isOpen : Bool) : Point := if isOpen then .await .readRequest else .returned

/-- Where `operator()` stands after some completions. It takes no more of them than it waits for. -/
def drive (l : Layers) : Point → List Completion → Point
  | .await op, r :: rs => drive l (resume l op r) rs
  | p, _ => p

/-- The operations that complete on the way. -/
def trace (l : Layers) : Point → List Completion → List (SocketOp × Completion)
  | .await op, r :: rs => (op, r) :: trace l (resume l op r) rs
  | _, _ => []

/-- Whether the loop that reads the rest of a request is next. -/
def ReadsOn : SocketOp → Received → Prop
  | .readRequest, r => r.continueRequired = false
  | .writeResponse .., _ => False
  | .writeResponseContinue, _ | .readSome, _ | .readTrailers, _ => True

/-- The completion is the last of a request that is JSON, which is passed to `manager::handle`. -/
def Asks (l : Layers) (op : SocketOp) (r : Received) (pt : Ptree) : Prop :=
  ReadsOn op r ∧ r.readState = .empty ∧ l.readJson r.body = .ok pt

/-- An operation fails, not with the end of the stream, or an answer cannot be written. -/
def Breaks (l : Layers) : SocketOp × Completion → Prop
  | (_, .error code) => code ≠ .eof
  | (op, .ok r) => ∃ pt answer what,
      Asks l op r pt ∧ l.handle pt = .ok answer ∧ l.writeJson answer = .error what

/-- `manager::handle` does not come back, or the socket shows a `read_state` that the loop does not
know. -/
def Loses (l : Layers) (why : Loss) : SocketOp × Completion → Prop
  | (_, .error _) => False
  | (op, .ok r) => (∃ pt, Asks l op r pt ∧ l.handle pt = .lost why) ∨
      (ReadsOn op r ∧ r.readState = .finished ∧ why = .endless)

/-! ### One completion -/

theorem resume_readsOn (l : Layers) {op : SocketOp} {r : Received} (h : ReadsOn op r) :
    resume l op (.ok r) = readRest l r := by
  cases op with
  | readRequest => simp [resume, show r.continueRequired = false from h]
  | writeResponse => exact h.elim
  | writeResponseContinue => rfl
  | readSome => rfl
  | readTrailers => rfl

theorem resume_not_readsOn (l : Layers) {op : SocketOp} {r : Received} (h : ¬ ReadsOn op r) :
    resume l op (.ok r) = .await .writeResponseContinue ∨ resume l op (.ok r) = .returned := by
  cases op with
  | readRequest => exact .inl (if_pos (by simpa [ReadsOn] using h))
  | writeResponse => exact .inr rfl
  | writeResponseContinue => exact absurd trivial h
  | readSome => exact absurd trivial h
  | readTrailers => exact absurd trivial h

theorem respond_escapes (l : Layers) (body : Str) : (∃ e, respond l body = .escaped e) ↔
    ∃ pt answer what, l.readJson body = .ok pt ∧ l.handle pt = .ok answer ∧
      l.writeJson answer = .error what := by
  unfold respond
  cases l.readJson body with
  | error what => simp
  | ok pt =>
    cases hhandle : l.handle pt with
    | throw e => cases e <;> simp [hhandle]
    | lost why => simp [hhandle]
    | ok answer => cases hwrite : l.writeJson answer <;> simp [hhandle, hwrite, caught]

theorem respond_lost (l : Layers) (body : Str) (why : Loss) : respond l body = .lost why ↔
    ∃ pt, l.readJson body = .ok pt ∧ l.handle pt = .lost why := by
  unfold respond
  cases l.readJson body with
  | error what => simp
  | ok pt =>
    cases hhandle : l.handle pt with
    | throw e => cases e <;> simp [hhandle]
    | lost why => simp [hhandle]
    | ok answer => cases hwrite : l.writeJson answer <;> simp [hhandle, hwrite, caught]

/-- An exception escapes from a completion that breaks the connection, and from no other. -/
theorem resume_escapes (l : Layers) (op : SocketOp) (c : Completion) :
    (∃ e, resume l op c = .escaped e) ↔ Breaks l (op, c) := by
  cases c with
  | error code => by_cases h : code = .eof <;> simp [resume, Breaks, caught, h]
  | ok r =>
    by_cases hreads : ReadsOn op r
    · rw [resume_readsOn l hreads, readRest]
      cases hstate : r.readState with
      | empty => simpa [Breaks, Asks, hreads, hstate] using respond_escapes l r.body
      | messageReady => simp [Breaks, Asks, hstate]
      | bodyReady => simp [Breaks, Asks, hstate]
      | finished => simp [Breaks, Asks, hstate]
    · rcases resume_not_readsOn l hreads with h | h <;> simp [h, Breaks, Asks, hreads]

theorem resume_lost (l : Layers) (op : SocketOp) (c : Completion) (why : Loss) :
    resume l op c = .lost why ↔ Loses l why (op, c) := by
  cases c with
  | error code => by_cases h : code = .eof <;> simp [resume, Loses, caught, h]
  | ok r =>
    by_cases hreads : ReadsOn op r
    · rw [resume_readsOn l hreads, readRest]
      cases hstate : r.readState with
      | empty => simpa [Loses, Asks, hreads, hstate] using respond_lost l r.body why
      | messageReady => simp [Loses, Asks, hstate]
      | bodyReady => simp [Loses, Asks, hstate]
      | finished => simp [Loses, Asks, hreads, hstate, eq_comm]
    · rcases resume_not_readsOn l hreads with h | h <;> simp [h, Loses, Asks, hreads]

/-! ### All completions -/

theorem drive_done (l : Layers) {p : Point} (h : ∀ op, p ≠ .await op) (rs : List Completion) :
    drive l p rs = p ∧ trace l p rs = [] := by
  cases p with
  | await op => exact absurd rfl (h op)
  | returned => cases rs <;> exact ⟨rfl, rfl⟩
  | escaped e => cases rs <;> exact ⟨rfl, rfl⟩
  | lost why => cases rs <;> exact ⟨rfl, rfl⟩

/-- `operator()` comes to an end of a kind through the one completion that ends it so. -/
theorem drive_iff (l : Layers) {P : Point → Prop} (hwait : ∀ op, ¬ P (.await op)) {p : Point}
    (hp : ¬ P p) (rs : List Completion) :
    P (drive l p rs) ↔ ∃ x ∈ trace l p rs, P (resume l x.1 x.2) := by
  induction rs generalizing p with
  | nil => cases p <;> simp [drive, trace, hp]
  | cons r rs ih =>
    by_cases hawait : ∃ op, p = .await op
    · obtain ⟨op, rfl⟩ := hawait
      rw [drive, trace, List.exists_mem_cons_iff]
      by_cases hnow : P (resume l op r)
      · have hdone := drive_done l (fun op' heq => hwait op' (heq ▸ hnow)) rs
        rw [hdone.1]
        exact iff_of_true hnow (.inl hnow)
      · rw [ih hnow]
        exact (or_iff_right hnow).symm
    · have hdone := drive_done l (fun op heq => hawait ⟨op, heq⟩) (r :: rs)
      rw [hdone.1, hdone.2]
      simp [hp]

theorem start_not_ended (isOpen : Bool) :
    (¬ ∃ e, start isOpen = .escaped e) ∧ ∀ why, start isOpen ≠ .lost why := by
  cases isOpen <;> simp [start]

/-- However the operations of the socket complete: an exception escapes exactly from an operation
that fails, not with the end of the stream, or from an answer that cannot be written. Otherwise
`operator()` returns, or waits for an operation, unless `manager::handle` is lost or the socket shows
a `read_state` that the loop does not know. -/
theorem escapes_iff (l : Layers) (isOpen : Bool) (rs : List Completion) :
    ((∃ e, drive l (start isOpen) rs = .escaped e) ↔
        ∃ x ∈ trace l (start isOpen) rs, Breaks l x) ∧
      ∀ why, drive l (start isOpen) rs = .lost why ↔
        ∃ x ∈ trace l (start isOpen) rs, Loses l why x := by
  obtain ⟨hescaped, hlost⟩ := start_not_ended isOpen
  refine ⟨?_, fun why => ?_⟩
  · rw [drive_iff l (P := fun p => ∃ e, p = .escaped e) (by simp) hescaped rs]
    simp only [resume_escapes]
  · rw [drive_iff l (P := fun p => p = .lost why) (by simp) (hlost why) rs]
    simp only [resume_lost]

/-- The manager behind a connection. -/
def layersOf (readJson : Str → Except Str Ptree) (writeJson : Ptree → Except Str Str) (m : Manager)
    (env : Env) : Layers :=
  ⟨readJson, fun pt => (m.handle pt env).1, writeJson⟩

/-- A client sends what is not HTTP, and the exception escapes into `ios.run`. -/
theorem not_isolated : ¬ ∀ (l : Layers) (isOpen : Bool) (rs : List Completion) (e : Raised),
    drive l (start isOpen) rs ≠ .escaped e := by
  intro h
  refine h (layersOf (fun _ => .error []) (fun _ => .error []) {} { uuid := firstUuid }) true
    [.error .parsingError] (.systemError .parsingError) ?_
  decide

end Connection

end Wye
