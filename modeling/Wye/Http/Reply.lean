import Wye.Http.Writer

/-!
# The reply to a request

What a connection writes for a request, in so many words (`answer`): a 100 where the request asks for
one, and the status line, the fields and the body of the reply. Besides the body of the request it is
a matter of its method, its version, and its fields `Expect` and `Connection`
(`RequestText.manner_onto`).
-/

namespace Wye

open Text PropertyTree

namespace Http

/-- A reply: what stands behind the version in its first line, and its body. -/
structure Reply where
  status : Str
  body : Str
  deriving DecidableEq, Repr

/-- What a request says about the reply besides what the answer to its body is. -/
structure Manner where
  modern : Bool
  closes : Bool
  connects : Bool
  asks : Bool
  deriving DecidableEq, Repr

/-- The text of a reply. -/
def Reply.text (w : Manner) (r : Reply) : Str :=
  (if w.modern then "HTTP/1.1 ".toList else "HTTP/1.0 ".toList) ++ r.status ++ "\r\n".toList ++
    (if w.closes then "connection: close\r\n".toList else []) ++
    if w.connects && r.status == "200 OK".toList then "\r\n".toList
    else "content-length: ".toList ++ Nat.toDigits 10 r.body.length ++ "\r\n\r\n".toList ++ r.body

/-- The reply to the body of a request, or where the connection stands without one. -/
def replyTo (l : Layers) (body : Str) : Except Point Reply :=
  match l.readJson body with
  | .error _ => .ok ⟨"400 Bad Request".toList,
      "Your client sent a message this server could not interpret.".toList⟩
  | .ok pt =>
    match l.handle pt with
    | .throw (.invalidRequest errormsg) => .ok ⟨"400 Bad Request".toList, errormsg⟩
    | .throw e => .ok ⟨"500 Internal Server Error".toList, e.what⟩
    | .lost why => .error (.lost why)
    | .ok pt =>
      match l.writeJson pt with
      | .error _ => .error (.escaped (.exception "std::exception".toList))
      | .ok text => .ok ⟨"200 OK".toList, text⟩

/-- Where a connection stands behind a request. -/
def replied (l : Layers) (body : Str) : Point :=
  match replyTo l body with
  | .ok _ => .returned
  | .error point => point

/-- What it writes for the reply. -/
def replyText (l : Layers) (w : Manner) (body : Str) : Str :=
  match replyTo l body with
  | .ok reply => reply.text w
  | .error _ => []

/-- What it writes on the way: a 100, where the request asks for it. -/
def interim (asks : Bool) : Str := if asks then "HTTP/1.1 100 Continue\r\n\r\n".toList else []

/-- What it writes for a request. -/
def answer (l : Layers) (w : Manner) (body : Str) : Str := interim w.asks ++ replyText l w body

/-- What the socket has been told about the reply. -/
def Progress.manner (p : Progress) : Manner where
  modern := p.modernHttp
  closes := p.keepAlive = .closeRead
  connects := p.connectRequest
  asks := p.request.message.requestContinueRequired

/-! ### What the socket writes for it -/

/-- The statuses of the replies. -/
def IsStatus (status : Nat) (reason : Str) : Prop :=
  status = 200 ∧ reason = "OK".toList ∨ status = 400 ∧ reason = "Bad Request".toList ∨
    status = 500 ∧ reason = "Internal Server Error".toList

/-- What stands behind the version in the first line. -/
def statusOf (status : Nat) (reason : Str) : Str := Nat.toDigits 10 status ++ ' ' :: reason

/-- The connection writes the reply, or stands where it says. -/
theorem respond_cases (l : Layers) (body : Str) :
    (∃ status reason text, Connection.respond l body = .await (.writeResponse status reason text) ∧
      IsStatus status reason ∧ replyTo l body = .ok ⟨statusOf status reason, text⟩) ∨
    (∀ op, Connection.respond l body ≠ .await op) ∧
      replyTo l body = .error (Connection.respond l body) := by
  unfold Connection.respond replyTo
  cases l.readJson body with
  | error what => exact .inl ⟨400, _, _, rfl, .inr (.inl ⟨rfl, rfl⟩), rfl⟩
  | ok pt =>
    cases hhandle : l.handle pt with
    | throw e =>
      cases e with
      | invalidRequest errormsg =>
        simp only [hhandle]
        exact .inl ⟨400, _, _, rfl, .inr (.inl ⟨rfl, rfl⟩), rfl⟩
      | _ =>
        simp only [hhandle]
        exact .inl ⟨500, _, _, rfl, .inr (.inr ⟨rfl, rfl⟩), rfl⟩
    | lost why =>
      simp [hhandle]
    | ok answer =>
      cases hwrite : l.writeJson answer with
      | error what =>
        simp only [hhandle, hwrite]
        exact .inr ⟨by simp [Connection.caught], rfl⟩
      | ok text =>
        simp only [hhandle, hwrite]
        exact .inl ⟨200, _, _, rfl, .inl ⟨rfl, rfl⟩, rfl⟩

theorem Progress.response_eq (p : Progress) {status : Nat} {reason : Str} (h : IsStatus status reason)
    (body : Str) : p.response status reason { body } =
      Reply.text p.manner ⟨statusOf status reason, body⟩ := by
  have hstatus : (statusOf status reason == "200 OK".toList) = (status / 100 == 2) ∧
      (status / 100 == 1) = false ∧ (status == 204) = false := by
    rcases h with ⟨rfl, rfl⟩ | ⟨rfl, rfl⟩ | ⟨rfl, rfl⟩ <;> decide +kernel
  obtain ⟨hok, hone, hempty⟩ := hstatus
  have hfields : hasConnectionClose (({ body } : Message).headers) = false := rfl
  rw [response, metadata, implicitContentLength, Reply.text, hok, hone, hempty, hfields]
  simp only [manner, fieldLines, statusOf, List.flatMap_nil, List.any_nil, Bool.false_or, crlf,
    and_true, List.append_nil, List.append_assoc, List.cons_append, decide_eq_true_eq]
  rfl

/-! ### What a request says about it -/

/-- The values of the fields of a name. -/
def valuesOf (name : Str) (fs : List FieldLine) : List Str :=
  (fs.filter fun f => f.name.map Char.toLower == name).map fun f => decodeFieldValue f.value

/-- The elements of the fields `Connection`. -/
def connectionElements (fs : List FieldLine) : List Str :=
  (valuesOf "connection".toList fs).flatMap elements

def isClose (v : Str) : Bool := iequals v "close".toList

def isKeepAlive (v : Str) : Bool := iequals v "keep-alive".toList

/-- Whether the values of `Expect` ask for a 100. -/
def asksContinue : List Str → Bool
  | [value] => iequals value "100-continue".toList
  | _ => false

/-- What a request says about the reply. A field behind a body in chunks may close the connection, and
nothing but a field of the headers keeps it alive in HTTP/1.0. -/
def RequestText.manner (r : RequestText) : Manner where
  modern := r.version ≠ '0'
  closes := (connectionElements (r.fields ++ r.body.trailers)).any isClose ||
    r.version == '0' && !(connectionElements r.fields).any isKeepAlive
  connects := r.method = "CONNECT".toList
  asks := r.version ≠ '0' && asksContinue (valuesOf "expect".toList r.fields)

/-- What the elements of `Connection` make of `keepAlive`. -/
def keepAliveOf (k : KeepAlive) (es : List Str) : KeepAlive :=
  if k = .closeRead ∨ es.any isClose = true then .closeRead
  else if es.any isKeepAlive = true then .keepAliveRead
  else k

theorem keepAliveOf_append (k : KeepAlive) (es es' : List Str) :
    keepAliveOf (keepAliveOf k es) es' = keepAliveOf k (es ++ es') := by
  unfold keepAliveOf
  simp only [List.any_append, Bool.or_eq_true]
  by_cases hk : k = .closeRead <;> by_cases hclose : es.any isClose = true <;>
    by_cases hkeep : es.any isKeepAlive = true <;> simp [hk, hclose, hkeep]

theorem onConnection_eq {k : KeepAlive} (hk : k ≠ .closeRead) (es : List Str) :
    (headerValueAnyOf Progress.onConnection k es).2 = keepAliveOf k es := by
  induction es generalizing k with
  | nil => simp [headerValueAnyOf, keepAliveOf, hk]
  | cons e es ih =>
    rw [headerValueAnyOf, Progress.onConnection]
    by_cases hclose : isClose e = true
    · rw [if_pos (show iequals e "close".toList = true from hclose)]
      simp [keepAliveOf, hclose]
    · rw [if_neg (show ¬ iequals e "close".toList = true from hclose)]
      by_cases hkeep : isKeepAlive e = true
      · rw [if_pos (show iequals e "keep-alive".toList = true from hkeep)]
        simp only [Bool.false_eq_true, if_false]
        rw [ih (by simp)]
        simp [keepAliveOf, hclose, hkeep, hk]
      · rw [if_neg (show ¬ iequals e "keep-alive".toList = true from hkeep)]
        simp only [Bool.false_eq_true, if_false]
        rw [ih hk]
        simp [keepAliveOf, hclose, hkeep, hk]

theorem Headers.emplace_perm (name value : Str) (hs : Headers) :
    (hs.emplace name value).Perm ((name, value) :: hs) := by
  have hsplit := hs.takeWhile_append_dropWhile (p := fun h => !decide (name < h.1))
  exact List.perm_middle.trans (by rw [hsplit])

theorem Headers.equalRange_emplace (n name value : Str) (hs : Headers) :
    ((hs.emplace name value).equalRange n).Perm
      (hs.equalRange n ++ if name = n then [value] else []) := by
  have hperm := ((hs.emplace_perm name value).filter fun h => h.1 == n).map Prod.snd
  by_cases hname : name = n
  · rw [if_pos hname]
    refine hperm.trans ?_
    rw [List.filter_cons_of_pos (by simp [hname]), List.map_cons]
    exact (List.perm_append_singleton value (hs.equalRange n)).symm
  · rw [if_neg hname, List.append_nil]
    rwa [List.filter_cons_of_neg (by simpa using hname)] at hperm

theorem valuesOf_append (name : Str) (fs fs' : List FieldLine) :
    valuesOf name (fs ++ fs') = valuesOf name fs ++ valuesOf name fs' := by
  rw [valuesOf, List.filter_append, List.map_append]
  rfl

theorem connectionElements_append (fs fs' : List FieldLine) :
    connectionElements (fs ++ fs') = connectionElements fs ++ connectionElements fs' := by
  rw [connectionElements, valuesOf_append, List.flatMap_append]
  rfl

theorem valuesOf_singleton (name : Str) (f : FieldLine) : valuesOf name [f] =
    if f.name.map Char.toLower = name then [decodeFieldValue f.value] else [] := by
  by_cases hname : f.name.map Char.toLower = name
  · rw [valuesOf, List.filter_cons_of_pos (by simpa using hname), if_pos hname]
    rfl
  · rw [valuesOf, List.filter_cons_of_neg (by simpa using hname), if_neg hname]
    rfl

@[simp] theorem keepAliveOf_nil (k : KeepAlive) : keepAliveOf k [] = k := by
  by_cases hk : k = .closeRead <;> simp [keepAliveOf, hk]

section
variable (f : FieldLine) (fs : List FieldLine) (p : Progress)

theorem FieldLine.onto_keepAlive :
    (f.onto p).keepAlive = keepAliveOf p.keepAlive (connectionElements [f]) := by
  rw [connectionElements, valuesOf_singleton, FieldLine.onto, Progress.onField]
  generalize f.name.map Char.toLower = name
  generalize decodeFieldValue f.value = value
  by_cases hname : name = "connection".toList
  · have hplace : (p.modernHttp || (decide ("connection".toList ≠ "expect".toList) &&
        decide ("connection".toList ≠ "upgrade".toList))) = true := by cases p.modernHttp <;> rfl
    subst hname
    rw [if_pos hplace, if_pos rfl, List.flatMap_singleton]
    have hkeep : (if decide ("connection".toList = "connection".toList) &&
          decide (p.keepAlive ≠ .closeRead) then
        (headerValueAnyOf Progress.onConnection p.keepAlive (elements value)).2 else p.keepAlive) =
        keepAliveOf p.keepAlive (elements value) := by
      by_cases hclose : p.keepAlive = .closeRead
      · rw [if_neg (by simp [hclose]), keepAliveOf, if_pos (.inl hclose), hclose]
      · rw [if_pos (by simp [hclose]), onConnection_eq hclose]
    dsimp only
    rw [← hkeep]
    split <;> rfl
  · rw [if_neg hname, List.flatMap_nil, keepAliveOf_nil]
    split
    · have hother : ¬ (decide (name = "connection".toList) &&
          decide (p.keepAlive ≠ .closeRead)) = true := by
        rw [decide_eq_false hname, Bool.false_and]
        exact Bool.false_ne_true
      dsimp only
      rw [if_neg hother]
      split <;> rfl
    · rfl

theorem FieldLine.onto_frame : (f.onto p).modernHttp = p.modernHttp ∧
    (f.onto p).connectRequest = p.connectRequest ∧ (f.onto p).useTrailers = p.useTrailers := by
  rw [FieldLine.onto, Progress.onField]
  split
  · dsimp only
    split <;> exact ⟨rfl, rfl, rfl⟩
  · exact ⟨rfl, rfl, rfl⟩

theorem FieldLine.foldl_frame : (fs.foldl (fun p f => f.onto p) p).modernHttp = p.modernHttp ∧
    (fs.foldl (fun p f => f.onto p) p).connectRequest = p.connectRequest ∧
    (fs.foldl (fun p f => f.onto p) p).useTrailers = p.useTrailers := by
  induction fs generalizing p with
  | nil => exact ⟨rfl, rfl, rfl⟩
  | cons f fs ih =>
    obtain ⟨hmodern, hconnect, huse⟩ := f.onto_frame p
    obtain ⟨hmodern', hconnect', huse'⟩ := ih (f.onto p)
    exact ⟨hmodern'.trans hmodern, hconnect'.trans hconnect, huse'.trans huse⟩

theorem FieldLine.foldl_keepAlive : (fs.foldl (fun p f => f.onto p) p).keepAlive =
    keepAliveOf p.keepAlive (connectionElements fs) := by
  induction fs generalizing p with
  | nil => exact (keepAliveOf_nil _).symm
  | cons f fs ih =>
    rw [List.foldl_cons, ih, f.onto_keepAlive, keepAliveOf_append, ← connectionElements_append]
    rfl

theorem FieldLine.onto_expect (huse : p.useTrailers = false) :
    ((f.onto p).request.message.headers.equalRange "expect".toList).Perm
      (p.request.message.headers.equalRange "expect".toList ++
        if p.modernHttp then valuesOf "expect".toList [f] else []) := by
  rw [valuesOf_singleton, FieldLine.onto, Progress.onField]
  generalize f.name.map Char.toLower = name
  generalize decodeFieldValue f.value = value
  by_cases hmodern : p.modernHttp = true
  · rw [if_pos (by rw [hmodern]; rfl), if_pos hmodern]
    dsimp only
    rw [if_neg (by simp [huse])]
    exact Headers.equalRange_emplace ..
  · rw [if_neg hmodern, List.append_nil]
    split
    · rename_i hplace
      have hname : name ≠ "expect".toList := by
        rintro rfl
        simp [hmodern] at hplace
      dsimp only
      rw [if_neg (by simp [huse])]
      refine (Headers.equalRange_emplace ..).trans ?_
      rw [if_neg hname, List.append_nil]
    · exact .rfl

theorem FieldLine.foldl_expect (huse : p.useTrailers = false) :
    ((fs.foldl (fun p f => f.onto p) p).request.message.headers.equalRange "expect".toList).Perm
      (p.request.message.headers.equalRange "expect".toList ++
        if p.modernHttp then valuesOf "expect".toList fs else []) := by
  induction fs generalizing p with
  | nil =>
    rw [show valuesOf "expect".toList [] = [] from rfl, ite_self, List.append_nil]
    exact .rfl
  | cons f fs ih =>
    obtain ⟨hmodern, -, huse'⟩ := f.onto_frame p
    refine (ih _ (huse'.trans huse)).trans (((f.onto_expect p huse).append_right _).trans ?_)
    rw [hmodern, List.append_assoc, show f :: fs = [f] ++ fs from rfl, valuesOf_append]
    split <;> exact .rfl

theorem FieldLine.foldl_headers (huse : p.useTrailers = true) :
    (fs.foldl (fun p f => f.onto p) p).request.message.headers = p.request.message.headers := by
  induction fs generalizing p with
  | nil => rfl
  | cons f fs ih =>
    rw [List.foldl_cons, ih _ ((f.onto_frame p).2.2.trans huse), FieldLine.onto, Progress.onField]
    split
    · rw [huse]
    · rfl

end

theorem asksContinue_of_lt {vs : List Str} (h : 1 < vs.length) : asksContinue vs = false := by
  unfold asksContinue
  split
  · exact absurd h (Nat.lt_irrefl 1)
  · rfl

theorem asksContinue_perm {vs vs' : List Str} (h : vs.Perm vs') : asksContinue vs = asksContinue vs' := by
  by_cases hlen : 1 < vs.length
  · rw [asksContinue_of_lt hlen, asksContinue_of_lt (h.length_eq ▸ hlen)]
  · cases vs with
    | nil => rw [h.nil_eq]
    | cons v t =>
      have ht : t = [] := by simpa using hlen
      subst ht
      rw [List.singleton_perm.mp h]

theorem requestContinueRequired_eq (m : Message) :
    m.requestContinueRequired = asksContinue (m.headers.equalRange "expect".toList) := by
  unfold Message.requestContinueRequired asksContinue
  rfl

theorem Progress.requestContinueRequired_onEndOfHeaders (p : Progress) :
    p.onEndOfHeaders.request.message.requestContinueRequired =
      p.request.message.requestContinueRequired := by
  rw [requestContinueRequired_eq, requestContinueRequired_eq, onEndOfHeaders]
  dsimp only
  split
  · rename_i hlen
    have hnone : (p.request.message.headers.erase "expect".toList).equalRange "expect".toList = [] := by
      simp [Headers.erase, Headers.equalRange, List.filter_filter]
    rw [hnone, asksContinue_of_lt hlen]
    rfl
  · rfl

namespace RequestText
variable {r : RequestText} {p : Progress}

theorem ontoLine_modern (hr : isDigit r.version = true) :
    (r.ontoLine p).modernHttp = decide (r.version ≠ '0') := by
  change decide (0 < r.version.toNat - 0x30) = _
  have hlow : 0x30 ≤ r.version.toNat := of_decide_eq_true (Bool.and_eq_true_iff.mp hr).1
  rw [decide_eq_decide]
  constructor
  · intro hlt heq
    rw [heq] at hlt
    exact absurd hlt (by decide)
  · intro hne
    refine Nat.sub_pos_of_lt (lt_of_le_of_ne hlow fun heq => hne ?_)
    exact Char.toNat_inj.mp heq.symm

theorem onto_keepAlive (hr : isDigit r.version = true) :
    decide ((r.onto p).keepAlive = .closeRead) = r.manner.closes := by
  have hheaders := FieldLine.foldl_keepAlive r.fields (r.ontoLine p)
  have hmodern := (FieldLine.foldl_frame r.fields (r.ontoLine p)).1.trans (ontoLine_modern hr)
  generalize hq : r.fields.foldl (fun p f => f.onto p) (r.ontoLine p) = q at hheaders hmodern
  have hend : (r.onto p).keepAlive =
      keepAliveOf q.onEndOfHeaders.keepAlive (connectionElements r.body.trailers) := by
    rw [onto, hq]
    exact FieldLine.foldl_keepAlive r.body.trailers _
  rw [hend, Progress.onEndOfHeaders, hheaders, hmodern, manner]
  dsimp only
  rw [connectionElements_append, List.any_append]
  simp only [keepAliveOf, show (r.ontoLine p).keepAlive = .unknown from rfl]
  generalize (connectionElements r.fields).any isClose = close
  generalize (connectionElements r.fields).any isKeepAlive = keep
  generalize (connectionElements r.body.trailers).any isClose = close'
  generalize (connectionElements r.body.trailers).any isKeepAlive = keep'
  by_cases hold : r.version = '0' <;> cases close <;> cases keep <;> cases close' <;> cases keep' <;>
    simp [hold]

/-- The reply to a request is a matter of what the request says, and of nothing before it. -/
theorem manner_onto (hr : isDigit r.version = true) (hp : p.request = {}) :
    (r.onto p).manner = r.manner := by
  have hline := FieldLine.foldl_frame r.fields (r.ontoLine p)
  have hexpect := FieldLine.foldl_expect r.fields (r.ontoLine p) rfl
  have hclose := onto_keepAlive (p := p) hr
  rw [ontoLine_modern hr] at hline hexpect
  have hconnect : (r.ontoLine p).connectRequest = decide (r.method = "CONNECT".toList) := rfl
  have hnone : (r.ontoLine p).request.message.headers.equalRange "expect".toList = [] := by
    rw [show (r.ontoLine p).request.message = p.request.message from rfl, hp]
    rfl
  rw [hconnect] at hline
  rw [hnone, List.nil_append] at hexpect
  generalize hq : r.fields.foldl (fun p f => f.onto p) (r.ontoLine p) = q at hline hexpect
  obtain ⟨hmodern', hconnect', huse⟩ := FieldLine.foldl_frame r.body.trailers
    { q.onEndOfHeaders.onBody r.body.content with istate := .bodyReady, useTrailers := true }
  have hheaders := FieldLine.foldl_headers r.body.trailers
    { q.onEndOfHeaders.onBody r.body.content with istate := .bodyReady, useTrailers := true } rfl
  have hmodern : (r.onto p).modernHttp = r.manner.modern := by
    rw [onto, hq]
    exact hmodern'.trans hline.1
  have hconnects : (r.onto p).connectRequest = r.manner.connects := by
    rw [onto, hq]
    exact hconnect'.trans hline.2.1
  have hasks : (r.onto p).request.message.requestContinueRequired = r.manner.asks := by
    have hsame : (r.onto p).request.message.headers = q.onEndOfHeaders.request.message.headers := by
      rw [onto, hq]
      exact hheaders
    rw [requestContinueRequired_eq, hsame, ← requestContinueRequired_eq,
      Progress.requestContinueRequired_onEndOfHeaders, requestContinueRequired_eq,
      asksContinue_perm hexpect, manner]
    dsimp only
    by_cases hold : r.version = '0' <;> simp [hold, asksContinue]
  rw [Progress.manner, hmodern, hclose, hconnects, hasks]

end RequestText

end Http

end Wye
