import Wye.Http.Reply

/-!
# A connection on its socket

`connection::operator()` over the socket: each operation that it waits for is performed on the socket,
and goes on with what the socket shows then (`serve`). What comes of it does not depend on the pieces
in which the bytes of the client arrive, but on what `lexOne` makes of all of them, and on whether the
buffer has room for it (`serve_outcome`).
-/

namespace Wye

open Text Incremental Transition

/-- Whether an operation reads. -/
def SocketOp.reads : SocketOp → Bool
  | .readRequest | .readSome | .readTrailers => true
  | _ => false

namespace Http

namespace Socket

/-- An operation of the connection. -/
def perform (s : Socket) : SocketOp → Option Ended
  | .readRequest => s.asyncReadRequest
  | .writeResponseContinue => some s.asyncWriteResponseContinue
  | .readSome => s.asyncReadSome
  | .readTrailers => s.asyncReadTrailers
  | .writeResponse status reason body => some (s.asyncWriteResponse status reason { body })

/-- What the connection sees of the socket. -/
def shown (s : Socket) : Received where
  readState := s.istate
  continueRequired := s.request.message.requestContinueRequired
  body := s.request.message.body

end Socket

/-- `operator()` on the socket, from a point on. It ends where it waits, or is done. -/
def serve (l : Layers) : Nat → Point → Socket → Option (Point × Socket)
  | n + 1, .await op, s =>
    match s.perform op with
    | none => none
    | some (none, s) => some (.await op, s)
    | some (some result, s) =>
      serve l n (Connection.resume l op (result.map fun _ => s.shown)) s
  | 0, .await _, _ => none
  | _, p, s => some (p, s)

/-! ### Along a request -/

section
variable {c d : Control} {a q : Str} {ks : List Token} {x : Told} {k : Token}

theorem run_ended (h : Run (Step lexOne) ((c, false), a) ks ((d, true), q)) :
    d.state.phase = .empty := by
  generalize hd : ((d, true), q) = u at h
  cases h with
  | nil => cases hd
  | @snoc v w ks k _ hstep =>
    subst hd
    obtain ⟨⟨e, b⟩, r⟩ := v
    obtain ⟨n, y, hmove, heq⟩ := hstep
    obtain ⟨rfl, -⟩ := Prod.mk.inj heq
    obtain ⟨-, hmove, hstop⟩ := upTo_take_iff.mp hmove
    have hend : k.code = .endOfMessage := by simpa [Token.isEnd] using hstop.symm
    have hphase := (lex_moves hmove).leads.phase
    rw [hend] at hphase
    cases hp : e.state.phase <;> rw [hp] at hphase <;> simp_all [Code.phase]

/-- Behind its headers, what a request shows tells whether it has come to its end. -/
theorem run_phase_iff {d : Control × Bool} (h : Run (Step lexOne) ((c, false), a) ks (d, q))
    (hc : c.state.phase ≠ .empty ∨ ∃ k ∈ ks, k.code = .endOfHeaders) :
    d.1.state.phase = .empty ↔ d.2 = true := by
  obtain ⟨d, ended⟩ := d
  cases ended with
  | false => exact iff_of_false (run_phase h hc) Bool.false_ne_true
  | true => exact iff_of_true (run_ended h) rfl

theorem Progress.writerHelper_onField (p : Progress) (name value : Str) :
    (p.onField name value).writerHelper = p.writerHelper := by
  unfold onField
  split
  · dsimp only
    split <;> rfl
  · rfl

theorem writerHelper_tell (x : Told) (k : Token) : (tell x k).1.writerHelper =
    if k.code = .endOfHeaders then .empty else x.1.writerHelper := by
  cases hcode : k.code <;> simp [tell, hcode, Progress.onToken, Progress.onEndOfHeaders,
    Progress.writerHelper_onField]

theorem writerHelper_tellAll (x : Told) (ks : List Token) : (tellAll x ks).1.writerHelper =
    if ∃ k ∈ ks, k.code = .endOfHeaders then .empty else x.1.writerHelper := by
  induction ks generalizing x with
  | nil => simp
  | cons k ks ih =>
    rw [tellAll_cons, ih, writerHelper_tell]
    by_cases hk : k.code = .endOfHeaders <;> by_cases hks : ∃ k ∈ ks, k.code = .endOfHeaders <;>
      simp [hk, hks]

theorem tell_writerHelper (p : Progress) (name : Option Str) (w : WriteState) (k : Token) :
    ∃ w', tell ({ p with writerHelper := w }, name) k =
      ({ (tell (p, name) k).1 with writerHelper := w' }, (tell (p, name) k).2) := by
  cases hcode : k.code
  case fieldValue =>
    refine ⟨w, ?_⟩
    simp only [tell, hcode, Progress.onToken, Progress.onField]
    split
    · split <;> rfl
    · rfl
  case fieldName => exact ⟨w, by simp only [tell, hcode]⟩
  case endOfHeaders => exact ⟨.empty, by simp only [tell, hcode]; rfl⟩
  all_goals exact ⟨w, by simp only [tell, hcode]; rfl⟩

theorem tellAll_writerHelper (p : Progress) (name : Option Str) (w : WriteState) (ks : List Token) :
    ∃ w', tellAll ({ p with writerHelper := w }, name) ks =
      ({ (tellAll (p, name) ks).1 with writerHelper := w' }, (tellAll (p, name) ks).2) := by
  induction ks generalizing p name w with
  | nil => exact ⟨w, rfl⟩
  | cons k ks ih =>
    obtain ⟨w', hw'⟩ := tell_writerHelper p name w k
    rw [tellAll_cons, hw', tellAll_cons]
    exact ih _ _ w'

theorem headers_tell (h : Shows c x) (hk : Leads c k d) (hphase : c.state.phase ≠ .empty) :
    (tell x k).1.request.message.headers = x.1.request.message.headers := by
  have hlead := hk.phase
  have htrailers := h.trailers
  rw [← h.phase] at hlead hphase
  cases hp : x.1.istate <;> rw [hp] at hlead hphase htrailers <;>
    cases hcode : k.code <;> rw [hcode] at hlead <;>
    first
    | cases hlead
    | exact absurd rfl hphase
    | (simp only [tell, hcode, Progress.onToken]; done)
    | skip
  case bodyReady.fieldValue =>
    simp only [tell, hcode, Progress.onToken, Progress.onField, htrailers rfl, if_true]
    split <;> rfl

theorem headers_tellAll (h : Shows c x) {ended : Bool} (hphase : c.state.phase = .empty → ended = true)
    {y : Control × Bool} (hrun : Run (Step lexOne) ((c, ended), a) ks (y, q)) :
    (tellAll x ks).1.request.message.headers = x.1.request.message.headers := by
  cases ended with
  | true =>
    obtain ⟨rfl, -⟩ := run_of_ended (by simp [upTo_stopped]) hrun
    rfl
  | false =>
    have hne : c.state.phase ≠ .empty := fun hempty => Bool.false_ne_true (hphase hempty)
    generalize hd : (y, q) = u at hrun
    induction hrun generalizing y q with
    | nil => rfl
    | @snoc v w ks k hrun hstep ih =>
      subst hd
      obtain ⟨⟨e, b⟩, r⟩ := v
      obtain ⟨n, z, hmove, heq⟩ := hstep
      obtain ⟨rfl, hmove, -⟩ := upTo_take_iff.mp hmove
      have hshows := h.run (run_of_upTo hrun)
      rw [tellAll_append, tellAll_cons, tellAll_nil,
        headers_tell hshows (lex_moves hmove).leads (run_phase hrun (.inl hne)), ih rfl]

end

/-! ### How a connection ends -/

/-- What has been written where a request has not come to its end: nothing more than `before` where its
headers have not. -/
def sentAt (before : Str) (onward : Progress → Str) (p : Progress) : Str :=
  if p.istate = .empty then before else onward p

/-- How a connection ends: it answers a request, or its buffer is too small for the request, or what
it reads is none, or it waits for the rest, or the channel has come to an end in it. Before the request
it has written `before`, and up to its reply `onward`. -/
inductive Outcome (l : Layers) (N : Nat) (c : Control × Bool) (x : Told) (a : Str) (ends : Option ErrorCode)
    (before : Str) (onward : Progress → Str) : Point → Socket → Prop
  | answered {ks : List Token} {d : Control} {q : Str} {p : Progress} {s : Socket} :
    Run (Step lexOne) (c, a) ks ((d, true), q) → Roomy N c x a ks → (tellAll x ks).1 = p →
    s.channel.sent = onward p ++ replyText l p.manner p.request.message.body →
    s.request = p.request →
    Outcome l N c x a ends before onward (replied l p.request.message.body) s
  | full {ks : List Token} {d : Control} {r : Str} {s : Socket} :
    Run (Step lexOne) (c, a) ks ((d, false), r) → Roomy N c x a ks →
    Blocked N (d, false) (tellAll x ks).2 r →
    s.channel.sent = sentAt before onward (tellAll x ks).1 →
    Outcome l N c x a ends before onward (.escaped (.systemError .bufferExhausted)) s
  | invalid {ks : List Token} {d : Control} {q : Str} {e : Code} {s : Socket} :
    Run (Step lexOne) (c, a) ks ((d, false), q) → Roomy N c x a ks →
    ¬ Blocked N (d, false) (tellAll x ks).2 q → lexOne (d, false) q = .fail e →
    s.channel.sent = before ∨ s.channel.sent = sentAt before onward (tellAll x ks).1 →
    Outcome l N c x a ends before onward (.escaped (.systemError .parsingError)) s
  | waits {ks : List Token} {d : Control} {q : Str} {op : SocketOp} {s : Socket} :
    Run (Step lexOne) (c, a) ks ((d, false), q) → Roomy N c x a ks →
    ¬ Blocked N (d, false) (tellAll x ks).2 q → lexOne (d, false) q = .more → ends = none →
    op.reads = true → s.channel.sent = sentAt before onward (tellAll x ks).1 →
    Outcome l N c x a ends before onward (.await op) s
  | ended {ks : List Token} {d : Control} {q : Str} {e : ErrorCode} {s : Socket} :
    Run (Step lexOne) (c, a) ks ((d, false), q) → Roomy N c x a ks →
    ¬ Blocked N (d, false) (tellAll x ks).2 q → lexOne (d, false) q = .more → ends = some e →
    s.channel.sent = sentAt before onward (tellAll x ks).1 →
    Outcome l N c x a ends before onward (Connection.caught (.systemError e)) s

section
variable {l : Layers} {N : Nat} {c d : Control × Bool} {x : Told} {a q : Str} {ks : List Token}
  {ends : Option ErrorCode} {before : Str} {onward onward' : Progress → Str} {point : Point} {s : Socket}

theorem Outcome.behind (hrun : Run (Step lexOne) (c, a) ks (d, q))
    (hroomy : Roomy N c x a ks)
    (h : Outcome l N d (tellAll x ks) q ends before onward point s) :
    Outcome l N c x a ends before onward point s := by
  cases h with
  | answered hrun' hroomy' hp hsent hrequest =>
    rw [← tellAll_append] at hp
    exact .answered (hrun.append hrun') (hroomy.append hrun hroomy') hp hsent hrequest
  | full hrun' hroomy' hblocked hsent =>
    rw [← tellAll_append] at hblocked hsent
    exact .full (hrun.append hrun') (hroomy.append hrun hroomy') hblocked hsent
  | invalid hrun' hroomy' hblocked he hsent =>
    rw [← tellAll_append] at hblocked hsent
    exact .invalid (hrun.append hrun') (hroomy.append hrun hroomy') hblocked he hsent
  | waits hrun' hroomy' hblocked hmore hends hreads hsent =>
    rw [← tellAll_append] at hblocked hsent
    exact .waits (hrun.append hrun') (hroomy.append hrun hroomy') hblocked hmore hends hreads hsent
  | ended hrun' hroomy' hblocked hmore hends hsent =>
    rw [← tellAll_append] at hblocked hsent
    exact .ended (hrun.append hrun') (hroomy.append hrun hroomy') hblocked hmore hends hsent

theorem Outcome.of_writer {p : Progress} {name : Option Str} {w : WriteState}
    (h : Outcome l N c ({ p with writerHelper := w }, name) a ends before onward' point s)
    (honward : ∀ {ks y q}, Run (Step lexOne) (c, a) ks (y, q) →
      onward' (tellAll ({ p with writerHelper := w }, name) ks).1 = onward (tellAll (p, name) ks).1) :
    Outcome l N c (p, name) a ends before onward point s := by
  have htold (ks : List Token) : ∃ w', tellAll ({ p with writerHelper := w }, name) ks =
      ({ (tellAll (p, name) ks).1 with writerHelper := w' }, (tellAll (p, name) ks).2) :=
    tellAll_writerHelper p name w ks
  have hname (ks : List Token) :
      (tellAll ({ p with writerHelper := w }, name) ks).2 = (tellAll (p, name) ks).2 := by
    obtain ⟨w', hw'⟩ := htold ks
    rw [hw']
  have hsentAt {ks : List Token} {y : Control × Bool} {q : Str} (hrun : Run (Step lexOne) (c, a) ks (y, q)) :
      sentAt before onward' (tellAll ({ p with writerHelper := w }, name) ks).1 =
        sentAt before onward (tellAll (p, name) ks).1 := by
    rw [sentAt, sentAt, honward hrun]
    obtain ⟨w', hw'⟩ := htold ks
    rw [hw']
  have hroomy {ks : List Token} (h : Roomy N c ({ p with writerHelper := w }, name) a ks) :
      Roomy N c (p, name) a ks := by
    intro ks₁ k ks₂ e r hks hrun
    rw [← hname]
    exact h ks₁ k ks₂ e r hks hrun
  cases h with
  | @answered ks d q p' s hrun hroomy' hp hsent hrequest =>
    have hsame : p'.manner = (tellAll (p, name) ks).1.manner ∧
        p'.request = (tellAll (p, name) ks).1.request := by
      obtain ⟨w', hw'⟩ := htold ks
      rw [← hp, hw']
      exact ⟨rfl, rfl⟩
    rw [← hp, honward hrun, hp, hsame.1, hsame.2] at hsent
    rw [hsame.2] at hrequest ⊢
    exact .answered hrun (hroomy hroomy') rfl hsent hrequest
  | full hrun hroomy' hblocked hsent =>
    exact .full hrun (hroomy hroomy') (by rwa [← hname]) (by rwa [← hsentAt hrun])
  | invalid hrun hroomy' hblocked he hsent =>
    exact .invalid hrun (hroomy hroomy') (by rwa [← hname]) he (by rwa [← hsentAt hrun])
  | waits hrun hroomy' hblocked hmore hends hreads hsent =>
    exact .waits hrun (hroomy hroomy') (by rwa [← hname]) hmore hends hreads (by rwa [← hsentAt hrun])
  | ended hrun hroomy' hblocked hmore hends hsent =>
    exact .ended hrun (hroomy hroomy') (by rwa [← hname]) hmore hends (by rwa [← hsentAt hrun])

end

/-! ### The connection -/

theorem serve_done {l : Layers} {p : Point} (h : ∀ op, p ≠ .await op) (n : Nat) (s : Socket) :
    serve l n p s = some (p, s) := by
  cases p with
  | await op => exact absurd rfl (h op)
  | returned | escaped e | lost why => cases n <;> rfl

theorem Channel.Accepts.of_frame {s s' : Socket} (h : s.channel.Accepts) (hframe : s.Frame s') :
    s'.channel.Accepts := by
  rw [hframe.channel]
  exact ⟨h.isOpen, h.refuses⟩

theorem serve_respond {l : Layers} {s : Socket} (haccepts : s.channel.Accepts)
    (hw : s.writerHelper.writeMessage = some .finished) {n : Nat} (hn : 0 < n) :
    ∃ s', serve l n (Connection.respond l s.request.message.body) s =
        some (replied l s.request.message.body, s') ∧
      s'.channel.sent =
        s.channel.sent ++ replyText l s.toProgress.manner s.request.message.body ∧
      s'.request = s.request := by
  rw [replied, replyText]
  rcases respond_cases l s.request.message.body with
    ⟨status, reason, body, hrespond, hstatus, hreply⟩ | ⟨hdone, hreply⟩
  · obtain ⟨n, rfl⟩ := Nat.exists_eq_succ_of_ne_zero hn.ne'
    have hsame : { s.toProgress with writerHelper := .finished }.onConnectionClose
        ({ body } : Message) = { s.toProgress with writerHelper := .finished } := rfl
    rw [hrespond, hreply, serve, Socket.perform, Socket.asyncWriteResponse, hw]
    simp only [hsame, haccepts.asyncWrite, Socket.endOfResponse, Progress.response_eq _ hstatus]
    refine ⟨_, serve_done (p := .returned) (by simp) n _, ?_, rfl⟩
    split <;> rfl
  · rw [hreply]
    exact ⟨s, serve_done hdone n s, (List.append_nil _).symm, rfl⟩

section
variable {l : Layers} {s s' : Socket} {c : Control} {rest : Str} {name : Option Str}

theorem Socket.Done.accepts {target : Target} {result : Option (Except ErrorCode Unit)}
    (h : Socket.Done target s c rest name result s') (haccepts : s.channel.Accepts) :
    s'.channel.Accepts := haccepts.of_frame h.frame

/-- What an operation that fails or waits ends the connection with. It has written nothing. -/
theorem Socket.Done.outcome {target : Target} {result : Option (Except ErrorCode Unit)}
    (h : Socket.Done target s c rest name result s') (hready : target = .ready → c.state.phase = .empty)
    (haccepts : s.channel.Accepts) {before : Str} {onward : Progress → Str}
    (hsent : ∀ {ks d q}, Run (Step lexOne) ((c, false), s.ahead rest) ks ((d, false), q) →
      target.hit ks = false → s.channel.sent = sentAt before onward (tellAll (s.toProgress, name) ks).1)
    (hinvalid : ∀ {ks d q}, Run (Step lexOne) ((c, false), s.ahead rest) ks ((d, false), q) →
      s.channel.sent = before ∨
        s.channel.sent = sentAt before onward (tellAll (s.toProgress, name) ks).1) :
    result = some (.ok ()) ∨
      (∃ e, result = some (.error e) ∧
        Outcome l s.buffer.length (c, false) (s.toProgress, name) (s.ahead rest) s.channel.ends before
          onward (Connection.caught (.systemError e)) s') ∨
      (result = none ∧ ∀ op, op.reads = true →
        Outcome l s.buffer.length (c, false) (s.toProgress, name) (s.ahead rest) s.channel.ends before
          onward (.await op) s') := by
  have hsame : s'.channel.sent = s.channel.sent := by rw [h.frame.channel]
  cases h with
  | ok => exact .inl rfl
  | @full _ ks d q name' hwent hhit hblocked =>
    have hend := not_ended hwent.run hhit hready
    obtain ⟨d, b⟩ := d
    cases hend
    refine .inr (.inl ⟨_, rfl, .full hwent.run hwent.roomy ?_ (hsame.trans (hsent hwent.run hhit))⟩)
    rw [hwent.told]
    exact hblocked
  | @waits _ ks d q name' hwent hhit hblocked hmore hends =>
    have hend := not_ended hwent.run hhit hready
    obtain ⟨d, b⟩ := d
    cases hend
    refine .inr (.inr ⟨rfl, fun op hreads => .waits hwent.run hwent.roomy ?_ hmore hends hreads
      (hsame.trans (hsent hwent.run hhit))⟩)
    rw [hwent.told]
    exact hblocked
  | @ended _ ks d q e c' hrun hroomy hblocked hhit hmore hends =>
    have hend := not_ended hrun hhit hready
    obtain ⟨d, b⟩ := d
    cases hend
    exact .inr (.inl ⟨_, rfl, .ended hrun hroomy hblocked hmore hends (hsame.trans (hsent hrun hhit))⟩)
  | @invalid _ ks d q e c' hrun hroomy hblocked he =>
    obtain ⟨d, b⟩ := d
    cases b with
    | true => cases he
    | false =>
      rw [← hsame] at hinvalid
      exact .inr (.inl ⟨_, rfl, .invalid hrun hroomy hblocked he (hinvalid hrun)⟩)
  | closed hclosed => rw [haccepts.isOpen] at hclosed; cases hclosed

end

theorem caught_ne_await (e : Raised) (op : SocketOp) : Connection.caught e ≠ .await op := by
  cases e with
  | systemError code =>
    rw [Connection.caught]
    split <;> simp
  | exception what => simp [Connection.caught]

section
variable {l : Layers} {s s' : Socket} {op : SocketOp}

theorem serve_ok (h : s.perform op = some (some (.ok ()), s')) (n : Nat) :
    serve l (n + 1) (.await op) s = serve l n (Connection.resume l op (.ok s'.shown)) s' := by
  rw [serve, h]
  rfl

theorem serve_error {e : ErrorCode} (h : s.perform op = some (some (.error e), s')) (n : Nat) :
    serve l (n + 1) (.await op) s = some (Connection.caught (.systemError e), s') := by
  have hresume : Connection.resume l op (.error e) = Connection.caught (.systemError e) := by
    cases op <;> rfl
  rw [serve, h]
  exact (congrArg (serve l n · s') hresume).trans (serve_done (caught_ne_await _) n s')

theorem serve_waits (h : s.perform op = some (none, s')) (n : Nat) :
    serve l (n + 1) (.await op) s = some (.await op, s') := by rw [serve, h]

end

theorem State.phase_ne_finished (state : State) : state.phase ≠ .finished := by
  cases state <;> simp [State.phase]

theorem Target.hit_ready {ks : List Token} :
    Target.ready.hit ks = true ↔ ∃ k ∈ ks, k.code = .endOfHeaders := by
  have htarget (code : Code) : code.target = some .ready ↔ code = .endOfHeaders := by
    cases code <;> simp [Code.target]
  simp [hit, reached, htarget]

theorem Target.ne_nil_of_hit {target : Target} {ks : List Token} (h : target.hit ks = true) :
    0 < ks.length := by
  cases ks with
  | nil => cases target <;> cases h
  | cons => exact Nat.zero_lt_succ _

section
variable {l : Layers} {s s' : Socket} {c : Control} {rest q : Str} {name name' : Option Str}

theorem readRest_await (h : s.Keeps c rest name) (hphase : s.istate ≠ .empty) :
    ∃ op target, Connection.readRest l s.shown = .await op ∧ target ≠ .ready ∧ op.reads = true ∧
      s.perform op = s.scheduleOnAsyncReadMessage target ∧
      ∀ r, Connection.resume l op (.ok r) = Connection.readRest l r := by
  cases hstate : s.istate with
  | empty => exact absurd hstate hphase
  | messageReady =>
    refine ⟨.readSome, .data, ?_, by simp, rfl, ?_, fun _ => rfl⟩
    · rw [Connection.readRest, Socket.shown, hstate]
    · rw [Socket.perform, Socket.asyncReadSome, if_neg (by simp [hstate])]
  | bodyReady =>
    refine ⟨.readTrailers, .ends, ?_, by simp, rfl, ?_, fun _ => rfl⟩
    · rw [Connection.readRest, Socket.shown, hstate]
    · rw [Socket.perform, Socket.asyncReadTrailers, if_neg (by simp [hstate])]
  | finished => exact absurd (h.shows.phase.symm.trans hstate) (State.phase_ne_finished _)

theorem Socket.Keeps.update (h : s.Keeps c rest name) (request : Request) (writerHelper : WriteState)
    (channel : Channel) : { s with request, writerHelper, channel }.Keeps c rest name :=
  ⟨⟨h.parser, h.used, h.buffer, h.expecting, h.nameSize⟩,
    ⟨h.shows.ok, h.shows.expected, h.shows.phase, h.shows.named, h.shows.trailers⟩, h.looks, h.room⟩

theorem Socket.Went.writerHelper {ks : List Token} {d : Control × Bool}
    (h : s.Went s' ks c rest name d q name') : s'.writerHelper =
      if ∃ k ∈ ks, k.code = .endOfHeaders then .empty else s.writerHelper := by
  have hwriter := writerHelper_tellAll (s.toProgress, name) ks
  rwa [h.told] at hwriter

theorem Socket.Went.phase_iff {ks : List Token} {d : Control × Bool}
    (h : s.Went s' ks c rest name d q name')
    (hc : s.istate ≠ .empty ∨ ∃ k ∈ ks, k.code = .endOfHeaders) (hphase : s.istate = c.state.phase) :
    s'.istate = .empty ↔ d.2 = true := by
  rw [h.shows.phase]
  exact run_phase_iff h.run (hphase ▸ hc)

end

section
variable {c d : Control} {x : Told} {a q : Str} {ks : List Token} {before : Str} {onward : Progress → Str}

theorem sentAt_headers (hshows : Shows c x) (hc : c.state.phase ≠ .empty)
    (hrun : Run (Step lexOne) ((c, false), a) ks ((d, false), q)) :
    sentAt before onward (tellAll x ks).1 = onward (tellAll x ks).1 := by
  have hphase := (hshows.run (run_of_upTo hrun)).phase
  exact if_neg (hphase ▸ run_phase hrun (.inl hc))

theorem sentAt_start (hshows : Shows c x) (hc : c.state.phase = .empty)
    (hrun : Run (Step lexOne) ((c, false), a) ks ((d, false), q)) (hhit : Target.ready.hit ks = false) :
    sentAt before onward (tellAll x ks).1 = before := by
  have hphase := (hshows.run (run_of_upTo hrun)).phase
  refine if_pos (hphase.trans (run_headers (run_of_upTo hrun) hc fun k hk hcode => ?_).1)
  rw [Target.hit_ready.mpr ⟨k, hk, hcode⟩] at hhit
  cases hhit

end

/-- The rest of a request behind its headers, and the reply. -/
theorem readRest_outcome {l : Layers} (fuel : Nat) {s : Socket} {c : Control} {ended : Bool}
    {rest : Str} {name : Option Str} (h : s.Keeps c rest name)
    (hphase : s.istate = .empty ↔ ended = true) (haccepts : s.channel.Accepts)
    (hw : s.writerHelper.writeMessage = some .finished)
    (hfuel : lexBudget (c, s.ahead rest) < fuel) (before : Str) :
    ∃ point s', serve l fuel (Connection.readRest l s.shown) s = some (point, s') ∧
      Outcome l s.buffer.length (c, ended) (s.toProgress, name) (s.ahead rest) s.channel.ends
        before (fun _ => s.channel.sent) point s' := by
  induction fuel generalizing s c ended rest name with
  | zero => exact absurd hfuel (Nat.not_lt_zero _)
  | succ fuel ih =>
    cases ended with
    | true =>
      have hrespond : Connection.readRest l s.shown =
          Connection.respond l s.request.message.body := by
        rw [Connection.readRest, Socket.shown, hphase.mpr rfl]
      obtain ⟨s', hserve, hsent, hrequest⟩ := serve_respond (l := l) haccepts hw fuel.succ_pos
      exact ⟨_, s', hrespond ▸ hserve, .answered .nil roomy_nil rfl hsent hrequest⟩
    | false =>
      have hne : s.istate ≠ .empty := fun hempty => Bool.false_ne_true (hphase.mp hempty)
      obtain ⟨op, target, hop, htarget, hreads, hperform, hresume⟩ := readRest_await (l := l) h hne
      obtain ⟨result, s', hschedule, hdone⟩ :=
        Socket.schedule_done target h fun heq => absurd heq htarget
      rw [hop]
      have hop' := hperform.trans hschedule
      have hsentAt {ks : List Token} {d : Control} {q : Str}
          (hrun : Run (Step lexOne) ((c, false), s.ahead rest) ks ((d, false), q)) :
          s.channel.sent =
            sentAt before (fun _ => s.channel.sent) (tellAll (s.toProgress, name) ks).1 := by
        rw [sentAt_headers h.shows (h.shows.phase ▸ hne) hrun]
      rcases hdone.outcome (l := l) (fun heq => absurd heq htarget) haccepts (fun hrun _ => hsentAt hrun)
        (fun hrun => .inr (hsentAt hrun)) with rfl | ⟨e, rfl, hout⟩ | ⟨rfl, hout⟩
      · cases hdone with
        | @ok s' ks d q name' hwent hhit =>
          rw [serve_ok hop', hresume]
          have hsent : s'.channel.sent = s.channel.sent := by rw [hwent.frame.channel]
          have hends : s'.channel.ends = s.channel.ends := by rw [hwent.frame.channel]
          have hw' : s'.writerHelper.writeMessage = some .finished := by
            rw [hwent.writerHelper]
            split
            · rfl
            · exact hw
          have hbudget : lexBudget (d.1, s'.ahead q) + ks.length ≤ lexBudget (c, s.ahead rest) :=
            run_lexBudget (run_of_upTo hwent.run)
          have hlen := Target.ne_nil_of_hit hhit
          obtain ⟨point, s'', hserve, hout⟩ := ih (hwent.keeps h.room)
            (hwent.phase_iff (.inl hne) h.shows.phase) (haccepts.of_frame hwent.frame) hw' (by omega)
          refine ⟨point, s'', hserve, .behind hwent.run hwent.roomy ?_⟩
          rwa [hwent.told, ← hends, ← hwent.frame.length, ← hsent]
      · exact ⟨_, s', serve_error hop' fuel, hout⟩
      · exact ⟨_, s', serve_waits hop' fuel, hout op hreads⟩

/-- A request from its start, and the reply. -/
theorem serve_outcome {l : Layers} {fuel : Nat} {s : Socket} {c : Control} {rest : Str}
    {name : Option Str} (h : s.Keeps c rest name) (hempty : s.istate = .empty)
    (haccepts : s.channel.Accepts) (hfuel : lexBudget (c, s.ahead rest) + 1 < fuel) :
    ∃ point s', serve l fuel (.await .readRequest) s = some (point, s') ∧
      Outcome l s.buffer.length (c, false)
        ({ s.toProgress with request := {}, writerHelper := .finished }, name) (s.ahead rest)
        s.channel.ends s.channel.sent (fun p => s.channel.sent ++ interim p.manner.asks) point s' := by
  obtain ⟨fuel, rfl⟩ : ∃ n, fuel = n + 2 := ⟨fuel - 2, by omega⟩
  generalize hs₀ : { s with request := {}, writerHelper := .finished } = s₀
  have h₀ : s₀.Keeps c rest name := hs₀ ▸ h.update _ _ s.channel
  have hperform : s.perform .readRequest = s₀.scheduleOnAsyncReadMessage .ready := by
    rw [Socket.perform, Socket.asyncReadRequest, if_neg (not_not.mpr hempty), hs₀]
  have hready : Target.ready = .ready → c.state.phase = .empty := fun _ =>
    h.shows.phase.symm.trans hempty
  obtain ⟨result, s', hschedule, hdone⟩ := Socket.schedule_done .ready h₀ hready
  have haccepts₀ : s₀.channel.Accepts := hs₀ ▸ haccepts
  rw [show { s.toProgress with request := {}, writerHelper := .finished } = s₀.toProgress by
      rw [← hs₀],
    show s.ahead rest = s₀.ahead rest by rw [← hs₀]; rfl, show s.buffer = s₀.buffer by rw [← hs₀],
    show s.channel = s₀.channel by rw [← hs₀]]
  rcases hdone.outcome (l := l) hready haccepts₀
    (fun hrun hhit => (sentAt_start h₀.shows (hready rfl) hrun hhit).symm) (fun _ => .inl rfl) with
    rfl | ⟨e, rfl, hout⟩ | ⟨rfl, hout⟩
  · cases hdone with
    | @ok s' ks d q name' hwent hhit =>
      have hheaders : ∃ k ∈ ks, k.code = .endOfHeaders := Target.hit_ready.mp hhit
      have hw : s'.writerHelper = .empty := by rw [hwent.writerHelper, if_pos hheaders]
      have hphase := hwent.phase_iff (.inr hheaders) h₀.shows.phase
      have haccepts' := haccepts₀.of_frame hwent.frame
      have hkeeps := hwent.keeps h₀.room
      have hbudget : lexBudget (d.1, s'.ahead q) + ks.length ≤ lexBudget (c, s₀.ahead rest) :=
        run_lexBudget (run_of_upTo hwent.run)
      have hlexBudget : lexBudget (c, s₀.ahead rest) = lexBudget (c, s.ahead rest) := by
        rw [← hs₀]
        rfl
      -- what the headers ask for stays what it is
      have hasks {ks' : List Token} {y : Control × Bool} {q' : Str}
          (hrun : Run (Step lexOne) (d, s'.ahead q) ks' (y, q')) :
          (tellAll (s'.toProgress, name') ks').1.manner.asks =
            s'.request.message.requestContinueRequired := by
        have hsame := headers_tellAll hwent.shows
          (fun hd => hphase.mp (hwent.shows.phase.trans hd)) hrun
        rw [Progress.manner, requestContinueRequired_eq, requestContinueRequired_eq, hsame]
      suffices h : ∃ point s'',
          serve l (fuel + 1) (Connection.resume l .readRequest (.ok s'.shown)) s' =
            some (point, s'') ∧
          Outcome l s'.buffer.length d (s'.toProgress, name') (s'.ahead q) s'.channel.ends
            s'.channel.sent (fun p => s'.channel.sent ++ interim p.manner.asks) point s'' by
        obtain ⟨point, s'', hserve, hout⟩ := h
        refine ⟨point, s'', (serve_ok (hperform.trans hschedule) _).trans hserve,
          .behind hwent.run hwent.roomy ?_⟩
        have hchannel := hwent.frame.channel
        rw [hwent.frame.length, hchannel] at hout
        rw [hwent.told]
        exact hout
      cases hasked : s'.request.message.requestContinueRequired with
      | true =>
        generalize hs₁ : { s' with
          writerHelper := .continueIssued
          channel := s'.channel.put Socket.continueText } = s₁
        have hperform' : s'.perform .writeResponseContinue = some (some (.ok ()), s₁) := by
          rw [Socket.perform, Socket.asyncWriteResponseContinue, hw, ← hs₁]
          simp only [WriteState.writeContinue, Socket.written, haccepts'.asyncWrite]
        have hresume : Connection.resume l .readRequest (.ok s'.shown) =
            .await .writeResponseContinue := by simp [Connection.resume, Socket.shown, hasked]
        have hkeeps₁ : s₁.Keeps d.1 q name' := hs₁ ▸ hkeeps.update _ _ _
        have hphase₁ : s₁.istate = .empty ↔ d.2 = true := by rwa [← hs₁]
        have haccepts₁ : s₁.channel.Accepts := by
          rw [← hs₁]
          exact ⟨haccepts'.isOpen, haccepts'.refuses⟩
        have hahead : s₁.ahead q = s'.ahead q := by rw [← hs₁]; rfl
        have hlen := Target.ne_nil_of_hit hhit
        obtain ⟨point, s'', hserve, hout⟩ := readRest_outcome (l := l) fuel hkeeps₁ hphase₁ haccepts₁
          (by rw [← hs₁]; rfl) (by rw [hahead]; omega) s'.channel.sent
        rw [hahead] at hout
        subst hs₁
        refine ⟨point, s'', ?_, hout.of_writer fun hrun => ?_⟩
        · rw [hresume, serve_ok hperform']
          exact hserve
        · rw [hasks hrun, hasked]
          rfl
      | false =>
        obtain ⟨point, s'', hserve, hout⟩ := readRest_outcome (l := l) (fuel + 1) hkeeps hphase
          haccepts' (by rw [hw]; rfl) (by omega) s'.channel.sent
        have hresume : Connection.resume l .readRequest (.ok s'.shown) =
            Connection.readRest l s'.shown := by simp [Connection.resume, Socket.shown, hasked]
        refine ⟨point, s'', hresume ▸ hserve, hout.of_writer (w := s'.writerHelper) fun hrun => ?_⟩
        rw [hasks hrun, hasked]
        exact (List.append_nil _).symm
  · exact ⟨_, s', serve_error (hperform.trans hschedule) _, hout⟩
  · exact ⟨_, s', serve_waits (hperform.trans hschedule) _, hout _ rfl⟩

end Http

end Wye
