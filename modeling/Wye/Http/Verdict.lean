import Wye.Http.Session
import Wye.Http.Alike
import Wye.Http.Accepted

/-!
# What all bytes together say

However the bytes of a client are cut into pieces, its connection ends as they say all together
(`serve_verdict`): the verdict is a function of the bytes, of the size of the buffer, and of how the
channel ends. The requests of the grammar whose lines fit into the buffer are answered
(`serve_request`), and nothing else is (`serve_accepts`).
-/

namespace Wye

open Text Incremental Transition

namespace Http

/-! ### The verdict -/

/-- What comes of a connection: the request that is answered, or how it ends without one, and whether a
100 has been asked for then. -/
inductive Verdict where
  | answered (p : Progress)
  | full (asked : Bool)
  | invalid (asked : Bool)
  | waits (asked : Bool)
  | ended (asked : Bool) (e : ErrorCode)
  deriving DecidableEq, Repr

instance (N : Nat) (e : Control × Bool) (name : Option Str) (r : Str) : Decidable (Blocked N e name r) :=
  decidable_of_iff ((name.getD []).length ≤ N ∧ N - (name.getD []).length ≤ r.length ∧
      lexOne e (r.take (N - (name.getD []).length)) = .more) <| by
    constructor
    · rintro ⟨hname, hlen, hmore⟩
      refine ⟨_, r.drop (N - (name.getD []).length), (List.take_append_drop _ _).symm, ?_, hmore⟩
      rw [List.length_take]
      omega
    · rintro ⟨p, y, rfl, hlen, hmore⟩
      have hp : N - (name.getD []).length = p.length := by omega
      rw [hp, List.take_left, List.length_append]
      exact ⟨by omega, by omega, hmore⟩

/-- Behind the headers of a request that asks for a 100. -/
def Progress.asked (p : Progress) : Bool := p.istate ≠ .empty && p.manner.asks

/-- The reader goes through `a`, all bytes that there will be, as far as a buffer of `N` bytes lets it.
Behind them the channel waits, or `ends`. -/
def verdictFrom (N : Nat) (ends : Option ErrorCode) : Nat → Control × Bool → Told → Str → Verdict
  | 0, _, x, _ => .waits x.1.asked
  | n + 1, c, x, a =>
    if c.2 then .answered x.1
    else if Blocked N c x.2 a then .full x.1.asked
    else
      match lexOne c a with
      | .fail _ => .invalid x.1.asked
      | .more => ends.elim (.waits x.1.asked) (.ended x.1.asked)
      | .take k size d => verdictFrom N ends n d (tell x k) (a.drop size)

def verdictAt (N : Nat) (ends : Option ErrorCode) (c : Control) (x : Told) (a : Str) : Verdict :=
  verdictFrom N ends (lexBudget (c, a) + 1) (c, false) x a

/-- What is told from. -/
def untold : Progress := { writerHelper := .finished }

/-- What comes of the bytes `a`. -/
def verdict (N : Nat) (ends : Option ErrorCode) (a : Str) : Verdict :=
  verdictAt N ends ⟨.expectMethod, .http10, .noBody, 0⟩ (untold, none) a

/-- How the connection ends then, what it has written behind `before`, and what the objects of its user
hold if it has answered. Where the bytes are no request it hangs on their pieces whether the 100 has been
written. -/
def Verdict.Leaves (l : Layers) (before : Str) (point : Point) (s : Socket) : Verdict → Prop
  | .answered p => point = replied l p.request.message.body ∧
      s.channel.sent = before ++ answer l p.manner p.request.message.body ∧ s.request = p.request
  | .full asked => point = .escaped (.systemError .bufferExhausted) ∧
      s.channel.sent = before ++ interim asked
  | .invalid asked => point = .escaped (.systemError .parsingError) ∧
      (s.channel.sent = before ∨ s.channel.sent = before ++ interim asked)
  | .waits asked => (∃ op, op.reads = true ∧ point = .await op) ∧
      s.channel.sent = before ++ interim asked
  | .ended asked e => point = (if e = .eof then .returned else .escaped (.systemError e)) ∧
      s.channel.sent = before ++ interim asked

section
variable {l : Layers} {N : Nat} {c : Control} {d : Control × Bool} {x : Told} {a q : Str}
  {ks : List Token} {ends : Option ErrorCode} {before : Str} {point : Point} {s : Socket}

theorem verdictFrom_run {c : Control × Bool} (hrun : Run (Step lexOne) (c, a) ks (d, q))
    (hroomy : Roomy N c x a ks) (n : Nat) :
    verdictFrom N ends (ks.length + n) c x a = verdictFrom N ends n d (tellAll x ks) q := by
  induction ks generalizing c x a with
  | nil =>
    cases hrun.eq_of_nil
    rw [List.length_nil, Nat.zero_add, tellAll_nil]
  | cons k ks ih =>
    obtain ⟨u, ⟨size, t, hmove, rfl⟩, hrest⟩ := hrun.uncons
    have hroom : ¬ Blocked N c x.2 a := hroomy [] k ks c a rfl .nil
    have hgoes : c.2 = false := (upTo_take_iff (x := t) (b := c.2)).mp hmove |>.1
    rw [List.length_cons, Nat.add_right_comm, verdictFrom, if_neg (by simp [hgoes]), if_neg hroom]
    simp only at hmove
    simp only [hmove]
    rw [ih hrest, tellAll_cons]
    intro ks₁ k' ks₂ e r hks hrun₁
    have hstep : Step lexOne (c, a) k (t, a.drop size) := ⟨size, t, hmove, rfl⟩
    exact hroomy (k :: ks₁) k' ks₂ e r (by rw [hks]; rfl) (.cons hstep hrun₁)

theorem verdictAt_run (ends : Option ErrorCode) (hrun : Run (Step lexOne) ((c, false), a) ks (d, q))
    (hroomy : Roomy N (c, false) x a ks) :
    ∃ n, verdictAt N ends c x a = verdictFrom N ends (n + 1) d (tellAll x ks) q := by
  have hbudget := run_lexBudget (run_of_upTo hrun)
  refine ⟨lexBudget (c, a) - ks.length, ?_⟩
  rw [← verdictFrom_run hrun hroomy, verdictAt]
  congr 1
  dsimp only at hbudget
  omega

theorem sentAt_asked (before : Str) (p : Progress) :
    sentAt before (fun p => before ++ interim p.manner.asks) p = before ++ interim p.asked := by
  rw [sentAt, Progress.asked]
  by_cases hempty : p.istate = .empty
  · rw [if_pos hempty, decide_eq_false (not_not.mpr hempty), Bool.false_and]
    exact (List.append_nil before).symm
  · rw [if_neg hempty, decide_eq_true hempty, Bool.true_and]

theorem caught_eq (e : ErrorCode) : Connection.caught (.systemError e) =
    if e = .eof then .returned else .escaped (.systemError e) := by
  rw [Connection.caught]
  by_cases heof : e = .eof <;> simp [heof]

/-- What comes of a connection is what the bytes say. -/
theorem Outcome.verdict (h : Outcome l N (c, false) x a ends before
      (fun p => before ++ interim p.manner.asks) point s) :
    (verdictAt N ends c x a).Leaves l before point s := by
  cases h with
  | answered hrun hroomy hp hsent hrequest =>
    obtain ⟨n, hn⟩ := verdictAt_run ends hrun hroomy
    rw [hn, verdictFrom, if_pos rfl, hp]
    exact ⟨rfl, by rw [hsent, List.append_assoc, answer], hrequest⟩
  | full hrun hroomy hblocked hsent =>
    obtain ⟨n, hn⟩ := verdictAt_run ends hrun hroomy
    rw [sentAt_asked] at hsent
    rw [hn, verdictFrom, if_neg (by simp), if_pos hblocked]
    exact ⟨rfl, hsent⟩
  | invalid hrun hroomy hblocked he hsent =>
    obtain ⟨n, hn⟩ := verdictAt_run ends hrun hroomy
    rw [sentAt_asked] at hsent
    rw [hn, verdictFrom, if_neg (by simp), if_neg hblocked, he]
    exact ⟨rfl, hsent⟩
  | waits hrun hroomy hblocked hmore hends hreads hsent =>
    obtain ⟨n, hn⟩ := verdictAt_run ends hrun hroomy
    rw [sentAt_asked] at hsent
    rw [hn, verdictFrom, if_neg (by simp), if_neg hblocked, hmore, hends]
    exact ⟨⟨_, hreads, rfl⟩, hsent⟩
  | ended hrun hroomy hblocked hmore hends hsent =>
    obtain ⟨n, hn⟩ := verdictAt_run ends hrun hroomy
    rw [sentAt_asked] at hsent
    rw [hn, verdictFrom, if_neg (by simp), if_neg hblocked, hmore, hends]
    exact ⟨caught_eq _, hsent⟩

end

/-! ### Where it does not matter what is known before -/

/-- Two readers on their way that differ in nothing that is of matter. -/
structure Alike (c d : Control × Bool) (x y : Told) : Prop where
  control : c.1.Alike d.1
  ended : c.2 = d.2
  told : Told.Alike c.1.state x y
  done : c.2 = true → x = y

section
variable {c d : Control × Bool} {x y : Told}

theorem lexOne_alike (h : c.1.Alike d.1) (hended : c.2 = d.2) (a : Str) :
    Move.Alike (fun e f : Control × Bool => e.1.Alike f.1 ∧ e.2 = f.2) (lexOne c a) (lexOne d a) := by
  unfold lexOne upTo
  rw [hended]
  split
  · exact .more
  · have hmoves := lex_alike h a
    generalize lex c.1 a = m, lex d.1 a = m' at hmoves
    cases hmoves with
    | more => exact .more
    | take hto => exact .take ⟨hto, rfl⟩
    | fail => exact .fail

theorem blocked_alike (h : c.1.Alike d.1) (hended : c.2 = d.2) (N : Nat) (name : Option Str) (a : Str) :
    Blocked N c name a ↔ Blocked N d name a := by
  simp only [Blocked, (lexOne_alike h hended _).more_iff]

theorem Told.Alike.asked {state : State} (h : Told.Alike state x y) : x.1.asked = y.1.asked := by
  rw [h.same]
  rfl

theorem Told.Alike.of_end {e f : Control} {k : Token} {rest : Str} (h : Told.Alike e.state x y)
    (hmove : Moves e k f rest) (hk : k.isEnd = true) : x = y := by
  refine h.eq ?_
  have hcode : k.code = .endOfMessage := by simpa [Token.isEnd] using hk
  cases hmove with
  | endOfMessage | endOfTrailers => rfl
  | _ => cases hcode

/-- Two readers that differ in nothing that is of matter come to one verdict. -/
theorem verdictFrom_alike (h : Alike c d x y) (N : Nat) (ends : Option ErrorCode) (n : Nat) (a : Str) :
    verdictFrom N ends n c x a = verdictFrom N ends n d y a := by
  induction n generalizing c d x y a with
  | zero => rw [verdictFrom, verdictFrom, h.told.asked]
  | succ n ih =>
    have hblocked := blocked_alike h.control h.ended N x.2 a
    have hname : y.2 = x.2 := by rw [h.told.same]
    rw [verdictFrom, verdictFrom, h.told.asked, hname, ← h.ended]
    by_cases hended : c.2 = true
    · rw [if_pos hended, if_pos hended, h.done hended]
    rw [if_neg hended, if_neg hended]
    by_cases hfull : Blocked N c x.2 a
    · rw [if_pos hfull, if_pos (hblocked.mp hfull)]
    rw [if_neg hfull, if_neg (hblocked.not.mp hfull)]
    have hmoves := lexOne_alike h.control h.ended a
    generalize hmove : lexOne c a = m, lexOne d a = m' at hmoves
    cases hmoves with
    | more => rfl
    | fail => rfl
    | @take k size e f hto =>
      obtain ⟨-, hlex, hstop⟩ := (upTo_take_iff (b := c.2)).mp hmove
      have hstep := lex_moves hlex
      refine ih ⟨hto.1, hto.2, h.told.tell hstep, fun hend => ?_⟩ _
      rw [h.told.of_end hstep (hstop.symm.trans hend)]

theorem verdictAt_start (N : Nat) (ends : Option ErrorCode) (v : Version) (m : Nat) {p : Progress}
    (hp : p.istate = .empty ∧ p.writerHelper = .finished ∧ p.request = {}) (a : Str) :
    verdictAt N ends ⟨.expectMethod, v, .noBody, m⟩ (p, none) a = verdict N ends a := by
  have htold : Told.Alike .expectMethod (p, none) (untold, none) := by
    obtain ⟨istate, useTrailers, modernHttp, keepAlive, writerHelper, connectRequest, request⟩ := p
    obtain ⟨rfl, rfl, rfl⟩ := hp
    exact ⟨rfl, fun hne => absurd rfl hne, nofun⟩
  have hcontrol : Control.Alike ⟨.expectMethod, v, .noBody, m⟩ ⟨.expectMethod, .http10, .noBody, 0⟩ :=
    ⟨rfl, rfl, nofun, by simp [State.sized]⟩
  have halike : Alike (⟨.expectMethod, v, .noBody, m⟩, false)
      (⟨.expectMethod, .http10, .noBody, 0⟩, false) (p, none) (untold, none) :=
    ⟨hcontrol, rfl, htold, fun hended => absurd hended Bool.false_ne_true⟩
  exact verdictFrom_alike halike N ends _ a

end

/-- A socket behind its constructor, which leaves open what a request says first. -/
structure Socket.Fresh (s : Socket) : Prop where
  isOpen : s.isOpen = true
  istate : s.istate = .empty
  writerHelper : s.writerHelper = .empty
  usedSize : s.usedSize = 0
  expectingField : s.expectingField = false
  buffer : s.buffer ≠ []
  parser : s.parser = s.parser.reset

/-- What a socket knows when a request begins. -/
def Socket.begun (s : Socket) : Told :=
  ({ s.toProgress with request := {}, writerHelper := .finished }, none)

theorem Socket.Fresh.keeps {s : Socket} (h : s.Fresh) : s.Keeps s.parser.toControl [] none := by
  have hcleared := s.clearBuffer_cleared
  have hat := hcleared.holds.parser
  have hok := hcleared.shows.ok
  have hexpected := hcleared.shows.expected
  rw [Socket.clearBuffer] at hat
  rw [← h.parser] at hat hok hexpected
  have hstate : s.parser.state = .expectMethod := by
    rw [h.parser]
    rfl
  refine ⟨⟨hat, ?_, ?_, h.expectingField, nofun⟩, ⟨hok, hexpected, ?_, ?_, ?_⟩, ?_,
    List.length_pos_iff.mpr h.buffer⟩
  · rw [h.usedSize]
    exact Nat.zero_le _
  · rw [h.usedSize]
    rfl
  · rw [hstate]
    exact h.istate
  · rw [hstate]
    rfl
  · rw [h.istate]
    nofun
  · rw [hstate]
    rfl

theorem Socket.Fresh.control {s : Socket} (h : s.Fresh) :
    s.parser.toControl = ⟨.expectMethod, s.parser.version, .noBody, s.parser.bodySize⟩ := by
  rw [h.parser]
  rfl

theorem Socket.Fresh.serve_outcome {l : Layers} {s : Socket} (h : s.Fresh) (haccepts : s.channel.Accepts)
    {a : Str} {arrives : List Str} (harrives : arrives.flatten = a) {fuel : Nat}
    (hfuel : 3 * a.length + 4 < fuel) :
    ∃ point s', serve l fuel (Connection.start s.isOpenNow)
        { s with channel := { s.channel with arrives } } = some (point, s') ∧
      Outcome l s.buffer.length (⟨.expectMethod, s.parser.version, .noBody, s.parser.bodySize⟩, false)
        s.begun a s.channel.ends s.channel.sent (fun p => s.channel.sent ++ interim p.manner.asks)
        point s' := by
  have hstart : Connection.start s.isOpenNow = .await .readRequest := by
    rw [Socket.isOpenNow, haccepts.isOpen, h.isOpen]
    rfl
  generalize hs : { s with channel := { s.channel with arrives } } = s₁
  have hkeeps : s₁.Keeps s.parser.toControl [] none := by
    have hkeeps := h.keeps.update s.request s.writerHelper { s.channel with arrives }
    rwa [← hs]
  have hahead : s₁.ahead [] = a := by
    rw [← hs, ← harrives]
    rfl
  have hbudget := lexBudget_le s.parser.toControl a
  obtain ⟨point, s', hserve, hout⟩ := @Http.serve_outcome l fuel _ _ _ _ hkeeps
    (by rw [← hs]; exact h.istate) (by rw [← hs]; exact ⟨haccepts.isOpen, haccepts.refuses⟩)
    (by rw [hahead]; omega)
  refine ⟨point, s', hstart ▸ hserve, ?_⟩
  rw [hahead, h.control] at hout
  subst hs
  exact hout

theorem Socket.Fresh.leaves {l : Layers} {s s' : Socket} (h : s.Fresh) {a : Str} {point : Point}
    (hout : Outcome l s.buffer.length (⟨.expectMethod, s.parser.version, .noBody, s.parser.bodySize⟩, false)
      s.begun a s.channel.ends s.channel.sent (fun p => s.channel.sent ++ interim p.manner.asks) point s') :
    (verdict s.buffer.length s.channel.ends a).Leaves l s.channel.sent point s' := by
  rw [← verdictAt_start s.buffer.length s.channel.ends s.parser.version s.parser.bodySize
    (p := s.begun.1) ⟨h.istate, rfl, rfl⟩ a]
  exact hout.verdict

/-- Whatever pieces the bytes of a client arrive in, its connection ends as they say all together: it
answers the request with the reply to its body, or fails or waits where the reader does. It is never
lost on the way, never out of order, and never stopped before it is done. -/
theorem serve_verdict {l : Layers} {s : Socket} (hfresh : s.Fresh) (haccepts : s.channel.Accepts)
    {a : Str} {arrives : List Str} (harrives : arrives.flatten = a) {fuel : Nat}
    (hfuel : 3 * a.length + 4 < fuel) :
    ∃ point s', serve l fuel (Connection.start s.isOpenNow)
        { s with channel := { s.channel with arrives } } = some (point, s') ∧
      (verdict s.buffer.length s.channel.ends a).Leaves l s.channel.sent point s' := by
  obtain ⟨point, s', hserve, hout⟩ := hfresh.serve_outcome (l := l) haccepts harrives hfuel
  exact ⟨point, s', hserve, hfresh.leaves hout⟩

/-- A manager to which nothing is a request. -/
def noLayers : Layers := ⟨fun _ => .error [], fun _ => .throw (.invalidRequest []), fun _ => .error []⟩

theorem smallSocket_fresh : smallSocket.Fresh :=
  ⟨rfl, rfl, rfl, rfl, rfl, by simp [smallSocket], rfl⟩

/-- A request, and the three pieces in which it arrives. -/
def smallPieces : List Str :=
  ["POST / HTTP/1.1\r\nHo".toList, "st: a\r\nContent-Length: 2\r\n\r\n[".toList, "[".toList]

/-- It is answered, though its body is no JSON. -/
theorem serve_verdict_pieces : ∃ s',
    serve noLayers 300 (Connection.start smallSocket.isOpenNow)
        { smallSocket with channel := { smallSocket.channel with arrives := smallPieces } } =
      some (.returned, s') ∧
      s'.channel.sent = "HTTP/1.1 400 Bad Request\r\ncontent-length: 59\r\n\r\n".toList ++
        "Your client sent a message this server could not interpret.".toList := by
  obtain ⟨point, s', hserve, hleaves⟩ := @serve_verdict noLayers smallSocket smallSocket_fresh
    ⟨rfl, rfl⟩ _ smallPieces rfl 300 (by decide)
  have hverdict : verdict smallSocket.buffer.length smallSocket.channel.ends smallPieces.flatten = .answered
      { istate := .empty, useTrailers := true, modernHttp := true, keepAlive := .keepAliveRead
        writerHelper := .empty, connectRequest := false
        request := { method := "POST".toList, path := "/".toList, message := {
          headers := [("content-length".toList, "2".toList), ("host".toList, "a".toList)]
          body := "[[".toList } } } := by decide +kernel
  rw [hverdict] at hleaves
  obtain ⟨rfl, hsent, -⟩ := hleaves
  exact ⟨s', hserve, hsent.trans (by decide +kernel)⟩

/-! ### The requests that are answered -/

section
variable {N m : Nat} {v : Version} {x : Told} {a r' : Str} {ks : List Token} {c d : Control}

theorem no_request {e : Control × Bool} (hrun : Run (Step lexOne) ((⟨.expectMethod, v, .noBody, m⟩, false), a)
      ks (e, r')) (hstays : ∀ k n t, lexOne e r' ≠ .take k n t) (hgoes : e.2 = false)
    (r : RequestText) (q : Str) (hr : r.Ok) : a ≠ r.text ++ q := by
  intro ha
  obtain ⟨ks', d, hends⟩ := accepted_iff.mpr ⟨r, hr, ha⟩
  obtain ⟨-, heq⟩ := run_unique hrun hstays hends (by simp [upTo_stopped])
  obtain ⟨rfl, -⟩ := Prod.mk.inj heq
  cases hgoes

theorem not_fits_of_blocked (hrun : Run (Step lexOne) ((⟨.expectMethod, v, .noBody, m⟩, false), a)
      ks ((d, false), r')) (hblocked : Blocked N (d, false) (tellAll x ks).2 r') (hx : x.2 = none)
    (r : RequestText) (q : Str) (hr : r.Ok) (ha : a = r.text ++ q) : ¬ r.Fits N := by
  intro hfits
  subst ha
  obtain ⟨d', ks', hrun', hks'⟩ := RequestText.reads (v := v) (m := m) hr hfits
  obtain ⟨p, name⟩ := x
  cases hx
  have hroomy := (hks' p).2 q
  have hends := lexOne_stable.run_append hrun' q
  rcases run_comparable hrun hends with ⟨l, hl, rfl⟩ | ⟨l, hl, rfl⟩
  · -- the request goes on where the buffer is full
    cases l with
    | nil => cases hl.eq_of_nil
    | cons k l => exact hroomy ks k l _ _ rfl hrun hblocked
  · obtain ⟨-, heq⟩ := run_of_ended (by simp [upTo_stopped]) hl
    cases heq

theorem verdict_request {r : RequestText} (hr : r.Ok) (hfits : r.Fits N) (ends : Option ErrorCode)
    (q : Str) : verdict N ends (r.text ++ q) = .answered (r.onto untold) := by
  obtain ⟨d, ks, hrun, hks⟩ := RequestText.reads (v := .http10) (m := 0) hr hfits
  obtain ⟨htold, hroomy⟩ := hks untold
  obtain ⟨n, hn⟩ := verdictAt_run ends (lexOne_stable.run_append hrun q) (hroomy q)
  rw [verdict, hn, verdictFrom, if_pos rfl, htold]

end

/-- The objects of the user hold a request. -/
def Request.Holds (request : Request) (r : RequestText) : Prop :=
  request.method = r.method ∧ request.path = r.target ∧ request.message.body = r.body.content

/-- A request that follows the syntax and whose lines fit into the buffer is answered: however its
bytes arrive, and whatever comes behind them, its connection writes the reply to its body, once, with a
100 in front of it where the request asks for one. -/
theorem serve_request {l : Layers} {s : Socket} (hfresh : s.Fresh) (haccepts : s.channel.Accepts)
    {r : RequestText} (hr : r.Ok) (hfits : r.Fits s.buffer.length) {arrives : List Str} {q : Str}
    (harrives : arrives.flatten = r.text ++ q) {fuel : Nat}
    (hfuel : 3 * (r.text ++ q).length + 4 < fuel) :
    ∃ s', serve l fuel (Connection.start s.isOpenNow)
        { s with channel := { s.channel with arrives } } = some (replied l r.body.content, s') ∧
      s'.channel.sent = s.channel.sent ++ answer l r.manner r.body.content ∧ s'.request.Holds r := by
  obtain ⟨point, s', hserve, hout⟩ := hfresh.serve_outcome (l := l) haccepts harrives hfuel
  have hleaves := hfresh.leaves hout
  have hrequest := RequestText.onto_request (r := r) (p := untold) rfl
  rw [verdict_request hr hfits, Verdict.Leaves, RequestText.manner_onto hr.version rfl,
    hrequest.2.2] at hleaves
  obtain ⟨rfl, hsent, hsame⟩ := hleaves
  exact ⟨s', hserve, hsent, hsame ▸ hrequest⟩

/-- A request with a body of two bytes, which asks for a 100. -/
def smallRequest : RequestText where
  method := "POST".toList
  target := "/".toList
  version := '1'
  lineEnd := crlf
  fields := [⟨"Host".toList, [' '], "a".toList, crlf⟩,
    ⟨"Expect".toList, [' '], "100-continue".toList, crlf⟩,
    ⟨"Connection".toList, [], "Close".toList, crlf⟩,
    ⟨"Content-Length".toList, [], "2".toList, ['\n']⟩]
  headersEnd := crlf
  body := .sized "[]".toList

theorem smallRequest_ok : smallRequest.Ok where
  method := ⟨by decide +kernel, List.all_eq_true.mp (by decide +kernel)⟩
  target := ⟨by decide +kernel, List.all_eq_true.mp (by decide +kernel)⟩
  version := rfl
  lineEnd := .inl rfl
  fields := by
    rw [smallRequest, List.forall_mem_cons, List.forall_mem_cons, List.forall_mem_cons,
      List.forall_mem_singleton]
    exact ⟨⟨by decide +kernel, .inl rfl⟩, ⟨by decide +kernel, .inl rfl⟩, ⟨by decide +kernel, .inl rfl⟩,
      by decide +kernel, .inr rfl⟩
  headersEnd := .inl rfl
  host := .inr ⟨"a".toList, by decide +kernel⟩
  framing := .sized (by decide +kernel) (show _ = ["2".toList] by decide +kernel)
    (contentLength_ok_iff.mp (show contentLength "2".toList 0 = (.ok, 2) by decide +kernel)) (by decide)
  body := show "[]".toList ≠ [] by decide +kernel

/-- It is answered, with another one behind it. -/
theorem serve_request_small : ∃ s',
    serve noLayers 600 (Connection.start smallSocket.isOpenNow) { smallSocket with channel := {
        smallSocket.channel with arrives := [smallRequest.text, "GET".toList] } } =
      some (.returned, s') ∧
      s'.channel.sent = "HTTP/1.1 100 Continue\r\n\r\n".toList ++
        ("HTTP/1.1 400 Bad Request\r\nconnection: close\r\ncontent-length: 59\r\n\r\n".toList ++
          "Your client sent a message this server could not interpret.".toList) ∧
      s'.request.Holds smallRequest := by
  obtain ⟨s', hserve, hsent, hholds⟩ := @serve_request noLayers smallSocket
    smallSocket_fresh ⟨rfl, rfl⟩ smallRequest smallRequest_ok
    ⟨by decide +kernel, by decide +kernel, by decide +kernel, show 0 < 64 by decide⟩
    [smallRequest.text, "GET".toList] "GET".toList (by simp) 600 (by decide +kernel)
  exact ⟨s', hserve, hsent.trans (by decide +kernel), hholds⟩

/-- Nothing else is answered. A connection replies to a request that follows the syntax with what that
request says. Or it has written nothing, or a 100: then its buffer was too small, and a line of the
request did not fit; or what arrived began with no request, and it fails, waits for the rest, or comes
to the end of the channel. -/
theorem serve_accepts {l : Layers} {s : Socket} (hfresh : s.Fresh) (haccepts : s.channel.Accepts)
    {a : Str} {arrives : List Str} (harrives : arrives.flatten = a) {fuel : Nat}
    (hfuel : 3 * a.length + 4 < fuel) :
    ∃ point s', serve l fuel (Connection.start s.isOpenNow)
        { s with channel := { s.channel with arrives } } = some (point, s') ∧
      ((∃ (r : RequestText) (q : Str), r.Ok ∧ a = r.text ++ q ∧ point = replied l r.body.content ∧
          s'.channel.sent = s.channel.sent ++ answer l r.manner r.body.content ∧ s'.request.Holds r) ∨
        (∃ asked, s'.channel.sent = s.channel.sent ++ interim asked) ∧
          ((point = .escaped (.systemError .bufferExhausted) ∧
              ∀ (r : RequestText) (q : Str), r.Ok → a = r.text ++ q → ¬ r.Fits s.buffer.length) ∨
            (point = .escaped (.systemError .parsingError) ∨
                (s.channel.ends = none ∧ ∃ op, op.reads = true ∧ point = .await op) ∨
                ∃ e, s.channel.ends = some e ∧
                  point = if e = .eof then .returned else .escaped (.systemError e)) ∧
              ∀ (r : RequestText) (q : Str), r.Ok → a ≠ r.text ++ q)) := by
  obtain ⟨point, s', hserve, hout⟩ := hfresh.serve_outcome (l := l) haccepts harrives hfuel
  refine ⟨point, s', hserve, ?_⟩
  cases hout with
  | answered hrun _ hp hsent hrequest =>
    obtain ⟨r, hr, ha, htold⟩ := Ends.request hrun
    have hbegun : s.begun = (s.begun.1, none) := rfl
    rw [hbegun, htold] at hp
    subst hp
    have hholds := RequestText.onto_request (r := r) (p := s.begun.1) rfl
    rw [RequestText.manner_onto hr.version rfl, hholds.2.2, List.append_assoc] at hsent
    exact .inl ⟨r, _, hr, ha, congrArg (replied l) hholds.2.2, hsent, hrequest ▸ hholds⟩
  | full hrun _ hblocked hsent =>
    rw [sentAt_asked] at hsent
    exact .inr ⟨⟨_, hsent⟩, .inl ⟨rfl, not_fits_of_blocked hrun hblocked rfl⟩⟩
  | invalid hrun _ _ he hsent =>
    rw [sentAt_asked] at hsent
    have hwrote : ∃ asked, s'.channel.sent = s.channel.sent ++ interim asked :=
      hsent.elim (fun hsent => ⟨false, hsent.trans (List.append_nil _).symm⟩) fun hsent => ⟨_, hsent⟩
    exact .inr ⟨hwrote, .inr ⟨.inl rfl, no_request hrun (by simp [he]) rfl⟩⟩
  | waits hrun _ _ hmore hends hreads hsent =>
    rw [sentAt_asked] at hsent
    exact .inr ⟨⟨_, hsent⟩, .inr ⟨.inr (.inl ⟨hends, _, hreads, rfl⟩),
      no_request hrun (by simp [hmore]) rfl⟩⟩
  | ended hrun _ _ hmore hends hsent =>
    rw [sentAt_asked] at hsent
    exact .inr ⟨⟨_, hsent⟩, .inr ⟨.inr (.inr ⟨_, hends, caught_eq _⟩),
      no_request hrun (by simp [hmore]) rfl⟩⟩

/-- A text without a target is no request: it fails, and nothing is written. -/
theorem serve_accepts_target : ∃ s',
    serve noLayers 300 (Connection.start smallSocket.isOpenNow) { smallSocket with channel := {
        smallSocket.channel with arrives := ["GET ".toList, "\r\n".toList] } } =
      some (.escaped (.systemError .parsingError), s') ∧
      s'.channel.sent = [] ∧ ∀ (r : RequestText) (q : Str), r.Ok → "GET \r\n".toList ≠ r.text ++ q := by
  obtain ⟨point, s', hserve, hends⟩ := @serve_accepts noLayers smallSocket smallSocket_fresh
    ⟨rfl, rfl⟩ "GET \r\n".toList ["GET ".toList, "\r\n".toList] (by decide +kernel) 300
    (by decide +kernel)
  have hresult : (serve noLayers 300 (Connection.start smallSocket.isOpenNow) { smallSocket with channel := {
      smallSocket.channel with arrives := ["GET ".toList, "\r\n".toList] } }).map (fun x =>
        (x.1, x.2.channel.sent)) = some (.escaped (.systemError .parsingError), []) := by decide +kernel
  rw [hserve, Option.map_some] at hresult
  obtain ⟨rfl, hsent⟩ := Prod.mk.inj (Option.some.inj hresult)
  refine ⟨s', hserve, hsent, ?_⟩
  rcases hends with ⟨r, q, -, -, hpoint, -⟩ | ⟨-, ⟨hpoint, -⟩ | ⟨-, hnone⟩⟩
  · cases hpoint
  · cases hpoint
  · exact hnone

end Http

end Wye
