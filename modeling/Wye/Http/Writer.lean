import Wye.Http.Grammar

/-!
# What the socket writes

The operations of `basic_socket` that write. A response has its body behind a `content-length`, or is
written in chunks; what is written in chunks the reader of requests reads again (`Socket.asyncWriteAll_read`).
-/

namespace Wye

open Text Incremental Transition

namespace Http

/-- `detail::has_connection_close`. -/
def hasConnectionClose (hs : Headers) : Bool :=
  (hs.equalRange "connection".toList).any fun v =>
    (elements v).any fun e => iequals e "close".toList

/-- A `for` over fields: key, separator, value and line end of each. -/
def fieldLines (hs : Headers) : Str := hs.flatMap fun h => h.1 ++ ": ".toList ++ h.2 ++ crlf

namespace Progress

/-- The start line and the fields. With `connection: close` the connection is closed behind the
response. -/
def metadata (p : Progress) (status : Nat) (reason : Str) (m : Message) : Str :=
  (if p.modernHttp then "HTTP/1.1 ".toList else "HTTP/1.0 ".toList) ++ Nat.toDigits 10 status ++
    ' ' :: reason ++ crlf ++
    (if p.keepAlive = .closeRead ∧ hasConnectionClose m.headers = false then
      "connection: close\r\n".toList else []) ++
    fieldLines m.headers

/-- Whether a response goes without its length, and then without its body. -/
def implicitContentLength (p : Progress) (status : Nat) (m : Message) : Bool :=
  m.headers.any (fun h => h.1 == "content-length".toList) || status / 100 == 1 || status == 204 ||
    (p.connectRequest && status / 100 == 2)

/-- The buffers that `async_write_response` writes. -/
def response (p : Progress) (status : Nat) (reason : Str) (m : Message) : Str :=
  p.metadata status reason m ++
    if p.implicitContentLength status m then crlf
    else "content-length: ".toList ++ Nat.toDigits 10 m.body.length ++ crlf ++ crlf ++ m.body

def onConnectionClose (p : Progress) (m : Message) : Progress :=
  if hasConnectionClose m.headers then { p with keepAlive := .closeRead } else p

end Progress

namespace Socket

/-- What the handler of the last write of a response does first: without keep-alive the connection is
closed. -/
def endOfResponse (s : Socket) (written : Except ErrorCode Unit × Channel) : Ended :=
  let isOpen : Bool := s.keepAlive = .keepAliveRead
  (some written.1, { s with isOpen, channel := if isOpen then written.2 else written.2.close })

def written (s : Socket) (w : Except ErrorCode Unit × Channel) : Ended :=
  (some w.1, { s with channel := w.2 })

def asyncWriteResponse (status : Nat) (reason : Str) (m : Message) (s : Socket) : Ended :=
  match s.writerHelper.writeMessage with
  | none => (some (.error .outOfOrder), s)
  | some writerHelper =>
    let p := { s.toProgress with writerHelper }.onConnectionClose m
    { s with toProgress := p }.endOfResponse (s.channel.asyncWrite (p.response status reason m))

def continueText : Str := "HTTP/1.1 100 Continue\r\n\r\n".toList

def asyncWriteResponseContinue (s : Socket) : Ended :=
  match s.writerHelper.writeContinue with
  | none => (some (.error .outOfOrder), s)
  | some writerHelper =>
    { s with writerHelper }.written (s.channel.asyncWrite continueText)

def asyncWriteResponseMetadata (status : Nat) (reason : Str) (m : Message) (s : Socket) : Ended :=
  match s.writerHelper.writeMetadata with
  | none => (some (.error .outOfOrder), s)
  | some writerHelper =>
    if !s.modernHttp then (some (.error .nativeStreamUnsupported), s)
    else
      let p := { s.toProgress with writerHelper }.onConnectionClose m
      { s with toProgress := p }.written (s.channel.asyncWrite
        (p.metadata status reason m ++ "transfer-encoding: chunked\r\n\r\n".toList))

/-- The text of a chunk. -/
def chunk (body : Str) : Str := Nat.toDigits 16 body.length ++ crlf ++ body ++ crlf

def asyncWrite (m : Message) (s : Socket) : Ended :=
  match s.writerHelper.write with
  | none => (some (.error .outOfOrder), s)
  | some _ =>
    if m.body.length = 0 then (some (.ok ()), s)
    else s.written (s.channel.asyncWrite (chunk m.body))

def asyncWriteTrailers (m : Message) (s : Socket) : Ended :=
  match s.writerHelper.writeTrailers with
  | none => (some (.error .outOfOrder), s)
  | some writerHelper =>
    { s with writerHelper }.endOfResponse
      (s.channel.asyncWrite ("0\r\n".toList ++ fieldLines m.trailers ++ crlf))

def asyncWriteEndOfMessage (s : Socket) : Ended :=
  match s.writerHelper.writeTrailers with
  | none => (some (.error .outOfOrder), s)
  | some writerHelper =>
    { s with writerHelper }.endOfResponse (s.channel.asyncWrite "0\r\n\r\n".toList)

end Socket

/-! ### What is written is read -/

/-- A field that can be written. -/
structure IsField (h : Str × Str) : Prop where
  name : h.1 ≠ [] ∧ ∀ x ∈ h.1, isTchar x = true
  value : ∀ x ∈ h.2, isFieldValueChar x = true
  front : ∀ x ∈ h.2.head?, isOws x = false
  back : ∀ x ∈ h.2.getLast?, isOws x = false

instance (h : Str × Str) : Decidable (IsField h) :=
  decidable_of_iff ((h.1 ≠ [] ∧ h.1.all isTchar = true) ∧ h.2.all isFieldValueChar = true ∧
      h.2.head?.all (fun x => !isOws x) = true ∧ h.2.getLast?.all (fun x => !isOws x) = true) <| by
    simp only [List.all_eq_true, Option.all_eq_true, Bool.not_eq_true']
    exact ⟨fun ⟨hname, hvalue, hfront, hback⟩ => ⟨hname, hvalue, hfront, hback⟩,
      fun h => ⟨h.name, h.value, h.front, h.back⟩⟩

/-- The line of a field. -/
def lineOf (h : Str × Str) : FieldLine := ⟨h.1, [' '], h.2, crlf⟩

/-- The chunk with a content. -/
def chunkOf (content : Str) : Chunk := ⟨Nat.toDigits 16 content.length, [], content⟩

/-- The body that is written in chunks, with fields behind it. -/
def writtenBody (bodies : List Str) (trailers : Headers) : BodyText :=
  .chunked (bodies.map chunkOf) (chunkOf []) (trailers.map lineOf)

theorem fieldLines_eq (hs : Headers) : fieldLines hs = (hs.map lineOf).flatMap FieldLine.text := by
  induction hs with
  | nil => rfl
  | cons h hs ih =>
    rw [fieldLines, List.flatMap_cons, ← fieldLines, ih, List.map_cons, List.flatMap_cons]
    simp [lineOf, FieldLine.text]

theorem chunks_eq (bodies : List Str) :
    bodies.flatMap Socket.chunk = (bodies.map chunkOf).flatMap Chunk.text := by
  induction bodies with
  | nil => rfl
  | cons body bodies ih =>
    rw [List.flatMap_cons, ih, List.map_cons, List.flatMap_cons]
    simp [chunkOf, Chunk.text, Chunk.line, Socket.chunk]

theorem writtenBody_text (bodies : List Str) (trailers : Headers) : (writtenBody bodies trailers).text =
    bodies.flatMap Socket.chunk ++ ("0\r\n".toList ++ (fieldLines trailers ++ crlf)) := by
  rw [chunks_eq, fieldLines_eq]
  rfl

theorem chunkOf_ok {content : Str} (h : content.length ≤ maxUint64) : (chunkOf content).Ok where
  size := isNumber_toDigits (by decide) hexDigit_digitChar h
  ext := by simp [chunkOf]
  front := by simp [chunkOf]

theorem lineOf_ok {h : Str × Str} (hfield : IsField h) : (lineOf h).Ok where
  name := hfield.name
  space := by simp [lineOf, isOws]
  value := hfield.value
  front := hfield.front

theorem decodeFieldValue_eq {value : Str} (h : ∀ x ∈ value.getLast?, isOws x = false) :
    decodeFieldValue value = value := by
  have hzero : matchLen isOws value.tail.reverse = 0 := by
    cases hrev : value.tail.reverse with
    | nil => rfl
    | cons x t =>
      have hlast : x ∈ value.getLast? := by
        have htail : value.tail = t.reverse ++ [x] := by
          rw [← List.reverse_reverse value.tail, hrev, List.reverse_cons]
        cases value with
        | nil => simp at hrev
        | cons y value =>
          rw [List.tail_cons] at htail
          rw [htail, ← List.cons_append, List.getLast?_concat]
          rfl
      rw [matchLen, List.takeWhile_cons_of_neg (by simp [h x hlast])]
      rfl
  rw [decodeFieldValue, hzero, Nat.sub_zero, List.take_length]

theorem writtenBody_ok {bodies : List Str} {trailers : Headers}
    (hbodies : ∀ body ∈ bodies, body ≠ [] ∧ body.length ≤ maxUint64)
    (htrailers : ∀ h ∈ trailers, IsField h) : (writtenBody bodies trailers).Ok := by
  refine ⟨fun k hk => ?_, ⟨chunkOf_ok (Nat.zero_le _), rfl⟩, fun f hf => ?_⟩
  · obtain ⟨body, hbody, rfl⟩ := List.mem_map.mp hk
    exact ⟨chunkOf_ok (hbodies body hbody).2, (hbodies body hbody).1⟩
  · obtain ⟨h, hh, rfl⟩ := List.mem_map.mp hf
    exact ⟨lineOf_ok (htrailers h hh), rfl⟩

theorem writtenBody_content (bodies : List Str) (trailers : Headers) :
    (writtenBody bodies trailers).content = bodies.flatten := by
  induction bodies with
  | nil => rfl
  | cons body bodies ih =>
    rw [List.flatten_cons, ← ih]
    rfl

theorem Progress.onField_trailer {p : Progress} (hmodern : p.modernHttp = true)
    (huse : p.useTrailers = true) (name value : Str) :
    (p.onField name value).request.message.trailers =
        p.request.message.trailers.emplace name value ∧
      (p.onField name value).modernHttp = true ∧ (p.onField name value).useTrailers = true := by
  rw [onField, if_pos (by rw [hmodern]; exact Bool.true_or _)]
  dsimp only
  rw [if_pos huse]
  exact ⟨rfl, hmodern, huse⟩

theorem foldl_trailers {trailers : Headers} (htrailers : ∀ h ∈ trailers, IsField h) {p : Progress}
    (hmodern : p.modernHttp = true) (huse : p.useTrailers = true) :
    ((trailers.map lineOf).foldl (fun p f => f.onto p) p).request.message.trailers =
      trailers.foldl (fun hs h => hs.emplace (h.1.map Char.toLower) h.2)
        p.request.message.trailers := by
  induction trailers generalizing p with
  | nil => rfl
  | cons h trailers ih =>
    obtain ⟨hfield, htrailers⟩ := List.forall_mem_cons.mp htrailers
    have honto : (lineOf h).onto p = p.onField (h.1.map Char.toLower) h.2 := by
      rw [FieldLine.onto, lineOf, decodeFieldValue_eq hfield.back]
    obtain ⟨hfirst, hmodern, huse⟩ := p.onField_trailer hmodern huse (h.1.map Char.toLower) h.2
    rw [List.map_cons, List.foldl_cons, List.foldl_cons, honto, ih htrailers hmodern huse, hfirst]

/-- More is written. -/
def Channel.put (text : Str) (ch : Channel) : Channel := { ch with sent := ch.sent ++ text }

theorem Channel.put_put (ch : Channel) (text text' : Str) :
    (ch.put text).put text' = ch.put (text ++ text') := by
  simp [put, List.append_assoc]

/-- A channel that takes what is written. -/
structure Channel.Accepts (ch : Channel) : Prop where
  isOpen : ch.isOpen = true
  refuses : ch.refuses = none

theorem Channel.Accepts.asyncWrite {ch : Channel} (h : ch.Accepts) (text : Str) :
    ch.asyncWrite text = (.ok (), ch.put text) := by
  obtain ⟨isOpen, arrives, ends, refuses, sent⟩ := ch
  obtain ⟨rfl, rfl⟩ : isOpen = true ∧ refuses = none := ⟨h.isOpen, h.refuses⟩
  rfl

namespace Socket

/-- The parts of a body, one write after the other. -/
def asyncWriteAll : List Message → Socket → Ended
  | [], s => (some (.ok ()), s)
  | m :: ms, s =>
    match s.asyncWrite m with
    | (some (.ok ()), s) => asyncWriteAll ms s
    | ended => ended

theorem asyncWriteAll_ok {ms : List Message} {s : Socket} (hw : s.writerHelper = .metadataIssued)
    (haccepts : s.channel.Accepts) : asyncWriteAll ms s = (some (.ok ()), { s with
      channel := s.channel.put (((ms.map (·.body)).filter (· ≠ [])).flatMap chunk) }) := by
  induction ms generalizing s with
  | nil => simp [asyncWriteAll, Channel.put]
  | cons m ms ih =>
    rw [asyncWriteAll, asyncWrite, hw]
    by_cases hbody : m.body = []
    · simp only [WriteState.write, hbody, List.length_nil, if_true]
      rw [ih hw haccepts, List.map_cons, List.filter_cons_of_neg (by simp [hbody])]
    · have hlen : m.body.length ≠ 0 := by simpa using hbody
      simp only [WriteState.write, if_neg hlen, written, haccepts.asyncWrite]
      rw [ih (s := { s with channel := s.channel.put (chunk m.body) }) hw
        ⟨haccepts.isOpen, haccepts.refuses⟩, Channel.put_put, List.map_cons,
        List.filter_cons_of_pos (by simp [hbody]), List.flatMap_cons]

theorem asyncWriteTrailers_ok {m : Message} {s : Socket} (hw : s.writerHelper = .metadataIssued)
    (haccepts : s.channel.Accepts) : ∃ s', s.asyncWriteTrailers m = (some (.ok ()), s') ∧
      s'.channel.sent = s.channel.sent ++ ("0\r\n".toList ++ fieldLines m.trailers ++ crlf) := by
  rw [asyncWriteTrailers, hw]
  simp only [WriteState.writeTrailers, endOfResponse, haccepts.asyncWrite]
  refine ⟨_, rfl, ?_⟩
  split <;> rfl

theorem asyncWriteEndOfMessage_eq (s : Socket) : s.asyncWriteEndOfMessage = s.asyncWriteTrailers {} := rfl

/-- Behind the metadata of a message in chunks its parts may be written. -/
theorem asyncWriteResponseMetadata_ok {status : Nat} {reason : Str} {m : Message} {s : Socket}
    (hw : s.writerHelper.writeMetadata = some .metadataIssued) (hmodern : s.modernHttp = true)
    (haccepts : s.channel.Accepts) : ∃ s', s.asyncWriteResponseMetadata status reason m =
        (some (.ok ()), s') ∧ s'.writerHelper = .metadataIssued ∧ s'.channel.Accepts := by
  rw [asyncWriteResponseMetadata, hw]
  simp only [hmodern, Bool.not_true, Bool.false_eq_true, if_false, written, haccepts.asyncWrite]
  refine ⟨_, rfl, ?_, ⟨haccepts.isOpen, haccepts.refuses⟩⟩
  rw [Progress.onConnectionClose]
  split <;> rfl

/-- A body that is written in parts is read as one, with its trailers, and up to its end: whatever the
parts are, none of the writes fails, and the text between the header and what comes next is a body in
chunks with all their bytes. -/
theorem asyncWriteAll_read {ms : List Message} {trailers : Message} {s : Socket}
    (hw : s.writerHelper = .metadataIssued) (haccepts : s.channel.Accepts)
    (hsize : ∀ m ∈ ms, m.body.length ≤ maxUint64) (htrailers : ∀ h ∈ trailers.trailers, IsField h) :
    ∃ s₁ s₂ body, s.asyncWriteAll ms = (some (.ok ()), s₁) ∧
      s₁.asyncWriteTrailers trailers = (some (.ok ()), s₂) ∧
      s₂.channel.sent = s.channel.sent ++ BodyText.text body ∧
      ∀ N c, body.Fits N → behindHeaders c = .ok .expectChunkSize →
        ∃ d f, Reads N { c with state := .expectChunkSize } body.text f (d, true) ∧ ∀ p,
          (f p).request.message.body = p.request.message.body ++ (ms.map (·.body)).flatten ∧
          (p.modernHttp = true → (f p).request.message.trailers = trailers.trailers.foldl
            (fun hs h => hs.emplace (h.1.map Char.toLower) h.2) p.request.message.trailers) := by
  have hok : (writtenBody ((ms.map (·.body)).filter (· ≠ [])) trailers.trailers).Ok := by
    refine writtenBody_ok (fun body hbody => ?_) htrailers
    obtain ⟨hmem, hne⟩ := List.mem_filter.mp hbody
    obtain ⟨m, hm, rfl⟩ := List.mem_map.mp hmem
    exact ⟨by simpa using hne, hsize m hm⟩
  obtain ⟨s₂, htrailersWrite, hsent⟩ := asyncWriteTrailers_ok (m := trailers) (s := { s with
    channel := s.channel.put (((ms.map (·.body)).filter (· ≠ [])).flatMap chunk) }) hw
    ⟨haccepts.isOpen, haccepts.refuses⟩
  refine ⟨_, s₂, writtenBody ((ms.map (·.body)).filter (· ≠ [])) trailers.trailers,
    asyncWriteAll_ok hw haccepts, htrailersWrite, ?_, fun N c hfits hbehind => ?_⟩
  · rw [hsent, writtenBody_text, Channel.put]
    simp only [List.append_assoc]
  · obtain ⟨d, hreads⟩ := BodyText.reads hok hfits hbehind
    refine ⟨d, _, hreads, fun p => ⟨?_, fun hmodern => ?_⟩⟩
    · rw [(BodyText.onto_request _ p).2.2, writtenBody_content,
        List.flatten_filter_ne_nil]
    · exact foldl_trailers htrailers hmodern rfl

end Socket

/-- A socket with a small buffer, and what the members that its constructors leave open may be. -/
def smallSocket : Socket where
  buffer := List.replicate 64 '0'
  parser := ⟨⟨.expectMethod, .http10, .noBody, 0⟩, .errorInsufficientData, 0, 0, []⟩

/-- Two parts of which one is empty, and a trailer. -/
theorem Socket.asyncWriteAll_read_parts : ∃ s₁ s₂ body,
    { smallSocket with writerHelper := .metadataIssued }.asyncWriteAll
        [{ body := "ab".toList }, { body := [] }] = (some (.ok ()), s₁) ∧
      s₁.asyncWriteTrailers { trailers := [("X".toList, "y".toList)] } = (some (.ok ()), s₂) ∧
      s₂.channel.sent = "2\r\nab\r\n0\r\nX: y\r\n\r\n".toList ∧ s₂.channel.sent = BodyText.text body ∧
      ∃ d f, Reads 64 ⟨.expectChunkSize, .hostRead, .chunkedEncodingRead, 0⟩ body.text f (d, true) ∧
        (f { modernHttp := true }).request.message.body = "ab".toList ∧
        (f { modernHttp := true }).request.message.trailers = [("x".toList, "y".toList)] := by
  obtain ⟨s₁, s₂, body, hwrite, htrailers, hsent, hreads⟩ := @Socket.asyncWriteAll_read
    [{ body := "ab".toList }, { body := [] }] { trailers := [("X".toList, "y".toList)] }
    { smallSocket with writerHelper := .metadataIssued } rfl ⟨rfl, rfl⟩ (by decide +kernel)
    fun h hh => by
      obtain rfl := List.mem_singleton.mp hh
      decide +kernel
  have hwrote : s₂.channel.sent = "2\r\nab\r\n0\r\nX: y\r\n\r\n".toList := by
    obtain rfl := (Prod.mk.inj hwrite).2
    obtain rfl := (Prod.mk.inj htrailers).2
    decide +kernel
  have htext : body.text = s₂.channel.sent := by rw [hsent]; rfl
  have hfits : body.Fits 64 := BodyText.fits_text (by rw [htext, hwrote]; decide) (by decide)
  obtain ⟨d, f, hread, hbody⟩ := hreads 64 ⟨.expectChunkSize, .hostRead, .chunkedEncodingRead, 0⟩ hfits rfl
  refine ⟨s₁, s₂, body, hwrite, htrailers, hwrote, htext.symm, d, f, hread, ?_⟩
  obtain ⟨hcontent, htold⟩ := hbody { modernHttp := true }
  exact ⟨hcontent.trans rfl, (htold rfl).trans (by decide +kernel)⟩

end Http

end Wye
