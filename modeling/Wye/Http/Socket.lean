import Wye.Base.Buffer
import Wye.Connection
import Wye.Http.Reader

/-!
# The socket

`boost::http::basic_socket`, which makes requests of what its channel reads and sends replies. All
that has been read and not made use of lies at the front of one buffer of a fixed size: the name of a
field until its value has been read, and the token that is not complete.

An operation ends with what its handler is called with, or waits for the channel. `none` stands for
what the code takes for unreachable, for a look or a copy outside the buffer, and for a loop that is
not left.
-/

namespace Wye

open Text Buffer

/-- `http_errc::out_of_order`. -/
def ErrorCode.outOfOrder : ErrorCode := ⟨"http".toList, 1⟩

/-- `http_errc::native_stream_unsupported`. -/
def ErrorCode.nativeStreamUnsupported : ErrorCode := ⟨"http".toList, 2⟩

/-- `http_errc::buffer_exhausted`. -/
def ErrorCode.bufferExhausted : ErrorCode := ⟨"http".toList, 4⟩

/-- `asio::error::bad_descriptor`. -/
def ErrorCode.badDescriptor : ErrorCode := ⟨"system".toList, 9⟩

namespace Http

/-! ### Messages -/

/-- `http::headers`, a `flat_multimap`: in the order of the names, and under one name in the order of
the insertions. -/
abbrev Headers := List (Str × Str)

namespace Headers

/-- `emplace`: behind all whose name is not greater. -/
def emplace (name value : Str) (hs : Headers) : Headers :=
  hs.takeWhile (fun h => !decide (name < h.1)) ++
    (name, value) :: hs.dropWhile (fun h => !decide (name < h.1))

/-- The values in `equal_range(name)`. -/
def equalRange (name : Str) (hs : Headers) : List Str :=
  (hs.filter fun h => h.1 == name).map Prod.snd

/-- `erase` of `equal_range(name)`. -/
def erase (name : Str) (hs : Headers) : Headers := hs.filter fun h => h.1 != name

end Headers

/-- `http::message`. -/
structure Message where
  headers : Headers := []
  body : Str := []
  trailers : Headers := []
  deriving DecidableEq, Repr

/-- `request_continue_required`. -/
def Message.requestContinueRequired (m : Message) : Bool :=
  match m.headers.equalRange "expect".toList with
  | [value] => iequals value "100-continue".toList
  | _ => false

/-- The objects that the user of the socket has a request put into. -/
structure Request where
  method : Str := []
  path : Str := []
  message : Message := {}
  deriving DecidableEq, Repr

/-! ### The order of the writes -/

/-- `http::write_state`. -/
inductive WriteState where
  | empty
  | continueIssued
  | metadataIssued
  | finished
  deriving DecidableEq, Repr

namespace WriteState

/-- `writer_helper::write_message`. `none` is its `false`, as in the functions below. -/
def writeMessage : WriteState → Option WriteState
  | .empty | .continueIssued => some .finished
  | _ => none

def writeContinue : WriteState → Option WriteState
  | .empty => some .continueIssued
  | _ => none

def writeMetadata : WriteState → Option WriteState
  | .empty | .continueIssued => some .metadataIssued
  | _ => none

def write : WriteState → Option WriteState
  | .metadataIssued => some .metadataIssued
  | _ => none

/-- `writer_helper::write_trailers` and `writer_helper::end`. -/
def writeTrailers : WriteState → Option WriteState
  | .metadataIssued => some .finished
  | _ => none

end WriteState

/-! ### What a request says -/

inductive KeepAlive where
  | unknown
  | closeRead
  | keepAliveRead
  deriving DecidableEq, Repr

/-- What the socket knows of a request, and what it has put into the objects of its user. -/
structure Progress where
  istate : ReadState := .empty
  useTrailers : Bool := false
  modernHttp : Bool := false
  keepAlive : KeepAlive := .unknown
  writerHelper : WriteState := .empty
  connectRequest : Bool := false
  request : Request := {}
  deriving DecidableEq, Repr

namespace Progress

/-- The predicate on the elements of `Connection`. -/
def onConnection (keepAlive : KeepAlive) (v : Str) : Bool × KeepAlive :=
  if iequals v "close".toList then (true, .closeRead)
  else if iequals v "keep-alive".toList then (false, .keepAliveRead)
  else (false, keepAlive)

/-- A field in its place, unless it is one that HTTP/1.0 does not have. -/
def onField (p : Progress) (name value : Str) : Progress :=
  if p.modernHttp || (name ≠ "expect".toList && name ≠ "upgrade".toList) then
    let keepAlive :=
      if name = "connection".toList && p.keepAlive ≠ .closeRead then
        (headerValueAnyOf onConnection p.keepAlive (elements value)).2
      else p.keepAlive
    if p.useTrailers then
      { p with keepAlive, request.message.trailers := p.request.message.trailers.emplace name value }
    else
      { p with keepAlive, request.message.headers := p.request.message.headers.emplace name value }
  else p

def onEndOfHeaders (p : Progress) : Progress :=
  { p with
    istate := .messageReady
    writerHelper := .empty
    request.message.headers :=
      if 1 < (p.request.message.headers.equalRange "expect".toList).length then
        p.request.message.headers.erase "expect".toList
      else p.request.message.headers
    keepAlive :=
      if p.keepAlive = .unknown then if p.modernHttp then .keepAliveRead else .closeRead
      else p.keepAlive }

/-- What the cases of the switch in `on_async_read_message` do with the text of a token, but for the
buffer. `name` is the name of the field that is being read. -/
def onToken (p : Progress) (name : Str) (code : Code) (text : Str) : Progress :=
  match code with
  | .method => { p with
      useTrailers := false, connectRequest := text = "CONNECT".toList, request.method := text }
  | .requestTarget => { p with request.path := text }
  | .version => { p with
      modernHttp := 0 < (text.headD '0').toNat - 0x30, keepAlive := .unknown }
  | .fieldValue => p.onField name (decodeFieldValue text)
  | .endOfHeaders => p.onEndOfHeaders
  | .bodyChunk => { p with request.message.body := p.request.message.body ++ text }
  | .endOfBody => { p with istate := .bodyReady, useTrailers := true }
  | .endOfMessage => { p with istate := .empty }
  | _ => p

end Progress

/-! ### The channel -/

/-- The stream under the socket: what the peer sends, in the pieces in which it arrives; how reads end
behind that, unless they wait; how writes fail, unless they do not; and what has been written. -/
structure Channel where
  isOpen : Bool := true
  arrives : List Str := []
  ends : Option ErrorCode := none
  refuses : Option ErrorCode := none
  sent : Str := []
  deriving DecidableEq, Repr

namespace Channel

/-- `async_read_some` into a buffer with some room, or `none` while it waits. -/
def asyncReadSome (room : Nat) (ch : Channel) : Option (Except ErrorCode Str × Channel) :=
  if !ch.isOpen then some (.error .badDescriptor, ch)
  else
    match ch.arrives with
    | [] => ch.ends.map fun e => (.error e, ch)
    | x :: xs =>
      some (.ok (x.take room),
        { ch with arrives := if x.length ≤ room then xs else x.drop room :: xs })

/-- `asio::async_write`. -/
def asyncWrite (text : Str) (ch : Channel) : Except ErrorCode Unit × Channel :=
  if !ch.isOpen then (.error .badDescriptor, ch)
  else
    match ch.refuses with
    | some e => (.error e, ch)
    | none => (.ok (), { ch with sent := ch.sent ++ text })

def close (ch : Channel) : Channel := { ch with isOpen := false }

/-- A bound on the reads until nothing is left to arrive. -/
def size (ch : Channel) : Nat := (ch.arrives.map fun x => x.length + 1).sum

end Channel

/-! ### Reading -/

/-- `basic_socket`. -/
structure Socket extends Progress where
  channel : Channel := {}
  isOpen : Bool := true
  buffer : Str
  usedSize : Nat := 0
  parser : Reader
  fieldNameSize : Nat := 0
  expectingField : Bool := false
  deriving DecidableEq, Repr

/-- `Target`. -/
inductive Target where
  | ready
  | data
  | ends
  deriving DecidableEq, Repr

/-- What an operation ends with, `none` while it waits, and the socket behind it. -/
abbrev Ended := Option (Except ErrorCode Unit) × Socket

/-- The variables of `on_async_read_message`. The buffer of the parser starts at `start`. -/
structure Loop where
  socket : Socket
  start : Nat
  nparsed : Nat
  fieldNameBegin : Nat := 0
  flags : List Target := []

namespace Loop

/-- The case `field_name`: the name in small letters, in its place in the buffer. -/
def onFieldName (l : Loop) : Option Loop :=
  let s := l.socket
  let size := s.parser.tokenSize
  if l.nparsed + size ≤ s.buffer.length then
    let buffer := overwrite s.buffer l.nparsed ((view s.buffer l.nparsed size).map Char.toLower)
    some { l with
      fieldNameBegin := l.nparsed
      socket := { s with
        buffer
        fieldNameSize := size
        expectingField := true
        parser := { s.parser with ibuffer := view buffer l.start s.parser.ibuffer.length } } }
  else none

/-- What the token says, where `name` is the name of the field. -/
def onToken (l : Loop) (name : Str) : Socket :=
  { l.socket with
    toProgress := l.socket.toProgress.onToken name l.socket.parser.code l.socket.parser.value }

/-- The case `field_value`. -/
def onFieldValue (l : Loop) : Option Loop :=
  if l.fieldNameBegin + l.socket.fieldNameSize ≤ l.socket.buffer.length then
    let name := view l.socket.buffer l.fieldNameBegin l.socket.fieldNameSize
    some { l with socket := { l.onToken name with expectingField := false } }
  else none

/-- The case `end_of_message`: the parser is left with the token alone, so that it goes no further. -/
def onEndOfMessage (l : Loop) : Option Loop :=
  let size := l.socket.parser.tokenSize
  if l.nparsed + size ≤ l.socket.buffer.length then
    some { l with
      start := l.nparsed
      flags := .ends :: l.flags
      socket := { l.onToken [] with
        parser := l.socket.parser.setBuffer (view l.socket.buffer l.nparsed size) } }
  else none

/-- The switch over the tokens. -/
def switch (l : Loop) : Option Loop :=
  match l.socket.parser.code with
  | .fieldName => l.onFieldName
  | .fieldValue => l.onFieldValue
  | .endOfMessage => l.onEndOfMessage
  | .endOfHeaders => some { l with socket := l.onToken [], flags := .ready :: l.flags }
  | .bodyChunk => some { l with socket := l.onToken [], flags := .data :: l.flags }
  | _ => some { l with socket := l.onToken [] }

/-- How the body of the loop is left. -/
inductive Turn where
  | again
  | enough
  | parsingError
  deriving DecidableEq, Repr

/-- The body of the loop. -/
def turn (l : Loop) : Option (Turn × Loop) :=
  match l.socket.parser.next with
  | none => none
  | some parser =>
    let l := { l with socket := { l.socket with parser } }
    match parser.code with
    | .errorInsufficientData => some (.enough, l)
    | .errorSetMethod | .errorUseAnotherConnection | .statusCode | .reasonPhrase => none
    | .errorInvalidData | .errorNoHost | .errorInvalidContentLength | .errorContentLengthOverflow
    | .errorInvalidTransferEncoding | .errorChunkSizeOverflow => some (.parsingError, l)
    | _ => l.switch.map fun l => (.again, { l with nparsed := l.nparsed + parser.tokenSize })

/-- The loop: the variables behind it, or an error in what is read. -/
def run : Nat → Loop → Option (Turn × Loop)
  | 0, _ => none
  | n + 1, l =>
    match l.turn with
    | some (.again, l) => run n l
    | left => left

/-- What has not been parsed goes to the front of the buffer, behind the name of the field that is
being read. -/
def compact (l : Loop) : Option Socket :=
  let s := l.socket
  if !s.expectingField then
    if l.nparsed ≤ s.usedSize then
      (copyN s.buffer l.nparsed (s.usedSize - l.nparsed) 0).map fun buffer =>
        { s with buffer, usedSize := s.usedSize - l.nparsed }
    else none
  else if l.nparsed ≠ 0 then
    if l.nparsed ≤ s.usedSize then
      (copyN s.buffer l.fieldNameBegin s.fieldNameSize 0).bind fun buffer =>
        (copyN buffer l.nparsed (s.usedSize - l.nparsed) s.fieldNameSize).map fun buffer =>
          { s with buffer, usedSize := s.usedSize - l.nparsed + s.fieldNameSize }
    else none
  else some s

end Loop

namespace Target

/-- Whether what an operation waits for has been read. -/
def reached (flags : List Target) : Target → Bool
  | .ready => flags.contains .ready
  | .data => flags.contains .data || flags.contains .ends
  | .ends => flags.contains .ends

end Target

/-- How `on_async_read_message` is left. -/
inductive Reached where
  | handler (result : Except ErrorCode Unit) (s : Socket)
  | asyncReadSome (s : Socket)

namespace Socket

/-- `clear_buffer`. -/
def clearBuffer (s : Socket) : Socket :=
  { s with
    istate := .empty
    writerHelper := .empty
    usedSize := 0
    parser := s.parser.reset
    expectingField := false }

/-- The loop over what is in the buffer, and what is done behind it. -/
def parse (target : Target) (s : Socket) (start : Nat) : Option Reached :=
  let parser := s.parser.setBuffer (view s.buffer start (s.usedSize - start))
  match Loop.run (3 * s.usedSize + 4) { socket := { s with parser }, start, nparsed := start } with
  | some (.enough, l) => l.compact.map fun s =>
    if target.reached l.flags then .handler (.ok ()) s
    else if s.usedSize = s.buffer.length then .handler (.error .bufferExhausted) s
    else .asyncReadSome s
  | some (.parsingError, l) => some (.handler (.error .parsingError) l.socket.clearBuffer)
  | _ => none

/-- `on_async_read_message`, where the channel has read what it says. -/
def onAsyncReadMessage (target : Target) (s : Socket) : Except ErrorCode Str → Option Reached
  | .error e => some (.handler (.error e) s.clearBuffer)
  | .ok bytes =>
    if s.usedSize + bytes.length ≤ s.buffer.length then
      let s := { s with
        buffer := overwrite s.buffer s.usedSize bytes, usedSize := s.usedSize + bytes.length }
      if !s.expectingField then s.parse target 0
      else if s.fieldNameSize ≤ s.usedSize then s.parse target s.fieldNameSize
      else none
    else none

/-- An operation that reads, from one read of the channel to the next. -/
def readOn (target : Target) : Nat → Reached → Option Ended
  | _, .handler result s => some (some result, s)
  | 0, .asyncReadSome _ => none
  | n + 1, .asyncReadSome s =>
    match s.channel.asyncReadSome (s.buffer.length - s.usedSize) with
    | none => some (none, s)
    | some (read, channel) =>
      (onAsyncReadMessage target { s with channel } read).bind (readOn target n)

/-- `schedule_on_async_read_message`, and what comes of it. -/
def scheduleOnAsyncReadMessage (target : Target) (s : Socket) : Option Ended :=
  if s.usedSize ≠ 0 then
    (onAsyncReadMessage target s (.ok [])).bind (readOn target (s.channel.size + 1))
  else readOn target (s.channel.size + 1) (.asyncReadSome s)

def asyncReadRequest (s : Socket) : Option Ended :=
  if s.istate ≠ .empty then some (some (.error .outOfOrder), s)
  else scheduleOnAsyncReadMessage .ready { s with request := {}, writerHelper := .finished }

def asyncReadSome (s : Socket) : Option Ended :=
  if s.istate ≠ .messageReady then some (some (.error .outOfOrder), s)
  else scheduleOnAsyncReadMessage .data s

def asyncReadTrailers (s : Socket) : Option Ended :=
  if s.istate ≠ .bodyReady then some (some (.error .outOfOrder), s)
  else scheduleOnAsyncReadMessage .ends s

/-- `is_open`. -/
def isOpenNow (s : Socket) : Bool := s.channel.isOpen && s.isOpen

end Socket

end Http

end Wye
