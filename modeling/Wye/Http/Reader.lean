import Wye.Http.Syntax

/-!
# The reader of requests

`boost::http::reader::request`: a buffer of bytes that have not been read, the token that was found
last in it, and what is expected behind that token. `next` goes to the next token. It is called again
when the token is not complete, with a longer buffer that starts with the same bytes.

`none` stands for what the code takes for unreachable and for a look behind the end of the buffer.
-/

namespace Wye

open Text

namespace Http

/-- `token::code::value`. -/
inductive Code where
  | errorInsufficientData
  | errorSetMethod
  | errorUseAnotherConnection
  | errorInvalidData
  | errorNoHost
  | errorInvalidContentLength
  | errorContentLengthOverflow
  | errorInvalidTransferEncoding
  | errorChunkSizeOverflow
  | skip
  | method
  | requestTarget
  | version
  | statusCode
  | reasonPhrase
  | fieldName
  | fieldValue
  | endOfHeaders
  | bodyChunk
  | endOfBody
  | endOfMessage
  deriving DecidableEq, Repr

/-- `request::State`. -/
inductive State where
  | errored
  | expectMethod
  | expectSpAfterMethod
  | expectRequestTarget
  | expectStaticStrAfterTarget
  | expectVersion
  | expectCrlfAfterVersion
  | expectFieldName
  | expectColon
  | expectOwsAfterColon
  | expectFieldValue
  | expectCrlfAfterFieldValue
  | expectCrlfAfterHeaders
  | expectBody
  | expectEndOfBody
  | expectEndOfMessage
  | expectChunkSize
  | expectChunkExt
  | expextCrlfAfterChunkExt
  | expectChunkData
  | expectCrlfAfterChunkData
  | expectTrailerName
  | expectTrailerColon
  | expectOwsAfterTrailerColon
  | expectTrailerValue
  | expectCrlfAfterTrailerValue
  | expectCrlfAfterTrailers
  deriving DecidableEq, Repr

/-- The version of the request, and whether its host has been read. -/
inductive Version where
  | http10
  | hostNotRead
  | hostRead
  deriving DecidableEq, Repr

/-- `body_type`: what is known about the body, or which field it is about to be read from. -/
inductive BodyType where
  | noBody
  | contentLengthRead
  | chunkedEncodingRead
  | randomEncodingRead
  | readingContentLength
  | readingEncoding
  deriving DecidableEq, Repr

/-- What the reader knows of the request. `bodySize` is any number until a size has been read. -/
structure Control where
  state : State
  version : Version
  bodyType : BodyType
  bodySize : Nat
  deriving DecidableEq, Repr

/-- `request`. The token starts at `idx`; while it is not complete, `tokenSize` characters of it have
been looked at. -/
structure Reader extends Control where
  code : Code
  idx : Nat
  tokenSize : Nat
  ibuffer : Str
  deriving DecidableEq, Repr

namespace Reader

/-- `request::reset`. -/
def reset (r : Reader) : Reader where
  state := .expectMethod
  version := r.version
  bodyType := .noBody
  bodySize := r.bodySize
  code := .errorInsufficientData
  idx := 0
  tokenSize := 0
  ibuffer := []

/-- `request::set_buffer`. -/
def setBuffer (r : Reader) (ibuffer : Str) : Reader := { r with ibuffer, idx := 0 }

/-- The buffer from the current token on. -/
def rest (r : Reader) : Str := r.ibuffer.drop r.idx

/-- The text of the current token. -/
def value (r : Reader) : Str := r.rest.take r.tokenSize

def fail (r : Reader) (code : Code) : Reader := { r with state := .errored, code }

def token (r : Reader) (state : State) (code : Code) (n : Nat) : Reader :=
  { r with state, code, tokenSize := n }

/-- `EXPECT_METHOD` and `EXPECT_REQUEST_TARGET`: characters of a kind, at least one, and one that is
not of that kind behind them. -/
def readRun (p : Char → Bool) (state : State) (code : Code) (r : Reader) : Reader :=
  let i := r.idx + r.tokenSize + matchLen p (r.ibuffer.drop (r.idx + r.tokenSize))
  if i ≠ r.ibuffer.length then
    if i ≠ r.idx then r.token state code (i - r.idx) else r.fail .errorInvalidData
  else { r with tokenSize := i - r.idx }

/-- `skip` in `EXPECT_STATIC_STR_AFTER_TARGET`. -/
def staticStr : Str := " HTTP/1.".toList

/-- `EXPECT_STATIC_STR_AFTER_TARGET`. -/
def readStaticStr (r : Reader) : Reader :=
  let got := r.rest.take staticStr.length
  if !(got.drop r.tokenSize).isPrefixOf (staticStr.drop r.tokenSize) then r.fail .errorInvalidData
  else if got.length = staticStr.length then r.token .expectVersion .skip got.length
  else { r with tokenSize := got.length }

/-- `EXPECT_VERSION`. -/
def readVersion (r : Reader) (c : Char) : Reader :=
  if isDigit c then
    { r.token .expectCrlfAfterVersion .version 1 with
      version := if c.toNat - 0x30 = 0 then .http10 else .hostNotRead }
  else r.fail .errorInvalidData

/-- The states that a `liberal_crlf` ends. -/
def readLiberalCrlf (state : State) (r : Reader) : Reader :=
  match liberalCrlf r.rest with
  | .crlf => r.token state .skip 2
  | .lf => r.token state .skip 1
  | .insufficientData => r
  | .invalidData => r.fail .errorInvalidData

/-- The states that a `strict_crlf` ends. -/
def readStrictCrlf (state : State) (code : Code) (r : Reader) : Reader :=
  if r.rest.length < 2 then r
  else if strictCrlf r.rest = 0 then r.fail .errorInvalidData
  else r.token state code (strictCrlf r.rest)

/-- What the name of a field says about the version and the body. -/
def knowName (name : Str) (version : Version) (bodyType : BodyType) :
    Option (Except Code (Version × BodyType)) :=
  if iequals name "Host".toList then
    match version with
    | .http10 => some (.ok (version, bodyType))
    | .hostNotRead => some (.ok (.hostRead, bodyType))
    | .hostRead => some (.error .errorNoHost)
  else if iequals name "Transfer-Encoding".toList then
    match bodyType with
    | .contentLengthRead | .noBody | .randomEncodingRead => some (.ok (version, .readingEncoding))
    | .chunkedEncodingRead => some (.error .errorInvalidTransferEncoding)
    | .readingContentLength | .readingEncoding => none
  else if iequals name "Content-Length".toList then
    match bodyType with
    | .noBody => some (.ok (version, .readingContentLength))
    | .contentLengthRead => some (.error .errorInvalidContentLength)
    | .chunkedEncodingRead | .randomEncodingRead => some (.ok (version, bodyType))
    | .readingContentLength | .readingEncoding => none
  else some (.ok (version, bodyType))

/-- `EXPECT_FIELD_NAME` with a name at the front of the buffer. -/
def readFieldName (r : Reader) (nmatched : Nat) : Option Reader :=
  if nmatched = r.rest.length then some r
  else
    let r := r.token .expectColon .fieldName nmatched
    match knowName r.value r.version r.bodyType with
    | none => none
    | some (.error code) => some (r.fail code)
    | some (.ok (version, bodyType)) => some { r with version, bodyType }

/-- `EXPECT_COLON` and `EXPECT_TRAILER_COLON`: the colon and the white space behind it. -/
def readColon (ows value : State) (r : Reader) (c : Char) : Reader :=
  if c ≠ ':' then r.fail .errorInvalidData
  else
    let n := 1 + matchLen isOws r.rest.tail
    r.token (if n = r.rest.length then ows else value) .skip n

/-- What the value of a field says about the body: an error, or what is known now. -/
def knowValue (value : Str) (bodyType : BodyType) (bodySize : Nat) :
    Except (Code × BodyType × Nat) (BodyType × Nat) :=
  match bodyType with
  | .readingContentLength =>
    match contentLength value bodySize with
    | (.invalid, n) => .error (.errorInvalidContentLength, .contentLengthRead, n)
    | (.overflow, n) => .error (.errorContentLengthOverflow, .contentLengthRead, n)
    | (.ok, n) => .ok (.contentLengthRead, n)
  | .readingEncoding =>
    match decodeTransferEncoding value with
    | .chunkedInvalid => .error (.errorInvalidTransferEncoding, bodyType, bodySize)
    | .chunkedNotFound => .ok (.randomEncodingRead, bodySize)
    | .chunkedAtEnd => .ok (.chunkedEncodingRead, bodySize)
  | _ => .ok (bodyType, bodySize)

/-- `EXPECT_FIELD_VALUE`. -/
def readFieldValue (r : Reader) : Reader :=
  let nmatched := matchLen isFieldValueChar r.rest
  if nmatched = r.rest.length then r
  else
    let r := r.token .expectCrlfAfterFieldValue .fieldValue nmatched
    match knowValue (decodeFieldValue r.value) r.bodyType r.bodySize with
    | .error (code, bodyType, bodySize) => { r with bodyType, bodySize }.fail code
    | .ok (bodyType, bodySize) => { r with bodyType, bodySize }

/-- `EXPECT_TRAILER_VALUE`. -/
def readTrailerValue (r : Reader) : Reader :=
  let nmatched := matchLen isFieldValueChar r.rest
  if nmatched = r.rest.length then r
  else r.token .expectCrlfAfterTrailerValue .fieldValue nmatched

/-- The end of the headers, which is `n` characters long. -/
def readEndOfHeaders (r : Reader) (n : Nat) : Option Reader :=
  let r := { r with tokenSize := n }
  if r.version = .hostNotRead then some (r.fail .errorNoHost)
  else
    match r.bodyType with
    | .randomEncodingRead => some (r.fail .errorInvalidTransferEncoding)
    | .noBody => some (r.token .expectEndOfBody .endOfHeaders n)
    | .chunkedEncodingRead => some (r.token .expectChunkSize .endOfHeaders n)
    | .contentLengthRead =>
      some (r.token (if r.bodySize = 0 then .expectEndOfBody else .expectBody) .endOfHeaders n)
    | .readingContentLength | .readingEncoding => none

/-- `EXPECT_CRLF_AFTER_HEADERS`. -/
def readCrlfAfterHeaders (r : Reader) : Option Reader :=
  match liberalCrlf r.rest with
  | .crlf => r.readEndOfHeaders 2
  | .lf => r.readEndOfHeaders 1
  | .insufficientData => some r
  | .invalidData => some (r.fail .errorInvalidData)

/-- `EXPECT_BODY` and `EXPECT_CHUNK_DATA`: as much of the body as there is. -/
def readBody (behind : State) (r : Reader) : Reader :=
  let n := min r.rest.length r.bodySize
  { r.token (if r.bodySize - n = 0 then behind else r.state) .bodyChunk n with
    bodySize := r.bodySize - n }

/-- `EXPECT_CHUNK_SIZE`. -/
def readChunkSize (r : Reader) : Reader :=
  let nmatched := matchLen isHexdigit r.rest
  if nmatched = 0 then r.fail .errorInvalidData
  else if nmatched = r.rest.length then r
  else
    match chunkSize (r.rest.take nmatched) r.bodySize with
    | (.invalid, n) => { r with bodySize := n }.fail .errorInvalidData
    | (.overflow, n) => { r with bodySize := n }.fail .errorChunkSizeOverflow
    | (.ok, n) => { r with bodySize := n }.token .expectChunkExt .skip nmatched

/-- `EXPEXT_CRLF_AFTER_CHUNK_EXT`. -/
def readCrlfAfterChunkExt (r : Reader) : Reader :=
  if r.bodySize ≠ 0 then r.readStrictCrlf .expectChunkData .skip
  else r.readStrictCrlf .expectTrailerName .endOfBody

/-- `EXPECT_CRLF_AFTER_TRAILERS`. -/
def readCrlfAfterTrailers (r : Reader) : Reader :=
  let r' := r.readStrictCrlf .expectMethod .endOfMessage
  if r'.code = .endOfMessage then { r' with bodyType := .noBody } else r'

/-- What `next` does from the switch on, where `again` is its call to itself. -/
def switch (again : Reader → Option Reader) (r : Reader) : Option Reader :=
  match r.state, r.rest with
  | _, [] => none
  | .expectMethod, _ => some (r.readRun isTchar .expectSpAfterMethod .method)
  | .expectSpAfterMethod, c :: _ =>
    some (if isSp c then r.token .expectRequestTarget .skip 1 else r.fail .errorInvalidData)
  | .expectRequestTarget, _ =>
    some (r.readRun isRequestTargetChar .expectStaticStrAfterTarget .requestTarget)
  | .expectStaticStrAfterTarget, _ => some r.readStaticStr
  | .expectVersion, c :: _ => some (r.readVersion c)
  | .expectCrlfAfterVersion, _ => some (r.readLiberalCrlf .expectFieldName)
  | .expectFieldName, rest =>
    if matchLen isTchar rest = 0 then again { r with state := .expectCrlfAfterHeaders }
    else r.readFieldName (matchLen isTchar rest)
  | .expectColon, c :: _ => some (r.readColon .expectOwsAfterColon .expectFieldValue c)
  | .expectOwsAfterColon, rest =>
    if matchLen isOws rest = 0 then again { r with state := .expectFieldValue }
    else some (r.token .expectOwsAfterColon .skip (matchLen isOws rest))
  | .expectFieldValue, _ => some r.readFieldValue
  | .expectCrlfAfterFieldValue, _ => some (r.readLiberalCrlf .expectFieldName)
  | .expectCrlfAfterHeaders, _ => r.readCrlfAfterHeaders
  | .expectBody, _ => some (r.readBody .expectEndOfBody)
  | .expectEndOfBody, _ | .expectEndOfMessage, _ | .errored, _ => none
  | .expectChunkSize, _ => some r.readChunkSize
  | .expectChunkExt, _ =>
    let i := r.idx + r.tokenSize + matchLen isChunkExtChar (r.ibuffer.drop (r.idx + r.tokenSize))
    match r.ibuffer.drop i with
    | [] => some { r with tokenSize := i - r.idx }
    | c :: _ =>
      if c ≠ '\r' then some (r.fail .errorInvalidData)
      else if i - r.idx = 0 then
        again { r with state := .expextCrlfAfterChunkExt, tokenSize := i - r.idx }
      else some (r.token .expextCrlfAfterChunkExt .skip (i - r.idx))
  | .expextCrlfAfterChunkExt, _ => some r.readCrlfAfterChunkExt
  | .expectChunkData, _ => some (r.readBody .expectCrlfAfterChunkData)
  | .expectCrlfAfterChunkData, _ => some (r.readStrictCrlf .expectChunkSize .skip)
  | .expectTrailerName, rest =>
    if matchLen isTchar rest = 0 then again { r with state := .expectCrlfAfterTrailers }
    else if matchLen isTchar rest = rest.length then some r
    else some (r.token .expectTrailerColon .fieldName (matchLen isTchar rest))
  | .expectTrailerColon, c :: _ =>
    some (r.readColon .expectOwsAfterTrailerColon .expectTrailerValue c)
  | .expectOwsAfterTrailerColon, rest =>
    if matchLen isOws rest = 0 then again { r with state := .expectTrailerValue }
    else some (r.token .expectOwsAfterTrailerColon .skip (matchLen isOws rest))
  | .expectTrailerValue, _ => some r.readTrailerValue
  | .expectCrlfAfterTrailerValue, _ => some (r.readStrictCrlf .expectTrailerName .skip)
  | .expectCrlfAfterTrailers, _ => some r.readCrlfAfterTrailers

/-- Behind the current token, with the next one to be read. -/
def consume (r : Reader) : Reader :=
  if r.code ≠ .errorInsufficientData then
    { r with idx := r.idx + r.tokenSize, tokenSize := 0, code := .errorInsufficientData }
  else r

/-- The body of `next`, where `again` is its call to itself. -/
def step (again : Reader → Option Reader) (r : Reader) : Option Reader :=
  match r.state with
  | .errored => some r
  | .expectEndOfBody => some { r with
      state := .expectEndOfMessage, code := .endOfBody, idx := r.idx + r.tokenSize, tokenSize := 0 }
  | .expectEndOfMessage => some { r with
      bodyType := .noBody, state := .expectMethod, code := .endOfMessage,
      idx := r.idx + r.tokenSize, tokenSize := 0 }
  | _ => if r.consume.idx = r.consume.ibuffer.length then some r.consume else switch again r.consume

/-- `request::next`. It calls itself once at most (`next_spec`). -/
def next : Reader → Option Reader := step (step fun _ => none)

end Reader

end Http

end Wye
