import Wye.Http.Reading

/-!
# What the constructors leave open

The constructors of the socket and of its reader do not say what the version and the size of the body
are, nor what the last request said about trailers and keep-alive. A reader comes to no other decision
for it, and what it tells is the same from the version on (`lex_alike`, `Told.Alike.tell`).
-/

namespace Wye

open Text Incremental Transition

namespace Http

/-- In front of the version of a request. -/
def State.early : State → Bool
  | .expectMethod | .expectSpAfterMethod | .expectRequestTarget | .expectStaticStrAfterTarget
  | .expectVersion => true
  | _ => false

/-- Where the reader goes by the size of a body or of a chunk. -/
def State.sized : State → Bool
  | .expectBody | .expectChunkExt | .expextCrlfAfterChunkExt | .expectChunkData => true
  | _ => false

/-- Two readers that know the same, but for what they do not go by. -/
structure Control.Alike (c d : Control) : Prop where
  state : c.state = d.state
  bodyType : c.bodyType = d.bodyType
  version : c.state.early = false → c.version = d.version
  bodySize : c.state.sized = true ∨ c.bodyType = .contentLengthRead → c.bodySize = d.bodySize

/-- Their moves are the same, and lead to such readers again. -/
abbrev MovesAlike (m m' : LexMove) : Prop := Move.Alike Control.Alike m m'

/-! ### The decisions -/

section
variable {c d : Control} {a : Str} {n : Nat} {state : State} {code : Code}

theorem Control.Alike.moved (h : c.Alike d) (hearly : c.state.early = true → state.early = true)
    (hsized : state.sized = true → c.state.sized = true) :
    { c with state }.Alike { d with state } where
  state := rfl
  bodyType := h.bodyType
  version hstate := h.version <| by
    cases hc : c.state.early with
    | false => rfl
    | true => exact absurd (hearly hc) (by simp [hstate])
  bodySize hsize := h.bodySize (hsize.imp_left hsized)

theorem alike_token (h : c.Alike d) : MovesAlike (takeToken code n c a) (takeToken code n d a) :=
  .take h

theorem alike_ite {q : Prop} [Decidable q] {m m' l l' : LexMove} (h : MovesAlike m m')
    (h' : MovesAlike l l') : MovesAlike (if q then m else l) (if q then m' else l') := by
  split
  · exact h
  · exact h'

theorem alike_char {f g : Char → LexMove} (h : ∀ x, MovesAlike (f x) (g x)) :
    MovesAlike (lexChar a f) (lexChar a g) := by
  cases a with
  | nil => exact .more
  | cons x t => exact h x

theorem alike_run {p : Char → Bool} (h : { c with state }.Alike { d with state }) :
    MovesAlike (lexRun c a p state code) (lexRun d a p state code) :=
  alike_ite .more (alike_ite .fail (alike_token h))

theorem alike_liberalCrlf {f g : Nat → LexMove} (h : ∀ n, MovesAlike (f n) (g n)) :
    MovesAlike (lexLiberalCrlf a f) (lexLiberalCrlf a g) := by
  unfold lexLiberalCrlf
  cases liberalCrlf a with
  | crlf => exact h 2
  | lf => exact h 1
  | insufficientData => exact .more
  | invalidData => exact .fail

theorem alike_strictCrlf {f g : Nat → LexMove} (h : ∀ n, MovesAlike (f n) (g n)) :
    MovesAlike (lexStrictCrlf a f) (lexStrictCrlf a g) := alike_ite .more (alike_ite .fail (h _))

theorem alike_name {f g : Nat → LexMove} (hends : { c with state }.Alike { d with state })
    (h : ∀ n, MovesAlike (f n) (g n)) : MovesAlike (lexName c a state f) (lexName d a state g) :=
  alike_ite .more (alike_ite (alike_token hends) (alike_ite .more (h _)))

theorem alike_value {f g : Nat → LexMove} (h : ∀ n, MovesAlike (f n) (g n)) :
    MovesAlike (lexValue a f) (lexValue a g) := alike_ite .more (h _)

theorem alike_staticStr (h : { c with state := .expectVersion }.Alike { d with state := .expectVersion }) :
    MovesAlike (lexStaticStr c a) (lexStaticStr d a) :=
  alike_ite .fail (alike_ite (alike_token h) .more)

theorem alike_colon {x : Char} (h : { c with state }.Alike { d with state }) :
    MovesAlike (lexColon c a state x) (lexColon d a state x) := alike_ite .fail (alike_token h)

theorem alike_ows {x : Char} (h : c.Alike d) (hvalue : { c with state }.Alike { d with state }) :
    MovesAlike (lexOws c a state x) (lexOws d a state x) :=
  alike_ite (alike_token h) (alike_token hvalue)

theorem decodeNumber_target (base : Nat) (digitOf : Char → Option Nat) (view : Str) (out out' : Nat) :
    decodeNumber base digitOf view out = decodeNumber base digitOf view out' ∨
      decodeNumber base digitOf view out = (.invalid, out) ∧
        decodeNumber base digitOf view out' = (.invalid, out') := by
  unfold decodeNumber
  split
  · exact .inr ⟨rfl, rfl⟩
  · exact .inl rfl

theorem knowName_contentLength {x : Str} {v v' : Version} {b b' : BodyType}
    (h : Reader.knowName x v b = some (.ok (v', b'))) (hb : b' = .contentLengthRead) :
    b = .contentLengthRead := by
  subst hb
  unfold Reader.knowName at h
  split at h
  · split at h <;> simp at h <;> exact h.2
  · split at h
    · split at h <;> simp at h
    · split at h
      · split at h <;> simp at h
      · simp at h
        exact h.2

theorem alike_fieldName (h : c.Alike d) (hc : c.state.early = false) (n : Nat) :
    MovesAlike (lexFieldName c a n) (lexFieldName d a n) := by
  rw [lexFieldName, lexFieldName, ← h.version hc, ← h.bodyType]
  cases hknow : Reader.knowName (a.take n) c.version c.bodyType with
  | none => exact .more
  | some r =>
    cases r with
    | error code => exact .fail
    | ok know =>
      refine alike_token ⟨rfl, rfl, fun _ => rfl, fun hsize => h.bodySize (.inr ?_)⟩
      exact knowName_contentLength hknow (hsize.resolve_left (by simp [State.sized]))

theorem alike_fieldValue (h : c.Alike d) (hc : c.state.early = false) (n : Nat) :
    MovesAlike (lexFieldValue c a n) (lexFieldValue d a n) := by
  rw [lexFieldValue, lexFieldValue, ← h.bodyType]
  have hversion := h.version hc
  cases hb : c.bodyType with
  | readingContentLength =>
    rcases decodeNumber_target 10 decimalDigit (decodeFieldValue (a.take n)) c.bodySize d.bodySize with
      hsame | ⟨hout, hout'⟩
    · simp only [Reader.knowValue, contentLength, ← hsame]
      rcases decodeNumber 10 decimalDigit (decodeFieldValue (a.take n)) c.bodySize with ⟨_ | _ | _, m⟩
      · exact .fail
      · exact alike_token ⟨rfl, rfl, fun _ => hversion, fun _ => rfl⟩
      · exact .fail
    · simp only [Reader.knowValue, contentLength, hout, hout']
      exact .fail
  | readingEncoding =>
    simp only [Reader.knowValue]
    cases decodeTransferEncoding (decodeFieldValue (a.take n)) with
    | chunkedInvalid => exact .fail
    | chunkedNotFound | chunkedAtEnd =>
      exact alike_token ⟨rfl, rfl, fun _ => hversion, by simp [State.sized]⟩
  | noBody | chunkedEncodingRead | randomEncodingRead =>
    exact alike_token ⟨rfl, rfl, fun _ => hversion, by simp [State.sized]⟩
  | contentLengthRead =>
    exact alike_token ⟨rfl, rfl, fun _ => hversion, fun _ => h.bodySize (.inr hb)⟩

theorem behindHeaders_sized (h : behindHeaders c = .ok state) (hsized : state.sized = true) :
    c.bodyType = .contentLengthRead := by
  unfold behindHeaders at h
  split at h
  · cases h
  · split at h
    · cases h
    · cases h
      cases hsized
    · assumption
    · cases h
      cases hsized

theorem alike_endOfHeaders (h : c.Alike d) (hc : c.state.early = false) (n : Nat) :
    MovesAlike (lexEndOfHeaders c a n) (lexEndOfHeaders d a n) := by
  have hversion := h.version hc
  have hbehind : behindHeaders c = behindHeaders d := by
    rw [behindHeaders, behindHeaders, ← hversion, ← h.bodyType]
    cases hb : c.bodyType with
    | contentLengthRead => rw [h.bodySize (.inr hb)]
    | _ => rfl
  rw [lexEndOfHeaders, lexEndOfHeaders, ← hbehind]
  cases hstate : behindHeaders c with
  | error code => exact .fail
  | ok state =>
    refine alike_token ⟨rfl, h.bodyType, fun _ => hversion, fun hsize => h.bodySize (.inr ?_)⟩
    exact hsize.elim (behindHeaders_sized hstate) id

theorem alike_body (h : c.Alike d) (hc : c.state.early = false) (hsized : c.state.sized = true)
    (behind : State) : MovesAlike (lexBody c a behind) (lexBody d a behind) := by
  rw [lexBody, lexBody, ← h.bodySize (.inl hsized), ← h.state]
  exact alike_token ⟨rfl, h.bodyType, fun _ => h.version hc, fun _ => rfl⟩

theorem alike_chunkSize (h : c.Alike d) (hc : c.state.early = false) :
    MovesAlike (lexChunkSize c a) (lexChunkSize d a) := by
  refine alike_ite .more (alike_ite .fail (alike_ite .more ?_))
  rcases decodeNumber_target 16 hexDigit (a.take (matchLen isHexdigit a)) c.bodySize d.bodySize with
    hsame | ⟨hout, hout'⟩
  · simp only [chunkSize, ← hsame]
    rcases decodeNumber 16 hexDigit (a.take (matchLen isHexdigit a)) c.bodySize with ⟨_ | _ | _, m⟩
    · exact .fail
    · exact alike_token ⟨rfl, h.bodyType, fun _ => h.version hc, fun _ => rfl⟩
    · exact .fail
  · simp only [chunkSize, hout, hout']
    exact .fail

theorem alike_chunkExt (h : { c with state := .expextCrlfAfterChunkExt }.Alike
      { d with state := .expextCrlfAfterChunkExt }) : MovesAlike (lexChunkExt c a) (lexChunkExt d a) := by
  unfold lexChunkExt
  cases a.drop (matchLen isChunkExtChar a) with
  | nil => exact .more
  | cons x t => exact alike_ite .fail (alike_token h)

theorem alike_crlfAfterChunkExt (h : c.Alike d) (hc : c.state.early = false)
    (hsized : c.state.sized = true) (n : Nat) :
    MovesAlike (lexCrlfAfterChunkExt c a n) (lexCrlfAfterChunkExt d a n) := by
  have hsize := h.bodySize (.inl hsized)
  have hversion := h.version hc
  rw [lexCrlfAfterChunkExt, lexCrlfAfterChunkExt, ← hsize]
  exact alike_ite (alike_token ⟨rfl, h.bodyType, fun _ => hversion, fun _ => hsize⟩)
    (alike_token ⟨rfl, h.bodyType, fun _ => hversion, fun _ => rfl⟩)

end

/-- Two readers that know the same, but for what they do not go by, decide the same. -/
theorem lex_alike {c d : Control} (h : c.Alike d) (a : Str) : MovesAlike (lex c a) (lex d a) := by
  obtain ⟨state, v, b, m⟩ := c
  obtain ⟨_, v', b', m'⟩ := d
  obtain ⟨rfl, rfl⟩ : state = _ ∧ b = b' := ⟨h.state, h.bodyType⟩
  have hto {state' : State} (hearly : state.early = true → state'.early = true)
      (hsized : state'.sized = true → state.sized = true) :
      Control.Alike ⟨state', v, b, m⟩ ⟨state', v', b, m'⟩ := h.moved hearly hsized
  cases state <;> dsimp only [lex]
  case errored => exact .more
  case expectMethod => exact alike_run (hto id nofun)
  case expectSpAfterMethod => exact alike_char fun x => alike_ite (alike_token (hto id nofun)) .fail
  case expectRequestTarget => exact alike_run (hto id nofun)
  case expectStaticStrAfterTarget => exact alike_staticStr (hto id nofun)
  case expectVersion =>
    refine alike_char fun x => alike_ite (alike_token ⟨rfl, rfl, fun _ => rfl, fun hsize => ?_⟩) .fail
    exact h.bodySize (hsize.imp_left nofun)
  case expectCrlfAfterVersion | expectCrlfAfterFieldValue =>
    exact alike_liberalCrlf fun n => alike_token (hto nofun nofun)
  case expectFieldName => exact alike_name (hto nofun nofun) (alike_fieldName h rfl)
  case expectColon | expectTrailerColon => exact alike_char fun x => alike_colon (hto nofun nofun)
  case expectOwsAfterColon | expectOwsAfterTrailerColon =>
    exact alike_char fun x => alike_ows h (hto nofun nofun)
  case expectFieldValue => exact alike_value (alike_fieldValue h rfl)
  case expectCrlfAfterHeaders => exact alike_liberalCrlf (alike_endOfHeaders h rfl)
  case expectBody | expectChunkData => exact alike_char fun x => alike_body h rfl rfl _
  case expectEndOfBody => exact alike_token (hto nofun nofun)
  case expectEndOfMessage => exact alike_token ⟨rfl, rfl, nofun, fun hsize => hsize.elim nofun nofun⟩
  case expectChunkSize => exact alike_chunkSize h rfl
  case expectChunkExt => exact alike_chunkExt (hto nofun id)
  case expextCrlfAfterChunkExt => exact alike_strictCrlf (alike_crlfAfterChunkExt h rfl rfl)
  case expectCrlfAfterChunkData => exact alike_strictCrlf fun n => alike_token (hto nofun nofun)
  case expectTrailerName => exact alike_name (hto nofun nofun) fun n => alike_token (hto nofun nofun)
  case expectTrailerValue => exact alike_value fun n => alike_token (hto nofun nofun)
  case expectCrlfAfterTrailerValue => exact alike_strictCrlf fun n => alike_token (hto nofun nofun)
  case expectCrlfAfterTrailers =>
    exact alike_strictCrlf fun n => alike_token ⟨rfl, rfl, nofun, fun hsize => hsize.elim nofun nofun⟩

/-! ### What is told -/

/-- What has been told is the same, but for what the start line has not said yet. -/
structure Told.Alike (state : State) (x y : Told) : Prop where
  same : y = ({ x.1 with
    useTrailers := y.1.useTrailers, modernHttp := y.1.modernHttp, keepAlive := y.1.keepAlive
    connectRequest := y.1.connectRequest }, x.2)
  method : state ≠ .expectMethod →
    y.1.useTrailers = x.1.useTrailers ∧ y.1.connectRequest = x.1.connectRequest
  version : state.early = false → y.1.modernHttp = x.1.modernHttp ∧ y.1.keepAlive = x.1.keepAlive

theorem Told.Alike.refl (state : State) (x : Told) : Told.Alike state x x :=
  ⟨rfl, fun _ => ⟨rfl, rfl⟩, fun _ => ⟨rfl, rfl⟩⟩

theorem Told.Alike.eq {state : State} {x y : Told} (h : Told.Alike state x y)
    (hstate : state.early = false) : x = y := by
  have hne : state ≠ .expectMethod := by
    rintro rfl
    cases hstate
  obtain ⟨huse, hconnect⟩ := h.method hne
  obtain ⟨hmodern, hkeep⟩ := h.version hstate
  rw [h.same, huse, hconnect, hmodern, hkeep]

/-- A token tells the same to both. -/
theorem Told.Alike.tell {c d : Control} {k : Token} {rest : Str} {x y : Told}
    (h : Told.Alike c.state x y) (hmove : Moves c k d rest) :
    Told.Alike d.state (Http.tell x k) (Http.tell y k) := by
  cases hearly : c.state.early with
  | false =>
    rw [h.eq hearly]
    exact .refl _ _
  | true =>
    obtain ⟨⟨i, u, m, k', w, r, request⟩, name⟩ := x
    obtain ⟨⟨i', u', m', k'', w', r', request'⟩, name'⟩ := y
    obtain ⟨hsame, hmethod, -⟩ := h
    cases hsame
    cases hmove with
    | method => exact ⟨rfl, fun _ => ⟨rfl, rfl⟩, nofun⟩
    | space | target | staticStr => exact ⟨rfl, fun _ => hmethod nofun, nofun⟩
    | version => exact ⟨rfl, fun _ => hmethod nofun, fun _ => ⟨rfl, rfl⟩⟩
    | _ => cases hearly

end Http

end Wye
