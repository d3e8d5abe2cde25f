import Wye.Connection
import Wye.Http.Next

/-!
# The order of the tokens

What `read_state` shows is a matter of where the reader is in a request (`State.phase`), and so is
whether the name of a field has been read without its value. Each token moves both in one way
(`Moves.leads`), whatever is read.
-/

namespace Wye

open Text Incremental Transition

namespace Http

/-- The `read_state` that belongs to a state of the reader. -/
def State.phase : State → ReadState
  | .expectBody | .expectEndOfBody | .expectChunkSize | .expectChunkExt | .expextCrlfAfterChunkExt
  | .expectChunkData | .expectCrlfAfterChunkData => .messageReady
  | .expectEndOfMessage | .expectTrailerName | .expectTrailerColon | .expectOwsAfterTrailerColon
  | .expectTrailerValue | .expectCrlfAfterTrailerValue | .expectCrlfAfterTrailers => .bodyReady
  | _ => .empty

/-- Whether the name of a field has been read, and not its value. -/
def State.named : State → Bool
  | .expectColon | .expectOwsAfterColon | .expectFieldValue | .expectTrailerColon
  | .expectOwsAfterTrailerColon | .expectTrailerValue => true
  | _ => false

/-- Where a token leads, from where it may come: the start line and fields, the body, and fields
again. -/
def Code.phase : Code → ReadState → Option ReadState
  | .method, .empty | .requestTarget, .empty | .version, .empty | .fieldName, .empty
  | .fieldValue, .empty => some .empty
  | .endOfHeaders, .empty | .bodyChunk, .messageReady => some .messageReady
  | .endOfBody, .messageReady | .fieldName, .bodyReady | .fieldValue, .bodyReady => some .bodyReady
  | .endOfMessage, .bodyReady => some .empty
  | .skip, p => some p
  | _, _ => none

/-- Names and values come in turn. -/
def Code.names : Code → Bool → Option Bool
  | .fieldName, false => some true
  | .fieldValue, true => some false
  | .fieldName, true | .fieldValue, false => none
  | _, named => some named

/-- What a token says about the states on its two sides. -/
structure Leads (c : Control) (k : Token) (d : Control) : Prop where
  ok : c.Ok → d.Ok
  expected : d.state ≠ .errored
  phase : k.code.phase c.state.phase = some d.state.phase
  named : k.code.names c.state.named = some d.state.named
  token : k.code.isToken = true

theorem knowValue_known {value : Str} {bodyType bodyType' : BodyType} {bodySize n : Nat}
    (h : Reader.knowValue value bodyType bodySize = .ok (bodyType', n)) :
    bodyType' ≠ .readingContentLength ∧ bodyType' ≠ .readingEncoding := by
  unfold Reader.knowValue at h
  split at h
  · split at h <;> cases h
    simp
  · split at h <;> cases h <;> simp
  · cases h
    exact ⟨‹_›, ‹_›⟩

theorem behindHeaders_ok {c : Control} {state : State} (h : behindHeaders c = .ok state) :
    state.phase = .messageReady ∧ state.named = false ∧ state ≠ .errored ∧
      (state = .expectBody ∨ state = .expectChunkData → 0 < c.bodySize) := by
  unfold behindHeaders at h
  split at h
  · cases h
  · split at h
    · cases h
    · cases h
      simp [State.phase, State.named]
    · cases h
      split
      · simp [State.phase, State.named]
      · exact ⟨rfl, rfl, by simp, fun _ => Nat.pos_of_ne_zero ‹_›⟩
    · cases h
      simp [State.phase, State.named]

section
variable {c d : Control} {k : Token} {rest : Str}

/-- What is being waited for is waited for in a field, and a body that is expected is not empty. -/
theorem Moves.ok (h : Moves c k d rest) (hok : c.Ok) : d.Ok := by
  cases h with
  | fieldValue _ hknow =>
    refine ⟨fun hb => ?_, by simp⟩
    rcases hb with hb | hb
    · exact absurd hb (knowValue_known hknow).1
    · exact absurd hb (knowValue_known hknow).2
  | fieldName | colon | ows | noOws => exact ⟨fun _ => by simp, by simp⟩
  | endOfMessage | endOfTrailers => exact ⟨by simp, by simp⟩
  | endOfHeaders _ hbehind =>
    exact ⟨fun hb => absurd (hok.reading hb) (by simp), (behindHeaders_ok hbehind).2.2.2⟩
  | chunkLine hm => exact ⟨fun hb => absurd (hok.reading hb) (by simp), fun _ => Nat.pos_of_ne_zero hm⟩
  | body | chunkData =>
    refine ⟨fun hb => absurd (hok.reading hb) (by simp), fun hs => ?_⟩
    split at hs
    · simp at hs
    · exact Nat.pos_of_ne_zero ‹_›
  | method | space | target | staticStr | version | lineEnd | noField | fieldEnd | endOfBody | chunkSize
  | chunkExt | lastChunk | chunkEnd | trailerName | noTrailer | trailerColon | trailerOws
  | noTrailerOws | trailerValue | trailerEnd =>
    exact ⟨fun hb => absurd (hok.reading hb) (by simp), by simp⟩

/-- Where a token leads. -/
theorem Moves.leads (h : Moves c k d rest) : Leads c k d := by
  have hok := h.ok
  cases h with
  | endOfHeaders _ hbehind =>
    obtain ⟨hphase, hnamed, hne, -⟩ := behindHeaders_ok hbehind
    exact ⟨hok, hne, by rw [hphase]; rfl, by rw [hnamed]; rfl, rfl⟩
  | @body v b m =>
    by_cases hm : m - 1 = 0
    · exact ⟨hok, by simp [hm], by simp [hm, State.phase, Code.phase], by simp [hm]; rfl, rfl⟩
    · exact ⟨hok, by simp [hm], by simp [hm, State.phase, Code.phase], by simp [hm]; rfl, rfl⟩
  | @chunkData v b m =>
    by_cases hm : m - 1 = 0
    · exact ⟨hok, by simp [hm], by simp [hm, State.phase, Code.phase], by simp [hm]; rfl, rfl⟩
    · exact ⟨hok, by simp [hm], by simp [hm, State.phase, Code.phase], by simp [hm]; rfl, rfl⟩
  | _ => exact ⟨hok, by simp, rfl, rfl, rfl⟩

theorem Moves.of_endOfMessage (h : Moves c k d rest) (hk : k.code = .endOfMessage) :
    d.state = .expectMethod ∧ d.bodyType = .noBody := by
  cases h with
  | endOfMessage | endOfTrailers => exact ⟨rfl, rfl⟩
  | _ => cases hk

end

end Http

end Wye
