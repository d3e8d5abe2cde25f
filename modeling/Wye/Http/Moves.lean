import Wye.Http.Lexer

/-!
# What the reader takes

All steps of `lex`, one for each state or two (`Moves`): what the token is, what is known behind it,
and what of it hangs on the character that comes next. What else holds of the steps is read off here.
-/

namespace Wye

open Text Incremental

namespace Http

def crlf : Str := ['\r', '\n']

/-- A line end as the reader takes it in the headers. -/
def IsEnding (ending : Str) : Prop := ending = crlf ∨ ending = ['\n']

/-- The version that the start line says, before a host has been read. -/
def startVersion (x : Char) : Version := if x.toNat - 0x30 = 0 then .http10 else .hostNotRead

/-- The steps of the reader. The last argument is what comes behind the token. -/
inductive Moves : Control → Token → Control → Str → Prop
  | method {v : Version} {b : BodyType} {m : Nat} {x rest : Str} :
    x ≠ [] → (∀ y ∈ x, isTchar y = true) →
    Moves ⟨.expectMethod, v, b, m⟩ ⟨.method, x⟩ ⟨.expectSpAfterMethod, v, b, m⟩ rest
  | space {v : Version} {b : BodyType} {m : Nat} {rest : Str} :
    Moves ⟨.expectSpAfterMethod, v, b, m⟩ ⟨.skip, [' ']⟩ ⟨.expectRequestTarget, v, b, m⟩ rest
  | target {v : Version} {b : BodyType} {m : Nat} {x rest : Str} :
    x ≠ [] → (∀ y ∈ x, isRequestTargetChar y = true) →
    Moves ⟨.expectRequestTarget, v, b, m⟩ ⟨.requestTarget, x⟩
      ⟨.expectStaticStrAfterTarget, v, b, m⟩ rest
  | staticStr {v : Version} {b : BodyType} {m : Nat} {rest : Str} :
    Moves ⟨.expectStaticStrAfterTarget, v, b, m⟩ ⟨.skip, Reader.staticStr⟩
      ⟨.expectVersion, v, b, m⟩ rest
  | version {v : Version} {b : BodyType} {m : Nat} {x : Char} {rest : Str} : isDigit x = true →
    Moves ⟨.expectVersion, v, b, m⟩ ⟨.version, [x]⟩
      ⟨.expectCrlfAfterVersion, startVersion x, b, m⟩ rest
  | lineEnd {v : Version} {b : BodyType} {m : Nat} {x rest : Str} : IsEnding x →
    Moves ⟨.expectCrlfAfterVersion, v, b, m⟩ ⟨.skip, x⟩ ⟨.expectFieldName, v, b, m⟩ rest
  | fieldName {v v' : Version} {b b' : BodyType} {m : Nat} {x rest : Str} :
    x ≠ [] → (∀ y ∈ x, isTchar y = true) → Reader.knowName x v b = some (.ok (v', b')) →
    Moves ⟨.expectFieldName, v, b, m⟩ ⟨.fieldName, x⟩ ⟨.expectColon, v', b', m⟩ rest
  | noField {v : Version} {b : BodyType} {m : Nat} {rest : Str} :
    Moves ⟨.expectFieldName, v, b, m⟩ ⟨.skip, []⟩ ⟨.expectCrlfAfterHeaders, v, b, m⟩ rest
  | colon {v : Version} {b : BodyType} {m : Nat} {rest : Str} :
    Moves ⟨.expectColon, v, b, m⟩ ⟨.skip, [':']⟩ ⟨.expectOwsAfterColon, v, b, m⟩ rest
  | ows {v : Version} {b : BodyType} {m : Nat} {x : Char} {rest : Str} : isOws x = true →
    Moves ⟨.expectOwsAfterColon, v, b, m⟩ ⟨.skip, [x]⟩ ⟨.expectOwsAfterColon, v, b, m⟩ rest
  | noOws {v : Version} {b : BodyType} {m : Nat} {x : Char} {rest : Str} : isOws x = false →
    Moves ⟨.expectOwsAfterColon, v, b, m⟩ ⟨.skip, []⟩ ⟨.expectFieldValue, v, b, m⟩ (x :: rest)
  | fieldValue {v : Version} {b b' : BodyType} {m m' : Nat} {x rest : Str} :
    (∀ y ∈ x, isFieldValueChar y = true) →
    Reader.knowValue (decodeFieldValue x) b m = .ok (b', m') →
    Moves ⟨.expectFieldValue, v, b, m⟩ ⟨.fieldValue, x⟩ ⟨.expectCrlfAfterFieldValue, v, b', m'⟩ rest
  | fieldEnd {v : Version} {b : BodyType} {m : Nat} {x rest : Str} : IsEnding x →
    Moves ⟨.expectCrlfAfterFieldValue, v, b, m⟩ ⟨.skip, x⟩ ⟨.expectFieldName, v, b, m⟩ rest
  | endOfHeaders {v : Version} {b : BodyType} {m : Nat} {x rest : Str} {state : State} :
    IsEnding x → behindHeaders ⟨.expectCrlfAfterHeaders, v, b, m⟩ = .ok state →
    Moves ⟨.expectCrlfAfterHeaders, v, b, m⟩ ⟨.endOfHeaders, x⟩ ⟨state, v, b, m⟩ rest
  | body {v : Version} {b : BodyType} {m : Nat} {x : Char} {rest : Str} :
    Moves ⟨.expectBody, v, b, m⟩ ⟨.bodyChunk, [x]⟩
      ⟨if m - 1 = 0 then .expectEndOfBody else .expectBody, v, b, m - 1⟩ rest
  | endOfBody {v : Version} {b : BodyType} {m : Nat} {rest : Str} :
    Moves ⟨.expectEndOfBody, v, b, m⟩ ⟨.endOfBody, []⟩ ⟨.expectEndOfMessage, v, b, m⟩ rest
  | endOfMessage {v : Version} {b : BodyType} {m : Nat} {rest : Str} :
    Moves ⟨.expectEndOfMessage, v, b, m⟩ ⟨.endOfMessage, []⟩ ⟨.expectMethod, v, .noBody, m⟩ rest
  | chunkSize {v : Version} {b : BodyType} {m n : Nat} {x : Str} {y : Char} {rest : Str} :
    IsNumber 16 hexDigit x n → isHexdigit y = false →
    Moves ⟨.expectChunkSize, v, b, m⟩ ⟨.skip, x⟩ ⟨.expectChunkExt, v, b, n⟩ (y :: rest)
  | chunkExt {v : Version} {b : BodyType} {m : Nat} {x rest : Str} :
    (∀ y ∈ x, isChunkExtChar y = true) →
    Moves ⟨.expectChunkExt, v, b, m⟩ ⟨.skip, x⟩ ⟨.expextCrlfAfterChunkExt, v, b, m⟩ rest
  | chunkLine {v : Version} {b : BodyType} {m : Nat} {rest : Str} : m ≠ 0 →
    Moves ⟨.expextCrlfAfterChunkExt, v, b, m⟩ ⟨.skip, crlf⟩ ⟨.expectChunkData, v, b, m⟩ rest
  | lastChunk {v : Version} {b : BodyType} {m : Nat} {rest : Str} : m = 0 →
    Moves ⟨.expextCrlfAfterChunkExt, v, b, m⟩ ⟨.endOfBody, crlf⟩ ⟨.expectTrailerName, v, b, m⟩ rest
  | chunkData {v : Version} {b : BodyType} {m : Nat} {x : Char} {rest : Str} :
    Moves ⟨.expectChunkData, v, b, m⟩ ⟨.bodyChunk, [x]⟩
      ⟨if m - 1 = 0 then .expectCrlfAfterChunkData else .expectChunkData, v, b, m - 1⟩ rest
  | chunkEnd {v : Version} {b : BodyType} {m : Nat} {rest : Str} :
    Moves ⟨.expectCrlfAfterChunkData, v, b, m⟩ ⟨.skip, crlf⟩ ⟨.expectChunkSize, v, b, m⟩ rest
  | trailerName {v : Version} {b : BodyType} {m : Nat} {x rest : Str} :
    x ≠ [] → (∀ y ∈ x, isTchar y = true) →
    Moves ⟨.expectTrailerName, v, b, m⟩ ⟨.fieldName, x⟩ ⟨.expectTrailerColon, v, b, m⟩ rest
  | noTrailer {v : Version} {b : BodyType} {m : Nat} {rest : Str} :
    Moves ⟨.expectTrailerName, v, b, m⟩ ⟨.skip, []⟩ ⟨.expectCrlfAfterTrailers, v, b, m⟩ rest
  | trailerColon {v : Version} {b : BodyType} {m : Nat} {rest : Str} :
    Moves ⟨.expectTrailerColon, v, b, m⟩ ⟨.skip, [':']⟩ ⟨.expectOwsAfterTrailerColon, v, b, m⟩ rest
  | trailerOws {v : Version} {b : BodyType} {m : Nat} {x : Char} {rest : Str} : isOws x = true →
    Moves ⟨.expectOwsAfterTrailerColon, v, b, m⟩ ⟨.skip, [x]⟩
      ⟨.expectOwsAfterTrailerColon, v, b, m⟩ rest
  | noTrailerOws {v : Version} {b : BodyType} {m : Nat} {x : Char} {rest : Str} : isOws x = false →
    Moves ⟨.expectOwsAfterTrailerColon, v, b, m⟩ ⟨.skip, []⟩ ⟨.expectTrailerValue, v, b, m⟩ (x :: rest)
  | trailerValue {v : Version} {b : BodyType} {m : Nat} {x rest : Str} :
    (∀ y ∈ x, isFieldValueChar y = true) →
    Moves ⟨.expectTrailerValue, v, b, m⟩ ⟨.fieldValue, x⟩ ⟨.expectCrlfAfterTrailerValue, v, b, m⟩ rest
  | trailerEnd {v : Version} {b : BodyType} {m : Nat} {rest : Str} :
    Moves ⟨.expectCrlfAfterTrailerValue, v, b, m⟩ ⟨.skip, crlf⟩ ⟨.expectTrailerName, v, b, m⟩ rest
  | endOfTrailers {v : Version} {b : BodyType} {m : Nat} {rest : Str} :
    Moves ⟨.expectCrlfAfterTrailers, v, b, m⟩ ⟨.endOfMessage, crlf⟩
      ⟨.expectMethod, v, .noBody, m⟩ rest

/-! ### All that is taken -/

/-- Whatever is taken is a step, and the text of the token is what is taken. -/
def Takes (c : Control) (a : Str) (m : LexMove) : Prop :=
  ∀ k n d, m = .take k n d → k.text = a.take n ∧ Moves c k d (a.drop n)

section
variable {c : Control} {a : Str}

theorem takes_more : Takes c a .more := fun _ _ _ h => by cases h

theorem takes_fail (code : Code) : Takes c a (.fail code) := fun _ _ _ h => by cases h

theorem takes_token {code : Code} {n : Nat} {d : Control} (h : Moves c ⟨code, a.take n⟩ d (a.drop n)) :
    Takes c a (takeToken code n d a) := by
  intro k m e heq
  cases heq
  exact ⟨rfl, h⟩

theorem takes_ite {q : Prop} [Decidable q] {m m' : LexMove} (h : q → Takes c a m)
    (h' : ¬ q → Takes c a m') : Takes c a (if q then m else m') := by
  split
  · exact h ‹_›
  · exact h' ‹_›

theorem takes_char {f : Char → LexMove} (h : ∀ x t, a = x :: t → Takes c a (f x)) :
    Takes c a (lexChar a f) := by
  cases a with
  | nil => exact takes_more
  | cons x t => exact h x t rfl

theorem forall_take_matchLen (p : Char → Bool) (a : Str) : ∀ y ∈ a.take (matchLen p a), p y = true := by
  rw [take_matchLen]
  exact fun y hy => List.mem_takeWhile_imp hy

theorem take_matchLen_ne_nil {p : Char → Bool} {a : Str} (h : matchLen p a ≠ 0) :
    a.take (matchLen p a) ≠ [] := by
  rw [take_matchLen]
  intro hnil
  exact h (by rw [matchLen, hnil]; rfl)

theorem liberalCrlf_ending : ∀ {a : Str},
    (liberalCrlf a = .crlf → a.take 2 = crlf) ∧ (liberalCrlf a = .lf → a.take 1 = ['\n'])
  | [] => ⟨nofun, nofun⟩
  | x :: t => by
    rw [liberalCrlf.eq_def]
    dsimp only
    by_cases hlf : x = '\n'
    · rw [if_pos hlf, hlf]
      exact ⟨nofun, fun _ => rfl⟩
    · rw [if_neg hlf]
      by_cases hcr : x = '\r'
      · rw [if_neg (not_not.mpr hcr), hcr]
        cases t with
        | nil => exact ⟨nofun, nofun⟩
        | cons y t =>
          dsimp only
          by_cases hy : y = '\n'
          · rw [if_pos hy, hy]
            exact ⟨fun _ => rfl, nofun⟩
          · rw [if_neg hy]
            exact ⟨nofun, nofun⟩
      · rw [if_pos hcr]
        exact ⟨nofun, nofun⟩

theorem takes_liberalCrlf {f : Nat → LexMove}
    (h : ∀ n, IsEnding (a.take n) → Takes c a (f n)) : Takes c a (lexLiberalCrlf a f) := by
  unfold lexLiberalCrlf
  split
  · exact h 2 (.inl (liberalCrlf_ending.1 ‹_›))
  · exact h 1 (.inr (liberalCrlf_ending.2 ‹_›))
  · exact takes_more
  · exact takes_fail _

theorem takes_strictCrlf {f : Nat → LexMove} (h : a.take 2 = crlf → Takes c a (f 2)) :
    Takes c a (lexStrictCrlf a f) := by
  unfold lexStrictCrlf
  refine takes_ite (fun _ => takes_more) fun hlen => takes_ite (fun _ => takes_fail _) fun hcrlf => ?_
  rw [strictCrlf, if_neg hlen] at hcrlf ⊢
  split at hcrlf
  · rw [if_pos ‹_›]
    exact h ‹_›
  · exact absurd rfl hcrlf

theorem takes_run {p : Char → Bool} {state : State} {code : Code}
    (h : a.take (matchLen p a) ≠ [] → Moves c ⟨code, a.take (matchLen p a)⟩ { c with state }
      (a.drop (matchLen p a))) : Takes c a (lexRun c a p state code) := by
  unfold lexRun
  exact takes_ite (fun _ => takes_more) fun _ => takes_ite (fun _ => takes_fail _) fun hne =>
    takes_token (h (take_matchLen_ne_nil hne))

theorem takes_name {ends : State} {f : Nat → LexMove} (hend : Moves c ⟨.skip, []⟩ { c with state := ends } a)
    (h : a.take (matchLen isTchar a) ≠ [] → Takes c a (f (matchLen isTchar a))) :
    Takes c a (lexName c a ends f) := by
  unfold lexName
  exact takes_ite (fun _ => takes_more) fun _ => takes_ite
    (fun _ => takes_token (by rwa [List.take_zero, List.drop_zero])) fun hne =>
    takes_ite (fun _ => takes_more) fun _ => h (take_matchLen_ne_nil hne)

theorem takes_value {f : Nat → LexMove} (h : Takes c a (f (matchLen isFieldValueChar a))) :
    Takes c a (lexValue a f) := by
  unfold lexValue
  exact takes_ite (fun _ => takes_more) fun _ => h

end

/-- Each step of `lex` is one of these. -/
theorem lex_takes (c : Control) (a : Str) : Takes c a (lex c a) := by
  obtain ⟨state, v, b, m⟩ := c
  cases state <;> dsimp only [lex]
  case errored => exact takes_more
  case expectMethod => exact takes_run fun hne => .method hne (forall_take_matchLen _ _)
  case expectSpAfterMethod =>
    refine takes_char fun x t ha => takes_ite (fun hx => takes_token ?_) fun _ => takes_fail _
    obtain rfl : x = ' ' := by simpa [isSp] using hx
    rw [ha]
    exact .space
  case expectRequestTarget => exact takes_run fun hne => .target hne (forall_take_matchLen _ _)
  case expectStaticStrAfterTarget =>
    refine takes_ite (fun _ => takes_fail _) fun hfront => takes_ite (fun hlen => takes_token ?_)
      fun _ => takes_more
    have hstatic : a.take Reader.staticStr.length = Reader.staticStr :=
      (List.isPrefixOf_iff_prefix.mp (by simpa using hfront)).eq_of_length hlen
    rw [hlen, hstatic]
    exact .staticStr
  case expectVersion =>
    refine takes_char fun x t ha => takes_ite (fun hx => takes_token ?_) fun _ => takes_fail _
    rw [ha]
    exact .version hx
  case expectCrlfAfterVersion =>
    exact takes_liberalCrlf fun n hn => takes_token (.lineEnd hn)
  case expectCrlfAfterFieldValue =>
    exact takes_liberalCrlf fun n hn => takes_token (.fieldEnd hn)
  case expectFieldName =>
    refine takes_name .noField fun hne => ?_
    unfold lexFieldName
    split
    · exact takes_more
    · exact takes_fail _
    · exact takes_token (.fieldName hne (forall_take_matchLen _ _) ‹_›)
  case expectColon =>
    refine takes_char fun x t ha => takes_ite (fun _ => takes_fail _) fun hx => takes_token ?_
    rw [ha, not_not.mp hx]
    exact .colon
  case expectOwsAfterColon =>
    refine takes_char fun x t ha => takes_ite (fun hx => takes_token ?_) fun hx => takes_token ?_
    · rw [ha]
      exact .ows hx
    · rw [ha]
      exact .noOws (by simpa using hx)
  case expectFieldValue =>
    refine takes_value ?_
    unfold lexFieldValue
    split
    · exact takes_fail _
    · exact takes_token (.fieldValue (forall_take_matchLen _ _) ‹_›)
  case expectCrlfAfterHeaders =>
    refine takes_liberalCrlf fun n hn => ?_
    unfold lexEndOfHeaders
    split
    · exact takes_fail _
    · exact takes_token (.endOfHeaders hn ‹_›)
  case expectBody =>
    refine takes_char fun x t ha => takes_token ?_
    rw [ha]
    exact .body
  case expectEndOfBody => exact takes_token .endOfBody
  case expectEndOfMessage => exact takes_token .endOfMessage
  case expectChunkSize =>
    refine takes_ite (fun _ => takes_more) fun _ => takes_ite (fun _ => takes_fail _) fun _ =>
      takes_ite (fun _ => takes_more) fun hall => ?_
    split
    · exact takes_fail _
    · exact takes_fail _
    · rename_i n hsize
      refine takes_token ?_
      cases hdrop : a.drop (matchLen isHexdigit a) with
      | nil =>
        have hle := List.drop_eq_nil_iff.mp hdrop
        exact absurd (Nat.le_antisymm (matchLen_le _ _) hle) hall
      | cons y t => exact .chunkSize (chunkSize_ok_iff.mp hsize) (not_of_drop_matchLen hdrop)
  case expectChunkExt =>
    unfold lexChunkExt
    split
    · exact takes_more
    · exact takes_ite (fun _ => takes_fail _) fun _ =>
        takes_token (.chunkExt (forall_take_matchLen _ _))
  case expextCrlfAfterChunkExt =>
    refine takes_strictCrlf fun hcrlf => takes_ite (fun hm => takes_token ?_) fun hm => takes_token ?_
    · rw [hcrlf]
      exact .chunkLine hm
    · rw [hcrlf]
      exact .lastChunk (not_not.mp hm)
  case expectChunkData =>
    refine takes_char fun x t ha => takes_token ?_
    rw [ha]
    exact .chunkData
  case expectCrlfAfterChunkData =>
    refine takes_strictCrlf fun hcrlf => takes_token ?_
    rw [hcrlf]
    exact .chunkEnd
  case expectTrailerName =>
    exact takes_name .noTrailer fun hne => takes_token (.trailerName hne (forall_take_matchLen _ _))
  case expectTrailerColon =>
    refine takes_char fun x t ha => takes_ite (fun _ => takes_fail _) fun hx => takes_token ?_
    rw [ha, not_not.mp hx]
    exact .trailerColon
  case expectOwsAfterTrailerColon =>
    refine takes_char fun x t ha => takes_ite (fun hx => takes_token ?_) fun hx => takes_token ?_
    · rw [ha]
      exact .trailerOws hx
    · rw [ha]
      exact .noTrailerOws (by simpa using hx)
  case expectTrailerValue =>
    exact takes_value (takes_token (.trailerValue (forall_take_matchLen _ _)))
  case expectCrlfAfterTrailerValue =>
    refine takes_strictCrlf fun hcrlf => takes_token ?_
    rw [hcrlf]
    exact .trailerEnd
  case expectCrlfAfterTrailers =>
    refine takes_strictCrlf fun hcrlf => takes_token ?_
    rw [hcrlf]
    exact .endOfTrailers

section
variable {c d : Control} {k : Token} {a : Str} {n : Nat}

theorem lex_moves (h : lex c a = .take k n d) : Moves c k d (a.drop n) := (lex_takes c a k n d h).2

theorem lex_text (h : lex c a = .take k n d) : k.text = a.take n := (lex_takes c a k n d h).1

end

/-! ### How long the reader goes on -/

/-- How many decisions that take nothing can follow each other from a state. -/
def State.rank : State → Nat
  | .expectOwsAfterColon | .expectOwsAfterTrailerColon | .expectEndOfBody => 2
  | .expectFieldName | .expectFieldValue | .expectEndOfMessage | .expectChunkExt
  | .expectTrailerName | .expectTrailerValue => 1
  | _ => 0

theorem State.rank_le (s : State) : s.rank ≤ 2 := by
  cases s <;> decide

/-- Where nothing is taken the rank goes down. -/
theorem Moves.rank_lt {c d : Control} {k : Token} {rest : Str} (h : Moves c k d rest) (hk : k.text = []) :
    d.state.rank < c.state.rank := by
  have hending {x : Str} (h : IsEnding x) : x ≠ [] := by
    rcases h with rfl | rfl <;> simp [crlf]
  cases h with
  | method hne | target hne | fieldName hne | trailerName hne => exact absurd hk hne
  | lineEnd hend | fieldEnd hend | endOfHeaders hend => exact absurd hk (hending hend)
  | chunkSize hnumber => exact absurd hk hnumber.1
  | space | staticStr | version | colon | ows | body | chunkLine | lastChunk | chunkData | chunkEnd
  | trailerColon | trailerOws | trailerEnd | endOfTrailers => cases hk
  | noField | noOws | fieldValue | endOfBody | endOfMessage | chunkExt | noTrailer | noTrailerOws
  | trailerValue => exact Nat.lt_add_one _

/-- A bound on the decisions of `lex` on what there is. -/
def lexBudget (c : Control × Str) : Nat := budget (fun c : Control => c.state.rank) 2 c

theorem lexBudget_le (c : Control) (rest : Str) : lexBudget (c, rest) ≤ 3 * rest.length + 2 :=
  Nat.add_le_add_left c.state.rank_le _

theorem run_lexBudget {c d : Control × Str} {ks : List Token} (h : Transition.Run (Step lex) c ks d) :
    lexBudget d + ks.length ≤ lexBudget c :=
  run_budget (fun c => c.state.rank_le) lex_stable.le (fun hmove =>
    (lex_moves hmove).rank_lt (by rw [lex_text hmove, List.take_zero])) h

end Http

end Wye
