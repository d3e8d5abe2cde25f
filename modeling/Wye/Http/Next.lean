import Wye.Http.Moves

/-!
# What `next` does

`next` reads what `lex` reads: between a reader and the part of its buffer that it has not read
(`Reader.At`), each call is a run of `lex` (`next_spec`). Of a token that is not complete the reader
keeps how much it has looked at; `Seen` says what that much is.

White space and a body come out of `lex` in smaller tokens than out of `next`, and `lex` has empty
tokens that `next` has not; the `pieces` of what is read are the same.
-/

namespace Wye

open Text Incremental Transition

namespace Http

/-- The codes of tokens. -/
def Code.isToken : Code → Bool
  | .skip | .method | .requestTarget | .version | .fieldName | .fieldValue | .endOfHeaders
  | .bodyChunk | .endOfBody | .endOfMessage => true
  | _ => false

/-- The codes of what cannot be read. -/
def Code.isFailure : Code → Bool
  | .errorInvalidData | .errorNoHost | .errorInvalidContentLength | .errorContentLengthOverflow
  | .errorInvalidTransferEncoding | .errorChunkSizeOverflow => true
  | _ => false

/-- What a token amounts to: nothing when it is skipped, its characters when it is a part of the
body. -/
def Token.pieces (k : Token) : List Token :=
  match k.code with
  | .skip => []
  | .bodyChunk => k.text.map fun x => ⟨.bodyChunk, [x]⟩
  | _ => [k]

def pieces (ks : List Token) : List Token := ks.flatMap Token.pieces

@[simp] theorem pieces_nil : pieces [] = [] := rfl

@[simp] theorem pieces_append (ks ks' : List Token) : pieces (ks ++ ks') = pieces ks ++ pieces ks' :=
  List.flatMap_append

theorem pieces_cons (k : Token) (ks : List Token) : pieces (k :: ks) = k.pieces ++ pieces ks := rfl

@[simp] theorem pieces_skip (text : Str) : pieces [⟨.skip, text⟩] = [] := rfl

theorem pieces_of_skip {ks : List Token} (h : ∀ k ∈ ks, k.code = .skip) : pieces ks = [] := by
  refine List.flatMap_eq_nil_iff.mpr fun k hk => ?_
  rw [Token.pieces, h k hk]

@[simp] theorem pieces_chunk (text : Str) :
    pieces [⟨.bodyChunk, text⟩] = text.map fun x => ⟨.bodyChunk, [x]⟩ := by
  simp [pieces, Token.pieces]

/-- What the beginning of a token is that has been looked at. -/
def Seen (state : State) (t : Str) : Prop :=
  match state with
  | .expectMethod => ∀ x ∈ t, isTchar x = true
  | .expectRequestTarget => ∀ x ∈ t, isRequestTargetChar x = true
  | .expectStaticStrAfterTarget => t <+: Reader.staticStr
  | .expectChunkExt => ∀ x ∈ t, isChunkExtChar x = true
  | _ => t = []

theorem seen_nil (state : State) : Seen state [] := by
  cases state <;> simp [Seen]

/-- What the reader has found out about the body agrees with what it expects. -/
structure Control.Ok (c : Control) : Prop where
  reading : c.bodyType = .readingContentLength ∨ c.bodyType = .readingEncoding →
    c.state = .expectColon ∨ c.state = .expectOwsAfterColon ∨ c.state = .expectFieldValue
  body : c.state = .expectBody ∨ c.state = .expectChunkData → 0 < c.bodySize

theorem Control.Ok.moved {c : Control} (hok : c.Ok) {state : State}
    (hread : c.state = .expectColon ∨ c.state = .expectOwsAfterColon ∨ c.state = .expectFieldValue →
      state = .expectFieldValue)
    (hbody : state ≠ .expectBody ∧ state ≠ .expectChunkData) : { c with state }.Ok where
  reading h := .inr (.inr (hread (hok.reading h)))
  body h := by
    rcases h with h | h
    · exact absurd h hbody.1
    · exact absurd h hbody.2

namespace Reader

/-- The reader is about to read `rest`, and knows `c`. -/
structure At (r : Reader) (c : Control) (rest : Str) : Prop where
  control : r.toControl = c
  code : r.code = .errorInsufficientData
  rest_eq : r.rest = rest
  idx : r.idx ≤ r.ibuffer.length
  size : r.tokenSize ≤ rest.length
  seen : Seen c.state (rest.take r.tokenSize)

/-- What one look at the buffer comes to. -/
inductive Did (c : Control) (rest : Str) (r' : Reader) : Prop
  | more : lex c rest = .more → r'.At c rest → Did c rest r'
  | token (ks : List Token) (n : Nat) (d : Control) :
    Run (Step lex) (c, rest) ks (d, rest.drop n) → pieces ks = pieces [⟨r'.code, rest.take n⟩] →
    ks ≠ [] → (∀ k ∈ ks, k.code = r'.code) →
    (r'.code ≠ .skip → r'.code ≠ .bodyChunk → ks = [⟨r'.code, rest.take n⟩]) →
    r'.code.isToken = true → n ≤ rest.length → r'.rest = rest → r'.tokenSize = n →
    r'.consume.At d (rest.drop n) → Did c rest r'
  | fail (e : Code) : lex c rest = .fail e → e.isFailure = true → r'.code = e →
    r'.state = .errored → Did c rest r'

/-- The buffer, and where the reader is in it. -/
def Frame (r r' : Reader) : Prop := r'.ibuffer = r.ibuffer ∧ r'.idx = r.idx

variable {r r' : Reader} {c d : Control} {rest : Str}

theorem consume_of_more (h : r.code = .errorInsufficientData) : r.consume = r := by
  rw [consume, if_neg (by simp [h])]

theorem At.consume_eq (h : r.At c rest) : r.consume = r := consume_of_more h.code

theorem At.idx_length (h : r.At c rest) : r.idx + rest.length = r.ibuffer.length := by
  have hlen := h.idx
  rw [← h.rest_eq, Reader.rest, List.length_drop]
  omega

theorem At.of_seen (h : r.At c rest) {n : Nat} (hn : n ≤ rest.length)
    (hseen : Seen c.state (rest.take n)) : { r with tokenSize := n }.At c rest :=
  ⟨h.control, h.code, h.rest_eq, h.idx, hn, hseen⟩

theorem Did.of_more (h : r.At c rest) (hlex : lex c rest = .more) : Did c rest r := .more hlex h

theorem Did.of_run (h : r.At c rest) {ks : List Token} {code : Code} {n : Nat}
    (hrun : Run (Step lex) (c, rest) ks (d, rest.drop n))
    (hks : pieces ks = pieces [⟨code, rest.take n⟩]) (hne : ks ≠ [])
    (hall : ∀ k ∈ ks, k.code = code)
    (hone : code ≠ .skip → code ≠ .bodyChunk → ks = [⟨code, rest.take n⟩])
    (hcode : code.isToken = true) (hn : n ≤ rest.length) : Did c rest { r with toControl := d, code, tokenSize := n } := by
  have hmore : code ≠ .errorInsufficientData := by
    rintro rfl
    cases hcode
  have hlen := h.idx_length
  refine .token ks n d hrun hks hne hall hone hcode hn h.rest_eq rfl ?_
  rw [consume, if_pos hmore]
  refine ⟨rfl, rfl, ?_, ?_, Nat.zero_le _, ?_⟩
  · rw [← h.rest_eq]
    simp [Reader.rest, List.drop_drop]
  · show r.idx + n ≤ r.ibuffer.length
    omega
  · rw [List.take_zero]
    exact seen_nil _

theorem Did.of_take (h : r.At c rest) {code : Code} {n : Nat}
    (hlex : lex c rest = takeToken code n d rest) (hcode : code.isToken = true)
    (hn : n ≤ rest.length) : Did c rest { r with toControl := d, code, tokenSize := n } :=
  .of_run h (run_take hlex) rfl (by simp) (by simp) (fun _ _ => rfl) hcode hn

theorem run_ne_nil {ks : List Token} {n : Nat} (h : Run (Step lex) (c, rest) ks (d, rest.drop n))
    (hpos : 0 < n) (hn : n ≤ rest.length) : ks ≠ [] := by
  rintro rfl
  have hlen := congrArg (fun x => x.2.length) h.eq_of_nil
  simp only [List.length_drop] at hlen
  omega

theorem token_eq (h : r.At c rest) (state : State) (code : Code) (n : Nat) :
    r.token state code n = { r with toControl := { c with state }, code, tokenSize := n } := by
  rw [← h.control]
  rfl

/-! ### What has been looked at -/

theorem matchLen_eq_add {p : Char → Bool} {a : Str} {k : Nat} (hk : k ≤ a.length)
    (h : ∀ x ∈ a.take k, p x = true) : matchLen p a = k + matchLen p (a.drop k) := by
  have hsplit := @List.takeWhile_append_of_pos _ p _ (a.drop k) h
  rw [List.take_append_drop] at hsplit
  rw [matchLen, hsplit, List.length_append, List.length_take, matchLen]
  omega

theorem At.resume (h : r.At c rest) {p : Char → Bool}
    (hseen : ∀ x ∈ rest.take r.tokenSize, p x = true) :
    r.idx + r.tokenSize + matchLen p (r.ibuffer.drop (r.idx + r.tokenSize)) =
      r.idx + matchLen p rest := by
  rw [matchLen_eq_add h.size hseen, ← h.rest_eq, Reader.rest, List.drop_drop]
  omega

theorem all_of_matchLen {p : Char → Bool} {a : Str} (x : Char) (hx : x ∈ a.take (matchLen p a)) :
    p x = true := by
  rw [take_matchLen] at hx
  exact List.mem_takeWhile_imp hx

theorem readRun_did (h : r.At c rest) {p : Char → Bool} {state : State} {code : Code}
    (hseen : ∀ t, Seen c.state t ↔ ∀ x ∈ t, p x = true)
    (hlex : lex c rest = lexRun c rest p state code) (hcode : code.isToken = true) :
    Did c rest (r.readRun p state code) ∧ Frame r (r.readRun p state code) := by
  have hi := h.resume ((hseen _).mp h.seen)
  have hlen := h.idx_length
  have hle := matchLen_le p rest
  rw [readRun]
  simp only [hi]
  by_cases hall : matchLen p rest = rest.length
  · rw [if_neg (by omega), Nat.add_sub_cancel_left]
    refine ⟨.more (by rw [hlex, lexRun, if_pos hall]) (h.of_seen hle ?_), rfl, rfl⟩
    exact (hseen _).mpr all_of_matchLen
  · rw [if_pos (by omega)]
    by_cases hzero : matchLen p rest = 0
    · rw [if_neg (by omega)]
      exact ⟨.fail .errorInvalidData (by rw [hlex, lexRun, if_neg hall, if_pos hzero]) rfl rfl rfl,
        rfl, rfl⟩
    · rw [if_pos (by omega), Nat.add_sub_cancel_left, token_eq h]
      exact ⟨.of_take h (by rw [hlex, lexRun, if_neg hall, if_neg hzero]) hcode hle, rfl, rfl⟩

theorem readStaticStr_did (h : r.At c rest) (hstate : c.state = .expectStaticStrAfterTarget) :
    Did c rest r.readStaticStr ∧ Frame r r.readStaticStr := by
  have hseen : rest.take r.tokenSize <+: staticStr := by
    have := h.seen
    rwa [hstate] at this
  -- what has been looked at is a part of the string, so only the rest of it is compared
  have hstatic : ((rest.take staticStr.length).drop r.tokenSize).isPrefixOf
      (staticStr.drop r.tokenSize) = (rest.take staticStr.length).isPrefixOf staticStr := by
    rw [Bool.eq_iff_iff, List.isPrefixOf_iff_prefix, List.isPrefixOf_iff_prefix]
    have hsize : r.tokenSize ≤ staticStr.length := by
      have := hseen.length_le
      rw [List.length_take] at this
      have := h.size
      omega
    have htake : (rest.take staticStr.length).take r.tokenSize = staticStr.take r.tokenSize := by
      rw [List.take_take, Nat.min_eq_left hsize, List.prefix_iff_eq_take.mp hseen, List.length_take,
        Nat.min_eq_left h.size]
    constructor
    · intro hdrop
      rw [← List.take_append_drop r.tokenSize (rest.take staticStr.length), htake]
      conv_rhs => rw [← List.take_append_drop r.tokenSize staticStr]
      exact (List.prefix_append_right_inj _).mpr hdrop
    · exact fun hfull => hfull.drop r.tokenSize
  have hlex : lex c rest = lexStaticStr c rest := by simp only [lex, hstate]
  have hle : (rest.take staticStr.length).length ≤ rest.length := List.length_take_le' _ _
  rw [readStaticStr, h.rest_eq]
  simp only [hstatic]
  by_cases hp : (rest.take staticStr.length).isPrefixOf staticStr = true
  · simp only [hp, Bool.not_true, Bool.false_eq_true, if_false]
    by_cases hlen : (rest.take staticStr.length).length = staticStr.length
    · rw [if_pos hlen, token_eq h]
      refine ⟨.of_take h ?_ rfl hle, rfl, rfl⟩
      rw [hlex, lexStaticStr]
      simp only [hp, hlen, Bool.not_true, Bool.false_eq_true, if_false, if_true, skipTo]
    · rw [if_neg hlen]
      refine ⟨.more ?_ (h.of_seen hle ?_), rfl, rfl⟩
      · rw [hlex, lexStaticStr]
        simp only [hp, hlen, Bool.not_true, Bool.false_eq_true, if_false]
      · rw [hstate, ← List.prefix_iff_eq_take.mp (List.take_prefix _ _)]
        exact List.isPrefixOf_iff_prefix.mp hp
  · simp only [hp, Bool.not_false, if_true]
    refine ⟨.fail .errorInvalidData ?_ rfl rfl rfl, rfl, rfl⟩
    rw [hlex, lexStaticStr]
    simp only [hp, Bool.not_false, if_true]

/-! ### One look at the buffer -/

theorem readLiberalCrlf_did (h : r.At c rest) {state : State}
    (hlex : lex c rest = lexLiberalCrlf rest fun n => skipTo c rest n state) :
    Did c rest (r.readLiberalCrlf state) ∧ Frame r (r.readLiberalCrlf state) := by
  rw [readLiberalCrlf, h.rest_eq]
  cases hcrlf : liberalCrlf rest <;> simp only [lexLiberalCrlf, hcrlf] at hlex ⊢
  · rw [token_eq h]
    exact ⟨.of_take h hlex rfl (liberalCrlf_le rest (.inl ⟨hcrlf, rfl⟩)), rfl, rfl⟩
  · rw [token_eq h]
    exact ⟨.of_take h hlex rfl (liberalCrlf_le rest (.inr ⟨hcrlf, rfl⟩)), rfl, rfl⟩
  · exact ⟨.of_more h hlex, rfl, rfl⟩
  · exact ⟨.fail _ hlex rfl rfl rfl, rfl, rfl⟩

theorem readStrictCrlf_did (h : r.At c rest) {state : State} {code : Code}
    (hlex : lex c rest = lexStrictCrlf rest fun n => takeToken code n { c with state } rest)
    (hcode : code.isToken = true) :
    Did c rest (r.readStrictCrlf state code) ∧ Frame r (r.readStrictCrlf state code) := by
  rw [readStrictCrlf, h.rest_eq]
  rw [lexStrictCrlf] at hlex
  by_cases hlen : rest.length < 2
  · rw [if_pos hlen] at hlex ⊢
    exact ⟨.of_more h hlex, rfl, rfl⟩
  · rw [if_neg hlen] at hlex ⊢
    by_cases hzero : strictCrlf rest = 0
    · rw [if_pos hzero] at hlex ⊢
      exact ⟨.fail _ hlex rfl rfl rfl, rfl, rfl⟩
    · rw [if_neg hzero] at hlex ⊢
      rw [token_eq h]
      exact ⟨.of_take h hlex hcode (strictCrlf_le rest), rfl, rfl⟩

theorem readVersion_did (h : r.At c rest) {x : Char} {t : Str} (hrest : rest = x :: t)
    (hlex : lex c rest = lexVersion c rest x) :
    Did c rest (r.readVersion x) ∧ Frame r (r.readVersion x) := by
  rw [readVersion]
  rw [lexVersion] at hlex
  by_cases hx : isDigit x = true
  · rw [if_pos hx] at hlex ⊢
    rw [token_eq h]
    exact ⟨.of_take h hlex rfl (by simp [hrest]), rfl, rfl⟩
  · rw [if_neg hx] at hlex ⊢
    exact ⟨.fail _ hlex rfl rfl rfl, rfl, rfl⟩

theorem run_ows {ows value : State}
    (hlex : ∀ c rest, c.state = ows → lex c rest = lexChar rest (lexOws c rest value))
    {c : Control} (hstate : c.state = ows) (rest : Str) : ∃ ks, (∀ k ∈ ks, k.code = .skip) ∧
      Run (Step lex) (c, rest) ks (c, rest.drop (matchLen isOws rest)) := by
  induction rest with
  | nil => exact ⟨[], by simp, .nil⟩
  | cons x rest ih =>
    by_cases hx : isOws x = true
    · obtain ⟨ks, hks, hrun⟩ := ih
      have hfirst : lex c (x :: rest) = takeToken .skip 1 c (x :: rest) := by
        rw [hlex c _ hstate]
        simp only [lexChar, lexOws, hx, if_true, skipTo]
      refine ⟨⟨.skip, [x]⟩ :: ks, List.forall_mem_cons.mpr ⟨rfl, hks⟩, .cons (.of_take hfirst) ?_⟩
      have hlen : matchLen isOws (x :: rest) = matchLen isOws rest + 1 := by
        rw [matchLen, List.takeWhile_cons_of_pos hx]
        rfl
      rw [hlen]
      exact hrun
    · have hlen : matchLen isOws (x :: rest) = 0 := by
        rw [matchLen, List.takeWhile_cons_of_neg hx]
        rfl
      rw [hlen]
      exact ⟨[], by simp, .nil⟩

theorem readColon_did {x : Char} {t : Str} (h : r.At c (x :: t)) {ows value : State}
    (hlex : lex c (x :: t) = lexColon c (x :: t) ows x)
    (hows : ∀ c rest, c.state = ows → lex c rest = lexChar rest (lexOws c rest value)) :
    Did c (x :: t) (r.readColon ows value x) ∧ Frame r (r.readColon ows value x) := by
  rw [readColon, h.rest_eq]
  rw [lexColon] at hlex
  by_cases hx : x = ':'
  · rw [if_neg (not_not.mpr hx)] at hlex ⊢
    obtain ⟨ks, hks, hrun⟩ := run_ows hows (c := { c with state := ows }) rfl t
    have hcolon : Step lex (c, x :: t) ⟨.skip, [x]⟩ ({ c with state := ows }, t) := .of_take hlex
    have hle := matchLen_le isOws t
    have hdrop : t.drop (matchLen isOws t) = (x :: t).drop (1 + matchLen isOws t) := by
      rw [Nat.add_comm, List.drop_succ_cons]
    refine ⟨?_, rfl, rfl⟩
    change Did c (x :: t) (r.token (if 1 + matchLen isOws t = t.length + 1 then ows else value) .skip
      (1 + matchLen isOws t))
    rw [token_eq h]
    by_cases hall : 1 + matchLen isOws t = t.length + 1
    · rw [if_pos hall]
      rw [hdrop] at hrun
      have hskip : ∀ k ∈ (⟨.skip, [x]⟩ :: ks : List Token), k.code = .skip :=
        List.forall_mem_cons.mpr ⟨rfl, hks⟩
      refine .of_run h (.cons hcolon hrun) (pieces_of_skip hskip) (by simp) hskip nofun rfl ?_
      rw [List.length_cons]
      omega
    · -- a character behind the white space: `lex` finds it with a step that takes nothing
      rw [if_neg hall]
      obtain ⟨y, u, hy⟩ : ∃ y u, t.drop (matchLen isOws t) = y :: u :=
        List.exists_cons_of_ne_nil (by rw [ne_eq, List.drop_eq_nil_iff]; omega)
      have hvalue : Step lex ({ c with state := ows }, t.drop (matchLen isOws t)) ⟨.skip, []⟩
          ({ c with state := value }, t.drop (matchLen isOws t)) := by
        refine ⟨0, { c with state := value }, ?_, rfl⟩
        rw [hows _ _ rfl, hy]
        simp only [lexChar, lexOws, not_of_drop_matchLen hy, Bool.false_eq_true, if_false, skipTo,
          takeToken, List.take_zero]
      have hboth := Run.cons hcolon (Run.snoc hrun hvalue)
      rw [hdrop] at hboth
      have hskip : ∀ k ∈ (⟨.skip, [x]⟩ :: (ks ++ [⟨.skip, []⟩]) : List Token), k.code = .skip := by
        simp only [List.mem_cons, List.mem_append, List.not_mem_nil, or_false]
        rintro k (rfl | hk | rfl)
        · rfl
        · exact hks k hk
        · rfl
      refine .of_run h hboth (pieces_of_skip hskip) (by simp) hskip nofun rfl ?_
      rw [List.length_cons]
      omega
  · rw [if_pos hx] at hlex ⊢
    exact ⟨.fail _ hlex rfl rfl rfl, rfl, rfl⟩

theorem readOws_did (h : r.At c rest) {value : State} (hpos : matchLen isOws rest ≠ 0)
    (hows : ∀ d rest, d.state = c.state → lex d rest = lexChar rest (lexOws d rest value)) :
    Did c rest (r.token c.state .skip (matchLen isOws rest)) ∧
      Frame r (r.token c.state .skip (matchLen isOws rest)) := by
  obtain ⟨ks, hks, hrun⟩ := run_ows hows rfl rest
  rw [token_eq h]
  have hle := matchLen_le isOws rest
  exact ⟨.of_run h hrun (pieces_of_skip hks) (run_ne_nil hrun (Nat.pos_of_ne_zero hpos) hle) hks nofun
    rfl hle, rfl, rfl⟩

theorem knowName_failure {name : Str} {version : Version} {bodyType : BodyType} {e : Code}
    (h : knowName name version bodyType = some (.error e)) : e.isFailure = true := by
  unfold knowName at h
  split at h
  · cases version <;> simp at h
    exact h ▸ rfl
  · split at h
    · cases bodyType <;> simp at h
      exact h ▸ rfl
    · split at h
      · cases bodyType <;> simp at h
        exact h ▸ rfl
      · simp at h

theorem knowName_ne_none {bodyType : BodyType} (h : bodyType ≠ .readingContentLength)
    (h' : bodyType ≠ .readingEncoding) (name : Str) (version : Version) :
    knowName name version bodyType ≠ none := by
  unfold knowName
  split
  · cases version <;> simp
  · split
    · cases bodyType <;> simp_all
    · split
      · cases bodyType <;> simp_all
      · simp

theorem readFieldName_did (h : r.At c rest) (hok : c.Ok) (hstate : c.state = .expectFieldName)
    (hne : rest ≠ []) (hpos : matchLen isTchar rest ≠ 0) :
    ∃ r', r.readFieldName (matchLen isTchar rest) = some r' ∧ Did c rest r' ∧ Frame r r' := by
  have hlex : lex c rest = lexName c rest .expectCrlfAfterHeaders (lexFieldName c rest) := by
    simp only [lex, hstate]
  rw [lexName, if_neg hne, if_neg hpos] at hlex
  rw [readFieldName, h.rest_eq]
  by_cases hall : matchLen isTchar rest = rest.length
  · rw [if_pos hall] at hlex ⊢
    exact ⟨r, rfl, .of_more h hlex, rfl, rfl⟩
  · rw [if_neg hall, lexFieldName] at hlex
    rw [if_neg hall]
    have hvalue : (r.token .expectColon .fieldName (matchLen isTchar rest)).value =
        rest.take (matchLen isTchar rest) := by
      rw [← h.rest_eq]
      rfl
    have hnone : knowName (rest.take (matchLen isTchar rest)) c.version c.bodyType ≠ none := by
      refine knowName_ne_none (fun hread => ?_) (fun hread => ?_) _ _
      · have := hok.reading (.inl hread)
        simp [hstate] at this
      · have := hok.reading (.inr hread)
        simp [hstate] at this
    simp only [hvalue]
    rw [token_eq h]
    dsimp only
    cases hknow : knowName (rest.take (matchLen isTchar rest)) c.version c.bodyType with
    | none => exact absurd hknow hnone
    | some know =>
      rw [hknow] at hlex
      cases know with
      | error e => exact ⟨_, rfl, .fail e hlex (knowName_failure hknow) rfl rfl, rfl, rfl⟩
      | ok know =>
        exact ⟨_, rfl, .of_take h hlex rfl (matchLen_le isTchar rest), rfl, rfl⟩

theorem knowValue_failure {value : Str} {bodyType : BodyType} {bodySize : Nat}
    {e : Code × BodyType × Nat} (h : knowValue value bodyType bodySize = .error e) :
    e.1.isFailure = true := by
  unfold knowValue at h
  split at h
  · split at h
    · cases h
      rfl
    · cases h
      rfl
    · cases h
  · split at h
    · cases h
      rfl
    · cases h
    · cases h
  · cases h

theorem readFieldValue_did (h : r.At c rest) (hstate : c.state = .expectFieldValue) :
    Did c rest r.readFieldValue ∧ Frame r r.readFieldValue := by
  have hlex : lex c rest = lexValue rest (lexFieldValue c rest) := by simp only [lex, hstate]
  rw [lexValue] at hlex
  rw [readFieldValue, h.rest_eq]
  by_cases hall : matchLen isFieldValueChar rest = rest.length
  · rw [if_pos hall] at hlex
    simp only [if_pos hall]
    exact ⟨.of_more h hlex, rfl, rfl⟩
  · rw [if_neg hall, lexFieldValue] at hlex
    simp only [if_neg hall]
    have hvalue : (r.token .expectCrlfAfterFieldValue .fieldValue
        (matchLen isFieldValueChar rest)).value = rest.take (matchLen isFieldValueChar rest) := by
      rw [← h.rest_eq]
      rfl
    rw [hvalue, token_eq h]
    dsimp only
    cases hknow : knowValue (decodeFieldValue (rest.take (matchLen isFieldValueChar rest)))
        c.bodyType c.bodySize with
    | error e =>
      rw [hknow] at hlex
      exact ⟨.fail e.1 hlex (knowValue_failure hknow) rfl rfl, rfl, rfl⟩
    | ok know =>
      rw [hknow] at hlex
      exact ⟨.of_take h hlex rfl (matchLen_le isFieldValueChar rest), rfl, rfl⟩

theorem readTrailerValue_did (h : r.At c rest) (hstate : c.state = .expectTrailerValue) :
    Did c rest r.readTrailerValue ∧ Frame r r.readTrailerValue := by
  have hlex : lex c rest = lexValue rest fun n =>
      takeToken .fieldValue n { c with state := .expectCrlfAfterTrailerValue } rest := by
    simp only [lex, hstate]
  rw [lexValue] at hlex
  rw [readTrailerValue, h.rest_eq]
  by_cases hall : matchLen isFieldValueChar rest = rest.length
  · rw [if_pos hall] at hlex
    simp only [if_pos hall]
    exact ⟨.of_more h hlex, rfl, rfl⟩
  · rw [if_neg hall] at hlex
    simp only [if_neg hall]
    rw [token_eq h]
    exact ⟨.of_take h hlex rfl (matchLen_le isFieldValueChar rest), rfl, rfl⟩

theorem readEndOfHeaders_did (h : r.At c rest) (hok : c.Ok) (hstate : c.state = .expectCrlfAfterHeaders)
    {n : Nat} (hn : n ≤ rest.length) (hlex : lex c rest = lexEndOfHeaders c rest n) :
    ∃ r', r.readEndOfHeaders n = some r' ∧ Did c rest r' ∧ Frame r r' := by
  have hversion : r.version = c.version := by rw [← h.control]
  have htype : r.bodyType = c.bodyType := by rw [← h.control]
  have hsize : r.bodySize = c.bodySize := by rw [← h.control]
  rw [lexEndOfHeaders, behindHeaders] at hlex
  rw [readEndOfHeaders]
  simp only [hversion, htype, hsize]
  by_cases hhost : c.version = .hostNotRead
  · simp only [if_pos hhost] at hlex ⊢
    exact ⟨_, rfl, .fail .errorNoHost hlex rfl rfl rfl, rfl, rfl⟩
  · simp only [if_neg hhost] at hlex ⊢
    cases hbody : c.bodyType <;> simp only [hbody] at hlex ⊢
    case noBody | contentLengthRead | chunkedEncodingRead =>
      refine ⟨_, rfl, ?_, rfl, rfl⟩
      change Did c rest (r.token _ .endOfHeaders n)
      rw [token_eq h]
      exact .of_take h (by rw [hlex, hbody]) rfl hn
    case randomEncodingRead =>
      exact ⟨_, rfl, .fail .errorInvalidTransferEncoding hlex rfl rfl rfl, rfl, rfl⟩
    case readingContentLength =>
      have := hok.reading (.inl hbody)
      simp [hstate] at this
    case readingEncoding =>
      have := hok.reading (.inr hbody)
      simp [hstate] at this

theorem readCrlfAfterHeaders_did (h : r.At c rest) (hok : c.Ok)
    (hstate : c.state = .expectCrlfAfterHeaders) :
    ∃ r', r.readCrlfAfterHeaders = some r' ∧ Did c rest r' ∧ Frame r r' := by
  have hlex : lex c rest = lexLiberalCrlf rest (lexEndOfHeaders c rest) := by
    simp only [lex, hstate]
  rw [readCrlfAfterHeaders, h.rest_eq]
  cases hcrlf : liberalCrlf rest <;> simp only [lexLiberalCrlf, hcrlf] at hlex ⊢
  · exact readEndOfHeaders_did h hok hstate (liberalCrlf_le rest (.inl ⟨hcrlf, rfl⟩)) hlex
  · exact readEndOfHeaders_did h hok hstate (liberalCrlf_le rest (.inr ⟨hcrlf, rfl⟩)) hlex
  · exact ⟨r, rfl, .of_more h hlex, rfl, rfl⟩
  · exact ⟨_, rfl, .fail _ hlex rfl rfl rfl, rfl, rfl⟩

/-- What is left to read of a body when `n` characters of it have been read. -/
def bodyBehind (behind : State) (c : Control) (n : Nat) : Control :=
  { c with state := if c.bodySize - n = 0 then behind else c.state, bodySize := c.bodySize - n }

theorem run_body {behind : State}
    (hlex : ∀ d rest, d.state = c.state → lex d rest = lexChar rest fun _ => lexBody d rest behind)
    {n : Nat} (hn : n ≤ rest.length) (hsize : n ≤ c.bodySize) (hpos : 0 < c.bodySize) :
    ∃ ks, pieces ks = pieces [⟨.bodyChunk, rest.take n⟩] ∧ (∀ k ∈ ks, k.code = .bodyChunk) ∧
      Run (Step lex) (c, rest) ks (bodyBehind behind c n, rest.drop n) := by
  induction n with
  | zero =>
    refine ⟨[], rfl, by simp, ?_⟩
    have hsame : bodyBehind behind c 0 = c := by
      rw [bodyBehind, Nat.sub_zero, if_neg (by omega)]
    rw [hsame]
    exact .nil
  | succ n ih =>
    obtain ⟨ks, hks, hall, hrun⟩ := ih (by omega) (by omega)
    obtain ⟨x, t, hx⟩ : ∃ x t, rest.drop n = x :: t :=
      List.exists_cons_of_ne_nil (by rw [ne_eq, List.drop_eq_nil_iff]; omega)
    have hstate : (bodyBehind behind c n).state = c.state := by
      rw [bodyBehind]
      simp only
      rw [if_neg (by omega)]
    have hone := hlex (bodyBehind behind c n) (rest.drop n) hstate
    rw [hx] at hone hrun
    have htake : rest.take (n + 1) = rest.take n ++ [x] := by
      rw [List.take_add_one, ← List.head?_drop, hx]
      rfl
    have hdrop : rest.drop (n + 1) = t := by
      rw [← List.drop_drop, hx]
      rfl
    refine ⟨ks ++ [⟨.bodyChunk, [x]⟩], ?_, ?_, ?_⟩
    · rw [pieces_append, hks, htake]
      simp
    · simpa [or_imp, forall_and] using hall
    · rw [hdrop]
      have hnext : bodyBehind behind c (n + 1) = { bodyBehind behind c n with
          state := if (bodyBehind behind c n).bodySize - 1 = 0 then behind
            else (bodyBehind behind c n).state,
          bodySize := (bodyBehind behind c n).bodySize - 1 } := by
        rw [hstate]
        simp only [bodyBehind, Nat.sub_sub]
      rw [hnext]
      exact .snoc hrun (.of_take hone)

theorem readBody_did (h : r.At c rest) {behind : State} (hne : rest ≠ []) (hpos : 0 < c.bodySize)
    (hlex : ∀ d rest, d.state = c.state → lex d rest = lexChar rest fun _ => lexBody d rest behind) :
    Did c rest (r.readBody behind) ∧ Frame r (r.readBody behind) := by
  have hle : min rest.length c.bodySize ≤ rest.length := Nat.min_le_left _ _
  obtain ⟨ks, hks, hall, hrun⟩ := run_body hlex hle (Nat.min_le_right _ _) hpos
  have heq : r.readBody behind = { r with
      toControl := bodyBehind behind c (min rest.length c.bodySize), code := .bodyChunk,
      tokenSize := min rest.length c.bodySize } := by
    rw [readBody, h.rest_eq, ← h.control]
    rfl
  have hsome : 0 < min rest.length c.bodySize := lt_min (List.length_pos_iff.mpr hne) hpos
  rw [heq]
  exact ⟨.of_run h hrun hks (run_ne_nil hrun hsome hle) hall nofun rfl hle, rfl, rfl⟩

theorem readChunkSize_did (h : r.At c rest) (hstate : c.state = .expectChunkSize) (hne : rest ≠ []) :
    Did c rest r.readChunkSize ∧ Frame r r.readChunkSize := by
  have hlex : lex c rest = lexChunkSize c rest := by simp only [lex, hstate]
  have hsize : r.bodySize = c.bodySize := by rw [← h.control]
  rw [lexChunkSize, if_neg hne] at hlex
  rw [readChunkSize, h.rest_eq, hsize]
  by_cases hzero : matchLen isHexdigit rest = 0
  · rw [if_pos hzero] at hlex
    simp only [if_pos hzero]
    exact ⟨.fail _ hlex rfl rfl rfl, rfl, rfl⟩
  · rw [if_neg hzero] at hlex
    simp only [if_neg hzero]
    by_cases hall : matchLen isHexdigit rest = rest.length
    · rw [if_pos hall] at hlex
      simp only [if_pos hall]
      exact ⟨.of_more h hlex, rfl, rfl⟩
    · rw [if_neg hall] at hlex
      simp only [if_neg hall]
      rcases hn : chunkSize (rest.take (matchLen isHexdigit rest)) c.bodySize with ⟨_ | _ | _, n⟩ <;>
        simp only [hn] at hlex ⊢
      · exact ⟨.fail _ hlex rfl rfl rfl, rfl, rfl⟩
      · refine ⟨?_, rfl, rfl⟩
        have heq : { r with bodySize := n }.token .expectChunkExt .skip (matchLen isHexdigit rest) =
            { r with
              toControl := { c with bodySize := n, state := .expectChunkExt }, code := .skip,
              tokenSize := matchLen isHexdigit rest } := by
          rw [← h.control]
          rfl
        rw [heq]
        exact .of_take h hlex rfl (matchLen_le isHexdigit rest)
      · exact ⟨.fail _ hlex rfl rfl rfl, rfl, rfl⟩

theorem readCrlfAfterChunkExt_did (h : r.At c rest) (hstate : c.state = .expextCrlfAfterChunkExt) :
    Did c rest r.readCrlfAfterChunkExt ∧ Frame r r.readCrlfAfterChunkExt := by
  have hlex : lex c rest = lexStrictCrlf rest (lexCrlfAfterChunkExt c rest) := by
    simp only [lex, hstate]
  have hsize : r.bodySize = c.bodySize := by rw [← h.control]
  rw [readCrlfAfterChunkExt, hsize]
  by_cases hzero : c.bodySize = 0
  · rw [if_neg (not_not.mpr hzero)]
    refine readStrictCrlf_did h ?_ rfl
    rw [hlex]
    simp only [lexStrictCrlf, lexCrlfAfterChunkExt, if_neg (not_not.mpr hzero)]
  · rw [if_pos hzero]
    refine readStrictCrlf_did h ?_ rfl
    rw [hlex]
    simp only [lexStrictCrlf, lexCrlfAfterChunkExt, if_pos hzero, skipTo]

theorem readCrlfAfterTrailers_did (h : r.At c rest) (hstate : c.state = .expectCrlfAfterTrailers) :
    Did c rest r.readCrlfAfterTrailers ∧ Frame r r.readCrlfAfterTrailers := by
  have hlex : lex c rest = lexStrictCrlf rest fun n =>
      takeToken .endOfMessage n { c with state := .expectMethod, bodyType := .noBody } rest := by
    simp only [lex, hstate]
  rw [lexStrictCrlf] at hlex
  rw [readCrlfAfterTrailers, readStrictCrlf, h.rest_eq]
  by_cases hlen : rest.length < 2
  · rw [if_pos hlen] at hlex
    simp only [if_pos hlen, h.code]
    exact ⟨.of_more h hlex, rfl, rfl⟩
  · rw [if_neg hlen] at hlex
    simp only [if_neg hlen]
    by_cases hzero : strictCrlf rest = 0
    · rw [if_pos hzero] at hlex
      simp only [if_pos hzero]
      exact ⟨.fail _ hlex rfl rfl rfl, rfl, rfl⟩
    · rw [if_neg hzero] at hlex
      simp only [if_neg hzero]
      rw [token_eq h]
      exact ⟨.of_take h hlex rfl (strictCrlf_le rest), rfl, rfl⟩

/-! ### The whole of `next` -/

/-- The states in which `next` may call itself. -/
def calls : State → Bool
  | .expectFieldName | .expectOwsAfterColon | .expectChunkExt | .expectTrailerName
  | .expectOwsAfterTrailerColon => true
  | _ => false

/-- The states in which a look at the buffer is taken. -/
def looks : State → Bool
  | .errored | .expectEndOfBody | .expectEndOfMessage => false
  | _ => true

theorem lex_ows (c : Control) (rest : Str) (h : c.state = .expectOwsAfterColon) :
    lex c rest = lexChar rest (lexOws c rest .expectFieldValue) := by
  simp only [lex, h]

theorem lex_trailerOws (c : Control) (rest : Str) (h : c.state = .expectOwsAfterTrailerColon) :
    lex c rest = lexChar rest (lexOws c rest .expectTrailerValue) := by
  simp only [lex, h]

theorem lex_body (c : Control) (rest : Str) (h : c.state = .expectBody) :
    lex c rest = lexChar rest fun _ => lexBody c rest .expectEndOfBody := by
  simp only [lex, h]

theorem lex_chunkData (c : Control) (rest : Str) (h : c.state = .expectChunkData) :
    lex c rest = lexChar rest fun _ => lexBody c rest .expectCrlfAfterChunkData := by
  simp only [lex, h]

/-- A look at the buffer in a state in which `next` does not call itself. -/
theorem switch_plain (h : r.At c rest) (hok : c.Ok) (hne : rest ≠ []) (hlooks : looks c.state = true)
    (hcalls : calls c.state = false) (again : Reader → Option Reader) :
    ∃ r', switch again r = some r' ∧ Did c rest r' ∧ Frame r r' := by
  obtain ⟨x, t, rfl⟩ := List.exists_cons_of_ne_nil hne
  have hr : r.state = c.state := by rw [← h.control]
  have hpos : 1 ≤ (x :: t).length := by simp
  cases hstate : c.state <;> simp only [switch, hr, hstate, h.rest_eq] <;>
    simp only [hstate] at hlooks hcalls
  case errored | expectEndOfBody | expectEndOfMessage => cases hlooks
  case expectFieldName | expectOwsAfterColon | expectChunkExt | expectTrailerName
      | expectOwsAfterTrailerColon => cases hcalls
  case expectMethod | expectRequestTarget =>
    refine ⟨_, rfl, readRun_did h (fun u => ?_) (by simp only [lex, hstate]) rfl⟩
    simp only [hstate, Seen]
  case expectSpAfterMethod =>
    refine ⟨_, rfl, ?_⟩
    by_cases hx : isSp x = true
    · rw [if_pos hx, token_eq h]
      refine ⟨.of_take h ?_ rfl hpos, rfl, rfl⟩
      simp only [lex, hstate, lexChar, if_pos hx, skipTo]
    · rw [if_neg hx]
      refine ⟨.fail .errorInvalidData ?_ rfl rfl rfl, rfl, rfl⟩
      simp only [lex, hstate, lexChar, if_neg hx]
  case expectStaticStrAfterTarget => exact ⟨_, rfl, readStaticStr_did h hstate⟩
  case expectVersion =>
    exact ⟨_, rfl, readVersion_did h rfl (by simp only [lex, hstate, lexChar])⟩
  case expectCrlfAfterVersion | expectCrlfAfterFieldValue =>
    exact ⟨_, rfl, readLiberalCrlf_did h (by simp only [lex, hstate])⟩
  case expectColon =>
    exact ⟨_, rfl, readColon_did h (by simp only [lex, hstate, lexChar]) lex_ows⟩
  case expectTrailerColon =>
    exact ⟨_, rfl, readColon_did h (by simp only [lex, hstate, lexChar]) lex_trailerOws⟩
  case expectFieldValue => exact ⟨_, rfl, readFieldValue_did h hstate⟩
  case expectCrlfAfterHeaders => exact readCrlfAfterHeaders_did h hok hstate
  case expectBody =>
    exact ⟨_, rfl, readBody_did h hne (hok.body (.inl hstate)) fun d u hd =>
      lex_body d u (hd.trans hstate)⟩
  case expectChunkData =>
    exact ⟨_, rfl, readBody_did h hne (hok.body (.inr hstate)) fun d u hd =>
      lex_chunkData d u (hd.trans hstate)⟩
  case expectChunkSize => exact ⟨_, rfl, readChunkSize_did h hstate hne⟩
  case expextCrlfAfterChunkExt => exact ⟨_, rfl, readCrlfAfterChunkExt_did h hstate⟩
  case expectCrlfAfterChunkData | expectCrlfAfterTrailerValue =>
    exact ⟨_, rfl, readStrictCrlf_did h (by simp only [lex, hstate, skipTo]) rfl⟩
  case expectTrailerValue => exact ⟨_, rfl, readTrailerValue_did h hstate⟩
  case expectCrlfAfterTrailers => exact ⟨_, rfl, readCrlfAfterTrailers_did h hstate⟩

/-- `next` finds out that something else is there, and then looks at it. -/
def Nexts (c : Control) (rest : Str) (r' : Reader) : Prop :=
  ∃ ks d, (∀ k ∈ ks, k.code = .skip) ∧ Run (Step lex) (c, rest) ks (d, rest) ∧ Did d rest r'

theorem Nexts.of_did (h : Did c rest r') : Nexts c rest r' := ⟨[], c, by simp, .nil, h⟩

theorem nexts_again (h : r.At c rest) (hok : { c with state := d.state }.Ok) (hne : rest ≠ [])
    (hd : d.state = .expectCrlfAfterHeaders ∨ d.state = .expectFieldValue ∨
      d.state = .expextCrlfAfterChunkExt ∨ d.state = .expectCrlfAfterTrailers ∨
      d.state = .expectTrailerValue)
    (hzero : r.tokenSize = 0) (hlex : lex c rest = skipTo c rest 0 d.state)
    (again : Reader → Option Reader) :
    ∃ r', step again { r with state := d.state } = some r' ∧ Nexts c rest r' ∧ Frame r r' := by
  have hat : { r with state := d.state }.At { c with state := d.state } rest := by
    refine ⟨by rw [← h.control], h.code, h.rest_eq, h.idx, h.size, ?_⟩
    rw [hzero, List.take_zero]
    exact seen_nil _
  have hlen := h.idx_length
  have hpos := List.length_pos_iff.mpr hne
  have hlooks : looks d.state = true ∧ calls d.state = false := by
    rcases hd with hd | hd | hd | hd | hd <;> rw [hd] <;> exact ⟨rfl, rfl⟩
  obtain ⟨r', hr', hdid, hframe⟩ := switch_plain hat hok hne hlooks.1 hlooks.2 again
  refine ⟨r', ?_, ⟨[⟨.skip, []⟩], { c with state := d.state }, by simp, run_take hlex, hdid⟩, hframe⟩
  have hstep : step again { r with state := d.state } = switch again { r with state := d.state } := by
    have hcons : ({ r with state := d.state } : Reader).consume = { r with state := d.state } :=
      hat.consume_eq
    have hidx : ¬ r.idx = r.ibuffer.length := by omega
    rcases hd with hd | hd | hd | hd | hd <;> rw [hd] at hcons ⊢ <;>
      simp only [step, hcons, if_neg hidx]
  rw [hstep, hr']

theorem lex_nil (hlooks : looks c.state = true) : lex c [] = .more := by
  cases hstate : c.state <;> simp only [hstate] at hlooks <;> first | (cases hlooks; done) | skip
  all_goals
    simp only [lex, hstate]
    rfl

/-- A look at the buffer in a state in which `next` may call itself. -/
theorem switch_calls (h : r.At c rest) (hok : c.Ok) (hne : rest ≠ []) (hcalls : calls c.state = true)
    (again : Reader → Option Reader) :
    ∃ r', switch (step again) r = some r' ∧ Nexts c rest r' ∧ Frame r r' := by
  obtain ⟨x, t, rfl⟩ := List.exists_cons_of_ne_nil hne
  have hr : r.state = c.state := by rw [← h.control]
  have hseen := h.seen
  have hzero (hs : Seen c.state ((x :: t).take r.tokenSize) → (x :: t).take r.tokenSize = []) :
      r.tokenSize = 0 := by
    rcases List.take_eq_nil_iff.mp (hs hseen) with hsize | hnil
    · exact hsize
    · cases hnil
  cases hstate : c.state <;> simp only [hstate] at hcalls <;>
    first | (cases hcalls; done) | simp only [switch, hr, hstate, h.rest_eq]
  case expectFieldName =>
    by_cases hname : matchLen isTchar (x :: t) = 0
    · rw [if_pos hname]
      refine nexts_again (d := { c with state := .expectCrlfAfterHeaders }) h
        (hok.moved (by simp [hstate]) (by simp)) hne (.inl rfl) (hzero (by simp [hstate, Seen])) ?_
        again
      simp only [lex, hstate, lexName, if_neg hne, if_pos hname]
    · rw [if_neg hname]
      obtain ⟨r', hr', hdid, hframe⟩ := readFieldName_did h hok hstate hne hname
      exact ⟨r', hr', .of_did hdid, hframe⟩
  case expectOwsAfterColon =>
    by_cases hows : matchLen isOws (x :: t) = 0
    · rw [if_pos hows]
      refine nexts_again (d := { c with state := .expectFieldValue }) h
        (hok.moved (fun _ => rfl) (by simp)) hne (.inr (.inl rfl)) (hzero (by simp [hstate, Seen])) ?_
        again
      rw [lex_ows c _ hstate]
      simp only [lexChar, lexOws, not_of_drop_matchLen (a := x :: t) (by rw [hows]; rfl),
        Bool.false_eq_true, if_false]
    · rw [if_neg hows]
      obtain ⟨hdid, hframe⟩ := readOws_did h hows fun d u hd => lex_ows d u (hd.trans hstate)
      rw [hstate] at hdid hframe
      exact ⟨_, rfl, .of_did hdid, hframe⟩
  case expectChunkExt =>
    have hi := h.resume (p := isChunkExtChar) (by simpa [hstate, Seen] using hseen)
    have hdrop : r.ibuffer.drop (r.idx + matchLen isChunkExtChar (x :: t)) =
        (x :: t).drop (matchLen isChunkExtChar (x :: t)) := by
      rw [← List.drop_drop, ← h.rest_eq]
      rfl
    have hlex : lex c (x :: t) = lexChunkExt c (x :: t) := by simp only [lex, hstate]
    have hle := matchLen_le isChunkExtChar (x :: t)
    rw [lexChunkExt] at hlex
    simp only [hi, hdrop, Nat.add_sub_cancel_left]
    cases hbehind : (x :: t).drop (matchLen isChunkExtChar (x :: t)) with
    | nil =>
      rw [hbehind] at hlex
      refine ⟨_, rfl, .of_did (.more hlex (h.of_seen hle ?_)), rfl, rfl⟩
      simpa [hstate, Seen] using fun y => all_of_matchLen (p := isChunkExtChar) (a := x :: t) y
    | cons y u =>
      rw [hbehind] at hlex
      simp only at hlex ⊢
      by_cases hy : y = '\r'
      · rw [if_neg (not_not.mpr hy)] at hlex ⊢
        by_cases hempty : matchLen isChunkExtChar (x :: t) = 0
        · rw [if_pos hempty, hempty]
          rw [hempty] at hlex
          -- nothing can have been looked at, so the size of the token is what it was
          have hsize : r.tokenSize = 0 := by
            have := matchLen_eq_add (p := isChunkExtChar) h.size (by simpa [hstate, Seen] using hseen)
            omega
          have hsame : ({ r with state := .expextCrlfAfterChunkExt, tokenSize := 0 } : Reader) =
              { r with state := .expextCrlfAfterChunkExt } := by
            rw [← hsize]
          rw [hsame]
          exact nexts_again (d := { c with state := .expextCrlfAfterChunkExt }) h
            (hok.moved (by simp [hstate]) (by simp)) hne (.inr (.inr (.inl rfl))) hsize hlex again
        · rw [if_neg hempty, token_eq h]
          exact ⟨_, rfl, .of_did (.of_take h hlex rfl hle), rfl, rfl⟩
      · rw [if_pos hy] at hlex ⊢
        exact ⟨_, rfl, .of_did (.fail _ hlex rfl rfl rfl), rfl, rfl⟩
  case expectTrailerName =>
    have hlex : lex c (x :: t) = lexName c (x :: t) .expectCrlfAfterTrailers fun n =>
        takeToken .fieldName n { c with state := .expectTrailerColon } (x :: t) := by
      simp only [lex, hstate]
    rw [lexName, if_neg hne] at hlex
    by_cases hname : matchLen isTchar (x :: t) = 0
    · rw [if_pos hname] at hlex ⊢
      exact nexts_again (d := { c with state := .expectCrlfAfterTrailers }) h
        (hok.moved (by simp [hstate]) (by simp)) hne (.inr (.inr (.inr (.inl rfl))))
        (hzero (by simp [hstate, Seen])) hlex again
    · rw [if_neg hname] at hlex ⊢
      by_cases hall : matchLen isTchar (x :: t) = (x :: t).length
      · rw [if_pos hall] at hlex ⊢
        exact ⟨r, rfl, .of_did (.of_more h hlex), rfl, rfl⟩
      · rw [if_neg hall] at hlex ⊢
        rw [token_eq h]
        exact ⟨_, rfl, .of_did (.of_take h hlex rfl (matchLen_le isTchar (x :: t))), rfl, rfl⟩
  case expectOwsAfterTrailerColon =>
    by_cases hows : matchLen isOws (x :: t) = 0
    · rw [if_pos hows]
      refine nexts_again (d := { c with state := .expectTrailerValue }) h
        (hok.moved (by simp [hstate]) (by simp)) hne (.inr (.inr (.inr (.inr rfl))))
        (hzero (by simp [hstate, Seen])) ?_ again
      rw [lex_trailerOws c _ hstate]
      simp only [lexChar, lexOws, not_of_drop_matchLen (a := x :: t) (by rw [hows]; rfl),
        Bool.false_eq_true, if_false]
    · rw [if_neg hows]
      obtain ⟨hdid, hframe⟩ := readOws_did h hows fun d u hd => lex_trailerOws d u (hd.trans hstate)
      rw [hstate] at hdid hframe
      exact ⟨_, rfl, .of_did hdid, hframe⟩

theorem step_end (h : r.consume.At c rest) (code : Code) {d : Control}
    (hlex : lex c rest = takeToken code 0 d rest) (hcode : code.isToken = true)
    (hseen : ∀ t, Seen c.state t → t = []) :
    Nexts c rest
        { r with toControl := d, code, idx := r.idx + r.tokenSize, tokenSize := 0 } ∧
      Frame r.consume { r with toControl := d, code, idx := r.idx + r.tokenSize, tokenSize := 0 } := by
  have hsame : ({ r with toControl := d, code, idx := r.idx + r.tokenSize, tokenSize := 0 } : Reader) =
      { r.consume with toControl := d, code, tokenSize := 0 } := by
    by_cases hmore : r.code = .errorInsufficientData
    · have hzero : r.tokenSize = 0 := by
        rw [consume_of_more hmore] at h
        rcases List.take_eq_nil_iff.mp (hseen _ h.seen) with hsize | hnil
        · exact hsize
        · have := h.size
          rw [hnil] at this
          exact Nat.le_zero.mp this
      rw [consume_of_more hmore, hzero]
      rfl
    · rw [consume, if_pos hmore]
  rw [hsame]
  exact ⟨.of_did (.of_take h hlex hcode (Nat.zero_le _)), rfl, rfl⟩

/-- `next` reads on as `lex` does, and never where the code takes it not to come. -/
theorem next_spec (h : r.consume.At c rest) (hok : c.Ok) (hstate : c.state ≠ .errored) :
    ∃ r', r.next = some r' ∧ Nexts c rest r' ∧ Frame r.consume r' := by
  have hcontrol : r.toControl = c := by
    rw [← h.control, consume]
    split <;> rfl
  have hr : r.state = c.state := by rw [← hcontrol]
  by_cases hlooks : looks c.state = true
  · have hstep : r.next = if r.consume.idx = r.consume.ibuffer.length then some r.consume
        else switch (step fun _ => none) r.consume := by
      rw [next]
      cases hs : c.state <;> simp only [hs] at hlooks <;>
        first | (cases hlooks; done) | simp only [step, hr, hs]
    have hlen := h.idx_length
    rw [hstep]
    by_cases hne : rest = []
    · subst hne
      rw [if_pos (by simpa using hlen)]
      exact ⟨_, rfl, .of_did (.of_more h (lex_nil hlooks)), rfl, rfl⟩
    · have hpos := List.length_pos_iff.mpr hne
      rw [if_neg (by omega)]
      by_cases hcalls : calls c.state = true
      · exact switch_calls h hok hne hcalls _
      · obtain ⟨r', hr', hdid, hframe⟩ :=
          switch_plain h hok hne hlooks (Bool.eq_false_of_not_eq_true hcalls) (step fun _ => none)
        exact ⟨r', hr', .of_did hdid, hframe⟩
  · rw [next]
    cases hs : c.state <;> simp only [hs] at hlooks hstate <;>
      first | exact absurd rfl hlooks | exact absurd rfl hstate | simp only [step, hr, hs]
    · refine ⟨_, rfl, ?_⟩
      have := step_end h .endOfBody (d := { c with state := .expectEndOfMessage })
        (by simp only [lex, hs]) rfl (by simp [hs, Seen])
      subst hcontrol
      exact this
    · refine ⟨_, rfl, ?_⟩
      have := step_end h .endOfMessage (d := { c with state := .expectMethod, bodyType := .noBody })
        (by simp only [lex, hs]) rfl (by simp [hs, Seen])
      subst hcontrol
      exact this

end Reader

end Http

end Wye
