import Wye.Http.Grammar

/-!
# Only requests are accepted

What the reader takes for a request is one (`accepted`): from its steps the text is put together again,
line by line.
-/

namespace Wye

open Text Incremental Transition

namespace Http

/-- The reader comes to the end of a request. -/
abbrev Ends (c : Control) (a : Str) (ks : List Token) (d : Control) (q : Str) : Prop :=
  Run (Step lexOne) ((c, false), a) ks ((d, true), q)

section
variable {c d : Control} {a q : Str} {ks : List Token} {v : Version} {b : BodyType} {m : Nat}

theorem Ends.uncons (h : Ends c a ks d q) : ∃ k e rest ks', ks = k :: ks' ∧ a = k.text ++ rest ∧
    Moves c k e rest ∧ Run (Step lexOne) ((e, k.isEnd), rest) ks' ((d, true), q) := by
  cases ks with
  | nil => cases h.eq_of_nil
  | cons k ks =>
    obtain ⟨u, ⟨n, ⟨e, stop⟩, hmove, rfl⟩, hrest⟩ := Run.uncons h
    obtain ⟨-, hlex, hstop⟩ := upTo_take_iff.mp hmove
    dsimp only at hlex hstop
    subst hstop
    refine ⟨k, e, _, ks, rfl, ?_, lex_moves hlex, hrest⟩
    rw [lex_text hlex, List.take_append_drop]

theorem Ends.line (h : Ends ⟨.expectMethod, v, .noBody, m⟩ a ks d q) :
    ∃ method target version lineEnd rest ks',
      (method ≠ [] ∧ ∀ x ∈ method, isTchar x = true) ∧
      (target ≠ [] ∧ ∀ x ∈ target, isRequestTargetChar x = true) ∧ isDigit version = true ∧
      IsEnding lineEnd ∧
      a = method ++ ' ' :: (target ++ (Reader.staticStr ++ version :: (lineEnd ++ rest))) ∧
      Ends (.atFields version m) rest ks' d q ∧ ∀ p, tellAll (p, none) ks =
        tellAll (((p.onToken [] .method method).onToken [] .requestTarget target).onToken [] .version
          [version], none) ks' := by
  obtain ⟨_, _, a₁, ks₁, rfl, rfl, hmove, h₁⟩ := h.uncons
  cases hmove with
  | @method _ _ _ method _ hmethod hmethodAll =>
  obtain ⟨_, _, a₂, ks₂, rfl, rfl, hmove, h₂⟩ := Ends.uncons h₁
  cases hmove with
  | space =>
  obtain ⟨_, _, a₃, ks₃, rfl, rfl, hmove, h₃⟩ := Ends.uncons h₂
  cases hmove with
  | @target _ _ _ target _ htarget htargetAll =>
  obtain ⟨_, _, a₄, ks₄, rfl, rfl, hmove, h₄⟩ := Ends.uncons h₃
  cases hmove with
  | staticStr =>
  obtain ⟨_, _, a₅, ks₅, rfl, rfl, hmove, h₅⟩ := Ends.uncons h₄
  cases hmove with
  | @version _ _ _ version _ hversion =>
  obtain ⟨_, _, a₆, ks₆, rfl, rfl, hmove, h₆⟩ := Ends.uncons h₅
  cases hmove with
  | @lineEnd _ _ _ lineEnd _ hlineEnd =>
  exact ⟨method, target, version, lineEnd, a₆, ks₆, ⟨hmethod, hmethodAll⟩, ⟨htarget, htargetAll⟩,
    hversion, hlineEnd, rfl, h₆, fun p => rfl⟩

theorem Ends.ows {ows : State} (value : State)
    (hmoves : ∀ {c k e rest}, Moves c k e rest → c.state = ows →
      (∃ x, isOws x = true ∧ k = ⟨.skip, [x]⟩ ∧ e = c) ∨
      (∀ x ∈ rest.head?, isOws x = false) ∧ k = ⟨.skip, []⟩ ∧ e = { c with state := value })
    (h : Ends c a ks d q) (hc : c.state = ows) :
    ∃ space rest ks', (∀ x ∈ space, isOws x = true) ∧ (∀ x ∈ rest.head?, isOws x = false) ∧
      a = space ++ rest ∧ Ends { c with state := value } rest ks' d q ∧ ks'.length < ks.length ∧
      ∀ x, tellAll x ks = tellAll x ks' := by
  induction ks generalizing a with
  | nil => cases h.eq_of_nil
  | cons k ks ih =>
    obtain ⟨_, e, rest, ks', heq, rfl, hmove, hrest⟩ := h.uncons
    cases heq
    rcases hmoves hmove hc with ⟨x, hx, rfl, rfl⟩ | ⟨hhead, rfl, rfl⟩
    · obtain ⟨space, rest', ks', hspace, hhead, rfl, hends, hlen, htold⟩ := ih hrest
      refine ⟨x :: space, rest', ks', List.forall_mem_cons.mpr ⟨hx, hspace⟩, hhead, rfl, hends,
        Nat.lt_succ_of_lt hlen, fun y => ?_⟩
      rw [tellAll_cons, ← htold]
      rfl
    · exact ⟨[], rest, ks, by simp, hhead, rfl, hrest, Nat.lt_add_one _, fun y => rfl⟩

theorem Ends.field (h : Ends ⟨.expectFieldName, v, b, m⟩ a ks d q) :
    (∃ ks', ks = ⟨.skip, []⟩ :: ks' ∧ Ends ⟨.expectCrlfAfterHeaders, v, b, m⟩ a ks' d q) ∨
    ∃ f c' rest ks', f.Ok ∧ IsEnding f.ending ∧ a = FieldLine.text f ++ rest ∧
      (Control.mk .expectFieldName v b m).know f.field = .ok c' ∧ Ends c' rest ks' d q ∧
      ks'.length < ks.length ∧ ∀ p, tellAll (p, none) ks = tellAll (f.onto p, none) ks' := by
  obtain ⟨_, _, a₁, ks₁, rfl, rfl, hmove, h₁⟩ := h.uncons
  cases hmove with
  | noField => exact .inl ⟨ks₁, rfl, h₁⟩
  | @fieldName _ v' _ b' _ name _ hname hnameAll hknowName =>
    right
    obtain ⟨_, _, a₂, ks₂, rfl, rfl, hmove, h₂⟩ := Ends.uncons h₁
    cases hmove with
    | colon =>
    obtain ⟨space, a₃, ks₃, hspace, hhead, rfl, h₃, hlen, htold⟩ :=
      Ends.ows .expectFieldValue (fun hmove hc => by
        cases hmove <;> simp_all) h₂ rfl
    obtain ⟨_, _, a₄, ks₄, rfl, rfl, hmove, h₄⟩ := Ends.uncons h₃
    cases hmove with
    | @fieldValue _ _ b'' _ m'' value _ hvalue hknowValue =>
    obtain ⟨_, _, a₅, ks₅, rfl, rfl, hmove, h₅⟩ := Ends.uncons h₄
    cases hmove with
    | @fieldEnd _ _ _ ending _ hending =>
    refine ⟨⟨name, space, value, ending⟩, ⟨.expectFieldName, v', b'', m''⟩, a₅, ks₅,
      ⟨⟨hname, hnameAll⟩, hspace, hvalue, fun x hx => hhead x ?_⟩, hending, ?_, ?_, h₅, ?_,
      fun p => ?_⟩
    · rw [List.head?_append, Option.mem_def.mp hx]
      rfl
    · simp [FieldLine.text]
    · simp only [Control.know, FieldLine.field, hknowName, hknowValue]
    · simp only [List.length_cons] at hlen ⊢
      omega
    · rw [tellAll_cons, tellAll_cons, htold]
      rfl

/-- The fields of the headers. -/
theorem Ends.fields (h : Ends c a ks d q) (hc : c.state = .expectFieldName) :
    ∃ (fs : List FieldLine) (c' : Control) (rest : Str) (ks' : List Token),
      (∀ f ∈ fs, f.Ok ∧ IsEnding f.ending) ∧ a = fs.flatMap FieldLine.text ++ rest ∧
      c.knowAll (fs.map FieldLine.field) = .ok c' ∧
      Ends { c' with state := .expectCrlfAfterHeaders } rest ks' d q ∧
      ∀ p, tellAll (p, none) ks = tellAll (fs.foldl (fun p f => f.onto p) p, none) ks' := by
  induction hn : ks.length using Nat.strongRecOn generalizing c a ks with
  | _ n ih =>
    obtain ⟨state, v, b, m⟩ := c
    cases hc
    rcases h.field with ⟨ks', rfl, hends⟩ | ⟨f, c', rest, ks', hf, hending, rfl, hknow, hends, hlen, htold⟩
    · exact ⟨[], _, a, ks', by simp, rfl, rfl, hends, fun p => rfl⟩
    · obtain ⟨fs, c'', rest', ks'', hfs, rfl, hknows, hends', htold'⟩ :=
        ih ks'.length (hn ▸ hlen) hends (know_state hknow) rfl
      refine ⟨f :: fs, c'', rest', ks'', List.forall_mem_cons.mpr ⟨⟨hf, hending⟩, hfs⟩, ?_, ?_, hends',
        fun p => ?_⟩
      · rw [List.flatMap_cons, List.append_assoc]
      · rw [List.map_cons, Control.knowAll, List.foldlM_cons, hknow]
        exact hknows
      · rw [htold, htold']
        rfl

theorem Ends.content {state : State} (behind : State)
    (hmoves : ∀ {c k e rest}, Moves c k e rest → c.state = state → ∃ x, k = ⟨.bodyChunk, [x]⟩ ∧
      e = { c with state := if c.bodySize - 1 = 0 then behind else state, bodySize := c.bodySize - 1 })
    (h : Ends ⟨state, v, b, m + 1⟩ a ks d q) :
    ∃ content rest ks', content.length = m + 1 ∧ a = content ++ rest ∧
      Ends ⟨behind, v, b, 0⟩ rest ks' d q ∧ ks'.length < ks.length ∧
      ∀ p, tellAll (p, none) ks = tellAll (p.onBody content, none) ks' := by
  induction m generalizing a ks with
  | zero =>
    obtain ⟨_, _, rest, ks', rfl, rfl, hmove, hends⟩ := h.uncons
    obtain ⟨x, rfl, rfl⟩ := hmoves hmove rfl
    exact ⟨[x], rest, ks', rfl, rfl, hends, Nat.lt_add_one _, fun p => rfl⟩
  | succ m ih =>
    obtain ⟨_, _, rest, ks', rfl, rfl, hmove, hends⟩ := h.uncons
    obtain ⟨x, rfl, rfl⟩ := hmoves hmove rfl
    obtain ⟨content, rest', ks'', hlen, rfl, hends', hless, htold⟩ := ih hends
    refine ⟨x :: content, rest', ks'', by rw [List.length_cons, hlen], rfl, hends',
      Nat.lt_succ_of_lt hless, fun p => ?_⟩
    have hone : tell (p, none) ⟨.bodyChunk, [x]⟩ = (p.onBody [x], none) := rfl
    rw [tellAll_cons, hone, htold]
    simp [Progress.onBody]

theorem Ends.chunk (h : Ends ⟨.expectChunkSize, v, b, m⟩ a ks d q) :
    (∃ k rest ks', k.Ok ∧ k.content ≠ [] ∧ a = Chunk.text k ++ rest ∧
      Ends ⟨.expectChunkSize, v, b, 0⟩ rest ks' d q ∧ ks'.length < ks.length ∧
      ∀ p, tellAll (p, none) ks = tellAll (p.onBody k.content, none) ks') ∨
    ∃ k rest ks', k.Ok ∧ k.content = [] ∧ a = Chunk.line k ++ rest ∧
      Ends ⟨.expectTrailerName, v, b, 0⟩ rest ks' d q ∧
      ∀ p, tellAll (p, none) ks = tellAll (p.onToken [] .endOfBody crlf, none) ks' := by
  obtain ⟨_, _, a₁, ks₁, rfl, rfl, hmove, h₁⟩ := h.uncons
  cases hmove with
  | @chunkSize _ _ _ n size y t hsize hy =>
  obtain ⟨_, _, a₂, ks₂, rfl, hext, hmove, h₂⟩ := Ends.uncons h₁
  cases hmove with
  | @chunkExt _ _ _ ext _ hextAll =>
  have hfront : ∀ x ∈ ext.head?, isHexdigit x = false := by
    intro x hx
    have hhead : x ∈ (y :: t).head? := by
      rw [hext, List.head?_append, Option.mem_def.mp hx]
      rfl
    cases hhead
    exact hy
  obtain ⟨_, _, a₃, ks₃, rfl, rfl, hmove, h₃⟩ := Ends.uncons h₂
  rw [hext]
  cases hmove with
  | lastChunk hzero =>
    subst hzero
    refine .inr ⟨⟨size, ext, []⟩, a₃, ks₃, ⟨hsize, hextAll, hfront⟩, rfl, ?_, h₃, fun p => rfl⟩
    simp [Chunk.line]
  | chunkLine hne =>
    left
    obtain ⟨n, rfl⟩ := Nat.exists_eq_succ_of_ne_zero hne
    obtain ⟨content, a₄, ks₄, hlen, rfl, h₄, hless, htold⟩ :=
      Ends.content .expectCrlfAfterChunkData (fun hmove hc => by
        cases hmove <;> simp_all) h₃
    obtain ⟨_, _, a₅, ks₅, rfl, rfl, hmove, h₅⟩ := Ends.uncons h₄
    cases hmove with
    | chunkEnd =>
    refine ⟨⟨size, ext, content⟩, a₅, ks₅, ⟨hlen ▸ hsize, hextAll, hfront⟩, ?_, ?_, h₅, ?_, fun p => ?_⟩
    · rintro rfl
      cases hlen
    · simp [Chunk.text, Chunk.line]
    · simp only [List.length_cons] at hless ⊢
      omega
    · exact htold p

theorem Ends.chunks (h : Ends ⟨.expectChunkSize, v, b, m⟩ a ks d q) :
    ∃ (chunks : List Chunk) (last : Chunk) (rest : Str) (ks' : List Token),
      (∀ k ∈ chunks, k.Ok ∧ k.content ≠ []) ∧ (last.Ok ∧ last.content = []) ∧
      a = chunks.flatMap Chunk.text ++ (last.line ++ rest) ∧
      Ends ⟨.expectTrailerName, v, b, 0⟩ rest ks' d q ∧ ∀ p, tellAll (p, none) ks =
        tellAll ((p.onBody (chunks.flatMap Chunk.content)).onToken [] .endOfBody crlf, none) ks' := by
  induction hn : ks.length using Nat.strongRecOn generalizing m a ks with
  | _ n ih =>
    rcases h.chunk with ⟨k, rest, ks', hk, hne, rfl, hends, hlen, htold⟩ |
      ⟨k, rest, ks', hk, hempty, rfl, hends, htold⟩
    · obtain ⟨chunks, last, rest', ks'', hchunks, hlast, rfl, hends', htold'⟩ :=
        ih ks'.length (hn ▸ hlen) hends rfl
      refine ⟨k :: chunks, last, rest', ks'', List.forall_mem_cons.mpr ⟨⟨hk, hne⟩, hchunks⟩, hlast, ?_,
        hends', fun p => ?_⟩
      · rw [List.flatMap_cons, List.append_assoc]
      · rw [htold, htold']
        simp [Progress.onBody]
    · refine ⟨[], k, rest, ks', by simp, ⟨hk, hempty⟩, rfl, hends, fun p => ?_⟩
      rw [htold]
      simp [Progress.onBody]

theorem Ends.trailer (h : Ends ⟨.expectTrailerName, v, b, m⟩ a ks d q) :
    (a = crlf ++ q ∧ ∀ p, tellAll (p, none) ks = (p.onToken [] .endOfMessage crlf, none)) ∨
    ∃ f rest ks', f.Ok ∧ f.ending = crlf ∧ a = FieldLine.text f ++ rest ∧
      Ends ⟨.expectTrailerName, v, b, m⟩ rest ks' d q ∧ ks'.length < ks.length ∧
      ∀ p, tellAll (p, none) ks = tellAll (f.onto p, none) ks' := by
  obtain ⟨_, _, a₁, ks₁, rfl, rfl, hmove, h₁⟩ := h.uncons
  cases hmove with
  | noTrailer =>
    left
    obtain ⟨_, _, a₂, ks₂, rfl, rfl, hmove, h₂⟩ := Ends.uncons h₁
    cases hmove with
    | endOfTrailers =>
    obtain ⟨rfl, heq⟩ := run_of_ended (by simp [upTo_stopped, Token.isEnd]) h₂
    obtain ⟨-, rfl⟩ := Prod.mk.inj heq
    exact ⟨rfl, fun p => rfl⟩
  | @trailerName _ _ _ name _ hname hnameAll =>
    right
    obtain ⟨_, _, a₂, ks₂, rfl, rfl, hmove, h₂⟩ := Ends.uncons h₁
    cases hmove with
    | trailerColon =>
    obtain ⟨space, a₃, ks₃, hspace, hhead, rfl, h₃, hlen, htold⟩ :=
      Ends.ows .expectTrailerValue (fun hmove hc => by
        cases hmove <;> simp_all) h₂ rfl
    obtain ⟨_, _, a₄, ks₄, rfl, rfl, hmove, h₄⟩ := Ends.uncons h₃
    cases hmove with
    | @trailerValue _ _ _ value _ hvalue =>
    obtain ⟨_, _, a₅, ks₅, rfl, rfl, hmove, h₅⟩ := Ends.uncons h₄
    cases hmove with
    | trailerEnd =>
    refine ⟨⟨name, space, value, crlf⟩, a₅, ks₅,
      ⟨⟨hname, hnameAll⟩, hspace, hvalue, fun x hx => hhead x ?_⟩, rfl, ?_, h₅, ?_, fun p => ?_⟩
    · rw [List.head?_append, Option.mem_def.mp hx]
      rfl
    · simp [FieldLine.text]
    · simp only [List.length_cons] at hlen ⊢
      omega
    · rw [tellAll_cons, tellAll_cons, htold]
      rfl

theorem Ends.trailers (h : Ends ⟨.expectTrailerName, v, b, m⟩ a ks d q) :
    ∃ fs : List FieldLine, (∀ f ∈ fs, f.Ok ∧ f.ending = crlf) ∧
      a = fs.flatMap FieldLine.text ++ (crlf ++ q) ∧ ∀ p, tellAll (p, none) ks =
        ((fs.foldl (fun p f => f.onto p) p).onToken [] .endOfMessage crlf, none) := by
  induction hn : ks.length using Nat.strongRecOn generalizing a ks with
  | _ n ih =>
    rcases h.trailer with ⟨rfl, htold⟩ | ⟨f, rest, ks', hf, hending, rfl, hends, hlen, htold⟩
    · exact ⟨[], by simp, rfl, htold⟩
    · obtain ⟨fs, hfs, rfl, htold'⟩ := ih ks'.length (hn ▸ hlen) hends rfl
      refine ⟨f :: fs, List.forall_mem_cons.mpr ⟨⟨hf, hending⟩, hfs⟩, ?_, fun p => ?_⟩
      · rw [List.flatMap_cons, List.append_assoc]
      · rw [htold, htold']
        rfl

theorem behindHeaders_ok_cases {c : Control} {state : State} (h : behindHeaders c = .ok state) :
    state = .expectEndOfBody ∨ state = .expectBody ∧ c.bodySize ≠ 0 ∨ state = .expectChunkSize := by
  obtain ⟨_, v, b, m⟩ := c
  simp only [behindHeaders] at h
  split at h
  · cases h
  · cases b with
    | randomEncodingRead => cases h
    | chunkedEncodingRead => exact .inr (.inr (Except.ok.inj h).symm)
    | contentLengthRead =>
      have hstate := (Except.ok.inj h).symm
      by_cases hm : m = 0
      · exact .inl (hstate.trans (if_pos hm))
      · exact .inr (.inl ⟨hstate.trans (if_neg hm), hm⟩)
    | noBody | readingContentLength | readingEncoding => exact .inl (Except.ok.inj h).symm

theorem Ends.end (h : Ends ⟨.expectEndOfBody, v, b, m⟩ a ks d q) :
    a = q ∧ ∀ p, tellAll (p, none) ks =
      ((p.onToken [] .endOfBody []).onToken [] .endOfMessage [], none) := by
  obtain ⟨_, _, a₁, ks₁, rfl, rfl, hmove, h₁⟩ := h.uncons
  cases hmove with
  | endOfBody =>
  obtain ⟨_, _, a₂, ks₂, rfl, rfl, hmove, h₂⟩ := Ends.uncons h₁
  cases hmove with
  | endOfMessage =>
  obtain ⟨rfl, heq⟩ := run_of_ended (by simp [upTo_stopped, Token.isEnd]) h₂
  obtain ⟨-, rfl⟩ := Prod.mk.inj heq
  exact ⟨rfl, fun p => rfl⟩

theorem Ends.body {state : State} (hbehind : behindHeaders c = .ok state)
    (h : Ends { c with state } a ks d q) : ∃ body : BodyText, body.Ok ∧ body.framing.Behind c ∧
      a = body.text ++ q ∧ ∀ p, tellAll (p, none) ks = (body.onto p, none) := by
  obtain ⟨state', v, b, m⟩ := c
  rcases behindHeaders_ok_cases hbehind with rfl | ⟨rfl, hm⟩ | rfl
  · obtain ⟨rfl, htold⟩ := h.end
    refine ⟨.empty, trivial, hbehind, rfl, fun p => ?_⟩
    rw [htold]
    simp [BodyText.onto, BodyText.content, BodyText.trailers, Progress.onBody, Progress.onToken]
  · obtain ⟨m, rfl⟩ := Nat.exists_eq_succ_of_ne_zero hm
    obtain ⟨content, a₁, ks₁, hlen, rfl, h₁, -, htold⟩ :=
      Ends.content .expectEndOfBody (fun hmove hc => by cases hmove <;> simp_all) h
    obtain ⟨rfl, htold₁⟩ := Ends.end h₁
    refine ⟨.sized content, ?_, ⟨hbehind, hlen.symm⟩, rfl, fun p => ?_⟩
    · rintro rfl
      cases hlen
    · rw [htold, htold₁]
      rfl
  · obtain ⟨chunks, last, a₁, ks₁, hchunks, hlast, rfl, h₁, htold⟩ := h.chunks
    obtain ⟨trailers, htrailers, rfl, htold₁⟩ := h₁.trailers
    refine ⟨.chunked chunks last trailers, ⟨hchunks, hlast, htrailers⟩, hbehind, ?_, fun p => ?_⟩
    · simp [BodyText.text]
    · rw [htold, htold₁]
      rfl

theorem Ends.request (h : Ends ⟨.expectMethod, v, .noBody, m⟩ a ks d q) :
    ∃ r : RequestText, r.Ok ∧ a = r.text ++ q ∧ ∀ p, tellAll (p, none) ks = (r.onto p, none) := by
  obtain ⟨method, target, version, lineEnd, a₁, ks₁, hmethod, htarget, hversion, hlineEnd, rfl, h₁,
    htold₁⟩ := h.line
  obtain ⟨fields, c, a₂, ks₂, hfields, rfl, hknow, h₂, htold₂⟩ := Ends.fields h₁ rfl
  obtain ⟨_, _, a₃, ks₃, rfl, rfl, hmove, h₃⟩ := Ends.uncons h₂
  obtain ⟨_, v', b', m'⟩ := c
  cases hmove with
  | @endOfHeaders _ _ _ headersEnd _ state hending hbehind =>
  obtain ⟨body, hbody, hframed, rfl, htold₃⟩ :=
    Ends.body (c := ⟨.expectCrlfAfterHeaders, v', b', m'⟩) hbehind h₃
  have hframed' : body.framing.Behind ⟨_, v', b', m'⟩ := hframed
  obtain ⟨hhost, hframing⟩ := framing_of_knowAll hknow hframed'
  refine ⟨⟨method, target, version, lineEnd, fields, headersEnd, body⟩,
    ⟨hmethod, htarget, hversion, hlineEnd, hfields, hending, hhost, hframing, hbody⟩, ?_, fun p => ?_⟩
  · simp [RequestText.text, RequestText.line]
  · rw [htold₁, htold₂]
    exact htold₃ _

end

/-! ### Room for a request -/

theorem RequestText.fits_text {r : RequestText} {N : Nat} (hN : r.text.length ≤ N) (hpos : 0 < N) :
    r.Fits N := by
  simp only [text, List.length_append] at hN
  refine ⟨by omega, fun f hf => ?_, by omega, BodyText.fits_text (by omega) hpos⟩
  have hmem := length_le_flatMap (f := FieldLine.text) hf
  omega

/-- What the reader takes for a request is one, and every request is taken. -/
theorem accepted_iff {v : Version} {m : Nat} {a q : Str} :
    (∃ ks d, Ends ⟨.expectMethod, v, .noBody, m⟩ a ks d q) ↔
      ∃ r : RequestText, r.Ok ∧ a = r.text ++ q := by
  constructor
  · rintro ⟨ks, d, h⟩
    obtain ⟨r, hr, ha, -⟩ := h.request
    exact ⟨r, hr, ha⟩
  · rintro ⟨r, hr, rfl⟩
    obtain ⟨d, ks, hrun, -⟩ := RequestText.reads (N := r.text.length + 1) (v := v) (m := m) hr
      (RequestText.fits_text (Nat.le_succ _) (Nat.succ_pos _))
    exact ⟨ks, d, lexOne_stable.run_append hrun q⟩

/-! ### The fields on their own -/

/-- The reader comes to a place within the headers where it stays. -/
def Stays (c : Control) (a : Str) : Prop :=
  ∃ ks e r, Run (Step lexOne) ((c, false), a) ks ((e, false), r) ∧ e.state.phase = .empty ∧
    ∀ k n t, lex e r ≠ .take k n t

section
variable {c d : Control} {a b : Str} {ks : List Token}

theorem Stays.behind (hrun : Run (Step lexOne) ((c, false), a) ks ((d, false), b)) (h : Stays d b) :
    Stays c a := by
  obtain ⟨ks', e, r, hrun', hphase, hstays⟩ := h
  exact ⟨ks ++ ks', e, r, hrun.append hrun', hphase, hstays⟩

/-- At a field that is refused the reader stays. -/
theorem FieldLine.stays {f : FieldLine} (hf : f.Ok) (hending : IsEnding f.ending)
    (hc : c.state = .expectFieldName) {code : Code} (hrefused : c.know f.field = .error code) (q : Str) :
    Stays c (f.text ++ q) := by
  obtain ⟨_, v, b, m⟩ := c
  subst hc
  have htext : f.text ++ q = f.name ++ ':' :: (f.space ++ (f.value ++ (f.ending ++ q))) := by
    simp [text]
  rw [htext]
  have hname : lex ⟨.expectFieldName, v, b, m⟩
      (f.name ++ ':' :: (f.space ++ (f.value ++ (f.ending ++ q)))) =
      lexFieldName ⟨.expectFieldName, v, b, m⟩
        (f.name ++ ':' :: (f.space ++ (f.value ++ (f.ending ++ q)))) f.name.length := by
    simp only [lex, lexName_name hf]
  simp only [lexFieldName, List.take_left, takeToken] at hname
  simp only [Control.know, field] at hrefused
  cases hknow : Reader.knowName f.name v b with
  | none =>
    rw [hknow] at hname
    exact ⟨[], _, _, .nil, rfl, by simp [hname]⟩
  | some r =>
    cases r with
    | error code' =>
      rw [hknow] at hname
      exact ⟨[], _, _, .nil, rfl, by simp [hname]⟩
    | ok know =>
      obtain ⟨version, bodyType⟩ := know
      rw [hknow] at hname hrefused
      obtain ⟨ks, hks, hcolon⟩ := run_colon (c := ⟨.expectColon, version, bodyType, m⟩) hf hending
        (fun c rest hc => by simp only [lex, hc]) Reader.lex_ows rfl q
      cases hvalue : Reader.knowValue (decodeFieldValue f.value) bodyType m with
      | ok know => simp [hvalue] at hrefused
      | error e =>
        have hlast : lex ⟨.expectFieldValue, version, bodyType, m⟩ (f.value ++ (f.ending ++ q)) =
            .fail e.1 := by
          simp only [lex, lexValue_value hf hending, lexFieldValue, List.take_left, hvalue]
        have hnot : ∀ k ∈ ⟨.fieldName, f.name⟩ :: ks, Token.isEnd k = false := by
          rw [List.forall_mem_cons]
          refine ⟨rfl, fun k hk => ?_⟩
          rw [Token.isEnd, hks k hk]
          rfl
        have hrun := run_upTo (.cons (step_of_take hname List.drop_left) hcolon) hnot
        exact ⟨_, _, _, hrun, rfl, by simp [hlast]⟩

theorem FieldLine.stays_all {fs : List FieldLine} (hfs : ∀ f ∈ fs, f.Ok ∧ IsEnding f.ending)
    (hc : c.state = .expectFieldName) {code : Code} (hrefused : c.knowAll (fs.map field) = .error code)
    (q : Str) : Stays c (fs.flatMap text ++ q) := by
  induction fs generalizing c with
  | nil => cases hrefused
  | cons f fs ih =>
    obtain ⟨⟨hf, hending⟩, hfs⟩ := List.forall_mem_cons.mp hfs
    rw [List.map_cons, Control.knowAll, List.foldlM_cons] at hrefused
    rw [List.flatMap_cons, List.append_assoc]
    cases hfirst : c.know f.field with
    | error code' => exact stays hf hending hc hfirst _
    | ok e =>
      rw [hfirst] at hrefused
      obtain ⟨ks, hrun, -⟩ := reads hf hending hc hfirst (Nat.le_refl _)
      exact (ih hfs ((know_state hfirst).trans hc) hrefused).behind
        (lexOne_stable.run_append hrun (fs.flatMap text ++ q))

/-- In front of the end of the headers nothing but that end is read. -/
theorem run_headersEnd (hrun : Run (Step lexOne) ((c, false), a) ks ((d, false), b))
    (hc : c.state = .expectCrlfAfterHeaders) (hd : d.state.phase = .empty) : ks = [] := by
  cases ks with
  | nil => rfl
  | cons k ks =>
    obtain ⟨u, ⟨n, t, hmove, -⟩, -⟩ := Run.uncons hrun
    have hstep := lex_moves (upTo_take_iff.mp hmove).2.1
    refine absurd hd (run_phase hrun (.inr ⟨k, List.mem_cons_self, ?_⟩))
    obtain ⟨_, v, b, m⟩ := c
    subst hc
    generalize t.1 = e at hstep
    cases hstep
    rfl

theorem Framing.Behind.ok {framing : Framing} (h : framing.Behind d) :
    ∃ state, behindHeaders d = .ok state := by
  cases framing with
  | empty | chunked => exact ⟨_, h⟩
  | sized n => exact ⟨_, h.1⟩

/-- The reader goes over some fields to the end of the headers, and from there to a body, exactly when
the fields name one host, which HTTP/1.0 may leave out, and frame that body. -/
theorem framing_run_iff {fs : List FieldLine} (hfs : ∀ f ∈ fs, f.Ok ∧ IsEnding f.ending) {ending : Str}
    (hending : IsEnding ending) (q : Str) {x : Char} {m : Nat} {framing : Framing} :
    (∃ ks d, Run (Step lexOne) ((.atFields x m, false), fs.flatMap FieldLine.text ++ (ending ++ q)) ks
        ((d, false), ending ++ q) ∧ d.state = .expectCrlfAfterHeaders ∧ framing.Behind d) ↔
      (startVersion x = .http10 ∨ ∃ value, ofKind .host (fs.map FieldLine.field) = [value]) ∧
        framing.Of (fs.map FieldLine.field) := by
  have hread {c : Control} (hknow : (Control.atFields x m).knowAll (fs.map FieldLine.field) = .ok c) :
      ∃ ks, Run (Step lexOne) ((.atFields x m, false), fs.flatMap FieldLine.text ++ (ending ++ q)) ks
        (({ c with state := .expectCrlfAfterHeaders }, false), ending ++ q) := by
    obtain ⟨ks, hrun, -⟩ := FieldLine.reads_all (fun f hf =>
      ⟨(hfs f hf).1, (hfs f hf).2, length_le_flatMap (f := FieldLine.text) hf⟩) rfl hknow
    have hstep := lex_noField (knowAll_ok_iff.mp hknow).state hending q
    exact ⟨_, (lexOne_stable.run_append hrun (ending ++ q)).snoc (step_of_take hstep rfl).upTo⟩
  constructor
  · rintro ⟨ks, d, hrun, hstate, hbehind⟩
    have hphase : d.state.phase = .empty := by rw [hstate]; rfl
    cases hknow : (Control.atFields x m).knowAll (fs.map FieldLine.field) with
    | error code =>
      obtain ⟨ks', e, r, hrun', hphase', hstays⟩ := FieldLine.stays_all hfs rfl hknow (ending ++ q)
      have hsame : (e, r) = (d, ending ++ q) := by
        rcases run_comparable hrun hrun' with ⟨l, hl, -⟩ | ⟨l, hl, -⟩
        · cases run_headersEnd hl hstate hphase'
          exact congrArg (fun u => (u.1.1, u.2)) hl.eq_of_nil.symm
        · obtain ⟨-, heq⟩ := run_of_ended (fun k n t ht => hstays k n _ (upTo_take_iff.mp ht).2.1) hl
          exact congrArg (fun u => (u.1.1, u.2)) heq.symm
      obtain ⟨rfl, rfl⟩ := Prod.mk.inj hsame
      obtain ⟨state, hstate'⟩ := hbehind.ok
      refine absurd ?_ (hstays ⟨.endOfHeaders, ending⟩ ending.length { e with state })
      simp only [lex, hstate, lexLiberalCrlf_ending hending, lexEndOfHeaders, hstate', takeToken,
        List.take_left]
    | ok c =>
      obtain ⟨ks', hrun'⟩ := hread hknow
      have hsame : d = { c with state := .expectCrlfAfterHeaders } := by
        rcases run_comparable hrun hrun' with ⟨l, hl, -⟩ | ⟨l, hl, -⟩
        · cases run_headersEnd hl hstate rfl
          exact congrArg (fun u => u.1.1) hl.eq_of_nil
        · cases run_headersEnd hl rfl hphase
          exact congrArg (fun u => u.1.1) hl.eq_of_nil.symm
      rw [hsame] at hbehind
      refine framing_of_knowAll hknow ?_
      cases framing <;> exact hbehind
  · rintro ⟨hhost, hframing⟩
    obtain ⟨c, hknow, hbehind⟩ := knowAll_of_framing hhost hframing m
    obtain ⟨ks, hrun⟩ := hread hknow
    refine ⟨ks, _, hrun, rfl, ?_⟩
    cases framing <;> exact hbehind

end

end Http

end Wye
