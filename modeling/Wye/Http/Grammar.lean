import Wye.Http.Framing
import Wye.Http.Reading

/-!
# Requests as they are written

A request as a text: a line, fields, and a body that is framed by what the fields say. Such a text is
read to its end and no further, wherever it stands, and what the socket shows then is what the text
says (`RequestText.reads`). A buffer is large enough for it if it holds each of its lines; a body may
be of any length.
-/

namespace Wye

open Text Incremental Transition

namespace Http

/-! ### Texts that are read -/

/-- With a buffer of `N` bytes a text is read from one place to another, whatever is behind it, and
`f` is what it says. -/
def Reads (N : Nat) (c : Control) (text : Str) (f : Progress → Progress) (d : Control × Bool) : Prop :=
  ∃ ks, Run (Step lexOne) ((c, false), text) ks (d, []) ∧
    ∀ p, tellAll (p, none) ks = (f p, none) ∧ ∀ q, Roomy N (c, false) (p, none) (text ++ q) ks

section
variable {N : Nat} {c d : Control} {e : Control × Bool} {text text' : Str} {f g : Progress → Progress}
  {k : Token} {ks : List Token}

theorem Reads.nil : Reads N c [] id (c, false) := ⟨[], .nil, fun _ => ⟨rfl, fun _ => roomy_nil⟩⟩

theorem Reads.append (h : Reads N c text f (d, false)) (h' : Reads N d text' g e) :
    Reads N c (text ++ text') (g ∘ f) e := by
  obtain ⟨ks, hrun, hks⟩ := h
  obtain ⟨ks', hrun', hks'⟩ := h'
  refine ⟨ks ++ ks', ?_, fun p => ?_⟩
  · exact (lexOne_stable.run_append hrun text').append hrun'
  · obtain ⟨htold, hroomy⟩ := hks p
    obtain ⟨htold', hroomy'⟩ := hks' (f p)
    refine ⟨by rw [tellAll_append, htold, htold']; rfl, fun q => ?_⟩
    rw [List.append_assoc]
    refine (hroomy _).append (lexOne_stable.run_append hrun (text' ++ q)) ?_
    rw [htold]
    exact hroomy' q

theorem ne_endOfMessage_of_pieces {ks l : List Token} (h : pieces ks = pieces l)
    (hl : ∀ k ∈ l, k.code ≠ .endOfMessage) : ∀ k ∈ ks, k.code ≠ .endOfMessage := by
  intro k hk hcode
  have hmem : k ∈ pieces l := by
    rw [← h]
    exact List.mem_flatMap.mpr ⟨k, hk, by simp [Token.pieces, hcode]⟩
  obtain ⟨k', hk', hmem⟩ := List.mem_flatMap.mp hmem
  have hne := hl k' hk'
  unfold Token.pieces at hmem
  split at hmem
  · cases hmem
  · obtain ⟨x, -, rfl⟩ := List.mem_map.mp hmem
    cases hcode
  · exact hne (List.mem_singleton.mp hmem ▸ hcode)

theorem Reads.of_run {l : List Token} (hrun : Run (Step lex) (c, text) ks (d, []))
    (hks : pieces ks = pieces l) (hN : text.length ≤ N) (hl : ∀ k ∈ l, k.code ≠ .endOfMessage)
    (htold : ∀ p, tellAll (p, none) l = (f p, none)) : Reads N c text f (d, false) := by
  have hrun' : Run (Step lexOne) ((c, false), text) ks ((d, false), []) :=
    run_upTo hrun fun k hk => by simpa [Token.isEnd] using ne_endOfMessage_of_pieces hks hl k hk
  exact ⟨ks, hrun', fun p => ⟨(tellAll_congr hks _).trans (htold p), fun q =>
    roomy_of_size hrun' (by rw [Option.getD_none, List.length_nil, Nat.zero_add]; exact hN) q⟩⟩

theorem Reads.of_end {d₀ : Control} {rest : Str} (hrun : Run (Step lex) (c, text) ks (d₀, rest))
    (hks : ∀ k ∈ ks, k.code = .skip)
    (hmove : lex d₀ rest = .take ⟨.endOfMessage, rest⟩ rest.length d) (hN : text.length ≤ N) :
    Reads N c text (·.onToken [] .endOfMessage rest) (d, true) := by
  have hfirst : Run (Step lexOne) ((c, false), text) ks ((d₀, false), rest) :=
    run_upTo hrun fun k hk => by simp [Token.isEnd, hks k hk]
  have hrun' : Run (Step lexOne) ((c, false), text) (ks ++ [⟨.endOfMessage, rest⟩]) ((d, true), []) :=
    .snoc hfirst ⟨rest.length, (d, true), upTo_take_iff.mpr ⟨rfl, hmove, rfl⟩, by rw [List.drop_length]⟩
  refine ⟨_, hrun', fun p => ⟨?_, fun q =>
    roomy_of_size hrun' (by rw [Option.getD_none, List.length_nil, Nat.zero_add]; exact hN) q⟩⟩
  rw [tellAll_append, tellAll_skip hks]
  rfl

end

/-! ### Fields -/

/-- A line with a field: its name, the white space behind the colon, its value, and the line end. -/
structure FieldLine where
  name : Str
  space : Str
  value : Str
  ending : Str
  deriving DecidableEq, Repr

namespace FieldLine

def text (f : FieldLine) : Str := f.name ++ ':' :: (f.space ++ (f.value ++ f.ending))

structure Ok (f : FieldLine) : Prop where
  name : f.name ≠ [] ∧ ∀ x ∈ f.name, isTchar x = true
  space : ∀ x ∈ f.space, isOws x = true
  value : ∀ x ∈ f.value, isFieldValueChar x = true
  front : ∀ x ∈ f.value.head?, isOws x = false

instance (f : FieldLine) : Decidable f.Ok :=
  decidable_of_iff ((f.name ≠ [] ∧ f.name.all isTchar = true) ∧ f.space.all isOws = true ∧
      f.value.all isFieldValueChar = true ∧ f.value.head?.all (fun x => !isOws x) = true) <| by
    simp only [List.all_eq_true, Option.all_eq_true, Bool.not_eq_true']
    exact ⟨fun ⟨hname, hspace, hvalue, hfront⟩ => ⟨hname, hspace, hvalue, hfront⟩,
      fun h => ⟨h.name, h.space, h.value, h.front⟩⟩

/-- The field in its place. -/
def onto (f : FieldLine) (p : Progress) : Progress :=
  p.onField (f.name.map Char.toLower) (decodeFieldValue f.value)

/-- What it says to the reader. -/
def field (f : FieldLine) : Str × Str := (f.name, decodeFieldValue f.value)

end FieldLine

theorem lexLiberalCrlf_ending {ending : Str} (h : IsEnding ending) (q : Str) (f : Nat → LexMove) :
    lexLiberalCrlf (ending ++ q) f = f ending.length := by
  rcases h with rfl | rfl <;> rfl

theorem lexStrictCrlf_crlf (q : Str) (f : Nat → LexMove) : lexStrictCrlf (crlf ++ q) f = f 2 := by
  have hlen : ¬ (crlf ++ q).length < 2 := by simp [crlf]
  have htwo : strictCrlf (crlf ++ q) = 2 := by
    rw [strictCrlf, if_neg hlen]
    rfl
  rw [lexStrictCrlf, if_neg hlen, htwo, if_neg (by decide)]

theorem IsEnding.exists_cons {ending : Str} (h : IsEnding ending) :
    ∃ x t, ending = x :: t ∧ isFieldValueChar x = false ∧ isOws x = false ∧ isTchar x = false := by
  rcases h with rfl | rfl
  · exact ⟨'\r', ['\n'], rfl, rfl, rfl, rfl⟩
  · exact ⟨'\n', [], rfl, rfl, rfl, rfl⟩

theorem step_of_take {c d : Control} {k : Token} {n : Nat} {a q : Str} (h : lex c a = .take k n d)
    (hq : a.drop n = q) : Step lex (c, a) k (d, q) := ⟨n, d, h, by rw [← hq]⟩

section
variable {f : FieldLine} {c d : Control} {k : Token} {ks : List Token} {rest : Str}

theorem run_colon {colon ows value : State} (hf : f.Ok) (hending : IsEnding f.ending)
    (hcolon : ∀ c rest, c.state = colon → lex c rest = lexChar rest (lexColon c rest ows))
    (hows : ∀ c rest, c.state = ows → lex c rest = lexChar rest (lexOws c rest value))
    (hc : c.state = colon) (q : Str) :
    ∃ ks, (∀ k ∈ ks, k.code = .skip) ∧
      Run (Step lex) (c, ':' :: (f.space ++ (f.value ++ (f.ending ++ q)))) ks
        ({ c with state := value }, f.value ++ (f.ending ++ q)) := by
  have hfirst : lex c (':' :: (f.space ++ (f.value ++ (f.ending ++ q)))) =
      .take ⟨.skip, [':']⟩ 1 { c with state := ows } := by
    rw [hcolon c _ hc]
    rfl
  obtain ⟨ks, hks, hrun⟩ := Reader.run_ows hows (c := { c with state := ows }) rfl
    (f.space ++ (f.value ++ (f.ending ++ q)))
  -- what follows the white space is the value, or the end of the line
  obtain ⟨x, t, hxt, hx⟩ : ∃ x t, f.value ++ (f.ending ++ q) = x :: t ∧ isOws x = false := by
    cases hvalue : f.value with
    | nil =>
      obtain ⟨x, t, hxt, -, hx, -⟩ := hending.exists_cons
      exact ⟨x, t ++ q, by rw [hxt]; rfl, hx⟩
    | cons x t => exact ⟨x, _, rfl, hf.front x (by rw [hvalue]; rfl)⟩
  have hlen : matchLen isOws (f.space ++ (f.value ++ (f.ending ++ q))) = f.space.length := by
    rw [hxt]
    exact matchLen_append_cons hf.space hx t
  rw [hlen, List.drop_left] at hrun
  have hlast : lex { c with state := ows } (f.value ++ (f.ending ++ q)) =
      .take ⟨.skip, []⟩ 0 { c with state := value } := by
    rw [hows _ _ rfl, hxt]
    simp [lexChar, lexOws, hx, skipTo, takeToken]
  refine ⟨⟨.skip, [':']⟩ :: (ks ++ [⟨.skip, []⟩]), ?_,
    .cons (step_of_take hfirst rfl) (.snoc hrun (step_of_take hlast rfl))⟩
  exact List.forall_mem_cons.mpr ⟨rfl, List.forall_mem_append.mpr ⟨hks, by simp⟩⟩

theorem lexValue_value (hf : f.Ok) (hending : IsEnding f.ending) (q : Str) (g : Nat → LexMove) :
    lexValue (f.value ++ (f.ending ++ q)) g = g f.value.length := by
  obtain ⟨x, t, hxt, hx, -, -⟩ := hending.exists_cons
  have hlen : matchLen isFieldValueChar (f.value ++ (f.ending ++ q)) = f.value.length := by
    rw [hxt]
    exact matchLen_append_cons hf.value hx _
  rw [lexValue, hlen, if_neg (by rw [hxt]; simp)]

theorem lexName_name (hf : f.Ok) (ends : State) (q : Str) (g : Nat → LexMove) :
    lexName c (f.name ++ ':' :: q) ends g = g f.name.length := by
  have hlen : matchLen isTchar (f.name ++ ':' :: q) = f.name.length :=
    matchLen_append_cons hf.name.2 rfl _
  rw [lexName, if_neg (by simp), hlen, if_neg (by simpa using hf.name.1), if_neg (by simp)]

/-- A line with a field is read, unless what it says is refused. -/
theorem FieldLine.reads {N : Nat} (hf : f.Ok) (hending : IsEnding f.ending)
    (hc : c.state = .expectFieldName) (hknows : c.know f.field = .ok d) (hN : f.text.length ≤ N) :
    Reads N c f.text f.onto (d, false) := by
  obtain ⟨state, v, b, m⟩ := c
  subst hc
  simp only [Control.know, field] at hknows
  split at hknows
  · cases hknows
  · cases hknows
  · rename_i version bodyType hname
    split at hknows
    · cases hknows
    · rename_i bodyType' bodySize hvalue
      cases hknows
      have hfirst : lex ⟨.expectFieldName, v, b, m⟩
          (f.name ++ ':' :: (f.space ++ (f.value ++ (f.ending ++ [])))) =
          .take ⟨.fieldName, f.name⟩ f.name.length ⟨.expectColon, version, bodyType, m⟩ := by
        simp only [lex, lexName_name hf, lexFieldName, List.take_left, hname, takeToken]
      obtain ⟨ks, hks, hcolon⟩ := run_colon (c := ⟨.expectColon, version, bodyType, m⟩) hf hending
        (fun c rest hc => by simp only [lex, hc]) Reader.lex_ows rfl []
      have hthird : lex ⟨.expectFieldValue, version, bodyType, m⟩ (f.value ++ (f.ending ++ [])) =
          .take ⟨.fieldValue, f.value⟩ f.value.length
            ⟨.expectCrlfAfterFieldValue, version, bodyType', bodySize⟩ := by
        simp only [lex, lexValue_value hf hending, lexFieldValue, List.take_left, hvalue, takeToken]
      have hlast : lex ⟨.expectCrlfAfterFieldValue, version, bodyType', bodySize⟩ (f.ending ++ []) =
          .take ⟨.skip, f.ending⟩ f.ending.length ⟨.expectFieldName, version, bodyType', bodySize⟩ := by
        simp only [lex, lexLiberalCrlf_ending hending, skipTo, takeToken, List.take_left]
      have hrun := Run.cons (step_of_take hfirst List.drop_left) <| hcolon.append <|
        .cons (step_of_take hthird List.drop_left) (.single (step_of_take hlast List.drop_left))
      rw [List.append_nil] at hrun
      refine .of_run hrun (l := [⟨.fieldName, f.name⟩, ⟨.fieldValue, f.value⟩]) ?_ hN (by simp)
        fun p => rfl
      rw [pieces_cons, pieces_append, pieces_of_skip hks]
      rfl

theorem know_state {h : Str × Str} (hknow : c.know h = .ok d) : d.state = c.state := by
  rw [Control.know] at hknow
  split at hknow
  · cases hknow
  · cases hknow
  · split at hknow
    · cases hknow
    · cases hknow
      rfl

theorem FieldLine.reads_all {N : Nat} {fs : List FieldLine}
    (hfs : ∀ f ∈ fs, f.Ok ∧ IsEnding f.ending ∧ f.text.length ≤ N) (hc : c.state = .expectFieldName)
    (hknows : c.knowAll (fs.map field) = .ok d) :
    Reads N c (fs.flatMap text) (fun p => fs.foldl (fun p f => f.onto p) p) (d, false) := by
  induction fs generalizing c with
  | nil =>
    cases hknows
    exact .nil
  | cons f fs ih =>
    obtain ⟨⟨hf, hending, hN⟩, hfs⟩ := List.forall_mem_cons.mp hfs
    rw [List.map_cons, Control.knowAll, List.foldlM_cons] at hknows
    cases hfirst : c.know f.field with
    | error code =>
      rw [hfirst] at hknows
      cases hknows
    | ok e =>
      rw [hfirst] at hknows
      exact (reads hf hending hc hfirst hN).append
        (ih hfs ((know_state hfirst).trans hc) hknows)

theorem FieldLine.reads_trailer {N : Nat} (hf : f.Ok) (hending : f.ending = crlf)
    (hc : c.state = .expectTrailerName) (hN : f.text.length ≤ N) :
    Reads N c f.text f.onto (c, false) := by
  obtain ⟨state, v, b, m⟩ := c
  subst hc
  have hfirst : lex ⟨.expectTrailerName, v, b, m⟩
      (f.name ++ ':' :: (f.space ++ (f.value ++ (f.ending ++ [])))) =
      .take ⟨.fieldName, f.name⟩ f.name.length ⟨.expectTrailerColon, v, b, m⟩ := by
    simp only [lex, lexName_name hf, takeToken, List.take_left]
  obtain ⟨ks, hks, hcolon⟩ := run_colon (c := ⟨.expectTrailerColon, v, b, m⟩) hf (.inl hending)
    (fun c rest hc => by simp only [lex, hc]) Reader.lex_trailerOws rfl []
  have hthird : lex ⟨.expectTrailerValue, v, b, m⟩ (f.value ++ (f.ending ++ [])) =
      .take ⟨.fieldValue, f.value⟩ f.value.length ⟨.expectCrlfAfterTrailerValue, v, b, m⟩ := by
    simp only [lex, lexValue_value hf (.inl hending), takeToken, List.take_left]
  have hlast : lex ⟨.expectCrlfAfterTrailerValue, v, b, m⟩ (f.ending ++ []) =
      .take ⟨.skip, f.ending⟩ f.ending.length ⟨.expectTrailerName, v, b, m⟩ := by
    rw [hending]
    rfl
  have hrun := Run.cons (step_of_take hfirst List.drop_left) <| hcolon.append <|
    .cons (step_of_take hthird List.drop_left) (.single (step_of_take hlast List.drop_left))
  rw [List.append_nil] at hrun
  refine .of_run hrun (l := [⟨.fieldName, f.name⟩, ⟨.fieldValue, f.value⟩]) ?_ hN (by simp)
    fun p => rfl
  rw [pieces_cons, pieces_append, pieces_of_skip hks]
  rfl

theorem FieldLine.reads_trailers {N : Nat} {fs : List FieldLine}
    (hfs : ∀ f ∈ fs, f.Ok ∧ f.ending = crlf ∧ f.text.length ≤ N) (hc : c.state = .expectTrailerName) :
    Reads N c (fs.flatMap text) (fun p => fs.foldl (fun p f => f.onto p) p) (c, false) := by
  induction fs with
  | nil => exact .nil
  | cons f fs ih =>
    obtain ⟨⟨hf, hending, hN⟩, hfs⟩ := List.forall_mem_cons.mp hfs
    exact (reads_trailer hf hending hc hN).append (ih hfs)

end

theorem FieldLine.onto_request (f : FieldLine) (p : Progress) :
    (f.onto p).request.method = p.request.method ∧ (f.onto p).request.path = p.request.path ∧
      (f.onto p).request.message.body = p.request.message.body := by
  rw [onto, Progress.onField]
  split
  · dsimp only
    split <;> exact ⟨rfl, rfl, rfl⟩
  · exact ⟨rfl, rfl, rfl⟩

theorem FieldLine.foldl_request (fs : List FieldLine) (p : Progress) :
    (fs.foldl (fun p f => f.onto p) p).request.method = p.request.method ∧
      (fs.foldl (fun p f => f.onto p) p).request.path = p.request.path ∧
      (fs.foldl (fun p f => f.onto p) p).request.message.body = p.request.message.body := by
  induction fs generalizing p with
  | nil => exact ⟨rfl, rfl, rfl⟩
  | cons f fs ih =>
    obtain ⟨hmethod, hpath, hbody⟩ := f.onto_request p
    rw [List.foldl_cons, (ih _).1, (ih _).2.1, (ih _).2.2]
    exact ⟨hmethod, hpath, hbody⟩

/-! ### Bodies -/

/-- A chunk: its size in digits, what stands behind it, and its content. -/
structure Chunk where
  size : Str
  ext : Str
  content : Str
  deriving DecidableEq, Repr

namespace Chunk

def line (k : Chunk) : Str := k.size ++ (k.ext ++ crlf)

/-- The last chunk is its line, and no more. -/
def text (k : Chunk) : Str := k.line ++ (k.content ++ crlf)

structure Ok (k : Chunk) : Prop where
  size : IsNumber 16 hexDigit k.size k.content.length
  ext : ∀ x ∈ k.ext, isChunkExtChar x = true
  front : ∀ x ∈ k.ext.head?, isHexdigit x = false

end Chunk

theorem isHexdigit_of_isDigit {x : Char} (h : isDigit x = true) : isHexdigit x = true := by
  obtain ⟨hlow, hhigh⟩ := Bool.and_eq_true_iff.mp h
  rw [decide_eq_true_eq] at hlow hhigh
  obtain ⟨d, hd, hx⟩ : ∃ d, d < 10 ∧ x.toNat = 0x30 + d := ⟨x.toNat - 0x30, by omega, by omega⟩
  have hall : ∀ d, d < 10 → d.digitChar.toNat = 0x30 + d ∧ isHexdigit d.digitChar = true := by decide
  obtain ⟨hnat, hhex⟩ := hall d hd
  rwa [Char.toNat_inj.mp (hx.trans hnat.symm)]

theorem isHexdigit_of_isNumber {s : Str} {n : Nat} (h : IsNumber 16 hexDigit s n) :
    ∀ x ∈ s, isHexdigit x = true := by
  obtain ⟨-, ds, hds, -⟩ := h
  induction hds with
  | nil => simp
  | @cons x d s ds hx _ ih =>
    refine List.forall_mem_cons.mpr ⟨?_, ih⟩
    rw [hexDigit] at hx
    split at hx
    · exact isHexdigit_of_isDigit ‹_›
    · split at hx
      · rename_i hletter
        have hall : "abcdefABCDEF".toList.all isHexdigit = true := by decide
        exact List.all_eq_true.mp hall x (List.contains_iff_mem.mp hletter)
      · cases hx

section
variable {N : Nat} {v : Version} {b : BodyType} {m : Nat} {k : Chunk}

theorem run_chunkLine (hk : k.Ok) (q : Str) :
    Run (Step lex) (⟨.expectChunkSize, v, b, m⟩, k.size ++ (k.ext ++ (crlf ++ q)))
      [⟨.skip, k.size⟩, ⟨.skip, k.ext⟩]
      (⟨.expextCrlfAfterChunkExt, v, b, k.content.length⟩, crlf ++ q) := by
  obtain ⟨x, t, hxt, hx⟩ : ∃ x t, k.ext ++ (crlf ++ q) = x :: t ∧ isHexdigit x = false := by
    cases hext : k.ext with
    | nil => exact ⟨'\r', _, rfl, rfl⟩
    | cons x t => exact ⟨x, _, rfl, hk.front x (by rw [hext]; rfl)⟩
  have hlen : matchLen isHexdigit (k.size ++ (k.ext ++ (crlf ++ q))) = k.size.length := by
    rw [hxt]
    exact matchLen_append_cons (isHexdigit_of_isNumber hk.size) hx t
  have hnumber : chunkSize k.size m = (.ok, k.content.length) := chunkSize_ok_iff.mpr hk.size
  have hsize : lex ⟨.expectChunkSize, v, b, m⟩ (k.size ++ (k.ext ++ (crlf ++ q))) =
      .take ⟨.skip, k.size⟩ k.size.length ⟨.expectChunkExt, v, b, k.content.length⟩ := by
    simp only [lex, lexChunkSize, hlen, List.take_left, hnumber, skipTo, takeToken]
    rw [if_neg (by rw [hxt]; simp), if_neg (by simpa using hk.size.1), if_neg (by rw [hxt]; simp)]
  have hextLen : matchLen isChunkExtChar (k.ext ++ (crlf ++ q)) = k.ext.length :=
    matchLen_append_cons hk.ext rfl _
  have hext : lex ⟨.expectChunkExt, v, b, k.content.length⟩ (k.ext ++ (crlf ++ q)) =
      .take ⟨.skip, k.ext⟩ k.ext.length ⟨.expextCrlfAfterChunkExt, v, b, k.content.length⟩ := by
    simp only [lex, lexChunkExt, hextLen, List.drop_left]
    simp [crlf, skipTo, takeToken]
  exact .cons (step_of_take hsize List.drop_left) (.single (step_of_take hext List.drop_left))

/-- What a part of the body changes. -/
def Progress.onBody (content : Str) (p : Progress) : Progress :=
  { p with request.message.body := p.request.message.body ++ content }

/-- A body is read character by character, and is never too long for the buffer. -/
theorem reads_content {state behind : State}
    (hlex : ∀ d rest, d.state = state → lex d rest = lexChar rest fun _ => lexBody d rest behind)
    (hN : 0 < N) {content : Str} (hne : content ≠ []) :
    Reads N ⟨state, v, b, content.length⟩ content (Progress.onBody content)
      (⟨behind, v, b, 0⟩, false) := by
  induction content with
  | nil => exact absurd rfl hne
  | cons x t ih =>
    have hfirst : lex ⟨state, v, b, (x :: t).length⟩ [x] = .take ⟨.bodyChunk, [x]⟩ 1
        ⟨if t.length = 0 then behind else state, v, b, t.length⟩ := by
      rw [hlex _ _ rfl]
      rfl
    have hone : Reads N ⟨state, v, b, (x :: t).length⟩ [x] (Progress.onBody [x])
        (⟨if t.length = 0 then behind else state, v, b, t.length⟩, false) :=
      .of_run (.single (step_of_take hfirst rfl)) rfl hN (by simp) fun p => rfl
    cases t with
    | nil => exact hone
    | cons y t =>
      have hboth := hone.append (ih (by simp))
      have hsay : Progress.onBody (y :: t) ∘ Progress.onBody [x] = Progress.onBody (x :: y :: t) := by
        funext p
        simp [Progress.onBody]
      rwa [hsay] at hboth

theorem Chunk.reads (hk : k.Ok) (hne : k.content ≠ []) (hN : k.line.length ≤ N) :
    Reads N ⟨.expectChunkSize, v, b, m⟩ k.text (Progress.onBody k.content)
      (⟨.expectChunkSize, v, b, 0⟩, false) := by
  have htwo : 2 ≤ N := by
    refine Nat.le_trans ?_ hN
    simp only [line, crlf, List.length_append, List.length_cons, List.length_nil]
    omega
  have hpos : k.content.length ≠ 0 := by simpa using hne
  have hend : lex ⟨.expextCrlfAfterChunkExt, v, b, k.content.length⟩ (crlf ++ []) =
      .take ⟨.skip, crlf⟩ 2 ⟨.expectChunkData, v, b, k.content.length⟩ := by
    simp only [lex, lexStrictCrlf_crlf, lexCrlfAfterChunkExt, if_pos hpos]
    rfl
  have hline : Reads N ⟨.expectChunkSize, v, b, m⟩ k.line id
      (⟨.expectChunkData, v, b, k.content.length⟩, false) := by
    have hrun := (run_chunkLine (v := v) (b := b) (m := m) hk []).snoc (step_of_take hend rfl)
    exact .of_run (l := []) hrun rfl hN (by simp) fun p => rfl
  have hbehind : Reads N ⟨.expectCrlfAfterChunkData, v, b, 0⟩ crlf id
      (⟨.expectChunkSize, v, b, 0⟩, false) :=
    .of_run (l := []) (.single (step_of_take (k := ⟨.skip, crlf⟩) (n := 2) rfl rfl)) rfl htwo (by simp)
      fun p => rfl
  exact hline.append ((reads_content (fun d rest => Reader.lex_chunkData d rest) (by omega) hne).append
    hbehind)

theorem Chunk.reads_all {chunks : List Chunk}
    (hchunks : ∀ k ∈ chunks, k.Ok ∧ k.content ≠ [] ∧ k.line.length ≤ N) :
    ∃ m', Reads N ⟨.expectChunkSize, v, b, m⟩ (chunks.flatMap text)
      (Progress.onBody (chunks.flatMap content)) (⟨.expectChunkSize, v, b, m'⟩, false) := by
  induction chunks generalizing m with
  | nil =>
    refine ⟨m, ?_⟩
    have hsay : Progress.onBody (([] : List Chunk).flatMap content) = id := by
      funext p
      simp [Progress.onBody]
    rw [hsay]
    exact .nil
  | cons k chunks ih =>
    obtain ⟨⟨hk, hne, hN⟩, hchunks⟩ := List.forall_mem_cons.mp hchunks
    obtain ⟨m', hrest⟩ := ih (m := 0) hchunks
    refine ⟨m', ?_⟩
    have hboth := (reads (m := m) hk hne hN).append hrest
    have hsay : Progress.onBody (chunks.flatMap content) ∘ Progress.onBody k.content =
        Progress.onBody ((k :: chunks).flatMap content) := by
      funext p
      simp [Progress.onBody]
    rwa [hsay] at hboth

theorem Chunk.reads_last (hk : k.Ok) (hempty : k.content = []) (hN : k.line.length ≤ N) :
    Reads N ⟨.expectChunkSize, v, b, m⟩ k.line (·.onToken [] .endOfBody crlf)
      (⟨.expectTrailerName, v, b, 0⟩, false) := by
  have hend : lex ⟨.expextCrlfAfterChunkExt, v, b, k.content.length⟩ (crlf ++ []) =
      .take ⟨.endOfBody, crlf⟩ 2 ⟨.expectTrailerName, v, b, 0⟩ := by
    rw [hempty]
    rfl
  have hrun := (run_chunkLine (v := v) (b := b) (m := m) hk []).snoc (step_of_take hend rfl)
  exact .of_run (l := [⟨.endOfBody, crlf⟩]) hrun rfl hN (by simp) fun p => rfl

end

theorem length_le_flatMap {α β : Type} {f : α → List β} {l : List α} {x : α} (h : x ∈ l) :
    (f x).length ≤ (l.flatMap f).length := by
  rw [List.flatMap_def]
  exact (List.sublist_flatten_of_mem (List.mem_map.mpr ⟨x, h, rfl⟩)).length_le

/-- The body of a request. -/
inductive BodyText where
  | empty
  | sized (content : Str)
  | chunked (chunks : List Chunk) (last : Chunk) (trailers : List FieldLine)
  deriving DecidableEq, Repr

namespace BodyText

def text : BodyText → Str
  | empty => []
  | sized content => content
  | chunked chunks last trailers =>
    chunks.flatMap Chunk.text ++ (last.line ++ (trailers.flatMap FieldLine.text ++ crlf))

def content : BodyText → Str
  | empty => []
  | sized content => content
  | chunked chunks _ _ => chunks.flatMap Chunk.content

def trailers : BodyText → List FieldLine
  | chunked _ _ trailers => trailers
  | _ => []

def Ok : BodyText → Prop
  | empty => True
  | sized content => content ≠ []
  | chunked chunks last trailers => (∀ k ∈ chunks, k.Ok ∧ k.content ≠ []) ∧
      (last.Ok ∧ last.content = []) ∧ ∀ f ∈ trailers, f.Ok ∧ f.ending = crlf

/-- The lines in it fit into `N` bytes. -/
def Fits (N : Nat) : BodyText → Prop
  | empty => True
  | sized _ => 0 < N
  | chunked chunks last trailers => (∀ k ∈ chunks, k.line.length ≤ N) ∧ last.line.length ≤ N ∧
      ∀ f ∈ trailers, f.text.length ≤ N

/-- What fits as a whole fits line by line. -/
theorem fits_text {body : BodyText} {N : Nat} (hN : body.text.length ≤ N) (hpos : 0 < N) :
    body.Fits N := by
  cases body with
  | empty => exact trivial
  | sized content => exact hpos
  | chunked chunks last trailers =>
    simp only [text, List.length_append] at hN
    refine ⟨fun k hk => ?_, by omega, fun f hf => ?_⟩
    · have hline : k.line.length ≤ k.text.length := by simp [Chunk.text]
      have hmem := length_le_flatMap (f := Chunk.text) hk
      omega
    · have hmem := length_le_flatMap (f := FieldLine.text) hf
      omega

def framing : BodyText → Framing
  | empty => .empty
  | sized content => .sized content.length
  | chunked .. => .chunked

/-- The state behind the headers. -/
def state : BodyText → State
  | empty => .expectEndOfBody
  | sized _ => .expectBody
  | chunked .. => .expectChunkSize

/-- What it says: its content, and fields behind it. -/
def onto (body : BodyText) (p : Progress) : Progress :=
  { body.trailers.foldl (fun p f => f.onto p)
      { p.onBody body.content with istate := .bodyReady, useTrailers := true } with istate := .empty }

theorem onto_request (body : BodyText) (p : Progress) :
    (body.onto p).request.method = p.request.method ∧ (body.onto p).request.path = p.request.path ∧
      (body.onto p).request.message.body = p.request.message.body ++ body.content :=
  FieldLine.foldl_request body.trailers _

theorem behindHeaders_eq {c : Control} {body : BodyText} (h : body.framing.Behind c) :
    behindHeaders c = .ok body.state := by
  cases body with
  | empty => exact h
  | sized content => exact h.1
  | chunked => exact h

/-- A body that is framed as the fields say is read to its end. -/
theorem reads {N : Nat} {c : Control} {body : BodyText} (hok : body.Ok) (hfits : body.Fits N)
    (hframed : body.framing.Behind c) :
    ∃ d, Reads N { c with state := body.state } body.text body.onto (d, true) := by
  obtain ⟨state, v, b, m⟩ := c
  have hend {m : Nat} : Reads N ⟨.expectEndOfBody, v, b, m⟩ []
      ((·.onToken [] .endOfMessage []) ∘ (·.onToken [] .endOfBody []))
      (⟨.expectMethod, v, .noBody, m⟩, true) := by
    have hbody : Reads N ⟨.expectEndOfBody, v, b, m⟩ [] (·.onToken [] .endOfBody [])
        (⟨.expectEndOfMessage, v, b, m⟩, false) :=
      .of_run (l := [⟨.endOfBody, []⟩]) (.single (step_of_take rfl rfl)) rfl (Nat.zero_le _) (by simp)
        fun p => rfl
    have hmessage : Reads N ⟨.expectEndOfMessage, v, b, m⟩ [] (·.onToken [] .endOfMessage [])
        (⟨.expectMethod, v, .noBody, m⟩, true) := .of_end .nil (by simp) rfl (Nat.zero_le _)
    exact hbody.append hmessage
  cases body with
  | empty =>
    have hsay : empty.onto = (·.onToken [] .endOfMessage []) ∘ (·.onToken [] .endOfBody []) := by
      funext p
      simp [onto, content, trailers, Progress.onBody, Progress.onToken]
    rw [hsay]
    exact ⟨_, hend⟩
  | sized content =>
    obtain ⟨-, rfl⟩ := hframed
    have hcontent := reads_content (v := v) (b := b) (fun d rest => Reader.lex_body d rest) hfits hok
    have hboth := hcontent.append hend
    rw [List.append_nil] at hboth
    exact ⟨_, hboth⟩
  | chunked chunks last trailers =>
    obtain ⟨hchunks, ⟨hlast, hempty⟩, htrailers⟩ := hok
    obtain ⟨hchunksN, hlastN, htrailersN⟩ := hfits
    have htwo : crlf.length ≤ N := by
      refine Nat.le_trans ?_ hlastN
      simp only [Chunk.line, List.length_append]
      omega
    have hall : ∀ k ∈ chunks, k.Ok ∧ k.content ≠ [] ∧ k.line.length ≤ N := fun k hk =>
      ⟨(hchunks k hk).1, (hchunks k hk).2, hchunksN k hk⟩
    obtain ⟨m', hfirst⟩ := Chunk.reads_all (v := v) (b := b) (m := m) hall
    have hsecond := Chunk.reads_last (v := v) (b := b) (m := m') hlast hempty hlastN
    have hthird := FieldLine.reads_trailers (c := ⟨.expectTrailerName, v, b, 0⟩)
      (fun f hf => ⟨(htrailers f hf).1, (htrailers f hf).2, htrailersN f hf⟩) rfl
    have hname : lex ⟨.expectTrailerName, v, b, 0⟩ crlf =
        .take ⟨.skip, []⟩ 0 ⟨.expectCrlfAfterTrailers, v, b, 0⟩ := rfl
    have hlast : Reads N ⟨.expectTrailerName, v, b, 0⟩ crlf (·.onToken [] .endOfMessage crlf)
        (⟨.expectMethod, v, .noBody, 0⟩, true) :=
      .of_end (.single (step_of_take hname rfl)) (by simp) rfl htwo
    exact ⟨_, hfirst.append (hsecond.append (hthird.append hlast))⟩

end BodyText

theorem lex_noField {c : Control} {ending : Str} (hc : c.state = .expectFieldName)
    (hending : IsEnding ending) (q : Str) : lex c (ending ++ q) =
      .take ⟨.skip, []⟩ 0 { c with state := .expectCrlfAfterHeaders } := by
  obtain ⟨_, v, b, m⟩ := c
  subst hc
  obtain ⟨x, t, hxt, -, -, hx⟩ := hending.exists_cons
  have hzero : matchLen isTchar (ending ++ q) = 0 := by
    rw [hxt, List.cons_append, matchLen, List.takeWhile_cons_of_neg (by simp [hx])]
    rfl
  simp only [lex, lexName, hzero, if_true, if_neg (show ¬ ending ++ q = [] by simp [hxt]), skipTo,
    takeToken, List.take_zero]

/-! ### Requests -/

structure RequestText where
  method : Str
  target : Str
  version : Char
  lineEnd : Str
  fields : List FieldLine
  headersEnd : Str
  body : BodyText
  deriving DecidableEq, Repr

namespace RequestText

def line (r : RequestText) : Str :=
  r.method ++ ' ' :: (r.target ++ (Reader.staticStr ++ r.version :: r.lineEnd))

def text (r : RequestText) : Str :=
  r.line ++ (r.fields.flatMap FieldLine.text ++ (r.headersEnd ++ r.body.text))

/-- The fields as the reader sees them. -/
def headers (r : RequestText) : Headers := r.fields.map FieldLine.field

/-- A request that follows the syntax, names a host and frames its body. -/
structure Ok (r : RequestText) : Prop where
  method : r.method ≠ [] ∧ ∀ x ∈ r.method, isTchar x = true
  target : r.target ≠ [] ∧ ∀ x ∈ r.target, isRequestTargetChar x = true
  version : isDigit r.version = true
  lineEnd : IsEnding r.lineEnd
  fields : ∀ f ∈ r.fields, f.Ok ∧ IsEnding f.ending
  headersEnd : IsEnding r.headersEnd
  host : startVersion r.version = .http10 ∨ ∃ value, ofKind .host r.headers = [value]
  framing : r.body.framing.Of r.headers
  body : r.body.Ok

/-- Each of its lines fits into `N` bytes. -/
structure Fits (N : Nat) (r : RequestText) : Prop where
  line : r.line.length ≤ N
  fields : ∀ f ∈ r.fields, f.text.length ≤ N
  headersEnd : r.headersEnd.length ≤ N
  body : r.body.Fits N

/-- What the start line says. -/
def ontoLine (r : RequestText) (p : Progress) : Progress :=
  ((p.onToken [] .method r.method).onToken [] .requestTarget r.target).onToken [] .version [r.version]

/-- What the request says. -/
def onto (r : RequestText) (p : Progress) : Progress :=
  r.body.onto (r.fields.foldl (fun p f => f.onto p) (r.ontoLine p)).onEndOfHeaders

theorem onto_request {r : RequestText} {p : Progress} (hp : p.request = {}) :
    (r.onto p).request.method = r.method ∧ (r.onto p).request.path = r.target ∧
      (r.onto p).request.message.body = r.body.content := by
  obtain ⟨hmethod, hpath, hbody⟩ := r.body.onto_request
    (r.fields.foldl (fun p f => f.onto p) (r.ontoLine p)).onEndOfHeaders
  obtain ⟨hmethod', hpath', hbody'⟩ := FieldLine.foldl_request r.fields (r.ontoLine p)
  refine ⟨hmethod.trans hmethod', hpath.trans hpath', hbody.trans ?_⟩
  have hempty : (r.ontoLine p).request.message.body = [] := by
    change p.request.message.body = []
    rw [hp]
  change (r.fields.foldl (fun p f => f.onto p) (r.ontoLine p)).request.message.body ++ _ = _
  rw [hbody', hempty, List.nil_append]

section
variable {N m : Nat} {v : Version} {r : RequestText}

theorem reads_line (hr : r.Ok) (hN : r.line.length ≤ N) :
    Reads N ⟨.expectMethod, v, .noBody, m⟩ r.line r.ontoLine (.atFields r.version m, false) := by
  have hmethod : lex ⟨.expectMethod, v, .noBody, m⟩ r.line =
      .take ⟨.method, r.method⟩ r.method.length ⟨.expectSpAfterMethod, v, .noBody, m⟩ := by
    have hlen : matchLen isTchar r.line = r.method.length :=
      matchLen_append_cons hr.method.2 rfl _
    simp only [lex, lexRun, hlen, if_neg (show ¬ r.method.length = r.line.length by simp [line]),
      if_neg (show ¬ r.method.length = 0 by simpa using hr.method.1), takeToken]
    rw [line, List.take_left]
  have hspace : lex ⟨.expectSpAfterMethod, v, .noBody, m⟩
      (' ' :: (r.target ++ (Reader.staticStr ++ r.version :: r.lineEnd))) =
      .take ⟨.skip, [' ']⟩ 1 ⟨.expectRequestTarget, v, .noBody, m⟩ := rfl
  have htarget : lex ⟨.expectRequestTarget, v, .noBody, m⟩
      (r.target ++ (Reader.staticStr ++ r.version :: r.lineEnd)) =
      .take ⟨.requestTarget, r.target⟩ r.target.length
        ⟨.expectStaticStrAfterTarget, v, .noBody, m⟩ := by
    have hlen : matchLen isRequestTargetChar
        (r.target ++ (Reader.staticStr ++ r.version :: r.lineEnd)) = r.target.length :=
      matchLen_append_cons hr.target.2 rfl _
    have hall : ¬ r.target.length = (r.target ++ (Reader.staticStr ++ r.version :: r.lineEnd)).length := by
      simp only [List.length_append, List.length_cons]
      omega
    simp only [lex, lexRun, hlen, if_neg hall,
      if_neg (show ¬ r.target.length = 0 by simpa using hr.target.1), takeToken, List.take_left]
  have hstatic : lex ⟨.expectStaticStrAfterTarget, v, .noBody, m⟩
      (Reader.staticStr ++ r.version :: r.lineEnd) =
      .take ⟨.skip, Reader.staticStr⟩ Reader.staticStr.length ⟨.expectVersion, v, .noBody, m⟩ := by
    simp only [lex, lexStaticStr, List.take_left]
    rfl
  have hversion : lex ⟨.expectVersion, v, .noBody, m⟩ (r.version :: r.lineEnd) =
      .take ⟨.version, [r.version]⟩ 1
        ⟨.expectCrlfAfterVersion, startVersion r.version, .noBody, m⟩ := by
    simp only [lex, lexChar, lexVersion, hr.version, if_true]
    rfl
  have hend : lex ⟨.expectCrlfAfterVersion, startVersion r.version, .noBody, m⟩ (r.lineEnd ++ []) =
      .take ⟨.skip, r.lineEnd⟩ r.lineEnd.length (.atFields r.version m) := by
    simp only [lex, lexLiberalCrlf_ending hr.lineEnd, skipTo, takeToken, List.take_left]
    rfl
  rw [List.append_nil] at hend
  have hrun := Run.cons (step_of_take hmethod List.drop_left) <|
    .cons (step_of_take hspace rfl) <| .cons (step_of_take htarget List.drop_left) <|
    .cons (step_of_take hstatic List.drop_left) <| .cons (step_of_take hversion rfl) <|
    .single (step_of_take hend List.drop_length)
  exact .of_run (l := [⟨.method, r.method⟩, ⟨.requestTarget, r.target⟩, ⟨.version, [r.version]⟩]) hrun
    rfl hN (by simp) fun p => rfl

theorem reads_headersEnd {c : Control} {ending : Str} {state : State} (hc : c.state = .expectFieldName)
    (hending : IsEnding ending) (hbehind : behindHeaders c = .ok state) (hN : ending.length ≤ N) :
    Reads N c ending Progress.onEndOfHeaders ({ c with state }, false) := by
  have hname := lex_noField hc hending []
  obtain ⟨_, v, b, m⟩ := c
  subst hc
  rw [List.append_nil] at hname
  have hend : lex ⟨.expectCrlfAfterHeaders, v, b, m⟩ (ending ++ []) =
      .take ⟨.endOfHeaders, ending⟩ ending.length ⟨state, v, b, m⟩ := by
    have hbehind' : behindHeaders ⟨.expectCrlfAfterHeaders, v, b, m⟩ = .ok state := hbehind
    simp only [lex, lexLiberalCrlf_ending hending, lexEndOfHeaders, hbehind', takeToken,
      List.take_left]
  rw [List.append_nil] at hend
  exact .of_run (l := [⟨.endOfHeaders, ending⟩])
    (.cons (step_of_take hname rfl) (.single (step_of_take hend List.drop_length))) rfl hN (by simp)
    fun p => rfl

/-- A request is read as it is written, to its end and no further. -/
theorem reads (hr : r.Ok) (hfits : r.Fits N) :
    ∃ d, Reads N ⟨.expectMethod, v, .noBody, m⟩ r.text r.onto (d, true) := by
  obtain ⟨c, hknow, hbehind⟩ := knowAll_of_framing hr.host hr.framing m
  have hstate : c.state = .expectFieldName := (knowAll_ok_iff.mp hknow).state
  obtain ⟨d, hbody⟩ := BodyText.reads hr.body hfits.body hbehind
  have hfields := FieldLine.reads_all (fun f hf => ⟨(hr.fields f hf).1, (hr.fields f hf).2,
    hfits.fields f hf⟩) (c := .atFields r.version m) rfl hknow
  have hend := reads_headersEnd hstate hr.headersEnd (BodyText.behindHeaders_eq hbehind)
    hfits.headersEnd
  exact ⟨d, (reads_line hr hfits.line).append (hfields.append (hend.append hbody))⟩

end

end RequestText

end Http

end Wye
