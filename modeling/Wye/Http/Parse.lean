import Wye.Http.Phases
import Wye.Http.Socket

/-!
# What the loop over the tokens reads

The loop in `on_async_read_message` moves bytes about in one buffer, writes small letters into it and
keeps indices. What comes of it is what `lex` reads from the bytes that were in the buffer, told token
by token (`tellAll`), and the bytes that are left (`Loop.Holds`).
-/

namespace Wye

open Text Buffer Incremental Transition

namespace Http

/-- The token behind which a request ends. -/
def Token.isEnd (k : Token) : Bool := k.code == .endOfMessage

/-- The reader of one request. -/
abbrev lexOne : Control × Bool → Str → Move (Control × Bool) Token Code := upTo Token.isEnd lex

/-- What the socket shows, and the name of the field that is being read. -/
abbrev Told := Progress × Option Str

/-- What a token changes in it. -/
def tell (x : Told) (k : Token) : Told :=
  match k.code with
  | .fieldName => (x.1, some (k.text.map Char.toLower))
  | .fieldValue => (x.1.onToken (x.2.getD []) .fieldValue k.text, none)
  | code => (x.1.onToken [] code k.text, x.2)

def tellAll (x : Told) (ks : List Token) : Told := ks.foldl tell x

@[simp] theorem tellAll_nil (x : Told) : tellAll x [] = x := rfl

@[simp] theorem tellAll_cons (x : Told) (k : Token) (ks : List Token) :
    tellAll x (k :: ks) = tellAll (tell x k) ks := rfl

theorem tellAll_append (x : Told) (ks ks' : List Token) :
    tellAll x (ks ++ ks') = tellAll (tellAll x ks) ks' := List.foldl_append

theorem tellAll_chunk (x : Told) (text : Str) :
    tellAll x (text.map fun c => ⟨.bodyChunk, [c]⟩) = tell x ⟨.bodyChunk, text⟩ := by
  induction text generalizing x with
  | nil => simp [tell, Progress.onToken]
  | cons c text ih =>
    rw [List.map_cons, tellAll_cons, ih]
    simp [tell, Progress.onToken]

theorem tellAll_pieces (x : Told) (ks : List Token) : tellAll x (pieces ks) = tellAll x ks := by
  induction ks generalizing x with
  | nil => rfl
  | cons k ks ih =>
    rw [pieces_cons, tellAll_append, ih, tellAll_cons]
    congr 1
    obtain ⟨code, text⟩ := k
    cases code <;> first | rfl | exact tellAll_chunk x text

theorem tellAll_congr {ks ks' : List Token} (h : pieces ks = pieces ks') (x : Told) :
    tellAll x ks = tellAll x ks' := by
  rw [← tellAll_pieces, h, tellAll_pieces]

theorem tellAll_skip {ks : List Token} (h : ∀ k ∈ ks, k.code = .skip) (x : Told) :
    tellAll x ks = x := tellAll_congr (show pieces ks = pieces [] from pieces_of_skip h) x

/-! ### What the socket shows -/

/-- What the reader expects agrees with what the socket shows. -/
structure Shows (c : Control) (x : Told) : Prop where
  ok : c.Ok
  expected : c.state ≠ .errored
  phase : x.1.istate = c.state.phase
  named : x.2.isSome = c.state.named
  trailers : x.1.istate = .bodyReady → x.1.useTrailers = true

theorem Progress.istate_onField (p : Progress) (name value : Str) :
    (p.onField name value).istate = p.istate := by
  unfold onField
  split
  · dsimp only
    split <;> rfl
  · rfl

theorem Progress.useTrailers_onField (p : Progress) (name value : Str) :
    (p.onField name value).useTrailers = p.useTrailers := by
  unfold onField
  split
  · dsimp only
    split <;> rfl
  · rfl

theorem Progress.istate_onToken {p : Progress} {code : Code} {q : ReadState}
    (h : code.phase p.istate = some q) (name text : Str) : (p.onToken name code text).istate = q := by
  cases hp : p.istate <;> rw [hp] at h <;> cases code <;> cases h <;>
    simp [onToken, onEndOfHeaders, istate_onField, hp]

theorem Progress.useTrailers_onToken {p : Progress} {code : Code}
    (h : code.phase p.istate = some .bodyReady) (hp : p.istate = .bodyReady → p.useTrailers = true)
    (name text : Str) : (p.onToken name code text).useTrailers = true := by
  cases hstate : p.istate <;> rw [hstate] at h <;> cases code <;> cases h <;>
    simp_all [onToken, useTrailers_onField]

section
variable {c d : Control} {x : Told} {k : Token} {ks : List Token} {rest q : Str}

theorem tell_of_ne {x : Told} {k : Token} (h : k.code ≠ .fieldName) :
    ∃ name, (Http.tell x k).1 = x.1.onToken name k.code k.text := by
  unfold Http.tell
  split
  · exact absurd ‹_› h
  · rename_i hcode
    exact ⟨_, by rw [hcode]⟩
  · exact ⟨_, rfl⟩

theorem Shows.tell (h : Shows c x) (hk : Leads c k d) : Shows d (tell x k) := by
  have hphase := hk.phase
  have hnamed := hk.named
  rw [← h.phase] at hphase
  rw [← h.named] at hnamed
  by_cases hcode : k.code = .fieldName
  · have htell : Http.tell x k = (x.1, some (k.text.map Char.toLower)) := by rw [Http.tell, hcode]
    have hsame : d.state.phase = x.1.istate := by
      rw [hcode] at hphase
      generalize d.state.phase = p at hphase
      cases hp : x.1.istate <;> rw [hp] at hphase <;> cases hphase <;> rfl
    refine ⟨hk.ok h.ok, hk.expected, ?_, ?_, ?_⟩ <;> rw [htell]
    · exact hsame.symm
    · rw [hcode] at hnamed
      cases hx : x.2 <;> simp_all [Code.names]
    · exact h.trailers
  · obtain ⟨name, htell⟩ := tell_of_ne (x := x) hcode
    refine ⟨hk.ok h.ok, hk.expected, ?_, ?_, fun hbody => ?_⟩
    · rw [htell]
      exact Progress.istate_onToken hphase _ _
    · unfold Http.tell
      split
      · exact absurd ‹_› hcode
      · rename_i hvalue
        rw [hvalue] at hnamed
        cases hx : x.2 <;> simp_all [Code.names]
      · rename_i hvalue
        cases hk : k.code <;> simp_all [Code.names]
    · rw [htell] at hbody ⊢
      rw [Progress.istate_onToken hphase] at hbody
      exact Progress.useTrailers_onToken (hbody ▸ hphase) h.trailers _ _

theorem Shows.run (h : Shows c x) (hrun : Run (Step lex) (c, rest) ks (d, q)) :
    Shows d (tellAll x ks) := by
  generalize hd : (d, q) = u at hrun
  induction hrun generalizing d q with
  | nil =>
    cases hd
    exact h
  | @snoc v w ks k _ hstep ih =>
    subst hd
    obtain ⟨n, e, hmove, heq⟩ := hstep
    cases heq
    rw [tellAll_append]
    exact (ih rfl).tell (lex_moves hmove).leads

end

/-! ### The variables of the loop -/

/-- The part of the buffer that is used ends with `rest`, which has not been parsed, and the name of
the field that is being read is in it. -/
structure Loop.Stands (l : Loop) (rest : Str) (name : Option Str) : Prop where
  used : l.socket.usedSize ≤ l.socket.buffer.length
  unparsed : l.nparsed + rest.length = l.socket.usedSize
  rest_eq : view l.socket.buffer l.nparsed rest.length = rest
  expecting : l.socket.expectingField = name.isSome
  name : ∀ n ∈ name, l.socket.fieldNameSize = n.length ∧ l.fieldNameBegin + n.length ≤ l.nparsed ∧
    view l.socket.buffer l.fieldNameBegin n.length = n

/-- The loop has read up to `rest`, and expects `c`. Behind the end of a request the parser sees
nothing of `rest`. -/
structure Loop.Holds (l : Loop) (c : Control) (ended : Bool) (rest : Str) (name : Option Str) : Prop
    extends l.Stands rest name where
  parser : l.socket.parser.consume.At c (if ended then [] else rest)
  ended : ended = true → c.state = .expectMethod
  nparsed : l.nparsed = l.start + l.socket.parser.consume.idx

/-- What the loop leaves alone. -/
structure Loop.Frame (l l' : Loop) : Prop where
  channel : l'.socket.channel = l.socket.channel
  isOpen : l'.socket.isOpen = l.socket.isOpen
  length : l'.socket.buffer.length = l.socket.buffer.length
  used : l'.socket.usedSize = l.socket.usedSize

theorem Loop.Frame.refl (l : Loop) : Frame l l := ⟨rfl, rfl, rfl, rfl⟩

theorem Loop.Frame.trans {l l' l'' : Loop} (h : Frame l l') (h' : Frame l' l'') : Frame l l'' :=
  ⟨h'.channel.trans h.channel, h'.isOpen.trans h.isOpen, h'.length.trans h.length,
    h'.used.trans h.used⟩

theorem Reader.At.of_ibuffer {r : Reader} {c : Control} {rest ibuffer : Str} (h : r.At c rest)
    (hrest : ibuffer.drop r.idx = rest) (hidx : r.idx ≤ ibuffer.length) :
    { r with ibuffer }.At c rest :=
  ⟨h.control, h.code, hrest, hidx, h.size, h.seen⟩

theorem Reader.At.setBuffer {r : Reader} {c : Control} {rest : Str} (h : r.At c rest) :
    (r.setBuffer rest).At c rest :=
  ⟨h.control, h.code, rfl, Nat.zero_le _, h.size, h.seen⟩

/-- The operation that waits for a token. -/
def Code.target : Code → Option Target
  | .endOfHeaders => some .ready
  | .bodyChunk => some .data
  | .endOfMessage => some .ends
  | _ => none

namespace Loop

variable {l l' : Loop} {c d : Control} {rest : Str} {name : Option Str} {n : Nat}

theorem Stands.advance (h : l.Stands rest name) (hn : n ≤ rest.length) :
    { l with nparsed := l.nparsed + n }.Stands (rest.drop n) name where
  used := h.used
  unparsed := by
    have := h.unparsed
    rw [List.length_drop]
    dsimp only
    omega
  rest_eq := by
    have hdrop := congrArg (List.drop n) h.rest_eq
    rwa [drop_view, ← List.length_drop] at hdrop
  expecting := h.expecting
  name m hm := by
    obtain ⟨hsize, hle, hview⟩ := h.name m hm
    exact ⟨hsize, Nat.le_add_right_of_le hle, hview⟩

/-- The parser has found a token of `n` characters, behind which it expects `d`. -/
structure Found (l : Loop) (rest : Str) (d : Control) (n : Nat) : Prop where
  token : l.socket.parser.code.isToken = true
  rest_eq : l.socket.parser.rest = rest
  size : l.socket.parser.tokenSize = n
  le : n ≤ rest.length
  parser : l.socket.parser.consume.At d (rest.drop n)
  nparsed : l.nparsed = l.start + l.socket.parser.idx
  ended : l.socket.parser.code = .endOfMessage → d.state = .expectMethod

/-- The token that has been found. -/
def found (l : Loop) : Token := ⟨l.socket.parser.code, l.socket.parser.value⟩

section
variable (h : l.Stands rest name) (hfound : l.Found rest d n)
include hfound

theorem Found.code_ne : l.socket.parser.code ≠ .errorInsufficientData := by
  intro hcode
  have htoken := hfound.token
  rw [hcode] at htoken
  cases htoken

theorem Found.consume_idx : l.socket.parser.consume.idx = l.socket.parser.idx + n := by
  rw [Reader.consume, if_pos hfound.code_ne]
  exact congrArg _ hfound.size

theorem Found.value : l.socket.parser.value = rest.take n := by
  rw [Reader.value, hfound.rest_eq, hfound.size]

theorem Found.holds {name' : Option Str} (hstands : { l with nparsed := l.nparsed + n }.Stands
    (rest.drop n) name') : { l with nparsed := l.nparsed + n }.Holds d false (rest.drop n) name' where
  toStands := hstands
  parser := hfound.parser
  ended := nofun
  nparsed := by
    have := hfound.nparsed
    dsimp only
    rw [hfound.consume_idx]
    omega

include h

theorem onFieldName_spec : ∃ l', l.onFieldName = some l' ∧
    { l' with nparsed := l'.nparsed + n }.Holds d false (rest.drop n)
      (some (l.socket.parser.value.map Char.toLower)) ∧
    l'.socket.toProgress = l.socket.toProgress ∧ l'.flags = l.flags ∧ Frame l l' := by
  obtain rfl := hfound.size
  have hn := hfound.le
  have hplace : l.nparsed + l.socket.parser.tokenSize ≤ l.socket.buffer.length := by
    have := h.unparsed
    have := h.used
    omega
  have hview := (take_view hn).symm.trans (congrArg (List.take _) h.rest_eq)
  have hlow : ((rest.take l.socket.parser.tokenSize).map Char.toLower).length =
      l.socket.parser.tokenSize := by simp [hn]
  rw [onFieldName, hfound.value]
  simp only [if_pos hplace, hview]
  generalize (rest.take l.socket.parser.tokenSize).map Char.toLower = low at hlow
  have hfits : l.nparsed + low.length ≤ l.socket.buffer.length := by rwa [hlow]
  have hbuffer := length_overwrite hfits
  have hbehind (k : Nat) : view (overwrite l.socket.buffer l.nparsed low)
      (l.nparsed + l.socket.parser.tokenSize) k =
        view l.socket.buffer (l.nparsed + l.socket.parser.tokenSize) k :=
    view_overwrite_behind hfits (by rw [hlow])
  have hadv := h.advance hn
  have hidx : l.socket.parser.idx + rest.length = l.socket.parser.ibuffer.length := by
    have hlen := congrArg List.length hfound.rest_eq
    have := hfound.parser.idx
    rw [hfound.consume_idx] at this
    rw [Reader.rest, List.length_drop] at hlen
    change l.socket.parser.idx + l.socket.parser.tokenSize ≤ l.socket.parser.consume.ibuffer.length at this
    rw [Reader.consume, if_pos hfound.code_ne] at this
    dsimp only at this
    omega
  have hstart : l.start + l.socket.parser.ibuffer.length = l.socket.usedSize := by
    have := hfound.nparsed
    have := h.unparsed
    omega
  -- the parser sees the new buffer, but nothing of what has changed in it
  have hparser : { l.socket.parser with
      ibuffer := view (overwrite l.socket.buffer l.nparsed low) l.start
        l.socket.parser.ibuffer.length }.consume.At d (rest.drop l.socket.parser.tokenSize) := by
    have hcons (ibuffer : Str) : { l.socket.parser with ibuffer }.consume =
        { l.socket.parser.consume with ibuffer } := by
      rw [Reader.consume, Reader.consume, if_pos hfound.code_ne, if_pos hfound.code_ne]
    rw [hcons]
    refine hfound.parser.of_ibuffer ?_ ?_
    · rw [hfound.consume_idx, drop_view, ← Nat.add_assoc, ← hfound.nparsed, hbehind]
      have hrest := hadv.rest_eq
      rw [List.length_drop] at hrest
      rw [← hidx, Nat.add_sub_add_left]
      exact hrest
    · rw [hfound.consume_idx, length_view (by rw [hbuffer, hstart]; exact h.used)]
      omega
  refine ⟨_, rfl, ?_, rfl, rfl, rfl, rfl, hbuffer, rfl⟩
  refine ⟨⟨?_, hadv.unparsed, ?_, rfl, ?_⟩, hparser, (fun hfalse => by cases hfalse), ?_⟩
  · exact hbuffer.symm ▸ h.used
  · exact (hbehind _).trans hadv.rest_eq
  · rintro m hm
    cases hm
    refine ⟨hlow.symm, ?_, view_overwrite hfits⟩
    rw [hlow]
  · have := hfound.nparsed
    have hconsume := hfound.consume_idx
    rw [Reader.consume, if_pos hfound.code_ne] at hconsume ⊢
    dsimp only at hconsume ⊢
    omega

theorem onToken_spec (p : Progress) (flags : List Target) :
    { l with socket := { l.socket with toProgress := p }, flags, nparsed := l.nparsed + n }.Holds d false
      (rest.drop n) name := by
  have hadv := h.advance hfound.le
  have hholds := hfound.holds hadv
  exact ⟨⟨hadv.used, hadv.unparsed, hadv.rest_eq, hadv.expecting, hadv.name⟩, hholds.parser, nofun,
    hholds.nparsed⟩

theorem onFieldValue_spec {m : Str} (hname : name = some m) : ∃ l', l.onFieldValue = some l' ∧
    { l' with nparsed := l'.nparsed + n }.Holds d false (rest.drop n) none ∧
    l'.socket.toProgress =
      l.socket.toProgress.onToken m l.socket.parser.code l.socket.parser.value ∧
    l'.flags = l.flags ∧ Frame l l' := by
  obtain ⟨hsize, hle, hview⟩ := h.name m hname
  have hplace : l.fieldNameBegin + l.socket.fieldNameSize ≤ l.socket.buffer.length := by
    have := h.unparsed
    have := h.used
    omega
  have hadv := h.advance hfound.le
  have hholds := hfound.holds hadv
  rw [onFieldValue, if_pos hplace, hsize, hview]
  exact ⟨_, rfl, ⟨⟨hadv.used, hadv.unparsed, hadv.rest_eq, rfl, nofun⟩, hholds.parser, nofun,
    hholds.nparsed⟩, rfl, rfl, rfl, rfl, rfl, rfl⟩

theorem onEndOfMessage_spec (hcode : l.socket.parser.code = .endOfMessage) :
    ∃ l', l.onEndOfMessage = some l' ∧
      { l' with nparsed := l'.nparsed + n }.Holds d true (rest.drop n) name ∧
      l'.socket.toProgress =
        l.socket.toProgress.onToken [] l.socket.parser.code l.socket.parser.value ∧
      l'.flags = .ends :: l.flags ∧ Frame l l' := by
  obtain rfl := hfound.size
  have hplace : l.nparsed + l.socket.parser.tokenSize ≤ l.socket.buffer.length := by
    have := h.unparsed
    have := h.used
    have := hfound.le
    omega
  have hadv := h.advance hfound.le
  have hlen := length_view hplace
  rw [onEndOfMessage]
  simp only [if_pos hplace]
  refine ⟨_, rfl, ?_, rfl, rfl, rfl, rfl, rfl, rfl⟩
  have hcons : (l.socket.parser.setBuffer
      (view l.socket.buffer l.nparsed l.socket.parser.tokenSize)).consume =
        { l.socket.parser.consume with
          idx := l.socket.parser.tokenSize
          ibuffer := view l.socket.buffer l.nparsed l.socket.parser.tokenSize } := by
    rw [Reader.consume, Reader.consume, if_pos hfound.code_ne]
    simp [Reader.setBuffer, hfound.code_ne]
  refine ⟨⟨hadv.used, hadv.unparsed, hadv.rest_eq, hadv.expecting, hadv.name⟩, ?_,
    fun _ => hfound.ended hcode, ?_⟩
  · have hzero : l.socket.parser.consume.tokenSize = 0 := by
      rw [Reader.consume, if_pos hfound.code_ne]
    dsimp only
    rw [hcons, if_pos rfl]
    refine ⟨hfound.parser.control, hfound.parser.code, ?_, ?_, ?_, ?_⟩
    · rw [Reader.rest, List.drop_eq_nil_iff, hlen]
    · rw [hlen]
    · exact hzero.le
    · rw [List.take_nil]
      exact seen_nil _
  · dsimp only
    rw [hcons]

theorem switch_spec (hnamed : l.socket.parser.code = .fieldValue → name.isSome = true) :
    ∃ l', l.switch = some l' ∧
      { l' with nparsed := l'.nparsed + n }.Holds d l.found.isEnd (rest.drop n)
        (tell (l.socket.toProgress, name) l.found).2 ∧
      l'.socket.toProgress = (tell (l.socket.toProgress, name) l.found).1 ∧
      l'.flags = l.found.code.target.toList ++ l.flags ∧ Frame l l' := by
  have htoken := hfound.token
  have hplain (flags : List Target) :
      { l with socket := l.onToken [], flags, nparsed := l.nparsed + n }.Holds d false
        (rest.drop n) name := onToken_spec h hfound _ flags
  cases hcode : l.socket.parser.code <;> rw [hcode] at htoken <;>
    first | (cases htoken; done) | simp only [switch, found, hcode, Token.isEnd, tell]
  case fieldName => exact onFieldName_spec h hfound
  case fieldValue =>
    obtain ⟨m, rfl⟩ := Option.isSome_iff_exists.mp (hnamed hcode)
    have hvalue := onFieldValue_spec h hfound rfl
    rwa [hcode] at hvalue
  case endOfMessage =>
    have hend := onEndOfMessage_spec h hfound hcode
    rwa [hcode] at hend
  all_goals
    refine ⟨_, rfl, hplain _, ?_, rfl, rfl, rfl, rfl, rfl⟩
    rw [onToken, hcode]

end

/-- The loop has come from `c` to `d`. What it has read on the way has been told, and what somebody
may wait for is flagged. -/
structure Reads (l l' : Loop) (ks : List Token) (c d : (Control × Bool) × Str)
    (name name' : Option Str) : Prop where
  run : Run (Step lexOne) c ks d
  told : tellAll (l.socket.toProgress, name) ks = (l'.socket.toProgress, name')
  flags : ∀ t, t ∈ l'.flags ↔ t ∈ l.flags ∨ ∃ k ∈ ks, k.code.target = some t
  frame : Frame l l'

theorem Reads.trans {l'' : Loop} {ks ks' : List Token} {c d e : (Control × Bool) × Str}
    {name' name'' : Option Str} (h : Reads l l' ks c d name name')
    (h' : Reads l' l'' ks' d e name' name'') : Reads l l'' (ks ++ ks') c e name name'' where
  run := h.run.append h'.run
  told := by rw [tellAll_append, h.told, h'.told]
  flags t := by
    rw [h'.flags, h.flags, or_assoc]
    simp only [List.mem_append, or_and_right, exists_or]
  frame := h.frame.trans h'.frame

/-- How a turn of the loop leaves it. -/
def Left (l : Loop) (d : (Control × Bool) × Str) (name : Option Str) : Turn → Prop
  | .again => l.Holds d.1.1 d.1.2 d.2 name
  | .enough => l.Holds d.1.1 d.1.2 d.2 name ∧ lexOne d.1 d.2 = .more ∧
      l.socket.parser.code = .errorInsufficientData
  | .parsingError => ∃ e, lexOne d.1 d.2 = .fail e

theorem run_skip {ks : List Token} {q : Str} (hks : ∀ k ∈ ks, k.code = .skip)
    (h : Run (Step lex) (c, rest) ks (d, q)) : Run (Step lexOne) ((c, false), rest) ks ((d, false), q) :=
  run_upTo h fun k hk => by rw [Token.isEnd, hks k hk]; rfl

/-- One turn of the loop, in a request. -/
theorem turn_spec (h : l.Holds c false rest name) (hshows : Shows c (l.socket.toProgress, name)) :
    ∃ ks d name' t l', l.turn = some (t, l') ∧ Reads l l' ks ((c, false), rest) d name name' ∧
      l'.Left d name' t ∧ (t = .again → ks ≠ []) := by
  have hparser := h.parser
  rw [if_neg Bool.false_ne_true] at hparser
  obtain ⟨r, hr, ⟨ks, d, hskip, hrun, hdid⟩, hibuffer, hidx⟩ :=
    Reader.next_spec hparser hshows.ok hshows.expected
  have hshows' := hshows.run hrun
  rw [tellAll_skip hskip] at hshows'
  have hnone (t : Target) : ¬ ∃ k ∈ ks, k.code.target = some t := by
    rintro ⟨k, hk, ht⟩
    rw [hskip k hk] at ht
    cases ht
  -- the loop with what the parser has come to
  have hstands : { l with socket := { l.socket with parser := r } }.Stands rest name :=
    ⟨h.used, h.unparsed, h.rest_eq, h.expecting, h.name⟩
  have hreads : Reads l { l with socket := { l.socket with parser := r } } ks ((c, false), rest)
      ((d, false), rest) name name :=
    ⟨run_skip hskip hrun, tellAll_skip hskip _, fun t => by simp [hnone t], rfl, rfl, rfl, rfl⟩
  rw [turn, hr]
  dsimp only
  cases hdid with
  | more hlex hat =>
    refine ⟨ks, _, name, .enough, _, by rw [hat.code], hreads,
      ⟨⟨hstands, ?_, nofun, ?_⟩, ?_, hat.code⟩, nofun⟩
    · rwa [if_neg Bool.false_ne_true, hat.consume_eq]
    · dsimp only
      rw [hat.consume_eq, hidx]
      exact h.nparsed
    · exact upTo_more_iff.mpr hlex
  | fail e hlex hfail hcode hstate =>
    refine ⟨ks, _, name, .parsingError, _, ?_, hreads, ⟨e, upTo_fail_iff.mpr hlex⟩, nofun⟩
    rw [hcode]
    cases e <;> first | rfl | cases hfail
  | token ks' n e hrun' hpieces hne hall hone htoken hn hrest hsize hat =>
    set l₁ : Loop := { l with socket := { l.socket with parser := r } } with hl₁
    -- a token that is not in parts is one step of `lex`
    have hsingle (h₁ : r.code ≠ .skip) (h₂ : r.code ≠ .bodyChunk) :
        Step lex (d, rest) ⟨r.code, rest.take n⟩ (e, rest.drop n) := by
      rw [hone h₁ h₂] at hrun'
      exact hrun'.of_single
    have hends (hcode : r.code = .endOfMessage) : e.state = .expectMethod := by
      obtain ⟨m, e', hmove, heq⟩ := hsingle (by simp [hcode]) (by simp [hcode])
      obtain ⟨rfl, -⟩ := Prod.mk.inj heq
      exact ((lex_moves hmove).of_endOfMessage hcode).1
    have hfound : l₁.Found rest e n :=
      ⟨htoken, hrest, hsize, hn, hat, by rw [h.nparsed, ← hidx], hends⟩
    have hvalue : l₁.found = ⟨r.code, rest.take n⟩ := by rw [found, hfound.value]
    have hnamed (hcode : r.code = .fieldValue) : name.isSome = true := by
      obtain ⟨m, e', hmove, heq⟩ := hsingle (by simp [hcode]) (by simp [hcode])
      obtain ⟨rfl, -⟩ := Prod.mk.inj heq
      have hnames := (lex_moves hmove).leads.named
      rw [← hshows'.named] at hnames
      dsimp only at hnames
      rw [hcode] at hnames
      cases hname : name with
      | none => simp [hname, Code.names] at hnames
      | some m => rfl
    obtain ⟨l', hswitch, hholds, hprogress, hflags, hframe⟩ := switch_spec hstands hfound hnamed
    have hrunOne : Run (Step lexOne) ((d, false), rest) ks' ((e, l₁.found.isEnd), rest.drop n) := by
      by_cases hcode : r.code = .endOfMessage
      · rw [hone (by simp [hcode]) (by simp [hcode]), hvalue]
        exact .single (hsingle (by simp [hcode]) (by simp [hcode])).upTo
      · have hend : l₁.found.isEnd = false := by rw [hvalue, Token.isEnd]; simpa using hcode
        rw [hend]
        exact run_upTo hrun' fun k hk => by rw [Token.isEnd, hall k hk]; simpa using hcode
    have htold := tellAll_congr hpieces (l.socket.toProgress, name)
    rw [← hvalue] at htold
    have hturn : Reads l₁ { l' with nparsed := l'.nparsed + n } ks' ((d, false), rest)
        ((e, l₁.found.isEnd), rest.drop n) name (tell (l.socket.toProgress, name) l₁.found).2 := by
      refine ⟨hrunOne, ?_, fun t => ?_, hframe.channel, hframe.isOpen, hframe.length, hframe.used⟩
      · rw [hl₁]
        dsimp only
        rw [htold, hprogress]
        rfl
      · have hany : (∃ k ∈ ks', k.code.target = some t) ↔ r.code.target = some t := by
          constructor
          · rintro ⟨k, hk, ht⟩
            rwa [hall k hk] at ht
          · intro ht
            obtain ⟨k, hk⟩ := List.exists_mem_of_ne_nil _ hne
            exact ⟨k, hk, by rwa [hall k hk]⟩
        rw [hany]
        dsimp only
        rw [hflags, hvalue, List.mem_append, Option.mem_toList, or_comm]
    refine ⟨ks ++ ks', _, _, .again, { l' with nparsed := l'.nparsed + n }, ?_, hreads.trans hturn,
      hholds, fun _ => by simp [hne]⟩
    rw [hswitch]
    cases hcode : r.code <;> rw [hcode] at htoken <;> first | (cases htoken; done) | skip
    all_goals rw [Option.map_some, hsize]

theorem turn_ended (h : l.Holds c true rest name) (hshows : Shows c (l.socket.toProgress, name)) :
    ∃ l', l.turn = some (.enough, l') ∧ Reads l l' [] ((c, true), rest) ((c, true), rest) name name ∧
      l'.Left ((c, true), rest) name .enough := by
  have hparser := h.parser
  rw [if_pos rfl] at hparser
  have hmore : lex c [] = .more := Reader.lex_nil (by rw [h.ended rfl]; rfl)
  have hstays : ∀ k n d, lex c [] ≠ .take k n d := fun k n d => by rw [hmore]; nofun
  obtain ⟨r, hr, ⟨ks, d, -, hrun, hdid⟩, -, hidx⟩ :=
    Reader.next_spec hparser hshows.ok hshows.expected
  obtain ⟨-, hd⟩ := run_of_ended hstays hrun
  cases hd
  rw [turn, hr]
  dsimp only
  cases hdid with
  | more hlex hat =>
    refine ⟨{ l with socket := { l.socket with parser := r } }, by rw [hat.code],
      ⟨.nil, rfl, fun t => by simp, rfl, rfl, rfl, rfl⟩,
      ⟨⟨h.used, h.unparsed, h.rest_eq, h.expecting, h.name⟩, ?_, h.ended, ?_⟩, rfl, hat.code⟩
    · dsimp only
      rwa [if_pos rfl, hat.consume_eq]
    · dsimp only
      rw [hat.consume_eq, hidx]
      exact h.nparsed
  | fail e hlex => cases hmore.symm.trans hlex
  | token ks' n e hrun' hpieces hne => exact absurd (run_of_ended hstays hrun').1 hne

theorem Reads.shows {ks : List Token} {e : Bool} {p : (Control × Bool) × Str} {name' : Option Str}
    (h : Reads l l' ks ((c, e), rest) p name name') (hshows : Shows c (l.socket.toProgress, name)) :
    Shows p.1.1 (l'.socket.toProgress, name') := by
  obtain ⟨⟨d, b⟩, q⟩ := p
  rw [← h.told]
  exact hshows.run (run_of_upTo h.run)

/-- The loop comes to where `lexOne` has nothing to take. -/
theorem run_spec {ended : Bool} {fuel : Nat} (h : l.Holds c ended rest name)
    (hshows : Shows c (l.socket.toProgress, name)) (hfuel : lexBudget (c, rest) < fuel) :
    ∃ ks d name' t l', l.run fuel = some (t, l') ∧ t ≠ .again ∧
      Reads l l' ks ((c, ended), rest) d name name' ∧ l'.Left d name' t := by
  induction fuel generalizing l c ended rest name with
  | zero => exact absurd hfuel (Nat.not_lt_zero _)
  | succ fuel ih =>
    rw [run]
    cases ended with
    | true =>
      obtain ⟨l', hturn, hreads, hleft⟩ := turn_ended h hshows
      exact ⟨[], _, name, .enough, l', by rw [hturn], nofun, hreads, hleft⟩
    | false =>
      obtain ⟨ks, ⟨⟨d, b⟩, q⟩, name', t, l', hturn, hreads, hleft, hne⟩ := turn_spec h hshows
      cases t with
      | enough => exact ⟨ks, _, name', .enough, l', by rw [hturn], nofun, hreads, hleft⟩
      | parsingError => exact ⟨ks, _, name', .parsingError, l', by rw [hturn], nofun, hreads, hleft⟩
      | again =>
        have hbudget : lexBudget (d, q) + ks.length ≤ lexBudget (c, rest) :=
          run_lexBudget (run_of_upTo hreads.run)
        have hpos := List.length_pos_iff.mpr (hne rfl)
        have hless : lexBudget (d, q) < fuel := by omega
        obtain ⟨ks', p, name'', t, l'', hrun, ht, hreads', hleft'⟩ :=
          ih hleft (hreads.shows hshows) hless
        refine ⟨ks ++ ks', p, name'', t, l'', ?_, ht, hreads.trans hreads', hleft'⟩
        rw [hturn]
        exact hrun

end Loop

end Http

end Wye
