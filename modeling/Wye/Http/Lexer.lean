import Wye.Base.Incremental
import Wye.Http.Reader

/-!
# The reader without its buffer

`lex` is the reader of requests as it would be with the whole of what has not been read at hand: no
index, no size of a token that has been looked at in part, and one decision at a time. White space is
skipped and a body is taken one character after the other, and what `next` does when it calls itself
are two steps here.

What `lex` decides does not depend on what comes later (`lex_stable`), and it takes nothing only so
often in a row (`rank`).
-/

namespace Wye

open Text Incremental

namespace Http

/-- What has been read: a code and its text. -/
structure Token where
  code : Code
  text : Str
  deriving DecidableEq, Repr

abbrev LexMove := Move Control Token Code

section
variable (c : Control) (rest : Str)

/-- The first `n` characters are a token. -/
def takeToken (code : Code) (n : Nat) (c : Control) (rest : Str) : LexMove :=
  .take ⟨code, rest.take n⟩ n c

def skipTo (n : Nat) (state : State) : LexMove := takeToken .skip n { c with state } rest

def lexRun (p : Char → Bool) (state : State) (code : Code) : LexMove :=
  if matchLen p rest = rest.length then .more
  else if matchLen p rest = 0 then .fail .errorInvalidData
  else takeToken code (matchLen p rest) { c with state } rest

def lexStaticStr : LexMove :=
  let got := rest.take Reader.staticStr.length
  if !got.isPrefixOf Reader.staticStr then .fail .errorInvalidData
  else if got.length = Reader.staticStr.length then skipTo c rest got.length .expectVersion
  else .more

/-- A decision on the next character. -/
def lexChar (f : Char → LexMove) : LexMove :=
  match rest with
  | [] => .more
  | x :: _ => f x

def lexVersion (x : Char) : LexMove :=
  if isDigit x then
    takeToken .version 1 { c with
      state := .expectCrlfAfterVersion,
      version := if x.toNat - 0x30 = 0 then .http10 else .hostNotRead } rest
  else .fail .errorInvalidData

def lexLiberalCrlf (f : Nat → LexMove) : LexMove :=
  match liberalCrlf rest with
  | .crlf => f 2
  | .lf => f 1
  | .insufficientData => .more
  | .invalidData => .fail .errorInvalidData

def lexStrictCrlf (f : Nat → LexMove) : LexMove :=
  if rest.length < 2 then .more
  else if strictCrlf rest = 0 then .fail .errorInvalidData
  else f (strictCrlf rest)

/-- A name, or the end of the fields. -/
def lexName (ends : State) (f : Nat → LexMove) : LexMove :=
  if rest = [] then .more
  else if matchLen isTchar rest = 0 then skipTo c rest 0 ends
  else if matchLen isTchar rest = rest.length then .more
  else f (matchLen isTchar rest)

def lexFieldName (n : Nat) : LexMove :=
  match Reader.knowName (rest.take n) c.version c.bodyType with
  | none => .more
  | some (.error code) => .fail code
  | some (.ok (version, bodyType)) =>
    takeToken .fieldName n { c with state := .expectColon, version, bodyType } rest

def lexColon (ows : State) (x : Char) : LexMove :=
  if x ≠ ':' then .fail .errorInvalidData else skipTo c rest 1 ows

def lexOws (value : State) (x : Char) : LexMove :=
  if isOws x then skipTo c rest 1 c.state else skipTo c rest 0 value

def lexValue (f : Nat → LexMove) : LexMove :=
  if matchLen isFieldValueChar rest = rest.length then .more
  else f (matchLen isFieldValueChar rest)

def lexFieldValue (n : Nat) : LexMove :=
  match Reader.knowValue (decodeFieldValue (rest.take n)) c.bodyType c.bodySize with
  | .error (code, _) => .fail code
  | .ok (bodyType, bodySize) =>
    takeToken .fieldValue n { c with state := .expectCrlfAfterFieldValue, bodyType, bodySize } rest

/-- What is expected behind the headers. -/
def behindHeaders : Except Code State :=
  if c.version = .hostNotRead then .error .errorNoHost
  else
    match c.bodyType with
    | .randomEncodingRead => .error .errorInvalidTransferEncoding
    | .chunkedEncodingRead => .ok .expectChunkSize
    | .contentLengthRead => .ok (if c.bodySize = 0 then .expectEndOfBody else .expectBody)
    | _ => .ok .expectEndOfBody

def lexEndOfHeaders (n : Nat) : LexMove :=
  match behindHeaders c with
  | .error code => .fail code
  | .ok state => takeToken .endOfHeaders n { c with state } rest

def lexBody (behind : State) : LexMove :=
  takeToken .bodyChunk 1 { c with
    state := if c.bodySize - 1 = 0 then behind else c.state, bodySize := c.bodySize - 1 } rest

def lexChunkSize : LexMove :=
  if rest = [] then .more
  else if matchLen isHexdigit rest = 0 then .fail .errorInvalidData
  else if matchLen isHexdigit rest = rest.length then .more
  else
    match chunkSize (rest.take (matchLen isHexdigit rest)) c.bodySize with
    | (.invalid, _) => .fail .errorInvalidData
    | (.overflow, _) => .fail .errorChunkSizeOverflow
    | (.ok, n) => skipTo { c with bodySize := n } rest (matchLen isHexdigit rest) .expectChunkExt

def lexChunkExt : LexMove :=
  match rest.drop (matchLen isChunkExtChar rest) with
  | [] => .more
  | x :: _ =>
    if x ≠ '\r' then .fail .errorInvalidData
    else skipTo c rest (matchLen isChunkExtChar rest) .expextCrlfAfterChunkExt

def lexCrlfAfterChunkExt (n : Nat) : LexMove :=
  if c.bodySize ≠ 0 then skipTo c rest n .expectChunkData
  else takeToken .endOfBody n { c with state := .expectTrailerName } rest

end

/-- The reader of requests, one decision at a time. -/
def lex (c : Control) (rest : Str) : LexMove :=
  match c.state with
  | .errored => .more
  | .expectMethod => lexRun c rest isTchar .expectSpAfterMethod .method
  | .expectSpAfterMethod => lexChar rest fun x =>
    if isSp x then skipTo c rest 1 .expectRequestTarget else .fail .errorInvalidData
  | .expectRequestTarget =>
    lexRun c rest isRequestTargetChar .expectStaticStrAfterTarget .requestTarget
  | .expectStaticStrAfterTarget => lexStaticStr c rest
  | .expectVersion => lexChar rest (lexVersion c rest)
  | .expectCrlfAfterVersion => lexLiberalCrlf rest fun n => skipTo c rest n .expectFieldName
  | .expectFieldName => lexName c rest .expectCrlfAfterHeaders (lexFieldName c rest)
  | .expectColon => lexChar rest (lexColon c rest .expectOwsAfterColon)
  | .expectOwsAfterColon => lexChar rest (lexOws c rest .expectFieldValue)
  | .expectFieldValue => lexValue rest (lexFieldValue c rest)
  | .expectCrlfAfterFieldValue => lexLiberalCrlf rest fun n => skipTo c rest n .expectFieldName
  | .expectCrlfAfterHeaders => lexLiberalCrlf rest (lexEndOfHeaders c rest)
  | .expectBody => lexChar rest fun _ => lexBody c rest .expectEndOfBody
  | .expectEndOfBody => takeToken .endOfBody 0 { c with state := .expectEndOfMessage } rest
  | .expectEndOfMessage =>
    takeToken .endOfMessage 0 { c with state := .expectMethod, bodyType := .noBody } rest
  | .expectChunkSize => lexChunkSize c rest
  | .expectChunkExt => lexChunkExt c rest
  | .expextCrlfAfterChunkExt => lexStrictCrlf rest (lexCrlfAfterChunkExt c rest)
  | .expectChunkData => lexChar rest fun _ => lexBody c rest .expectCrlfAfterChunkData
  | .expectCrlfAfterChunkData => lexStrictCrlf rest fun n => skipTo c rest n .expectChunkSize
  | .expectTrailerName => lexName c rest .expectCrlfAfterTrailers fun n =>
    takeToken .fieldName n { c with state := .expectTrailerColon } rest
  | .expectTrailerColon => lexChar rest (lexColon c rest .expectOwsAfterTrailerColon)
  | .expectOwsAfterTrailerColon => lexChar rest (lexOws c rest .expectTrailerValue)
  | .expectTrailerValue => lexValue rest fun n =>
    takeToken .fieldValue n { c with state := .expectCrlfAfterTrailerValue } rest
  | .expectCrlfAfterTrailerValue => lexStrictCrlf rest fun n => skipTo c rest n .expectTrailerName
  | .expectCrlfAfterTrailers => lexStrictCrlf rest fun n =>
    takeToken .endOfMessage n { c with state := .expectMethod, bodyType := .noBody } rest

/-! ### Decisions last -/

theorem matchLen_le (p : Char → Bool) (a : Str) : matchLen p a ≤ a.length :=
  (List.takeWhile_sublist p).length_le

theorem take_matchLen (p : Char → Bool) (a : Str) : a.take (matchLen p a) = a.takeWhile p :=
  (List.prefix_iff_eq_take.mp (List.takeWhile_prefix p)).symm

theorem drop_matchLen (p : Char → Bool) (a : Str) : a.drop (matchLen p a) = a.dropWhile p := by
  have hsplit := @List.drop_left _ (a.takeWhile p) (a.dropWhile p)
  rwa [List.takeWhile_append_dropWhile] at hsplit

theorem not_of_drop_matchLen {p : Char → Bool} {a : Str} {x : Char} {t : Str}
    (h : a.drop (matchLen p a) = x :: t) : p x = false := by
  have hhead := List.head?_dropWhile_not p a
  rw [drop_matchLen] at h
  rw [h] at hhead
  simpa using hhead

theorem matchLen_append_cons {p : Char → Bool} {a : Str} {x : Char} (ha : ∀ y ∈ a, p y = true)
    (hx : p x = false) (t : Str) : matchLen p (a ++ x :: t) = a.length := by
  rw [matchLen, List.takeWhile_append_of_pos ha, List.takeWhile_cons_of_neg (by simp [hx]),
    List.append_nil]

theorem matchLen_append {p : Char → Bool} {a : Str} (h : matchLen p a ≠ a.length) (b : Str) :
    matchLen p (a ++ b) = matchLen p a := by
  unfold matchLen at h ⊢
  rw [List.takeWhile_append, if_neg h]

theorem matchLen_append_ne {p : Char → Bool} {a : Str} (h : matchLen p a ≠ a.length) (b : Str) :
    matchLen p (a ++ b) ≠ (a ++ b).length := by
  rw [matchLen_append h, List.length_append]
  have := matchLen_le p a
  omega

/-- A decision that is made is kept when more comes, and takes no more than is there. -/
def Settled (f : Str → LexMove) (a : Str) : Prop :=
  f a = .more ∨ ((∀ b, f (a ++ b) = f a) ∧ ∀ k n c, f a = .take k n c → n ≤ a.length)

theorem settled_take (code : Code) (c : Control) {n : Nat} {a : Str} (hn : n ≤ a.length) :
    Settled (takeToken code n c) a := by
  refine .inr ⟨fun b => ?_, fun k m d h => ?_⟩
  · rw [takeToken, takeToken, List.take_append_of_le_length hn]
  · cases h
    exact hn

theorem settled_fail (code : Code) (a : Str) : Settled (fun _ => .fail code) a :=
  .inr ⟨fun _ => rfl, fun _ _ _ h => by cases h⟩

/-- What is the same on all that `a` may become is settled on `a` together. -/
theorem Settled.congr {f g : Str → LexMove} {a : Str} (h : Settled g a)
    (hfg : ∀ b, f (a ++ b) = g (a ++ b)) : Settled f a := by
  have hnil := hfg []
  rw [List.append_nil] at hnil
  rcases h with h | ⟨h, hle⟩
  · exact .inl (hnil.trans h)
  · exact .inr ⟨fun b => by rw [hfg, h, hnil], fun k n c ht => hle k n c (hnil ▸ ht)⟩

section
variable (c : Control) (a : Str)

theorem settled_run (p : Char → Bool) (state : State) (code : Code) :
    Settled (fun rest => lexRun c rest p state code) a := by
  by_cases hall : matchLen p a = a.length
  · exact .inl (if_pos hall)
  by_cases hzero : matchLen p a = 0
  · refine (settled_fail .errorInvalidData a).congr fun b => ?_
    rw [lexRun, if_neg (matchLen_append_ne hall b), matchLen_append hall, if_pos hzero]
  · refine (settled_take code { c with state } (matchLen_le p a)).congr fun b => ?_
    rw [lexRun, if_neg (matchLen_append_ne hall b), matchLen_append hall, if_neg hzero]

theorem settled_char {f : Str → Char → LexMove} (h : a ≠ [] → ∀ x, Settled (fun rest => f rest x) a) :
    Settled (fun rest => lexChar rest (f rest)) a := by
  cases a with
  | nil => exact .inl rfl
  | cons x a => exact (h (by simp) x).congr fun b => rfl

theorem settled_version (x : Char) (ha : a ≠ []) : Settled (fun rest => lexVersion c rest x) a := by
  unfold lexVersion
  split
  · exact settled_take _ _ (List.length_pos_iff.mpr ha)
  · exact settled_fail _ a

theorem settled_colon (ows : State) (x : Char) (ha : a ≠ []) :
    Settled (fun rest => lexColon c rest ows x) a := by
  unfold lexColon
  split
  · exact settled_fail _ a
  · exact settled_take _ _ (List.length_pos_iff.mpr ha)

theorem settled_ows (value : State) (x : Char) (ha : a ≠ []) :
    Settled (fun rest => lexOws c rest value x) a := by
  unfold lexOws
  split
  · exact settled_take _ _ (List.length_pos_iff.mpr ha)
  · exact settled_take _ _ (Nat.zero_le _)

theorem settled_staticStr : Settled (lexStaticStr c) a := by
  by_cases hstatic : (a.take Reader.staticStr.length).isPrefixOf Reader.staticStr = true
  · by_cases hlen : (a.take Reader.staticStr.length).length = Reader.staticStr.length
    · have hle : Reader.staticStr.length ≤ a.length := by
        rw [List.length_take] at hlen
        omega
      refine (settled_take .skip { c with state := .expectVersion } hle).congr fun b => ?_
      simp only [lexStaticStr, List.take_append_of_le_length hle, hstatic, hlen, skipTo]
      rfl
    · left
      rw [lexStaticStr]
      simp only [hstatic, hlen, Bool.not_true, Bool.false_eq_true, if_false]
  · refine (settled_fail .errorInvalidData a).congr fun b => ?_
    have hmore : ¬ ((a ++ b).take Reader.staticStr.length).isPrefixOf Reader.staticStr = true := by
      intro h
      refine hstatic (List.isPrefixOf_iff_prefix.mpr ?_)
      refine List.IsPrefix.trans ?_ (List.isPrefixOf_iff_prefix.mp h)
      exact (List.prefix_append a b).take _
    simp [lexStaticStr, hmore]

theorem liberalCrlf_append (h : liberalCrlf a ≠ .insufficientData) (b : Str) :
    liberalCrlf (a ++ b) = liberalCrlf a := by
  match a, h with
  | [], h => exact absurd rfl h
  | [x], h =>
    rw [liberalCrlf] at h
    split at h
    · simp_all [liberalCrlf]
    · split at h
      · simp_all [liberalCrlf]
      · exact absurd rfl h
  | x :: y :: a, _ => rfl

theorem liberalCrlf_le {n : Nat} (h : liberalCrlf a = .crlf ∧ n = 2 ∨ liberalCrlf a = .lf ∧ n = 1) :
    n ≤ a.length := by
  match a, h with
  | [], h => simp [liberalCrlf] at h
  | [x], h =>
    rcases h with ⟨h, -⟩ | ⟨-, rfl⟩
    · simp only [liberalCrlf] at h
      split at h
      · cases h
      · split at h <;> cases h
    · exact le_rfl
  | x :: y :: a, h =>
    have : n ≤ 2 := by omega
    simp only [List.length_cons]
    omega

theorem settled_liberalCrlf {f : Str → Nat → LexMove}
    (h : ∀ n, n ≤ a.length → Settled (fun rest => f rest n) a) :
    Settled (fun rest => lexLiberalCrlf rest (f rest)) a := by
  cases hcrlf : liberalCrlf a with
  | insufficientData => exact .inl (by simp [lexLiberalCrlf, hcrlf])
  | invalidData =>
    refine (settled_fail .errorInvalidData a).congr fun b => ?_
    simp [lexLiberalCrlf, liberalCrlf_append a (by simp [hcrlf]), hcrlf]
  | crlf =>
    refine (h 2 (liberalCrlf_le a (.inl ⟨hcrlf, rfl⟩))).congr fun b => ?_
    simp [lexLiberalCrlf, liberalCrlf_append a (by simp [hcrlf]), hcrlf]
  | lf =>
    refine (h 1 (liberalCrlf_le a (.inr ⟨hcrlf, rfl⟩))).congr fun b => ?_
    simp [lexLiberalCrlf, liberalCrlf_append a (by simp [hcrlf]), hcrlf]

theorem strictCrlf_le (a : Str) : strictCrlf a ≤ a.length := by
  rw [strictCrlf]
  split
  · exact Nat.zero_le _
  · split <;> omega

theorem settled_strictCrlf {f : Str → Nat → LexMove}
    (h : ∀ n, n ≤ a.length → Settled (fun rest => f rest n) a) :
    Settled (fun rest => lexStrictCrlf rest (f rest)) a := by
  by_cases hlen : a.length < 2
  · exact .inl (if_pos hlen)
  have happend (b : Str) : strictCrlf (a ++ b) = strictCrlf a := by
    have hlong : ¬ (a ++ b).length < 2 := by
      rw [List.length_append]
      omega
    rw [strictCrlf, strictCrlf, if_neg hlong, if_neg hlen, List.take_append_of_le_length (by omega)]
  have hlong (b : Str) : ¬ (a ++ b).length < 2 := by
    rw [List.length_append]
    omega
  by_cases hzero : strictCrlf a = 0
  · refine (settled_fail .errorInvalidData a).congr fun b => ?_
    rw [lexStrictCrlf, if_neg (hlong b), happend, if_pos hzero]
  · have hle : strictCrlf a ≤ a.length := by
      rw [strictCrlf]
      split
      · exact Nat.zero_le _
      · split <;> omega
    refine (h _ hle).congr fun b => ?_
    rw [lexStrictCrlf, if_neg (hlong b), happend, if_neg hzero]

theorem settled_name (ends : State) {f : Str → Nat → LexMove}
    (h : ∀ n, n ≤ a.length → Settled (fun rest => f rest n) a) :
    Settled (fun rest => lexName c rest ends (f rest)) a := by
  by_cases hnil : a = []
  · exact .inl (if_pos hnil)
  have hcons (b : Str) : a ++ b ≠ [] := by simp [hnil]
  by_cases hall : matchLen isTchar a = a.length
  · have hpos : matchLen isTchar a ≠ 0 := by
      rw [hall]
      exact fun hzero => hnil (List.length_eq_zero_iff.mp hzero)
    exact .inl (by simp only [lexName, if_neg hnil, if_neg hpos, if_pos hall])
  by_cases hzero : matchLen isTchar a = 0
  · refine (settled_take .skip { c with state := ends } (Nat.zero_le _)).congr fun b => ?_
    rw [lexName, if_neg (hcons b), matchLen_append hall, if_pos hzero, skipTo]
  · refine (h _ (matchLen_le isTchar a)).congr fun b => ?_
    rw [lexName, if_neg (hcons b), matchLen_append hall, if_neg hzero,
      if_neg (by rw [← matchLen_append hall b]; exact matchLen_append_ne hall b)]

theorem settled_fieldName {n : Nat} (hn : n ≤ a.length) :
    Settled (fun rest => lexFieldName c rest n) a := by
  have happend (b : Str) : (a ++ b).take n = a.take n := List.take_append_of_le_length hn
  cases hknow : Reader.knowName (a.take n) c.version c.bodyType with
  | none => exact .inl (by simp only [lexFieldName, hknow])
  | some r =>
    cases r with
    | error code =>
      refine (settled_fail code a).congr fun b => ?_
      simp only [lexFieldName, happend, hknow]
    | ok know =>
      refine (settled_take .fieldName { c with
        state := .expectColon, version := know.1, bodyType := know.2 } hn).congr fun b => ?_
      simp only [lexFieldName, happend, hknow]

theorem settled_value {f : Str → Nat → LexMove}
    (h : ∀ n, n ≤ a.length → Settled (fun rest => f rest n) a) :
    Settled (fun rest => lexValue rest (f rest)) a := by
  by_cases hall : matchLen isFieldValueChar a = a.length
  · exact .inl (if_pos hall)
  · refine (h _ (matchLen_le isFieldValueChar a)).congr fun b => ?_
    rw [lexValue, if_neg (matchLen_append_ne hall b), matchLen_append hall]

theorem settled_fieldValue {n : Nat} (hn : n ≤ a.length) :
    Settled (fun rest => lexFieldValue c rest n) a := by
  have happend (b : Str) : (a ++ b).take n = a.take n := List.take_append_of_le_length hn
  cases hknow : Reader.knowValue (decodeFieldValue (a.take n)) c.bodyType c.bodySize with
  | error e =>
    refine (settled_fail e.1 a).congr fun b => ?_
    simp only [lexFieldValue, happend, hknow]
  | ok know =>
    refine (settled_take .fieldValue { c with
      state := .expectCrlfAfterFieldValue, bodyType := know.1, bodySize := know.2 } hn).congr
      fun b => ?_
    simp only [lexFieldValue, happend, hknow]

theorem settled_endOfHeaders {n : Nat} (hn : n ≤ a.length) :
    Settled (fun rest => lexEndOfHeaders c rest n) a := by
  unfold lexEndOfHeaders
  split
  · exact settled_fail _ a
  · exact settled_take _ _ hn

theorem settled_chunkSize : Settled (lexChunkSize c) a := by
  by_cases hnil : a = []
  · exact .inl (if_pos hnil)
  have hcons (b : Str) : a ++ b ≠ [] := by simp [hnil]
  by_cases hall : matchLen isHexdigit a = a.length
  · have hpos : matchLen isHexdigit a ≠ 0 := by
      rw [hall]
      exact fun hzero => hnil (List.length_eq_zero_iff.mp hzero)
    exact .inl (by simp only [lexChunkSize, if_neg hnil, if_neg hpos, if_pos hall])
  have hend (b : Str) : ¬ matchLen isHexdigit a = (a ++ b).length := by
    rw [← matchLen_append hall b]
    exact matchLen_append_ne hall b
  by_cases hzero : matchLen isHexdigit a = 0
  · refine (settled_fail .errorInvalidData a).congr fun b => ?_
    rw [lexChunkSize, if_neg (hcons b), matchLen_append hall, if_pos hzero]
  have hle := matchLen_le isHexdigit a
  have happend (b : Str) : (a ++ b).take (matchLen isHexdigit a) = a.take (matchLen isHexdigit a) :=
    List.take_append_of_le_length hle
  rcases hsize : chunkSize (a.take (matchLen isHexdigit a)) c.bodySize with ⟨_ | _ | _, n⟩
  · refine (settled_fail .errorInvalidData a).congr fun b => ?_
    simp only [lexChunkSize, if_neg (hcons b), matchLen_append hall, if_neg hzero, if_neg (hend b),
      happend, hsize]
  · refine (settled_take .skip { c with bodySize := n, state := .expectChunkExt } hle).congr
      fun b => ?_
    simp only [lexChunkSize, if_neg (hcons b), matchLen_append hall, if_neg hzero, if_neg (hend b),
      happend, hsize, skipTo]
  · refine (settled_fail .errorChunkSizeOverflow a).congr fun b => ?_
    simp only [lexChunkSize, if_neg (hcons b), matchLen_append hall, if_neg hzero, if_neg (hend b),
      happend, hsize]

theorem settled_chunkExt : Settled (lexChunkExt c) a := by
  have hle := matchLen_le isChunkExtChar a
  by_cases hall : matchLen isChunkExtChar a = a.length
  · exact .inl (by simp only [lexChunkExt, hall, List.drop_length])
  obtain ⟨x, t, hdrop⟩ : ∃ x t, a.drop (matchLen isChunkExtChar a) = x :: t :=
    List.exists_cons_of_ne_nil (fun h => hall (le_antisymm hle (List.drop_eq_nil_iff.mp h)))
  have happend (b : Str) : (a ++ b).drop (matchLen isChunkExtChar (a ++ b)) = x :: (t ++ b) := by
    rw [matchLen_append hall, List.drop_append_of_le_length hle, hdrop, List.cons_append]
  by_cases hx : x = '\r'
  · refine (settled_take .skip { c with state := .expextCrlfAfterChunkExt } hle).congr fun b => ?_
    rw [lexChunkExt, happend, matchLen_append hall]
    simp only [hx, ne_eq, not_true_eq_false, if_false, skipTo]
  · refine (settled_fail .errorInvalidData a).congr fun b => ?_
    simp only [lexChunkExt, happend, ne_eq, hx, not_false_eq_true, if_true]

theorem settled_crlfAfterChunkExt {n : Nat} (hn : n ≤ a.length) :
    Settled (fun rest => lexCrlfAfterChunkExt c rest n) a := by
  unfold lexCrlfAfterChunkExt
  split
  · exact settled_take _ _ hn
  · exact settled_take _ _ hn

theorem settled_lex : Settled (lex c) a := by
  have hpos (h : a ≠ []) : 1 ≤ a.length := List.length_pos_iff.mpr h
  change Settled (fun rest => lex c rest) a
  cases hstate : c.state <;> simp only [lex, hstate]
  case errored => exact .inl rfl
  case expectMethod | expectRequestTarget => exact settled_run c a _ _ _
  case expectSpAfterMethod =>
    refine settled_char a fun ha x => ?_
    split
    · exact settled_take _ _ (hpos ha)
    · exact settled_fail _ a
  case expectStaticStrAfterTarget => exact settled_staticStr c a
  case expectVersion => exact settled_char a fun ha x => settled_version c a x ha
  case expectCrlfAfterVersion | expectCrlfAfterFieldValue =>
    exact settled_liberalCrlf a fun n hn => settled_take _ _ hn
  case expectFieldName => exact settled_name c a _ fun n hn => settled_fieldName c a hn
  case expectColon | expectTrailerColon =>
    exact settled_char a fun ha x => settled_colon c a _ x ha
  case expectOwsAfterColon | expectOwsAfterTrailerColon =>
    exact settled_char a fun ha x => settled_ows c a _ x ha
  case expectFieldValue => exact settled_value a fun n hn => settled_fieldValue c a hn
  case expectCrlfAfterHeaders =>
    exact settled_liberalCrlf a fun n hn => settled_endOfHeaders c a hn
  case expectBody | expectChunkData =>
    exact settled_char a fun ha _ => settled_take _ _ (hpos ha)
  case expectEndOfBody | expectEndOfMessage => exact settled_take _ _ (Nat.zero_le _)
  case expectChunkSize => exact settled_chunkSize c a
  case expectChunkExt => exact settled_chunkExt c a
  case expextCrlfAfterChunkExt =>
    exact settled_strictCrlf a fun n hn => settled_crlfAfterChunkExt c a hn
  case expectCrlfAfterChunkData | expectCrlfAfterTrailerValue | expectCrlfAfterTrailers =>
    exact settled_strictCrlf a fun n hn => settled_take _ _ hn
  case expectTrailerName => exact settled_name c a _ fun n hn => settled_take _ _ hn
  case expectTrailerValue => exact settled_value a fun n hn => settled_take _ _ hn

end

/-- The reader decides on what it has read. -/
theorem lex_stable : Stable lex where
  le {c a k n d} h := by
    rcases settled_lex c a with hmore | ⟨-, hle⟩
    · cases h.symm.trans hmore
    · exact hle k n d h
  take {c a k n d} h b := by
    rcases settled_lex c a with hmore | ⟨happend, -⟩
    · cases h.symm.trans hmore
    · rw [happend, h]
  fail {c a e} h b := by
    rcases settled_lex c a with hmore | ⟨happend, -⟩
    · cases h.symm.trans hmore
    · rw [happend, h]

/-! ### How often nothing is taken -/

end Http

end Wye
