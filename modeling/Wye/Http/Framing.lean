import Wye.Http.Socket
import Wye.Http.Moves

/-!
# How a request is framed

What the fields of a request say about its body. The reader finds out field by field (`Control.know`);
all in all a request has a host, and its body is framed by its transfer codings, beside which a length
means nothing, or by one length, or there is none (`framing_iff`).
-/

namespace Wye

open Text

namespace Http

/-! ### Transfer codings -/

def isChunked (e : Str) : Bool := iequals e "chunked".toList

/-- A value in which `chunked` comes nowhere. -/
def NeverChunked (value : Str) : Prop := ∀ e ∈ elements value, isChunked e = false

/-- A value in which `chunked` comes last, and nowhere else. -/
def EndsChunked (value : Str) : Prop :=
  ∃ es e, elements value = es ++ [e] ∧ isChunked e = true ∧ ∀ e' ∈ es, isChunked e' = false

theorem coding_behind (es : List Str) : (headerValueAnyOf transferEncodingStep (1, .chunkedAtEnd) es).2.2 =
    if es = [] then .chunkedAtEnd else .chunkedInvalid := by
  cases es with
  | nil => rfl
  | cons e es =>
    rw [headerValueAnyOf, transferEncodingStep, if_neg (List.cons_ne_nil e es)]
    cases iequals e "chunked".toList <;> rfl

theorem coding_front (es : List Str) :
    (headerValueAnyOf transferEncodingStep (0, .chunkedNotFound) es).2.2 =
      match es.dropWhile (!isChunked ·) with
      | [] => .chunkedNotFound
      | _ :: rest => if rest = [] then .chunkedAtEnd else .chunkedInvalid := by
  induction es with
  | nil => rfl
  | cons e es ih =>
    cases he : isChunked e with
    | false =>
      have hstep : transferEncodingStep (0, .chunkedNotFound) e = (false, 0, .chunkedNotFound) := by
        rw [transferEncodingStep, show iequals e "chunked".toList = false from he]
        rfl
      rw [List.dropWhile_cons_of_pos (by simp [he]), headerValueAnyOf, hstep]
      exact ih
    | true =>
      have hstep : transferEncodingStep (0, .chunkedNotFound) e = (false, 1, .chunkedAtEnd) := by
        rw [transferEncodingStep, show iequals e "chunked".toList = true from he]
        rfl
      rw [List.dropWhile_cons_of_neg (by simp [he]), headerValueAnyOf, hstep]
      exact coding_behind es

theorem neverChunked_iff {value : Str} :
    decodeTransferEncoding value = .chunkedNotFound ↔ NeverChunked value := by
  rw [decodeTransferEncoding, coding_front, NeverChunked]
  cases hdrop : (elements value).dropWhile (!isChunked ·) with
  | nil =>
    rw [List.dropWhile_eq_nil_iff] at hdrop
    exact iff_of_true rfl fun e he => by simpa using hdrop e he
  | cons e rest =>
    refine iff_of_false (by dsimp only; split <;> simp) fun hall => ?_
    rw [List.dropWhile_eq_nil_iff.mpr (fun e he => by simp [hall e he])] at hdrop
    cases hdrop

theorem endsChunked_iff {value : Str} :
    decodeTransferEncoding value = .chunkedAtEnd ↔ EndsChunked value := by
  rw [decodeTransferEncoding, coding_front]
  constructor
  · intro h
    cases hdrop : (elements value).dropWhile (!isChunked ·) with
    | nil => simp [hdrop] at h
    | cons e rest =>
      have hrest : rest = [] := by
        by_contra hne
        simp [hdrop, hne] at h
      subst hrest
      have hhead := List.head?_dropWhile_not (!isChunked ·) (elements value)
      rw [hdrop] at hhead
      refine ⟨(elements value).takeWhile (!isChunked ·), e, ?_, by simpa using hhead, fun e' he' => ?_⟩
      · rw [← hdrop, List.takeWhile_append_dropWhile]
      · simpa using List.mem_takeWhile_imp he'
  · rintro ⟨es, e, hes, he, hall⟩
    rw [hes, List.dropWhile_append_of_pos (fun e' he' => by simp [hall e' he']),
      List.dropWhile_cons_of_neg (by simp [he])]
    rfl

/-! ### What the fields say -/

/-- The fields that the reader looks at. -/
inductive FieldKind where
  | host
  | transferEncoding
  | contentLength
  | other
  deriving DecidableEq, Repr

def fieldKind (name : Str) : FieldKind :=
  if iequals name "Host".toList then .host
  else if iequals name "Transfer-Encoding".toList then .transferEncoding
  else if iequals name "Content-Length".toList then .contentLength
  else .other

/-- The values of the fields of a kind. -/
def ofKind (kind : FieldKind) (hs : Headers) : List Str :=
  (hs.filter fun h => fieldKind h.1 = kind).map Prod.snd

/-- What is known behind a field. -/
def Control.know (c : Control) (h : Str × Str) : Except Code Control :=
  match Reader.knowName h.1 c.version c.bodyType with
  | none => .error .errorInsufficientData
  | some (.error code) => .error code
  | some (.ok (version, bodyType)) =>
    match Reader.knowValue h.2 bodyType c.bodySize with
    | .error (code, _) => .error code
    | .ok (bodyType, bodySize) => .ok { c with version, bodyType, bodySize }

/-- What is known behind some fields. -/
def Control.knowAll (c : Control) (hs : Headers) : Except Code Control := hs.foldlM Control.know c

/-! ### One field -/

/-- What a field says about the host. -/
def HostStep (h : Str × Str) (v v' : Version) : Prop :=
  match fieldKind h.1, v with
  | .host, .http10 => v' = .http10
  | .host, .hostNotRead => v' = .hostRead
  | .host, .hostRead => False
  | _, _ => v' = v

/-- What a value says about the body when it is the last transfer coding. -/
inductive Coding (value : Str) : BodyType → Prop
  | random : NeverChunked value → Coding value .randomEncodingRead
  | chunked : EndsChunked value → Coding value .chunkedEncodingRead

/-- What a field says about the body. Behind a transfer coding a length is not read. -/
def BodyStep (h : Str × Str) (b : BodyType) (n : Nat) (b' : BodyType) (n' : Nat) : Prop :=
  match fieldKind h.1, b with
  | .transferEncoding, .chunkedEncodingRead | .contentLength, .contentLengthRead => False
  | .transferEncoding, _ => Coding h.2 b' ∧ n' = n
  | .contentLength, .noBody => b' = .contentLengthRead ∧ IsNumber 10 decimalDigit h.2 n'
  | _, _ => b' = b ∧ n' = n

/-- No value is being waited for. -/
def BodyType.Known (b : BodyType) : Prop := b ≠ .readingContentLength ∧ b ≠ .readingEncoding

theorem knowValue_of_known {value : Str} {b : BodyType} {n : Nat} (hb : b.Known) :
    Reader.knowValue value b n = .ok (b, n) := by
  cases b with
  | readingContentLength => exact absurd rfl hb.1
  | readingEncoding => exact absurd rfl hb.2
  | noBody | contentLengthRead | chunkedEncodingRead | randomEncodingRead => rfl

theorem knowName_eq (name : Str) (v : Version) (b : BodyType) : Reader.knowName name v b =
    match fieldKind name with
    | .host =>
      match v with
      | .http10 => some (.ok (v, b))
      | .hostNotRead => some (.ok (.hostRead, b))
      | .hostRead => some (.error .errorNoHost)
    | .transferEncoding =>
      match b with
      | .contentLengthRead | .noBody | .randomEncodingRead => some (.ok (v, .readingEncoding))
      | .chunkedEncodingRead => some (.error .errorInvalidTransferEncoding)
      | .readingContentLength | .readingEncoding => none
    | .contentLength =>
      match b with
      | .noBody => some (.ok (v, .readingContentLength))
      | .contentLengthRead => some (.error .errorInvalidContentLength)
      | .chunkedEncodingRead | .randomEncodingRead => some (.ok (v, b))
      | .readingContentLength | .readingEncoding => none
    | .other => some (.ok (v, b)) := by
  unfold Reader.knowName fieldKind
  split
  · cases v <;> rfl
  · split
    · cases b <;> rfl
    · split
      · cases b <;> rfl
      · rfl

theorem knowCoding_ok_iff {value : Str} {n : Nat} {b : BodyType} {n' : Nat} :
    Reader.knowValue value .readingEncoding n = .ok (b, n') ↔ Coding value b ∧ n' = n := by
  rw [Reader.knowValue]
  constructor
  · intro h
    cases hdecode : decodeTransferEncoding value with
    | chunkedInvalid => simp [hdecode] at h
    | chunkedNotFound =>
      rw [hdecode] at h
      cases h
      exact ⟨.random (neverChunked_iff.mp hdecode), rfl⟩
    | chunkedAtEnd =>
      rw [hdecode] at h
      cases h
      exact ⟨.chunked (endsChunked_iff.mp hdecode), rfl⟩
  · rintro ⟨hcoding, rfl⟩
    cases hcoding with
    | random h => rw [neverChunked_iff.mpr h]
    | chunked h => rw [endsChunked_iff.mpr h]

theorem knowLength_ok_iff {value : Str} {n : Nat} {b : BodyType} {n' : Nat} :
    Reader.knowValue value .readingContentLength n = .ok (b, n') ↔
      b = .contentLengthRead ∧ IsNumber 10 decimalDigit value n' := by
  rw [Reader.knowValue, ← @contentLength_ok_iff value n n']
  generalize contentLength value n = decoded
  obtain ⟨result, size⟩ := decoded
  cases result <;> simp [eq_comm]

theorem know_ok_iff {c d : Control} {h : Str × Str} (hb : c.bodyType.Known) : c.know h = .ok d ↔
    d.state = c.state ∧ HostStep h c.version d.version ∧
      BodyStep h c.bodyType c.bodySize d.bodyType d.bodySize := by
  obtain ⟨state, v, b, n⟩ := c
  obtain ⟨state', v', b', n'⟩ := d
  have hvalue : Reader.knowValue h.2 b n = .ok (b, n) := knowValue_of_known hb
  -- a value that is looked at decides
  have hread (reading : BodyType) : (match Reader.knowValue h.2 reading n with
      | .error (code, _) => Except.error code
      | .ok (bodyType, bodySize) => .ok (Control.mk state v bodyType bodySize)) = .ok ⟨state', v', b', n'⟩ ↔
      state' = state ∧ v' = v ∧ Reader.knowValue h.2 reading n = .ok (b', n') := by
    cases Reader.knowValue h.2 reading n <;> simp [Prod.ext_iff, eq_comm]
  simp only [Control.know, knowName_eq, HostStep, BodyStep]
  cases hkind : fieldKind h.1 with
  | host =>
    cases v <;> simp [hvalue, eq_comm]
  | other => simp [hvalue, eq_comm]
  | contentLength =>
    cases b with
    | readingContentLength => exact absurd rfl hb.1
    | readingEncoding => exact absurd rfl hb.2
    | noBody => exact (hread _).trans (by rw [knowLength_ok_iff])
    | contentLengthRead => simp
    | chunkedEncodingRead => simp [hvalue, eq_comm]
    | randomEncodingRead => simp [hvalue, eq_comm]
  | transferEncoding =>
    cases b with
    | readingContentLength => exact absurd rfl hb.1
    | readingEncoding => exact absurd rfl hb.2
    | chunkedEncodingRead => simp
    | noBody | contentLengthRead | randomEncodingRead =>
      exact (hread _).trans (by rw [knowCoding_ok_iff])

/-! ### All fields -/

section
variable {kind : FieldKind} {hs : Headers} {h : Str × Str}

theorem ofKind_append (kind : FieldKind) (hs hs' : Headers) :
    ofKind kind (hs ++ hs') = ofKind kind hs ++ ofKind kind hs' := by
  rw [ofKind, List.filter_append, List.map_append]
  rfl

theorem ofKind_cons (kind : FieldKind) (h : Str × Str) (hs : Headers) :
    ofKind kind (h :: hs) = if fieldKind h.1 = kind then h.2 :: ofKind kind hs else ofKind kind hs := by
  by_cases hkind : fieldKind h.1 = kind <;> simp [ofKind, hkind]

theorem ofKind_snoc (kind : FieldKind) (hs : Headers) (h : Str × Str) : ofKind kind (hs ++ [h]) =
    if fieldKind h.1 = kind then ofKind kind hs ++ [h.2] else ofKind kind hs := by
  rw [ofKind_append, ofKind_cons]
  split
  · rfl
  · exact List.append_nil _

end

/-- What the fields say about the host. -/
inductive KnownHost (hs : Headers) : Version → Version → Prop
  | old : KnownHost hs .http10 .http10
  | notRead : ofKind .host hs = [] → KnownHost hs .hostNotRead .hostNotRead
  | read {value : Str} : ofKind .host hs = [value] → KnownHost hs .hostNotRead .hostRead

/-- Without a transfer coding: what is known about the body is its length, if any. -/
inductive Plain (m : Nat) (hs : Headers) : BodyType → Nat → Prop
  | noBody : ofKind .transferEncoding hs = [] → ofKind .contentLength hs = [] → Plain m hs .noBody m
  | length {value : Str} {n : Nat} : ofKind .transferEncoding hs = [] →
    ofKind .contentLength hs = [value] → IsNumber 10 decimalDigit value n →
    Plain m hs .contentLengthRead n

/-- With transfer codings the last one decides. -/
def Coded (values : List Str) (b : BodyType) : Prop :=
  ∃ vs v, values = vs ++ [v] ∧ (∀ v' ∈ vs, NeverChunked v') ∧ Coding v b

/-- What the fields say about the body. In front of the first transfer coding they may say a length as
well; behind it a length is not read. -/
inductive KnownBody (m : Nat) (hs : Headers) : BodyType → Nat → Prop
  | plain {b : BodyType} {n : Nat} : Plain m hs b n → KnownBody m hs b n
  | coded {before after : Headers} {h : Str × Str} {b₀ b : BodyType} {n : Nat} : Plain m before b₀ n →
    hs = before ++ h :: after → fieldKind h.1 = .transferEncoding →
    Coded (h.2 :: ofKind .transferEncoding after) b → KnownBody m hs b n

/-- What is known behind some fields, from what they say. -/
structure Known (v : Version) (m : Nat) (hs : Headers) (d : Control) : Prop where
  state : d.state = .expectFieldName
  host : KnownHost hs v d.version
  body : KnownBody m hs d.bodyType d.bodySize

section
variable {m n n' : Nat} {v w : Version} {b b' : BodyType} {hs : Headers} {h : Str × Str}
  {values : List Str} {value : Str}

theorem Coding.known (h : Coding value b) : b.Known := by
  cases h <;> exact ⟨by simp, by simp⟩

theorem Plain.known (h : Plain m hs b n) : b.Known ∧ b ≠ .chunkedEncodingRead := by
  cases h <;> exact ⟨⟨by simp, by simp⟩, by simp⟩

theorem KnownBody.known (h : KnownBody m hs b n) : b.Known := by
  cases h with
  | plain h => exact h.known.1
  | coded _ _ _ h =>
    obtain ⟨vs, v, -, -, hcoding⟩ := h
    exact hcoding.known

theorem coded_single : Coded [value] b ↔ Coding value b := by
  constructor
  · rintro ⟨vs, v, heq, -, hcoding⟩
    have hvs : vs = [] := by
      cases vs with
      | nil => rfl
      | cons x vs => simp at heq
    subst hvs
    cases heq
    exact hcoding
  · intro h
    exact ⟨[], value, rfl, by simp, h⟩

theorem coded_snoc (hne : values ≠ []) : Coded (values ++ [value]) b ↔
    Coded values .randomEncodingRead ∧ Coding value b := by
  constructor
  · rintro ⟨vs, v, heq, hvs, hcoding⟩
    obtain ⟨rfl, hv⟩ := List.append_inj' heq rfl
    cases hv
    refine ⟨⟨values.dropLast, values.getLast hne, (List.dropLast_concat_getLast hne).symm,
      fun v' hv' => hvs v' (List.mem_of_mem_dropLast hv'), ?_⟩, hcoding⟩
    exact .random (hvs _ (List.getLast_mem hne))
  · rintro ⟨⟨vs, v, rfl, hvs, hv⟩, hcoding⟩
    refine ⟨vs ++ [v], value, rfl, fun v' hv' => ?_, hcoding⟩
    rcases List.mem_append.mp hv' with hv' | hv'
    · exact hvs v' hv'
    · cases List.mem_singleton.mp hv'
      cases hv with
      | random h => exact h

theorem hostStep_of_ne (hkind : fieldKind h.1 ≠ .host) : HostStep h v w ↔ w = v := by
  unfold HostStep
  split <;> first | exact absurd ‹_› hkind | rfl

theorem bodyStep_of_ne (hte : fieldKind h.1 ≠ .transferEncoding) (hcl : fieldKind h.1 ≠ .contentLength) :
    BodyStep h b n b' n' ↔ b' = b ∧ n' = n := by
  unfold BodyStep
  split <;> first | exact absurd ‹_› hte | exact absurd ‹_› hcl | rfl

theorem bodyStep_coding (hte : fieldKind h.1 = .transferEncoding) : BodyStep h b n b' n' ↔
    b ≠ .chunkedEncodingRead ∧ Coding h.2 b' ∧ n' = n := by
  cases b <;> simp [BodyStep, hte]

theorem bodyStep_coded (hb : Coded values b) (hte : fieldKind h.1 ≠ .transferEncoding) :
    BodyStep h b n b' n' ↔ b' = b ∧ n' = n := by
  by_cases hcl : fieldKind h.1 = .contentLength
  · obtain ⟨vs, v, -, -, hcoding⟩ := hb
    cases hcoding <;> simp [BodyStep, hcl]
  · exact bodyStep_of_ne hte hcl

theorem Plain.noCoding (h : Plain m hs b n) : ofKind .transferEncoding hs = [] := by
  cases h with
  | noBody hnone => exact hnone
  | length hnone => exact hnone

theorem knownHost_snoc :
    (∃ v', KnownHost hs v v' ∧ HostStep h v' w) ↔ KnownHost (hs ++ [h]) v w := by
  have hsnoc := ofKind_snoc .host hs h
  by_cases hkind : fieldKind h.1 = .host
  · rw [if_pos hkind] at hsnoc
    constructor
    · rintro ⟨v', hknown, hstep⟩
      cases hknown with
      | old =>
        simp only [HostStep, hkind] at hstep
        subst hstep
        exact .old
      | notRead hnone =>
        simp only [HostStep, hkind] at hstep
        subst hstep
        exact .read (show _ = [h.2] by rw [hsnoc, hnone]; rfl)
      | read => simp [HostStep, hkind] at hstep
    · intro hknown
      cases hknown with
      | old => exact ⟨_, .old, by simp [HostStep, hkind]⟩
      | notRead hnone => simp [hsnoc] at hnone
      | @read value hone =>
        have hboth : ofKind .host hs = [] ∧ h.2 = value := by
          simpa [List.append_eq_singleton_iff] using hsnoc.symm.trans hone
        obtain ⟨hnone, -⟩ := hboth
        exact ⟨_, .notRead hnone, by simp [HostStep, hkind]⟩
  · rw [if_neg hkind] at hsnoc
    simp only [hostStep_of_ne hkind, exists_eq_right']
    constructor
    · intro hknown
      cases hknown with
      | old => exact .old
      | notRead hnone => exact .notRead (hsnoc.trans hnone)
      | read hone => exact .read (hsnoc.trans hone)
    · intro hknown
      cases hknown with
      | old => exact .old
      | notRead hnone => exact .notRead (hsnoc.symm.trans hnone)
      | read hone => exact .read (hsnoc.symm.trans hone)

theorem plain_snoc (hte : fieldKind h.1 ≠ .transferEncoding) :
    (∃ b n, Plain m hs b n ∧ BodyStep h b n b' n') ↔ Plain m (hs ++ [h]) b' n' := by
  have hcoding := ofKind_snoc .transferEncoding hs h
  rw [if_neg hte] at hcoding
  have hlength := ofKind_snoc .contentLength hs h
  by_cases hcl : fieldKind h.1 = .contentLength
  · rw [if_pos hcl] at hlength
    constructor
    · rintro ⟨b, n, hplain, hstep⟩
      cases hplain with
      | noBody hnone hnoLength =>
        simp only [BodyStep, hcl] at hstep
        obtain ⟨rfl, hnumber⟩ := hstep
        exact .length (hcoding.trans hnone) (by rw [hlength, hnoLength]; rfl) hnumber
      | length => simp [BodyStep, hcl] at hstep
    · intro hplain
      cases hplain with
      | noBody hnone hnoLength => simp [hlength] at hnoLength
      | @length value _ hnone hone hnumber =>
        have hboth : ofKind .contentLength hs = [] ∧ h.2 = value := by
          simpa [List.append_eq_singleton_iff] using hlength.symm.trans hone
        obtain ⟨hnoLength, rfl⟩ := hboth
        refine ⟨_, _, .noBody (hcoding.symm.trans hnone) hnoLength, ?_⟩
        simp only [BodyStep, hcl]
        exact ⟨trivial, hnumber⟩
  · rw [if_neg hcl] at hlength
    simp only [bodyStep_of_ne hte hcl]
    constructor
    · rintro ⟨b, n, hplain, rfl, rfl⟩
      cases hplain with
      | noBody hnone hnoLength => exact .noBody (hcoding.trans hnone) (hlength.trans hnoLength)
      | length hnone hone hnumber =>
        exact .length (hcoding.trans hnone) (hlength.trans hone) hnumber
    · intro hplain
      refine ⟨b', n', ?_, rfl, rfl⟩
      cases hplain with
      | noBody hnone hnoLength =>
        exact .noBody (hcoding.symm.trans hnone) (hlength.symm.trans hnoLength)
      | length hnone hone hnumber =>
        exact .length (hcoding.symm.trans hnone) (hlength.symm.trans hone) hnumber

theorem knownBody_snoc :
    (∃ b n, KnownBody m hs b n ∧ BodyStep h b n b' n') ↔ KnownBody m (hs ++ [h]) b' n' := by
  constructor
  · rintro ⟨b, n, hknown, hstep⟩
    by_cases hte : fieldKind h.1 = .transferEncoding
    · obtain ⟨hb, hcoding, rfl⟩ := (bodyStep_coding hte).mp hstep
      cases hknown with
      | plain hplain => exact .coded hplain rfl hte (coded_single.mpr hcoding)
      | @coded before after h₀ _ _ _ hplain hhs hkind hcoded =>
        refine .coded hplain (show hs ++ [h] = before ++ h₀ :: (after ++ [h]) by rw [hhs]; simp) hkind ?_
        rw [ofKind_snoc, if_pos hte, ← List.cons_append, coded_snoc (List.cons_ne_nil _ _)]
        obtain ⟨vs, v, heq, hvs, hv⟩ := hcoded
        cases hv with
        | random hv => exact ⟨⟨vs, v, heq, hvs, .random hv⟩, hcoding⟩
        | chunked => exact absurd rfl hb
    · cases hknown with
      | plain hplain => exact .plain ((plain_snoc hte).mp ⟨b, n, hplain, hstep⟩)
      | @coded before after h₀ b₀ _ _ hplain hhs hkind hcoded =>
        obtain ⟨rfl, rfl⟩ := (bodyStep_coded hcoded hte).mp hstep
        refine .coded hplain (show hs ++ [h] = before ++ h₀ :: (after ++ [h]) by rw [hhs]; simp) hkind ?_
        rwa [ofKind_snoc, if_neg hte]
  · intro hknown
    cases hknown with
    | plain hplain =>
      have hte : fieldKind h.1 ≠ .transferEncoding := by
        intro hte
        have hnone := hplain.noCoding
        rw [ofKind_snoc, if_pos hte] at hnone
        simp at hnone
      obtain ⟨b, n, hplain, hstep⟩ := (plain_snoc hte).mpr hplain
      exact ⟨b, n, .plain hplain, hstep⟩
    | @coded before after h₀ b₀ _ _ hplain hhs hkind hcoded =>
      rcases List.eq_nil_or_concat' after with rfl | ⟨after, h', rfl⟩
      · obtain ⟨rfl, hh⟩ := List.append_inj' hhs rfl
        cases hh
        exact ⟨b₀, n', .plain hplain, (bodyStep_coding hkind).mpr
          ⟨hplain.known.2, coded_single.mp hcoded, rfl⟩⟩
      · rw [← List.cons_append, ← List.append_assoc] at hhs
        obtain ⟨rfl, hh⟩ := List.append_inj' hhs rfl
        cases hh
        rw [ofKind_snoc] at hcoded
        by_cases hte : fieldKind h.1 = .transferEncoding
        · rw [if_pos hte, ← List.cons_append, coded_snoc (List.cons_ne_nil _ _)] at hcoded
          exact ⟨_, n', .coded hplain rfl hkind hcoded.1, (bodyStep_coding hte).mpr
            ⟨by simp, hcoded.2, rfl⟩⟩
        · rw [if_neg hte] at hcoded
          exact ⟨b', n', .coded hplain rfl hkind hcoded, (bodyStep_coded hcoded hte).mpr ⟨rfl, rfl⟩⟩

/-- Where the fields of a request begin. `m` is what the size of an earlier body has left. -/
def Control.atFields (x : Char) (m : Nat) : Control := ⟨.expectFieldName, startVersion x, .noBody, m⟩

/-- The reader knows what the fields say, and refuses fields that say nothing sensible. -/
theorem knowAll_ok_iff {x : Char} {d : Control} :
    (Control.atFields x m).knowAll hs = .ok d ↔ Known (startVersion x) m hs d := by
  induction hs using List.reverseRecOn generalizing d with
  | nil =>
    rw [Control.knowAll, List.foldlM_nil]
    constructor
    · intro h
      cases h
      refine ⟨rfl, ?_, .plain (.noBody rfl rfl)⟩
      rw [Control.atFields, startVersion]
      split
      · exact .old
      · exact .notRead rfl
    · rintro ⟨hstate, hhost, hbody⟩
      obtain ⟨state, v, b, n⟩ := d
      cases hstate
      have hv : v = startVersion x := by
        generalize startVersion x = v₀ at hhost
        cases hhost with
        | old | notRead => rfl
        | read hone => cases hone
      have hb : b = .noBody ∧ n = m := by
        cases hbody with
        | plain hplain =>
          cases hplain with
          | noBody => exact ⟨rfl, rfl⟩
          | length _ hone => cases hone
        | coded _ hhs => simp at hhs
      obtain ⟨rfl, rfl⟩ := hb
      rw [hv]
      rfl
  | append_singleton hs h ih =>
    have hsnoc : (Control.atFields x m).knowAll (hs ++ [h]) = .ok d ↔
        ∃ c, (Control.atFields x m).knowAll hs = .ok c ∧ c.know h = .ok d := by
      simp only [Control.knowAll, List.foldlM_append, List.foldlM_cons, List.foldlM_nil, bind_pure]
      rw [← Control.knowAll]
      cases (Control.atFields x m).knowAll hs with
      | error code => exact iff_of_false nofun fun ⟨c, hc, _⟩ => nomatch hc
      | ok c =>
        constructor
        · exact fun hknow => ⟨c, rfl, hknow⟩
        · rintro ⟨c, hc, hknow⟩
          cases hc
          exact hknow
    rw [hsnoc]
    simp only [ih]
    constructor
    · rintro ⟨c, hknown, hknow⟩
      obtain ⟨hstate, hhost, hbody⟩ := (know_ok_iff hknown.body.known).mp hknow
      exact ⟨hstate.trans hknown.state, knownHost_snoc.mp ⟨_, hknown.host, hhost⟩,
        knownBody_snoc.mp ⟨_, _, hknown.body, hbody⟩⟩
    · rintro ⟨hstate, hhost, hbody⟩
      obtain ⟨v, hhost, hhostStep⟩ := knownHost_snoc.mpr hhost
      obtain ⟨b, n, hbody, hbodyStep⟩ := knownBody_snoc.mpr hbody
      exact ⟨⟨.expectFieldName, v, b, n⟩, ⟨rfl, hhost, hbody⟩,
        (know_ok_iff hbody.known).mpr ⟨hstate, hhostStep, hbodyStep⟩⟩

/-- How a body is framed. -/
inductive Framing where
  | empty
  | sized (n : Nat)
  | chunked
  deriving DecidableEq, Repr

/-- How the fields of a request frame its body: by its transfer codings, of which the last one is
`chunked`, or else by a length, or there is no body. In front of the transfer codings one length is
taken that means nothing, and behind them any. -/
inductive Framing.Of (hs : Headers) : Framing → Prop
  | empty : ofKind .transferEncoding hs = [] →
    ofKind .contentLength hs = [] ∨
      (∃ value, ofKind .contentLength hs = [value] ∧ IsNumber 10 decimalDigit value 0) →
    Of hs .empty
  | sized {value : Str} {n : Nat} : ofKind .transferEncoding hs = [] →
    ofKind .contentLength hs = [value] → IsNumber 10 decimalDigit value n → n ≠ 0 → Of hs (.sized n)
  | chunked {before after : Headers} {h : Str × Str} {values : List Str} {value : Str} :
    hs = before ++ h :: after → fieldKind h.1 = .transferEncoding →
    ofKind .transferEncoding before = [] →
    ofKind .contentLength before = [] ∨
      (∃ value n, ofKind .contentLength before = [value] ∧ IsNumber 10 decimalDigit value n) →
    h.2 :: ofKind .transferEncoding after = values ++ [value] → (∀ v ∈ values, NeverChunked v) →
    EndsChunked value → Of hs .chunked

/-- What is known about the body when it is framed so. -/
def Framing.Says (b : BodyType) (n : Nat) : Framing → Prop
  | empty => b = .noBody ∨ b = .contentLengthRead ∧ n = 0
  | sized size => b = .contentLengthRead ∧ n = size ∧ size ≠ 0
  | chunked => b = .chunkedEncodingRead

theorem framing_of_iff {framing : Framing} :
    (∃ b n, KnownBody m hs b n ∧ framing.Says b n) ↔ framing.Of hs := by
  constructor
  · rintro ⟨b, n, hknown, hsays⟩
    cases hknown with
    | plain hplain =>
      cases hplain with
      | noBody hnone hnoLength =>
        cases framing <;> simp [Framing.Says] at hsays
        exact .empty hnone (.inl hnoLength)
      | length hnone hone hnumber =>
        cases framing with
        | empty =>
          have hzero : n = 0 := by simpa [Framing.Says] using hsays
          exact .empty hnone (.inr ⟨_, hone, hzero ▸ hnumber⟩)
        | sized size =>
          obtain ⟨-, rfl, hne⟩ := hsays
          exact .sized hnone hone hnumber hne
        | chunked => simp [Framing.Says] at hsays
    | coded hplain hhs hkind hcoded =>
      obtain ⟨values, value, heq, hvalues, hcoding⟩ := hcoded
      cases hcoding with
      | random => cases framing <;> simp [Framing.Says] at hsays
      | chunked hends =>
        cases framing <;> simp [Framing.Says] at hsays
        refine .chunked hhs hkind hplain.noCoding ?_ heq hvalues hends
        cases hplain with
        | noBody _ hnoLength => exact .inl hnoLength
        | length _ hone hnumber => exact .inr ⟨_, _, hone, hnumber⟩
  · intro hframing
    cases hframing with
    | empty hnone hlength =>
      rcases hlength with hnoLength | ⟨value, hone, hnumber⟩
      · exact ⟨_, _, .plain (.noBody hnone hnoLength), .inl rfl⟩
      · exact ⟨_, _, .plain (.length hnone hone hnumber), .inr ⟨rfl, rfl⟩⟩
    | sized hnone hone hnumber hne =>
      exact ⟨_, _, .plain (.length hnone hone hnumber), rfl, rfl, hne⟩
    | chunked hhs hkind hnone hlength heq hvalues hends =>
      rcases hlength with hnoLength | ⟨value, n, hone, hnumber⟩
      · exact ⟨_, _, .coded (.noBody hnone hnoLength) hhs hkind
          ⟨_, _, heq, hvalues, .chunked hends⟩, rfl⟩
      · exact ⟨_, _, .coded (.length hnone hone hnumber) hhs hkind
          ⟨_, _, heq, hvalues, .chunked hends⟩, rfl⟩

/-- What is expected behind the headers. -/
def Framing.Behind (d : Control) : Framing → Prop
  | empty => behindHeaders d = .ok .expectEndOfBody
  | sized n => behindHeaders d = .ok .expectBody ∧ d.bodySize = n
  | chunked => behindHeaders d = .ok .expectChunkSize

theorem behind_iff {d : Control} {framing : Framing} (hb : d.bodyType.Known) :
    framing.Behind d ↔ d.version ≠ .hostNotRead ∧ framing.Says d.bodyType d.bodySize := by
  obtain ⟨state, v, b, n⟩ := d
  by_cases hv : v = .hostNotRead
  · cases framing <;> simp [Framing.Behind, behindHeaders, hv]
  · cases b with
    | readingContentLength => exact absurd rfl hb.1
    | readingEncoding => exact absurd rfl hb.2
    | noBody | randomEncodingRead | chunkedEncodingRead =>
      cases framing <;> simp [Framing.Behind, Framing.Says, behindHeaders, hv]
    | contentLengthRead =>
      by_cases hn : n = 0
      · cases framing <;> simp [Framing.Behind, Framing.Says, behindHeaders, hv, hn]
        omega
      · cases framing <;> simp [Framing.Behind, Framing.Says, behindHeaders, hv, hn]
        omega

theorem knowAll_of_framing {x : Char} {framing : Framing}
    (hhost : startVersion x = .http10 ∨ ∃ value, ofKind .host hs = [value])
    (hframing : framing.Of hs) (m : Nat) :
    ∃ d, (Control.atFields x m).knowAll hs = .ok d ∧ framing.Behind d := by
  obtain ⟨b, n, hbody, hsays⟩ := (framing_of_iff (m := m)).mpr hframing
  have hversion : ∃ w, KnownHost hs (startVersion x) w ∧ w ≠ .hostNotRead := by
    by_cases hold : startVersion x = .http10
    · exact ⟨.http10, by rw [hold]; exact .old, by simp⟩
    · have hnew : startVersion x = .hostNotRead := by
        unfold startVersion at hold ⊢
        split at hold
        · exact absurd rfl hold
        · exact if_neg ‹_›
      obtain ⟨value, hone⟩ := hhost.resolve_left hold
      exact ⟨.hostRead, by rw [hnew]; exact .read hone, by simp⟩
  obtain ⟨w, hw, hne⟩ := hversion
  exact ⟨⟨.expectFieldName, w, b, n⟩, knowAll_ok_iff.mpr ⟨rfl, hw, hbody⟩,
    (behind_iff hbody.known).mpr ⟨hne, hsays⟩⟩

/-- Fields that are taken, and leave the reader before a body, name a host and frame the body. -/
theorem framing_of_knowAll {x : Char} {d : Control} {framing : Framing}
    (hknow : (Control.atFields x m).knowAll hs = .ok d) (hbehind : framing.Behind d) :
    (startVersion x = .http10 ∨ ∃ value, ofKind .host hs = [value]) ∧ framing.Of hs := by
  obtain ⟨-, hhost, hbody⟩ := knowAll_ok_iff.mp hknow
  obtain ⟨hversion, hsays⟩ := (behind_iff hbody.known).mp hbehind
  refine ⟨?_, framing_of_iff.mp ⟨_, _, hbody, hsays⟩⟩
  generalize startVersion x = v at hhost
  generalize d.version = w at hhost hversion
  cases hhost with
  | old => exact .inl rfl
  | notRead => exact absurd rfl hversion
  | read hone => exact .inr ⟨_, hone⟩

/-- The fields of a request are taken exactly when they name one host, which HTTP/1.0 may leave out,
and frame the body. -/
theorem framing_iff {x : Char} {framing : Framing} :
    (∃ d, (Control.atFields x m).knowAll hs = .ok d ∧ framing.Behind d) ↔
      (startVersion x = .http10 ∨ ∃ value, ofKind .host hs = [value]) ∧ framing.Of hs := by
  constructor
  · rintro ⟨d, hknow, hbehind⟩
    exact framing_of_knowAll hknow hbehind
  · rintro ⟨hhost, hframing⟩
    exact knowAll_of_framing hhost hframing m

end

end Http

end Wye
