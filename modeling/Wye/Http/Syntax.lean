import Wye.Base.Text
import Mathlib.Algebra.Order.Ring.Nat
import Mathlib.Data.List.Forall2
import Mathlib.Tactic.Ring

/-!
# The syntax of HTTP

The characters and the small matchers of `boost/http/syntax` and `boost/http/reader/detail`, and what
they decode: the numbers of `Content-Length` and of chunk sizes, the value of a field without the
white space around it, the elements of a comma-separated value, and the transfer codings.
-/

namespace Wye

open Text

namespace Http

/-! ### Characters -/

def isAlpha (c : Char) : Bool :=
  (0x41 ≤ c.toNat && c.toNat ≤ 0x5A) || (0x61 ≤ c.toNat && c.toNat ≤ 0x7A)

def isDigit (c : Char) : Bool := 0x30 ≤ c.toNat && c.toNat ≤ 0x39

def isAlnum (c : Char) : Bool := isAlpha c || isDigit c

def isTchar (c : Char) : Bool := "!#$%&'*+-.^_`|~".toList.contains c || isAlnum c

def isSp (c : Char) : Bool := c == ' '

def isVchar (c : Char) : Bool := 0x21 ≤ c.toNat && c.toNat ≤ 0x7E

def isObsText (c : Char) : Bool := 0x80 ≤ c.toNat

def isOws (c : Char) : Bool := c == ' ' || c == '\t'

def isChunkExtChar (c : Char) : Bool :=
  ";=\"\t !\\".toList.contains c || isTchar c || (0x23 ≤ c.toNat && c.toNat ≤ 0x5B) ||
    (0x5D ≤ c.toNat && c.toNat ≤ 0x7E) || isObsText c || isVchar c

def isRequestTargetChar (c : Char) : Bool := "?/-._~%!$&'()*+,;=:@".toList.contains c || isAlnum c

/-- `syntax::detail::is_field_value_char`. -/
def isFieldValueChar (c : Char) : Bool := isVchar c || isObsText c || isOws c

def isHexdigit (c : Char) : Bool := "0123456789ABCDEFabcdef".toList.contains c

/-- `boost::algorithm::iequals` in the locale "C". -/
def iequals (a b : Str) : Bool := a.map Char.toLower == b.map Char.toLower

/-! ### Matchers -/

/-- How many characters at the front are of a kind: the loop of the matchers for names, values, white
space and chunk sizes. -/
def matchLen (p : Char → Bool) (view : Str) : Nat := (view.takeWhile p).length

/-- `liberal_crlf::result`. -/
inductive CrlfResult where
  | crlf
  | lf
  | insufficientData
  | invalidData
  deriving DecidableEq, Repr

/-- `liberal_crlf::match`. -/
def liberalCrlf : Str → CrlfResult
  | [] => .insufficientData
  | c :: rest =>
    if c = '\n' then .lf
    else if c ≠ '\r' then .invalidData
    else
      match rest with
      | [] => .insufficientData
      | d :: _ => if d = '\n' then .crlf else .invalidData

/-- `strict_crlf::match`. -/
def strictCrlf (view : Str) : Nat :=
  if view.length < 2 then 0 else if view.take 2 = ['\r', '\n'] then 2 else 0

/-! ### Numbers -/

/-- `content_length::result` and `chunk_size::result`. -/
inductive DecodeResult where
  | invalid
  | ok
  | overflow
  deriving DecidableEq, Repr

/-- `std::numeric_limits<uint_least64_t>::max()`. -/
def maxUint64 : Nat := 2 ^ 64 - 1

/-- The loop of `decode`, from the last digit to the first. -/
def decodeLoop (base : Nat) (digitOf : Char → Option Nat) : Str → Nat → Nat → DecodeResult × Nat
  | [], _, out => (.ok, out)
  | c :: cs, digit, out =>
    match digitOf c with
    | none => (.invalid, out)
    | some value =>
      if maxUint64 / digit < value then (.overflow, out)
      else if maxUint64 - value * digit < out then (.overflow, out)
      else if cs.isEmpty then (.ok, out + value * digit)
      else if maxUint64 / base < digit then (.overflow, out + value * digit)
      else decodeLoop base digitOf cs (digit * base) (out + value * digit)

/-- `decode`: the result, and what is left in the target. -/
def decodeNumber (base : Nat) (digitOf : Char → Option Nat) (view : Str) (out : Nat) :
    DecodeResult × Nat :=
  if view.isEmpty then (.invalid, out)
  else
    let view := view.dropWhile (· == '0')
    if view.isEmpty then (.ok, 0) else decodeLoop base digitOf view.reverse 1 0

def decimalDigit (c : Char) : Option Nat := if isDigit c then some (c.toNat - 0x30) else none

def hexDigit (c : Char) : Option Nat :=
  if isDigit c then some (c.toNat - 0x30)
  else if "abcdefABCDEF".toList.contains c then some (10 + c.toLower.toNat - 0x61)
  else none

/-- `content_length::decode`. -/
def contentLength : Str → Nat → DecodeResult × Nat := decodeNumber 10 decimalDigit

/-- `chunk_size::decode`. -/
def chunkSize : Str → Nat → DecodeResult × Nat := decodeNumber 16 hexDigit

/-! ### What the numbers are -/

/-- The number with these digits, the first of them the highest. -/
def numeral (base : Nat) (ds : List Nat) : Nat := ds.foldl (fun n d => n * base + d) 0

@[simp] theorem numeral_nil (base : Nat) : numeral base [] = 0 := rfl

theorem numeral_concat (base : Nat) (ds : List Nat) (d : Nat) :
    numeral base (ds ++ [d]) = numeral base ds * base + d := by
  rw [numeral, List.foldl_append]
  rfl

theorem numeral_zero_cons (base : Nat) (ds : List Nat) : numeral base (0 :: ds) = numeral base ds := by
  rw [numeral, List.foldl_cons, Nat.zero_mul]
  rfl

/-- The digits that a text stands for. -/
def Digits (digitOf : Char → Option Nat) : Str → List Nat → Prop :=
  List.Forall₂ fun c d => digitOf c = some d

/-- How characters stand for digits: a zero is written in one way. -/
structure DigitSystem (base : Nat) (digitOf : Char → Option Nat) : Prop where
  base_pos : 0 < base
  zero : ∀ c, digitOf c = some 0 ↔ c = '0'

theorem Digits.unique {digitOf : Char → Option Nat} {s : Str} {ds ds' : List Nat}
    (h : Digits digitOf s ds) (h' : Digits digitOf s ds') : ds = ds' := by
  induction h generalizing ds' with
  | nil => cases h'; rfl
  | cons hd _ ih =>
    cases h' with
    | cons hd' hds' =>
      cases hd.symm.trans hd'
      rw [ih hds']

theorem digits_cons_iff {digitOf : Char → Option Nat} {c : Char} {v : Nat}
    (hc : digitOf c = some v) {cs : Str} {ds' : List Nat} :
    Digits digitOf (c :: cs) ds' ↔ ∃ ds, ds' = v :: ds ∧ Digits digitOf cs ds := by
  constructor
  · rintro (_ | ⟨hd, hds⟩)
    cases hc.symm.trans hd
    exact ⟨_, rfl, hds⟩
  · rintro ⟨ds, rfl, hds⟩
    exact .cons hc hds

theorem scale_numeral (base digit v : Nat) (ds : List Nat) : digit * numeral base (v :: ds).reverse =
    digit * base * numeral base ds.reverse + v * digit := by
  rw [List.reverse_cons, numeral_concat]
  ring

section
variable {base : Nat} {digitOf : Char → Option Nat} (sys : DigitSystem base digitOf)
include sys

theorem numeral_pos {cs : Str} {ds : List Nat} (h : Digits digitOf cs ds)
    (hlast : ∀ c ∈ cs.getLast?, c ≠ '0') (hne : cs ≠ []) : 0 < numeral base ds.reverse := by
  induction h with
  | nil => exact absurd rfl hne
  | @cons c d cs ds hd htail ih =>
    rw [List.reverse_cons, numeral_concat]
    cases htail with
    | nil =>
      refine Nat.pos_of_ne_zero fun hzero => ?_
      have hd0 : d = 0 := by simpa using hzero
      exact hlast c (by simp) ((sys.zero c).mp (hd0 ▸ hd))
    | cons hd' htail' =>
      have hpos := ih (fun c hc => hlast c (by simpa using hc)) (by simp)
      exact Nat.add_pos_left (Nat.mul_pos hpos sys.base_pos) d

theorem decodeLoop_ok_iff {cs : Str} (hne : cs ≠ []) (hlast : ∀ c ∈ cs.getLast?, c ≠ '0')
    {digit out n : Nat} (hdigit : 0 < digit) (hout : out ≤ maxUint64) :
    decodeLoop base digitOf cs digit out = (.ok, n) ↔
      ∃ ds, Digits digitOf cs ds ∧ n = out + digit * numeral base ds.reverse ∧ n ≤ maxUint64 := by
  induction cs generalizing digit out with
  | nil => exact absurd rfl hne
  | cons c cs ih =>
    rw [decodeLoop]
    cases hc : digitOf c with
    | none =>
      refine iff_of_false (by simp) ?_
      rintro ⟨ds, hds, -⟩
      cases hds with
      | cons hd _ => simp [hc] at hd
    | some v =>
      simp only [digits_cons_iff hc]
      split
      · rename_i hover
        refine iff_of_false (by simp) ?_
        rintro ⟨_, ⟨ds, rfl, -⟩, hn, hle⟩
        rw [scale_numeral] at hn
        have := (Nat.div_lt_iff_lt_mul hdigit).mp hover
        omega
      · rename_i hfits
        split
        · rename_i hover
          refine iff_of_false (by simp) ?_
          rintro ⟨_, ⟨ds, rfl, -⟩, hn, hle⟩
          rw [scale_numeral] at hn
          omega
        · rename_i hsum
          have hvfits : v * digit ≤ maxUint64 :=
            (Nat.le_div_iff_mul_le hdigit).mp (Nat.le_of_not_lt hfits)
          split
          · rename_i hempty
            cases List.isEmpty_iff.mp hempty
            constructor
            · intro h
              cases h
              refine ⟨[v], ⟨[], rfl, .nil⟩, ?_, by omega⟩
              rw [scale_numeral]
              simp
            · rintro ⟨_, ⟨ds, rfl, hds⟩, hn, hle⟩
              cases hds
              rw [scale_numeral] at hn
              simp [hn]
          · rename_i hcs
            have hcs' : cs ≠ [] := fun h => hcs (List.isEmpty_iff.mpr h)
            have hlast' : ∀ c ∈ cs.getLast?, c ≠ '0' := by
              intro c' hc'
              refine hlast c' ?_
              rw [List.getLast?_cons_of_ne_nil hcs']
              exact hc'
            split
            · rename_i hover
              refine iff_of_false (by simp) ?_
              rintro ⟨_, ⟨ds, rfl, hds⟩, hn, hle⟩
              rw [scale_numeral] at hn
              have hbig := (Nat.div_lt_iff_lt_mul sys.base_pos).mp hover
              have hpos := numeral_pos sys hds hlast' hcs'
              have hmul : digit * base ≤ digit * base * numeral base ds.reverse :=
                Nat.le_mul_of_pos_right _ hpos
              omega
            · rw [ih hcs' hlast' (Nat.mul_pos hdigit sys.base_pos) (by omega)]
              constructor
              · rintro ⟨ds, hds, hn, hle⟩
                refine ⟨v :: ds, ⟨ds, rfl, hds⟩, ?_, hle⟩
                rw [scale_numeral]
                omega
              · rintro ⟨_, ⟨ds, rfl, hds⟩, hn, hle⟩
                rw [scale_numeral] at hn
                exact ⟨ds, hds, by omega, hle⟩

theorem digits_dropZeros {s : Str} {n : Nat} :
    (∃ ds, Digits digitOf (s.dropWhile (· == '0')) ds ∧ numeral base ds = n) ↔
      ∃ ds, Digits digitOf s ds ∧ numeral base ds = n := by
  induction s with
  | nil => rfl
  | cons c s ih =>
    by_cases hc : c = '0'
    · subst hc
      rw [List.dropWhile_cons_of_pos (by simp), ih]
      constructor
      · rintro ⟨ds, hds, hn⟩
        exact ⟨0 :: ds, .cons ((sys.zero '0').mpr rfl) hds, by rwa [numeral_zero_cons]⟩
      · rintro ⟨ds', hds', hn⟩
        cases hds' with
        | cons hd hds =>
          cases hd.symm.trans ((sys.zero '0').mpr rfl)
          exact ⟨_, hds, by rwa [numeral_zero_cons] at hn⟩
    · rw [List.dropWhile_cons_of_neg (by simpa using hc)]

/-- `decode` succeeds exactly on a text of digits, not empty, whose number fits into 64 bits, and
then leaves that number. -/
theorem decodeNumber_ok_iff {s : Str} {out n : Nat} : decodeNumber base digitOf s out = (.ok, n) ↔
    s ≠ [] ∧ ∃ ds, Digits digitOf s ds ∧ numeral base ds = n ∧ n ≤ maxUint64 := by
  rw [decodeNumber]
  by_cases hs : s = []
  · simp [hs]
  have hzeros : (∃ ds, Digits digitOf s ds ∧ numeral base ds = n ∧ n ≤ maxUint64) ↔
      (∃ ds, Digits digitOf (s.dropWhile (· == '0')) ds ∧ numeral base ds = n) ∧ n ≤ maxUint64 := by
    rw [digits_dropZeros sys]
    simp only [← and_assoc, exists_and_right]
  rw [if_neg (by simpa using hs), hzeros]
  simp only [ne_eq, hs, not_false_eq_true, true_and]
  generalize hv : s.dropWhile (· == '0') = v
  by_cases hempty : v = []
  · subst hempty
    simp only [List.isEmpty_nil, if_true]
    constructor
    · intro h
      cases h
      exact ⟨⟨[], .nil, rfl⟩, Nat.zero_le _⟩
    · rintro ⟨⟨ds, hds, hn⟩, -⟩
      cases hds
      rw [← hn]
      rfl
  · have hlast : ∀ c ∈ v.reverse.getLast?, c ≠ '0' := by
      intro c hc
      rw [List.getLast?_reverse] at hc
      have hhead := List.head?_dropWhile_not (· == '0') s
      rw [hv, Option.mem_def.mp hc] at hhead
      simpa using hhead
    rw [if_neg (by simpa using hempty),
      decodeLoop_ok_iff sys (by simpa using hempty) hlast Nat.zero_lt_one (Nat.zero_le _)]
    constructor
    · rintro ⟨ds, hds, hn, hle⟩
      refine ⟨⟨ds.reverse, ?_, by simpa using hn.symm⟩, hle⟩
      simpa [Digits] using List.forall₂_reverse_iff.mpr hds
    · rintro ⟨⟨ds, hds, hn⟩, hle⟩
      exact ⟨ds.reverse, List.forall₂_reverse_iff.mpr hds, by simpa using hn.symm, hle⟩

end

theorem digit_eq_zero_iff {c : Char} (hc : isDigit c = true) : c.toNat - 0x30 = 0 ↔ c = '0' := by
  obtain ⟨hlow, -⟩ := Bool.and_eq_true_iff.mp hc
  rw [decide_eq_true_eq] at hlow
  rw [← Char.toNat_inj, show '0'.toNat = 0x30 from rfl]
  omega

theorem decimalSystem : DigitSystem 10 decimalDigit where
  base_pos := by decide
  zero := by
    intro c
    rw [decimalDigit]
    by_cases hc : isDigit c = true
    · rw [if_pos hc, Option.some_inj, digit_eq_zero_iff hc]
    · rw [if_neg hc]
      refine iff_of_false (by simp) ?_
      rintro rfl
      exact hc rfl

theorem hexSystem : DigitSystem 16 hexDigit where
  base_pos := by decide
  zero := by
    intro c
    rw [hexDigit]
    by_cases hc : isDigit c = true
    · rw [if_pos hc, Option.some_inj, digit_eq_zero_iff hc]
    · rw [if_neg hc]
      refine iff_of_false ?_ ?_
      · split
        · rename_i hletter
          have hall : ("abcdefABCDEF".toList.all fun d => 10 + d.toLower.toNat - 0x61 != 0) = true := by
            decide
          simpa using List.all_eq_true.mp hall c (List.contains_iff_mem.mp hletter)
        · simp
      · rintro rfl
        exact hc rfl

/-- The number that a text of digits stands for, when it fits into 64 bits. -/
def IsNumber (base : Nat) (digitOf : Char → Option Nat) (s : Str) (n : Nat) : Prop :=
  s ≠ [] ∧ ∃ ds, Digits digitOf s ds ∧ numeral base ds = n ∧ n ≤ maxUint64

theorem contentLength_ok_iff {s : Str} {out n : Nat} :
    contentLength s out = (.ok, n) ↔ IsNumber 10 decimalDigit s n :=
  decodeNumber_ok_iff decimalSystem

theorem chunkSize_ok_iff {s : Str} {out n : Nat} :
    chunkSize s out = (.ok, n) ↔ IsNumber 16 hexDigit s n :=
  decodeNumber_ok_iff hexSystem

/-! ### Numbers that are written -/

theorem digits_toDigits {base : Nat} {digitOf : Char → Option Nat} (hbase : 1 < base)
    (hdigit : ∀ d, d < base → digitOf d.digitChar = some d) (n : Nat) :
    ∃ ds, Digits digitOf (Nat.toDigits base n) ds ∧ numeral base ds = n := by
  induction n using Nat.strongRecOn with
  | _ n ih =>
    rw [Nat.toDigits_eq_if hbase]
    split
    · rename_i hlt
      exact ⟨[n], .cons (hdigit n hlt) .nil, by simp [numeral]⟩
    · rename_i hle
      obtain ⟨ds, hds, hn⟩ := ih (n / base) (Nat.div_lt_self (by omega) hbase)
      refine ⟨ds ++ [n % base], ?_, ?_⟩
      · exact List.rel_append hds (.cons (hdigit _ (Nat.mod_lt _ (by omega))) .nil)
      · rw [numeral_concat, hn, Nat.mul_comm]
        exact Nat.div_add_mod n base

theorem isNumber_toDigits {base : Nat} {digitOf : Char → Option Nat} (hbase : 1 < base)
    (hdigit : ∀ d, d < base → digitOf d.digitChar = some d) {n : Nat} (hn : n ≤ maxUint64) :
    IsNumber base digitOf (Nat.toDigits base n) n := by
  obtain ⟨ds, hds, hnum⟩ := digits_toDigits hbase hdigit n
  exact ⟨Nat.toDigits_ne_nil, ds, hds, hnum, hn⟩

theorem hexDigit_digitChar : ∀ d, d < 16 → hexDigit d.digitChar = some d := by decide

/-! ### Values of fields -/

/-- `decode_field_value`: without the white space at the end. The first character is not looked at.
Of an empty value nothing can be removed. -/
def decodeFieldValue (view : Str) : Str :=
  view.take (view.length - matchLen isOws view.tail.reverse)

/-- An element of a list without the white space around it. -/
def trim (s : Str) : Str := ((s.dropWhile isOws).reverse.dropWhile isOws).reverse

/-- The elements that `header_value_any_of` passes to its predicate. -/
def elements (value : Str) : List Str := ((value.splitOn ',').map trim).filter (!·.isEmpty)

/-- `header_value_any_of` with a predicate that keeps something in mind: the elements in order, until
the predicate says to stop. -/
def headerValueAnyOf {σ : Type} (p : σ → Str → Bool × σ) : σ → List Str → Bool × σ
  | s, [] => (false, s)
  | s, v :: vs => if (p s v).1 then (true, (p s v).2) else headerValueAnyOf p (p s v).2 vs

/-- `DecodeTransferEncodingResult`. -/
inductive TransferEncoding where
  | chunkedNotFound
  | chunkedAtEnd
  | chunkedInvalid
  deriving DecidableEq, Repr

/-- `decode_transfer_encoding_p`: how many `chunked` have been seen, and the result so far. -/
def transferEncodingStep (s : Nat × TransferEncoding) (v : Str) :
    Bool × (Nat × TransferEncoding) :=
  if !iequals v "chunked".toList then
    if s.1 = 1 then (true, (s.1, .chunkedInvalid)) else (false, s)
  else if s.1 + 1 = 2 then (true, (s.1 + 1, .chunkedInvalid))
  else (false, (s.1 + 1, .chunkedAtEnd))

/-- `decode_transfer_encoding`. -/
def decodeTransferEncoding (field : Str) : TransferEncoding :=
  (headerValueAnyOf transferEncodingStep (0, .chunkedNotFound) (elements field)).2.2

end Http

end Wye
