import JsonShapes.Json.Basic
import JsonShapes.Text.Digits
import JsonShapes.Text.Parsed

/-!
# Reading JSON

A recursive reader over characters. Each part returns what it read together with the text after it
and the fact that this text is shorter, which is why the recursion ends. A fault is kept as its
cause and the text from the faulty place on; line and column are worked out at the end, from how
much of the document that text is.

What the grammar leaves open is settled as follows. `NaN`, `Infinity` and `-Infinity` are numbers. A
fraction or an exponent without a digit is not part of the number before it. A code escape for half
of a surrogate pair is allowed in a string: two matching halves in a row are one code point.

A lone half stays the code point that it is, but it is no character, and no text holds it: it has no
octets, so a text with a lone half could not be written to a file. The reader is given a character
to stand in for lone halves, `replacement` if nothing else is asked for. Names that differ in lone
halves only become one then. So what is said of a document as it is spelled has to be said for every
stand-in, or of a document for which the stand-in makes no difference.
-/

namespace JsonShapes.Json

/-- What is wrong at a place of a text that is no JSON document. -/
inductive Cause where
  | byteOrderMark
  | expectedValue
  | expectedName
  | expectedColon
  | expectedComma
  | openString
  | controlCharacter
  | badEscape
  | badCodeEscape
  | extraData
deriving DecidableEq, Repr

/-- The words for what is wrong. -/
def Cause.message : Cause → String
  | .byteOrderMark => "Unexpected UTF-8 BOM (decode using utf-8-sig)"
  | .expectedValue => "Expecting value"
  | .expectedName => "Expecting property name enclosed in double quotes"
  | .expectedColon => "Expecting ':' delimiter"
  | .expectedComma => "Expecting ',' delimiter"
  | .openString => "Unterminated string starting at"
  | .controlCharacter => "Invalid control character at"
  | .badEscape => "Invalid \\escape"
  | .badCodeEscape => "Invalid \\uXXXX escape"
  | .extraData => "Extra data"

/-- Why a text is not read. -/
inductive Refusal where
  /-- The text is no JSON document; line and column count from one. -/
  | malformed (cause : Cause) (line column : Nat)
  /-- A whole number has more digits than are accepted. -/
  | integerTooLong
deriving DecidableEq, Repr

namespace Reader

/-- Why reading stopped: a fault where `rest` begins, or a whole number that is too long. -/
inductive Stop where
  | fault (cause : Cause) (rest : List Char)
  | integerTooLong

/-- Whether a character may stand between two tokens. -/
def isSpace (c : Char) : Bool :=
  c = ' ' || c = '\t' || c = '\n' || c = '\r'

/-- The text without the blanks at its front. -/
def skip (text : List Char) : List Char :=
  text.dropWhile isSpace

theorem skip_suffix (text : List Char) : skip text <:+ text :=
  List.dropWhile_suffix isSpace

theorem length_skip_le (text : List Char) : (skip text).length ≤ text.length :=
  (skip_suffix text).length_le

/-! ### Strings -/

/-- The code point that a letter after a backslash stands for. -/
def letterEscape? : Char → Option Nat
  | '"' => some 0x22
  | '\\' => some 0x5C
  | '/' => some 0x2F
  | 'b' => some 0x08
  | 'f' => some 0x0C
  | 'n' => some 0x0A
  | 'r' => some 0x0D
  | 't' => some 0x09
  | _ => none

/-- Whether a code point is half of a surrogate pair, and so no character. -/
def isSurrogate (n : Nat) : Bool :=
  0xD800 ≤ n ∧ n < 0xE000

/-- The code points with two matching halves of a surrogate pair in a row as one. A lone half
stays. -/
def joinSurrogates : List Nat → List Nat
  | [] => []
  | [n] => [n]
  | n :: m :: rest =>
    if 0xD800 ≤ n ∧ n < 0xDC00 ∧ 0xDC00 ≤ m ∧ m < 0xE000 then
      (0x10000 + (n - 0xD800) * 0x400 + (m - 0xDC00)) :: joinSurrogates rest
    else n :: joinSurrogates (m :: rest)

/-- The text of code points, with `standIn` for each that is no character. -/
def spell (standIn : Char) (points : List Nat) : String :=
  String.ofList (points.map fun n ↦ if isSurrogate n then standIn else Char.ofNat n)

/-- Reads the code points of a string up to its closing quote. `opening` is the text from the
opening quote on and `done` holds the code points so far, the latest first. A code escape has to be
followed by a further character, as no string ends with its last digit. -/
def stringBody (opening : List Char) (done : List Nat) :
    (text : List Char) → text.length < opening.length → Except Stop (Parsed (List Nat) opening)
  | [], _ => .error (.fault .openString opening)
  | '"' :: rest, h => .ok ⟨joinSurrogates done.reverse, rest, by simp at h; omega⟩
  | '\\' :: rest, h =>
    match rest with
    | [] => .error (.fault .openString opening)
    | 'u' :: a :: b :: c :: d :: e :: more =>
      match hexNumber? [a, b, c, d] with
      | some n => stringBody opening (n :: done) (e :: more) (by simp at h ⊢; omega)
      | none => .error (.fault .badCodeEscape rest)
    | 'u' :: _ => .error (.fault .badCodeEscape rest)
    | c :: more =>
      match letterEscape? c with
      | some n => stringBody opening (n :: done) more (by simp at h ⊢; omega)
      | none => .error (.fault .badEscape ('\\' :: rest))
  | c :: rest, h =>
    if c.toNat < 0x20 then .error (.fault .controlCharacter (c :: rest))
    else stringBody opening (c.toNat :: done) rest (by simp at h ⊢; omega)

/-! ### Numbers -/

theorem length_dropWhile_isDigit_le (text : List Char) :
    (text.dropWhile isDigit).length ≤ text.length :=
  (List.dropWhile_suffix isDigit).length_le

/-- The digits of a fraction at the front of a text, and the text after them. -/
def fraction (text : List Char) : List Char × List Char :=
  match text with
  | '.' :: d :: rest =>
    if isDigit d then (d :: rest.takeWhile isDigit, rest.dropWhile isDigit) else ([], text)
  | _ => ([], text)

theorem fraction_suffix (text : List Char) : (fraction text).2 <:+ text := by
  unfold fraction
  split
  · next d rest =>
    split
    · exact (List.dropWhile_suffix isDigit).trans ⟨['.', d], rfl⟩
    · exact List.suffix_rfl
  · exact List.suffix_rfl

theorem length_fraction_le (text : List Char) : (fraction text).2.length ≤ text.length :=
  (fraction_suffix text).length_le

/-- Whether a text begins with a minus, and the text after its sign, if it has one. -/
def sign : List Char → Bool × List Char
  | '-' :: rest => (true, rest)
  | '+' :: rest => (false, rest)
  | text => (false, text)

theorem sign_suffix (text : List Char) : (sign text).2 <:+ text := by
  unfold sign
  split
  · exact List.suffix_cons _ _
  · exact List.suffix_cons _ _
  · exact List.suffix_rfl

/-- The exponent at the front of a text, if there is one, and the text after it. -/
def exponent (text : List Char) : Option Int × List Char :=
  match text with
  | [] => (none, text)
  | e :: rest =>
    let (negative, unsigned) := sign rest
    if (e = 'e' ∨ e = 'E') ∧ (unsigned.takeWhile isDigit) ≠ [] then
      let size := Int.ofNat (decimalNumber (unsigned.takeWhile isDigit))
      (some (if negative then -size else size), unsigned.dropWhile isDigit)
    else (none, text)

theorem exponent_suffix (text : List Char) : (exponent text).2 <:+ text := by
  unfold exponent
  split
  · exact List.suffix_rfl
  · next e rest =>
    simp only
    split
    · have hunsigned := (List.dropWhile_suffix isDigit).trans (sign_suffix rest)
      exact hunsigned.trans (List.suffix_cons e rest)
    · exact List.suffix_rfl

theorem length_exponent_le (text : List Char) : (exponent text).2.length ≤ text.length :=
  (exponent_suffix text).length_le

/-- The number with these parts: a whole number if it has neither fraction nor exponent. -/
def assemble (negative : Bool) (whole fraction : List Char) (exponent : Option Int) :
    Except Stop Number :=
  match fraction, exponent with
  | [], none =>
    if maxIntegerDigits < whole.length then .error .integerTooLong
    else
      let n := Int.ofNat (decimalNumber whole)
      .ok (.int (if negative then -n else n))
  | _, _ =>
    .ok (.float (Binary64.ofDecimal negative (decimalNumber (whole ++ fraction))
      (exponent.getD 0 - Int.ofNat fraction.length)))

/-- Reads the number whose digits begin `digits`, a part of `text`. -/
def unsigned (text : List Char) (negative : Bool) (digits : List Char)
    (h : digits.length ≤ text.length) : Except Stop (Parsed Number text) :=
  match digits with
  | [] => .error (.fault .expectedValue text)
  | d :: rest =>
    if isDigit d then do
      let whole := if d = '0' then [d] else d :: rest.takeWhile isDigit
      let afterWhole := if d = '0' then rest else rest.dropWhile isDigit
      let (decimals, afterFraction) := fraction afterWhole
      let (power, afterExponent) := exponent afterFraction
      let n ← assemble negative whole decimals power
      return ⟨n, (exponent (fraction afterWhole).2).2, by
        have h₁ := length_exponent_le (fraction afterWhole).2
        have h₂ := length_fraction_le afterWhole
        have h₃ : afterWhole.length ≤ rest.length := by
          simp only [afterWhole]
          split
          · exact Nat.le_refl _
          · exact length_dropWhile_isDigit_le rest
        simp at h
        omega⟩
    else .error (.fault .expectedValue text)

/-! ### Values -/

/-- Takes a word off the front of a text. -/
def word? (expected : List Char) (value : Json) (text : List Char) : Option (Parsed Json text) :=
  if h : expected ≠ [] ∧ expected <+: text then
    some ⟨value, text.drop expected.length, by
      have := List.length_pos_iff.2 h.1
      have := h.2.length_le
      simp only [List.length_drop]
      omega⟩
  else none

/-- The words that are values. -/
def words : List (List Char × Json) :=
  [(['n', 'u', 'l', 'l'], .null),
   (['t', 'r', 'u', 'e'], .bool true),
   (['f', 'a', 'l', 's', 'e'], .bool false),
   (['N', 'a', 'N'], .number (.float (0.0 / 0.0))),
   (['I', 'n', 'f', 'i', 'n', 'i', 't', 'y'], .number (.float (1.0 / 0.0))),
   (['-', 'I', 'n', 'f', 'i', 'n', 'i', 't', 'y'], .number (.float (-1.0 / 0.0)))]

/-- Reads a value that is neither an array nor an object. -/
def scalar (text : List Char) : Except Stop (Parsed Json text) :=
  match words.findSome? fun (expected, value) ↦ word? expected value text with
  | some parsed => .ok parsed
  | none => do
    let n ←
      if text.head? = some '-' then unsigned text true text.tail (by simp)
      else unsigned text false text (Nat.le_refl _)
    return ⟨.number n.value, n.rest, n.shorter⟩

variable (standIn : Char)

mutual

/-- Reads the value at the front of a text, which has no blanks before it. -/
def value (text : List Char) : Except Stop (Parsed Json text) :=
  match text with
  | '"' :: rest => do
    let s ← stringBody ('"' :: rest) [] rest (by simp)
    return ⟨.string (spell standIn s.value), s.rest, s.shorter⟩
  | '[' :: rest =>
    have h := length_skip_le rest
    match hs : skip rest with
    | ']' :: after => .ok ⟨.array [], after, by rw [hs] at h; simp at h ⊢; omega⟩
    | first => items ('[' :: rest) [] first (by rw [hs] at h; simp; omega)
  | '{' :: rest =>
    have h := length_skip_le rest
    match hs : skip rest with
    | '}' :: after => .ok ⟨.object [], after, by rw [hs] at h; simp at h ⊢; omega⟩
    | first => members ('{' :: rest) [] first (by rw [hs] at h; simp; omega)
  | first => scalar first
termination_by (text.length, 0)

/-- Reads the items of an array from the next one on; `done` holds those so far, the latest first.
-/
def items (opening : List Char) (done : List Json) (text : List Char)
    (h : text.length < opening.length) : Except Stop (Parsed Json opening) :=
  match value text with
  | .error stop => .error stop
  | .ok item =>
    have h₁ := item.shorter
    have h₂ := length_skip_le item.rest
    match hs : skip item.rest with
    | ']' :: after =>
      .ok ⟨.array (item.value :: done).reverse, after, by rw [hs] at h₂; simp at h₂; omega⟩
    | ',' :: after =>
      have h₃ := length_skip_le after
      items opening (item.value :: done) (skip after) (by rw [hs] at h₂; simp at h₂; omega)
    | other => .error (.fault .expectedComma other)
termination_by (text.length, 1)
decreasing_by
  · exact Prod.Lex.right _ (by omega)
  · exact Prod.Lex.left _ _ (by rw [hs] at h₂; simp at h₂; omega)

/-- Reads the members of an object from the next one on; `done` holds those so far, the latest
first. -/
def members (opening : List Char) (done : List (String × Json)) (text : List Char)
    (h : text.length < opening.length) : Except Stop (Parsed Json opening) :=
  match member text with
  | .error stop => .error stop
  | .ok read =>
    have h₁ := read.shorter
    have h₂ := length_skip_le read.rest
    match hs : skip read.rest with
    | '}' :: after =>
      .ok ⟨Json.ofMembers (read.value :: done).reverse, after, by
        rw [hs] at h₂; simp only [List.length_cons] at h₂; omega⟩
    | ',' :: after =>
      have h₃ := length_skip_le after
      members opening (read.value :: done) (skip after) (by
        rw [hs] at h₂; simp only [List.length_cons] at h₂; omega)
    | other => .error (.fault .expectedComma other)
termination_by (text.length, 2)
decreasing_by
  · exact Prod.Lex.right _ (by omega)
  · exact Prod.Lex.left _ _ (by rw [hs] at h₂; simp only [List.length_cons] at h₂; omega)

/-- Reads one member of an object: its name, a colon and its value. -/
def member (text : List Char) : Except Stop (Parsed (String × Json) text) :=
  match text with
  | '"' :: rest =>
    match stringBody ('"' :: rest) [] rest (by simp) with
    | .error stop => .error stop
    | .ok name =>
      have h₁ := name.shorter
      have h₂ := length_skip_le name.rest
      match hs : skip name.rest with
      | ':' :: after =>
        have h₃ := length_skip_le after
        match value (skip after) with
        | .error stop => .error stop
        | .ok item =>
          have h₄ := item.shorter
          .ok ⟨(spell standIn name.value, item.value), item.rest, by
            rw [hs] at h₂; simp only [List.length_cons] at h₂; omega⟩
      | other => .error (.fault .expectedColon other)
  | _ => .error (.fault .expectedName text)
termination_by (text.length, 1)
decreasing_by
  exact Prod.Lex.left _ _ (by
    rw [hs] at h₂; simp only [List.length_cons] at h₁ h₂ ⊢; omega)

end

/-- Reads a whole document. -/
def document (text : List Char) : Except Stop Json := do
  if text.head? = some '\uFEFF' then throw (.fault .byteOrderMark text)
  let parsed ← value standIn (skip text)
  match skip parsed.rest with
  | [] => return parsed.value
  | rest => throw (.fault .extraData rest)

end Reader

/-- The line and the column of a place after the characters `before`: lines are counted by line
feeds, columns by characters, both from one. -/
def place (before : List Char) : Nat × Nat :=
  (before.count '\n' + 1, (before.reverse.takeWhile (· ≠ '\n')).length + 1)

/-- The value that a text spells, with `standIn` for each lone half of a surrogate pair. -/
def parseWith (standIn : Char) (text : List Char) : Except Refusal Json :=
  match Reader.document standIn text with
  | .ok value => .ok value
  | .error .integerTooLong => .error .integerTooLong
  | .error (.fault cause rest) =>
    let (line, column) := place (text.take (text.length - rest.length))
    .error (.malformed cause line column)

/-- The character that stands in for lone halves of surrogate pairs. -/
def replacement : Char := '\uFFFD'

/-- The value that a text spells. -/
def parse (text : List Char) : Except Refusal Json :=
  parseWith replacement text

end JsonShapes.Json
