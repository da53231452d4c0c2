import JsonShapes.Text.Digits
import JsonShapes.Text.Parsed

/-!
# Quoted texts in TOML

A text stands between double quotes, with escapes, or between single quotes, without. Three quotes
in a row open a text of several lines, of which the first is dropped if nothing is on it; the text
ends at the next three, and of up to five quotes at its end the first two belong to it. Control
characters other than the tab are not allowed, and ends of line in texts of several lines only.
-/

namespace JsonShapes.Toml

/-- Why a text is not read. -/
inductive Stop where
  /-- The text is no TOML document. -/
  | malformed
  /-- A whole number has more digits than are accepted. -/
  | integerTooLong
deriving DecidableEq, Repr

namespace Quotation

/-- Whether a character is a blank. -/
def isBlank (c : Char) : Bool :=
  c = ' ' || c = '\t'

/-- Whether a character is a blank or ends a line. -/
def isBlankOrEnd (c : Char) : Bool :=
  isBlank c || c = '\n'

/-- Whether a character is a control character other than the tab. -/
def isControl (c : Char) : Bool :=
  (c.toNat < 0x20 && c ≠ '\t') || c.toNat = 0x7F

/-- Whether a character may not stand in a text, of several lines or not. -/
def isIllegal (lines : Bool) (c : Char) : Bool :=
  isControl c && !(lines && c = '\n')

theorem length_dropWhile_le (p : Char → Bool) (text : List Char) :
    (text.dropWhile p).length ≤ text.length :=
  (List.dropWhile_suffix p).length_le

/-! ### Texts without escapes -/

/-- Whether three times the same quote come next. -/
def tripled (quote : Char) : List Char → Bool
  | a :: b :: c :: _ => a = quote && b = quote && c = quote
  | _ => false

/-- The characters up to three quotes in a row, and the text from these on. -/
def upToTripled : List Char → Option (List Char × List Char)
  | [] => none
  | c :: rest =>
    if tripled '\'' (c :: rest) then some ([], c :: rest)
    else (upToTripled rest).map fun (before, after) ↦ (c :: before, after)

/-- The text with a single quote taken off, up to the next one. -/
def literal (text : List Char) : Option (String × List Char) :=
  let content := text.takeWhile (· ≠ '\'')
  match text.dropWhile (· ≠ '\'') with
  | [] => none
  | _ :: rest => if content.any (isIllegal false) then none else some (String.ofList content, rest)

/-- Up to two further quotes, which belong to the text that ended before them. -/
def extraQuotes (quote : Char) : List Char → List Char × List Char
  | a :: b :: rest =>
    if a ≠ quote then ([], a :: b :: rest)
    else if b = quote then ([a, b], rest)
    else ([a], b :: rest)
  | [a] => if a = quote then ([a], []) else ([], [a])
  | [] => ([], [])

/-- The text without an end of line at its front. -/
def dropFirstEnd : List Char → List Char
  | '\n' :: rest => rest
  | text => text

/-- The text of several lines that begins after three single quotes. -/
def literalLines (text : List Char) : Option (String × List Char) := do
  let (content, ending) ← upToTripled (dropFirstEnd text)
  let (extra, rest) := extraQuotes '\'' (ending.drop 3)
  if content.any (isIllegal true) then none else some (String.ofList (content ++ extra), rest)

/-! ### Texts with escapes -/

/-- What a letter after a backslash stands for. -/
def letterEscape? : Char → Option Char
  | 'b' => some '\x08'
  | 't' => some '\t'
  | 'n' => some '\n'
  | 'f' => some '\x0c'
  | 'r' => some '\r'
  | '"' => some '"'
  | '\\' => some '\\'
  | _ => none

/-- The character with a code, unless it is half of a surrogate pair or beyond the last one. -/
def scalar? (code : Nat) : Option Char :=
  if code < 0xD800 ∨ (0xDFFF < code ∧ code < 0x110000) then some (Char.ofNat code) else none

/-- The character whose code is written in as many hexadecimal digits as asked for, and the text
after them. -/
def coded? (digits : Nat) (text : List Char) : Option (List Char × List Char) := do
  let written := text.take digits
  if written.length < digits then none
  let c ← scalar? (← hexNumber? written)
  return ([c], text.drop digits)

/-- Reads what follows a backslash: the characters it stands for and the text after it. In a text of
several lines a backslash at the end of a line takes away the blanks and line ends after it. -/
def escape (lines : Bool) (text : List Char) : Option (List Char × List Char) :=
  match text with
  | [] => none
  | 'u' :: rest => coded? 4 rest
  | 'U' :: rest => coded? 8 rest
  | c :: rest =>
    if lines && isBlankOrEnd c then
      match text.dropWhile isBlank with
      | '\n' :: after => some ([], after.dropWhile isBlankOrEnd)
      | _ => none
    else (letterEscape? c).map fun d ↦ ([d], rest)

/-- Reads a text with escapes up to its closing quotes; `done` holds the characters so far, the
latest first. -/
def basic (lines : Bool) (done : List Char) (text : List Char) : Option (String × List Char) :=
  match text with
  | [] => none
  | '\\' :: rest =>
    match escape lines rest >>= Parsed.of? rest with
    | none => none
    | some read =>
      have := read.shorter
      basic lines (read.value.reverse ++ done) read.rest
  | '"' :: rest =>
    if lines then
      if tripled '"' ('"' :: rest) then
        let (extra, after) := extraQuotes '"' (rest.drop 2)
        some (String.ofList (done.reverse ++ extra), after)
      else basic lines ('"' :: done) rest
    else some (String.ofList done.reverse, rest)
  | c :: rest => if isIllegal lines c then none else basic lines (c :: done) rest
termination_by text.length
decreasing_by all_goals simp <;> omega

/-- Reads a text on one line, if one begins here. -/
def line? (text : List Char) : Option (String × List Char) :=
  match text with
  | '\'' :: rest => literal rest
  | '"' :: rest => basic false [] rest
  | _ => none

/-- Reads a text, on one line or on several. -/
def text? (text : List Char) : Option (String × List Char) :=
  if tripled '\'' text then literalLines (text.drop 3)
  else if tripled '"' text then basic true [] (dropFirstEnd (text.drop 3))
  else line? text

end Quotation

end JsonShapes.Toml
