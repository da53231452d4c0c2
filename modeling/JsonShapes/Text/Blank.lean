/-!
# Blank characters

The characters that count as blank at the ends of a configured text: those with the property
`White_Space`, and the four information separators U+001C to U+001F, which divide text as lines and
blanks do.
-/

namespace JsonShapes.Text

/-- Whether a character is blank. -/
def isBlank (c : Char) : Bool :=
  let n := c.toNat
  (0x09 ≤ n && n ≤ 0x0D) || (0x1C ≤ n && n ≤ 0x20) || n == 0x85 || n == 0xA0 || n == 0x1680
    || (0x2000 ≤ n && n ≤ 0x200A) || n == 0x2028 || n == 0x2029 || n == 0x202F || n == 0x205F
    || n == 0x3000

/-- Takes the blank characters off both ends. -/
def trim (text : String) : String :=
  String.ofList ((text.toList.dropWhile isBlank).reverse.dropWhile isBlank).reverse

/-- The lower-case form of a character, exact for every character whose lower-case form is a single
ASCII letter: the ASCII capitals and the KELVIN SIGN. All others stay, so no text is taken for a
word of ASCII letters that it does not spell. -/
def lowerLetter (c : Char) : Char :=
  if c = '\u212A' then 'k' else c.toLower

/-- The form in which a configured word is compared: trimmed, in lower case. -/
def keyword (text : String) : String :=
  (trim text).map lowerLetter

end JsonShapes.Text
