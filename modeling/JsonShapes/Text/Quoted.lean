/-!
# Quoted text

A text between double quotes, with the quote, the backslash and the control characters below U+0020
escaped. The five control characters with a letter of their own are written with it and the others
by their code in four hexadecimal digits; everything else, DEL and all that is not ASCII included,
stands as it is.
-/

namespace JsonShapes.Quoted

/-- The code of a character as a backslash, the letter u and four hexadecimal digits. -/
def codeEscape (c : Char) : List Char :=
  let n := c.toNat
  '\\' :: 'u' :: [n / 0x1000 % 16, n / 0x100 % 16, n / 0x10 % 16, n % 16].map Nat.digitChar

/-- What a character is written as between the quotes. -/
def escape (c : Char) : List Char :=
  match c with
  | '"' => ['\\', '"']
  | '\\' => ['\\', '\\']
  | '\n' => ['\\', 'n']
  | '\r' => ['\\', 'r']
  | '\t' => ['\\', 't']
  | '\x0c' => ['\\', 'f']
  | '\x08' => ['\\', 'b']
  | c => if c.toNat < 0x20 then codeEscape c else [c]

/-- A text in quotes, each character written as `write` says. -/
def quoteWith (write : Char → List Char) (text : String) : String :=
  String.ofList ('"' :: (text.toList.flatMap write ++ ['"']))

/-- A text in quotes. -/
def quote (text : String) : String :=
  quoteWith escape text

end JsonShapes.Quoted
