import JsonShapes.Text.Quoted

/-!
# Identifiers

The names that the emitted module uses: aliases of declarations, which are a configured stem
followed by the number of the declaration, and property names, which are identifiers where they can
be and quoted texts elsewhere. Identifiers are ASCII throughout.
-/

namespace JsonShapes.Identifier

/-- Whether an identifier may start with the character. -/
def starts (c : Char) : Bool :=
  c.isAlpha || c = '_' || c = '$'

/-- Whether an identifier may go on with the character. -/
def continues (c : Char) : Bool :=
  c.isAlphanum || c = '_' || c = '$'

/-- Whether a text is an identifier. -/
def isIdentifier : List Char → Bool
  | [] => false
  | c :: rest => starts c && rest.all continues

/-! ### Aliases -/

/-- The stem of aliases where none is configured. -/
def defaultStem : String := "T"

/-- An identifier made of a text: the characters that no identifier has are left out, a leading
digit gets `fallback` before it, and `fallback` stands for a text of which nothing is left. -/
def normalize (text fallback : String) : String :=
  match text.toList.filter continues with
  | [] => fallback
  | c :: rest =>
    if c.isDigit then fallback ++ String.ofList (c :: rest) else String.ofList (c :: rest)

/-- The stem of aliases for a configured text, or for none. -/
def stem (configured : Option String) : String :=
  normalize (configured.getD "") defaultStem

/-- The alias of a declaration. -/
def aliasOf (stem : String) (id : Int) : String :=
  stem ++ toString id

/-! ### Property names -/

/-- What a character of a property name is written as between quotes. The two line separators are
escaped as well, since they end a line in the emitted language. -/
def escapeProperty (c : Char) : List Char :=
  if c = '\u2028' ∨ c = '\u2029' then Quoted.codeEscape c else Quoted.escape c

/-- Whether a property name is written bare: it is an identifier, or one with a line feed after it.
-/
def isBare (name : String) : Bool :=
  isIdentifier name.toList
    || (name.toList.getLast? = some '\n' && isIdentifier name.toList.dropLast)

/-- The property name that stands for a name. -/
def property (name : String) : String :=
  if isBare name then name else Quoted.quoteWith escapeProperty name

end JsonShapes.Identifier
