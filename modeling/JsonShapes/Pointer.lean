/-!
# Pointers and labels

A pointer says where in a document a position is: a slash and a token for each step from the root.
The token of an array's items is a star, and that of a member is its name with `%`, `~`, `/` and the
ends of line escaped, so that no name looks like a star or like two steps. A label is the name of a
document with a pointer behind it, and names a position among all documents.
-/

namespace JsonShapes

/-- A step from a position to one below it. -/
inductive Step where
  /-- To the member of an object that has the name. -/
  | member (name : String)
  /-- To the items of an array, which all share one position. -/
  | item
deriving DecidableEq, Repr

namespace Pointer

/-- What a character that ends a line is written as; every other character stands for itself. -/
def escapeLineEnd : Char → List Char
  | '\n' => ['%', '0', 'A']
  | '\r' => ['%', '0', 'D']
  | '\u2028' => ['%', 'E', '2', '%', '8', '0', '%', 'A', '8']
  | '\u2029' => ['%', 'E', '2', '%', '8', '0', '%', 'A', '9']
  | c => [c]

/-- The text with the ends of line escaped, so that it fits on one line. -/
def singleLine (text : String) : String :=
  String.ofList (text.toList.flatMap escapeLineEnd)

/-- The text with another one in place of each occurrence of the character. -/
def replace (c : Char) (replacement text : List Char) : List Char :=
  text.flatMap fun d ↦ if d = c then replacement else [d]

/-- The name of a member as it stands in a token. The escapes are made one after another, `%` first
because those of the ends of line bring new ones, and `~` before `/` for the same reason. -/
def escapeName (name : List Char) : List Char :=
  (replace '/' ['~', '1'] (replace '~' ['~', '0'] (replace '%' ['%', '2', '5'] name))).flatMap
    escapeLineEnd

/-- The token of the items of an array. -/
def itemToken : List Char := ['*']

/-- An escaped name once it does not look like the token of the items. -/
def distinguish (escaped : List Char) : List Char :=
  if escaped = itemToken then ['%', '2', 'A'] else escaped

/-- The token of a step. -/
def token : Step → List Char
  | .item => itemToken
  | .member name => distinguish (escapeName name.toList)

/-- The pointer one step further. -/
def extend (pointer : String) (step : Step) : String :=
  pointer ++ String.ofList ('/' :: token step)

/-- The pointer to the end of a path from the root. -/
def ofPath (path : List Step) : String :=
  path.foldl extend ""

/-- The label of a position in a document. -/
def label (document pointer : String) : String :=
  if pointer.isEmpty then document else document ++ "#" ++ pointer

end Pointer

end JsonShapes
