import JsonShapes.Fault
import JsonShapes.Json.Reader
import JsonShapes.Text.Newline

/-!
# Documents

A document is a file whose octets are UTF-8 and whose text is JSON. The fault of one that is not
names the document and says what is wrong, with the line and the column where the text is no JSON.
-/

namespace JsonShapes.Document

/-- The words for a text that is no JSON. -/
def detail (cause : Json.Cause) (line column : Nat) : String :=
  cause.message ++ " (line " ++ toString line ++ ", column " ++ toString column ++ ")"

/-- The value that the octets of a document spell, with `standIn` for each lone half of a surrogate
pair. -/
def readWith (standIn : Char) (document : String) (octets : List UInt8) : Except Fault Json :=
  match Utf8.decode octets with
  | .error refusal => throw (.malformed document ("not valid UTF-8 (" ++ refusal.message ++ ")"))
  | .ok text =>
    match Json.parseWith standIn (Newline.unify text) with
    | .ok value => return value
    | .error (.malformed cause line column) =>
      throw (.malformed document (detail cause line column))
    | .error .integerTooLong => throw .integerTooLong

/-- The value that the octets of a document spell. -/
def read (document : String) (octets : List UInt8) : Except Fault Json :=
  readWith Json.replacement document octets

end JsonShapes.Document
