import JsonShapes.Breach
import JsonShapes.Files.Tree

/-!
# Faults

Why a run ends early. A document that is no JSON is the fault that users meet; it names the document
and the place. The others are a breach, a number of a size that is not read, a configuration that is
no text, a path without a name, and what the tree of files refuses.
-/

namespace JsonShapes

/-- Why a run ends early. -/
inductive Fault where
  /-- A rule was not kept. -/
  | breach (b : Breach)
  /-- A document is no JSON. -/
  | malformed (document detail : String)
  /-- A whole number has more digits than are read or written. -/
  | integerTooLong
  /-- The configuration is not UTF-8. -/
  | notText
  /-- A path has no last name. -/
  | nameless
  /-- The tree of files refused something. -/
  | file (f : FileFault)

/-- The words for what a tree of files refuses. -/
def FileFault.message : FileFault → String
  | .notFound => "No such file or directory"
  | .isFolder => "Is a directory"
  | .notFolder => "Not a directory"
  | .inTheWay => "File exists"
  | .nameTooLong => "File name too long"
  | .nulCharacter => "embedded null byte"

/-- The words for a fault. -/
def Fault.message : Fault → String
  | .breach b => b.message
  | .malformed document detail => document ++ ": " ++ detail
  | .integerTooLong => "a whole number has too many digits"
  | .notText => "the configuration is not valid UTF-8"
  | .nameless => "a path has an empty name"
  | .file f => f.message

/-- A computation with a breach as its only fault, where other faults are possible. -/
def Fault.ofBreach {α : Type} (result : Except Breach α) : Except Fault α :=
  result.mapError .breach

end JsonShapes
