import JsonShapes.Json.Basic
import JsonShapes.Shape.Basic
import JsonShapes.Toml.Basic

/-!
# Breaches

A breach is the violation of a rule that the library itself relies on, or that whoever calls it
promised: a reference that leads nowhere, a part of a value that is no JSON, a setting outside the
values allowed. Each carries what was at hand when it was noticed.
-/

namespace JsonShapes

/-- A rule that was not kept. -/
inductive Breach where
  /-- No declaration has the number. -/
  | unknownDeclaration (id : Int)
  /-- A shape was to be inserted whose key is already declared, under the number given. -/
  | alreadyDeclared (key : String) (id : Int)
  /-- A shape was to be inserted that refers to a declaration that does not exist. -/
  | forwardReference (key : String) (id : Int)
  /-- The index takes a key to a number whose declaration does not have that key. -/
  | indexOutOfSync (key : String) (id : Int)
  /-- A declaration has a number that is not above the one before it, or not that of its slot. -/
  | idsNotIncreasing (id : Int)
  /-- The index does not take the key of a declaration to its number. -/
  | missingFromIndex (id : Int)
  /-- A declared shape refers to a declaration that does not exist. -/
  | danglingReference (id target : Int)
  /-- A stub was asked for a shape that is not declared. -/
  | notAReference (shape : Shape)
  /-- Something that is no shape has no encoding. -/
  | noEncoding (kind : String)
  /-- Something that is no shape has no text. -/
  | noText (kind : String)
  /-- A part of a value is no JSON value. -/
  | notJson (kind : String)
  /-- The name of a member is no text. -/
  | nameNotText (kind : String)
  /-- Values that have no order among themselves were to be sorted. -/
  | notComparable (source : String)
  /-- A configured policy is none of those that there are. -/
  | unknownPolicy (setting : Toml.Value)
  /-- A place that its author believed to be out of reach, with the reason given there. -/
  | reached (reason : String) (details : List (String × Json))

/-- The words for a breach. -/
def Breach.message : Breach → String
  | .unknownDeclaration _ => "unknown declaration id"
  | .alreadyDeclared .. => "declaration already cached"
  | .forwardReference .. => "forward reference in declaration"
  | .indexOutOfSync .. => "cache index out of sync"
  | .idsNotIncreasing _ => "declaration ids are not monotonic"
  | .missingFromIndex _ => "declaration missing from index"
  | .danglingReference .. => "dangling declaration reference"
  | .notAReference _ => "document stubs re-export declared aliases only"
  | .noEncoding _ => "canonical_payload() received a non-type value"
  | .noText _ => "render_type() received a non-type value"
  | .notJson _ => "infer_shape() received non-JSON value"
  | .nameNotText _ => "object keys must be strings"
  | .notComparable _ => "sort keys are not comparable"
  | .unknownPolicy _ => "unknown conflict policy"
  | .reached reason _ => if reason.isEmpty then "never() marker reached" else reason

end JsonShapes
