import JsonShapes.Catalog.Basic
import JsonShapes.Emit.TypeText
import JsonShapes.Pointer

/-!
# Emitted modules

The module of all aliases has one line for each declaration: the alias, the text of its shape, and
the places where it was seen. A stub is a module of a single line that passes on the alias of one
document. For arrays of which no item was seen there is a warning.
-/

namespace JsonShapes

/-- The wrapper that makes an editor show the fields of an object. -/
def expander : String := "C"

/-- What defines the wrapper. -/
def expanderDefinition : List String :=
  ["/**",
   " * Compute utility which makes resulting types easier to read",
   " * with IntelliSense by expanding them fully, instead of leaving",
   " * object properties with cryptic type names.",
   " */",
   "type C<A extends any> = " ++ braced "[K in keyof A]: A[K]" ++ " & " ++ braced "" ++ ";"]

/-- Whether a declaration is of an object. -/
def Declaration.isObject (d : Declaration) : Bool :=
  match d.shape with
  | .object .. => true
  | _ => false

/-- The line of a declaration. -/
def Declaration.line (style : Style) (exported : Bool) (d : Declaration) :
    Except Breach String := do
  let text ← d.shape.text? style
  let body := if style.expand && d.isObject then expander ++ "<" ++ text ++ ">" else text
  let places := ", ".intercalate (d.places.map Pointer.singleLine)
  return (if exported then "export " else "") ++ "type " ++ style.aliasOf d.id ++ " = " ++ body
    ++ "; // " ++ places

/-- The module of all aliases, those of the numbers given exported. -/
def Catalog.moduleText (style : Style) (exported : List Int) (c : Catalog) :
    Except Breach String := do
  let lines ← c.declarations.mapM fun d ↦ d.line style (d.id ∈ exported)
  let head := if style.expand then expanderDefinition ++ [""] else []
  return "\n".intercalate (head ++ lines) ++ "\n"

/-- The stub of a document whose root has the given shape, importing from `source`. -/
def stub (style : Style) (source : String) : Shape → Except Breach String
  | .ref id =>
    return "export " ++ braced (" " ++ style.aliasOf id ++ " as default ") ++ " from \"" ++ source
      ++ "\";"
  | shape => throw (.notAReference shape)

/-- The line of the warning about a declaration: its alias and the first place where it was seen. A
declaration that was seen nowhere has none. -/
def Declaration.warningLine? (style : Style) (d : Declaration) : Option String :=
  d.places.head?.map fun place ↦
    "  type " ++ style.aliasOf d.id ++ ", derived from " ++ Pointer.singleLine place

/-- The warning about arrays of which no item was seen. -/
def warning? (style : Style) (unresolved : List Declaration) : Option String := do
  let lines ← unresolved.mapM (·.warningLine? style)
  return "\n".intercalate
    ["The proper array type for the following type aliases could not be",
     "inferred because the provided JSON featured empty arrays:",
     "",
     "\n".intercalate lines,
     "",
     "These type aliases have been given the type \"unknown[]\". Opening",
     style.commonModule ++ " and manually providing the proper types is recommended."]

end JsonShapes
