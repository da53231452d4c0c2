import JsonShapes.Run.Basic

/-!
# The report

A summary of a run for other programs: the declarations with their aliases and digests, what became
of each document, and the arrays of which no item was seen.
-/

namespace JsonShapes.Run

/-- A list of texts. -/
def textList (texts : List String) : Json :=
  .array (texts.map .string)

/-- What the report says of a declaration. -/
def reportDeclaration (style : Style) (exported : List Int) (d : Declaration) : Json :=
  .object
    [("id", .number (.int d.id)),
     ("alias", .string (style.aliasOf d.id)),
     ("type", .string (d.shape.text style)),
     ("digest", .string d.shape.digest),
     ("contexts", textList d.places),
     ("exported", .bool (d.id ∈ exported)),
     ("unresolved", .bool d.isUnresolved)]

/-- What the report says of a document. -/
def reportDocument (style : Style) (document : Emitted) : Json :=
  .object
    [("source", .string document.source),
     ("stub", .string document.stub),
     ("type", .string (style.aliasOf document.root))]

/-- What the report says of an array of which no item was seen. -/
def reportUnresolved (style : Style) (d : Declaration) : Json :=
  .object
    [("alias", .string (style.aliasOf d.id)),
     ("derived_from", .string (d.places.headD "")),
     ("contexts", textList d.places)]

/-- The report of a run. -/
def Summary.report (settings : Settings) (summary : Summary) : Json :=
  let style := settings.style
  .object
    [("common_file", .string style.commonModule),
     ("conflict_policy", .string settings.policy.name),
     ("declarations",
       .array (summary.catalog.declarations.map (reportDeclaration style summary.exported))),
     ("documents", .array (summary.documents.map (reportDocument style))),
     ("unresolved", .array (summary.catalog.unresolved.map (reportUnresolved style)))]

/-- The text of the report of a run. -/
def Summary.reportText (settings : Settings) (summary : Summary) : String :=
  (summary.report settings).indented

end JsonShapes.Run
