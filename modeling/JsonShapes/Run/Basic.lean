import JsonShapes.Catalog.Hoist
import JsonShapes.Document
import JsonShapes.Emit.Module
import JsonShapes.Files.Path
import JsonShapes.Run.Effect
import JsonShapes.Settings

/-!
# A run

A run reads the documents below a folder in the order of their paths, adds each to one catalog, and
writes a stub for it as soon as it is added. When all are done the catalog is checked and the module
of all aliases is written. A document that cannot be read ends the run, and the stubs before it
stay.
-/

namespace JsonShapes.Run

/-- What became of a document. -/
structure Emitted where
  /-- The path of the document below the input folder. -/
  source : String
  /-- The path of its stub below the output folder. -/
  stub : String
  /-- The number of the shape of its value. -/
  root : Int

/-- What a run leaves. -/
structure Summary where
  catalog : Catalog
  documents : List Emitted

/-- The numbers of the shapes that stubs pass on. -/
def Summary.exported (summary : Summary) : List Int :=
  summary.documents.map (·.root)

/-- The folders that a run reads from and writes to. -/
structure Folders where
  input : Location
  output : Location

/-! ### Planning -/

/-- What is planned so far, and the catalog that it makes. -/
structure Progress where
  catalog : Catalog
  effects : List Effect

/-- A part of a run. After a fault the effects planned before it stand. -/
abbrev Planning (α : Type) := ExceptT Fault (StateM Progress) α

/-- Plans an effect. -/
def planned (effect : Effect) : Planning Unit :=
  modify fun p ↦ { p with effects := p.effects ++ [effect] }

/-- Extends the catalog. -/
def extending {α : Type} (step : Hoisting α) : Planning α := fun p ↦
  match step p.catalog with
  | (.ok a, catalog) => (.ok a, { p with catalog })
  | (.error breach, catalog) => (.error (.breach breach), { p with catalog })

/-- Passes on a result or its breach. -/
def orBreach {α : Type} (result : Except Breach α) : Planning α :=
  ExceptT.mk (return Fault.ofBreach result)

/-- Plans what is done for a document, the one of a number among as many as there are. -/
def planDocument (settings : Settings) (folders : Folders) (total number : Nat) (source : String)
    (octets : List UInt8) : Planning Emitted := do
  let value ← ExceptT.mk
    (return Document.read (Path.absolute (folders.input ++ [source])).text octets)
  let root ← extending (Hoisting.addDocument settings.policy source value)
  match Path.stub? source with
  | none => throw .nameless
  | some stubPath =>
    let names := (Path.parse stubPath).names
    planned (.makeFolders (.absolute (folders.output ++ names.dropLast)))
    let text ← orBreach
      (stub settings.style (Path.importFrom stubPath settings.style.commonFile) (.ref root))
    planned (.write (.absolute (folders.output ++ names)) text)
    planned (.say
      ("Finished file " ++ toString number ++ " of " ++ toString total ++ ": " ++ source))
    return ⟨source, stubPath, root⟩

/-- Plans what is done for the documents from a number on, one after another. -/
def planDocuments (settings : Settings) (folders : Folders) (total : Nat) (number : Nat) :
    List (String × List UInt8) → Planning (List Emitted)
  | [] => return []
  | (source, octets) :: rest => do
    let first ← planDocument settings folders total number source octets
    return first :: (← planDocuments settings folders total (number + 1) rest)

/-- Plans what is done when all documents are: the module of all aliases, and the warning if there
is anything to warn of. -/
def planModule (settings : Settings) (folders : Folders) (documents : List Emitted) :
    Planning Summary := do
  let catalog := (← get).catalog
  let summary : Summary := ⟨catalog, documents⟩
  let name := settings.style.commonModule
  orBreach catalog.verify
  planned (.say ("Creating " ++ name ++ " file..."))
  planned (.makeFolders (.absolute folders.output))
  let text ← orBreach (catalog.moduleText settings.style summary.exported)
  planned (.write (Path.within (.absolute folders.output) (Path.parse name)) text)
  planned (.say (name ++ " created successfully."))
  unless catalog.unresolved.isEmpty do
    if let some text := warning? settings.style catalog.unresolved then
      planned (.say ("\n" ++ text))
  return summary

/-- Plans a run over documents. -/
def planAll (settings : Settings) (folders : Folders) (documents : List (String × List UInt8)) :
    Planning Summary := do
  planned (.say "Parsing JSON files...")
  let emitted ← planDocuments settings folders documents.length 1 documents
  planModule settings folders emitted

/-- The plan of a run over documents. -/
def planOf (settings : Settings) (folders : Folders) (documents : List (String × List UInt8)) :
    Plan Summary :=
  let (outcome, progress) := planAll settings folders documents ⟨.empty, []⟩
  ⟨progress.effects, outcome⟩

/-- The plan of a run over the documents of a tree. -/
def plan (settings : Settings) (folders : Folders) (files : FileTree) : Plan Summary :=
  planOf settings folders (files.documents folders.input)

end JsonShapes.Run
