import JsonShapes.Fault

/-!
# Effects

What a run does to the world outside: lines for the user, folders, and files. A plan is a list of
effects in their order together with how the run ends. Nothing in a plan depends on what its effects
meet; performing them stops at the first that is refused, and the run ends with that fault instead.

Lines and the texts of files have characters only, so each has its octets and showing or writing it
is never refused for what it says. Half of a surrogate pair would have none; no text here holds one,
and where a document does, in a name, the document is not spelled by the text that is read from it.
-/

namespace JsonShapes

/-- A single thing that a run does. -/
inductive Effect where
  /-- A line for the user. -/
  | say (line : String)
  /-- A line for the user about what went wrong. -/
  | complain (line : String)
  /-- The folder at the end of a path, and those on the way. -/
  | makeFolders (path : Path)
  /-- A file at the end of a path, with a text, which is written as UTF-8. -/
  | write (path : Path) (text : String)
deriving DecidableEq, Repr

/-- What a run will do and how it will end. -/
structure Plan (α : Type) where
  effects : List Effect
  outcome : Except Fault α

/-- What effects change: the files, and the lines that the user sees. -/
structure World where
  files : FileTree
  /-- The folder from which paths start that do not start at the root. -/
  base : Location
  said : List String
  complaints : List String

namespace World

/-- The world of some files in which nothing has been said. -/
def ofFiles (files : FileTree) (base : Location) : World :=
  ⟨files, base, [], []⟩

/-- The world after an effect, and the fault with which it was refused, if it was. -/
def performOne (world : World) : Effect → World × Except FileFault Unit
  | .say line => ({ world with said := world.said ++ [line] }, .ok ())
  | .complain line => ({ world with complaints := world.complaints ++ [line] }, .ok ())
  | .makeFolders path =>
    let (files, result) := world.files.makeFolders world.base path
    ({ world with files }, result)
  | .write path text =>
    match world.files.write world.base path (Utf8.encode text) with
    | .ok files => ({ world with files }, .ok ())
    | .error fault => (world, .error fault)

/-- The world after effects one after another, up to the first that is refused. -/
def performAll (world : World) : List Effect → World × Except FileFault Unit
  | [] => (world, .ok ())
  | effect :: rest =>
    match world.performOne effect with
    | (changed, .ok ()) => changed.performAll rest
    | (changed, .error fault) => (changed, .error fault)

/-- The world after a plan, and how the run ended. -/
def perform {α : Type} (world : World) (plan : Plan α) : World × Except Fault α :=
  match world.performAll plan.effects with
  | (changed, .ok ()) => (changed, plan.outcome)
  | (changed, .error fault) => (changed, .error (.file fault))

end World

end JsonShapes
