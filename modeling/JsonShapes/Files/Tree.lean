import JsonShapes.Entries
import JsonShapes.Files.Path
import JsonShapes.Text.Utf8

/-!
# Trees of files

A tree is a file or a folder of named trees, so whatever lies below a name lies in a folder. A path
may hold double points; it is walked step by step, so the step before a double point has to exist. A
step that is refused says why: nothing is there, a file is there, or the name or the path itself is
not possible.

Names are texts. A system may also have names whose octets are not UTF-8; they are in no tree here,
so what is said of all trees is said of trees whose names can be shown and written.
-/

namespace JsonShapes

/-- Why nothing is read or written at a path. -/
inductive FileFault where
  /-- A name on the way, or the folder of a file to be written, does not exist. -/
  | notFound
  /-- There is a folder where a file was expected. -/
  | isFolder
  /-- There is a file where a folder was expected on the way. -/
  | notFolder
  /-- There is a file where a folder was to be made. -/
  | inTheWay
  /-- A name is longer than any name of a file, or a path than any path. -/
  | nameTooLong
  /-- A name has the character NUL in it. -/
  | nulCharacter
deriving DecidableEq, Repr

/-- The names that lead from the root to a place. -/
abbrev Location := List String

/-- A file, or a folder of trees by their names. -/
inductive FileTree where
  | file (content : List UInt8)
  | folder (entries : List (String × FileTree))

namespace FileTree

/-- The folder with nothing in it. -/
def empty : FileTree :=
  .folder []

/-- The named trees of a folder; a file has none. -/
def entries : FileTree → List (String × FileTree)
  | .file _ => []
  | .folder entries => entries

/-- What is at a location, if anything is. -/
def node? (tree : FileTree) : Location → Option FileTree
  | [] => some tree
  | name :: rest => (tree.entries.lookup name).bind fun inner ↦ inner.node? rest

/-- The tree with another at a location. What lies on the way there becomes a folder. -/
def put (tree : FileTree) (node : FileTree) : Location → FileTree
  | [] => node
  | name :: rest =>
    .folder (Entries.set name (((tree.entries.lookup name).getD empty).put node rest) tree.entries)

mutual

/-- The files of a tree with their contents, by the names that lead to them. -/
def files : FileTree → List (Location × List UInt8)
  | .file content => [([], content)]
  | .folder entries => filesOfEntries entries

/-- The files of the trees in a folder. -/
def filesOfEntries : List (String × FileTree) → List (Location × List UInt8)
  | [] => []
  | (name, tree) :: rest =>
    (tree.files.map fun (names, content) ↦ (name :: names, content)) ++ filesOfEntries rest

end

/-- The files below a location. -/
def filesBelow (tree : FileTree) (place : Location) : List (Location × List UInt8) :=
  match tree.node? place with
  | some (.folder entries) => filesOfEntries entries
  | _ => []

/-! ### Walking -/

/-- The most octets that a name may have. -/
def maxNameOctets : Nat := 255

/-- The most octets that the text of a path may have. -/
def maxPathOctets : Nat := 4095

/-- Where a path ends. -/
inductive Ending where
  /-- At something that exists. -/
  | found (place : Location) (node : FileTree)
  /-- At a name that an existing folder does not have. -/
  | vacant (place : Location)

/-- Walks along names from a folder. -/
def walk (tree : FileTree) (place : Location) : List String → Except FileFault Ending
  | [] => return .found place ((tree.node? place).getD empty)
  | name :: rest => do
    if name = ".." then walk tree place.dropLast rest
    else
      if maxNameOctets < (Utf8.encode name).length then throw .nameTooLong
      match tree.node? (place ++ [name]) with
      | some (.folder _) => walk tree (place ++ [name]) rest
      | some (.file content) =>
        if rest = [] then return .found (place ++ [name]) (.file content) else throw .notFolder
      | none => if rest = [] then return .vacant (place ++ [name]) else throw .notFound

/-- Refuses a path that is not walked at all, whatever there is: one with the character NUL, and one
whose text is too long. -/
def requirePossible (path : Path) : Except FileFault Unit :=
  if path.names.any (·.contains '\x00') then throw .nulCharacter
  else if maxPathOctets < (Utf8.encode path.text).length then throw .nameTooLong
  else return

/-- Walks along a path, from `base` unless it starts at the root. -/
def follow (tree : FileTree) (base : Location) (path : Path) : Except FileFault Ending := do
  requirePossible path
  tree.walk [] (path.route base)

/-! ### Writing -/

/-- Writes a file at the end of a path, over what it held if it exists. -/
def write (tree : FileTree) (base : Location) (path : Path) (content : List UInt8) :
    Except FileFault FileTree := do
  match ← tree.follow base path with
  | .found place (.file _) => return tree.put (.file content) place
  | .found _ (.folder _) => throw .isFolder
  | .vacant place => return tree.put (.file content) place

/-- Makes the folders along names, one after another, where they do not exist. -/
def makeEach (tree : FileTree) (place : Location) :
    List String → FileTree × Except FileFault Unit
  | [] => (tree, .ok ())
  | name :: rest =>
    if name = ".." then makeEach tree place.dropLast rest
    else if maxNameOctets < (Utf8.encode name).length then (tree, .error .nameTooLong)
    else match tree.node? (place ++ [name]) with
      | some (.folder _) => makeEach tree (place ++ [name]) rest
      | some (.file _) => (tree, .error (if rest = [] then .inTheWay else .notFolder))
      | none => makeEach (tree.put empty (place ++ [name])) (place ++ [name]) rest

/-- Makes the folder at the end of a path and those on the way. After a fault the tree has the
folders made before it. -/
def makeFolders (tree : FileTree) (base : Location) (path : Path) :
    FileTree × Except FileFault Unit :=
  match requirePossible path with
  | .ok () => makeEach tree [] (path.route base)
  | .error fault => (tree, .error fault)

/-! ### Documents -/

/-- Whether a document at these names below a folder is read: its name ends in `.json`, and neither
it nor a folder on the way is hidden by a point at the front of its name. -/
def isVisibleDocument (names : List String) : Bool :=
  (names.getLastD "").endsWith ".json" && names.all (!·.startsWith ".")

/-- The documents below a folder with their contents, in the order of their paths. -/
def documents (tree : FileTree) (place : Location) : List (String × List UInt8) :=
  let visible := (tree.filesBelow place).filter fun (names, _) ↦ isVisibleDocument names
  (visible.map fun (names, content) ↦ ("/".intercalate names, content)).mergeSort
    fun a b ↦ a.1 ≤ b.1

end FileTree

end JsonShapes
