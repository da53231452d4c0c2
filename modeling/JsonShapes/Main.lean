import JsonShapes.CommandLine

/-!
# The program

Reads what a call needs from the disk into a tree, asks for the plan of the call, and carries out
its effects. All decisions are made by the plan.
-/

namespace JsonShapes

/-- The names along the path of a folder or a file. -/
def namesOf (text : String) : Location :=
  (Path.parse text).names

/-- Adds an empty folder at a location, unless a folder is there. -/
def withFolder (tree : FileTree) (place : Location) : FileTree :=
  match tree.node? place with
  | some (.folder _) => tree
  | _ => tree.put .empty place

/-- Adds what is on the disk along a route, and the content of the file at its end. -/
def snapshotRoute (tree : FileTree) (route : List String) : IO FileTree := do
  let mut tree := tree
  let mut place : Location := []
  let mut path ← IO.FS.realPath "/"
  for name in route do
    path := path / name
    place := if name = ".." then place.dropLast else place ++ [name]
    if ← path.isDir then
      tree := withFolder tree place
    else if ← path.pathExists then
      tree := tree.put (.file (← IO.FS.readBinFile path).toList) place
  return tree

/-- Adds everything on the disk below a folder. -/
def snapshotBelow (tree : FileTree) (place : Location) : IO FileTree := do
  let start := place.foldl (· / ·) (← IO.FS.realPath "/")
  let mut tree := tree
  if ← start.isDir then
    for path in ← start.walkDir do
      let names := namesOf path.toString
      if ← path.isDir then
        tree := withFolder tree names
      else
        tree := tree.put (.file (← IO.FS.readBinFile path).toList) names
  return tree

/-- The part of the disk that a call from a folder reads. -/
def snapshot (base : Location) (argv : List String) : IO FileTree := do
  match CommandLine.sortOut .none argv with
  | .error _ => return .empty
  | .ok arguments =>
    let config := arguments.config.getD Settings.fileName
    let tree ← snapshotRoute .empty (Path.route base (Path.parse config))
    match arguments.folders.head? with
    | none => return tree
    | some input =>
      let place := CommandLine.locate base input
      snapshotBelow (← snapshotRoute tree place) place

/-- Carries out an effect. -/
def carryOut : Effect → IO Unit
  | .say line => IO.println line
  | .complain line => IO.eprintln line
  | .makeFolders path => IO.FS.createDirAll path.text
  | .write path text => IO.FS.writeFile path.text text

end JsonShapes

open JsonShapes in
/-- Carries out a call, and ends with its status. -/
def main (argv : List String) : IO UInt32 := do
  let base := namesOf (← IO.currentDir).toString
  let plan := CommandLine.plan (← snapshot base argv) base argv
  plan.effects.forM carryOut
  match plan.outcome with
  | .ok status => return UInt32.ofNat status
  | .error fault =>
    IO.eprintln fault.message
    return 1
