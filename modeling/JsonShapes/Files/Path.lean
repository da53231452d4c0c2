/-!
# Paths

A path is read as a list of names, from the root if it begins with a slash. Empty names and single
points are dropped, so that two texts that differ in nothing else give the same path; exactly two
slashes at the front are kept apart from one. A double point stays as it is: where it leads is for
whoever walks along the path.
-/

namespace JsonShapes

/-- A path. -/
structure Path where
  /-- How many slashes stand at the front: none, one or two. -/
  slashes : Nat
  /-- The names along the path. -/
  names : List String
deriving DecidableEq, Repr

namespace Path

/-- The pieces between slashes. -/
def pieces (text : List Char) : List (List Char) :=
  text.foldr
    (fun c pieces ↦
      match pieces with
      | [] => []
      | first :: rest => if c = '/' then [] :: first :: rest else (c :: first) :: rest)
    [[]]

/-- The path that a text spells. -/
def parse (text : String) : Path :=
  let leading := (text.toList.takeWhile (· = '/')).length
  { slashes := if leading ≤ 2 then leading else 1
    names := ((pieces text.toList).filter fun p ↦ p ≠ [] ∧ p ≠ ['.']).map String.ofList }

/-- The text of a path. -/
def text (p : Path) : String :=
  if p.slashes = 0 ∧ p.names = [] then "."
  else String.ofList (List.replicate p.slashes '/') ++ "/".intercalate p.names

/-- The path from the root along some names. -/
def absolute (names : List String) : Path :=
  ⟨1, names⟩

/-- The folder that a path lies in. -/
def parent (p : Path) : Path :=
  { p with names := p.names.dropLast }

/-- The path `p` with `base` as the folder that it starts from. -/
def within (base p : Path) : Path :=
  if p.slashes = 0 then { base with names := base.names ++ p.names } else p

/-- How many steps lead from the start of a path to the folder of what it names. The root counts as
a step of its own. -/
def parentDepth (p : Path) : Nat :=
  min p.slashes 1 + (p.names.length - 1)

/-! ### Suffixes -/

/-- The part of a name before its suffix, which begins at the last point unless that is the first or
the last character. -/
def stemOf (name : List Char) : List Char :=
  let after := name.reverse.takeWhile (· ≠ '.')
  let before := (name.reverse.drop (after.length + 1)).reverse
  if after = [] ∨ before = [] ∨ after.length = name.length then name else before

/-- The path with the suffix of its last name replaced, unless it has no last name. -/
def withSuffix? (suffix : String) (p : Path) : Option Path :=
  p.names.getLast?.map fun name ↦
    { p with names := p.names.dropLast ++ [String.ofList (stemOf name.toList) ++ suffix] }

/-! ### Stubs -/

/-- The path of the stub of a document. -/
def stub? (document : String) : Option String :=
  ((parse document).withSuffix? ".d.ts").map text

/-- How the stub at a path names the module of all aliases, which lies at `commonFile` below the
folder that the path starts from: by as many steps up as lead down to the folder of the stub. -/
def importFrom (stub commonFile : String) : String :=
  match (parse stub).parentDepth with
  | 0 => "./" ++ commonFile
  | depth => "/".intercalate (List.replicate depth ".." ++ [commonFile])

/-! ### Places -/

/-- The names that lead from the root to where a path leads from `base`, double points included. -/
def route (base : List String) (p : Path) : List String :=
  if p.slashes = 0 then base ++ p.names else p.names

/-- A route without double points, each of which undoes the name before it. -/
def straighten (route : List String) : List String :=
  (route.foldl (fun done name ↦ if name = ".." then done.tail else name :: done) []).reverse

end Path

end JsonShapes
