import JsonShapes.Identifier

/-!
# Style

The choices open to whoever configures the emitted module, and the braces that it is written with
whatever they are.
-/

namespace JsonShapes

/-- How the emitted module looks. -/
structure Style where
  /-- What every alias begins with. -/
  stem : String
  /-- Where the module of all aliases lies, without its suffix. -/
  commonFile : String
  /-- Whether the aliases of objects are wrapped so that an editor shows their fields. -/
  expand : Bool
deriving DecidableEq, Repr

namespace Style

/-- The style of a run for which nothing is configured. -/
def standard : Style :=
  ⟨Identifier.defaultStem, "_common", true⟩

/-- The suffix of emitted modules. -/
def suffix : String := ".d.ts"

/-- The name of the module of all aliases. -/
def commonModule (style : Style) : String :=
  style.commonFile ++ suffix

/-- The alias of a declaration. -/
def aliasOf (style : Style) (id : Int) : String :=
  Identifier.aliasOf style.stem id

end Style

/-- The brace that opens an object. -/
def openBrace : String := "\x7b"

/-- The brace that closes an object. -/
def closeBrace : String := "\x7d"

/-- A text between braces. -/
def braced (text : String) : String :=
  openBrace ++ text ++ closeBrace

theorem toList_braced (text : String) : (braced text).toList = '{' :: (text.toList ++ ['}']) := by
  rw [braced, String.toList_append, String.toList_append]
  rfl

theorem braced_ne_empty (text : String) : braced text ≠ "" := by
  intro h
  rw [← String.toList_inj, toList_braced] at h
  exact nomatch h

end JsonShapes
