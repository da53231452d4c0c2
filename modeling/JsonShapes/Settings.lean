import JsonShapes.Emit.Style
import JsonShapes.Fault
import JsonShapes.Shape.Join
import JsonShapes.Text.Blank
import JsonShapes.Text.Newline
import JsonShapes.Toml.Reader

/-!
# Settings

The settings of a run, taken from two tables of a configuration. Whatever is missing there or of the
wrong kind has its standard value, and so has everything if the configuration cannot be read as a
whole. Only a policy that is named and does not exist is refused.

There are two layers. `Source.table` says what table there is to take settings from, `ofTable` takes
them. A whole number of too many digits may be met in both: while the text is read, or when a value
that is no policy has to be written out to be refused.
-/

namespace JsonShapes

/-- The settings of a run. -/
structure Settings where
  policy : Policy
  style : Style
deriving DecidableEq, Repr

namespace Settings

/-- The settings of a run for which nothing is configured. -/
def standard : Settings :=
  ⟨.union, .standard⟩

/-! ### Single settings -/

/-- The entry of a section, if the section is a table and has it. -/
def lookup? (section? : Toml.Value) (name : String) : Option Toml.Value := do
  (← section?.table?).lookup name

mutual

/-- Whether a value has a whole number in it that is too long to be written in decimal notation. -/
def hasLongInteger : Toml.Value → Bool
  | .int n => Nat.pow 10 maxIntegerDigits ≤ n.natAbs
  | .list items => hasLongItem items
  | .table entries => hasLongEntry entries
  | _ => false

/-- Whether an item has such a number in it. -/
def hasLongItem : List Toml.Value → Bool
  | [] => false
  | item :: rest => hasLongInteger item || hasLongItem rest

/-- Whether the value of an entry has such a number in it. -/
def hasLongEntry : List (String × Toml.Value) → Bool
  | [] => false
  | (_, value) :: rest => hasLongInteger value || hasLongEntry rest

end

/-- The policy that a value names. -/
def policyNamed? : Toml.Value → Option Policy
  | .text s => Policy.all.find? (·.name = Text.keyword s)
  | _ => none

/-- The policy for conflicts. Naming one that does not exist is a fault. -/
def policyOf (inference : Toml.Value) : Except Fault Policy :=
  match lookup? inference "conflict_policy" with
  | none => return .union
  | some .null => return .union
  | some value =>
    if hasLongInteger value then throw .integerTooLong
    else match policyNamed? value with
      | some policy => return policy
      | none => throw (.breach (.unknownPolicy value))

/-- A text without a suffix, if it ends in it. -/
def dropSuffix (suffix text : String) : String :=
  if text.endsWith suffix then
    String.ofList (text.toList.take (text.length - suffix.length))
  else text

/-- Where the module of all aliases lies: a text, trimmed, with or without the suffix of modules. -/
def commonFileOf (render : Toml.Value) : String :=
  match lookup? render "common_file" with
  | some (.text s) =>
    let name := dropSuffix Style.suffix (Text.trim s)
    if name.isEmpty then Style.standard.commonFile else name
  | _ => Style.standard.commonFile

/-- The words for yes. -/
def affirmations : List String := ["1", "true", "yes", "on"]

/-- The truth value of a setting: numbers other than zero and words for yes are true, other texts
are false, and anything else leaves it at its standard value. -/
def truthOf (standard : Bool) : Toml.Value → Bool
  | .bool b => b
  | .int n => n ≠ 0
  | .text s => Text.keyword s ∈ affirmations
  | _ => standard

/-- The stem of aliases. -/
def stemOf (render : Toml.Value) : String :=
  Identifier.stem <| match lookup? render "alias_prefix" with
    | some (.text s) => some s
    | _ => none

/-! ### A whole configuration -/

/-- The settings that a configuration makes. -/
def ofTable (configuration : Toml.Table) : Except Fault Settings := do
  let inference := (configuration.lookup "inference").getD .null
  let render := (configuration.lookup "render").getD .null
  return {
    policy := ← policyOf inference
    style := {
      stem := stemOf render
      commonFile := commonFileOf render
      expand := truthOf true ((lookup? render "compute_helper").getD .null) } }

/-- What is found where a configuration is looked for. -/
inductive Source where
  /-- Nothing. -/
  | missing
  /-- A folder. -/
  | folder
  /-- A file. -/
  | file (octets : List UInt8)

/-- The table of a configuration. One that is missing, or that is no TOML, is empty. -/
def Source.table : Source → Except Fault Toml.Table
  | .missing => return []
  | .folder => return []
  | .file octets =>
    match Utf8.decode octets with
    | .error _ => throw .notText
    | .ok text =>
      match Toml.parse (Newline.unify text) with
      | .ok entries => return entries
      | .error .malformed => return []
      | .error .integerTooLong => throw .integerTooLong

/-- The settings that a configuration makes. -/
def load (source : Source) : Except Fault Settings := do
  ofTable (← source.table)

/-- The name of the file in which a configuration is looked for. -/
def fileName : String := "jsondts.toml"

end Settings

end JsonShapes
