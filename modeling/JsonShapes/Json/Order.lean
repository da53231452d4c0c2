import JsonShapes.Breach

/-!
# The order of values

Numbers are ordered by size, whole or not, and truth values stand among them as zero and one. Texts
are ordered by their characters and arrays by the first item in which they differ. Nothing else has
an order, so two values of different kinds, two objects or two nulls are not comparable.

Sorting is stable in either direction: values whose keys are equal stay in the order in which they
came.
-/

namespace JsonShapes

/-! ### Numbers -/

/-- A number as the quotient of a whole number by a power of two, unless it is no finite number. -/
def Number.quotient? : Number → Option (Int × Nat)
  | .int n => some (n, 0)
  | .float x =>
    let bits := x.toBits.toNat
    let magnitude := bits % (1 <<< 63)
    let exponent := magnitude >>> 52
    let fraction := magnitude % (1 <<< 52)
    let significand := if exponent = 0 then fraction else fraction + 1 <<< 52
    let shift := Int.ofNat (max exponent 1) - 1075
    let size := significand <<< shift.toNat
    if exponent = 0x7FF then none
    else some (if magnitude = bits then size else -Int.ofNat size, (-shift).toNat)

/-- Where a number stands that is beyond all finite ones, or no number; any other stands at zero. -/
def Number.beyond : Number → Float
  | .int _ => 0
  | .float x => x

/-- Whether two numbers are equal in size. -/
def Number.same (m n : Number) : Bool :=
  match m.quotient?, n.quotient? with
  | some (a, k), some (b, l) => a * Int.ofNat (1 <<< l) == b * Int.ofNat (1 <<< k)
  | none, none => m.beyond == n.beyond
  | _, _ => false

/-- Whether the first number is smaller than the second. -/
def Number.less (m n : Number) : Bool :=
  match m.quotient?, n.quotient? with
  | some (a, k), some (b, l) => a * Int.ofNat (1 <<< l) < b * Int.ofNat (1 <<< k)
  | some _, none => 0 < n.beyond
  | none, some _ => m.beyond < 0
  | none, none => m.beyond < n.beyond

namespace Json

/-- The number that a value is among numbers, if it is one or a truth value. -/
def amount? : Json → Option Number
  | .bool b => some (.int (if b then 1 else 0))
  | .number n => some n
  | _ => none

/-! ### Equality -/

mutual

/-- Whether two values are equal: numbers by size, and objects whatever the order of their members.
-/
def same : Json → Json → Bool
  | .null, .null => true
  | .string s, .string t => s == t
  | .array items, .array others => sameItems items others
  | .object members, .object others =>
    members.length == others.length && sameMembers members others
  | .bool a, right => (right.amount?.map ((Json.bool a).amount?.getD (.int 0)).same).getD false
  | .number m, right => (right.amount?.map m.same).getD false
  | _, _ => false
termination_by structural left => left

/-- Whether two lists of items are equal one by one. -/
def sameItems : List Json → List Json → Bool
  | [], [] => true
  | item :: items, other :: others => item.same other && sameItems items others
  | _, _ => false
termination_by structural items => items

/-- Whether each member has an equal one of its name among others. -/
def sameMembers : List (String × Json) → List (String × Json) → Bool
  | [], _ => true
  | (name, value) :: members, others =>
    (match others.lookup name with
      | some other => value.same other
      | none => false) && sameMembers members others
termination_by structural members => members

end

/-! ### Order -/

mutual

/-- Whether the first value comes before the second, if the two are comparable. -/
def less? : Json → Json → Option Bool
  | .string s, .string t => some (s < t)
  | .array items, .array others => lessItems? items others
  | .bool a, right => right.amount?.map ((Json.bool a).amount?.getD (.int 0)).less
  | .number m, right => right.amount?.map m.less
  | _, _ => none
termination_by structural left => left

/-- The order of two lists of items: that of the first pair in which they differ, and otherwise the
shorter list comes first. -/
def lessItems? : List Json → List Json → Option Bool
  | item :: items, other :: others =>
    if item.same other then lessItems? items others else item.less? other
  | items, others => some (items.length < others.length)
termination_by structural items => items

end

/-! ### Sorting -/

/-- What values are sorted by. -/
inductive SortKey where
  /-- The value itself. -/
  | itself
  /-- The number of characters, items or members. -/
  | size
  /-- The character or the item at a place, counted from zero. -/
  | item (place : Nat)

/-- Why values are not sorted. -/
inductive SortFault where
  /-- A value has no key of the kind asked for, or two keys are not comparable. -/
  | breach (b : Breach)
  /-- A text or an array ends before the place asked for. -/
  | noItem
  /-- An object was asked for an item. -/
  | noMember

/-- The key of a value. -/
def sortKey (source : String) : SortKey → Json → Except SortFault Json
  | .itself, value => pure value
  | .size, .string s => pure (.number (.int s.length))
  | .size, .array items => pure (.number (.int items.length))
  | .size, .object members => pure (.number (.int members.length))
  | .item place, .array items => (items[place]?.map pure).getD (throw .noItem)
  | .item place, .string s =>
    (s.toList[place]?.map fun c ↦ pure (.string c.toString)).getD (throw .noItem)
  | .item _, .object _ => throw .noMember
  | _, _ => throw (.breach (.notComparable source))

/-- Whether each key of a list is comparable with each later one. -/
def comparable : List Json → Bool
  | [] => true
  | key :: rest => rest.all (fun other ↦ (key.less? other).isSome) && comparable rest

/-- What comes with keys in the order of the keys, from the greatest if `descending`. -/
def sortKeyed {α : Type} (source : String) (descending : Bool) (keyed : List (Json × α)) :
    Except Breach (List α) :=
  if comparable (keyed.map (·.1)) then
    let before (a b : Json) : Bool :=
      if descending then (a.less? b).getD false else (b.less? a).getD false
    return (keyed.mergeSort fun a b ↦ !before a.1 b.1).map (·.2)
  else throw (.notComparable source)

/-- The values in the order of their keys, from the greatest if `descending`. -/
def sort (source : String) (key : SortKey) (descending : Bool) (values : List Json) :
    Except SortFault (List Json) := do
  let keyed ← values.mapM fun value ↦ return (← sortKey source key value, value)
  match sortKeyed source descending keyed with
  | .ok sorted => return sorted
  | .error breach => throw (.breach breach)

end Json

end JsonShapes
