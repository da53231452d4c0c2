import JsonShapes.Json.Basic

/-!
# Values whose objects have no name twice

The tree of values is raw: a list of members may repeat a name. `Json.Keyed` says that no object in
a value does, which is what it takes for a member to be known by its name. Proofs about values go by
`Json.induction`, with one hypothesis for all items of an array and one for all members of an
object.
-/

namespace JsonShapes.Json

/-- Induction over values: what holds of all items and members of a value passes to the value. -/
@[elab_as_elim, induction_eliminator]
theorem induction {motive : Json → Prop} (null : motive .null) (bool : ∀ b, motive (.bool b))
    (number : ∀ n, motive (.number n)) (string : ∀ s, motive (.string s))
    (array : ∀ items, (∀ item ∈ items, motive item) → motive (.array items))
    (object : ∀ members, (∀ member ∈ members, motive member.2) → motive (.object members))
    (value : Json) : motive value :=
  @Json.rec motive (fun items ↦ ∀ item ∈ items, motive item)
    (fun members ↦ ∀ member ∈ members, motive member.2) (fun member ↦ motive member.2)
    null bool number string array object
    (fun _ h ↦ absurd h List.not_mem_nil)
    (fun _ _ hi his _ h ↦ (List.mem_cons.1 h).elim (fun e ↦ e ▸ hi) (his _))
    (fun _ h ↦ absurd h List.not_mem_nil)
    (fun _ _ hm hms _ h ↦ (List.mem_cons.1 h).elim (fun e ↦ e ▸ hm) (hms _))
    (fun _ _ h ↦ h) value

/-- The objects in a value have each name once. -/
inductive Keyed : Json → Prop
  | null : Keyed .null
  | bool (b : Bool) : Keyed (.bool b)
  | number (n : Number) : Keyed (.number n)
  | string (s : String) : Keyed (.string s)
  | array {items : List Json} (items_keyed : ∀ item ∈ items, Keyed item) : Keyed (.array items)
  | object {members : List (String × Json)} (nodup : (members.map (·.1)).Nodup)
      (values_keyed : ∀ member ∈ members, Keyed member.2) : Keyed (.object members)

end JsonShapes.Json
