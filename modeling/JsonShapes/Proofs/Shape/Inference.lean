import JsonShapes.Proofs.Entries
import JsonShapes.Proofs.Json.Keyed
import JsonShapes.Proofs.Shape.References
import JsonShapes.Shape.Infer

/-!
# What inferred shapes show

The shape of a value is well-formed (`wellFormed_ofJson`), refers to nothing (`references_ofJson`)
and is never a union or unknown (`isPlain_ofJson`). What it shows is said one layer at a time: an
array shows below its items what they show together, an object shows below a name what the value of
that member does, and lacks every name that no member has.

The values are keyed throughout, as what readers give is (`Json.keyed_of_parse`): in an object with
a name twice the two fields would have to be one, and the shape would not be well-formed. That an
array is inferred by joins of two shapes at a time is left behind here; from the sightings it cannot
be seen in which order the items were joined.
-/

namespace JsonShapes

open Sighting

namespace Shape

variable {policy : Policy}

/-- The shapes of items, as a map. -/
theorem ofItems_eq_map (items : List Json) : ofItems policy items = items.map (ofJson policy) := by
  induction items with
  | nil => rfl
  | cons item items ih => rw [ofItems, ih, List.map_cons]

/-- The field that a member of an object is. -/
def ofMember (policy : Policy) (member : String × Json) : Field Shape :=
  ⟨member.1, false, ofJson policy member.2⟩

/-- The fields of members, as a map. -/
theorem ofMemberList_eq_map (members : List (String × Json)) :
    ofMemberList policy members = members.map (ofMember policy) := by
  induction members with
  | nil => rfl
  | cons member members ih => rw [ofMemberList, ih, List.map_cons, ofMember]

theorem map_name_ofMember (policy : Policy) (members : List (String × Json)) :
    (members.map (ofMember policy)).map (·.name) = members.map (·.1) := by
  rw [List.map_map]
  rfl

theorem map_fst_perm (policy : Policy) (members : List (String × Json)) :
    (members.map (·.1)).Perm ((Field.sorted (members.map (ofMember policy))).map (·.name)) := by
  rw [← map_name_ofMember policy]
  exact ((Field.sorted_perm _).map _).symm

/-- The field of a name is the one made of the member that the name is looked up as. -/
theorem get?_ofMember (members : List (String × Json)) (name : String) :
    Field.get? (members.map (ofMember policy)) name =
      (members.lookup name).map fun value ↦ ⟨name, false, ofJson policy value⟩ := by
  induction members with
  | nil => rfl
  | cons member members ih =>
    obtain ⟨key, value⟩ := member
    by_cases hk : key = name
    · subst hk
      simp [Field.get?, ofMember]
    · rw [List.lookup_cons, beq_false_of_ne (Ne.symm hk), ← ih]
      simp [Field.get?, ofMember, hk]

theorem ofJson_object (members : List (String × Json)) :
    ofJson policy (.object members) =
      .object (Field.sorted (members.map (ofMember policy))) (members.map (·.1)) := by
  rw [ofJson, ofFields, ofMemberList_eq_map, map_name_ofMember]
  rfl

theorem joinAll_cons (s : Shape) (xs : List Shape) :
    joinAll policy (s :: xs) = some (xs.foldl (join policy) s) := rfl

/-- The shape of an array with items has a shape for them, which is the join of theirs. -/
theorem ofJson_array (policy : Policy) {items : List Json} (hne : items ≠ []) :
    ∃ e, joinAll policy (items.map (ofJson policy)) = some e ∧
      ofJson policy (.array items) = .array e := by
  cases items with
  | nil => exact absurd rfl hne
  | cons item items =>
    refine ⟨_, joinAll_cons _ _, ?_⟩
    rw [ofJson, ofItems_eq_map, List.map_cons, joinAll_cons]

/-- From no items nothing is learned about them. -/
theorem ofJson_array_nil : ofJson policy (.array []) = .emptyArray := rfl

/-! ### Inferred shapes are well-formed -/

/-- A value is of one kind, so its shape is no union and not unknown; those come from several values
only, below the items of an array. -/
theorem isPlain_ofJson (value : Json) : (ofJson policy value).isPlain = true := by
  cases value with
  | array items =>
    rw [ofJson]
    split <;> rfl
  | _ => rfl

/-- Inference makes well-formed shapes: it is the base of all that is said of joins of inferred
shapes. -/
theorem wellFormed_ofJson {value : Json} (h : value.Keyed) : (ofJson policy value).WellFormed := by
  induction h with
  | @array items _ ih =>
    by_cases hne : items = []
    · rw [hne]
      exact .emptyArray
    · obtain ⟨e, hjoin, he⟩ := ofJson_array policy hne
      rw [he]
      exact .array (isJoin_joinAll (by simpa using ih) hjoin).wellFormed
  | @object members hnodup _ ih =>
    have hnames : ((members.map (ofMember policy)).map (·.name)).Nodup := by
      rwa [map_name_ofMember]
    rw [ofJson_object]
    refine .object (Field.increasing_sorted hnames) (map_fst_perm policy members) fun f hf ↦ ?_
    obtain ⟨member, hmember, rfl⟩ := List.mem_map.1 ((Field.sorted_perm _).mem_iff.1 hf)
    exact ih member hmember
  | _ => exact .prim _

/-- Inference knows of no declarations. -/
theorem references_ofJson (value : Json) : (ofJson policy value).references = [] := by
  refine List.eq_nil_iff_forall_not_mem.2 fun id ↦ ?_
  induction value with
  | array items ih =>
    rw [ofJson]
    split
    · -- a reference in the join stands in the shape of an item
      rename_i element h
      intro hid
      obtain ⟨x, hx, hid⟩ := references_reduce? (fun x y id h ↦ references_join h) h hid
      rw [ofItems_eq_map] at hx
      obtain ⟨item, hitem, rfl⟩ := List.mem_map.1 hx
      exact ih item hitem hid
    · exact List.not_mem_nil
  | object members ih =>
    intro hid
    obtain ⟨f, hf, hid⟩ := mem_references_ofFields.1 hid
    rw [ofMemberList_eq_map] at hf
    obtain ⟨member, hmember, rfl⟩ := List.mem_map.1 hf
    exact ih member hmember hid
  | _ => exact List.not_mem_nil

/-! ### Sightings of inferred shapes -/

@[simp]
theorem root_sightings_ofJson_array (policy : Policy) (items : List Json) :
    root (sightings policy (ofJson policy (.array items))) = {.array} := by
  rw [ofJson]
  split <;> simp

@[simp]
theorem below_sightings_ofJson_array_member (items : List Json) (name : String) :
    below (sightings policy (ofJson policy (.array items))) (.member name) = ∅ := by
  rw [ofJson]
  split <;> simp

/-- Below the items of an array lies what they show together, conflicts resolved. -/
theorem below_sightings_ofJson_array_item {items : List Json} (h : ∀ item ∈ items, item.Keyed) :
    below (sightings policy (ofJson policy (.array items))) .item =
      policy.closure (sightingsOfAll policy (items.map (ofJson policy))) := by
  by_cases hne : items = []
  · rw [hne, ofJson_array_nil]
    simp
  · obtain ⟨e, hjoin, he⟩ := ofJson_array policy hne
    have hwf : ∀ x ∈ items.map (ofJson policy), x.WellFormed := by
      simpa using fun item hitem ↦ wellFormed_ofJson (h item hitem)
    rw [he, below_sightings_array_item, (isJoin_joinAll hwf hjoin).sightings_eq]

variable {members : List (String × Json)} (hnodup : (members.map (·.1)).Nodup)

include hnodup in
/-- Under the name of a member is its field, which no single object makes optional. -/
theorem get?_ofJson_object (name : String) :
    Field.get? (Field.sorted (members.map (ofMember policy))) name =
      (members.lookup name).map fun value ↦ ⟨name, false, ofJson policy value⟩ := by
  rw [← get?_ofMember]
  refine Field.get?_sorted ?_ name
  rwa [map_name_ofMember]

include hnodup in
/-- An object lacks the names that no member has. -/
theorem root_sightings_ofJson_object :
    root (sightings policy (ofJson policy (.object members))) =
      {m | m = .object ∨ ∃ name, m = .lacks name ∧ members.lookup name = none} := by
  rw [ofJson_object, root_sightings_object]
  ext m
  refine or_congr Iff.rfl (exists_congr fun name ↦ and_congr Iff.rfl ?_)
  rw [get?_ofJson_object hnodup]
  cases members.lookup name <;> simp

@[simp]
theorem below_sightings_ofJson_object_item (members : List (String × Json)) :
    below (sightings policy (ofJson policy (.object members))) .item = ∅ := by
  rw [ofJson_object, below_sightings_object_item]

include hnodup in
/-- Below a name lies what the value of the member shows. -/
theorem below_sightings_ofJson_object_member (name : String) :
    below (sightings policy (ofJson policy (.object members))) (.member name) =
      (members.lookup name).elim ∅ fun value ↦ sightings policy (ofJson policy value) := by
  rw [ofJson_object, below_sightings_object_member, get?_ofJson_object hnodup]
  cases members.lookup name <;> rfl

end Shape

end JsonShapes
