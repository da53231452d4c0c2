import JsonShapes.Proofs.Shape.Discovery
import JsonShapes.Proofs.Shape.Inference

/-!
# Groups of items

The items of an array may be looked at all at once: sorted into plain values, objects and arrays,
with the values that the objects have under one name gathered, and the arrays put end to end. The
shape read off these groups is `grouped`. The lemmas here say what each of its alternatives shows:
what the items of its group do together, once conflicts below are resolved.

Every lemma comes in two steps, the marks that a group shows at its root and what it shows below
them. For objects a name leads to the values that they have under it (`below_shown_objects`), for
arrays the items lead to all items at once (`closure_below_shown_arrays_item`). There conflicts have
been resolved in each array by itself already, which is why the second is about closures.

## Main definitions

* `Json.primitive?`, `Json.members?` and `Json.items?`: which group a value is of, with what is in
  it.
* `namesOf`, `valuesOf`: the names of a group of objects in the order of first appearance, and the
  values under one of them.
* `groupedObject`, `groupedAlternatives`, `grouped`: what is read off the groups. Under the policy
  that gives up, two alternatives make the unknown.

The recursion of `grouped` is that of inference for what is below: the values under one name are
treated as the items of an array are. So the two are compared one level at a time.
-/

namespace JsonShapes

open Sighting

namespace Json

/-- The kind of a value that has no parts. -/
def primitive? : Json → Option Primitive
  | .null => some .null
  | .bool _ => some .boolean
  | .number _ => some .number
  | .string _ => some .string
  | .array _ => none
  | .object _ => none

/-- The items, if the value is an array. -/
def items? : Json → Option (List Json)
  | .array items => some items
  | _ => none

/-- The members, if the value is an object. -/
def members? : Json → Option (List (String × Json))
  | .object members => some members
  | _ => none

end Json

namespace Shape

/-! ### The shape read off groups -/

/-- The shape of the items of an array. -/
def element : Shape → Shape
  | .array e => e
  | s => s

/-- The names that objects have, in the order of their first appearance. -/
def namesOf (objects : List (List (String × Json))) : List String :=
  (objects.flatMap fun members ↦ members.map (·.1)).eraseDups

/-- The values that objects have under a name. -/
def valuesOf (objects : List (List (String × Json))) (name : String) : List Json :=
  objects.filterMap fun members ↦ members.lookup name

/-- The field of a name in a group of objects: optional if one of them lacks it, and with the shape
of the values that they have under it. -/
def groupedField (policy : Policy) (objects : List (List (String × Json))) (name : String) :
    Field Shape where
  name := name
  optional := objects.any fun members ↦ (members.lookup name).isNone
  content := (ofJson policy (.array (valuesOf objects name))).element

/-- The shape of a group of objects. -/
def groupedObject (policy : Policy) (objects : List (List (String × Json))) : Shape :=
  ofFields ((namesOf objects).map (groupedField policy objects)) (namesOf objects)

/-- The kinds of plain values among the items. -/
def kindsAmong (items : List Json) : List Primitive :=
  [.null, .boolean, .number, .string].filter fun p ↦ items.any fun item ↦ item.primitive? = some p

/-- The alternatives that the items fall into. -/
def groupedAlternatives (policy : Policy) (items : List Json) : List Shape :=
  let objects := items.filterMap Json.members?
  let arrays := items.filterMap Json.items?
  (kindsAmong items).map .prim ++
    (if objects.isEmpty then [] else [groupedObject policy objects]) ++
    (if arrays.isEmpty then [] else [ofJson policy (.array arrays.flatten)])

/-- The shape with the given alternatives: a single one stands for itself, and of several the policy
makes a union or gives them up. -/
def ofGroups (policy : Policy) : List Shape → Shape
  | [only] => only
  | all =>
    match policy with
    | .union => .union all
    | .unknown => unknown

/-- The shape of the items of an array, read off their groups. -/
def grouped (policy : Policy) (items : List Json) : Shape :=
  ofGroups policy (groupedAlternatives policy items)

variable {policy : Policy}

/-! ### What values show together -/

/-- What any of the values shows. -/
def shown (policy : Policy) (values : List Json) : Set Sighting :=
  {x | ∃ value ∈ values, x ∈ sightings policy (ofJson policy value)}

theorem shown_eq (values : List Json) :
    shown policy values = sightingsOfAll policy (values.map (ofJson policy)) := by
  ext x
  simp [shown, sightingsOfAll]

theorem shown_mono {values values' : List Json} (h : values ⊆ values') :
    shown policy values ⊆ shown policy values' :=
  fun _ ⟨value, hvalue, hx⟩ ↦ ⟨value, h hvalue, hx⟩

theorem subset_shown {values : List Json} {value : Json} (h : value ∈ values) :
    sightings policy (ofJson policy value) ⊆ shown policy values :=
  fun _ hx ↦ ⟨value, h, hx⟩

/-- The shape of the items of an array shows what they do, conflicts resolved. -/
theorem element_ofJson_array {values : List Json} (hne : values ≠ [])
    (h : ∀ value ∈ values, value.Keyed) :
    (ofJson policy (.array values)).element.WellFormed ∧
      sightings policy (ofJson policy (.array values)).element =
        policy.closure (shown policy values) := by
  obtain ⟨e, hjoin, he⟩ := ofJson_array policy hne
  have hwf : ∀ x ∈ values.map (ofJson policy), x.WellFormed := by
    simpa using fun value hvalue ↦ wellFormed_ofJson (h value hvalue)
  have hisjoin := isJoin_joinAll hwf hjoin
  rw [he, shown_eq]
  exact ⟨hisjoin.wellFormed, hisjoin.sightings_eq⟩

/-! ### Plain values -/

theorem ofJson_of_primitive? {value : Json} {p : Primitive} (h : value.primitive? = some p) :
    ofJson policy value = .prim p := by
  cases value <;> simp_all [Json.primitive?, ofJson]

/-- The kinds are those of the plain values among the items. -/
theorem mem_kindsAmong {items : List Json} {p : Primitive} :
    p ∈ kindsAmong items ↔ ∃ item ∈ items, item.primitive? = some p := by
  rw [kindsAmong, List.mem_filter, List.any_eq_true]
  simp only [decide_eq_true_eq]
  refine and_iff_right_of_imp ?_
  rintro ⟨item, -, hp⟩
  cases item <;> simp_all [Json.primitive?]

theorem nodup_kindsAmong (items : List Json) : (kindsAmong items).Nodup :=
  List.Nodup.filter _ (by decide)

/-! ### Objects -/

section Objects

variable {objects : List (List (String × Json))}

theorem mem_namesOf {name : String} :
    name ∈ namesOf objects ↔ ∃ members ∈ objects, name ∈ members.map (·.1) := by
  rw [namesOf, List.mem_eraseDups, List.mem_flatMap]

theorem mem_valuesOf {name : String} {value : Json} :
    value ∈ valuesOf objects name ↔ ∃ members ∈ objects, members.lookup name = some value :=
  List.mem_filterMap

/-- One object more adds the names that none before it had. -/
theorem namesOf_concat {members : List (String × Json)} (h : (members.map (·.1)).Nodup) :
    namesOf (objects ++ [members]) = joinNames (namesOf objects) (members.map (·.1)) := by
  have hnew : ∀ name, (!(objects.flatMap fun members ↦ members.map (·.1)).elem name) =
      decide (name ∉ namesOf objects) := by
    intro name
    rw [decide_not, ← List.elem_eq_mem, namesOf]
    exact congrArg _ (Bool.eq_iff_iff.2 (by rw [List.elem_iff, List.elem_iff, List.mem_eraseDups]))
  rw [namesOf, List.flatMap_append, List.eraseDups_append, List.flatMap_singleton, List.removeAll,
    eraseDups_of_nodup (List.Nodup.filter _ h), joinNames,
    List.filter_congr fun name _ ↦ hnew name, namesOf]

/-- Names are listed once, even if every object has them. -/
theorem nodup_namesOf (h : ∀ members ∈ objects, (members.map (·.1)).Nodup) :
    (namesOf objects).Nodup := by
  induction objects using List.reverseRecOn with
  | nil => exact List.nodup_nil
  | append_singleton objects members ih =>
    have hmembers := h members (by simp)
    rw [namesOf_concat hmembers]
    exact nodup_joinNames (ih fun k hk ↦ h k (List.mem_append_left _ hk)) hmembers

theorem map_name_groupedField (policy : Policy) (objects : List (List (String × Json)))
    (names : List String) :
    (names.map (groupedField policy objects)).map (·.name) = names := by
  rw [List.map_map]
  exact List.map_id names

theorem groupedObject_eq (policy : Policy) (objects : List (List (String × Json))) :
    groupedObject policy objects =
      .object (Field.sorted ((namesOf objects).map (groupedField policy objects)))
        (namesOf objects) := by
  rw [groupedObject, ofFields, map_name_groupedField, ite_self]
  rfl

/-- Under a name that some object has there is a value. -/
theorem valuesOf_ne_nil {name : String} (h : name ∈ namesOf objects) :
    valuesOf objects name ≠ [] := by
  obtain ⟨members, hmembers, hname⟩ := mem_namesOf.1 h
  cases hlookup : members.lookup name with
  | none => exact absurd hname (Entries.lookup_eq_none_iff.1 hlookup)
  | some value => exact List.ne_nil_of_mem (mem_valuesOf.2 ⟨members, hmembers, hlookup⟩)

/-- Objects have no items. -/
theorem below_shown_objects_item : below (shown policy (objects.map .object)) .item = ∅ := by
  refine Set.eq_empty_of_forall_notMem ?_
  rintro x ⟨_, hvalue, hx⟩
  obtain ⟨members, hmembers, rfl⟩ := List.mem_map.1 hvalue
  have hx' : x ∈ below (sightings policy (ofJson policy (.object members))) .item := hx
  rw [below_sightings_ofJson_object_item] at hx'
  exact hx'

variable (hne : objects ≠ []) (hkeyed : ∀ members ∈ objects, (Json.object members).Keyed)

include hkeyed

theorem nodup_of_keyed {members : List (String × Json)} (h : members ∈ objects) :
    (members.map (·.1)).Nodup := by
  cases hkeyed members h with
  | object hnodup _ => exact hnodup

/-- The values in keyed objects are keyed. -/
theorem keyed_of_mem_valuesOf {name : String} {value : Json} (h : value ∈ valuesOf objects name) :
    value.Keyed := by
  obtain ⟨members, hmembers, hlookup⟩ := mem_valuesOf.1 h
  cases hkeyed members hmembers with
  | object _ hvalues => exact hvalues _ (Entries.mem_of_lookup_eq_some hlookup)

/-- A name gets the field made of the values that the objects have under it. -/
theorem get?_groupedObject (name : String) :
    Field.get? (Field.sorted ((namesOf objects).map (groupedField policy objects))) name =
      if name ∈ namesOf objects then some (groupedField policy objects name) else none := by
  have hnodup : (((namesOf objects).map (groupedField policy objects)).map (·.name)).Nodup := by
    rw [map_name_groupedField]
    exact nodup_namesOf fun members h ↦ nodup_of_keyed hkeyed h
  have hget := Field.get?_filterMap (g := fun name ↦ some (groupedField policy objects name))
    (fun name f h ↦ (Option.some.inj h) ▸ rfl) (namesOf objects) name
  rw [List.filterMap_eq_map'] at hget
  rw [Field.get?_sorted hnodup, hget]

/-- The grouped object is well-formed: its names are distinct and all listed, and the shape under
each was inferred. -/
theorem wellFormed_groupedObject : (groupedObject policy objects).WellFormed := by
  have hmap := map_name_groupedField policy objects (namesOf objects)
  rw [groupedObject_eq]
  refine .object (Field.increasing_sorted ?_) ?_ fun f hf ↦ ?_
  · exact hmap.symm ▸ nodup_namesOf fun members h ↦ nodup_of_keyed hkeyed h
  · exact (List.Perm.of_eq hmap.symm).trans ((Field.sorted_perm _).map _).symm
  · obtain ⟨name, hname, rfl⟩ := List.mem_map.1 ((Field.sorted_perm _).mem_iff.1 hf)
    exact (element_ofJson_array (valuesOf_ne_nil hname)
      fun value hvalue ↦ keyed_of_mem_valuesOf hkeyed hvalue).1

include hne in
/-- Objects lack together what one of them lacks. -/
theorem root_shown_objects :
    root (shown policy (objects.map .object)) = {m | m = .object ∨ ∃ name, m = .lacks name ∧
      (objects.any fun members ↦ (members.lookup name).isNone) = true} := by
  ext m
  constructor
  · rintro ⟨_, hvalue, hm⟩
    obtain ⟨members, hmembers, rfl⟩ := List.mem_map.1 hvalue
    have hm' : m ∈ root (sightings policy (ofJson policy (.object members))) := hm
    rw [root_sightings_ofJson_object (nodup_of_keyed hkeyed hmembers)] at hm'
    refine hm'.imp_right fun ⟨name, hname, hnone⟩ ↦ ⟨name, hname, ?_⟩
    exact List.any_eq_true.2 ⟨members, hmembers, by simp [hnone]⟩
  · have hroot : ∀ members ∈ objects,
        ∀ m ∈ root (sightings policy (ofJson policy (.object members))),
        m ∈ root (shown policy (objects.map .object)) :=
      fun members h m hm ↦ subset_shown (List.mem_map_of_mem h) hm
    rintro (rfl | ⟨name, rfl, hnone⟩)
    · obtain ⟨members, hmembers⟩ := List.exists_mem_of_ne_nil objects hne
      refine hroot members hmembers _ ?_
      rw [root_sightings_ofJson_object (nodup_of_keyed hkeyed hmembers)]
      exact Or.inl rfl
    · obtain ⟨members, hmembers, hnone⟩ := List.any_eq_true.1 hnone
      refine hroot members hmembers _ ?_
      rw [root_sightings_ofJson_object (nodup_of_keyed hkeyed hmembers)]
      exact Or.inr ⟨name, rfl, by simpa using hnone⟩

/-- Below a name objects show together what the values that they have under it do. -/
theorem below_shown_objects (name : String) :
    below (shown policy (objects.map .object)) (.member name) =
      shown policy (valuesOf objects name) := by
  have hbelow : ∀ members ∈ objects, ∀ x,
      x ∈ below (sightings policy (ofJson policy (.object members))) (.member name) ↔
        ∃ value, members.lookup name = some value ∧
          x ∈ sightings policy (ofJson policy value) := by
    intro members hmembers x
    rw [below_sightings_ofJson_object_member (nodup_of_keyed hkeyed hmembers)]
    cases members.lookup name <;> simp
  ext x
  constructor
  · rintro ⟨_, hvalue, hx⟩
    obtain ⟨members, hmembers, rfl⟩ := List.mem_map.1 hvalue
    obtain ⟨value, hlookup, hx⟩ := (hbelow members hmembers x).1 hx
    exact ⟨value, mem_valuesOf.2 ⟨members, hmembers, hlookup⟩, hx⟩
  · rintro ⟨value, hvalue, hx⟩
    obtain ⟨members, hmembers, hlookup⟩ := mem_valuesOf.1 hvalue
    have hx' := (hbelow members hmembers x).2 ⟨value, hlookup, hx⟩
    exact subset_shown (List.mem_map_of_mem hmembers) hx'

include hne in
/-- The shape of a group of objects shows what they do, conflicts resolved. What is shown is
compared at the root, where objects agree whatever they lack, and below each name, where it is that
of the values under the name. -/
theorem sightings_groupedObject :
    sightings policy (groupedObject policy objects) =
      policy.closure (shown policy (objects.map .object)) := by
  -- objects do not clash at their root, whatever they lack
  have hkept : ¬policy.GivesUp (shown policy (objects.map .object)) := by
    refine Policy.not_givesUp_of_agree ?_
    rw [root_shown_objects hne hkeyed]
    exact fun m hm n hn ↦ agree_object (hm.imp_right fun ⟨name, h, _⟩ ↦ ⟨name, h⟩)
      (hn.imp_right fun ⟨name, h, _⟩ ↦ ⟨name, h⟩)
  rw [groupedObject_eq]
  refine ext_root_below ?_ fun step ↦ ?_
  · rw [Policy.root_closure hkept, root_shown_objects hne hkeyed, root_sightings_object]
    ext m
    refine or_congr Iff.rfl (exists_congr fun name ↦ and_congr Iff.rfl ?_)
    rw [get?_groupedObject hkeyed]
    split
    · rfl
    · rename_i hname
      -- a name that no object has is lacked by any of them
      obtain ⟨members, hmembers⟩ := List.exists_mem_of_ne_nil objects hne
      have hnot : name ∉ members.map (·.1) := fun h ↦ hname (mem_namesOf.2 ⟨members, hmembers, h⟩)
      refine iff_of_true rfl (List.any_eq_true.2 ⟨members, hmembers, ?_⟩)
      rw [Entries.lookup_eq_none_iff.2 hnot]
      rfl
  · rw [Policy.below_closure hkept]
    cases step with
    | item =>
      rw [below_sightings_object_item, below_shown_objects_item, Policy.closure_empty]
    | member name =>
      rw [below_sightings_object_member, get?_groupedObject hkeyed,
        below_shown_objects hkeyed name]
      split
      · rename_i hname
        exact (element_ofJson_array (valuesOf_ne_nil hname)
          fun value hvalue ↦ keyed_of_mem_valuesOf hkeyed hvalue).2
      · rename_i hname
        have hnil : valuesOf objects name = [] := by
          refine List.eq_nil_iff_forall_not_mem.2 fun value hvalue ↦ hname ?_
          obtain ⟨members, hmembers, hlookup⟩ := mem_valuesOf.1 hvalue
          exact mem_namesOf.2
            ⟨members, hmembers, List.mem_map_of_mem (Entries.mem_of_lookup_eq_some hlookup)⟩
        have hempty : shown policy ([] : List Json) = ∅ := by simp [shown]
        rw [hnil, hempty, Policy.closure_empty]
        rfl

end Objects

/-! ### Arrays -/

section Arrays

variable {arrays : List (List Json)}

/-- At the root arrays show that they are arrays, and nothing else. -/
theorem root_shown_arrays (policy : Policy) (hne : arrays ≠ []) :
    root (shown policy (arrays.map .array)) = {.array} := by
  ext m
  constructor
  · rintro ⟨_, hvalue, hm⟩
    obtain ⟨items, -, rfl⟩ := List.mem_map.1 hvalue
    rw [← root_sightings_ofJson_array policy items]
    exact hm
  · intro hm
    obtain ⟨items, hitems⟩ := List.exists_mem_of_ne_nil arrays hne
    rw [← root_sightings_ofJson_array policy items] at hm
    exact subset_shown (List.mem_map_of_mem hitems) hm

/-- Arrays have no members. -/
theorem below_shown_arrays_member (arrays : List (List Json)) (name : String) :
    below (shown policy (arrays.map .array)) (.member name) = ∅ := by
  refine Set.eq_empty_of_forall_notMem ?_
  rintro x ⟨_, hvalue, hx⟩
  obtain ⟨items, -, rfl⟩ := List.mem_map.1 hvalue
  have hbelow : x ∈ below (sightings policy (ofJson policy (.array items))) (.member name) := hx
  rw [below_sightings_ofJson_array_member] at hbelow
  exact hbelow

/-- Below their items arrays show together what all items do, once conflicts are resolved: each
array has resolved those among its own. -/
theorem closure_below_shown_arrays_item
    (hkeyed : ∀ items ∈ arrays, ∀ item ∈ items, item.Keyed) :
    policy.closure (below (shown policy (arrays.map .array)) .item) =
      policy.closure (shown policy arrays.flatten) := by
  have hbelow : ∀ items ∈ arrays, below (sightings policy (ofJson policy (.array items))) .item =
      policy.closure (shown policy items) := by
    intro items hitems
    rw [below_sightings_ofJson_array_item (hkeyed items hitems), shown_eq]
  refine le_antisymm (policy.closure.le_closure_iff.1 ?_) (policy.closure.monotone ?_)
  · rintro x ⟨_, hvalue, hx⟩
    obtain ⟨items, hitems, rfl⟩ := List.mem_map.1 hvalue
    have hx : x ∈ below (sightings policy (ofJson policy (.array items))) .item := hx
    rw [hbelow items hitems] at hx
    exact policy.closure.monotone
      (shown_mono fun item hitem ↦ List.mem_flatten.2 ⟨items, hitems, hitem⟩) hx
  · rintro x ⟨item, hitem, hx⟩
    obtain ⟨items, hitems, hitem⟩ := List.mem_flatten.1 hitem
    refine ⟨.array items, List.mem_map_of_mem hitems, ?_⟩
    show x ∈ below (sightings policy (ofJson policy (.array items))) .item
    rw [hbelow items hitems]
    exact policy.closure.le_closure _ (subset_shown hitem hx)

/-- Arrays show together what their items put end to end do, conflicts resolved. -/
theorem sightings_ofJson_flatten (hne : arrays ≠ [])
    (hkeyed : ∀ items ∈ arrays, ∀ item ∈ items, item.Keyed) :
    sightings policy (ofJson policy (.array arrays.flatten)) =
      policy.closure (shown policy (arrays.map .array)) := by
  have hflatten : ∀ item ∈ arrays.flatten, item.Keyed := by
    intro item hitem
    obtain ⟨items, hitems, hitem⟩ := List.mem_flatten.1 hitem
    exact hkeyed items hitems item hitem
  have hkept : ¬policy.GivesUp (shown policy (arrays.map .array)) := by
    refine Policy.not_givesUp_of_agree ?_
    rw [root_shown_arrays policy hne]
    exact agree_of_mem_singleton rfl
  refine ext_root_below ?_ fun step ↦ ?_
  · rw [Policy.root_closure hkept, root_shown_arrays policy hne, root_sightings_ofJson_array]
  · rw [Policy.below_closure hkept]
    cases step with
    | item =>
      rw [below_sightings_ofJson_array_item hflatten, ← shown_eq,
        closure_below_shown_arrays_item hkeyed]
    | member name =>
      rw [below_shown_arrays_member, Policy.closure_empty, below_sightings_ofJson_array_member]

end Arrays

end Shape

end JsonShapes
