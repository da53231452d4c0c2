import JsonShapes.Proofs.Catalog.Changes
import JsonShapes.Proofs.Shape.Inference
import JsonShapes.Proofs.Shape.Key

/-!
# Values that differ in order and repetition

Two values are rearrangements of each other if one becomes the other by moving members within
objects and items within arrays, and by adding or removing repeated items, at any depth and in any
number of steps (`Json.Rearranged`). Rearranged values have shapes that mean the same, under the
same key (`Shape.ofJson_rearranged`); only the order in which names are discovered may differ.

No step of this looks at how items are joined. Each step leaves what the shape of a value shows as
it was: what an array shows depends on what its items show together, and what an object shows on
the values that names are looked up as.
-/

namespace JsonShapes

open Sighting

/-- A value can be turned into another by permuting the members of objects, permuting the items of
arrays and adding or removing repeated items, at any depth. -/
inductive Json.Rearranged : Json → Json → Prop
  | refl (v : Json) : Rearranged v v
  | symm {v w : Json} (h : Rearranged v w) : Rearranged w v
  | trans {u v w : Json} (h : Rearranged u v) (h' : Rearranged v w) : Rearranged u w
  /-- The members of an object may come in any order. -/
  | members {ms ns : List (String × Json)} (h : ms.Perm ns) : Rearranged (.object ms) (.object ns)
  /-- So may the items of an array. -/
  | items {xs ys : List Json} (h : xs.Perm ys) : Rearranged (.array xs) (.array ys)
  /-- An item may be repeated. -/
  | repeated {x : Json} {xs : List Json} (h : x ∈ xs) : Rearranged (.array xs) (.array (x :: xs))
  /-- All of this may be done to the value of a member. -/
  | member (before : List (String × Json)) (name : String) (after : List (String × Json))
      {v w : Json} (h : Rearranged v w) :
      Rearranged (.object (before ++ (name, v) :: after)) (.object (before ++ (name, w) :: after))
  /-- All of this may be done to an item. -/
  | item (before after : List Json) {v w : Json} (h : Rearranged v w) :
      Rearranged (.array (before ++ v :: after)) (.array (before ++ w :: after))

namespace Json

theorem keyed_array_iff {items : List Json} :
    (Json.array items).Keyed ↔ ∀ item ∈ items, item.Keyed :=
  ⟨fun | .array h => h, .array⟩

/-- A keyed object has its names once and keyed values under them. -/
theorem keyed_object_iff {members : List (String × Json)} :
    (Json.object members).Keyed ↔
      (members.map (·.1)).Nodup ∧ ∀ member ∈ members, member.2.Keyed :=
  ⟨fun | .object hnodup h => ⟨hnodup, h⟩, fun h ↦ .object h.1 h.2⟩

/-- Rearranging a value leaves each name of an object its only one. -/
theorem Rearranged.keyed_iff {v w : Json} (h : Rearranged v w) : v.Keyed ↔ w.Keyed := by
  induction h with
  | refl _ => exact Iff.rfl
  | symm _ ih => exact ih.symm
  | trans _ _ ih ih' => exact ih.trans ih'
  | members h =>
    simp only [keyed_object_iff, (h.map (·.1)).nodup_iff, h.mem_iff]
  | items h => simp only [keyed_array_iff, h.mem_iff]
  | @repeated x xs h =>
    simp only [keyed_array_iff, List.forall_mem_cons]
    exact ⟨fun hxs ↦ ⟨hxs x h, hxs⟩, And.right⟩
  | member before name after _ ih =>
    simp only [keyed_object_iff, List.map_append, List.map_cons, List.forall_mem_append,
      List.forall_mem_cons, ih]
  | item before after _ ih =>
    simp only [keyed_array_iff, List.forall_mem_append, List.forall_mem_cons, ih]

end Json

namespace Shape

variable {policy : Policy}

/-! ### What the sightings of a value depend on -/

/-- What an array shows depends on what its items show together. -/
theorem sightings_ofJson_array_congr {xs ys : List Json} (hxs : ∀ x ∈ xs, x.Keyed)
    (hys : ∀ y ∈ ys, y.Keyed) (h : sightingsOfAll policy (xs.map (ofJson policy)) =
      sightingsOfAll policy (ys.map (ofJson policy))) :
    sightings policy (ofJson policy (.array xs)) =
      sightings policy (ofJson policy (.array ys)) := by
  refine ext_root_below (by simp) fun step ↦ ?_
  cases step with
  | item => rw [below_sightings_ofJson_array_item hxs, below_sightings_ofJson_array_item hys, h]
  | member name => simp

/-- What an object shows depends on what the values show that names are looked up as. -/
theorem sightings_ofJson_object_congr {ms ns : List (String × Json)}
    (hms : (ms.map (·.1)).Nodup) (hns : (ns.map (·.1)).Nodup)
    (h : ∀ name, (ms.lookup name).map (fun v ↦ sightings policy (ofJson policy v)) =
      (ns.lookup name).map fun v ↦ sightings policy (ofJson policy v)) :
    sightings policy (ofJson policy (.object ms)) =
      sightings policy (ofJson policy (.object ns)) := by
  have hnone : ∀ name, ms.lookup name = none ↔ ns.lookup name = none := fun name ↦ by
    rw [← Option.map_eq_none_iff, h name, Option.map_eq_none_iff]
  refine ext_root_below ?_ fun step ↦ ?_
  · simp only [root_sightings_ofJson_object hms, root_sightings_ofJson_object hns, hnone]
  · cases step with
    | item => simp
    | member name =>
      have helim : ∀ value? : Option Json,
          value?.elim ∅ (fun v ↦ sightings policy (ofJson policy v)) =
            (value?.map fun v ↦ sightings policy (ofJson policy v)).getD ∅ := fun value? ↦ by
        cases value? <;> rfl
      rw [below_sightings_ofJson_object_member hms, below_sightings_ofJson_object_member hns,
        helim, helim, h name]

/-- Rearranging a value leaves what its shape shows as it was. By induction over the rearrangement;
what is shown of an array does not depend on the order of its items, nor on how often they occur. -/
theorem sightings_ofJson_of_rearranged {v w : Json} (h : v.Rearranged w) (hv : v.Keyed) :
    sightings policy (ofJson policy v) = sightings policy (ofJson policy w) := by
  have hw := h.keyed_iff.1 hv
  induction h with
  | refl _ => rfl
  | symm _ ih => exact (ih hw hv).symm
  | trans h h' ih ih' => exact (ih hv (h.keyed_iff.1 hv)).trans (ih' (h.keyed_iff.1 hv) hw)
  | members h =>
    rw [Json.keyed_object_iff] at hv hw
    refine sightings_ofJson_object_congr hv.1 hw.1 fun name ↦ ?_
    rw [Entries.lookup_eq_of_perm h hv.1]
  | items h =>
    rw [Json.keyed_array_iff] at hv hw
    refine sightings_ofJson_array_congr hv hw (Set.ext fun k ↦ ?_)
    simp only [sightingsOfAll, (h.map (ofJson policy)).mem_iff]
  | @repeated x xs h =>
    rw [Json.keyed_array_iff] at hv hw
    refine sightings_ofJson_array_congr hv hw ?_
    rw [List.map_cons, sightingsOfAll_cons]
    -- what is repeated shows nothing new
    refine (Set.union_eq_self_of_subset_left fun k hk ↦ ?_).symm
    exact ⟨_, List.mem_map_of_mem h, hk⟩
  | @member before name after v w _ ih =>
    rw [Json.keyed_object_iff] at hv hw
    have hvalue := ih (hv.2 (name, v) (by simp)) (hw.2 (name, w) (by simp))
    refine sightings_ofJson_object_congr hv.1 hw.1 fun name' ↦ ?_
    rw [List.lookup_append, List.lookup_append, Entries.lookup_cons, Entries.lookup_cons]
    cases before.lookup name' with
    | some _ => rfl
    | none =>
      by_cases hname : name' = name
      · simp [hname, hvalue]
      · simp [hname]
  | @item before after v w _ ih =>
    rw [Json.keyed_array_iff] at hv hw
    have hvalue := ih (hv v (by simp)) (hw w (by simp))
    refine sightings_ofJson_array_congr hv hw ?_
    simp only [List.map_append, List.map_cons, sightingsOfAll_append, sightingsOfAll_cons, hvalue]

/-! ### Order and repetition do not count -/

/-- Rearranged values have shapes that mean the same and are encoded under the same key, whichever
policy resolves the conflicts between items. -/
theorem ofJson_rearranged (policy : Policy) {v w : Json} (hv : v.Keyed) (h : v.Rearranged w) :
    (ofJson policy v).same (ofJson policy w) = true ∧
      ∃ key, (ofJson policy v).key? = .ok key ∧ (ofJson policy w).key? = .ok key := by
  have hvwf : (ofJson policy v).WellFormed := wellFormed_ofJson hv
  have hwwf : (ofJson policy w).WellFormed := wellFormed_ofJson (h.keyed_iff.1 hv)
  have hsame : (ofJson policy v).same (ofJson policy w) = true :=
    same_of_sightings_eq hvwf hwwf (sightings_ofJson_of_rearranged h hv)
  refine ⟨hsame, _, key?_eq_ok_iff.2 ⟨hvwf.foreigns_eq_nil, rfl⟩, key?_eq_ok_iff.2 ⟨?_, ?_⟩⟩
  · exact hwwf.foreigns_eq_nil
  · exact key_eq_of_same hvwf.irredundant hwwf.irredundant hsame

/-- An object inside an array turned around, the array listed from its end with a repeated item, and
the members that hold them exchanged. -/
theorem ofJson_rearranged_nested :
    let one := Json.number (.int 1)
    let v := Json.object [("a", .array [one, .object [("p", one), ("q", .null)]]), ("b", .null)]
    let w := Json.object
      [("b", .null), ("a", .array [one, .object [("q", .null), ("p", one)], one])]
    (v.Keyed ∧ v.Rearranged w) ∧ (ofJson .union v).same (ofJson .union w) = true ∧
      ∃ key, (ofJson .union v).key? = .ok key ∧ (ofJson .union w).key? = .ok key := by
  intro one v w
  have hinner : (Json.object [("p", one), ("q", .null)]).Rearranged
      (.object [("q", .null), ("p", one)]) := .members (.swap ..)
  have harray : (Json.array [one, .object [("p", one), ("q", .null)]]).Rearranged
      (.array [one, .object [("q", .null), ("p", one)], one]) :=
    (Json.Rearranged.item [one] [] hinner).trans
      ((Json.Rearranged.repeated List.mem_cons_self).trans (.items (.cons _ (.swap ..))))
  have hvw : v.Rearranged w :=
    (Json.Rearranged.member [] "a" [("b", .null)] harray).trans (.members (.swap ..))
  have hv : v.Keyed := by
    simp only [v, Json.keyed_object_iff, Json.keyed_array_iff, List.forall_mem_cons,
      List.not_mem_nil, false_imp_iff, implies_true, and_true]
    exact ⟨by decide, ⟨.number _, by decide, .number _, .null⟩, .null⟩
  exact ⟨⟨hv, hvw⟩, ofJson_rearranged .union hv hvw⟩

end Shape

end JsonShapes
