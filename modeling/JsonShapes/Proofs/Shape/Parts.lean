import JsonShapes.Proofs.Shape.EmptyArrays
import JsonShapes.Proofs.Shape.Widening
import Mathlib.Data.List.Permutation

/-!
# The parts of inferred shapes

All parts of an inferred shape, at any depth (`Shape.Within`), are well-formed and none of them is a
reference. What a policy does not resort to is found nowhere: no part is unknown where alternatives
are kept, and none is a union where positions are given up (`ofJson_parts`).

Neither is seen by following the joins, in which positions are given up or alternatives gathered
over and over. An unknown part would show every mark at its path, references included, and at the
end of a path an inferred shape shows no more than the values there do. And what is inferred when
positions are given up means the same as a widened shape, in which no union is left.

Parts are followed on two sides. A part of a shape is found again in any shape that means the same
(`Within.exists_same`), so that what is said of parts may be said of the widened shape; and
`unknown` within a shape is at the end of a path, where it would show (`exists_path_of_unknown`).
-/

namespace JsonShapes

open Sighting

namespace Shape

/-- The shape is the other or lies within it, at any depth. -/
inductive Within (part : Shape) : Shape → Prop
  | self : Within part part
  | element {e : Shape} (h : Within part e) : Within part (.array e)
  | content {fs : List (Field Shape)} {f : Field Shape} (order : List String) (hf : f ∈ fs)
      (h : Within part f.content) : Within part (.object fs order)
  | member {ms : List Shape} {m : Shape} (hm : m ∈ ms) (h : Within part m) :
      Within part (.union ms)

/-- An array of arrays, so many levels deep, of a shape. -/
def nested : Nat → Shape → Shape
  | 0, s => s
  | levels + 1, s => nested levels (.array s)

/-- One more level is one more array around all others. -/
theorem nested_succ (levels : Nat) (s : Shape) :
    nested (levels + 1) s = .array (nested levels s) := by
  induction levels generalizing s with
  | zero => rfl
  | succ levels ih => exact ih (.array s)

variable {s t part : Shape}

/-! ### Any parts -/

namespace Within

/-- The parts of a well-formed shape are well-formed. -/
theorem wellFormed (h : part.Within s) (hs : s.WellFormed) : part.WellFormed := by
  induction h with
  | self => exact hs
  | element _ ih =>
    cases hs with
    | array he => exact ih he
  | content _ hf _ ih =>
    cases hs with
    | object _ _ hcontents => exact ih (hcontents _ hf)
  | member hm _ ih =>
    cases hs with
    | union _ _ hmembers => exact ih (hmembers _ hm)

/-- What a part refers to the whole does. -/
theorem references_subset (h : part.Within s) : part.references ⊆ s.references := by
  induction h with
  | self => exact List.Subset.refl _
  | element _ ih => exact ih
  | content _ hf _ ih => exact fun id hid ↦ mem_references_object.2 ⟨_, hf, ih hid⟩
  | member hm _ ih => exact fun id hid ↦ mem_references_union.2 ⟨_, hm, ih hid⟩

/-- A shape that means the same has a part that means the same as the part. -/
theorem exists_same (h : part.Within s) (hst : s.same t = true) :
    ∃ part', part'.Within t ∧ part.same part' = true := by
  induction h generalizing t with
  | self => exact ⟨t, .self, hst⟩
  | element _ ih =>
    cases same_cases hst with
    | array hef =>
      obtain ⟨part', hpart', hsame⟩ := ih hef
      exact ⟨part', .element hpart', hsame⟩
  | content _ hf _ ih =>
    cases same_cases hst with
    | object halike =>
      obtain ⟨g, hg, hfg⟩ := exists_of_forall₂_left halike hf
      obtain ⟨part', hpart', hsame⟩ := ih hfg.content
      exact ⟨part', .content _ hg hpart', hsame⟩
  | member hm _ ih =>
    cases same_cases hst with
    | union hl _ =>
      obtain ⟨n, hn, hmn⟩ := hl _ hm
      obtain ⟨part', hpart', hsame⟩ := ih hmn
      exact ⟨part', .member hn hpart', hsame⟩

/-- An unknown part shows every mark at its path. -/
theorem exists_path_of_unknown (h : unknown.Within s) (hs : s.WellFormed) :
    ∃ path, ∀ m, s.Shows .union path m := by
  induction h with
  | self => exact ⟨[], .anything []⟩
  | element _ ih =>
    cases hs with
    | array he =>
      obtain ⟨path, hpath⟩ := ih he
      exact ⟨.item :: path, fun m ↦ .item (hpath m)⟩
  | @content fs f order hf _ ih =>
    cases hs with
    | object hincreasing _ hcontents =>
      obtain ⟨path, hpath⟩ := ih (hcontents f hf)
      have hget := (Field.get?_eq_some_iff hincreasing.nodup).2 ⟨hf, rfl⟩
      exact ⟨.member f.name :: path, fun m ↦ .member order hget (hpath m)⟩
  | member hm _ ih =>
    cases hs with
    | union _ _ hmembers =>
      obtain ⟨path, hpath⟩ := ih (hmembers _ hm)
      exact ⟨path, fun m ↦ .alternative rfl hm (hpath m)⟩

/-- Nothing within a widened shape is a union. -/
theorem ne_union_of_widen (h : part.Within s.widen) (ms : List Shape) : part ≠ .union ms := by
  induction s with
  | array e ih =>
    cases h with
    | self => exact nofun
    | element h => exact ih h
  | object fs order ih =>
    rw [widen_object] at h
    cases h with
    | self => exact nofun
    | content _ hg h =>
      obtain ⟨f, hf, rfl⟩ := List.mem_map.1 hg
      exact ih f hf h
  | _ =>
    cases h
    exact nofun

end Within

/-! ### Parts of inferred shapes -/

/-- The shape of a value shows no reference at its root. -/
theorem not_shows_ref_ofJson {value : Json} (h : value.Keyed) (id : Int) :
    ¬(ofJson .union value).Shows .union [] (.ref id) := by
  show Mark.ref id ∉ root (sightings .union (ofJson .union value))
  cases h with
  | array => simp
  | object hnodup => simp [root_sightings_ofJson_object hnodup]
  | _ => simp [ofJson, root_sightings_prim]

/-- Where alternatives are kept nothing is unknown: such a part would show a reference at its path,
and no value there does. -/
theorem not_within_unknown_ofJson {value : Json} (h : value.Keyed) :
    ¬unknown.Within (ofJson .union value) := by
  intro hwithin
  obtain ⟨path, hpath⟩ := hwithin.exists_path_of_unknown (wellFormed_ofJson h)
  have hshows : (ofJson .union value).Shows .union (path ++ []) (.ref 0) := by
    rw [List.append_nil]
    exact hpath _
  obtain ⟨v, hv, hv0⟩ := (sightings_ofJson_iff h path [] _).1 hshows
  exact not_shows_ref_ofJson (keyed_of_mem_valuesAt h hv) 0 hv0

/-- Where positions are given up no union is left, at any depth. -/
theorem not_within_union_ofJson {value : Json} (h : value.Keyed) (ms : List Shape) :
    ¬(union ms).Within (ofJson .unknown value) := by
  intro hwithin
  have hwidened : (ofJson .union value).widen.same (ofJson .unknown value) = true :=
    widen_same_of_sightings (wellFormed_ofJson h) (wellFormed_ofJson h)
      (sightings_ofJson_unknown h)
  obtain ⟨part, hpart, hsame⟩ := hwithin.exists_same (same_symm hwidened)
  cases same_cases hsame with
  | union => exact hpart.ne_union_of_widen _ rfl

/-- Every part of an inferred shape is well-formed and is no reference. If all alternatives are kept
none of them is unknown, and if positions are given up none is a union. -/
theorem ofJson_parts {policy : Policy} {value : Json} (h : value.Keyed)
    (hpart : part.Within (ofJson policy value)) :
    part.WellFormed ∧ (∀ id, part ≠ .ref id) ∧
      match policy with
      | .union => part ≠ unknown
      | .unknown => ∀ ms, part ≠ .union ms := by
  refine ⟨hpart.wellFormed (wellFormed_ofJson h), fun id hid ↦ ?_, ?_⟩
  · have hmem : id ∈ (ofJson policy value).references :=
      hpart.references_subset (hid ▸ List.mem_singleton_self id)
    rw [references_ofJson] at hmem
    exact List.not_mem_nil hmem
  · cases policy with
    | union => exact fun hunknown ↦ not_within_unknown_ofJson h (hunknown ▸ hpart)
    | unknown => exact fun ms hms ↦ not_within_union_ofJson h ms (hms ▸ hpart)

/-- A conflict below a field that comes and goes, in an object that is an alternative itself: the
alternatives of the field are a part. -/
theorem ofJson_parts_below_union :
    let value : Json := .array [.object [("a", .array [.number (.int 1), .string "x"])],
      .object [("b", .array []), ("a", .array [])], .null]
    let part : Shape := .union [.prim .number, .prim .string]
    (value.Keyed ∧ part.Within (ofJson .union value)) ∧
      part.WellFormed ∧ (∀ id, part ≠ .ref id) ∧ part ≠ unknown := by
  intro value part
  have hkeyed : value.Keyed := by
    refine .array ?_
    simp only [List.forall_mem_cons, List.not_mem_nil, false_imp_iff, implies_true, and_true]
    refine ⟨.object (by decide) ?_, .object (by decide) ?_, .null⟩
    · simpa using .array (by simpa using ⟨.number _, .string _⟩)
    · simpa using .array nofun
  have hinferred : ofJson .union value = .array (.union [.prim .null,
      .object [⟨"a", false, .array part⟩, ⟨"b", true, .emptyArray⟩] ["a", "b"]]) := by
    cbv
  have hwithin : part.Within (ofJson .union value) := by
    rw [hinferred]
    exact .element (.member (List.mem_cons_of_mem _ List.mem_cons_self)
      (.content _ List.mem_cons_self (.element .self)))
  exact ⟨⟨hkeyed, hwithin⟩, ofJson_parts hkeyed hwithin⟩

end Shape

end JsonShapes
