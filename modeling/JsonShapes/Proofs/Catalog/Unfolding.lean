import JsonShapes.Proofs.Catalog.Changes
import JsonShapes.Proofs.Shape.Key
import JsonShapes.Proofs.Shape.Resolution

/-!
# Unfolding against a catalog

To unfold a shape is to put, for every reference in it, the shape declared under that number,
unfolded in turn. As declarations refer backwards, one pass over them in their order unfolds all of
them (`Catalog.unfolded`), and a reference unfolds to what its declaration does
(`Sound.unfold_ref`), and nothing that refers to anything is left (`Sound.references_unfold`).
Declarations made later make no difference to what can be unfolded now (`unfold_eq_of_initial`).

Unfolding is a function on catalogs and not a relation, though it follows references: the pass goes
over the list of declarations, so it ends for any list. Only that it replaces all references needs
them to lead backwards, and in a sound catalog they do.
-/

namespace JsonShapes.Catalog

/-- Numbered shapes with the references in each replaced by what the numbers before it stand for,
which has none left if all of them refer backwards. -/
def unfolded (shapes : List (Int × Shape)) : List (Int × Shape) :=
  shapes.foldl (fun known (id, s) ↦ known ++ [(id, s.resolve fun r ↦ known.lookup r)]) []

/-- The shape with every reference replaced by the declared shape, itself unfolded. -/
def unfold (c : Catalog) (s : Shape) : Shape :=
  s.resolve fun r ↦ (unfolded c.shapes).lookup r

theorem unfolded_concat (shapes : List (Int × Shape)) (id : Int) (s : Shape) :
    unfolded (shapes ++ [(id, s)]) =
      unfolded shapes ++ [(id, s.resolve fun r ↦ (unfolded shapes).lookup r)] := by
  rw [unfolded, List.foldl_append]
  rfl

/-- The numbers stay. -/
theorem map_fst_unfolded (shapes : List (Int × Shape)) :
    (unfolded shapes).map (·.1) = shapes.map (·.1) := by
  induction shapes using List.reverseRecOn with
  | nil => rfl
  | append_singleton shapes entry ih =>
    rw [unfolded_concat, List.map_append, List.map_append, ih]
    rfl

/-- Further shapes leave what the numbers before them stand for. -/
theorem unfolded_initial {shapes more : List (Int × Shape)} (h : shapes <+: more) :
    unfolded shapes <+: unfolded more := by
  obtain ⟨rest, rfl⟩ := h
  induction rest using List.reverseRecOn with
  | nil => exact ⟨[], by simp⟩
  | append_singleton rest entry ih =>
    rw [← List.append_assoc, unfolded_concat]
    exact ih.trans (List.prefix_append _ _)

/-- What a number stands for is settled once it is declared. -/
theorem lookup_unfolded_of_initial {shapes more : List (Int × Shape)} (h : shapes <+: more)
    {id : Int} (hid : id ∈ shapes.map (·.1)) :
    (unfolded more).lookup id = (unfolded shapes).lookup id := by
  obtain ⟨rest, hrest⟩ := unfolded_initial h
  rw [← map_fst_unfolded] at hid
  rw [← hrest, List.lookup_append]
  cases hlookup : (unfolded shapes).lookup id with
  | none => exact absurd hid (Entries.lookup_eq_none_iff.1 hlookup)
  | some s => rfl

variable {allowed : Shape → Prop} {c c' : Catalog}

theorem map_fst_shapes (c : Catalog) : c.shapes.map (·.1) = c.slots.map (·.1) := by
  rw [shapes, List.map_map]
  rfl

theorem contains_eq_true_iff {id : Int} : c.contains id = true ↔ id ∈ c.shapes.map (·.1) := by
  rw [map_fst_shapes, contains, Option.isSome_iff_ne_none, ne_eq, Entries.lookup_eq_none_iff,
    not_not]

/-- What can be unfolded in a catalog is unfolded alike in all that come of it. -/
theorem unfold_eq_of_initial (h : c.shapes <+: c'.shapes) {s : Shape}
    (hs : ∀ r ∈ s.references, c.contains r = true) : c'.unfold s = c.unfold s :=
  Shape.resolve_congr fun r hr ↦ lookup_unfolded_of_initial h (contains_eq_true_iff.1 (hs r hr))

theorem contains_of_initial (h : c.shapes <+: c'.shapes) {id : Int} (hid : c.contains id = true) :
    c'.contains id = true := by
  rw [contains_eq_true_iff] at hid ⊢
  exact (h.map _).subset hid

/-- A reference unfolds to what its declaration does. The pass resolves a declaration with what it
knows of those before it, and a sound catalog refers to nothing else. -/
theorem Sound.unfold_ref (h : Sound allowed c) {id : Int} {d : Declaration}
    (hd : c.slots.lookup id = some d) : c.unfold (.ref id) = c.unfold d.shape := by
  have hmem := Entries.mem_of_lookup_eq_some hd
  obtain ⟨before, after, hslots⟩ := List.append_of_mem hmem
  set known := before.map fun slot : Int × Declaration ↦ (slot.1, slot.2.shape) with hknown
  have hinitial : known ++ [(id, d.shape)] <+: c.shapes := by
    refine ⟨after.map fun slot ↦ (slot.1, slot.2.shape), ?_⟩
    rw [shapes, hslots, List.map_append, List.map_cons, List.append_assoc]
    rfl
  have hnodup : (known.map (·.1) ++ [id]).Nodup := by
    have hids := (hinitial.map (·.1)).sublist.nodup (map_fst_shapes c ▸ h.ids_nodup)
    simpa using hids
  -- the declarations before this one are those that it may refer to
  have hbefore : ∀ r ∈ d.shape.references, r ∈ known.map (·.1) := by
    intro r hr
    obtain ⟨hpos, hlt⟩ := (h.fits _ hmem).backward r hr
    have hid := h.mem_ids.1 (List.mem_map_of_mem (f := fun slot ↦ slot.1) hmem)
    have hr := h.mem_ids.2 ⟨hpos, hlt.trans hid.2⟩
    have hincreasing := h.ids_increasing
    rw [hslots, List.map_append, List.map_cons] at hr hincreasing
    rw [hknown, List.map_map]
    rcases List.mem_append.1 hr with hr | hr
    · exact hr
    · rcases List.mem_cons.1 hr with rfl | hr
      · exact absurd hlt (lt_irrefl _)
      · have hafter := (List.pairwise_cons.1 (List.pairwise_append.1 hincreasing).2.1).1 r hr
        exact absurd hlt (lt_asymm hafter)
  -- the pass looked at the declaration when it knew just those before it
  have hlookup : (unfolded c.shapes).lookup id =
      some (d.shape.resolve fun r ↦ (unfolded known).lookup r) := by
    rw [lookup_unfolded_of_initial hinitial (by simp), unfolded_concat, List.lookup_append,
      Entries.lookup_eq_none_iff.2]
    · simp
    · rw [map_fst_unfolded]
      exact fun hid ↦ (List.nodup_append.1 hnodup).2.2 id hid id (by simp) rfl
  show ((unfolded c.shapes).lookup id).getD (.ref id) = _
  rw [hlookup]
  exact Shape.resolve_congr fun r hr ↦ (lookup_unfolded_of_initial
    ((List.prefix_append _ _).trans hinitial) (hbefore r hr)).symm

/-- Unfolding leaves no reference, if all lead to declarations. -/
theorem Sound.references_unfold (h : Sound allowed c) {s : Shape}
    (hs : ∀ r ∈ s.references, c.contains r = true) : (c.unfold s).references = [] := by
  refine Shape.references_resolve_eq_nil fun id hid ↦ h.induction_on
    (motive := fun id ↦ (c.unfold (.ref id)).references = []) ?_ (hs id hid)
  intro id d hd ih
  rw [h.unfold_ref hd]
  exact Shape.references_resolve_eq_nil fun r hr ↦ (ih r hr).2

end JsonShapes.Catalog
