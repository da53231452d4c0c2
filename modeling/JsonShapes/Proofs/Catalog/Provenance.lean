import JsonShapes.Proofs.Catalog.Calls
import JsonShapes.Proofs.Catalog.Declaring
import JsonShapes.Proofs.Catalog.Deduplication
import Mathlib

/-!
# What a chain of declarations leaves

A chain of declarations adds to the places of each number the labels of the parts that bear it
(`Declares.placesOf_eq`), and declares the parts that no declaration unfolded to before, each once
and in the order in which they come (`Declares.shapes_eq`). Both go by induction on the chain; the
second rests on the catalog being tidy, in which what unfolds to the same has the same number.

Hoisting is such a chain (`Shape.performs_hoist`), in every catalog that conversions and
declarations of their outcomes lead to (`hoist_provenance`).

Both invariants are about the catalog after the first parts of a chain, and a part more changes them
by one declaration (`placesOf_of_declare`, `Tidy.shapes_of_declare`). Either its shape was there,
and its number gets the label, or it is new, and takes the next number with this label alone.

Numbers are consecutive for the same reason: the next number is one more than the last, so the
shapes that a chain declares anew have the numbers from the next one on, in the order of the chain
(`map_number_newParts`).
-/

namespace JsonShapes

open Shape Hoisting

namespace Catalog

variable {c c' c₁ : Catalog} {number : Shape → Int} {s t : Shape} {id : Int} {place : String}
  {parts : List (Shape × String)}

/-! ### Which shapes are declared -/

/-- Some declaration unfolds to the shape. -/
def declares (c : Catalog) (s : Shape) : Bool :=
  c.shapes.any fun entry ↦ (c.unfold entry.2).same s

/-- The shapes among parts that no declaration unfolds to, each where it comes first. -/
def newParts (c : Catalog) (parts : List (Shape × String)) : List Shape :=
  distinct ((parts.map (·.1)).filter fun s ↦ !c.declares s)

theorem declares_eq_true_iff : c.declares s = true ↔
    ∃ entry ∈ c.shapes, (c.unfold entry.2).same s = true :=
  List.any_eq_true

/-- A shape is declared exactly if some reference represents it. -/
theorem Sound.declares_iff (hc : Sound Sorted c) :
    c.declares s = true ↔ ∃ id, c.Represents (.ref id) s := by
  rw [declares_eq_true_iff]
  constructor
  · rintro ⟨entry, hentry, hsame⟩
    obtain ⟨⟨id, d⟩, hslot, rfl⟩ := List.mem_map.1 hentry
    exact ⟨id, represents_ref hc ((Entries.lookup_eq_some_iff hc.ids_nodup).2 hslot) hsame⟩
  · rintro ⟨id, hid⟩
    obtain ⟨d, hd⟩ := Sound.exists_of_contains (hid.known id (List.mem_singleton_self id))
    refine ⟨(id, d.shape), List.mem_map_of_mem (Entries.mem_of_lookup_eq_some hd), ?_⟩
    rw [← hc.unfold_ref hd]
    exact hid.unfold_same

/-- In a tidy catalog one reference represents a shape. -/
theorem Tidy.eq_of_represents (hc : c.Tidy) {i j : Int} (hi : c.Represents (.ref i) s)
    (hj : c.Represents (.ref j) s) : i = j :=
  hc.eq_of_unfold_same (hi.known i (List.mem_singleton_self i))
    (hj.known j (List.mem_singleton_self j)) (same_trans hi.unfold_same (same_symm hj.unfold_same))

/-- One part more is new unless it is declared or came before. -/
theorem newParts_concat (parts : List (Shape × String)) (s : Shape) (place : String) :
    c.newParts (parts ++ [(s, place)]) =
      if c.declares s || anySame (c.newParts parts) s then c.newParts parts
      else c.newParts parts ++ [s] := by
  rw [newParts, List.map_append, List.filter_append]
  cases hs : c.declares s with
  | true =>
    rw [Bool.true_or, if_pos rfl, newParts]
    simp [hs]
  | false =>
    rw [Bool.false_or, newParts, ← distinct_concat]
    simp [hs]

/-! ### One declaration -/

/-- Declaring a shape adds the place to its number, unless it is there, and leaves all other numbers
alone. -/
theorem placesOf_of_declare (hc : Sound Sorted c) (h : c.declare t place = .ok (id, c'))
    (other : Int) :
    c'.placesOf other = (c.placesOf other ++ if id = other then [place] else []).eraseDups := by
  obtain ⟨hothers, d', hd', hplaces⟩ := lookup_of_declare hc h
  by_cases hother : id = other
  · rw [if_pos hother, ← hother, placesOf_of_lookup hd', hplaces]
  · rw [if_neg hother, List.append_nil, eraseDups_of_nodup (hc.nodup_placesOf other), placesOf,
      hothers other (Ne.symm hother)]
    rfl

/-- What stands for a shape is declared exactly if nothing was declared for the shape before. -/
theorem Tidy.shapes_of_declare (hc : c.Tidy) (h : c.Embodies t s)
    (hrun : c.declare t place = .ok (id, c')) :
    c'.Tidy ∧ c'.Represents (.ref id) s ∧ c.shapes <+: c'.shapes ∧
      c'.shapes = if c.declares s then c.shapes else c.shapes ++ [(id, t)] := by
  have hdeclare := Hoisting.declare_apply_eq_ok_iff.2 hrun
  obtain ⟨hreaches, -, htidy, hid⟩ := (records_declare hc.sound h place).of_run hdeclare
  have hinitial := hreaches.shapes_initial hc.sound
  refine ⟨htidy hc, hid, hinitial, ?_⟩
  rcases Catalog.shapes_of_declare hc.sound hrun with ⟨hknown, hshapes⟩ | ⟨hfresh, hshapes⟩
  · have hbefore := hid.of_initial hinitial fun r hr ↦ List.mem_singleton.1 hr ▸ hknown
    rw [if_pos (hc.sound.declares_iff.2 ⟨id, hbefore⟩), hshapes]
  · refine (if_neg fun hdeclared ↦ ?_).symm ▸ hshapes
    -- what was declared before is found again under its own number
    obtain ⟨j, hj⟩ := hc.sound.declares_iff.1 hdeclared
    obtain rfl := (htidy hc).eq_of_represents (hj.mono hinitial) hid
    exact absurd (hfresh.symm.trans (hj.known j (List.mem_singleton_self j))) Bool.false_ne_true

/-! ### Chains -/

namespace Declares

/-- A chain keeps a catalog tidy and its declarations as they are, and in the end each part is
represented by its number and by what was declared for it. -/
theorem keeps (h : Declares number c parts c') (hc : c.Tidy) :
    c'.Tidy ∧ c.shapes <+: c'.shapes ∧ ∀ part ∈ parts, c'.Represents (.ref (number part.1)) part.1 ∧
      c'.Represents (part.1.body number) part.1 := by
  induction h with
  | nil => exact ⟨hc, List.prefix_refl _, nofun⟩
  | @concat c₁ c' s place parts _ hembodies hrun ih =>
    obtain ⟨hc₁, hinitial, hparts⟩ := ih
    obtain ⟨hc', hid, hinitial', -⟩ := hc₁.shapes_of_declare hembodies hrun
    refine ⟨hc', hinitial.trans hinitial', List.forall_mem_append.2 ⟨fun part hpart ↦ ?_, ?_⟩⟩
    · exact (hparts part hpart).imp (·.mono hinitial') (·.mono hinitial')
    · exact List.forall_mem_singleton.2 ⟨hid, hembodies.toRepresents.mono hinitial'⟩

/-- Each number gets the labels of the parts that bear it, in their order, those that it had not. -/
theorem placesOf_eq (h : Declares number c parts c') (hc : c.Tidy) (id : Int) :
    c'.placesOf id = (c.placesOf id ++
      (parts.filter fun part ↦ number part.1 = id).map (·.2)).eraseDups := by
  induction h with
  | nil =>
    rw [List.filter_nil, List.map_nil, List.append_nil,
      eraseDups_of_nodup (hc.sound.nodup_placesOf id)]
  | @concat c₁ c' s place parts hfirst _ hrun ih =>
    have hlast : ([(s, place)].filter fun part : Shape × String ↦ number part.1 = id).map (·.2) =
        if number s = id then [place] else [] := by
      by_cases hs : number s = id <;> simp [hs]
    rw [placesOf_of_declare (hfirst.keeps hc).1.sound hrun, ih, eraseDups_eraseDups_append,
      List.filter_append, List.map_append, hlast, List.append_assoc]

/-- What is declared in the end was declared before or is one of the new parts. -/
theorem declares_eq (h : Declares number c parts c') (hc : c.Tidy)
    (hshapes : c'.shapes = c.shapes ++ (c.newParts parts).map fun s ↦ (number s, s.body number))
    (s : Shape) : c'.declares s = (c.declares s || anySame (c.newParts parts) s) := by
  obtain ⟨hc', hinitial, hparts⟩ := h.keeps hc
  have hold : ∀ entry ∈ c.shapes, c'.unfold entry.2 = c.unfold entry.2 := by
    intro entry hentry
    obtain ⟨slot, hslot, rfl⟩ := List.mem_map.1 hentry
    exact unfold_eq_of_initial hinitial (hc.sound.known hslot)
  have hnew : ∀ m ∈ c.newParts parts, (c'.unfold (m.body number)).same m = true := by
    intro m hm
    obtain ⟨part, hpart, rfl⟩ := List.mem_map.1 (List.mem_filter.1 (mem_of_mem_distinct hm)).1
    exact (hparts part hpart).2.unfold_same
  rw [Bool.eq_iff_iff, Bool.or_eq_true, declares_eq_true_iff, declares_eq_true_iff, anySame_iff,
    hshapes]
  constructor
  · rintro ⟨entry, hentry, hsame⟩
    rcases List.mem_append.1 hentry with hentry | hentry
    · exact .inl ⟨entry, hentry, hold entry hentry ▸ hsame⟩
    · obtain ⟨m, hm, rfl⟩ := List.mem_map.1 hentry
      exact .inr ⟨m, hm, same_trans (same_symm (hnew m hm)) hsame⟩
  · rintro (⟨entry, hentry, hsame⟩ | ⟨m, hm, hsame⟩)
    · exact ⟨entry, List.mem_append_left _ hentry, (hold entry hentry).symm ▸ hsame⟩
    · exact ⟨_, List.mem_append_right _ (List.mem_map_of_mem hm), same_trans (hnew m hm) hsame⟩

/-- The new parts are declared, in their order, and nothing else is. -/
theorem shapes_eq (h : Declares number c parts c') (hc : c.Tidy) :
    c'.shapes = c.shapes ++ (c.newParts parts).map fun s ↦ (number s, s.body number) := by
  induction h with
  | nil => exact (List.append_nil _).symm
  | @concat c₁ c' s place parts hfirst hembodies hrun ih =>
    obtain ⟨-, -, -, hshapes⟩ := (hfirst.keeps hc).1.shapes_of_declare hembodies hrun
    rw [hshapes, newParts_concat, hfirst.declares_eq hc ih]
    split
    · exact ih
    · rw [ih, List.map_append, List.append_assoc]
      rfl

/-- The numbers of the new parts are the next ones. -/
theorem map_number_newParts (h : Declares number c parts c') (hc : c.Tidy) :
    (c.newParts parts).map number =
      (List.range (c.newParts parts).length).map fun n : Nat ↦ c.nextId + n := by
  have hids : ∀ {c : Catalog}, c.Tidy →
      c.shapes.map (·.1) = (List.range c.shapes.length).map fun n : Nat ↦ (n : Int) + 1 := by
    intro c hc
    rw [map_fst_shapes, hc.sound.ids, shapes, List.length_map]
  have hnext : c.nextId = c.shapes.length + 1 := by
    rw [hc.sound.nextId_eq, shapes, List.length_map]
  have hends := hids (h.keeps hc).1
  rw [h.shapes_eq hc, List.map_append, hids hc, List.length_append, List.length_map, List.range_add,
    List.map_append, List.append_cancel_left_eq, List.map_map, List.map_map] at hends
  refine hends.trans (List.map_congr_left fun n _ ↦ ?_)
  show ((c.shapes.length + n : Nat) : Int) + 1 = c.nextId + n
  omega

end Declares

/-! ### Hoisting -/

/-- Provenance and numbers are exact. In every catalog that conversions and declarations of their
outcomes lead to, hoisting a shape does what declaring its named parts one after another does, an
array being one of these if its element is left as a reference. So each declaration has the labels
of its new occurrences after those that it had, and no others, and what was not declared gets the
next numbers in the order in which it comes first. -/
theorem hoist_provenance {uses : List Use} (h : ∀ use ∈ uses, use.Keyed) :
    ∃ converted c, Use.runAll uses empty = (.ok converted, c) ∧
      (∀ policy value, value.Keyed → (ofJson policy value).Closed) ∧
      ∀ s : Shape, s.Closed → ∀ document pointer, ∃ c',
        let parts := s.namedParts document pointer
        let number := c'.numberOf
        s.hoist document pointer c = (.ok (s.standIn number), c') ∧
          parts.mapM (fun part ↦ Hoisting.declare (part.1.body number) part.2) c =
            (.ok (parts.map fun part ↦ number part.1), c') ∧
          (∀ e : Shape, e.references = [] →
            (e.isNamed = true ↔ ∃ id, e.standIn number = .ref id)) ∧
          (∀ part ∈ parts, ∃ d, c'.slots.lookup (number part.1) = some d ∧
            (c'.unfold d.shape).same part.1 = true) ∧
          (∀ id, c'.placesOf id = (c.placesOf id ++
            (parts.filter fun part ↦ number part.1 = id).map (·.2)).eraseDups) ∧
          c'.shapes = c.shapes ++ (c.newParts parts).map (fun s ↦ (number s, s.body number)) ∧
          (c.newParts parts).map number =
            (List.range (c.newParts parts).length).map fun n : Nat ↦ c.nextId + n := by
  obtain ⟨converted, c, hrun, -, hc, -⟩ := Use.yields_foldlM h tidy_empty .nil
  refine ⟨converted, c, hrun, fun policy value ↦ closed_ofJson policy, ?_⟩
  intro s hs document pointer
  obtain ⟨t, c', hhoist, hreaches, hperforms⟩ :=
    performs_hoist document hs.wellFormed hs.references_eq_nil pointer hc.sound
  have htidy : c'.Tidy := by
    have hrecords := records_hoist document hs.wellFormed hs.references_eq_nil pointer hc.sound
    exact (hrecords.of_run hhoist).2.2.1 hc
  -- the numbers are taken from the catalog at the end, and were right all along
  obtain ⟨hdeclares, rfl⟩ := hperforms c'.numberOf htidy.numbers_numberOf
  refine ⟨c', hhoist, hdeclares.mapM_declare, fun e he ↦ isNamed_iff_standIn he, ?_,
    hdeclares.placesOf_eq hc, hdeclares.shapes_eq hc, hdeclares.map_number_newParts hc⟩
  intro part hpart
  have hid := ((hdeclares.keeps hc).2.2 part hpart).1
  obtain ⟨d, hd⟩ := Sound.exists_of_contains (hid.known _ (List.mem_singleton_self _))
  exact ⟨d, hd, htidy.sound.unfold_ref hd ▸ hid.unfold_same⟩

/-- After a document without items, an array of such is met at two places, one of them within a
union, and what was declared for the document is met at three. -/
theorem hoist_provenance_repeated :
    let uses : List Use := [.convert .union "1.json" (.array []), .declareRoot 0 "1.json"]
    let s : Shape := .object [⟨"a", false, .emptyArray⟩, ⟨"b", false, .array .emptyArray⟩,
      ⟨"c", true, .union [.prim .null, .array .emptyArray]⟩] ["b", "c", "a"]
    let parts : List (Shape × String) := [(.emptyArray, "2.json#/b/*"),
      (.array .emptyArray, "2.json#/b"), (.emptyArray, "2.json#/c/*"),
      (.array .emptyArray, "2.json#/c"), (.emptyArray, "2.json#/a"), (s, "2.json")]
    ((∀ use ∈ uses, use.Keyed) ∧ s.Closed ∧ s.namedParts "2.json" "" = parts) ∧
      ∃ converted c, Use.runAll uses empty = (.ok converted, c) ∧
        ∃ c', s.hoist "2.json" "" c = (.ok (s.standIn c'.numberOf), c') ∧
          (∀ id, c'.placesOf id = (c.placesOf id ++
            (parts.filter fun part ↦ c'.numberOf part.1 = id).map (·.2)).eraseDups) ∧
          (c.newParts parts).map c'.numberOf =
            (List.range (c.newParts parts).length).map fun n : Nat ↦ c.nextId + n := by
  intro uses s parts
  have huses : ∀ use ∈ uses, use.Keyed := by
    simp only [uses, List.forall_mem_cons, List.not_mem_nil, false_imp_iff, implies_true, and_true]
    exact ⟨.array nofun, trivial⟩
  have hs : s.Closed := by
    refine ⟨.object (by decide) (by decide) ?_, by decide⟩
    simp only [List.forall_mem_cons, List.not_mem_nil, false_imp_iff, implies_true, and_true]
    refine ⟨.emptyArray, .array .emptyArray, .union (by decide) ?_ ?_⟩
    · exact ⟨by decide, by decide, by decide, by decide⟩
    · simpa using ⟨.prim .null, .array .emptyArray⟩
  have hparts : s.namedParts "2.json" "" = parts := by cbv
  obtain ⟨converted, c, hrun, -, hhoist⟩ := hoist_provenance huses
  obtain ⟨c', hc', -, -, -, hplaces, -, hnumbers⟩ := hhoist s hs "2.json" ""
  rw [hparts] at hplaces hnumbers
  exact ⟨⟨huses, hs, hparts⟩, converted, c, hrun, c', hc', hplaces, hnumbers⟩

end Catalog

end JsonShapes
