import JsonShapes.Proofs.Catalog.Documents

/-!
# One declaration for one shape

A catalog is used by converting values, under any policy and for any document, and by declaring what
earlier conversions gave (`Catalog.Use`). Whatever the uses, in whatever order, what is noted hangs
on the shapes inferred alone (`Use.records_foldlM`), the catalog is tidy in the end, and what each
conversion gave denotes the shape that it started from (`Use.yields_foldlM`). So no shape is
declared twice, and of two conversions the outcomes are the same exactly if the shapes are
(`runAll_exact`).

A use may refer to what an earlier use gave, so a sequence of uses carries the list of what
conversions gave so far (`Use.run`), and beside it, in the proofs, the list of the shapes that they
started from. The invariant relates the two item by item: each denotes the other in the catalog as
it is then, and goes on doing so, as declarations stay.

## Both directions of exactness

* That equal shapes give equal outcomes is deduplication: the key of a shape leads to the
  declaration that was made first.
* That different shapes give different outcomes is what keeps deduplication from going too far. It
  does not follow from the run but from the catalog in the end: an outcome unfolds to the shape that
  it came from, and unfolding is a function.

In a tidy catalog both are one equivalence (`Tidy.same_eq`).
-/

namespace JsonShapes

open Shape

namespace Catalog

variable {c c' : Catalog}

/-- One use of a catalog. -/
inductive Use where
  /-- A value is converted for a document. -/
  | convert (policy : Policy) (document : String) (value : Json)
  /-- What one of the conversions so far gave is declared for a document. -/
  | declareRoot (conversion : Nat) (document : String)

namespace Use

/-- The shape that is inferred, if a value is converted. -/
def inferred? : Use → Option Shape
  | convert policy _ value => some (ofJson policy value)
  | declareRoot .. => none

/-- A value that is converted has no name twice in an object. -/
def Keyed : Use → Prop
  | convert _ _ value => value.Keyed
  | declareRoot .. => True

/-- What conversions gave after a use, from what they gave before. Of a conversion that was never
made nothing is declared. -/
def run (converted : List Shape) : Use → Hoisting (List Shape)
  | convert policy document value => do
    return converted ++ [← Hoisting.addValue policy document value]
  | declareRoot conversion document =>
    match converted[conversion]? with
    | some t => do
      let _ ← Hoisting.declareRoot t document
      return converted
    | none => return converted

/-- What conversions gave after uses one after another, in the order of the conversions. -/
def runAll (uses : List Use) : Hoisting (List Shape) :=
  uses.foldlM run []

/-- The notes that a use makes, from what the conversions before it started from. -/
def notes (inferred : List Shape) : Use → Set (Shape × String)
  | convert policy document value => (ofJson policy value).occurrences document ""
  | declareRoot conversion document =>
    match inferred[conversion]? with
    | some s => if s.isNamed then ∅ else s.note document
    | none => ∅

/-- The notes that uses make one after another. -/
def notesOfAll (inferred : List Shape) : List Use → Set (Shape × String)
  | [] => ∅
  | use :: uses => use.notes inferred ∪ notesOfAll (inferred ++ use.inferred?.toList) uses

/-- A use succeeds and makes its notes, and in the catalog that it leaves conversions denote what
they started from. -/
theorem records_run {use : Use} (h : use.Keyed) {converted inferred : List Shape}
    (hc : Sound Sorted c) (hconverted : List.Forall₂ c.Denotes converted inferred) :
    Hoisting.Records c (use.run converted) (use.notes inferred) fun c' converted' ↦
      List.Forall₂ c'.Denotes converted' (inferred ++ use.inferred?.toList) := by
  cases use with
  | convert policy document value =>
    refine (records_addValue policy document h hc).map fun c' t hreaches ht ↦ ?_
    have hkept := hconverted.imp fun _ _ hts ↦ hts.mono (hreaches.shapes_initial hc)
    exact List.rel_append hkept (.cons ht .nil)
  | declareRoot conversion document =>
    rw [inferred?, Option.toList_none, List.append_nil, run, notes]
    have hrel : Option.Rel c.Denotes converted[conversion]? inferred[conversion]? :=
      rel_getElem?_of_forall₂ hconverted conversion
    generalize converted[conversion]? = t?, inferred[conversion]? = s? at hrel ⊢
    cases hrel with
    | none => exact .pure hconverted
    | some hts =>
      refine (records_declareRoot hc hts document).map fun c' id hreaches _ ↦ ?_
      exact hconverted.imp fun _ _ hts ↦ hts.mono (hreaches.shapes_initial hc)

/-- Uses one after another make their notes, and all conversions denote what they started from in
the catalog at the end. -/
theorem records_foldlM {uses : List Use} (h : ∀ use ∈ uses, use.Keyed)
    {converted inferred : List Shape} (hc : Sound Sorted c)
    (hconverted : List.Forall₂ c.Denotes converted inferred) :
    Hoisting.Records c (uses.foldlM run converted) (notesOfAll inferred uses) fun c' converted' ↦
      List.Forall₂ c'.Denotes converted' (inferred ++ uses.filterMap inferred?) := by
  induction uses generalizing c converted inferred with
  | nil =>
    rw [List.filterMap_nil, List.append_nil]
    exact .pure hconverted
  | cons use uses ih =>
    obtain ⟨huse, huses⟩ := List.forall_mem_cons.1 h
    have hinferred : inferred ++ (use :: uses).filterMap inferred? =
        inferred ++ use.inferred?.toList ++ uses.filterMap inferred? := by
      rw [List.append_assoc]
      cases hs : use.inferred? <;> simp [hs]
    rw [List.foldlM_cons, hinferred]
    exact (records_run huse hc hconverted).bind fun c' converted' hreaches hconverted' ↦
      ih huses (hreaches.sound hc) hconverted'

/-- Uses leave a tidy catalog tidy, and in it conversions denote what they started from. -/
theorem yields_foldlM {uses : List Use} (h : ∀ use ∈ uses, use.Keyed)
    {converted inferred : List Shape} (hc : c.Tidy)
    (hconverted : List.Forall₂ c.Denotes converted inferred) :
    Hoisting.Yields Sorted c (uses.foldlM run converted) fun c' converted' ↦
      c'.Tidy ∧ List.Forall₂ c'.Denotes converted' (inferred ++ uses.filterMap inferred?) := by
  obtain ⟨converted', c', hrun, hreaches, -, htidy, hconverted'⟩ :=
    records_foldlM h hc.sound hconverted
  exact ⟨converted', c', hrun, hreaches, htidy hc, hconverted'⟩

end Use

/-- In a tidy catalog, what denotes two shapes is the same exactly if they are. -/
theorem Tidy.same_eq (hc : c.Tidy) {t s t' s' : Shape} (h : c.Denotes t s)
    (h' : c.Denotes t' s') : t.same t' = s.same s' := by
  refine Bool.eq_iff_iff.2 ⟨fun hsame ↦ ?_, fun hsame ↦ ?_⟩
  · exact same_trans (same_symm h.unfold_same) (same_trans (same_resolve hsame) h'.unfold_same)
  · refine hc.same_of_unfold_same h.settled h'.settled h.known h'.known ?_
    exact same_trans h.unfold_same (same_trans hsame (same_symm h'.unfold_same))

/-- Deduplication is exact. Whatever values are converted and whichever outcomes are declared,
every declaration unfolds to a shape without references, declarations with different numbers to
different ones, and what two conversions gave is the same exactly if the shapes inferred are. -/
theorem runAll_exact {uses : List Use} (h : ∀ use ∈ uses, use.Keyed) :
    ∃ converted c, Use.runAll uses empty = (.ok converted, c) ∧
      (∀ i d, c.slots.lookup i = some d → (c.unfold d.shape).references = [] ∧
        ∀ j e, c.slots.lookup j = some e → i ≠ j →
          (c.unfold d.shape).same (c.unfold e.shape) = false) ∧
      converted.length = (uses.filterMap Use.inferred?).length ∧
      ∀ p ∈ converted.zip (uses.filterMap Use.inferred?),
        ∀ q ∈ converted.zip (uses.filterMap Use.inferred?), p.1.same q.1 = p.2.same q.2 := by
  obtain ⟨converted, c, hrun, -, hc, hconverted⟩ := Use.yields_foldlM h tidy_empty .nil
  obtain ⟨hlength, hdenotes⟩ := List.forall₂_iff_zip.1 hconverted
  refine ⟨converted, c, hrun, fun i d hd ↦ ⟨?_, fun j e he hne ↦ ?_⟩, hlength,
    fun p hp q hq ↦ hc.same_eq (hdenotes hp) (hdenotes hq)⟩
  · exact hc.sound.references_unfold (hc.sound.known (Entries.mem_of_lookup_eq_some hd))
  · rw [← hc.sound.unfold_ref hd, ← hc.sound.unfold_ref he, Bool.eq_false_iff]
    exact fun hsame ↦ hne (hc.eq_of_unfold_same (Sound.contains_of_lookup hd)
      (Sound.contains_of_lookup he) hsame)

/-- An array that is declared inline for one document, lies within an object of the next, and comes
again under the other policy; and two objects whose fields came in different orders, one of them
within a union. -/
theorem runAll_exact_inline :
    let uses : List Use := [.convert .union "1.json" (.array [.number (.int 1)]),
      .declareRoot 0 "1.json",
      .convert .union "2.json" (.object [("b", .array [.number (.int 2)]), ("a", .array [])]),
      .convert .unknown "3.json" (.array [.number (.int 3)]), .declareRoot 2 "4.json",
      .declareRoot 9 "5.json",
      .convert .union "6.json" (.array [.null,
        .object [("a", .array []), ("b", .array [.number (.int 4)])]])]
    (∀ use ∈ uses, use.Keyed) ∧
      ∃ converted c, Use.runAll uses empty = (.ok converted, c) ∧
        (∀ i d, c.slots.lookup i = some d → (c.unfold d.shape).references = [] ∧
          ∀ j e, c.slots.lookup j = some e → i ≠ j →
            (c.unfold d.shape).same (c.unfold e.shape) = false) ∧
        converted.length = (uses.filterMap Use.inferred?).length ∧
        ∀ p ∈ converted.zip (uses.filterMap Use.inferred?),
          ∀ q ∈ converted.zip (uses.filterMap Use.inferred?), p.1.same q.1 = p.2.same q.2 := by
  intro uses
  have hnumbers : ∀ n : Number, (Json.array [.number n]).Keyed :=
    fun n ↦ .array (by simpa using .number n)
  have hempty : (Json.array []).Keyed := .array nofun
  have huses : ∀ use ∈ uses, use.Keyed := by
    simp only [uses, List.forall_mem_cons, List.not_mem_nil, false_imp_iff, implies_true, and_true]
    refine ⟨hnumbers _, trivial, .object (by decide) ?_, hnumbers _, trivial, trivial, .array ?_⟩
    · simpa using ⟨hnumbers _, hempty⟩
    · simpa using ⟨.null, .object (by decide) (by simpa using ⟨hempty, hnumbers _⟩)⟩
  exact ⟨huses, runAll_exact huses⟩

end Catalog

end JsonShapes
