import JsonShapes.Proofs.Catalog.Conformance
import JsonShapes.Proofs.Catalog.Hoisting

/-!
# Documents conform to what is declared for them

Documents are added to one catalog, one after another. The declaration that stands for a document
represents the shape of its value (`yields_addDocument`) and continues to do so while others are
added. A value conforms to every representation of its shape (`conforms_of_represents`), so in the
end each document conforms to its declaration (`addDocuments_conform`). What the catalog notes
meanwhile is put together from the notes for each document (`records_addDocuments`).

Conformance is first proved for the unfolded declaration, which is the shape of the value up to the
order of members and enumerations, and then taken back along references (`Conforms.of_unfold`). That
terminates as declarations refer backwards.

## Main results

* `records_addDocument` and `records_addDocuments`: adding documents succeeds, keeps the catalog
  tidy, and notes just what the documents give rise to.
* `tidy_of_addDocuments`: so the catalog that documents are added to from the start is tidy.
* `addDocuments_conform`: each document conforms to the declaration that its stub passes on, read in
  the catalog of the whole run, to which the documents after it have added.
-/

namespace JsonShapes

open Shape

namespace Hoisting

/-- Adds documents one after another, and gives the numbers of the declarations that stand for
their values. -/
def addDocuments (policy : Policy) (documents : List (String × Json)) : Hoisting (List Int) :=
  documents.mapM fun (document, value) ↦ addDocument policy document value

end Hoisting

namespace Catalog

variable {c : Catalog} {policy : Policy}

/-- What a shape accepts unfolded, it accepts as it is, if that is so for each of its references. -/
theorem Conforms.of_unfold_of_references {t : Shape} {value : Json}
    (h : c.Conforms (c.unfold t) value)
    (href : ∀ id ∈ t.references, ∀ value, c.Conforms (c.unfold (.ref id)) value →
      c.Conforms (.ref id) value) : c.Conforms t value := by
  induction t generalizing value with
  | array e ih =>
    have h : c.Conforms (.array (c.unfold e)) value := h
    cases h with
    | array hitems => exact .array fun item hitem ↦ ih (hitems item hitem) href
  | object fs order ih =>
    rw [unfold, resolve_object] at h
    cases h with
    | object _ hdeclared hvalues hrequired =>
      refine .object order (fun member hmember ↦ ?_) (fun member hmember f hf hname ↦ ?_)
        fun f hf hoptional ↦ hrequired (resolveField _ f) (List.mem_map_of_mem hf) hoptional
      · have hname := hdeclared member hmember
        rwa [List.map_map] at hname
      · refine ih f hf (hvalues member hmember _ (List.mem_map_of_mem hf) hname) ?_
        exact fun id hid ↦ href id (mem_references_object.2 ⟨f, hf, hid⟩)
  | union ms ih =>
    rw [unfold, resolve_union] at h
    cases h with
    | union hk h =>
      obtain ⟨m, hm, rfl⟩ := List.mem_map.1 hk
      exact .union hm (ih m hm h fun id hid ↦ href id (mem_references_union.2 ⟨m, hm, hid⟩))
  | ref id => exact href id (List.mem_singleton_self id) value h
  | _ => exact h

/-- What a shape accepts unfolded, it accepts as it is. -/
theorem Conforms.of_unfold {allowed : Shape → Prop} (hc : Sound allowed c) {t : Shape}
    {value : Json} (h : c.Conforms (c.unfold t) value)
    (hknown : ∀ id ∈ t.references, c.contains id = true) : c.Conforms t value := by
  refine h.of_unfold_of_references fun id hid ↦ hc.induction_on (motive := fun id ↦ ∀ value,
    c.Conforms (c.unfold (.ref id)) value → c.Conforms (.ref id) value) ?_ (hknown id hid)
  intro id d hd ih value h
  rw [hc.unfold_ref hd] at h
  exact .ref hd (h.of_unfold_of_references fun r hr ↦ (ih r hr).2)

/-- A value conforms to what represents its shape. -/
theorem conforms_of_represents (hc : Sound Sorted c) {t : Shape} {value : Json}
    (hv : value.Keyed) (h : c.Represents t (ofJson policy value)) : c.Conforms t value := by
  have hself : c.Conforms (ofJson policy value) value :=
    conforms_of_covers c (covers_ofJson policy value) hv (wellFormed_ofJson hv)
  exact (hself.of_same (same_symm h.unfold_same)).of_unfold hc h.known

/-! ### Adding documents -/

/-- What stands in the place of a shape is declared unless it is a reference to what is. -/
theorem records_declareRoot (hc : Sound Sorted c) {t s : Shape} (h : c.Denotes t s)
    (document : String) : Hoisting.Records c (Hoisting.declareRoot t document)
      (if s.isNamed then ∅ else s.note document) fun c' id ↦ c'.Represents (.ref id) s := by
  cases hnamed : s.isNamed with
  | true =>
    obtain ⟨id, rfl⟩ := h.isNamed_iff.1 hnamed
    exact .pure h.toRepresents
  | false =>
    have hdeclare : Hoisting.declareRoot t document = Hoisting.declare t document := by
      cases t with
      | ref id => exact nomatch hnamed.symm.trans (h.isNamed_iff.2 ⟨id, rfl⟩)
      | _ => rfl
    rw [hdeclare]
    exact Hoisting.records_declare hc (h.embodies hnamed) document

/-- Adding a value leaves what denotes its shape, and notes what occurs in it. -/
theorem records_addValue (policy : Policy) (document : String) {value : Json} (hv : value.Keyed)
    (hc : Sound Sorted c) : Hoisting.Records c (Hoisting.addValue policy document value)
      ((ofJson policy value).occurrences document "") fun c' t ↦
        c'.Denotes t (ofJson policy value) :=
  records_hoist document (wellFormed_ofJson hv) (references_ofJson value) "" hc

/-- The declaration that stands for a document represents the shape of its value. -/
theorem records_addDocument (policy : Policy) (document : String) {value : Json}
    (hv : value.Keyed) (hc : Sound Sorted c) :
    Hoisting.Records c (Hoisting.addDocument policy document value)
      ((ofJson policy value).documentNotes document) fun c' id ↦
        c'.Represents (.ref id) (ofJson policy value) :=
  (records_addValue policy document hv hc).bind fun _ _ hreaches ht ↦
    records_declareRoot (hreaches.sound hc) ht document

theorem yields_addDocument (policy : Policy) (document : String) {value : Json} (hv : value.Keyed)
    (hc : Sound Sorted c) : Hoisting.Yields Sorted c (Hoisting.addDocument policy document value)
      fun c' id ↦ c'.Represents (.ref id) (ofJson policy value) :=
  (records_addDocument policy document hv hc).yields

/-- Documents can be added to any catalog, and what is noted for them does not depend on their
order. -/
theorem records_addDocuments (policy : Policy) {documents : List (String × Json)}
    (h : ∀ document ∈ documents, document.2.Keyed) (hc : Sound Sorted c) :
    Hoisting.Records c (Hoisting.addDocuments policy documents)
      (⋃ document ∈ documents, (ofJson policy document.2).documentNotes document.1) fun c' roots ↦
        List.Forall₂ (fun root document ↦ c'.Represents (.ref root) (ofJson policy document.2))
          roots documents := by
  refine Hoisting.Records.mapM (fun hreaches hc h ↦ h.mono (hreaches.shapes_initial hc)) ?_ hc
  intro document hdocument c hc
  exact records_addDocument policy document.1 (h document hdocument) hc

/-- What documents leave that were added to an empty catalog: a tidy catalog, what was noted for
each of them, and declarations that represent their shapes. -/
theorem tidy_of_addDocuments (policy : Policy) {documents : List (String × Json)}
    (h : ∀ document ∈ documents, document.2.Keyed) {roots : List Int}
    (hrun : Hoisting.addDocuments policy documents empty = (.ok roots, c)) :
    c.Tidy ∧
      c.noted = (⋃ document ∈ documents, (ofJson policy document.2).documentNotes document.1) ∧
      List.Forall₂ (fun root document ↦ c.Represents (.ref root) (ofJson policy document.2)) roots
        documents := by
  obtain ⟨-, hnoted, htidy, hroots⟩ :=
    (records_addDocuments policy h (sound_empty Sorted)).of_run hrun
  rw [noted_empty, Set.empty_union] at hnoted
  exact ⟨htidy tidy_empty, hnoted, hroots⟩

/-- Documents can be added to any catalog, and each conforms in the end to the declaration that
stands for it. -/
theorem addDocuments_conform (policy : Policy) {documents : List (String × Json)}
    (h : ∀ document ∈ documents, document.2.Keyed) :
    ∃ roots c, Hoisting.addDocuments policy documents empty = (.ok roots, c) ∧
      List.Forall₂ (fun root document ↦ c.Conforms (.ref root) document.2) roots documents := by
  have hempty := sound_empty Sorted
  obtain ⟨roots, c, hrun, hreaches, hroots⟩ : Hoisting.Yields Sorted empty
      (Hoisting.addDocuments policy documents) fun c roots ↦
        List.Forall₂ (fun root document ↦ c.Represents (.ref root) (ofJson policy document.2))
          roots documents := by
    refine Hoisting.Yields.mapM (fun hreaches hc h ↦ h.mono (hreaches.shapes_initial hc)) ?_ hempty
    intro document hdocument c hc
    exact yields_addDocument policy document.1 (h document hdocument) hc
  have hc := hreaches.sound hempty
  refine ⟨roots, c, hrun, ?_⟩
  refine forall₂_imp_of_mem hroots fun root _ document hdocument hroot ↦ ?_
  exact conforms_of_represents hc (h document hdocument) hroot

/-- A field that is absent from the second of three objects and meets another kind in the third,
beside an array that is empty at first; and two documents that share what is declared. -/
theorem addDocuments_conform_shared :
    let first : Json := .array [.object [("a", .array []), ("b", .number (.int 1))],
      .object [("a", .array [.null])], .object [("a", .array []), ("b", .object [])]]
    let documents : List (String × Json) :=
      [("1.json", first), ("2.json", .array []), ("3.json", .object []), ("4.json", .bool true)]
    (∀ document ∈ documents, document.2.Keyed) ∧
      ∃ roots c, Hoisting.addDocuments .union documents empty = (.ok roots, c) ∧
        List.Forall₂ (fun root document ↦ c.Conforms (.ref root) document.2) roots documents := by
  intro first documents
  have hkeyed : ∀ document ∈ documents, document.2.Keyed := by
    simp only [documents, List.forall_mem_cons, List.not_mem_nil, false_imp_iff, implies_true,
      and_true]
    refine ⟨.array ?_, .array nofun, .object (by decide) nofun, .bool true⟩
    simp only [List.forall_mem_cons, List.not_mem_nil, false_imp_iff, implies_true, and_true]
    refine ⟨.object (by decide) ?_, .object (by decide) ?_, .object (by decide) ?_⟩
    · simpa using ⟨.array nofun, .number _⟩
    · simpa using .array (by simpa using .null)
    · simpa using ⟨.array nofun, .object (by decide) nofun⟩
  exact ⟨hkeyed, addDocuments_conform .union hkeyed⟩

end Catalog

end JsonShapes
