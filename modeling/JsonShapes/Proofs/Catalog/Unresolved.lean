import JsonShapes.Proofs.Catalog.Documents
import JsonShapes.Proofs.Catalog.Verifying
import JsonShapes.Proofs.Labels
import JsonShapes.Proofs.Shape.EmptyArrays

/-!
# Unresolved declarations

The places of unresolved declarations are those that the catalog notes for an array without items
(`mem_noted_emptyArray_iff`). After documents were added these are the places where the data say
nothing (`mem_places_unresolved_iff`), and as labels tell documents and paths, a place is among them
exactly if the data say nothing at that very place (`places_unresolved_exact`).

The second statement is read off the notes for each document. The third needs that no label is that
of two places, for which the names of the documents are distinct and have no `#` in them.
-/

namespace JsonShapes

open Shape

namespace Catalog

variable {c : Catalog} {t : Shape} {place : String}

/-- What is declared unfolds to an array without items only if it is one. -/
theorem Body.eq_emptyArray (h : c.Body t) (hsame : (c.unfold t).same .emptyArray = true) :
    t = .emptyArray := by
  have hnamed := isNamed_of_same hsame
  cases h with
  | emptyArray => rfl
  | array => exact nomatch same_cases hsame
  | object =>
    rw [unfold_object] at hsame
    exact nomatch same_cases hsame
  | inline _ hnameless => exact nomatch hnameless.symm.trans hnamed

/-- What is noted for an array without items are the places of unresolved declarations, and of no
other ones. -/
theorem Tidy.mem_noted_emptyArray_iff (hc : c.Tidy) :
    (.emptyArray, place) ∈ c.noted ↔ ∃ d ∈ c.unresolved, place ∈ d.places := by
  constructor
  · rintro ⟨id, d, hd, hsame, hplace⟩
    have hmem := Entries.mem_of_lookup_eq_some hd
    rw [hc.sound.unfold_ref hd] at hsame
    have hshape := (hc.bodies _ (List.mem_map_of_mem hmem)).eq_emptyArray hsame
    exact ⟨d, List.mem_filter.2 ⟨List.mem_map_of_mem hmem,
      Declaration.isUnresolved_iff.2 hshape⟩, hplace⟩
  · rintro ⟨d, hd, hplace⟩
    obtain ⟨hd, hunresolved⟩ := List.mem_filter.1 hd
    obtain ⟨⟨id, d⟩, hslot, rfl⟩ := List.mem_map.1 hd
    have hlookup := (Entries.lookup_eq_some_iff hc.sound.ids_nodup).2 hslot
    refine ⟨id, d, hlookup, ?_, hplace⟩
    rw [hc.sound.unfold_ref hlookup, Declaration.isUnresolved_iff.1 hunresolved]
    exact same_refl _

/-- Where unresolved arrays were seen in the documents that were added. -/
theorem mem_places_unresolved_iff {documents : List (String × Json)}
    (h : ∀ document ∈ documents, document.2.Keyed) {roots : List Int}
    (hrun : Hoisting.addDocuments .union documents empty = (.ok roots, c)) :
    (∃ d ∈ c.unresolved, place ∈ d.places) ↔ ∃ document ∈ documents, ∃ path,
      document.2.SaysNothing path ∧ place = Pointer.label document.1 (Pointer.ofPath path) := by
  obtain ⟨hc, hnoted, -⟩ := tidy_of_addDocuments .union h hrun
  rw [← hc.mem_noted_emptyArray_iff, hnoted, Set.mem_iUnion₂]
  simp only [exists_prop]
  refine exists_congr fun document ↦ and_congr_right fun hdocument ↦ ?_
  rw [mem_documentNotes_iff]
  refine exists_congr fun path ↦ and_congr_left fun _ ↦ ?_
  rw [← emptyArray_namedAt_ofJson_iff (h document hdocument) path]
  -- what is declared as it stands for a document is no array without items
  refine ⟨fun hseen ↦ hseen.resolve_right ?_, .inl⟩
  rintro ⟨-, hnamed, hsame⟩
  exact Bool.false_ne_true (hnamed.symm.trans (isNamed_of_same hsame))

/-- Some array is unresolved exactly if there is a place in some document where the data say
nothing.
-/
theorem unresolved_ne_nil_iff {documents : List (String × Json)}
    (h : ∀ document ∈ documents, document.2.Keyed) {roots : List Int}
    (hrun : Hoisting.addDocuments .union documents empty = (.ok roots, c)) :
    c.unresolved ≠ [] ↔ ∃ document ∈ documents, ∃ path, document.2.SaysNothing path := by
  obtain ⟨hc, -⟩ := tidy_of_addDocuments .union h hrun
  constructor
  · intro hne
    obtain ⟨d, hd⟩ := List.exists_mem_of_ne_nil _ hne
    obtain ⟨slot, hslot, rfl⟩ := List.mem_map.1 (List.mem_filter.1 hd).1
    obtain ⟨place, hplace⟩ := List.exists_mem_of_ne_nil _ (hc.sound.fits slot hslot).places_ne_nil
    obtain ⟨document, hdocument, path, hpath, -⟩ :=
      (mem_places_unresolved_iff h hrun).1 ⟨_, hd, hplace⟩
    exact ⟨document, hdocument, path, hpath⟩
  · rintro ⟨document, hdocument, path, hpath⟩
    obtain ⟨d, hd, -⟩ :=
      (mem_places_unresolved_iff h hrun).2 ⟨document, hdocument, path, hpath, rfl⟩
    exact List.ne_nil_of_mem hd

/-- Unresolved arrays are reported exactly where the data say nothing, in one declaration. -/
theorem places_unresolved_exact {documents : List (String × Json)}
    (h : ∀ document ∈ documents, document.2.Keyed) (hnodup : (documents.map (·.1)).Nodup)
    (hplain : ∀ document ∈ documents, '#' ∉ document.1.toList) {roots : List Int}
    (hrun : Hoisting.addDocuments .union documents empty = (.ok roots, c))
    {document : String × Json} (hdocument : document ∈ documents) (path : List Step) :
    (∃ d ∈ c.unresolved, Pointer.label document.1 (Pointer.ofPath path) ∈ d.places) ↔
      document.2.SaysNothing path := by
  rw [mem_places_unresolved_iff h hrun]
  constructor
  · rintro ⟨other, hother, path', hpath', hlabel⟩
    obtain ⟨hname, rfl⟩ :=
      Pointer.label_inj (hplain document hdocument) (hplain other hother) hlabel
    obtain rfl := List.inj_on_of_nodup_map hnodup hdocument hother hname
    exact hpath'
  · exact fun hpath ↦ ⟨document, hdocument, path, hpath, rfl⟩

end Catalog

end JsonShapes
