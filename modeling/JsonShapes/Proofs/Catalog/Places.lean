import JsonShapes.Document
import JsonShapes.Proofs.Catalog.Rearranging
import JsonShapes.Proofs.Files.Documents
import JsonShapes.Proofs.Labels
import Mathlib

/-!
# The places of declarations

A declaration lists the labels of the positions at which its shape was seen, and no other labels.
It lists one for each position exactly if no two of these overlap (`Catalog.places_exact`), for then
they have different labels. The documents below a folder may be called such that positions of two
of them overlap, and then one of the labels is missing (`Catalog.place_dropped`).

A label is the name of a document with the path behind, and the two are joined by a `#`, which may
also be in a name or on a path. So labels do not tell all positions apart. They are confused exactly
if the name of one document is that of the other with a `#` and the first steps of its path behind
(`Position.Overlaps`).

## The two directions

That no label is listed without a position is a matter of the notes: places are added for parts of
documents only. That each position has a label of its own is a matter of labels, and is where it can
fail: the function from positions to labels is one-to-one on the positions of a shape exactly if no
two of them overlap.
-/

namespace JsonShapes

open Shape

/-- A position in a document: a path from its root. -/
structure Position where
  /-- The document, which is its name and its value. -/
  document : String × Json
  /-- The path to the position. -/
  path : List Step

namespace Position

/-- The label of a position. -/
def label (p : Position) : String :=
  Pointer.label p.document.1 (Pointer.ofPath p.path)

/-- The label of the first position can be split such that it reads as that of the second. -/
def Overlaps (p q : Position) : Prop :=
  Pointer.Overlaps p.document.1 p.path q.document.1 q.path

theorem Overlaps.label_eq {p q : Position} (h : p.Overlaps q) : p.label = q.label :=
  Pointer.Overlaps.label_eq h

/-- No position overlaps itself, as its path would have to be longer than it is. -/
theorem not_overlaps_self (p : Position) : ¬p.Overlaps p := by
  rintro ⟨steps, hne, hpath, -⟩
  exact hne (List.self_eq_append_left.1 hpath)

/-- Positions in documents with distinct names have one label exactly if they are the same or
overlap. -/
theorem label_eq_iff {documents : List (String × Json)} (hnodup : (documents.map (·.1)).Nodup)
    {p q : Position} (hp : p.document ∈ documents) (hq : q.document ∈ documents) :
    p.label = q.label ↔ p = q ∨ p.Overlaps q ∨ q.Overlaps p := by
  have hsame : p.document.1 = q.document.1 ∧ p.path = q.path ↔ p = q := by
    refine ⟨fun ⟨hname, hpath⟩ ↦ ?_, fun h ↦ h ▸ ⟨rfl, rfl⟩⟩
    have hdocument := List.inj_on_of_nodup_map hnodup hp hq hname
    cases p
    cases q
    congr
  rw [label, label, Pointer.label_eq_label_iff, hsame]
  rfl

end Position

namespace Catalog

variable {c : Catalog} {policy : Policy} {documents : List (String × Json)}

/-- The positions in documents at which something was declared that means the same as the shape. -/
def positions (policy : Policy) (documents : List (String × Json)) (s : Shape) : Set Position :=
  {p | p.document ∈ documents ∧ s.SeenAt (ofJson policy p.document.2) p.path}

/-- A declaration lists the labels of the positions at which its shape was seen. -/
theorem mem_places_iff_mem_image (h : ∀ document ∈ documents, document.2.Keyed) {roots : List Int}
    (hrun : Hoisting.addDocuments policy documents empty = (.ok roots, c)) {d : Declaration}
    (hd : d ∈ c.declarations) {place : String} :
    place ∈ d.places ↔ place ∈ Position.label '' positions policy documents (c.unfold d.shape) := by
  obtain ⟨hc, hnoted, -⟩ := tidy_of_addDocuments policy h hrun
  obtain ⟨⟨id, d⟩, hslot, rfl⟩ := List.mem_map.1 hd
  have hlookup := (Entries.lookup_eq_some_iff hc.sound.ids_nodup).2 hslot
  rw [hc.mem_places_iff hlookup (same_refl _), hc.sound.unfold_ref hlookup, hnoted,
    Set.mem_iUnion₂]
  simp only [mem_documentNotes_iff]
  constructor
  · rintro ⟨document, hdocument, path, hseen, rfl⟩
    exact ⟨⟨document, path⟩, ⟨hdocument, hseen⟩, rfl⟩
  · rintro ⟨p, ⟨hdocument, hseen⟩, rfl⟩
    exact ⟨p.document, hdocument, p.path, hseen, rfl⟩

/-- Labels tell places as far as they do not overlap. For the documents below a folder, two
positions have one label exactly if they are the same or one of them overlaps the other, and then
one of the documents lies in a folder called like the other with a `#` behind. When the documents
are added, each declaration lists the labels of the positions at which its shape was seen, one for
each of them exactly if no two of them overlap. -/
theorem places_exact {files : FileTree} (hnamed : files.Named) (hkeyed : files.Keyed)
    (folder : Location) (policy : Policy)
    (hnames : documents.map (·.1) = (files.documents folder).map (·.1))
    (h : ∀ document ∈ documents, document.2.Keyed) :
    (∀ p q : Position, p.document ∈ documents → q.document ∈ documents →
      (p.label = q.label ↔ p = q ∨ p.Overlaps q ∨ q.Overlaps p) ∧
        (p.Overlaps q → ∃ rest, q.document.1 = p.document.1 ++ "#/" ++ rest)) ∧
    ∃ roots c, Hoisting.addDocuments policy documents empty = (.ok roots, c) ∧
      ∀ d ∈ c.declarations,
        let seen := positions policy documents (c.unfold d.shape)
        d.places.Nodup ∧ (∀ place, place ∈ d.places ↔ place ∈ Position.label '' seen) ∧
          (Set.InjOn Position.label seen ↔ ∀ p ∈ seen, ∀ q ∈ seen, ¬p.Overlaps q) := by
  have hnodup : (documents.map (·.1)).Nodup := hnames ▸ hnamed.nodup_documents hkeyed folder
  refine ⟨fun p q hp hq ↦ ⟨Position.label_eq_iff hnodup hp hq, Pointer.Overlaps.exists_rest⟩, ?_⟩
  obtain ⟨roots, c, hrun, -⟩ := records_addDocuments policy h (sound_empty Sorted)
  refine ⟨roots, c, hrun, fun d hd ↦ ⟨?_, fun place ↦ mem_places_iff_mem_image h hrun hd, ?_⟩⟩
  · obtain ⟨slot, hslot, rfl⟩ := List.mem_map.1 hd
    exact ((tidy_of_addDocuments policy h hrun).1.sound.fits slot hslot).places_nodup
  · constructor
    · intro hinj p hp q hq hoverlaps
      obtain rfl := hinj hp hq hoverlaps.label_eq
      exact p.not_overlaps_self hoverlaps
    · intro hnone p hp q hq hlabel
      rcases (Position.label_eq_iff hnodup hp.1 hq.1).1 hlabel with heq | hoverlaps | hoverlaps
      · exact heq
      · exact absurd hoverlaps (hnone p hp q hq)
      · exact absurd hoverlaps (hnone q hq p hp)

/-- A document with a member, and another one below a folder that is called like it with a `#`
behind, under the name of the member. -/
theorem places_exact_overlapping :
    let files : FileTree :=
      .folder [("a.json", .file []), ("a.json#", .folder [("b.json", .file [])])]
    let documents : List (String × Json) :=
      [("a.json", .object [("b.json", .array []), ("c", .null)]), ("a.json#/b.json", .null)]
    let p : Position := ⟨("a.json", .object [("b.json", .array []), ("c", .null)]),
      [.member "b.json"]⟩
    let q : Position := ⟨("a.json#/b.json", .null), []⟩
    (files.Named ∧ files.Keyed ∧ documents.map (·.1) = (files.documents []).map (·.1) ∧
      ∀ document ∈ documents, document.2.Keyed) ∧
      ((p.label = q.label ↔ p = q ∨ p.Overlaps q ∨ q.Overlaps p) ∧ p.Overlaps q) ∧
      ∃ roots c, Hoisting.addDocuments .union documents empty = (.ok roots, c) ∧
        ∀ d ∈ c.declarations,
          let seen := positions .union documents (c.unfold d.shape)
          d.places.Nodup ∧ (∀ place, place ∈ d.places ↔ place ∈ Position.label '' seen) ∧
            (Set.InjOn Position.label seen ↔ ∀ p ∈ seen, ∀ q ∈ seen, ¬p.Overlaps q) := by
  intro files documents p q
  have hnamed : files.Named := by
    refine FileTree.named_folder (List.forall_mem_cons.2 ⟨⟨by decide, FileTree.named_file _⟩,
      List.forall_mem_singleton.2 ⟨by decide, ?_⟩⟩)
    exact FileTree.named_folder (List.forall_mem_singleton.2 ⟨by decide, FileTree.named_file _⟩)
  have hkeyed : files.Keyed := by
    refine .folder (by decide) (List.forall_mem_cons.2 ⟨.file _, List.forall_mem_singleton.2 ?_⟩)
    exact .folder (by decide) (List.forall_mem_singleton.2 (.file _))
  have hnames : documents.map (·.1) = (files.documents []).map (·.1) := by cbv
  have hvalues : ∀ document ∈ documents, document.2.Keyed := by
    refine List.forall_mem_cons.2 ⟨.object (by decide) ?_, List.forall_mem_singleton.2 .null⟩
    exact List.forall_mem_cons.2 ⟨.array (List.forall_mem_nil _), List.forall_mem_singleton.2 .null⟩
  obtain ⟨hlabels, hrun⟩ := places_exact hnamed hkeyed [] .union hnames hvalues
  refine ⟨⟨hnamed, hkeyed, hnames, hvalues⟩, ⟨?_, ?_⟩, hrun⟩
  · exact (hlabels p q List.mem_cons_self (List.mem_cons_of_mem _ List.mem_cons_self)).1
  · exact ⟨[.member "b.json"], by decide, rfl, by decide⟩

set_option maxRecDepth 100000 in
/-- The label of a position is missing: an object without members is in two documents, at positions
that have one label, and is declared with this one label. -/
theorem place_dropped :
    let files : FileTree := .folder [
      ("a.json", .file [0x7b, 0x22, 0x62, 0x2e, 0x6a, 0x73, 0x6f, 0x6e, 0x22, 0x3a, 0x7b, 0x7d,
        0x7d]),
      ("a.json#", .folder [("b.json", .file [0x7b, 0x7d])])]
    let documents : List (String × Json) :=
      [("a.json", .object [("b.json", .object [])]), ("a.json#/b.json", .object [])]
    let p : Position := ⟨("a.json", .object [("b.json", .object [])]), [.member "b.json"]⟩
    let q : Position := ⟨("a.json#/b.json", .object []), []⟩
    (files.documents []).map (fun file ↦ (file.1, (Document.read file.1 file.2).toOption)) =
        documents.map (fun document ↦ (document.1, some document.2)) ∧
      p ∈ positions .union documents (.object [] []) ∧
      q ∈ positions .union documents (.object [] []) ∧
      p.document.1 ≠ q.document.1 ∧ p.label = q.label ∧
      (Hoisting.addDocuments .union documents empty).2.declarations.map
        (fun d ↦ (d.shape.same (.object [] []), d.places)) =
          [(true, ["a.json#/b.json"]), (false, ["a.json"])] := by
  intro files documents p q
  refine ⟨?_, ⟨List.mem_cons_self, .inl ?_⟩, ⟨List.mem_cons_of_mem _ List.mem_cons_self, .inl ?_⟩,
    by decide, by decide, by decide +kernel⟩
  · cbv
  · rw [show ofJson .union p.document.2 =
      .object [⟨"b.json", false, .object [] []⟩] ["b.json"] by cbv]
    refine .member (f := ⟨"b.json", false, .object [] []⟩) _ List.mem_cons_self ?_
    exact .self rfl (by decide)
  · rw [show ofJson .union q.document.2 = .object [] [] by cbv]
    exact .self rfl (by decide)

end Catalog

end JsonShapes
