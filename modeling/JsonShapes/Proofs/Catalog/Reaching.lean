import JsonShapes.Proofs.Catalog.Documents

/-!
# No declaration is dead

A declaration is there for a part of some document, so it can be reached from the declaration that
stands for the document by following references (`exists_root_reaches`). This is not seen from what
a single operation does: a part may have been declared for another document long before, and then it
is found and not declared again. What decides is where a part occurs. On the way down to it each
step either stays within a declaration or follows a reference to another (`Tidy.reaches_of_part`),
and in a tidy catalog the reference that is met at the end can only be the one to the declaration in
question.

The proof follows the path on which something occurs (`Occurs`) and keeps a shape of the catalog
beside the part of the document, of which it is known that it stands for the part (`Catalog.Means`).
Where the path goes into an object or another shape that has a declaration, what stands for it is a
reference, and that is a step from one declaration to the next.

## Where tidiness is used

At the end of the path there is a reference to some declaration that stands for the part, and the
question is whether it is the one that was asked about. In a catalog with two declarations that
unfold to the same it need not be, and the other would be dead. That there is one number for what a
reference unfolds to is what a tidy catalog provides.
-/

namespace JsonShapes

open Shape Relation

namespace Catalog

variable {c : Catalog} {s t part : Shape} {id : Int}

/-- A reference in a declaration leads to another. -/
def Refers (c : Catalog) (i j : Int) : Prop :=
  ∃ d, c.slots.lookup i = some d ∧ j ∈ d.shape.references

/-! ### Parts -/

/-- A shape lies immediately within another. -/
inductive PartOf : Shape → Shape → Prop
  | item (e : Shape) : PartOf e (.array e)
  | member {fs : List (Field Shape)} {f : Field Shape} (order : List String) (hf : f ∈ fs) :
      PartOf f.content (.object fs order)
  | alternative {ms : List Shape} {m : Shape} (hm : m ∈ ms) : PartOf m (.union ms)

/-- A part refers to nothing that the whole does not refer to. -/
theorem PartOf.references_subset (h : PartOf part t) : part.references ⊆ t.references := by
  intro id hid
  cases h with
  | item => exact hid
  | member _ hf => exact mem_references_object.2 ⟨_, hf, hid⟩
  | alternative hm => exact mem_references_union.2 ⟨_, hm, hid⟩

/-- Parts of what is settled are settled. -/
theorem Settled.of_part (h : c.Settled t) (hpart : PartOf part t) : c.Settled part := by
  cases h with
  | prim => exact nomatch hpart
  | ref => exact nomatch hpart
  | array he =>
    cases hpart
    exact he
  | union hms =>
    cases hpart with
    | alternative hm => exact hms _ hm

/-- What is declared is made of settled parts. -/
theorem Body.of_part (h : c.Body t) (hpart : PartOf part t) : c.Settled part := by
  cases h with
  | emptyArray => exact nomatch hpart
  | array he =>
    cases hpart
    exact he
  | object _ hfs =>
    cases hpart with
    | member _ hf => exact hfs _ hf
  | inline ht => exact ht.of_part hpart

/-- What is declared without being named is settled itself. -/
theorem Body.settled_of_nameless (h : c.Body t) (hnameless : (c.unfold t).isNamed = false) :
    c.Settled t := by
  cases h with
  | emptyArray => exact nomatch hnameless
  | array _ hnamed => exact nomatch hnameless.symm.trans hnamed
  | object =>
    rw [unfold_object] at hnameless
    exact nomatch hnameless
  | inline ht => exact ht

/-- A declaration is no mere reference to another. -/
theorem Body.ne_ref (h : c.Body t) (id : Int) : t ≠ .ref id := by
  rintro rfl
  cases h with
  | inline ht hnameless =>
    exact nomatch hnameless.symm.trans (ht.isNamed_unfold_iff.2 ⟨id, rfl⟩)

/-- What is no reference has a part for each part of what it unfolds to. Unfolding a shape that is
no reference keeps its outermost constructor, and sameness pairs the parts below it. -/
theorem exists_part_of_unfold_same (ht : ∀ id, t ≠ .ref id) (h : (c.unfold t).same s = true)
    (hpart : PartOf part s) : ∃ t', PartOf t' t ∧ (c.unfold t').same part = true := by
  cases t with
  | ref id => exact absurd rfl (ht id)
  | array e =>
    rw [unfold_array] at h
    cases same_cases h with
    | array he =>
      cases hpart
      exact ⟨e, .item e, he⟩
  | object fs order =>
    rw [unfold_object] at h
    cases same_cases h with
    | object halike =>
      cases hpart with
      | member _ hf =>
        obtain ⟨g, hg, hgf⟩ := exists_of_forall₂_right halike hf
        obtain ⟨k, hk, rfl⟩ := List.mem_map.1 hg
        exact ⟨k.content, .member order hk, hgf.content⟩
  | union ms =>
    rw [unfold_union] at h
    cases same_cases h with
    | union _ hr =>
      cases hpart with
      | alternative hm =>
        obtain ⟨n, hn, hnm⟩ := hr _ hm
        obtain ⟨k, hk, rfl⟩ := List.mem_map.1 hn
        exact ⟨k, .alternative hk, hnm⟩
  | prim p =>
    cases same_cases h
    exact nomatch hpart
  | emptyArray =>
    cases same_cases h
    exact nomatch hpart
  | foreign thing =>
    cases same_cases h
    exact nomatch hpart

/-! ### Following references -/

/-- A settled shape stands for another. -/
structure Means (c : Catalog) (t s : Shape) : Prop where
  /-- References stand where there are declarations to refer to, and nowhere else. -/
  settled : c.Settled t
  /-- All of them were declared. -/
  known : ∀ r ∈ t.references, c.contains r = true
  /-- With the declarations put in, it is the other shape. -/
  unfold_same : (c.unfold t).same s = true

/-- What is reached from a part of a shape, whatever stands for the part, is reached from the shape.
-/
theorem Tidy.reaches_of_part (hc : c.Tidy) {target : Int}
    (htarget : ∀ t', c.Means t' part → ∃ j ∈ t'.references, ReflTransGen c.Refers j target)
    (h : c.Means t s) (hpart : PartOf part s) :
    ∃ j ∈ t.references, ReflTransGen c.Refers j target := by
  by_cases ht : ∃ id, t = .ref id
  · -- the part is found in the declaration to which the reference leads
    obtain ⟨id, rfl⟩ := ht
    obtain ⟨d, hd⟩ := Sound.exists_of_contains (h.known id (List.mem_singleton_self id))
    have hmem := Entries.mem_of_lookup_eq_some hd
    have hbody := hc.bodies _ (List.mem_map_of_mem hmem)
    obtain ⟨t', ht', hsame⟩ := exists_part_of_unfold_same hbody.ne_ref
      (hc.sound.unfold_ref hd ▸ h.unfold_same) hpart
    obtain ⟨j, hj, hreaches⟩ := htarget t' ⟨hbody.of_part ht', fun r hr ↦
      hc.sound.known hmem r (ht'.references_subset hr), hsame⟩
    exact ⟨id, List.mem_singleton_self id, .head ⟨d, hd, ht'.references_subset hj⟩ hreaches⟩
  · obtain ⟨t', ht', hsame⟩ := exists_part_of_unfold_same (not_exists.1 ht) h.unfold_same hpart
    obtain ⟨j, hj, hreaches⟩ := htarget t' ⟨h.settled.of_part ht', fun r hr ↦
      h.known r (ht'.references_subset hr), hsame⟩
    exact ⟨j, ht'.references_subset hj, hreaches⟩

/-- What occurs in a shape is reached from what stands for the shape. -/
theorem Tidy.reaches_of_occurs (hc : c.Tidy) {document pointer : String} {o : Shape × String}
    (ho : Occurs document o s pointer) (hid : c.contains id = true)
    (hsame : (c.unfold (.ref id)).same o.1 = true) (h : c.Means t s) :
    ∃ j ∈ t.references, ReflTransGen c.Refers j id := by
  induction ho generalizing t with
  | self named hnote =>
    have hnamed := (isNamed_of_same h.unfold_same).trans named
    obtain ⟨j, rfl⟩ := h.settled.isNamed_unfold_iff.1 hnamed
    have hj := List.mem_singleton_self j
    obtain rfl := hc.eq_of_unfold_same (h.known j hj) hid
      (same_trans h.unfold_same (same_trans hnote.1 (same_symm hsame)))
    exact ⟨j, hj, .refl⟩
  | item _ ih => exact hc.reaches_of_part (fun _ ↦ ih) h (.item _)
  | member order hf _ ih => exact hc.reaches_of_part (fun _ ↦ ih) h (.member order hf)
  | alternative hm _ ih => exact hc.reaches_of_part (fun _ ↦ ih) h (.alternative hm)

/-- What is noted for a document is reached from the declaration that stands for it. -/
theorem Tidy.reaches_of_noted (hc : c.Tidy) {root : Int} (hroot : c.Represents (.ref root) s)
    {document : String} {o : Shape × String} (ho : o ∈ s.documentNotes document)
    (hid : c.contains id = true) (hsame : (c.unfold (.ref id)).same o.1 = true) :
    ReflTransGen c.Refers root id := by
  have hknown := hroot.known root (List.mem_singleton_self root)
  cases hnamed : s.isNamed with
  | true =>
    rw [documentNotes, hnamed, if_pos rfl, Set.union_empty] at ho
    have hmeans : c.Means (.ref root) s :=
      ⟨.ref ((isNamed_of_same hroot.unfold_same).trans hnamed), hroot.known, hroot.unfold_same⟩
    obtain ⟨j, hj, hreaches⟩ := hc.reaches_of_occurs ho hid hsame hmeans
    exact List.mem_singleton.1 hj ▸ hreaches
  | false =>
    rw [documentNotes, hnamed, if_neg Bool.false_ne_true] at ho
    rcases ho with ho | ho
    · -- the document is declared as it stands
      obtain ⟨d, hd⟩ := Sound.exists_of_contains hknown
      have hmem := Entries.mem_of_lookup_eq_some hd
      have hsame' := hc.sound.unfold_ref hd ▸ hroot.unfold_same
      have hsettled := (hc.bodies _ (List.mem_map_of_mem hmem)).settled_of_nameless
        ((isNamed_of_same hsame').trans hnamed)
      obtain ⟨j, hj, hreaches⟩ :=
        hc.reaches_of_occurs ho hid hsame ⟨hsettled, hc.sound.known hmem, hsame'⟩
      exact .head ⟨d, hd, hj⟩ hreaches
    · exact hc.eq_of_unfold_same hknown hid
        (same_trans hroot.unfold_same (same_trans ho.1 (same_symm hsame))) ▸ .refl

/-- After documents were added to an empty catalog, every declaration is reached from the one that
stands for some document. -/
theorem exists_root_reaches (policy : Policy) {documents : List (String × Json)}
    (h : ∀ document ∈ documents, document.2.Keyed) {roots : List Int}
    (hrun : Hoisting.addDocuments policy documents empty = (.ok roots, c))
    (hid : c.contains id = true) : ∃ root ∈ roots, ReflTransGen c.Refers root id := by
  obtain ⟨hc, hnoted, hroots⟩ := tidy_of_addDocuments policy h hrun
  obtain ⟨d, hd⟩ := Sound.exists_of_contains hid
  obtain ⟨place, hplace⟩ := List.exists_mem_of_ne_nil _
    (hc.sound.fits _ (Entries.mem_of_lookup_eq_some hd)).places_ne_nil
  have hmem : (c.unfold (.ref id), place) ∈ c.noted := ⟨id, d, hd, same_refl _, hplace⟩
  rw [hnoted, Set.mem_iUnion₂] at hmem
  obtain ⟨document, hdocument, ho⟩ := hmem
  obtain ⟨root, hroot, hrepresents⟩ := exists_of_forall₂_right hroots hdocument
  exact ⟨root, hroot, hc.reaches_of_noted hrepresents ho hid (same_refl _)⟩

end Catalog

end JsonShapes
