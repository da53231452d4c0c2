import JsonShapes.Proofs.Catalog.Documents
import Mathlib.Data.Set.Function

/-!
# Documents in another order

The numbers that declarations get, and with them keys and look-ups, depend on the order in which
documents are added. What is noted does not: it is the union of what is noted for each document, and
that is determined by the name of the document and the shape of its value. In a tidy catalog the
notes determine all but the numbers. So whichever way the same shapes come, the catalogs that they
make are renamings of each other (`addDocuments_rearranged`).

The renaming is not built along the run. It is chosen in the end, by what numbers stand for: the
notes of either catalog say what is declared in it, and in a tidy catalog there is one number for
it.

The contexts of a declaration are compared as sets. Their order is that in which the places were
seen, so it is the order of documents that decides it, and no renaming of numbers can undo that.
-/

namespace JsonShapes.Catalog

open Shape

variable {c c' : Catalog}

/-- The numbers of one catalog correspond to those of another, such that what is declared under them
is the same up to the correspondence and was seen at the same places. -/
structure Renaming (f : Int → Int) (c c' : Catalog) : Prop where
  bijOn : Set.BijOn f {id | c.contains id = true} {id | c'.contains id = true}
  declaration : ∀ id d, c.slots.lookup id = some d → ∃ d', c'.slots.lookup (f id) = some d' ∧
    (d.shape.rename f).same d'.shape = true ∧ ∀ place, place ∈ d.places ↔ place ∈ d'.places

/-! ### What the notes determine -/

/-- What a number stands for is found again in any catalog with the same notes. -/
theorem exists_same_of_noted_eq (hc : Sound Sorted c) (h : c.noted = c'.noted) {id : Int}
    (hid : c.contains id = true) : ∃ id', c'.contains id' = true ∧
      (c.unfold (.ref id)).same (c'.unfold (.ref id')) = true := by
  obtain ⟨d, hd⟩ := Sound.exists_of_contains hid
  -- a declaration has a place, so there is a note of it
  obtain ⟨place, hplace⟩ := List.exists_mem_of_ne_nil _
    (hc.fits _ (Entries.mem_of_lookup_eq_some hd)).places_ne_nil
  have hnoted : (c.unfold (.ref id), place) ∈ c'.noted := h ▸ ⟨id, d, hd, same_refl _, hplace⟩
  obtain ⟨id', d', hd', hsame, -⟩ := hnoted
  exact ⟨id', Sound.contains_of_lookup hd', same_symm hsame⟩

/-- The places of a declaration are those noted for what it unfolds to. -/
theorem Tidy.mem_places_iff (hc : c.Tidy) {id : Int} {d : Declaration}
    (hd : c.slots.lookup id = some d) {s : Shape} (hs : (c.unfold (.ref id)).same s = true)
    {place : String} : place ∈ d.places ↔ (s, place) ∈ c.noted := by
  refine ⟨fun hplace ↦ ⟨id, d, hd, hs, hplace⟩, ?_⟩
  rintro ⟨id', d', hd', hs', hplace⟩
  obtain rfl := hc.eq_of_unfold_same (Sound.contains_of_lookup hd) (Sound.contains_of_lookup hd')
    (same_trans hs (same_symm hs'))
  exact Option.some.inj (hd.symm.trans hd') ▸ hplace

/-- Tidy catalogs with the same notes are renamings of each other, and numbers that stand for the
same correspond. -/
theorem Tidy.exists_renaming (hc : c.Tidy) (hc' : c'.Tidy) (h : c.noted = c'.noted) :
    ∃ f, Renaming f c c' ∧ ∀ i j, c.contains i = true → c'.contains j = true →
      (c.unfold (.ref i)).same (c'.unfold (.ref j)) = true → f i = j := by
  have hmatch : ∀ i, c.contains i = true → ∃ j, c'.contains j = true ∧
      (c.unfold (.ref i)).same (c'.unfold (.ref j)) = true :=
    fun i hi ↦ exists_same_of_noted_eq hc.sound h hi
  choose! f hf using hmatch
  have hunique : ∀ i j, c.contains i = true → c'.contains j = true →
      (c.unfold (.ref i)).same (c'.unfold (.ref j)) = true → f i = j := fun i j hi hj hsame ↦
    hc'.eq_of_unfold_same (hf i hi).1 hj (same_trans (same_symm (hf i hi).2) hsame)
  refine ⟨f, ⟨⟨fun i hi ↦ (hf i hi).1, fun i hi j hj hij ↦ ?_, fun j hj ↦ ?_⟩, fun i d hd ↦ ?_⟩,
    hunique⟩
  · -- numbers that go to the same number stand for the same
    refine hc.eq_of_unfold_same hi hj (same_trans (hf i hi).2 ?_)
    rw [hij]
    exact same_symm (hf j hj).2
  · obtain ⟨i, hi, hji⟩ := exists_same_of_noted_eq hc'.sound h.symm hj
    exact ⟨i, hi, hunique i j hi hj (same_symm hji)⟩
  · have hi := Sound.contains_of_lookup hd
    obtain ⟨hcontains, hsame⟩ := hf i hi
    obtain ⟨d', hd'⟩ := Sound.exists_of_contains hcontains
    have hmem := Entries.mem_of_lookup_eq_some hd
    have hmem' := Entries.mem_of_lookup_eq_some hd'
    refine ⟨d', hd', ?_, fun place ↦ ?_⟩
    · rw [hc.sound.unfold_ref hd, hc'.sound.unfold_ref hd'] at hsame
      refine (hc.bodies _ (List.mem_map_of_mem hmem)).rename_same
        (hc'.bodies _ (List.mem_map_of_mem hmem')) (fun r hr k hk ↦ ?_) hsame
      exact hunique r k (hc.sound.known hmem r hr) (hc'.sound.known hmem' k hk)
    · rw [hc.mem_places_iff hd hsame, hc'.mem_places_iff hd' (same_refl _), h]

/-! ### What the documents determine -/

/-- A document is noted like any other with its name and shape. -/
theorem documentNotes_subset {policy : Policy} {documents documents' : List (String × Json)}
    (h : ∀ d ∈ documents, ∃ d' ∈ documents', d.1 = d'.1 ∧
      (ofJson policy d.2).same (ofJson policy d'.2) = true) :
    (⋃ d ∈ documents, (ofJson policy d.2).documentNotes d.1) ⊆
      ⋃ d ∈ documents', (ofJson policy d.2).documentNotes d.1 := by
  refine Set.iUnion₂_subset fun d hd ↦ ?_
  obtain ⟨d', hd', hname, hsame⟩ := h d hd
  rw [documentNotes_eq_of_same hsame, hname]
  exact Set.subset_biUnion_of_mem (u := fun d : String × Json ↦
    (ofJson policy d.2).documentNotes d.1) hd'

/-- What is noted for documents does not depend on their order. -/
theorem iUnion_documentNotes_eq {policy : Policy} {documents documents' : List (String × Json)}
    (σ : Fin documents.length ≃ Fin documents'.length)
    (hσ : ∀ i, (documents.get i).1 = (documents'.get (σ i)).1 ∧
      (ofJson policy (documents.get i).2).same (ofJson policy (documents'.get (σ i)).2) = true) :
    (⋃ d ∈ documents, (ofJson policy d.2).documentNotes d.1) =
      ⋃ d ∈ documents', (ofJson policy d.2).documentNotes d.1 := by
  refine Set.Subset.antisymm (documentNotes_subset fun d hd ↦ ?_)
    (documentNotes_subset fun d hd ↦ ?_)
  · obtain ⟨i, rfl⟩ := List.mem_iff_get.1 hd
    exact ⟨_, List.get_mem _ _, hσ i⟩
  · obtain ⟨j, rfl⟩ := List.mem_iff_get.1 hd
    obtain ⟨i, rfl⟩ := σ.surjective j
    exact ⟨_, List.get_mem _ _, (hσ i).1.symm, same_symm (hσ i).2⟩

/-- The declarations do not depend on the order of the documents. If two lists of documents agree,
up to a permutation, in names and in the shapes of values, then the catalogs that they make are
renamings of each other, and the renaming takes what stands for a document to what stands for it in
the other catalog. -/
theorem addDocuments_rearranged (policy : Policy) {documents documents' : List (String × Json)}
    (h : ∀ document ∈ documents, document.2.Keyed) (h' : ∀ document ∈ documents', document.2.Keyed)
    (σ : Fin documents.length ≃ Fin documents'.length)
    (hσ : ∀ i, (documents.get i).1 = (documents'.get (σ i)).1 ∧
      (ofJson policy (documents.get i).2).same (ofJson policy (documents'.get (σ i)).2) = true) :
    ∃ roots c roots' c' f, Hoisting.addDocuments policy documents empty = (.ok roots, c) ∧
      Hoisting.addDocuments policy documents' empty = (.ok roots', c') ∧ Renaming f c c' ∧
      ∀ i : Fin documents.length, ∃ root, roots[(i : Nat)]? = some root ∧
        c.contains root = true ∧ roots'[(σ i : Nat)]? = some (f root) := by
  obtain ⟨roots, c, hrun, -, hnoted, htidy, hroots⟩ :=
    records_addDocuments policy h (sound_empty Sorted)
  obtain ⟨roots', c', hrun', -, hnoted', htidy', hroots'⟩ :=
    records_addDocuments policy h' (sound_empty Sorted)
  have hnotes : c.noted = c'.noted := by
    rw [hnoted, hnoted', iUnion_documentNotes_eq σ hσ]
  obtain ⟨f, hrenaming, hunique⟩ :=
    (htidy tidy_empty).exists_renaming (htidy' tidy_empty) hnotes
  refine ⟨roots, c, roots', c', f, hrun, hrun', hrenaming, fun i ↦ ?_⟩
  have hi : (i : Nat) < roots.length := i.isLt.trans_eq hroots.length_eq.symm
  have hj : (σ i : Nat) < roots'.length := (σ i).isLt.trans_eq hroots'.length_eq.symm
  have hroot := hroots.get hi i.isLt
  have hroot' := hroots'.get hj (σ i).isLt
  have hknown := hroot.known _ (List.mem_singleton_self _)
  refine ⟨roots[i], List.getElem?_eq_getElem hi, hknown, ?_⟩
  rw [List.getElem?_eq_getElem hj, Option.some.injEq, eq_comm]
  refine hunique _ _ hknown (hroot'.known _ (List.mem_singleton_self _)) ?_
  exact same_trans hroot.unfold_same (same_trans (hσ i).2 (same_symm hroot'.unfold_same))

/-- Documents of which the first comes last: then its items come in another order, a later document
has declared a part of it before, and the members of an object are turned round. -/
theorem addDocuments_rearranged_first_last :
    let documents : List (String × Json) :=
      [("1.json", .array [.object [("b", .string "x")], .object [("a", .array [])]]),
       ("2.json", .array [.number (.int 1)]),
       ("3.json", .object [("b", .string "y"), ("a", .array [])])]
    let documents' : List (String × Json) :=
      [("2.json", .array [.number (.int 2), .number (.int 3)]),
       ("3.json", .object [("a", .array []), ("b", .string "z")]),
       ("1.json", .array [.object [("a", .array [])], .object [("b", .string "x")]])]
    let σ : Fin documents.length ≃ Fin documents'.length :=
      (Equiv.swap (0 : Fin 3) 1).trans (Equiv.swap 1 2)
    ((∀ document ∈ documents, document.2.Keyed) ∧ (∀ document ∈ documents', document.2.Keyed) ∧
      ∀ i, (documents.get i).1 = (documents'.get (σ i)).1 ∧
        (ofJson .union (documents.get i).2).same (ofJson .union (documents'.get (σ i)).2) = true) ∧
    ∃ roots c roots' c' f, Hoisting.addDocuments .union documents empty = (.ok roots, c) ∧
      Hoisting.addDocuments .union documents' empty = (.ok roots', c') ∧ Renaming f c c' ∧
      ∀ i : Fin documents.length, ∃ root, roots[(i : Nat)]? = some root ∧
        c.contains root = true ∧ roots'[(σ i : Nat)]? = some (f root) := by
  intro documents documents' σ
  have hsingle : ∀ name text, (Json.object [(name, .string text)]).Keyed :=
    fun name text ↦ .object (by simp) (by simpa using .string text)
  have hempty : (Json.object [("a", .array [])]).Keyed :=
    .object (by simp) (by simpa using .array nofun)
  have hkeyed : ∀ document ∈ documents, document.2.Keyed := by
    simp only [documents, List.forall_mem_cons, List.not_mem_nil, false_imp_iff, implies_true,
      and_true]
    refine ⟨.array ?_, .array ?_, .object (by decide) ?_⟩
    · simpa using ⟨hsingle _ _, hempty⟩
    · simpa using .number _
    · simpa using ⟨.string _, .array nofun⟩
  have hkeyed' : ∀ document ∈ documents', document.2.Keyed := by
    simp only [documents', List.forall_mem_cons, List.not_mem_nil, false_imp_iff, implies_true,
      and_true]
    refine ⟨.array ?_, .object (by decide) ?_, .array ?_⟩
    · simpa using ⟨.number _, .number _⟩
    · simpa using ⟨.array nofun, .string _⟩
    · simpa using ⟨hempty, hsingle _ _⟩
  have hfirst : (ofJson .union (documents.get 0).2).same
      (ofJson .union (documents'.get 2).2) = true := by
    simp [documents, documents', ofJson, ofItems, ofMemberList, ofFields, List.mergeSort,
      List.MergeSort.Internal.splitInTwo, joinAll, reduce?, join, joinWithin, joinLayer, depth,
      depthOfFields, joinObjects, joinFields, Field.get?, same, sameFields]
  have hthird : (ofJson .union (documents.get 2).2).same
      (ofJson .union (documents'.get 1).2) = true := by
    simp [documents, documents', ofJson, ofItems, ofMemberList, ofFields, List.mergeSort,
      List.MergeSort.Internal.splitInTwo, joinAll, reduce?, same, sameFields]
  have hshapes : ∀ i, (documents.get i).1 = (documents'.get (σ i)).1 ∧
      (ofJson .union (documents.get i).2).same (ofJson .union (documents'.get (σ i)).2) = true := by
    rintro ⟨_ | _ | _ | i, hi⟩
    · exact ⟨rfl, hfirst⟩
    · exact ⟨rfl, rfl⟩
    · exact ⟨rfl, hthird⟩
    · exact absurd hi (by simp [documents])
  exact ⟨⟨hkeyed, hkeyed', hshapes⟩, addDocuments_rearranged .union hkeyed hkeyed' σ hshapes⟩

end JsonShapes.Catalog
