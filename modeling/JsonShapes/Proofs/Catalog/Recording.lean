import JsonShapes.Proofs.Catalog.Representing
import JsonShapes.Proofs.Catalog.Settled

/-!
# What a catalog records

Read without its numbers, a catalog says of what shapes which places were noted
(`Catalog.noted`). Declaring a shape adds one note, be the shape declared already or not
(`noted_of_declare`), so the notes that a computation leaves do not depend on the order in which it
makes them (`Hoisting.Records`). The computation keeps a tidy catalog tidy: it declares only what is
made of shapes that hoisting may leave in its place (`Catalog.Denotes`, `Catalog.Embodies`).

The notes are a set of pairs, closed under changing the shape for one that means the same, so that
they can be compared between catalogs whose references differ. `Hoisting.Records` bundles what is
carried through a computation: that it succeeds, what it notes, that it keeps a tidy catalog tidy,
and what is known of its result.

## Why notes are sets

Two runs over the same documents in another order give out other numbers, and find the places of a
declaration in another order. What they have in common is which shapes were seen where. That is a
set, and declaring adds one element to it; so whatever is computed by declaring adds a union of
elements, in which no order is left (`Records.bind`, `Records.mapM`). Numbers come back at the end,
when two tidy catalogs with the same notes are compared.
-/

namespace JsonShapes

open Shape

namespace Catalog

variable {allowed : Shape → Prop} {c c' : Catalog} {s t : Shape} {place : String} {id : Int}

/-! ### Notes -/

/-- What the catalog has noted: the places of each declaration, for whatever means the same as what
it unfolds to. -/
def noted (c : Catalog) : Set (Shape × String) :=
  {o | ∃ id d, c.slots.lookup id = some d ∧ (c.unfold (.ref id)).same o.1 = true ∧ o.2 ∈ d.places}

theorem noted_empty : empty.noted = ∅ :=
  Set.eq_empty_of_forall_notMem fun _ ⟨_, _, hlookup, _⟩ ↦ nomatch hlookup

/-- The places of the declaration of a number. -/
def placesOf (c : Catalog) (id : Int) : List String :=
  ((c.slots.lookup id).map (·.places)).getD []

theorem placesOf_of_lookup {d : Declaration} (hd : c.slots.lookup id = some d) :
    c.placesOf id = d.places := by
  rw [placesOf, hd]
  rfl

/-- A number that was not given out has no place. -/
theorem mem_placesOf {p : String} :
    p ∈ c.placesOf id ↔ ∃ d, c.slots.lookup id = some d ∧ p ∈ d.places := by
  rw [placesOf]
  cases c.slots.lookup id with
  | none => simp
  | some d => simp

/-- No place is listed twice. -/
theorem Sound.nodup_placesOf (hc : Sound allowed c) (id : Int) : (c.placesOf id).Nodup := by
  rw [placesOf]
  cases hd : c.slots.lookup id with
  | none => exact List.nodup_nil
  | some d => exact (hc.fits _ (Entries.mem_of_lookup_eq_some hd)).places_nodup

/-- After a shape is declared, its declaration has the place besides those that it had, and every
other declaration is as it was. -/
theorem lookup_of_declare (hc : Sound allowed c) (h : c.declare t place = .ok (id, c')) :
    (∀ other ≠ id, c'.slots.lookup other = c.slots.lookup other) ∧
      ∃ d', c'.slots.lookup id = some d' ∧ d'.places = (c.placesOf id ++ [place]).eraseDups := by
  rcases declare_eq_ok_iff.1 h with ⟨-, -, hplace⟩ | hinsert
  · obtain ⟨d, hd, rfl⟩ := addPlace_eq_ok_iff.1 hplace
    have hnodup := (hc.fits _ (Entries.mem_of_lookup_eq_some hd)).places_nodup
    rw [placesOf_of_lookup hd]
    split
    · refine ⟨fun other _ ↦ rfl, d, hd, ?_⟩
      rw [List.eraseDups_append, eraseDups_of_nodup hnodup]
      simp [List.removeAll, *]
    · refine ⟨fun other hother ↦ ?_, { d with places := d.places ++ [place] }, ?_, ?_⟩
      · rw [Entries.lookup_set, if_neg hother]
      · rw [Entries.lookup_set, if_pos rfl]
      · refine (eraseDups_of_nodup (List.nodup_append.2 ⟨hnodup, List.nodup_singleton _, ?_⟩)).symm
        exact fun p hp q hq hpq ↦ ‹place ∉ d.places› (List.mem_singleton.1 hq ▸ hpq ▸ hp)
  · obtain ⟨-, -, -, rfl, rfl⟩ := insert_eq_ok_iff.1 hinsert
    have hfresh : c.slots.lookup c.nextId = none := by
      rw [Entries.lookup_eq_none_iff, hc.mem_ids]
      omega
    refine ⟨fun other hother ↦ ?_, ⟨c.nextId, t, t.key, [place]⟩, ?_, ?_⟩
    · rw [Catalog.extend, Entries.lookup_set, if_neg hother]
    · rw [Catalog.extend, Entries.lookup_set, if_pos rfl]
    · rw [placesOf, hfresh]
      rfl

/-- The number of a shape is one that was declared before, or else the shape is the last one
declared under it. -/
theorem shapes_of_declare (hc : Sound allowed c) (h : c.declare t place = .ok (id, c')) :
    (c.contains id = true ∧ c'.shapes = c.shapes) ∨
      (c.contains id = false ∧ c'.shapes = c.shapes ++ [(id, t)]) := by
  rcases declare_eq_ok_iff.1 h with ⟨-, -, hplace⟩ | hinsert
  · obtain ⟨d, hd, rfl⟩ := addPlace_eq_ok_iff.1 hplace
    refine .inl ⟨Sound.contains_of_lookup hd, ?_⟩
    split
    · rfl
    · exact Entries.map_set_of_lookup hd rfl
  · obtain ⟨-, -, -, rfl, rfl⟩ := insert_eq_ok_iff.1 hinsert
    refine .inr ⟨?_, ?_⟩
    · rw [Bool.eq_false_iff, ne_eq, hc.contains_iff]
      exact fun h ↦ lt_irrefl _ h.2
    · rw [shapes, hc.slots_extend, List.map_append]
      rfl

/-- Declaring a shape notes its place, and nothing else. Declared numbers go on to unfold to what
they did, so what is new about them can only be the place under the number that the call returned.
-/
theorem noted_of_declare (hc : Sound allowed c) (h : c.declare t place = .ok (id, c'))
    (hinitial : c.shapes <+: c'.shapes) (hid : (c'.unfold (.ref id)).same s = true) :
    c'.noted = c.noted ∪ s.note place := by
  obtain ⟨hothers, d', hd', hd'places⟩ := lookup_of_declare hc h
  have hplaces : ∀ p, p ∈ d'.places ↔
      (∃ d, c.slots.lookup id = some d ∧ p ∈ d.places) ∨ p = place := fun p ↦ by
    rw [hd'places, List.mem_eraseDups, List.mem_append, mem_placesOf, List.mem_singleton]
  -- a number that was declared before unfolds to what it did
  have hkept : ∀ {i d}, c.slots.lookup i = some d → c'.unfold (.ref i) = c.unfold (.ref i) := by
    intro i d hd
    refine unfold_eq_of_initial hinitial fun r hr ↦ ?_
    exact List.mem_singleton.1 hr ▸ Sound.contains_of_lookup hd
  ext ⟨x, p⟩
  constructor
  · rintro ⟨i, d, hd, hx, hp⟩
    by_cases hi : i = id
    · subst hi
      obtain rfl := Option.some.inj (hd.symm.trans hd')
      rcases (hplaces p).1 hp with ⟨d, hd, hp⟩ | hp
      · exact .inl ⟨i, d, hd, hkept hd ▸ hx, hp⟩
      · exact .inr ⟨same_trans (same_symm hid) hx, hp⟩
    · rw [hothers i hi] at hd
      exact .inl ⟨i, d, hd, hkept hd ▸ hx, hp⟩
  · rintro (⟨i, d, hd, hx, hp⟩ | ⟨hx, hp⟩)
    · rw [← hkept hd] at hx
      by_cases hi : i = id
      · subst hi
        exact ⟨i, d', hd', hx, (hplaces p).2 (.inl ⟨d, hd, hp⟩)⟩
      · exact ⟨i, d, (hothers i hi).trans hd, hx, hp⟩
    · exact ⟨id, d', hd', same_trans hid hx, (hplaces p).2 (.inr hp)⟩

/-! ### What hoisting leaves and declares -/

/-- In the catalog, a shape that hoisting may leave in the place of another represents it. -/
structure Denotes (c : Catalog) (t s : Shape) : Prop extends c.Represents t s where
  settled : c.Settled t
  irredundant : t.Irredundant

/-- In the catalog, a shape that may be declared for another represents it. -/
structure Embodies (c : Catalog) (t s : Shape) : Prop extends c.Represents t s where
  body : c.Body t
  irredundant : t.Irredundant

/-- A field that represents another, whose content hoisting may leave. -/
structure DenotesField (c : Catalog) (g f : Field Shape) : Prop extends c.RepresentsField g f where
  settled : c.Settled g.content
  irredundant : g.content.Irredundant

theorem Denotes.mono (h : c.shapes <+: c'.shapes) (hts : c.Denotes t s) : c'.Denotes t s :=
  ⟨hts.toRepresents.mono h, hts.settled.mono h hts.known, hts.irredundant⟩

theorem DenotesField.mono {g f : Field Shape} (h : c.shapes <+: c'.shapes)
    (hgf : c.DenotesField g f) : c'.DenotesField g f :=
  ⟨hgf.toRepresentsField.mono h, hgf.settled.mono h hgf.content.known, hgf.irredundant⟩

/-- Hoisting leaves a reference for what it names, and for nothing else. -/
theorem Denotes.isNamed_iff (h : c.Denotes t s) : s.isNamed = true ↔ ∃ id, t = .ref id := by
  rw [← isNamed_of_same h.unfold_same, h.settled.isNamed_unfold_iff]

theorem denotes_prim (c : Catalog) (p : Primitive) : c.Denotes (.prim p) (.prim p) :=
  ⟨represents_prim c p, .prim p, .prim p⟩

theorem Represents.denotes_ref (h : c.Represents (.ref id) s) (hs : s.isNamed = true) :
    c.Denotes (.ref id) s :=
  ⟨h, .ref (isNamed_of_same h.unfold_same ▸ hs), .ref id⟩

theorem Denotes.array (h : c.Denotes t s) (hs : s.isNamed = false) :
    c.Denotes (.array t) (.array s) :=
  ⟨h.toRepresents.array, .array h.settled (isNamed_of_same h.unfold_same ▸ hs),
    .array h.irredundant⟩

/-- A union is left of what is left for its members, in any order, without those that mean the same
as others. -/
theorem denotes_ofMembers {ts ms ms' : List Shape} (hperm : ms'.Perm ms)
    (h : List.Forall₂ c.Denotes ts ms') : c.Denotes (ofMembers ts) (.union ms) := by
  have hmem : ∀ t ∈ distinct ts, ∃ m, c.Denotes t m := by
    intro t ht
    obtain ⟨m, -, htm⟩ := exists_of_forall₂_left h (mem_of_mem_distinct ht)
    exact ⟨m, htm⟩
  refine ⟨represents_ofMembers hperm (h.imp fun _ _ htm ↦ htm.toRepresents), ?_, ?_⟩
  · refine .union fun t ht ↦ ?_
    obtain ⟨m, htm⟩ := hmem t ht
    exact htm.settled
  · refine .union (pairwise_distinct ts) fun t ht ↦ ?_
    obtain ⟨m, htm⟩ := hmem t ht
    exact htm.irredundant

theorem embodies_emptyArray (c : Catalog) : c.Embodies .emptyArray .emptyArray :=
  ⟨represents_emptyArray c, .emptyArray, .emptyArray⟩

theorem Denotes.embodies_array (h : c.Denotes t s) (hs : s.isNamed = true) :
    c.Embodies (.array t) (.array s) :=
  ⟨h.toRepresents.array, .array h.settled (isNamed_of_same h.unfold_same ▸ hs),
    .array h.irredundant⟩

/-- An object is declared with what is left for the contents of its fields, in whatever order these
were hoisted. -/
theorem embodies_ofFields {gs fs fs' : List (Field Shape)} (order order' : List String)
    (hfs : Field.Increasing fs) (hperm : fs'.Perm fs) (h : List.Forall₂ c.DenotesField gs fs') :
    c.Embodies (ofFields gs order) (.object fs order') := by
  have hmem : ∀ g ∈ Field.sorted gs, ∃ f, c.DenotesField g f := by
    intro g hg
    obtain ⟨f, -, hgf⟩ := exists_of_forall₂_left h ((Field.sorted_perm gs).mem_iff.1 hg)
    exact ⟨f, hgf⟩
  refine ⟨represents_ofFields order order' hfs hperm (h.imp fun _ _ hgf ↦ hgf.toRepresentsField),
    .object _ fun g hg ↦ ?_, .object _ fun g hg ↦ ?_⟩
  · obtain ⟨f, hgf⟩ := hmem g hg
    exact hgf.settled
  · obtain ⟨f, hgf⟩ := hmem g hg
    exact hgf.irredundant

/-- What hoisting leaves in its place may be declared for a whole document. -/
theorem Denotes.embodies (h : c.Denotes t s) (hs : s.isNamed = false) : c.Embodies t s :=
  ⟨h.toRepresents, .inline h.settled (isNamed_of_same h.unfold_same ▸ hs), h.irredundant⟩

end Catalog

/-! ### Computations that record -/

namespace Hoisting

open Catalog

variable {α β : Type} {c c' : Catalog} {notes notes' : Set (Shape × String)}

/-- In this catalog the computation succeeds and makes these notes. It leaves a tidy catalog tidy,
and its result stands in this relation to the catalog that it leaves. -/
def Records (c : Catalog) (m : Hoisting α) (notes : Set (Shape × String))
    (post : Catalog → α → Prop) : Prop :=
  Yields Sorted c m fun c' a ↦ c'.noted = c.noted ∪ notes ∧ (c.Tidy → c'.Tidy) ∧ post c' a

namespace Records

variable {post : Catalog → α → Prop} {post' : Catalog → β → Prop}

theorem yields {m : Hoisting α} (h : Records c m notes post) : Yields Sorted c m post := by
  obtain ⟨a, c', hrun, hreaches, -, -, hpost⟩ := h
  exact ⟨a, c', hrun, hreaches, hpost⟩

theorem pure {a : α} (h : post c a) : Records c (pure a) ∅ post :=
  Yields.pure ⟨(Set.union_empty _).symm, id, h⟩

theorem lift {result : Except Breach α} {a : α} (h : result = .ok a) :
    Records c (liftM result : Hoisting α) ∅ fun _ b ↦ b = a :=
  ⟨a, c, by rw [lift_apply, h], .refl, (Set.union_empty _).symm, id, rfl⟩

/-- A sequence makes the notes of both parts. -/
theorem bind {m : Hoisting α} {f : α → Hoisting β} (hm : Records c m notes post)
    (hf : ∀ c' a, Reaches Sorted c c' → post c' a → Records c' (f a) notes' post') :
    Records c (m >>= f) (notes ∪ notes') post' := by
  refine Yields.bind hm fun c₁ a hreaches ⟨hnoted, htidy, ha⟩ ↦ ?_
  obtain ⟨b, c₂, hrun, hreaches', hnoted', htidy', hb⟩ := hf c₁ a hreaches ha
  refine ⟨b, c₂, hrun, hreaches', ?_, htidy' ∘ htidy, hb⟩
  rw [hnoted', hnoted, Set.union_assoc]

/-- What is made of a result needs no note. -/
theorem map {m : Hoisting α} {g : α → β} (hm : Records c m notes post)
    (hg : ∀ c' a, Reaches Sorted c c' → post c' a → post' c' (g a)) :
    Records c (m >>= fun a ↦ Pure.pure (g a)) notes post' := by
  have h := hm.bind fun c' a hreaches ha ↦ pure (hg c' a hreaches ha)
  rwa [Set.union_empty] at h

/-- A list makes the notes of all its items. -/
theorem mapM {f : α → Hoisting β} {notesOf : α → Set (Shape × String)}
    {R : Catalog → β → α → Prop}
    (hmono : ∀ {c c' b a}, Reaches Sorted c c' → Sound Sorted c → R c b a → R c' b a)
    {l : List α}
    (h : ∀ a ∈ l, ∀ c, Sound Sorted c → Records c (f a) (notesOf a) fun c' b ↦ R c' b a)
    (hc : Sound Sorted c) :
    Records c (l.mapM f) (⋃ a ∈ l, notesOf a) fun c' bs ↦ List.Forall₂ (R c') bs l := by
  induction l generalizing c with
  | nil =>
    rw [List.mapM_nil, show (⋃ a ∈ ([] : List α), notesOf a) = ∅ by simp]
    exact pure .nil
  | cons a l ih =>
    have hnotes : (⋃ b ∈ a :: l, notesOf b) = notesOf a ∪ ⋃ b ∈ l, notesOf b := by
      simp [Set.iUnion_or, Set.iUnion_union_distrib]
    rw [List.mapM_cons, hnotes]
    refine bind (h a List.mem_cons_self c hc) fun c₁ b hreaches hb ↦ ?_
    have hc₁ := hreaches.sound hc
    refine (ih (fun a ha ↦ h a (List.mem_cons_of_mem _ ha)) hc₁).map fun c₂ bs hreaches' hbs ↦ ?_
    exact .cons (hmono hreaches' hc₁ hb) hbs

end Records

/-- Declaring a shape makes one note, and the reference to it represents what the shape did. -/
theorem records_declare {t s : Shape} (hc : Sound Sorted c) (h : c.Embodies t s)
    (place : String) : Records c (Hoisting.declare t place) (s.note place) fun c' id ↦
      c'.Represents (.ref id) s := by
  obtain ⟨id, c', hrun, hreaches, hid⟩ := yields_declare hc h.toRepresents place
  have hdeclare := declare_apply_eq_ok_iff.1 hrun
  refine ⟨id, c', hrun, hreaches, ?_, fun htidy ↦ ?_, hid⟩
  · exact noted_of_declare hc hdeclare (hreaches.shapes_initial hc) hid.unfold_same
  · -- nothing is declared, or what embodies the shape is
    refine htidy.of_shapes (hreaches.sound hc) h.body h.irredundant h.known ?_
    exact (shapes_of_declare hc hdeclare).imp (·.2) fun hnew ↦ ⟨id, hnew.2⟩

/-- Declaring what hoisting names leaves a reference in its place. -/
theorem records_declareNamed {t s : Shape} (hc : Sound Sorted c) (h : c.Embodies t s)
    (hs : s.isNamed = true) (place : String) :
    Records c (do return .ref (← Hoisting.declare t place)) (s.note place) fun c' t ↦
      c'.Denotes t s :=
  (records_declare hc h place).map fun _ _ _ hid ↦ hid.denotes_ref hs

end Hoisting

end JsonShapes
