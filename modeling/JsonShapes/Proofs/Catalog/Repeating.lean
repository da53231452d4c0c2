import JsonShapes.Proofs.Catalog.Growing
import JsonShapes.Proofs.Catalog.Shuffling
import JsonShapes.Proofs.Catalog.Verifying

/-!
# Converting again adds nothing

What a computation has declared it finds again, in every catalog that has grown since: each of its
look-ups leads to the declaration that was found or made the first time. So it has the same result
once more and declares nothing (`Hoisting.Repeats`). It may add places, but not if it goes by the
labels of the first time, as those are there.

Hoisting repeats itself in this way whatever the shape and whatever the names of the document
(`Shape.repeats_hoist`). And what hoisting leaves in the place of a shape has nothing in it that is
to be declared, so hoisting it in turn leaves the catalog alone (`Catalog.Settled.exists_hoist`).

What is repeated need not be the same computation: hoisting for a document of another name is
another one, which differs in the places. So `Hoisting.Repeats` relates two, and its first argument
says when they have the same places.

## Later catalogs

Between the first time and the second anything may have been done to the catalog, so what is
repeated is repeated in a catalog that has grown. All that is used of it is that every declaration
is still there under its number and its key, with the places it had (`Grows`). In particular it does
not matter what calls those were, or whether they failed.
-/

namespace JsonShapes

open Shape

namespace Catalog

variable {allowed : Shape → Prop} {c c' c'' later : Catalog} {t : Shape} {id : Int} {place : String}

/-! ### More places at most -/

/-- Nothing was declared between two catalogs: the later one may have more places, and is the
earlier one in all else. -/
structure Annotates (c c' : Catalog) : Prop extends c.Grows c' where
  /-- There are as many declarations. -/
  size_eq : c'.size = c.size
  /-- They have the same keys. -/
  index_eq : c'.index = c.index
  /-- No number was given out. -/
  nextId_eq : c'.nextId = c.nextId

namespace Annotates

theorem refl : c.Annotates c :=
  ⟨.refl, rfl, rfl, rfl⟩

theorem trans (h : c.Annotates c') (h' : c'.Annotates c'') : c.Annotates c'' where
  toGrows := h.toGrows.trans h'.toGrows
  size_eq := h'.size_eq.trans h.size_eq
  index_eq := h'.index_eq.trans h.index_eq
  nextId_eq := h'.nextId_eq.trans h.nextId_eq

/-- Adding a place declares nothing. -/
theorem of_addPlace (h : c.addPlace id place = .ok c') : c.Annotates c' := by
  obtain ⟨d, hd, rfl⟩ := addPlace_eq_ok_iff.1 h
  split
  · exact .refl
  · refine ⟨grows_setPlaces place hd, ?_, rfl, rfl⟩
    have hids : (Entries.set id { d with places := d.places ++ [place] } c.slots).map (·.1) =
        c.slots.map (·.1) := Entries.map_set_of_lookup hd rfl
    simpa [size] using congrArg List.length hids

end Annotates

/-! ### Declarations are found again -/

/-- What a key led to it leads to ever after. -/
theorem Grows.lookup_eq (h : c.Grows c') {key : String} (hid : c.lookup key = some id) :
    c'.lookup key = some id := by
  obtain ⟨rest, hrest⟩ := h.index_initial
  have hid : c.index.lookup key = some id := hid
  rw [lookup, ← hrest, List.lookup_append, hid]
  rfl

/-- A declaration keeps its places. -/
theorem Grows.placesOf_subset (h : c.Grows c') (hc' : Sound allowed c') :
    c.placesOf id ⊆ c'.placesOf id := by
  intro place hplace
  obtain ⟨d, hd, hplace⟩ := mem_placesOf.1 hplace
  obtain ⟨i, hi⟩ := List.mem_iff_getElem?.1 (Entries.mem_of_lookup_eq_some hd)
  obtain ⟨d', hd', hkept⟩ := h.slots i id d hi
  have hlookup := (Entries.lookup_eq_some_iff hc'.ids_nodup).2 (List.mem_of_getElem? hd')
  exact mem_placesOf.2 ⟨d', hlookup, hkept.places_initial.subset hplace⟩

/-- A shape that was declared has its key in the index, and the place among those of its number. -/
theorem Sound.declared (hc : Sound allowed c) (h : c.declare t place = .ok (id, c')) :
    t.foreigns = [] ∧ c'.lookup t.key = some id ∧ place ∈ c'.placesOf id := by
  obtain ⟨-, d', hd', hplaces⟩ := lookup_of_declare hc h
  have hplace : place ∈ c'.placesOf id := by
    rw [placesOf_of_lookup hd', hplaces, List.mem_eraseDups]
    exact List.mem_append_right _ (List.mem_singleton_self place)
  rcases declare_eq_ok_iff.1 h with ⟨hforeign, hlookup, hadd⟩ | hinsert
  · exact ⟨hforeign, (Annotates.of_addPlace hadd).lookup_eq hlookup, hplace⟩
  · obtain ⟨hforeign, -, -, rfl, rfl⟩ := insert_eq_ok_iff.1 hinsert
    refine ⟨hforeign, ?_, hplace⟩
    rw [lookup, Catalog.extend, Entries.lookup_set, if_pos rfl]

/-- A shape whose key is in the index is found, and nothing is declared. If the place is there as
well, nothing is done. -/
theorem Sound.exists_declare (hc : Sound allowed c) (hforeign : t.foreigns = [])
    (hlookup : c.lookup t.key = some id) (place : String) :
    ∃ c', c.declare t place = .ok (id, c') ∧ c.Annotates c' ∧
      (place ∈ c.placesOf id → c' = c) := by
  obtain ⟨d, hd, -⟩ := hc.lookup_eq_some_iff.1 hlookup
  obtain ⟨c', hplace⟩ : ∃ c', c.addPlace id place = .ok c' := ⟨_, addPlace_eq_ok_iff.2 ⟨d, hd, rfl⟩⟩
  refine ⟨c', declare_eq_ok_iff.2 (.inl ⟨hforeign, hlookup, hplace⟩), .of_addPlace hplace, ?_⟩
  intro hmem
  obtain ⟨e, he, rfl⟩ := addPlace_eq_ok_iff.1 hplace
  rw [placesOf_of_lookup he] at hmem
  rw [if_pos hmem]

end Catalog

/-! ### Computations that repeat themselves -/

namespace Hoisting

open Catalog

variable {α β : Type} {still : Prop} {c c' : Catalog}

/-- If a sequence succeeds, its parts do. -/
theorem exists_of_bind_eq_ok {m : Hoisting α} {f : α → Hoisting β} {b : β}
    (h : (m >>= f) c = (.ok b, c')) : ∃ a c₁, m c = (.ok a, c₁) ∧ f a c₁ = (.ok b, c') := by
  rcases hrun : m c with ⟨breach | a, c₁⟩
  · rw [bind_of_error hrun] at h
    exact nomatch h
  · exact ⟨a, c₁, rfl, (bind_of_ok hrun f).symm.trans h⟩

/-- After the first computation has succeeded, the second has the same result in all catalogs that
come of it. It declares nothing there, and does nothing at all if `still` holds. -/
def Repeats (still : Prop) (m m' : Hoisting α) : Prop :=
  ∀ c a c₁, Sound (fun _ ↦ True) c → m c = (.ok a, c₁) →
    Reaches (fun _ ↦ True) c c₁ ∧
      ∀ later, Sound (fun _ ↦ True) later → c₁.Grows later → ∃ c',
        m' later = (.ok a, c') ∧ Reaches (fun _ ↦ True) later c' ∧ later.Annotates c' ∧
          (still → c' = later)

namespace Repeats

theorem pure (a : α) : Repeats still (Pure.pure a) (Pure.pure a) := by
  rintro c _ c₁ - ⟨⟩
  exact ⟨.refl, fun later _ _ ↦ ⟨later, rfl, .refl, .refl, fun _ ↦ rfl⟩⟩

/-- A check that succeeded succeeds again, as it does not look at the catalog. -/
theorem lift (result : Except Breach α) :
    Repeats still (liftM result : Hoisting α) (liftM result) := by
  rintro c a c₁ - h
  obtain ⟨hresult, rfl⟩ := Prod.mk.inj ((lift_apply result c).symm.trans h)
  refine ⟨.refl, fun later _ _ ↦ ⟨later, ?_, .refl, .refl, fun _ ↦ rfl⟩⟩
  rw [lift_apply, hresult]

/-- The second part of a sequence is repeated after the first, where the catalog has more places at
most. -/
theorem bind {m m' : Hoisting α} {f f' : α → Hoisting β} (hm : Repeats still m m')
    (hf : ∀ a, Repeats still (f a) (f' a)) : Repeats still (m >>= f) (m' >>= f') := by
  intro c b c₂ hc h
  obtain ⟨a, c₁, hrun, hrest⟩ := exists_of_bind_eq_ok h
  obtain ⟨hreaches, hagain⟩ := hm c a c₁ hc hrun
  obtain ⟨hreaches', hagain'⟩ := hf a c₁ b c₂ (hreaches.sound hc) hrest
  refine ⟨hreaches.trans hreaches', fun later hlater hgrows ↦ ?_⟩
  -- the later catalog has grown from the one between, as it has from the last
  have hbetween := hreaches'.grows (hreaches.sound hc)
  obtain ⟨c₃, hrun', hreaches₃, hannotates, hkept⟩ := hagain later hlater (hbetween.trans hgrows)
  obtain ⟨c₄, hrest', hreaches₄, hannotates', hkept'⟩ :=
    hagain' c₃ (hreaches₃.sound hlater) (hgrows.trans hannotates.toGrows)
  exact ⟨c₄, (bind_of_ok hrun' f').trans hrest', hreaches₃.trans hreaches₄,
    hannotates.trans hannotates', fun h ↦ (hkept' h).trans (hkept h)⟩

/-- What every item repeats, the list repeats. -/
theorem mapM {f f' : α → Hoisting β} {l : List α} (h : ∀ a ∈ l, Repeats still (f a) (f' a)) :
    Repeats still (l.mapM f) (l.mapM f') := by
  induction l with
  | nil =>
    rw [List.mapM_nil, List.mapM_nil]
    exact pure []
  | cons a l ih =>
    rw [List.mapM_cons, List.mapM_cons]
    refine bind (h a List.mem_cons_self) fun b ↦ ?_
    exact bind (ih fun a ha ↦ h a (List.mem_cons_of_mem _ ha)) fun bs ↦ pure (b :: bs)

/-- A declaration is found again, and so is its place if the two are the same. -/
theorem declare (t : Shape) {place place' : String} (h : still → place = place') :
    Repeats still (Hoisting.declare t place) (Hoisting.declare t place') := by
  intro c id c₁ hc hrun
  have hdeclare := declare_apply_eq_ok_iff.1 hrun
  refine ⟨.single (change_of_declare trivial hdeclare), fun later hlater hgrows ↦ ?_⟩
  obtain ⟨hforeign, hlookup, hplace⟩ := hc.declared hdeclare
  obtain ⟨c', hagain, hannotates, hkept⟩ :=
    hlater.exists_declare hforeign (hgrows.lookup_eq hlookup) place'
  refine ⟨c', declare_apply_eq_ok_iff.2 hagain, .single (change_of_declare trivial hagain),
    hannotates, fun hstill ↦ ?_⟩
  exact hkept (h hstill ▸ hgrows.placesOf_subset hlater hplace)

end Repeats

end Hoisting

/-! ### Hoisting again -/

namespace Shape

open Hoisting

/-- Hoisting a shape again for any document finds what it declared, and with the name of the first
document it finds the places as well. -/
theorem repeats_hoist (document document' : String) (s : Shape) (pointer : String) :
    Repeats (document = document') (s.hoist document pointer) (s.hoist document' pointer) := by
  have hdeclare : ∀ (t : Shape) (pointer : String), Repeats (document = document')
      (do return Shape.ref (← Hoisting.declare t (Pointer.label document pointer)))
      (do return Shape.ref (← Hoisting.declare t (Pointer.label document' pointer))) :=
    fun t pointer ↦ (Repeats.declare t fun h ↦ h ▸ rfl).bind fun id ↦ .pure (Shape.ref id)
  induction s generalizing pointer with
  | prim p => exact .pure _
  | emptyArray => exact hdeclare _ _
  | array e ih =>
    rw [hoist, hoist]
    refine (ih _).bind fun t ↦ ?_
    split
    · exact hdeclare _ _
    · exact .pure _
  | object fs order ih =>
    rw [hoist_object, hoist_object]
    refine (Repeats.mapM fun f hf ↦ ?_).bind fun gs ↦ hdeclare _ _
    exact (ih f (Field.mem_of_mem_inDiscoveryOrder hf) _).bind fun t ↦ .pure _
  | union ms ih =>
    rw [hoist_union, hoist_union]
    refine (Repeats.lift _).bind fun _ ↦ (Repeats.mapM fun m hm ↦ ?_).bind fun ts ↦ .pure _
    exact ih m ((byKey_perm ms).mem_iff.1 hm) pointer
  | ref id => exact .pure _
  | foreign thing => exact .pure _

/-- Where no two members mean the same, all are kept. -/
theorem distinct_eq_self {ms : List Shape} (h : ms.Pairwise fun m n ↦ m.same n = false) :
    distinct ms = ms := by
  induction ms using List.reverseRecOn with
  | nil => rfl
  | append_singleton ms m ih =>
    obtain ⟨hms, -, hlast⟩ := List.pairwise_append.1 h
    rw [distinct_concat, ih hms, if_neg]
    intro hany
    obtain ⟨k, hk, hsame⟩ := anySame_iff.1 hany
    exact nomatch (hlast k hk m (List.mem_singleton_self m)).symm.trans hsame

end Shape

namespace Catalog

open Hoisting

/-- What each item leaves a catalog as it is for, the list does. -/
theorem exists_mapM {α β : Type} {f : α → Hoisting β} {R : β → α → Prop} {later : Catalog}
    {l : List α} (h : ∀ a ∈ l, ∃ b, f a later = (.ok b, later) ∧ R b a) :
    ∃ bs, l.mapM f later = (.ok bs, later) ∧ List.Forall₂ R bs l := by
  induction l with
  | nil => exact ⟨[], rfl, .nil⟩
  | cons a l ih =>
    obtain ⟨b, hb, hR⟩ := h a List.mem_cons_self
    obtain ⟨bs, hbs, hall⟩ := ih fun a ha ↦ h a (List.mem_cons_of_mem _ ha)
    refine ⟨b :: bs, ?_, .cons hR hall⟩
    rw [List.mapM_cons, bind_of_ok hb, bind_of_ok hbs]
    rfl

/-- What hoisting leaves is hoisted to itself, for any document and in any catalog, which is left as
it is. Only the members of unions may come in another order, as their keys are others now. -/
theorem Settled.exists_hoist {c : Catalog} {t : Shape} (h : c.Settled t)
    (hdistinct : t.Irredundant) (hencodable : t.foreigns = []) (document pointer : String)
    (later : Catalog) :
    ∃ t', t.hoist document pointer later = (.ok t', later) ∧ t'.Shuffled t := by
  induction h generalizing pointer with
  | prim p => exact ⟨_, rfl, .prim p⟩
  | ref => exact ⟨_, rfl, .ref _⟩
  | @array e he hnameless ih =>
    cases hdistinct with | array hdistinct => ?_
    obtain ⟨e', hrun, he'⟩ := ih hdistinct hencodable (Pointer.extend pointer .item)
    refine ⟨.array e', ?_, .array he'⟩
    rw [hoist, bind_of_ok hrun]
    -- the element would be named if it were a reference
    cases he' with
    | ref id =>
      have hnamed := hnameless.symm.trans (he.isNamed_unfold_iff.2 ⟨id, rfl⟩)
      exact absurd hnamed Bool.false_ne_true
    | _ => rfl
  | @union ms _ ih =>
    cases hdistinct with | union hpairwise hmembers => ?_
    have hforeign : ∀ m ∈ ms, m.foreigns = [] := foreignsOfAll_eq_nil_iff.1 hencodable
    have hperm := byKey_perm ms
    have hmember : ∀ m ∈ byKey ms, ∃ t', m.hoist document pointer later = (.ok t', later) ∧
        t'.Shuffled m := fun m hm ↦
      have hm := hperm.mem_iff.1 hm
      ih m hm (hmembers m hm) (hforeign m hm) pointer
    obtain ⟨ts, hrun, hts⟩ := exists_mapM hmember
    refine ⟨ofMembers ts, ?_, ?_⟩
    · rw [hoist_union, forM_requireEncoding_eq_ok hforeign, bind_of_ok (lift_apply _ later),
        bind_of_ok hrun]
      rfl
    · have hkept : distinct (byKey ms) = byKey ms :=
        distinct_eq_self (hperm.symm.pairwise hpairwise (symm_differ.symm _ _))
      exact .union (hkept ▸ forall₂_distinct hts) hperm

/-- Converting again adds nothing. In a catalog that any calls made, and after any further calls, a
value that was converted is converted to the same shape. The catalog is left as it is if the
document has the name of the first time, and has more places at most if it has another. What the
conversion gave is hoisted to itself, for any document, and leaves the catalog as it is. -/
theorem addValue_again {calls between : List Call} (hcalls : ∀ call ∈ calls, call.Sorted)
    (policy : Policy) {value : Json} (hvalue : value.Keyed) (document : String) :
    ∃ t c, addValue policy document value (empty.after calls) = (.ok t, c) ∧
      addValue policy document value (c.after between) = (.ok t, c.after between) ∧
      (∀ other, ∃ c', addValue policy other value (c.after between) = (.ok t, c') ∧
        (c.after between).Annotates c') ∧
      ∀ other pointer, ∃ t', t.hoist other pointer (c.after between) = (.ok t', c.after between) ∧
        t'.Shuffled t := by
  have hsorted := (reaches_after_of_sorted hcalls empty).sound (sound_empty Sorted)
  obtain ⟨t, c, hrun, -, ht⟩ := (records_addValue policy document hvalue hsorted).yields
  have hsound : Sound (fun _ ↦ True) (empty.after calls) := (sound_after calls).1
  have hagain (other : String) :=
    repeats_hoist document other (ofJson policy value) "" _ t c hsound hrun
  have hc := (hagain document).1.sound hsound
  have hbetween : Reaches (fun _ ↦ True) c (c.after between) :=
    reaches_after (fun _ _ ↦ trivial) (fun _ _ _ _ ↦ trivial) c
  have hlater := hbetween.sound hc
  have hgrows := hbetween.grows hc
  refine ⟨t, c, hrun, ?_, fun other ↦ ?_, fun other pointer ↦ ?_⟩
  · obtain ⟨c', hrun', -, -, hkept⟩ := (hagain document).2 _ hlater hgrows
    rwa [hkept rfl] at hrun'
  · obtain ⟨c', hrun', -, hannotates, -⟩ := (hagain other).2 _ hlater hgrows
    exact ⟨c', hrun', hannotates⟩
  · exact ht.settled.exists_hoist ht.irredundant ht.encodable other pointer _

/-- Objects within a union whose contents come in two orders, an array without items among them;
before and after them a document that is declared inline, and a call that is refused. -/
theorem addValue_again_alternatives :
    let calls : List Call := [.addValue .unknown "1.json" (.array [.number (.int 1)]),
      .declareRoot (.array (.prim .number)) "1.json"]
    let between : List Call := [.addValue .union "3.json" (.array [.object []]),
      .insert (.array (.ref 9)) "3.json", .addPlace 1 "3.json"]
    let value : Json := .array [.null, .object [("b", .array []), ("a", .array [.null])],
      .array [.object []], .object [("a", .array [.bool true])]]
    ((∀ call ∈ calls, call.Sorted) ∧ value.Keyed) ∧
      ∃ t c, addValue .union "2.json" value (empty.after calls) = (.ok t, c) ∧
        addValue .union "2.json" value (c.after between) = (.ok t, c.after between) ∧
        (∀ other, ∃ c', addValue .union other value (c.after between) = (.ok t, c') ∧
          (c.after between).Annotates c') ∧
        ∀ other pointer, ∃ t',
          t.hoist other pointer (c.after between) = (.ok t', c.after between) ∧ t'.Shuffled t := by
  intro calls between value
  have hcalls : ∀ call ∈ calls, call.Sorted := by
    simpa [calls, Call.Sorted] using .array (.prim .number)
  have hempty : (Json.object []).Keyed := .object (by decide) (List.forall_mem_nil _)
  have hsingle : ∀ {item : Json}, item.Keyed → (Json.array [item]).Keyed :=
    fun hitem ↦ .array (List.forall_mem_singleton.2 hitem)
  have hvalue : value.Keyed := by
    refine .array ?_
    simp only [List.forall_mem_cons, List.not_mem_nil, false_imp_iff, implies_true, and_true]
    refine ⟨.null, .object (by decide) ?_, hsingle hempty, .object (by decide) ?_⟩
    · simpa using ⟨.array (List.forall_mem_nil _), hsingle .null⟩
    · simpa using hsingle (.bool true)
  exact ⟨⟨hcalls, hvalue⟩, addValue_again hcalls .union hvalue "2.json"⟩

end Catalog

end JsonShapes
