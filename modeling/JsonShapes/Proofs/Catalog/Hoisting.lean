import JsonShapes.Proofs.Catalog.Recording

/-!
# Hoisting a shape keeps its meaning

Whatever is hoisted, only shapes with sorted fields are declared (`extends_hoist`). A well-formed
shape without references is hoisted to one that denotes it, and its notes are all that the catalog
gains (`records_hoist`): the proof goes up the shape like hoisting itself, and what denotes the
parts hoisted before goes on denoting them, as the catalog only grows.

What is required of a property for it to hold of everything that hoisting makes is listed once
(`Shape.CarriesOver`); one induction then serves for sorted fields, for fields in step and for what
else is needed. The order in which fields and members are hoisted matters for the numbers only, so
the notes are stated for any order of them (`records_hoistFields`, `records_hoistMembers`).

## The shape of the argument

* Hoisting a shape is a sequence of steps for its parts and one step for itself. What is known of
  the parts is stated of a computation, with its notes and its result (`Hoisting.Records`), and such
  statements are put together in sequence.
* References that were made for a part go on standing for it, because a catalog keeps its initial
  part whatever is declared later. So nothing has to be said of parts again after they are done.
* At the shape itself there are two cases. It gets a declaration, or it does not and its parts are
  put in place.
-/

namespace JsonShapes

open Catalog Shape Hoisting

variable {document : String}

namespace Shape

/-! ### The steps of hoisting -/

/-- The field with its content waiting to be hoisted. -/
def waiting (document : String) (f : Field Shape) : Field Deferred :=
  ⟨f.name, f.optional, f.content.hoist document⟩

/-- Shapes in the order of their keys. -/
def byKey (ms : List Shape) : List Shape :=
  ms.mergeSort fun m n ↦ m.key ≤ n.key

theorem byKey_perm (ms : List Shape) : (byKey ms).Perm ms :=
  List.mergeSort_perm _ _

/-- What is made of each shape and sorted by key is made of the shapes in the order of their keys.
-/
theorem mergeSort_byKey {α : Type} (g : Shape → α) (ms : List Shape) :
    (ms.map fun m ↦ (m.key, g m)).mergeSort (fun a b ↦ a.1 ≤ b.1) =
      (byKey ms).map fun m ↦ (m.key, g m) := by
  rw [byKey, List.map_mergeSort]
  exact fun m _ n _ ↦ rfl

/-- The recursion over fields makes each of them wait. -/
theorem hoistFields_eq_map (fs : List (Field Shape)) :
    hoistFields document fs = fs.map (waiting document) := by
  induction fs with
  | nil => rfl
  | cons f fs ih => rw [hoistFields, ih, List.map_cons, waiting]

/-- The recursion over members gives each its key and makes it wait. -/
theorem hoistMembers_eq_map (ms : List Shape) :
    hoistMembers document ms = ms.map fun m ↦ (m.key, m.hoist document) := by
  induction ms with
  | nil => rfl
  | cons m ms ih => rw [hoistMembers, ih, List.map_cons]

/-- The field hoisted at its position in the object at `pointer`. -/
def hoistField (document pointer : String) (f : Field Shape) : Hoisting (Field Shape) := do
  return ⟨f.name, f.optional, ← f.content.hoist document (Pointer.extend pointer (.member f.name))⟩

/-- An object is hoisted by its fields in the order of discovery, and is declared when all are done.
-/
theorem hoist_object (fs : List (Field Shape)) (order : List String) (pointer : String) :
    (object fs order).hoist document pointer = do
      let hoisted ← (Field.inDiscoveryOrder order fs).mapM (hoistField document pointer)
      let place := Pointer.label document pointer
      return .ref (← Hoisting.declare (ofFields hoisted order) place) := by
  have hname : ∀ f, (waiting document f).name = f.name := fun f ↦ rfl
  rw [hoist, hoistFields_eq_map, Field.inDiscoveryOrder_map hname, fields_eq_mapM, List.mapM_map]
  rfl

/-- A union is hoisted by its members in the order of their keys, if they all have one. It is not
declared. -/
theorem hoist_union (ms : List Shape) (pointer : String) :
    (union ms).hoist document pointer = do
      liftM (ms.forM requireEncoding)
      return ofMembers (← (byKey ms).mapM fun m ↦ m.hoist document pointer) := by
  rw [hoist, hoistMembers_eq_map, members, mergeSort_byKey, List.mapM_map]
  rfl

/-! ### What hoisting declares -/

/-- What is given of a shape passes to its parts, and what is made of shapes built from parts that
have it, among them objects whose fields are hoisted one by one in the order of discovery. -/
structure CarriesOver (given made : Shape → Prop) : Prop where
  /-- What is left as it is, or stands for what was declared, has it. -/
  prim : ∀ p, made (.prim p)
  emptyArray : made .emptyArray
  ref : ∀ id, made (.ref id)
  foreign : ∀ thing, made (.foreign thing)
  /-- An array passes it to its element. -/
  element : ∀ {e}, given (.array e) → given e
  /-- An array has it if its element does. -/
  array : ∀ {t}, made t → made (.array t)
  /-- An object passes it to the contents of its fields. -/
  content : ∀ {fs order}, given (.object fs order) → ∀ f ∈ fs, given f.content
  /-- An object has it that is built from contents which do, hoisted in the order of discovery. -/
  object : ∀ {fs gs order}, given (.object fs order) →
    List.Forall₂ (fun g f ↦ g.name = f.name ∧ made g.content) gs
      (Field.inDiscoveryOrder order fs) → made (ofFields gs order)
  /-- A union passes it to its members. -/
  member : ∀ {ms}, given (.union ms) → ∀ m ∈ ms, given m
  /-- A union has it if all of its members do. -/
  union : ∀ {ts}, (∀ t ∈ ts, made t) → made (.union ts)

/-- What is given of a shape carries over to all that hoisting declares and to its result. By
induction over the shape: only an object, an array of a reference and an empty array are declared,
and each is declared after its parts were hoisted. -/
theorem CarriesOver.extends_hoist {given made : Shape → Prop} (h : CarriesOver given made)
    {s : Shape} (hs : given s) (pointer : String) :
    Extends made (s.hoist document pointer) made := by
  have hdeclared : ∀ {t : Shape}, made t → ∀ place, Extends made
      (do return .ref (← Hoisting.declare t place)) made :=
    fun ht place ↦ (Extends.declare ht place).bind fun id _ ↦ .pure (h.ref id)
  induction s generalizing pointer with
  | prim p => exact .pure (h.prim p)
  | emptyArray => exact hdeclared h.emptyArray _
  | array e ih =>
    rw [hoist]
    refine (ih (h.element hs) _).bind fun t ht ↦ ?_
    split
    · exact hdeclared (h.array ht) _
    · exact .pure (h.array ht)
  | object fs order ih =>
    rw [hoist_object]
    have hfields : Extends made
        ((Field.inDiscoveryOrder order fs).mapM (hoistField document pointer)) fun gs ↦
          List.Forall₂ (fun g f ↦ g.name = f.name ∧ made g.content) gs
            (Field.inDiscoveryOrder order fs) := by
      refine Extends.mapM fun f hf ↦ ?_
      have hmem := Field.mem_of_mem_inDiscoveryOrder hf
      exact (ih f hmem (h.content hs f hmem) _).bind fun t ht ↦ .pure ⟨rfl, ht⟩
    exact hfields.bind fun gs hgs ↦ hdeclared (h.object hs hgs) _
  | union ms ih =>
    rw [hoist_union]
    refine (Extends.lift _).bind fun _ _ ↦ ?_
    have hmembers : Extends made ((byKey ms).mapM fun m ↦ m.hoist document pointer) fun ts ↦
        List.Forall₂ (fun t _ ↦ made t) ts (byKey ms) :=
      Extends.mapM fun m hm ↦
        have hmem := (byKey_perm ms).mem_iff.1 hm
        ih m hmem (h.member hs m hmem) pointer
    refine hmembers.bind fun ts hts ↦ .pure (h.union fun t ht ↦ ?_)
    obtain ⟨_, -, ht⟩ := exists_of_forall₂_left hts (mem_of_mem_distinct ht)
    exact ht
  | ref id => exact .pure (h.ref id)
  | foreign thing => exact .pure (h.foreign thing)

/-- Whatever is hoisted, the fields of what is made of it are sorted. -/
theorem carriesOver_sorted : CarriesOver (fun _ ↦ True) Sorted where
  prim := .prim
  emptyArray := .emptyArray
  ref := .ref
  foreign := .foreign
  element _ := trivial
  array := .array
  content _ _ _ := trivial
  object _ hgs := sorted_ofFields _ fun _ hg ↦
    have ⟨_, _, hgf⟩ := exists_of_forall₂_left hgs hg
    hgf.2
  member _ _ _ := trivial
  union := .union

/-- Hoisting declares shapes with sorted fields only, and has such results only. -/
theorem extends_hoist (s : Shape) (pointer : String) :
    Extends Sorted (s.hoist document pointer) Sorted :=
  carriesOver_sorted.extends_hoist trivial pointer

/-! ### What hoisting yields -/

/-- Fields, hoisted in any order, make the notes of all their contents. -/
theorem records_hoistFields {fs fs' : List (Field Shape)} (hperm : fs'.Perm fs) (pointer : String)
    (h : ∀ f ∈ fs, ∀ pointer c, Sound Sorted c → Records c (f.content.hoist document pointer)
      (f.content.occurrences document pointer) fun c' t ↦ c'.Denotes t f.content)
    {c : Catalog} (hc : Sound Sorted c) :
    Records c (fs'.mapM (hoistField document pointer))
      (⋃ f ∈ fs, f.content.occurrences document (Pointer.extend pointer (.member f.name)))
      fun c' gs ↦ List.Forall₂ c'.DenotesField gs fs' := by
  simp only [← hperm.mem_iff] at h ⊢
  refine Records.mapM (fun hreaches hc h ↦ h.mono (hreaches.shapes_initial hc)) ?_ hc
  exact fun f hf c hc ↦ (h f hf _ c hc).map fun c' t _ ht ↦
    ⟨⟨rfl, rfl, ht.toRepresents⟩, ht.settled, ht.irredundant⟩

/-- Members, hoisted in any order, make the notes of all of them. -/
theorem records_hoistMembers {ms ms' : List Shape} (hperm : ms'.Perm ms) (pointer : String)
    (h : ∀ m ∈ ms, ∀ c, Sound Sorted c → Records c (m.hoist document pointer)
      (m.occurrences document pointer) fun c' t ↦ c'.Denotes t m)
    {c : Catalog} (hc : Sound Sorted c) :
    Records c (ms'.mapM fun m ↦ m.hoist document pointer)
      (⋃ m ∈ ms, m.occurrences document pointer) fun c' ts ↦
        List.Forall₂ c'.Denotes ts ms' := by
  simp only [← hperm.mem_iff] at h ⊢
  exact Records.mapM (fun hreaches hc h ↦ h.mono (hreaches.shapes_initial hc)) h hc

/-- A well-formed shape without references is hoisted to one that denotes it, and what is noted is
what occurs in the shape. -/
theorem records_hoist (document : String) {s : Shape} (hs : s.WellFormed) (href : s.references = [])
    (pointer : String) {c : Catalog} (hc : Sound Sorted c) :
    Records c (s.hoist document pointer) (s.occurrences document pointer) fun c' t ↦
      c'.Denotes t s := by
  induction hs generalizing pointer c with
  | prim p =>
    rw [occurrences_prim]
    exact .pure (denotes_prim c p)
  | emptyArray =>
    rw [occurrences_emptyArray]
    exact records_declareNamed hc (embodies_emptyArray c) rfl _
  | @array e _ ih =>
    rw [hoist]
    -- the element becomes a reference exactly if it is named
    cases hnamed : e.isNamed with
    | true =>
      rw [occurrences_array hnamed]
      refine (ih href _ hc).bind fun c' t hreaches ht ↦ ?_
      obtain ⟨id, rfl⟩ := ht.isNamed_iff.1 hnamed
      exact records_declareNamed (hreaches.sound hc) (ht.embodies_array hnamed) hnamed _
    | false =>
      rw [occurrences_array_of_nameless hnamed, ← Set.union_empty (e.occurrences _ _)]
      refine (ih href _ hc).bind fun c' t hreaches ht ↦ ?_
      split
      · exact nomatch hnamed.symm.trans (ht.isNamed_iff.2 ⟨_, rfl⟩)
      · exact .pure (ht.array hnamed)
  | @object fs order hincreasing hlisted _ ih =>
    have hperm := Field.inDiscoveryOrder_perm hincreasing.nodup hlisted
    have hfields := records_hoistFields hperm pointer (fun f hf pointer c hc ↦
      ih f hf (referencesOfFields_eq_nil_iff.1 href f hf) pointer hc) hc
    rw [hoist_object, occurrences_object]
    refine hfields.bind fun c' gs hreaches hgs ↦ ?_
    exact records_declareNamed (hreaches.sound hc)
      (embodies_ofFields order order hincreasing hperm hgs) rfl _
  | @union ms _ _ hmembers ih =>
    have hencodable : ms.forM requireEncoding = .ok () :=
      forM_requireEncoding_eq_ok fun m hm ↦ (hmembers m hm).foreigns_eq_nil
    rw [hoist_union, occurrences_union, ← Set.empty_union (⋃ m ∈ ms, _)]
    refine (Records.lift hencodable).bind fun c' _ hreaches _ ↦ ?_
    refine (records_hoistMembers (byKey_perm ms) pointer (fun m hm c hc ↦ ?_)
      (hreaches.sound hc)).map fun c'' ts _ hts ↦ denotes_ofMembers (byKey_perm ms) hts
    exact ih m hm (referencesOfAll_eq_nil_iff.1 href m hm) pointer hc
  | ref id => exact absurd href (List.cons_ne_nil _ _)

/-- In particular it is hoisted to a shape that represents it. -/
theorem yields_hoist (document : String) {s : Shape} (hs : s.WellFormed) (href : s.references = [])
    (pointer : String) {c : Catalog} (hc : Sound Sorted c) :
    Yields Sorted c (s.hoist document pointer) fun c' t ↦ c'.Represents t s := by
  obtain ⟨t, c', hrun, hreaches, ht⟩ := (records_hoist document hs href pointer hc).yields
  exact ⟨t, c', hrun, hreaches, ht.toRepresents⟩

end Shape

end JsonShapes
