import JsonShapes.Proofs.Catalog.NamedParts

/-!
# Hoisting declares part by part

Hoisting a shape does to a catalog what declaring its named parts one after another does, in the
order of `Shape.namedParts` and each with the label of its position (`Shape.performs_hoist`). What
is declared for a part depends on the numbers of the parts in it. These are taken from a function
that is right in the catalog at the end (`Catalog.Numbers`): as no declaration is ever touched, it
was right at every step before. A chain of such declarations (`Catalog.Declares`) composes like the
computations that make it up.

`Hoisting.Performs` says of a computation which parts it declares and what it makes of their
numbers. The function that gives the numbers comes last, after the run: were it fixed before, the
number of a part that is declared on the way would have to be foretold. It is bound only by being
right in the catalog that is left, and going back along the run it is right all the way
(`Numbers.of_initial`).
-/

namespace JsonShapes

open Shape Hoisting

namespace Catalog

variable {c c' c₁ : Catalog} {number : Shape → Int}

/-! ### Numbers -/

/-- The number of the declaration that unfolds to a shape, if there is one. -/
def numberOf (c : Catalog) (s : Shape) : Int :=
  ((c.shapes.find? fun entry ↦ (c.unfold entry.2).same s).map (·.1)).getD 0

/-- The function gives a shape the number of whichever reference represents it in the catalog. -/
def Numbers (number : Shape → Int) (c : Catalog) : Prop :=
  ∀ id s, c.Represents (.ref id) s → number s = id

/-- What is right after further declarations was right before them. -/
theorem Numbers.of_initial (h : Numbers number c') (hinitial : c.shapes <+: c'.shapes) :
    Numbers number c :=
  fun id s hid ↦ h id s (hid.mono hinitial)

/-- In a tidy catalog no two numbers unfold to the same, so the first that is found is the right
one. -/
theorem Tidy.numbers_numberOf (hc : c.Tidy) : Numbers c.numberOf c := by
  intro id s hid
  have hknown := hid.known id (List.mem_singleton_self id)
  obtain ⟨d, hd⟩ := Sound.exists_of_contains hknown
  have hentry : (id, d.shape) ∈ c.shapes := List.mem_map_of_mem (Entries.mem_of_lookup_eq_some hd)
  have hsame : (c.unfold d.shape).same s = true := by
    rw [← hc.sound.unfold_ref hd]
    exact hid.unfold_same
  obtain ⟨entry, hfind⟩ : ∃ entry, (c.shapes.find? fun entry ↦ (c.unfold entry.2).same s) =
      some entry := Option.isSome_iff_exists.1 (List.find?_isSome.2 ⟨_, hentry, hsame⟩)
  obtain ⟨hfound, -⟩ := List.find?_eq_some_iff_append.1 hfind
  obtain ⟨⟨other, e⟩, hslot, rfl⟩ := List.mem_map.1 (List.mem_of_find?_eq_some hfind)
  have he := (Entries.lookup_eq_some_iff hc.sound.ids_nodup).2 hslot
  rw [numberOf, hfind]
  show other = id
  refine hc.eq_of_unfold_same (Sound.contains_of_lookup he) hknown ?_
  rw [hc.sound.unfold_ref he]
  exact same_trans hfound (same_symm hid.unfold_same)

/-! ### Chains of declarations -/

/-- The catalog leads to another by declaring parts one after another, each with its place, under
the numbers that the function gives. -/
inductive Declares (number : Shape → Int) (c : Catalog) :
    List (Shape × String) → Catalog → Prop
  | nil : Declares number c [] c
  | concat {c₁ c' : Catalog} {s : Shape} {place : String} {parts : List (Shape × String)}
      (first : Declares number c parts c₁) (embodies : c₁.Embodies (s.body number) s)
      (run : c₁.declare (s.body number) place = .ok (number s, c')) :
      Declares number c (parts ++ [(s, place)]) c'

namespace Declares

variable {parts parts' : List (Shape × String)}

/-- Chains are put together at the catalog where the first ends and the second starts. -/
theorem append (h : Declares number c parts c₁) (h' : Declares number c₁ parts' c') :
    Declares number c (parts ++ parts') c' := by
  induction h' with
  | nil => exact (List.append_nil parts).symm ▸ h
  | concat _ hembodies hrun ih =>
    rw [← List.append_assoc]
    exact .concat ih hembodies hrun

/-- A chain is a run of `Hoisting.declare` over the parts, which gives their numbers. -/
theorem mapM_declare (h : Declares number c parts c') :
    parts.mapM (fun part ↦ Hoisting.declare (part.1.body number) part.2) c =
      (.ok (parts.map fun part ↦ number part.1), c') := by
  induction h with
  | nil => rfl
  | @concat c₁ c' s place parts _ _ hrun ih =>
    have hdeclare := Hoisting.declare_apply_eq_ok_iff.2 hrun
    rw [List.mapM_append, bind_of_ok ih, List.mapM_cons, List.map_append]
    show ((Hoisting.declare _ _ >>= _) >>= _) c₁ = _
    rw [bind_of_ok (bind_of_ok hdeclare _)]
    rfl

end Declares

end Catalog

/-! ### Computations that declare parts -/

namespace Hoisting

open Catalog

variable {α β : Type} {c c' : Catalog} {parts parts' : List (Shape × String)}

/-- In this catalog the computation succeeds, and with any numbers that are right in the end it
declares these parts and has this result. -/
def Performs (c : Catalog) (m : Hoisting α) (parts : List (Shape × String))
    (result : (Shape → Int) → α) : Prop :=
  Yields Sorted c m fun c' a ↦
    ∀ number, Numbers number c' → Declares number c parts c' ∧ a = result number

namespace Performs

variable {result : (Shape → Int) → α} {result' : (Shape → Int) → β}

theorem pure {a : α} (h : ∀ number, Numbers number c → a = result number) :
    Performs c (pure a) [] result :=
  Yields.pure fun number hnumber ↦ ⟨.nil, h number hnumber⟩

theorem lift {outcome : Except Breach α} {a : α} (h : outcome = .ok a) :
    Performs c (liftM outcome : Hoisting α) [] fun _ ↦ a :=
  ⟨a, c, by rw [lift_apply, h], .refl, fun _ _ ↦ ⟨.nil, rfl⟩⟩

/-- What is declared first comes first; the second computation knows the result of the first as made
of numbers that are right in its own catalog. -/
theorem bind (hc : Sound Sorted c) {m : Hoisting α} {f : α → Hoisting β}
    (hm : Performs c m parts result)
    (hf : ∀ c' a, m c = (.ok a, c') → (∀ number, Numbers number c' → a = result number) →
      Performs c' (f a) parts' result') :
    Performs c (m >>= f) (parts ++ parts') result' := by
  obtain ⟨a, c₁, hrun, hreaches, ha⟩ := hm
  obtain ⟨b, c₂, hrun', hreaches', hb⟩ := hf c₁ a hrun fun number hnumber ↦ (ha number hnumber).2
  refine ⟨b, c₂, (bind_of_ok hrun f).trans hrun', hreaches.trans hreaches', fun number hnumber ↦ ?_⟩
  have hnumber₁ := hnumber.of_initial (hreaches'.shapes_initial (hreaches.sound hc))
  exact ⟨(ha number hnumber₁).1.append (hb number hnumber).1, (hb number hnumber).2⟩

/-- What is made of a result declares nothing. -/
theorem map {m : Hoisting α} (hm : Performs c m parts result) (g : α → β) :
    Performs c (m >>= fun a ↦ Pure.pure (g a)) parts fun number ↦ g (result number) := by
  obtain ⟨a, c₁, hrun, hreaches, ha⟩ := hm
  refine ⟨g a, c₁, bind_of_ok hrun _, hreaches, fun number hnumber ↦ ?_⟩
  exact ⟨(ha number hnumber).1, congrArg g (ha number hnumber).2⟩

/-- A list declares the parts of its items, one item after another. -/
theorem mapM (resultOf : (Shape → Int) → α → β) {f : α → Hoisting β}
    {partsOf : α → List (Shape × String)} {l : List α}
    (h : ∀ a ∈ l, ∀ c, Sound Sorted c →
      Performs c (f a) (partsOf a) fun number ↦ resultOf number a)
    (hc : Sound Sorted c) :
    Performs c (l.mapM f) (l.flatMap partsOf) fun number ↦ l.map (resultOf number) := by
  induction l generalizing c with
  | nil =>
    rw [List.mapM_nil]
    exact pure fun _ _ ↦ rfl
  | cons a l ih =>
    rw [List.mapM_cons, List.flatMap_cons]
    obtain ⟨b, c₁, hrun, hreaches, hb⟩ := h a List.mem_cons_self c hc
    have hc₁ := hreaches.sound hc
    obtain ⟨bs, c₂, hrun', hreaches', hbs⟩ :=
      ih (fun a ha ↦ h a (List.mem_cons_of_mem _ ha)) hc₁
    refine ⟨b :: bs, c₂, ?_, hreaches.trans hreaches', fun number hnumber ↦ ?_⟩
    · rw [bind_of_ok hrun, bind_of_ok hrun']
      rfl
    · have hnumber₁ := hnumber.of_initial (hreaches'.shapes_initial hc₁)
      obtain ⟨hfirst, rfl⟩ := hb number hnumber₁
      obtain ⟨hrest, rfl⟩ := hbs number hnumber
      exact ⟨hfirst.append hrest, rfl⟩

end Performs

/-- Declaring what a part was made into leaves its number, and is one step of a chain. -/
theorem performs_declare (hc : Sound Sorted c) {t s : Shape} (h : c.Embodies t s) (place : String)
    (ht : ∀ number, Numbers number c → t = s.body number) :
    Performs c (do return Shape.ref (← Hoisting.declare t place)) [(s, place)] fun number ↦
      Shape.ref (number s) := by
  obtain ⟨id, c', hrun, hreaches, hid⟩ := yields_declare hc h.toRepresents place
  refine ⟨.ref id, c', bind_of_ok hrun _, hreaches, fun number hnumber ↦ ?_⟩
  obtain rfl := ht number (hnumber.of_initial (hreaches.shapes_initial hc))
  obtain rfl := hnumber id s hid
  exact ⟨.concat .nil h (declare_apply_eq_ok_iff.1 hrun), rfl⟩

end Hoisting

namespace Shape

open Catalog

variable {document : String}

/-- A well-formed shape without references is hoisted by declaring its named parts one after
another, and leaves what stands in for it. -/
theorem performs_hoist (document : String) {s : Shape} (hs : s.WellFormed)
    (href : s.references = []) (pointer : String) {c : Catalog} (hc : Sound Sorted c) :
    Performs c (s.hoist document pointer) (s.namedParts document pointer) fun number ↦
      s.standIn number := by
  induction hs generalizing pointer c with
  | prim p => exact .pure fun _ _ ↦ rfl
  | emptyArray => exact performs_declare hc (embodies_emptyArray c) _ fun _ _ ↦ rfl
  | @array e he ih =>
    have helement := ih href (Pointer.extend pointer .item) hc
    have hdenotes := (records_hoist document he href (Pointer.extend pointer .item) hc).yields
    rw [hoist, namedParts]
    -- the element becomes a reference exactly if it is named
    refine helement.bind hc fun c' t hrun ht ↦ ?_
    obtain ⟨hreaches, ht'⟩ := hdenotes.of_run hrun
    cases hnamed : e.isNamed with
    | true =>
      obtain ⟨id, rfl⟩ := ht'.isNamed_iff.1 hnamed
      have hperforms := performs_declare (hreaches.sound hc) (ht'.embodies_array hnamed)
        (Pointer.label document pointer) fun number hnumber ↦ congrArg array (ht number hnumber)
      simpa only [standIn, hnamed, if_true] using hperforms
    | false =>
      simp only [standIn, hnamed, Bool.false_eq_true, if_false]
      split
      · exact absurd (hnamed.symm.trans (ht'.isNamed_iff.2 ⟨_, rfl⟩)) Bool.false_ne_true
      · exact .pure fun number hnumber ↦ congrArg array (ht number hnumber)
  | @object fs order hincreasing hlisted hcontents ih =>
    have hperm := Field.inDiscoveryOrder_perm hincreasing.nodup hlisted
    have hfields := records_hoistFields hperm pointer (fun f hf pointer c hc ↦
      records_hoist document (hcontents f hf) (referencesOfFields_eq_nil_iff.1 href f hf) pointer
        hc)
      hc
    rw [hoist_object, namedParts_object]
    refine (Performs.mapM standInField (fun f hf c hc ↦ ?_) hc).bind hc fun c' gs hrun hgs ↦ ?_
    · have hmem := Field.mem_of_mem_inDiscoveryOrder hf
      exact (ih f hmem (referencesOfFields_eq_nil_iff.1 href f hmem) _ hc).map _
    · obtain ⟨hreaches, hgs'⟩ := hfields.yields.of_run hrun
      exact performs_declare (hreaches.sound hc)
        (embodies_ofFields order order hincreasing hperm hgs') _ fun number hnumber ↦
          congrArg (ofFields · order) (hgs number hnumber)
  | @union ms _ _ hmembers ih =>
    have hencodable : ms.forM requireEncoding = .ok () :=
      forM_requireEncoding_eq_ok fun m hm ↦ (hmembers m hm).foreigns_eq_nil
    rw [hoist_union, namedParts_union, ← List.nil_append ((byKey ms).flatMap _)]
    refine (Performs.lift hencodable).bind hc fun c' _ hrun _ ↦ ?_
    simp only [standIn_union]
    refine (Performs.mapM _ (fun m hm c hc ↦ ?_) ?_).map ofMembers
    · have hmem := (byKey_perm ms).mem_iff.1 hm
      exact ih m hmem (referencesOfAll_eq_nil_iff.1 href m hmem) pointer hc
    · exact (Prod.mk.inj hrun).2 ▸ hc
  | ref id => exact absurd href (List.cons_ne_nil _ _)

end Shape

end JsonShapes
