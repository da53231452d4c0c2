import JsonShapes.Proofs.Catalog.Calls
import JsonShapes.Proofs.Catalog.Deduplication
import JsonShapes.Proofs.Shape.Parts

/-!
# The two views of the fields of an object

An object has its fields sorted by name and lists their names in the order of discovery. Joining and
hoisting go by the list: a name that it lacks would lose a field, one that it repeats would double
it. The two are in step (`Field.InStep`) in every object that inference, joining or hoisting makes,
at any depth, and in all that is declared meanwhile (`Catalog.fields_inStep`).

For shapes that are inferred or joined this is part of being well-formed. What hoisting makes of a
shape is not, as references take the place of parts of it; that the views stay in step is carried
over from the shape to whatever is declared for it (`Shape.carriesOver_inStep`).

## What a hypothesis is needed for

Joining keeps objects in step if their operands are well-formed, which everything inferred is.
Hoisting keeps in step whatever is in step, so for a hoisted shape nothing but that is asked. What
is declared on the way comes of the shape that is hoisted, so it is in step as well, whatever was
declared before.

The names that an object of a join lists are those of its operands, no more and no fewer
(`exists_join_object`).
-/

namespace JsonShapes

namespace Field

variable {σ : Type} {fs : List (Field σ)} {order : List String}

/-- The fields are sorted by name, no name twice, and the order lists each of the names once. So in
the order of discovery each field comes once, at the place of its name. -/
structure InStep (order : List String) (fs : List (Field σ)) : Prop where
  /-- Fields are sorted by name, and no name comes twice. -/
  increasing : Increasing fs
  /-- The order lists the names of the fields, each once. -/
  listed : order.Perm (fs.map (·.name))
  /-- In the order of discovery each field comes once. -/
  each : (inDiscoveryOrder order fs).Perm fs
  /-- There it comes at the place of its name. -/
  inOrder : (inDiscoveryOrder order fs).map (·.name) = order

/-- Sorted fields and an order that lists their names are enough: the rest follows for lookups by
name. -/
theorem InStep.of_listed (h : Increasing fs) (hlisted : order.Perm (fs.map (·.name))) :
    InStep order fs :=
  ⟨h, hlisted, inDiscoveryOrder_perm h.nodup hlisted, map_name_inDiscoveryOrder hlisted⟩

theorem InStep.nodup (h : InStep order fs) : order.Nodup :=
  h.listed.nodup_iff.2 h.increasing.nodup

end Field

namespace Shape

variable {policy : Policy} {s : Shape} {fs gs : List (Field Shape)} {order order' : List String}

/-- The views of the fields are in step in every object within the shape. -/
def InStep (s : Shape) : Prop :=
  ∀ fs order, (object fs order).Within s → Field.InStep order fs

/-- Every object within a well-formed shape is well-formed, which says as much of its fields. -/
theorem WellFormed.inStep (h : s.WellFormed) : s.InStep := by
  intro fs order hwithin
  cases hwithin.wellFormed h with
  | object hincreasing hlisted _ => exact .of_listed hincreasing hlisted

/-- The objects within an object are the object and those within the contents of its fields. -/
theorem inStep_object :
    (object fs order).InStep ↔ Field.InStep order fs ∧ ∀ f ∈ fs, f.content.InStep := by
  constructor
  · exact fun h ↦ ⟨h fs order .self, fun f hf gs order' hwithin ↦
      h gs order' (.content order hf hwithin)⟩
  · rintro ⟨hfields, hcontents⟩ gs order' hwithin
    cases hwithin with
    | self => exact hfields
    | content _ hf hwithin => exact hcontents _ hf gs order' hwithin

/-- Fields with distinct names, given in their order of discovery. -/
theorem inStep_ofFields (hnodup : order.Nodup) (hnames : fs.map (·.name) = order)
    (hcontents : ∀ f ∈ fs, f.content.InStep) : (ofFields fs order).InStep := by
  subst hnames
  rw [ofFields, ite_self]
  refine inStep_object.2 ⟨.of_listed (Field.increasing_sorted hnodup) ?_, fun f hf ↦
    hcontents f ((Field.sorted_perm fs).mem_iff.1 hf)⟩
  exact ((Field.sorted_perm fs).map _).symm

/-- What is hoisted and what is declared for it keeps the views in step. -/
theorem carriesOver_inStep : CarriesOver InStep InStep where
  prim _ := nofun
  emptyArray := nofun
  ref _ := nofun
  foreign _ := nofun
  element h fs order hwithin := h fs order (.element hwithin)
  array h
    | fs, order, .element hwithin => h fs order hwithin
  content h := (inStep_object.1 h).2
  object h hgs := by
    obtain ⟨hfields, -⟩ := inStep_object.1 h
    refine inStep_ofFields hfields.nodup ?_ fun g hg ↦ ?_
    · rw [← hfields.inOrder]
      exact map_eq_of_forall₂ hgs fun _ _ hgf ↦ hgf.1
    · obtain ⟨_, -, -, hg⟩ := exists_of_forall₂_left hgs hg
      exact hg
  member h m hm fs order hwithin := h fs order (.member hm hwithin)
  union h
    | fs, order, .member hm hwithin => h _ hm fs order hwithin

/-- The join of two objects is one that has the names of both and no others. -/
theorem exists_join_object (policy : Policy) (h : order.Perm (fs.map (·.name)))
    (h' : order'.Perm (gs.map (·.name))) :
    ∃ ks names, (object fs order).join policy (object gs order') = .object ks names ∧
      ∀ name, name ∈ ks.map (·.name) ↔ name ∈ fs.map (·.name) ∨ name ∈ gs.map (·.name) := by
  by_cases hsame : (object fs order).same (object gs order') = true
  · have hnames : fs.map (·.name) = gs.map (·.name) :=
      map_eq_of_forall₂ (same_object.1 hsame) fun _ _ ↦ Field.Alike.name
    refine ⟨fs, order, ?_, fun name ↦ by rw [hnames, or_self]⟩
    rw [join]
    cases max (object fs order).depth (object gs order').depth <;> exact if_pos hsame
  · obtain ⟨part, hpart⟩ : ∃ part, (object fs order).join policy (object gs order') =
        joinObjects part (.object fs order) (.object gs order') := by
      rw [join]
      cases max (object fs order).depth (object gs order').depth <;> exact ⟨_, if_neg hsame⟩
    refine ⟨Field.sorted (joinFields part (joinNames order order') fs gs), _,
      hpart.trans (joinObjects_eq fs gs order order'), fun name ↦ ?_⟩
    rw [((Field.sorted_perm _).map _).mem_iff, map_name_joinFields h h', mem_joinNames,
      h.mem_iff, h'.mem_iff]

end Shape

open Shape

/-! ### What hoisting declares -/

namespace Catalog

/-- Using a catalog keeps the views in step. -/
theorem Use.extends_run {use : Use} (h : use.Keyed) {converted : List Shape}
    (hconverted : ∀ t ∈ converted, t.InStep) :
    Hoisting.Extends InStep (use.run converted) fun converted' ↦ ∀ t ∈ converted', t.InStep := by
  cases use with
  | convert policy document value =>
    have hs : (ofJson policy value).InStep := (wellFormed_ofJson h).inStep
    refine (carriesOver_inStep.extends_hoist hs "").bind fun t ht ↦ .pure ?_
    exact List.forall_mem_append.2 ⟨hconverted, List.forall_mem_singleton.2 ht⟩
  | declareRoot conversion document =>
    rw [run]
    split
    · rename_i t ht
      have ht : t.InStep := hconverted t (List.mem_of_getElem? ht)
      exact (Hoisting.Extends.declareRoot ht document).bind fun _ _ ↦ .pure hconverted
    · exact .pure hconverted

/-- Using a catalog again and again keeps them in step, in all that is declared and all that
conversions give. -/
theorem Use.extends_runAll {uses : List Use} (h : ∀ use ∈ uses, use.Keyed) :
    Hoisting.Extends InStep (Use.runAll uses) fun converted ↦ ∀ t ∈ converted, t.InStep :=
  .foldlM (fun use huse _ ↦ extends_run (h use huse)) (List.forall_mem_nil _)

variable {allowed : Shape → Prop} {c c' : Catalog}

/-- Changes declare what is allowed, and nothing else is declared that was not before. -/
theorem Reaches.allowed_or_declared (hreaches : Reaches allowed c c') (hc : Sound Sorted c) :
    ∀ slot ∈ c'.slots, allowed slot.2.shape ∨ ∃ slot' ∈ c.slots, slot'.2.shape = slot.2.shape := by
  have hkept : Sound (fun s ↦ allowed s ∨ ∃ slot ∈ c.slots, slot.2.shape = s) c :=
    { hc with allowed := fun slot hslot ↦ .inr ⟨slot, hslot, rfl⟩ }
  exact ((hreaches.mono fun _ ↦ .inl).sound hkept).allowed

/-- No field is lost or doubled. In every object within an inferred shape, a join of well-formed
shapes or what an inferred shape is hoisted to, the views of the fields are in step. So they are in
all that is declared in hoisting, and thus in all of a catalog that was used for values only; and
the join of two objects has the names of both and no others. -/
theorem fields_inStep (policy : Policy) :
    (∀ value : Json, value.Keyed → (ofJson policy value).InStep) ∧
      (∀ s t : Shape, s.WellFormed → t.WellFormed →
        s.join? policy t = .ok (s.join policy t) ∧ (s.join policy t).InStep) ∧
      (∀ calls : List Call, (∀ call ∈ calls, call.Sorted) → ∀ value : Json, value.Keyed →
        ∀ document pointer, ∃ u c,
          (ofJson policy value).hoist document pointer (empty.after calls) = (.ok u, c) ∧
          u.InStep ∧ ∀ slot ∈ c.slots, slot.2.shape.InStep ∨
            ∃ slot' ∈ (empty.after calls).slots, slot'.2.shape = slot.2.shape) ∧
      (∀ uses : List Use, (∀ use ∈ uses, use.Keyed) → ∃ converted c,
        Use.runAll uses empty = (.ok converted, c) ∧ (∀ u ∈ converted, u.InStep) ∧
          ∀ slot ∈ c.slots, slot.2.shape.InStep) ∧
      ∀ (fs gs : List (Field Shape)) (order order' : List String),
        order.Perm (fs.map (·.name)) → order'.Perm (gs.map (·.name)) → ∃ ks names,
          (object fs order).join policy (object gs order') = .object ks names ∧
          ∀ name, name ∈ ks.map (·.name) ↔ name ∈ fs.map (·.name) ∨ name ∈ gs.map (·.name) := by
  refine ⟨fun value hvalue ↦ (wellFormed_ofJson hvalue).inStep, fun s t hs ht ↦ ?_,
    fun calls hcalls value hvalue document pointer ↦ ?_, fun uses huses ↦ ?_,
    fun fs gs order order' h h' ↦ exists_join_object policy h h'⟩
  · exact ⟨join?_eq_ok hs ht, (isJoin_join hs ht).wellFormed.inStep⟩
  · have hclosed : (ofJson policy value).Closed := closed_ofJson policy hvalue
    have hsound := (reaches_after_of_sorted hcalls empty).sound (sound_empty Sorted)
    obtain ⟨u, c, hrun, -⟩ :=
      yields_hoist document hclosed.wellFormed hclosed.references_eq_nil pointer hsound
    obtain ⟨hreaches, hu⟩ :=
      carriesOver_inStep.extends_hoist hclosed.wellFormed.inStep pointer (empty.after calls)
    rw [hrun] at hreaches hu
    -- what was declared before may be anything that calls were given
    exact ⟨u, c, hrun, hu u rfl, hreaches.allowed_or_declared hsound⟩
  · obtain ⟨converted, c, hrun, -⟩ := Use.records_foldlM huses (sound_empty Sorted) .nil
    obtain ⟨hreaches, hconverted⟩ := Use.extends_runAll huses empty
    rw [Use.runAll, hrun] at hreaches hconverted
    exact ⟨converted, c, hrun, hconverted converted rfl, (hreaches.sound (sound_empty _)).allowed⟩

/-- Rows whose fields are discovered in another order than that of their names, and an object that
was declared before with fields of which its order lists none. -/
theorem fields_inStep_rows :
    let value : Json := .array [.object [("b", .number (.int 1)), ("a", .array [])],
      .object [("c", .object [("z", .null), ("y", .bool true)]), ("a", .array [.object []])]]
    let calls : List Call := [.declare (.object [⟨"a", false, .emptyArray⟩] ["x"]) "1.json"]
    let row : List (Field Shape) := [⟨"a", false, .array (.object [] [])⟩,
      ⟨"b", true, .prim .number⟩, ⟨"c", true,
        .object [⟨"y", false, .prim .boolean⟩, ⟨"z", false, .prim .null⟩] ["z", "y"]⟩]
    (value.Keyed ∧ ∀ call ∈ calls, call.Sorted) ∧ Field.InStep ["b", "a", "c"] row ∧
      ∃ u c, (ofJson .union value).hoist "2.json" "" (empty.after calls) = (.ok u, c) ∧
        u.InStep ∧ ∀ slot ∈ c.slots, slot.2.shape.InStep ∨
          ∃ slot' ∈ (empty.after calls).slots, slot'.2.shape = slot.2.shape := by
  intro value calls row
  have hvalue : value.Keyed := by
    refine .array ?_
    simp only [List.forall_mem_cons, List.not_mem_nil, false_imp_iff, implies_true, and_true]
    refine ⟨.object (by decide) ?_, .object (by decide) ?_⟩
    · simpa using ⟨.number _, .array nofun⟩
    · have hrow : (Json.object [("z", .null), ("y", .bool true)]).Keyed :=
        .object (by decide) (by simpa using ⟨.null, .bool true⟩)
      simpa using ⟨hrow, .array (by simpa using .object (by decide) nofun)⟩
  have hcalls : ∀ call ∈ calls, call.Sorted := by
    simpa [calls, Call.Sorted] using .object _ (by decide) (by simpa using .emptyArray)
  obtain ⟨hinferred, -, hhoisted, -⟩ := fields_inStep .union
  have hrow : ofJson .union value = .array (.object row ["b", "a", "c"]) := by
    cbv
  refine ⟨⟨hvalue, hcalls⟩, ?_, hhoisted calls hcalls value hvalue "2.json" ""⟩
  exact (hrow ▸ hinferred value hvalue) row _ (.element .self)

end Catalog

end JsonShapes
