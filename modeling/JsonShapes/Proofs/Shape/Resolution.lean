import JsonShapes.Proofs.Shape.References

/-!
# Resolving references

`Shape.resolve` puts shapes in the place of references. The outcome hangs only on what the
references of the shape stand for (`resolve_congr`), and shapes that mean the same are resolved to
shapes that mean the same (`same_resolve`). References may in particular be put in the place of
references (`Shape.rename`).

Resolution goes through a shape once and does not resolve what it puts in: how often to resolve, and
in which order of declarations, is a matter of the catalog. A shape without references is left as it
is by this, whatever the references would stand for.
-/

namespace JsonShapes.Shape

mutual

/-- The shape with each reference replaced by what it stands for; one that stands for nothing is
left. -/
def resolve (meaning : Int → Option Shape) : Shape → Shape
  | .ref id => (meaning id).getD (.ref id)
  | .array e => .array (e.resolve meaning)
  | .union ms => .union (resolveAll meaning ms)
  | .object fs order => .object (resolveFields meaning fs) order
  | .prim p => .prim p
  | .emptyArray => .emptyArray
  | .foreign thing => .foreign thing

/-- The shapes with their references replaced. -/
def resolveAll (meaning : Int → Option Shape) : List Shape → List Shape
  | [] => []
  | m :: ms => m.resolve meaning :: resolveAll meaning ms

/-- The fields with the references in their contents replaced. -/
def resolveFields (meaning : Int → Option Shape) : List (Field Shape) → List (Field Shape)
  | [] => []
  | ⟨name, optional, s⟩ :: fs => ⟨name, optional, s.resolve meaning⟩ :: resolveFields meaning fs

end

variable {meaning : Int → Option Shape}

/-- The field with the references in its content replaced. -/
def resolveField (meaning : Int → Option Shape) (f : Field Shape) : Field Shape :=
  { f with content := f.content.resolve meaning }

/-- The members of a union are resolved one by one. -/
theorem resolveAll_eq_map (ms : List Shape) :
    resolveAll meaning ms = ms.map (resolve meaning) := by
  induction ms with
  | nil => rfl
  | cons m ms ih => rw [resolveAll, ih, List.map_cons]

/-- The contents of fields are resolved one by one. -/
theorem resolveFields_eq_map (fs : List (Field Shape)) :
    resolveFields meaning fs = fs.map (resolveField meaning) := by
  induction fs with
  | nil => rfl
  | cons f fs ih => rw [resolveFields, ih, List.map_cons, resolveField]

/-- A union is resolved member by member; members that become equal are both kept. -/
theorem resolve_union (ms : List Shape) :
    (union ms).resolve meaning = .union (ms.map (resolve meaning)) := by
  rw [resolve, resolveAll_eq_map]

theorem resolve_object (fs : List (Field Shape)) (order : List String) :
    (object fs order).resolve meaning = .object (fs.map (resolveField meaning)) order := by
  rw [resolve, resolveFields_eq_map]

/-- What a shape is resolved to hangs only on what its references stand for. -/
theorem resolve_congr {meaning' : Int → Option Shape} {s : Shape}
    (h : ∀ id ∈ s.references, meaning id = meaning' id) :
    s.resolve meaning = s.resolve meaning' := by
  induction s with
  | array e ih => rw [resolve, resolve, ih h]
  | object fs order ih =>
    rw [resolve_object, resolve_object, List.map_congr_left fun f hf ↦ ?_]
    rw [resolveField, resolveField, ih f hf fun id hid ↦ ?_]
    exact h id (mem_references_object.2 ⟨f, hf, hid⟩)
  | union ms ih =>
    rw [resolve_union, resolve_union, List.map_congr_left fun m hm ↦ ?_]
    exact ih m hm fun id hid ↦ h id (mem_references_union.2 ⟨m, hm, hid⟩)
  | ref id => rw [resolve, resolve, h id (by simp [references])]
  | _ => rfl

/-- What a shape is resolved to refers to nothing, if none of its references is resolved to
something that does. -/
theorem references_resolve_eq_nil {s : Shape}
    (h : ∀ id ∈ s.references, ((ref id).resolve meaning).references = []) :
    (s.resolve meaning).references = [] := by
  induction s with
  | array e ih => exact ih h
  | object fs order ih =>
    rw [resolve_object]
    refine referencesOfFields_eq_nil_iff.2 (List.forall_mem_map.2 fun f hf ↦ ?_)
    exact ih f hf fun id hid ↦ h id (mem_references_object.2 ⟨f, hf, hid⟩)
  | union ms ih =>
    rw [resolve_union]
    refine referencesOfAll_eq_nil_iff.2 (List.forall_mem_map.2 fun m hm ↦ ?_)
    exact ih m hm fun id hid ↦ h id (mem_references_union.2 ⟨m, hm, hid⟩)
  | ref id => exact h id (List.mem_singleton_self id)
  | _ => rfl

/-- Resolution is a matter of meaning: equal shapes have equal references in equal places. -/
theorem same_resolve {s t : Shape} (h : s.same t = true) :
    (s.resolve meaning).same (t.resolve meaning) = true := by
  induction s generalizing t with
  | prim _ | emptyArray | ref _ | foreign _ =>
    cases same_cases h
    exact same_refl _
  | array e ih =>
    cases same_cases h with
    | array hef => exact ih hef
  | object fs order ih =>
    cases same_cases h with
    | object halike =>
      rw [resolve_object, resolve_object]
      refine same_object.2 (List.forall₂_map_left_iff.2 (List.forall₂_map_right_iff.2 ?_))
      refine forall₂_imp_of_mem halike fun f hf g _ hfg ↦ ?_
      exact ⟨hfg.name, hfg.optional, ih f hf hfg.content⟩
  | union ms ih =>
    cases same_cases h with
    | union hl hr =>
      rw [resolve_union, resolve_union]
      refine same_union.2 ⟨List.forall_mem_map.2 fun m hm ↦ ?_, List.forall_mem_map.2 fun n hn ↦ ?_⟩
      · obtain ⟨n, hn, hmn⟩ := hl m hm
        exact ⟨_, List.mem_map_of_mem hn, ih m hm hmn⟩
      · obtain ⟨m, hm, hmn⟩ := hr n hn
        exact ⟨_, List.mem_map_of_mem hm, ih m hm hmn⟩

/-! ### Renaming -/

/-- The shape with other numbers in its references. -/
def rename (f : Int → Int) (s : Shape) : Shape :=
  s.resolve fun id ↦ some (.ref (f id))

/-- The field with other numbers in its references. -/
def renameField (f : Int → Int) (field : Field Shape) : Field Shape :=
  { field with content := field.content.rename f }

theorem rename_union (f : Int → Int) (ms : List Shape) :
    (union ms).rename f = .union (ms.map (rename f)) :=
  resolve_union ms

theorem rename_object (f : Int → Int) (fs : List (Field Shape)) (order : List String) :
    (object fs order).rename f = .object (fs.map (renameField f)) order :=
  resolve_object fs order

/-- Giving every reference its own number changes nothing. -/
theorem rename_self (s : Shape) : s.rename (fun id ↦ id) = s := by
  induction s with
  | array e ih => exact congrArg array ih
  | object fs order ih =>
    have hkept : ∀ f ∈ fs, renameField (fun id ↦ id) f = f :=
      fun f hf ↦ congrArg (Field.mk f.name f.optional) (ih f hf)
    rw [rename_object, List.map_congr_left hkept, List.map_id']
  | union ms ih => rw [rename_union, List.map_congr_left ih, List.map_id']
  | _ => rfl

end JsonShapes.Shape
