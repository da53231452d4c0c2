import JsonShapes.Proofs.Shape.JoinLaws

/-!
# The references of a join

A join refers to nothing that its operands do not refer to (`references_join`). This holds of all
shapes, well-formed or not, and is proved layer by layer like everything about joins.

The references of a shape are gathered in a list with repetitions, and only membership in it is ever
asked for. The first lemmas say at each constructor whose references those of a shape are; after
them no proof looks at the list again.

What is said here is used in one direction only. That a shape without references is inferred from
any value, and that joining two such shapes makes another, is what lets hoisting give out its own
numbers: nothing in the shape that it starts from stands for a declaration already.
-/

namespace JsonShapes.Shape

variable {policy : Policy}

/-- Members refer to what one of them does. -/
theorem mem_referencesOfAll {ms : List Shape} {id : Int} :
    id ∈ referencesOfAll ms ↔ ∃ m ∈ ms, id ∈ m.references := by
  induction ms with
  | nil => simp [referencesOfAll]
  | cons m ms ih => simp [referencesOfAll, ih]

/-- Fields refer to what the content of one of them does. -/
theorem mem_referencesOfFields {fs : List (Field Shape)} {id : Int} :
    id ∈ referencesOfFields fs ↔ ∃ f ∈ fs, id ∈ f.content.references := by
  induction fs with
  | nil => simp [referencesOfFields]
  | cons f fs ih => simp [referencesOfFields, ih]

theorem mem_references_union {ms : List Shape} {id : Int} :
    id ∈ (union ms).references ↔ ∃ m ∈ ms, id ∈ m.references :=
  mem_referencesOfAll

theorem mem_references_object {fs : List (Field Shape)} {order : List String} {id : Int} :
    id ∈ (object fs order).references ↔ ∃ f ∈ fs, id ∈ f.content.references :=
  mem_referencesOfFields

/-- Members refer to nothing exactly if none of them does. -/
theorem referencesOfAll_eq_nil_iff {ms : List Shape} :
    referencesOfAll ms = [] ↔ ∀ m ∈ ms, m.references = [] := by
  induction ms with
  | nil => simp [referencesOfAll]
  | cons m ms ih => simp [referencesOfAll, ih]

/-- The same goes for fields. -/
theorem referencesOfFields_eq_nil_iff {fs : List (Field Shape)} :
    referencesOfFields fs = [] ↔ ∀ f ∈ fs, f.content.references = [] := by
  induction fs with
  | nil => simp [referencesOfFields]
  | cons f fs ih => simp [referencesOfFields, ih]

theorem mem_references_ofFields {fs : List (Field Shape)} {order : List String} {id : Int} :
    id ∈ (ofFields fs order).references ↔ ∃ f ∈ fs, id ∈ f.content.references := by
  rw [ofFields, mem_references_object]
  exact exists_congr fun f ↦ and_congr_left fun _ ↦ List.mem_mergeSort

/-- A shape refers to what one of its alternatives does. -/
theorem mem_references_iff_alternatives {s : Shape} {id : Int} :
    id ∈ s.references ↔ ∃ m ∈ s.alternatives, id ∈ m.references := by
  cases s with
  | union ms => exact mem_references_union
  | _ => simp [alternatives]

/-- What is made of alternatives refers to what one of them does. -/
theorem mem_references_ofAlternatives {ms : List Shape} {id : Int} :
    id ∈ (ofAlternatives ms).references ↔ ∃ m ∈ ms, id ∈ m.references := by
  match ms with
  | [only] => simp [ofAlternatives]
  | [] => exact mem_references_union
  | m :: n :: rest => exact mem_references_union

/-! ### One layer -/

section Layer

variable {part : Shape → Shape → Shape}
  (hpart : ∀ x y id, id ∈ (part x y).references → id ∈ x.references ∨ id ∈ y.references)

include hpart

/-- A joined field refers to what one of the two fields does. -/
theorem references_joinField {name : String} {f? g? : Option (Field Shape)} {k : Field Shape}
    (h : joinField part name f? g? = some k) {id : Int} (hid : id ∈ k.content.references) :
    (∃ f ∈ f?, id ∈ f.content.references) ∨ ∃ g ∈ g?, id ∈ g.content.references := by
  match f?, g?, h with
  | some f, some g, rfl =>
    exact (hpart _ _ id hid).imp (fun hid ↦ ⟨f, rfl, hid⟩) fun hid ↦ ⟨g, rfl, hid⟩
  | some f, none, rfl => exact Or.inl ⟨f, rfl, hid⟩
  | none, some g, rfl => exact Or.inr ⟨g, rfl, hid⟩

/-- The join of two objects brings in no reference. -/
theorem references_joinObjects {s t : Shape} {id : Int}
    (h : id ∈ (joinObjects part s t).references) : id ∈ s.references ∨ id ∈ t.references := by
  cases s with
  | object fs order =>
    cases t with
    | object gs order' =>
      rw [joinObjects_eq, mem_references_ofFields] at h
      obtain ⟨k, hk, hid⟩ := h
      rw [joinFields_eq, List.mem_filterMap] at hk
      obtain ⟨name, -, hk⟩ := hk
      rw [mem_references_object, mem_references_object]
      exact (references_joinField hpart hk hid).imp
        (fun ⟨f, hf, hid⟩ ↦ ⟨f, Field.mem_of_get? hf, hid⟩)
        fun ⟨g, hg, hid⟩ ↦ ⟨g, Field.mem_of_get? hg, hid⟩
    | _ => exact Or.inl h
  | _ => exact Or.inl h

/-- Nor does that of two arrays. -/
theorem references_joinArrays {s t : Shape} {id : Int}
    (h : id ∈ (joinArrays part s t).references) : id ∈ s.references ∨ id ∈ t.references := by
  rw [joinArrays.eq_def] at h
  split at h
  · exact Or.inl h
  · split at h
    · exact Or.inr h
    · have hid := hpart _ _ id h
      exact hid
    · exact Or.inl h

omit hpart in
/-- Combining from the left adds no references, if combining two does not. -/
theorem references_reduce? {f : Shape → Shape → Shape}
    (hf : ∀ x y id, id ∈ (f x y).references → id ∈ x.references ∨ id ∈ y.references)
    {xs : List Shape} {z : Shape} (h : reduce? f xs = some z) {id : Int} (hid : id ∈ z.references) :
    ∃ x ∈ xs, id ∈ x.references := by
  refine of_mem_reduce? (P := fun z ↦ id ∈ z.references → ∃ x ∈ xs, id ∈ x.references)
    (fun x y hx hy hid ↦ (hf x y id hid).elim hx hy) (fun x hx hid ↦ ⟨x, hx, hid⟩) h hid

/-- Joining alternatives brings in no reference, though all of their objects and all of their arrays
are joined one to another. -/
theorem references_joinAlternatives {ms : List Shape} {id : Int}
    (h : id ∈ (joinAlternatives part ms).references) : ∃ m ∈ ms, id ∈ m.references := by
  have hfilter : ∀ {p : Shape → Bool}, (∃ m ∈ ms.filter p, id ∈ m.references) →
      ∃ m ∈ ms, id ∈ m.references :=
    fun ⟨m, hm, hid⟩ ↦ ⟨m, (List.mem_filter.1 hm).1, hid⟩
  have hreduce : ∀ {f : Shape → Shape → Shape} {p : Shape → Bool},
      (∀ x y id, id ∈ (f x y).references → id ∈ x.references ∨ id ∈ y.references) →
      ∀ m ∈ (reduce? f (ms.filter p)).toList, id ∈ m.references → ∃ m ∈ ms, id ∈ m.references :=
    fun hf m hm hid ↦ hfilter (references_reduce? hf (Option.mem_toList.1 hm) hid)
  rw [joinAlternatives_eq] at h
  obtain ⟨m, hm, hid⟩ := mem_references_ofAlternatives.1 h
  rcases List.mem_append.1 hm with hm | hm
  · rcases List.mem_append.1 hm with hm | hm
    · exact hfilter ⟨m, mem_of_mem_distinct hm, hid⟩
    · exact hreduce (fun x y id h ↦ references_joinObjects hpart h) m hm hid
  · exact hreduce (fun x y id h ↦ references_joinArrays hpart h) m hm hid

/-- One layer of a join brings in no reference. -/
theorem references_joinLayer {s t : Shape} {id : Int}
    (h : id ∈ (joinLayer part policy s t).references) : id ∈ s.references ∨ id ∈ t.references := by
  rw [joinLayer.eq_def] at h
  split at h
  · exact Or.inl h
  split at h
  · exact Or.inl h
  · exact Or.inr h
  · exact Or.inr h
  · exact Or.inl h
  · have hid := hpart _ _ id h
    exact hid
  · exact references_joinObjects hpart h
  · split at h
    · simp [references] at h
    · obtain ⟨m, hm, hid⟩ := references_joinAlternatives hpart h
      rw [mem_references_iff_alternatives, mem_references_iff_alternatives (s := t)]
      exact (List.mem_append.1 hm).imp (fun hm ↦ ⟨m, hm, hid⟩) fun hm ↦ ⟨m, hm, hid⟩

end Layer

/-- A join of declared shapes thus refers only to what was declared before. -/
theorem references_join {s t : Shape} {id : Int} (h : id ∈ (s.join policy t).references) :
    id ∈ s.references ∨ id ∈ t.references := by
  have hwithin : ∀ d x y id, id ∈ (joinWithin policy d x y).references →
      id ∈ x.references ∨ id ∈ y.references := by
    intro d
    induction d with
    | zero => exact fun x y id h ↦ references_joinLayer (fun x y id h ↦ Or.inl h) h
    | succ d ih => exact fun x y id h ↦ references_joinLayer ih h
  exact hwithin _ s t id h

end JsonShapes.Shape
