import JsonShapes.Proofs.Shape.JoinLaws

/-!
# The order of discovery in a join

Equality ignores the order in which the names of an object were seen, so nothing about it follows
from what shapes show. It is read off the object among the alternatives of a shape (`discovered`). A
join lists the names that the first operand has discovered and then the new ones of the second
(`discovered_join`), in whichever way the two are joined, unless their conflict is given up.

A well-formed shape has one object among its alternatives at most, and joining alternatives joins
the objects among them. So the order of a join is decided where two objects are joined, by
`joinNames`, and everything else here is about finding those two objects.

## Where the order could be lost

* In a union, the object among the alternatives is found whichever place it has
  (`discovered_of_mem_alternatives`).
* Where two operands mean the same, the first is kept as it is. Its object lists all names of the
  second, so nothing new would have been added (`joinNames_of_subset`).
* Where there is an object on one side only, joining names with none leaves the order as it is
  (`joinNames_nil_left`, `joinNames_nil_right`).
-/

namespace JsonShapes.Shape

variable {policy : Policy} {part : Shape → Shape → Shape}

/-- The order in which the names of an object were seen. -/
def orderOf : Shape → List String
  | .object _ order => order
  | _ => []

/-- The names that a shape has seen in objects, in the order of discovery. -/
def discovered (s : Shape) : List String :=
  (s.alternatives.filter isObject).flatMap orderOf

/-- A well-formed shape has one object among its alternatives, or none: two would be of one group,
and a union has one of each. -/
theorem filter_isObject_length_le {s : Shape} (hs : s.WellFormed) :
    (s.alternatives.filter isObject).length ≤ 1 := by
  by_cases hne : s = unknown
  · subst hne
    decide
  · exact List.countP_eq_length_filter ▸ (hs.assorted hne).objects

/-- Of a well-formed shape, the names are those of the one object among the alternatives. -/
theorem discovered_of_mem_alternatives {s : Shape} (hs : s.WellFormed) {fs : List (Field Shape)}
    {order : List String} (h : .object fs order ∈ s.alternatives) : s.discovered = order := by
  have hle := filter_isObject_length_le hs
  have hmem : .object fs order ∈ s.alternatives.filter isObject := List.mem_filter.2 ⟨h, rfl⟩
  rw [discovered]
  match s.alternatives.filter isObject, hle, hmem with
  | [only], _, hmem =>
    rw [← List.mem_singleton.1 hmem]
    exact List.append_nil order

/-! ### Joining names -/

@[simp]
theorem joinNames_nil_left (order : List String) : joinNames [] order = order := by
  simp [joinNames]

@[simp]
theorem joinNames_nil_right (order : List String) : joinNames order [] = order := by
  simp [joinNames]

/-- Names that are known already add nothing, in whichever order they come. -/
theorem joinNames_of_subset {order order' : List String} (h : order' ⊆ order) :
    joinNames order order' = order := by
  rw [joinNames, List.filter_eq_nil_iff.2 fun name hname ↦ by simpa using h hname, List.append_nil]

/-- Of shapes that mean the same, each alternative of one means the same as one of the other. -/
theorem exists_alternative_of_same {s t : Shape} (h : s.same t = true) {n : Shape}
    (hn : n ∈ t.alternatives) : ∃ m ∈ s.alternatives, m.same n = true := by
  cases same_cases h with
  | union _ hr => exact hr n hn
  | _ => exact ⟨_, List.mem_singleton_self _, (List.mem_singleton.1 hn) ▸ h⟩

/-- Shapes that mean the same have discovered the same names. -/
theorem discovered_subset_of_same {s t : Shape} (hs : s.WellFormed) (ht : t.WellFormed)
    (h : s.same t = true) : t.discovered ⊆ s.discovered := by
  intro name hname
  obtain ⟨n, hn, hname⟩ := List.mem_flatMap.1 hname
  obtain ⟨hn, hobject⟩ := List.mem_filter.1 hn
  obtain ⟨gs, order', rfl⟩ := isObject_iff.1 hobject
  obtain ⟨m, hm, hmn⟩ := exists_alternative_of_same h hn
  obtain ⟨fs, order, rfl⟩ := isObject_iff.1 ((isObject_of_same hmn).trans hobject)
  refine List.mem_flatMap.2 ⟨_, List.mem_filter.2 ⟨hm, rfl⟩, ?_⟩
  cases hs.mem_alternatives hm with
  | object _ hlisted _ =>
  cases ht.mem_alternatives hn with
  | object _ hlisted' _ =>
  show name ∈ order
  have hnames : fs.map (·.name) = gs.map (·.name) :=
    map_eq_of_forall₂ (same_object.1 hmn) fun _ _ ↦ Field.Alike.name
  rw [hlisted.mem_iff, hnames, ← hlisted'.mem_iff]
  exact hname

/-! ### One layer -/

theorem alternatives_of_isPlain {s : Shape} (h : s.isPlain = true) : s.alternatives = [s] := by
  cases s <;> simp_all [alternatives, isPlain]

/-- Plain shapes are the alternatives of what is made of them. -/
theorem alternatives_ofAlternatives {ms : List Shape} (h : ∀ m ∈ ms, m.isPlain = true) :
    (ofAlternatives ms).alternatives = ms := by
  match ms with
  | [only] => exact alternatives_of_isPlain (h only List.mem_cons_self)
  | [] => rfl
  | _ :: _ :: _ => rfl

theorem isObject_of_mem_reduce? {ms : List Shape} {z : Shape}
    (h : z ∈ (reduce? (joinObjects part) (ms.filter isObject)).toList) : z.isObject = true :=
  of_mem_reduce? (P := (isObject · = true)) (fun _ _ hx _ ↦ isObject_joinObjects hx)
    (fun _ hm ↦ (List.mem_filter.1 hm).2) (Option.mem_toList.1 h)

theorem isArray_of_mem_reduce? {ms : List Shape} {z : Shape}
    (h : z ∈ (reduce? (joinArrays part) (ms.filter isArray)).toList) : z.isArray = true :=
  of_mem_reduce? (P := (isArray · = true)) (fun _ _ hx _ ↦ isArray_joinArrays hx)
    (fun _ hm ↦ (List.mem_filter.1 hm).2) (Option.mem_toList.1 h)

theorem of_mem_otherAlternatives {ms : List Shape} {m : Shape} (h : m ∈ otherAlternatives ms) :
    m ∈ ms ∧ m.isObject = false ∧ m.isArray = false := by
  simpa using List.mem_filter.1 (mem_of_mem_distinct h)

/-- Joining alternatives keeps the others beside one object and one array, so far as there are any.
-/
theorem alternatives_joinAlternatives {ms : List Shape} (h : ∀ m ∈ ms, m.isPlain = true) :
    (joinAlternatives part ms).alternatives = otherAlternatives ms ++
      (reduce? (joinObjects part) (ms.filter isObject)).toList ++
      (reduce? (joinArrays part) (ms.filter isArray)).toList := by
  rw [joinAlternatives_eq, alternatives_ofAlternatives]
  intro m hm
  rcases List.mem_append.1 hm with hm | hm
  · rcases List.mem_append.1 hm with hm | hm
    · exact h m (of_mem_otherAlternatives hm).1
    · exact (isPlain_of_isObject (isObject_of_mem_reduce? hm)).1
  · exact (isPlain_of_isArray (isArray_of_mem_reduce? hm)).1

/-- Joining alternatives joins the objects among them. -/
theorem filter_isObject_joinAlternatives {ms : List Shape} (h : ∀ m ∈ ms, m.isPlain = true) :
    (joinAlternatives part ms).alternatives.filter isObject =
      (reduce? (joinObjects part) (ms.filter isObject)).toList := by
  have hothers : (otherAlternatives ms).filter isObject = [] :=
    List.filter_eq_nil_iff.2 fun m hm ↦ Bool.eq_false_iff.1 (of_mem_otherAlternatives hm).2.1
  have harrays : (reduce? (joinArrays part) (ms.filter isArray)).toList.filter isObject = [] :=
    List.filter_eq_nil_iff.2 fun m hm ↦
      Bool.eq_false_iff.1 (isPlain_of_isArray (isArray_of_mem_reduce? hm)).2
  rw [alternatives_joinAlternatives h, List.filter_append, List.filter_append, hothers, harrays,
    List.filter_eq_self.2 fun m hm ↦ isObject_of_mem_reduce? hm, List.nil_append, List.append_nil]

/-- Joining alternatives joins the arrays among them. -/
theorem filter_isArray_joinAlternatives {ms : List Shape} (h : ∀ m ∈ ms, m.isPlain = true) :
    (joinAlternatives part ms).alternatives.filter isArray =
      (reduce? (joinArrays part) (ms.filter isArray)).toList := by
  have hothers : (otherAlternatives ms).filter isArray = [] :=
    List.filter_eq_nil_iff.2 fun m hm ↦ Bool.eq_false_iff.1 (of_mem_otherAlternatives hm).2.2
  have hobjects : (reduce? (joinObjects part) (ms.filter isObject)).toList.filter isArray = [] :=
    List.filter_eq_nil_iff.2 fun m hm ↦
      Bool.eq_false_iff.1 (isPlain_of_isObject (isObject_of_mem_reduce? hm)).2
  rw [alternatives_joinAlternatives h, List.filter_append, List.filter_append, hothers, hobjects,
    List.filter_eq_self.2 fun m hm ↦ isArray_of_mem_reduce? hm, List.nil_append, List.nil_append]

/-- This is where orders meet: the names of the first object come first. -/
theorem orderOf_joinObjects (fs gs : List (Field Shape)) (order order' : List String) :
    orderOf (joinObjects part (.object fs order) (.object gs order')) = joinNames order order' := by
  rw [joinObjects_eq, ofFields, orderOf]
  split
  · rename_i hnil
    rw [List.isEmpty_iff.1 hnil]
    rfl
  · rfl

/-- At most one object on either side: the join has the names of the first, then the new ones of the
second. -/
theorem flatMap_orderOf_reduce? (part : Shape → Shape → Shape) {os os' : List Shape}
    (hle : os.length ≤ 1) (hle' : os'.length ≤ 1) (hos : ∀ o ∈ os ++ os', o.isObject = true) :
    (reduce? (joinObjects part) (os ++ os')).toList.flatMap orderOf =
      joinNames (os.flatMap orderOf) (os'.flatMap orderOf) := by
  match os, os', hle, hle' with
  | [], [], _, _ => rfl
  | [o], [], _, _ => simp [reduce?]
  | [], [o'], _, _ => simp [reduce?]
  | [o], [o'], _, _ =>
    obtain ⟨fs, order, rfl⟩ := isObject_iff.1 (hos o (by simp))
    obtain ⟨gs, order', rfl⟩ := isObject_iff.1 (hos o' (by simp))
    simpa [reduce?, orderOf] using orderOf_joinObjects fs gs order order'

/-- The order of one layer of a join, whatever joins the parts. A conflict that is given up leaves
no object, and so no order. -/
theorem discovered_joinLayer {s t : Shape} (hs : s.WellFormed) (ht : t.WellFormed)
    (hne : joinLayer part policy s t ≠ unknown) :
    (joinLayer part policy s t).discovered = joinNames s.discovered t.discovered := by
  generalize hz : joinLayer part policy s t = z at hne ⊢
  rw [joinLayer.eq_def] at hz
  by_cases hsame : s.same t = true
  · rw [if_pos hsame] at hz
    rw [← hz, joinNames_of_subset (discovered_subset_of_same hs ht hsame)]
  rw [if_neg hsame] at hz
  split at hz
  · exact absurd hz.symm hne
  · exact absurd hz.symm hne
  · exact hz ▸ rfl
  · exact hz ▸ rfl
  · exact hz ▸ rfl
  · rename_i fs order gs order'
    -- two objects are joined as the only objects of two unions would be
    have ho : ∀ o ∈ [object fs order] ++ [object gs order'], o.isObject = true := by simp [isObject]
    rw [← hz]
    exact flatMap_orderOf_reduce? part le_rfl le_rfl ho
  · rename_i hsne htne _ _ _ _
    cases policy with
    | unknown => exact absurd hz.symm hne
    | union =>
      have hplain : ∀ m ∈ s.alternatives ++ t.alternatives, m.isPlain = true :=
        List.forall_mem_append.2 ⟨(hs.assorted hsne).plain, (ht.assorted htne).plain⟩
      have hz' : joinAlternatives part (s.alternatives ++ t.alternatives) = z := hz
      rw [discovered, ← hz', filter_isObject_joinAlternatives hplain, List.filter_append]
      refine flatMap_orderOf_reduce? part (filter_isObject_length_le hs)
        (filter_isObject_length_le ht) fun o ho ↦ ?_
      rw [← List.filter_append] at ho
      exact (List.mem_filter.1 ho).2

/-- A join that is not given up lists the names of the first operand, then the new ones of the
second. -/
theorem discovered_join {s t : Shape} (hs : s.WellFormed) (ht : t.WellFormed)
    (hne : s.join policy t ≠ unknown) :
    (s.join policy t).discovered = joinNames s.discovered t.discovered := by
  rw [join] at hne ⊢
  generalize max s.depth t.depth = d at hne ⊢
  cases d <;> exact discovered_joinLayer hs ht hne

end JsonShapes.Shape
