import JsonShapes.Proofs.Shape.WellFormed

/-!
# The parts of a join

The join of two objects has for each name the field that `joinField` makes of theirs, in the order
of names (`joinObjects_wellFormed`); the join of alternatives puts side by side the others, the one
object and the one array that are left (`joinAlternatives_eq`), which may stand so in a union
(`assorted_append`). One layer of a join comes down to these (`joinLayer_eq`). None of this looks
into the join of the shapes below.

The operation that joins what lies below is a variable, `part`, throughout. The modules that follow
fill it in with what they have assumed of the layers below, once for what a join shows, once for the
references in it, once for its depth, and once for the order of discovery.
-/

namespace JsonShapes.Shape

variable {part : Shape → Shape → Shape}

/-! ### Fields -/

/-- The field of a name in the join of two objects that get the given fields for it. -/
def joinField (part : Shape → Shape → Shape) (name : String) :
    Option (Field Shape) → Option (Field Shape) → Option (Field Shape)
  | some f, some g => some ⟨name, f.optional || g.optional, part f.content g.content⟩
  | some f, none => some { f with optional := true }
  | none, some g => some { g with optional := true }
  | none, none => none

theorem joinFields_eq (names : List String) (fs gs : List (Field Shape)) :
    joinFields part names fs gs = names.filterMap fun name ↦
      joinField part name (Field.get? fs name) (Field.get? gs name) :=
  rfl

/-- A joined field has the name that it was made for. -/
theorem name_joinField {fs gs : List (Field Shape)} (name : String) (f : Field Shape)
    (h : joinField part name (Field.get? fs name) (Field.get? gs name) = some f) :
    f.name = name := by
  match hf : Field.get? fs name, hg : Field.get? gs name, h with
  | some _, some _, rfl => rfl
  | some k, none, rfl =>
    show k.name = name
    exact Field.name_of_get? hf
  | none, some k, rfl =>
    show k.name = name
    exact Field.name_of_get? hg

theorem optional_joinField (name : String) (f g : Option (Field Shape)) :
    (joinField part name f g).all (·.optional) = (f.all (·.optional) || g.all (·.optional)) := by
  cases f <;> cases g <;> simp [joinField]

/-- The names of a join: those of the first object, then what only the second has. -/
def joinNames (order order' : List String) : List String :=
  order ++ order'.filter (· ∉ order)

theorem mem_joinNames {order order' : List String} {name : String} :
    name ∈ joinNames order order' ↔ name ∈ order ∨ name ∈ order' := by
  by_cases h : name ∈ order <;> simp [joinNames, h]

/-- Joining names lists none twice. -/
theorem nodup_joinNames {order order' : List String} (h : order.Nodup) (h' : order'.Nodup) :
    (joinNames order order').Nodup := by
  refine List.nodup_append.2 ⟨h, h'.filter _, ?_⟩
  rintro a ha b hb rfl
  simp [ha] at hb

/-- The join of two objects, built from its fields as objects are, which sorts them. -/
theorem joinObjects_eq (fs gs : List (Field Shape)) (order order' : List String) :
    joinObjects part (.object fs order) (.object gs order') =
      ofFields (joinFields part (joinNames order order') fs gs) (joinNames order order') :=
  rfl

/-- The objects listing the names of their fields, the join has one field for each of the names. -/
theorem map_name_joinFields {fs gs : List (Field Shape)} {order order' : List String}
    (h : order.Perm (fs.map (·.name))) (h' : order'.Perm (gs.map (·.name))) :
    (joinFields part (joinNames order order') fs gs).map (·.name) = joinNames order order' := by
  refine Field.map_name_filterMap name_joinField fun name hname ↦ ?_
  rw [mem_joinNames, h.mem_iff, h'.mem_iff] at hname
  rcases hname with hname | hname
  · obtain ⟨f, hf⟩ := Field.exists_get?_of_mem hname
    cases hg : Field.get? gs name <;> simp [hf, joinField]
  · obtain ⟨g, hg⟩ := Field.exists_get?_of_mem hname
    cases hf : Field.get? fs name <;> simp [hg, joinField]

/-- The fields of the join of two well-formed objects, name by name. -/
theorem joinObjects_wellFormed (part : Shape → Shape → Shape) {fs gs : List (Field Shape)}
    {order order' : List String}
    (hs : (object fs order).WellFormed) (ht : (object gs order').WellFormed) :
    ∃ hs : List (Field Shape),
      joinObjects part (.object fs order) (.object gs order') =
        .object hs (joinNames order order') ∧ Field.Increasing hs ∧
      (joinNames order order').Perm (hs.map (·.name)) ∧
      ∀ name, Field.get? hs name =
        joinField part name (Field.get? fs name) (Field.get? gs name) := by
  cases hs with
  | object hincreasing hlisted _ =>
  cases ht with
  | object hincreasing' hlisted' _ =>
  -- the orders list the names of the fields, so the join makes none up
  have hget : ∀ name ∉ joinNames order order',
      joinField part name (Field.get? fs name) (Field.get? gs name) = none := by
    intro name hname
    rw [mem_joinNames, hlisted.mem_iff, hlisted'.mem_iff, not_or] at hname
    rw [Field.get?_eq_none_iff.2 hname.1, Field.get?_eq_none_iff.2 hname.2]
    rfl
  have hmap : (joinFields part (joinNames order order') fs gs).map (·.name) =
      joinNames order order' := map_name_joinFields hlisted hlisted'
  set names := joinNames order order' with hnames
  have hnodup : ((joinFields part names fs gs).map (·.name)).Nodup := by
    rw [hmap]
    exact nodup_joinNames (hlisted.nodup_iff.2 hincreasing.nodup)
      (hlisted'.nodup_iff.2 hincreasing'.nodup)
  refine ⟨Field.sorted (joinFields part names fs gs), ?_, Field.increasing_sorted hnodup, ?_, ?_⟩
  · rw [joinObjects_eq, ← hnames, ofFields, hmap, ite_self]
    rfl
  · exact (List.Perm.of_eq hmap.symm).trans ((Field.sorted_perm _).map _).symm
  · intro name
    rw [Field.get?_sorted hnodup, joinFields_eq, Field.get?_filterMap name_joinField]
    split
    · rfl
    · exact (hget name ‹_›).symm

theorem isObject_joinObjects {s t : Shape} (hs : s.isObject = true) :
    (joinObjects part s t).isObject = true := by
  obtain ⟨fs, order, rfl⟩ := isObject_iff.1 hs
  cases t <;> rfl

/-! ### Arrays -/

theorem joinArrays_of_same {s t : Shape} (h : s.same t = true) : joinArrays part s t = s :=
  if_pos h

theorem joinArrays_array_array {e f : Shape} (h : ¬e.same f = true) :
    joinArrays part (.array e) (.array f) = .array (part e f) :=
  if_neg h

/-- Two arrays are joined to an array. -/
theorem isArray_joinArrays {s t : Shape} (hs : s.isArray = true) :
    (joinArrays part s t).isArray = true := by
  rw [joinArrays.eq_def]
  split
  · exact hs
  · split <;> first | rfl | exact hs

/-! ### Alternatives -/

/-- The shape with the given alternatives. A single one stands for itself. -/
def ofAlternatives : List Shape → Shape
  | [only] => only
  | all => .union all

/-- Other alternatives that differ, at most one object and at most one array may stand side by side.
-/
theorem assorted_append {others objects arrays : List Shape}
    (hdistinct : others.Pairwise fun m n ↦ m.same n = false)
    (hothers : ∀ m ∈ others, m.isPlain = true ∧ m.isObject = false ∧ m.isArray = false)
    (hobject : objects.length ≤ 1) (hobjects : ∀ m ∈ objects, m.isObject = true)
    (harray : arrays.length ≤ 1) (harrays : ∀ m ∈ arrays, m.isArray = true) :
    Assorted (others ++ objects ++ arrays) := by
  have hlone : ∀ {ms : List Shape}, ms.length ≤ 1 → ms.Pairwise fun m n ↦ m.same n = false := by
    intro ms hms
    match ms, hms with
    | [], _ => exact .nil
    | [m], _ => exact List.pairwise_singleton _ _
  have hnone : ∀ {p : Shape → Bool} {ms : List Shape}, (∀ m ∈ ms, p m = false) → ms.countP p = 0 :=
    fun h ↦ List.countP_eq_zero.2 fun m hm ↦ Bool.eq_false_iff.1 (h m hm)
  have hobjects' : ∀ m ∈ objects, m.isPlain = true ∧ m.isArray = false :=
    fun m hm ↦ isPlain_of_isObject (hobjects m hm)
  have harrays' : ∀ m ∈ arrays, m.isPlain = true ∧ m.isObject = false :=
    fun m hm ↦ isPlain_of_isArray (harrays m hm)
  constructor
  · refine List.pairwise_append.2 ⟨List.pairwise_append.2 ⟨hdistinct, hlone hobject, ?_⟩,
      hlone harray, ?_⟩
    · -- an object means the same as nothing that is none, and so do arrays
      intro m hm n hn
      refine Bool.eq_false_iff.2 fun hsame ↦ ?_
      have hm' : m.isObject = false := (hothers m hm).2.1
      rw [isObject_of_same hsame, hobjects n hn] at hm'
      exact Bool.noConfusion hm'
    · intro m hm n hn
      refine Bool.eq_false_iff.2 fun hsame ↦ ?_
      have hm' : m.isArray = false :=
        (List.mem_append.1 hm).elim (fun h ↦ (hothers m h).2.2) fun h ↦ (hobjects' m h).2
      rw [isArray_of_same hsame, harrays n hn] at hm'
      exact Bool.noConfusion hm'
  · intro m hm
    rcases List.mem_append.1 hm with hm | hm
    · exact (List.mem_append.1 hm).elim (fun h ↦ (hothers m h).1) fun h ↦ (hobjects' m h).1
    · exact (harrays' m hm).1
  · have hother : others.countP isObject = 0 := hnone fun m hm ↦ (hothers m hm).2.1
    have hrest : arrays.countP isObject = 0 := hnone fun m hm ↦ (harrays' m hm).2
    rw [List.countP_append, List.countP_append, hother, hrest, Nat.zero_add]
    exact List.countP_le_length.trans hobject
  · have hother : others.countP isArray = 0 := hnone fun m hm ↦ (hothers m hm).2.2
    have hrest : objects.countP isArray = 0 := hnone fun m hm ↦ (hobjects' m hm).2
    rw [List.countP_append, List.countP_append, hother, hrest, Nat.zero_add]
    exact List.countP_le_length.trans harray

/-- What all items have and combining two keeps, all of them combined have. -/
theorem of_mem_reduce? {α : Type} {P : α → Prop} {f : α → α → α}
    (hf : ∀ a b, P a → P b → P (f a b)) {l : List α} (hl : ∀ a ∈ l, P a) {z : α}
    (h : z ∈ reduce? f l) : P z := by
  cases l with
  | nil => exact nomatch h
  | cons a l =>
    obtain rfl := Option.mem_some_iff.1 h
    obtain ⟨ha, hl⟩ := List.forall_mem_cons.1 hl
    exact List.foldlRecOn l f ha fun b hb c hc ↦ hf b c hb (hl c hc)

/-- The alternatives that are neither objects nor arrays. -/
def otherAlternatives (ms : List Shape) : List Shape :=
  distinct (ms.filter fun m ↦ !m.isObject && !m.isArray)

/-- The alternatives of a join, in three groups. Whatever is neither object nor array is kept once.
-/
theorem joinAlternatives_eq (ms : List Shape) :
    joinAlternatives part ms = ofAlternatives (otherAlternatives ms ++
      (reduce? (joinObjects part) (ms.filter isObject)).toList ++
      (reduce? (joinArrays part) (ms.filter isArray)).toList) :=
  rfl

/-- What comes of two shapes that cannot be joined but by a policy. -/
def joinConflict (part : Shape → Shape → Shape) (policy : Policy) (s t : Shape) : Shape :=
  match policy with
  | .unknown => unknown
  | .union => joinAlternatives part (s.alternatives ++ t.alternatives)

/-- Two arrays are joined as arrays, and what is left over is a conflict. -/
theorem joinLayer_eq {policy : Policy} {s t : Shape} (hsame : ¬s.same t = true) (hs : s ≠ unknown)
    (ht : t ≠ unknown) :
    joinLayer part policy s t =
      if s.isArray && t.isArray then joinArrays part s t
      else if s.isObject && t.isObject then joinObjects part s t
      else joinConflict part policy s t := by
  rw [joinLayer.eq_def, joinArrays.eq_def, if_neg hsame, if_neg hsame]
  split
  case h_1 => exact absurd rfl hs
  case h_2 => exact absurd rfl ht
  case h_7 _ _ _ _ hleft hright harrays hobjects =>
    have harray : ¬(s.isArray && t.isArray) = true := by
      rw [Bool.and_eq_true, isArray_iff, isArray_iff]
      rintro ⟨rfl | ⟨e, rfl⟩, rfl | ⟨f, rfl⟩⟩
      · exact hsame (same_refl _)
      · exact hleft _ rfl rfl
      · exact hright _ rfl rfl
      · exact harrays _ _ rfl rfl
    have hobject : ¬(s.isObject && t.isObject) = true := by
      rw [Bool.and_eq_true, isObject_iff, isObject_iff]
      rintro ⟨⟨fs, order, rfl⟩, gs, order', rfl⟩
      exact hobjects _ _ _ _ rfl rfl
    rw [if_neg harray, if_neg hobject]
    rfl
  all_goals rfl

end JsonShapes.Shape
