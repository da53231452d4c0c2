import JsonShapes.Proofs.Shape.Fields
import JsonShapes.Shape.Join

/-!
# Well-formed shapes

The rules that the raw tree leaves to a predicate: the fields of an object have distinct names, lie
in the order of their names and are each listed once in the order of discovery; a union has at
least two members, which differ, and among them no union, no `unknown`, and at most one object and
one array.

The first lemmas sort alternatives by kind, as the rules do. The others say that the parts of a
well-formed shape are well-formed and less deep, which is what inductions over shapes and over
layers go by.
-/

namespace JsonShapes.Shape

/-- Whether a shape may be a member of a union. -/
def isPlain : Shape → Bool
  | .prim .unknown => false
  | .union _ => false
  | _ => true

/-- Shapes that may stand side by side in a union. -/
structure Assorted (ms : List Shape) : Prop where
  /-- No two of them are the same. -/
  distinct : ms.Pairwise fun m n ↦ m.same n = false
  /-- None of them is a union or the unknown. -/
  plain : ∀ m ∈ ms, m.isPlain = true
  /-- At most one is an object, as objects are joined. -/
  objects : ms.countP isObject ≤ 1
  /-- At most one is an array, for the same reason. -/
  arrays : ms.countP isArray ≤ 1

/-- The shapes that inference makes and that joins keep. -/
inductive WellFormed : Shape → Prop
  | prim (p : Primitive) : WellFormed (.prim p)
  | emptyArray : WellFormed .emptyArray
  | array {e : Shape} (element : WellFormed e) : WellFormed (.array e)
  /-- Fields are sorted by name, and the order lists each name once. -/
  | object {fs : List (Field Shape)} {order : List String} (increasing : Field.Increasing fs)
      (listed : order.Perm (fs.map (·.name))) (contents : ∀ f ∈ fs, WellFormed f.content) :
      WellFormed (.object fs order)
  /-- There are two members at least, which may stand side by side. -/
  | union {ms : List Shape} (many : 2 ≤ ms.length) (assorted : Assorted ms)
      (members : ∀ m ∈ ms, WellFormed m) : WellFormed (.union ms)
  | ref (id : Int) : WellFormed (.ref id)

/-! ### Kinds of alternatives -/

theorem isObject_of_same {s t : Shape} (h : s.same t = true) : s.isObject = t.isObject := by
  cases s <;> cases t <;> simp_all [same, isObject]

theorem isArray_of_same {s t : Shape} (h : s.same t = true) : s.isArray = t.isArray := by
  cases s <;> cases t <;> simp_all [same, isArray]

theorem isObject_iff {s : Shape} : s.isObject = true ↔ ∃ fs order, s = .object fs order := by
  cases s <;> simp [isObject]

theorem isArray_iff {s : Shape} : s.isArray = true ↔ s = .emptyArray ∨ ∃ e, s = .array e := by
  cases s <;> simp [isArray]

theorem isPlain_of_isObject {s : Shape} (h : s.isObject = true) :
    s.isPlain = true ∧ s.isArray = false := by
  cases s <;> simp_all [isObject, isPlain, isArray]

theorem isPlain_of_isArray {s : Shape} (h : s.isArray = true) :
    s.isPlain = true ∧ s.isObject = false := by
  cases s <;> simp_all [isObject, isPlain, isArray]

/-- Of a property that at most one member has, there is one bearer. -/
theorem eq_of_countP_le_one {p : Shape → Bool} {ms : List Shape} (h : ms.countP p ≤ 1)
    {m n : Shape} (hm : m ∈ ms) (hn : n ∈ ms) (hpm : p m = true) (hpn : p n = true) : m = n := by
  rw [List.countP_eq_length_filter] at h
  have hmf : m ∈ ms.filter p := List.mem_filter.2 ⟨hm, hpm⟩
  have hnf : n ∈ ms.filter p := List.mem_filter.2 ⟨hn, hpn⟩
  generalize ms.filter p = l at h hmf hnf
  match l, h with
  | [k], _ => rw [List.mem_singleton.1 hmf, List.mem_singleton.1 hnf]
  | [], _ => exact absurd hmf List.not_mem_nil

/-- The alternatives of a well-formed shape are well-formed. -/
theorem WellFormed.mem_alternatives {s m : Shape} (h : s.WellFormed) (hm : m ∈ s.alternatives) :
    m.WellFormed := by
  cases h with
  | union _ _ members => exact members m hm
  | _ => exact (List.mem_singleton.1 hm) ▸ (by constructor <;> assumption)

/-- The alternatives of a shape other than `unknown` may stand side by side in a union. -/
theorem WellFormed.assorted {s : Shape} (h : s.WellFormed) (hs : s ≠ unknown) :
    Assorted s.alternatives := by
  cases h with
  | union _ assorted _ => exact assorted
  | prim p =>
    refine ⟨List.pairwise_singleton _ _, fun m hm ↦ ?_, by simp [alternatives, isObject],
      by simp [alternatives, isArray]⟩
    rw [List.mem_singleton.1 hm]
    cases p <;> simp_all [isPlain]
  | _ =>
    refine ⟨List.pairwise_singleton _ _, fun m hm ↦ (List.mem_singleton.1 hm) ▸ rfl, ?_, ?_⟩ <;>
      exact List.countP_le_length

/-- There is at least one of them, as a well-formed union has two members or more. -/
theorem alternatives_ne_nil {s : Shape} (h : s.WellFormed) : s.alternatives ≠ [] := by
  cases h with
  | union many => exact List.ne_nil_of_length_pos (by simp only [alternatives]; omega)
  | _ => exact List.cons_ne_nil _ _

/-! ### What a well-formed shape is not -/

theorem foreignsOfAll_eq_nil_iff {ms : List Shape} :
    foreignsOfAll ms = [] ↔ ∀ m ∈ ms, m.foreigns = [] := by
  induction ms with
  | nil => simp [foreignsOfAll]
  | cons m ms ih => simp [foreignsOfAll, ih]

theorem foreignsOfFields_eq_nil_iff {fs : List (Field Shape)} :
    foreignsOfFields fs = [] ↔ ∀ f ∈ fs, f.content.foreigns = [] := by
  induction fs with
  | nil => simp [foreignsOfFields]
  | cons f fs ih => simp [foreignsOfFields, ih]

/-- A well-formed shape has nothing in it that is no shape. -/
theorem WellFormed.foreigns_eq_nil {s : Shape} (h : s.WellFormed) : s.foreigns = [] := by
  induction h with
  | array _ ih => exact ih
  | object _ _ _ ih => exact foreignsOfFields_eq_nil_iff.2 ih
  | union _ _ _ ih => exact foreignsOfAll_eq_nil_iff.2 ih
  | _ => rfl

/-! ### Depth -/

theorem depthOfAll_le_iff {ms : List Shape} {d : Nat} :
    depthOfAll ms ≤ d ↔ ∀ m ∈ ms, m.depth ≤ d := by
  induction ms with
  | nil => simp [depthOfAll]
  | cons m ms ih => simp [depthOfAll, ih]

theorem depthOfFields_le_iff {fs : List (Field Shape)} {d : Nat} :
    depthOfFields fs ≤ d ↔ ∀ f ∈ fs, f.content.depth ≤ d := by
  induction fs with
  | nil => simp [depthOfFields]
  | cons f fs ih => simp [depthOfFields, ih]

theorem depth_le_of_mem {ms : List Shape} {m : Shape} (hm : m ∈ ms) : m.depth ≤ depthOfAll ms :=
  depthOfAll_le_iff.1 le_rfl m hm

/-- The content of a field is less deep than the object. -/
theorem depth_lt_of_get? {fs : List (Field Shape)} {name : String} {f : Field Shape}
    (order : List String) (h : Field.get? fs name = some f) :
    f.content.depth < (object fs order).depth := by
  have := depthOfFields_le_iff.1 (le_refl (depthOfFields fs)) f (Field.mem_of_get? h)
  simp only [depth]
  omega

theorem WellFormed.of_get? {fs : List (Field Shape)} {order : List String} {name : String}
    {f : Field Shape} (hs : (Shape.object fs order).WellFormed) (h : Field.get? fs name = some f) :
    f.content.WellFormed := by
  cases hs with
  | object _ _ contents => exact contents f (Field.mem_of_get? h)

/-- A shape is as deep as the deepest of its alternatives: a union adds no depth. -/
theorem depthOfAll_alternatives (s : Shape) : depthOfAll s.alternatives = s.depth := by
  cases s <;> simp [alternatives, depthOfAll, depth]

/-- The alternatives of a shape other than `unknown` may be joined as those of a union are, within
the depth of the shape. -/
theorem WellFormed.forall_mem_alternatives {s : Shape} {d : Nat} (h : s.WellFormed)
    (hs : s ≠ unknown) (hd : s.depth ≤ d) :
    ∀ m ∈ s.alternatives, m.isPlain = true ∧ m.WellFormed ∧ m.depth ≤ d := by
  intro m hm
  refine ⟨(h.assorted hs).plain m hm, h.mem_alternatives hm, (depth_le_of_mem hm).trans ?_⟩
  rwa [depthOfAll_alternatives]

end JsonShapes.Shape
