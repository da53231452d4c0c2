import JsonShapes.Pointer
import JsonShapes.Proofs.Shape.WellFormed
import Mathlib.Order.Closure
import Mathlib.Order.CompletePartialOrder

/-!
# What a shape shows

A shape shows sightings: marks that may be met at the end of a path from the root, such as "a
number" or "an object that lacks this name". `unknown` shows everything. Sightings are the view
through which joins are studied: those of a join are those of the operands taken together, closed
under the way in which the policy resolves a conflict (`Policy.closure`), and well-formed shapes
that show the same mean the same.

An optional field and a missing one are shown by the same mark, `lacks`: an object lacks every name
that is not among its required fields. This is what makes the optional marks of a join come out as a
union of sightings.

Under the policy that gives positions up, a union is never looked into; it is a mark of its own,
`choice`, under any of the shapes that mean the same.

## How sightings are computed

`Shows` is defined by what may be seen, path by path, and for each constructor there are two lemmas:
the marks at the root (`root_sightings_object` and its like) and what is seen below a step
(`below_sightings_object_member` and its like). Two sets of sightings with the same root and the
same below are equal (`ext_root_below`). Most proofs about sightings go by these and do not open the
definition.
-/

namespace JsonShapes

/-- What may be met at a position. -/
inductive Mark where
  | prim (p : Primitive)
  | ref (id : Int)
  | array
  | object
  /-- An object without a field of the name. -/
  | lacks (name : String)
  /-- A union that means the same as the shape. -/
  | choice (s : Shape)

/-- Whether two marks can be met at one position without a conflict. -/
def Mark.Agree : Mark → Mark → Prop
  | .choice s, .choice t => s.same t = true
  | .object, .lacks _ => True
  | .lacks _, .object => True
  | .lacks _, .lacks _ => True
  | m, n => m = n

/-- A mark at the end of a path. -/
abbrev Sighting := List Step × Mark

/-! ### Sets of sightings -/

namespace Sighting

/-- The marks at the root. -/
def root (F : Set Sighting) : Set Mark :=
  {m | ([], m) ∈ F}

/-- The sightings below a step from the root. -/
def below (F : Set Sighting) (step : Step) : Set Sighting :=
  {x | (step :: x.1, x.2) ∈ F}

/-- A set of sightings is known by its root and by what lies below each step. -/
theorem ext_root_below {F G : Set Sighting} (hroot : root F = root G)
    (hbelow : ∀ step, below F step = below G step) : F = G := by
  ext ⟨path, m⟩
  cases path with
  | nil => exact Set.ext_iff.1 hroot m
  | cons step path => exact Set.ext_iff.1 (hbelow step) (path, m)

@[simp]
theorem root_union (F G : Set Sighting) : root (F ∪ G) = root F ∪ root G := rfl

@[simp]
theorem below_union (F G : Set Sighting) (step : Step) :
    below (F ∪ G) step = below F step ∪ below G step := rfl

@[simp]
theorem root_empty : root ∅ = ∅ := rfl

@[simp]
theorem below_empty (step : Step) : below ∅ step = ∅ := rfl

@[simp]
theorem root_univ : root Set.univ = Set.univ := rfl

@[simp]
theorem below_univ (step : Step) : below Set.univ step = Set.univ := rfl

/-! ### Giving positions up -/

/-- Two marks at a position that cannot be met there without a conflict. -/
def Clash (F : Set Sighting) (path : List Step) : Prop :=
  ∃ m n, (path, m) ∈ F ∧ (path, n) ∈ F ∧ ¬m.Agree n

/-- The sightings, and everything at and below a position where marks clash. -/
def widen (F : Set Sighting) : Set Sighting :=
  {x | x ∈ F ∨ ∃ path, path <+: x.1 ∧ Clash F path}

theorem Clash.mono {F G : Set Sighting} (h : F ⊆ G) {path : List Step} :
    Clash F path → Clash G path :=
  fun ⟨m, n, hm, hn, hne⟩ ↦ ⟨m, n, h hm, h hn, hne⟩

theorem widen_mono : Monotone widen := by
  rintro F G h x (hx | ⟨path, hpath, hclash⟩)
  · exact Or.inl (h hx)
  · exact Or.inr ⟨path, hpath, hclash.mono h⟩

theorem subset_widen (F : Set Sighting) : F ⊆ widen F :=
  fun _ hx ↦ Or.inl hx

/-- Widening makes no new clash: one in the outcome lies at or below one that was there. -/
theorem Clash.of_widen {F : Set Sighting} {path : List Step} (h : Clash (widen F) path) :
    ∃ above, above <+: path ∧ Clash F above := by
  obtain ⟨m, n, hm | ⟨above, ha, hc⟩, hn | ⟨above', ha', hc'⟩, hne⟩ := h
  · exact ⟨path, List.prefix_refl _, m, n, hm, hn, hne⟩
  · exact ⟨above', ha', hc'⟩
  · exact ⟨above, ha, hc⟩
  · exact ⟨above, ha, hc⟩

/-- Widened sightings clash where they did before, so widening again adds none. -/
theorem widen_widen_subset (F : Set Sighting) : widen (widen F) ⊆ widen F := by
  rintro x (hx | ⟨path, hpath, hclash⟩)
  · exact hx
  · obtain ⟨above, ha, hc⟩ := hclash.of_widen
    exact Or.inr ⟨above, ha.trans hpath, hc⟩

end Sighting

open Sighting

/-- What the sightings of several observations become when a policy resolves their conflicts: all
are kept, or a position where they clash is given up. -/
def Policy.closure : Policy → ClosureOperator (Set Sighting)
  | .union => ClosureOperator.id (Set Sighting)
  | .unknown => ClosureOperator.mk' widen widen_mono subset_widen widen_widen_subset

namespace Policy

variable {policy : Policy} {F : Set Sighting}

/-- Where alternatives are kept nothing is resolved. -/
@[simp]
theorem closure_union (F : Set Sighting) : Policy.union.closure F = F := rfl

/-- Whether a policy gives up the root of a set of sightings. -/
def GivesUp (policy : Policy) (F : Set Sighting) : Prop :=
  policy = .unknown ∧ Clash F []

/-- Marks that all agree are not given up. -/
theorem not_givesUp_of_agree (h : ∀ m ∈ root F, ∀ n ∈ root F, m.Agree n) : ¬policy.GivesUp F :=
  fun ⟨_, _, _, hm, hn, hne⟩ ↦ hne (h _ hm _ hn)

/-- A conflict at the root leaves nothing to be known. -/
theorem closure_of_givesUp (h : policy.GivesUp F) : policy.closure F = Set.univ := by
  obtain ⟨rfl, hclash⟩ := h
  exact Set.eq_univ_of_forall fun x ↦ Or.inr ⟨[], List.nil_prefix, hclash⟩

/-- Short of that the marks at the root stay as they are; conflicts below are resolved below. -/
theorem root_closure (h : ¬policy.GivesUp F) : root (policy.closure F) = root F := by
  cases policy with
  | union => rfl
  | unknown =>
    refine Set.Subset.antisymm ?_ fun m hm ↦ subset_widen F hm
    rintro m (hm | ⟨path, hpath, hclash⟩)
    · exact hm
    · rw [List.prefix_nil.1 hpath] at hclash
      exact absurd ⟨rfl, hclash⟩ h

/-- Below a root that is kept, conflicts are resolved in each part for itself. -/
theorem below_closure (h : ¬policy.GivesUp F) (step : Step) :
    below (policy.closure F) step = policy.closure (below F step) := by
  cases policy with
  | union => rfl
  | unknown =>
    ext x
    refine or_congr Iff.rfl ⟨?_, ?_⟩
    · rintro ⟨path, hpath, hclash⟩
      cases path with
      | nil => exact absurd ⟨rfl, hclash⟩ h
      | cons step' path =>
        obtain ⟨rfl, hbelow⟩ := List.cons_prefix_cons.1 hpath
        exact ⟨path, hbelow, hclash⟩
    · rintro ⟨path, hpath, hclash⟩
      exact ⟨step :: path, List.cons_prefix_cons.2 ⟨rfl, hpath⟩, hclash⟩

@[simp]
theorem closure_empty : policy.closure ∅ = ∅ := by
  cases policy with
  | union => rfl
  | unknown =>
    refine Set.eq_empty_of_forall_notMem ?_
    rintro x (hx | ⟨path, -, m, n, hm, -⟩)
    · exact hx
    · exact hm

@[simp]
theorem closure_univ : policy.closure Set.univ = Set.univ :=
  Set.eq_univ_of_univ_subset (policy.closure.le_closure _)

end Policy

/-! ### The sightings of a shape -/

/-- The shape shows that at the end of the path the mark may be met. -/
inductive Shape.Shows (policy : Policy) : Shape → List Step → Mark → Prop
  /-- The unknown shows everything everywhere. -/
  | anything (path : List Step) (m : Mark) : Shows policy (.prim .unknown) path m
  | prim (p : Primitive) : Shows policy (.prim p) [] (.prim p)
  | ref (id : Int) : Shows policy (.ref id) [] (.ref id)
  /-- An array of which no item was seen shows that it is one, and nothing below. -/
  | emptyArray : Shows policy .emptyArray [] .array
  | array (e : Shape) : Shows policy (.array e) [] .array
  | item {e : Shape} {path : List Step} {m : Mark} (h : Shows policy e path m) :
      Shows policy (.array e) (.item :: path) m
  | object (fs : List (Field Shape)) (order : List String) :
      Shows policy (.object fs order) [] .object
  /-- An object shows that it may lack a name if it has no such field or an optional one. -/
  | lacks {fs : List (Field Shape)} {name : String} (order : List String)
      (h : (Field.get? fs name).all (·.optional) = true) :
      Shows policy (.object fs order) [] (.lacks name)
  | member {fs : List (Field Shape)} {name : String} {f : Field Shape} {path : List Step} {m : Mark}
      (order : List String) (hf : Field.get? fs name = some f) (h : Shows policy f.content path m) :
      Shows policy (.object fs order) (.member name :: path) m
  /-- Where alternatives are kept, a union shows what any of them does. -/
  | alternative {ms : List Shape} {k : Shape} {path : List Step} {m : Mark}
      (hpolicy : policy = .union) (hk : k ∈ ms) (h : Shows policy k path m) :
      Shows policy (.union ms) path m
  /-- Where they are not, it shows which choice it is, so that others conflict with it. -/
  | choice {ms : List Shape} {s : Shape} (hpolicy : policy = .unknown)
      (h : s.same (.union ms) = true) : Shows policy (.union ms) [] (.choice s)

namespace Shape

/-- The sightings that a shape shows. -/
def sightings (policy : Policy) (s : Shape) : Set Sighting :=
  {x | s.Shows policy x.1 x.2}

/-- The sightings that any of a list of shapes shows. -/
def sightingsOfAll (policy : Policy) (xs : List Shape) : Set Sighting :=
  {x | ∃ s ∈ xs, x ∈ sightings policy s}

variable {policy : Policy}

@[simp]
theorem sightingsOfAll_nil : sightingsOfAll policy [] = ∅ := by
  simp [sightingsOfAll]

@[simp]
theorem sightingsOfAll_cons (s : Shape) (xs : List Shape) :
    sightingsOfAll policy (s :: xs) = sightings policy s ∪ sightingsOfAll policy xs := by
  ext x
  simp [sightingsOfAll]

@[simp]
theorem sightingsOfAll_append (xs ys : List Shape) :
    sightingsOfAll policy (xs ++ ys) = sightingsOfAll policy xs ∪ sightingsOfAll policy ys := by
  ext x
  simp [sightingsOfAll, or_and_right, exists_or]

/-- Shapes show together no more than others do, if each of them shows no more than one of the
others. -/
theorem sightingsOfAll_subset {xs ys : List Shape}
    (h : ∀ x ∈ xs, ∃ y ∈ ys, sightings policy x ⊆ sightings policy y) :
    sightingsOfAll policy xs ⊆ sightingsOfAll policy ys := by
  rintro k ⟨x, hx, hk⟩
  obtain ⟨y, hy, hxy⟩ := h x hx
  exact ⟨y, hy, hxy hk⟩

@[simp]
theorem sightings_unknown : sightings policy unknown = Set.univ :=
  Set.eq_univ_of_forall fun x ↦ .anything x.1 x.2

theorem root_sightings_prim {p : Primitive} (hp : p ≠ .unknown) :
    root (sightings policy (.prim p)) = {.prim p} := by
  ext m
  refine ⟨fun h ↦ ?_, fun h ↦ (Set.mem_singleton_iff.1 h) ▸ .prim p⟩
  cases h with
  | anything => exact absurd rfl hp
  | prim => rfl

theorem below_sightings_prim {p : Primitive} (hp : p ≠ .unknown) (step : Step) :
    below (sightings policy (.prim p)) step = ∅ := by
  refine Set.eq_empty_of_forall_notMem fun x h ↦ ?_
  cases h
  exact hp rfl

@[simp]
theorem root_sightings_ref (id : Int) : root (sightings policy (.ref id)) = {.ref id} := by
  ext m
  refine ⟨fun h ↦ ?_, fun h ↦ (Set.mem_singleton_iff.1 h) ▸ .ref id⟩
  cases h
  rfl

@[simp]
theorem below_sightings_ref (id : Int) (step : Step) :
    below (sightings policy (.ref id)) step = ∅ :=
  Set.eq_empty_of_forall_notMem fun _ h ↦ nomatch h

@[simp]
theorem root_sightings_emptyArray : root (sightings policy .emptyArray) = {.array} := by
  ext m
  refine ⟨fun h ↦ ?_, fun h ↦ (Set.mem_singleton_iff.1 h) ▸ .emptyArray⟩
  cases h
  rfl

@[simp]
theorem below_sightings_emptyArray (step : Step) : below (sightings policy .emptyArray) step = ∅ :=
  Set.eq_empty_of_forall_notMem fun _ h ↦ nomatch h

@[simp]
theorem root_sightings_array (e : Shape) : root (sightings policy (.array e)) = {.array} := by
  ext m
  refine ⟨fun h ↦ ?_, fun h ↦ (Set.mem_singleton_iff.1 h) ▸ .array e⟩
  cases h
  rfl

/-- Below its items an array shows what its element does. -/
@[simp]
theorem below_sightings_array_item (e : Shape) :
    below (sightings policy (.array e)) .item = sightings policy e := by
  ext x
  refine ⟨fun h ↦ ?_, fun h ↦ .item h⟩
  cases h with
  | item h => exact h

@[simp]
theorem below_sightings_array_member (e : Shape) (name : String) :
    below (sightings policy (.array e)) (.member name) = ∅ :=
  Set.eq_empty_of_forall_notMem fun _ h ↦ nomatch h

/-- The marks of an object say that it is one, and which names it lacks. -/
theorem root_sightings_object (fs : List (Field Shape)) (order : List String) :
    root (sightings policy (.object fs order)) =
      {m | m = .object ∨ ∃ name, m = .lacks name ∧ (Field.get? fs name).all (·.optional)} := by
  ext m
  refine ⟨fun h ↦ ?_, ?_⟩
  · cases h with
    | object => exact Or.inl rfl
    | lacks _ h => exact Or.inr ⟨_, rfl, h⟩
  · rintro (rfl | ⟨name, rfl, h⟩)
    · exact .object fs order
    · exact .lacks order h

@[simp]
theorem below_sightings_object_item (fs : List (Field Shape)) (order : List String) :
    below (sightings policy (.object fs order)) .item = ∅ :=
  Set.eq_empty_of_forall_notMem fun _ h ↦ nomatch h

/-- Below a name lie the sightings of its field. -/
theorem below_sightings_object_member (fs : List (Field Shape)) (order : List String)
    (name : String) : below (sightings policy (.object fs order)) (.member name) =
      (Field.get? fs name).elim ∅ fun f ↦ sightings policy f.content := by
  ext x
  constructor
  · intro h
    cases h with
    | member _ hf h =>
      rw [hf]
      exact h
  · intro h
    cases hf : Field.get? fs name with
    | none => simp [hf] at h
    | some f =>
      rw [hf] at h
      exact .member order hf h

/-- A union whose alternatives are all kept shows what any of them does. -/
theorem sightings_union (ms : List Shape) :
    sightings .union (.union ms) = sightingsOfAll .union ms := by
  ext ⟨path, m⟩
  constructor
  · intro h
    cases h with
    | alternative _ hk h => exact ⟨_, hk, h⟩
    | choice hpolicy => exact Policy.noConfusion hpolicy
  · rintro ⟨m, hm, h⟩
    exact .alternative rfl hm h

/-- A union shows what its members do, under the policy that keeps alternatives. -/
theorem sightings_alternatives (s : Shape) :
    sightings .union s = sightingsOfAll .union s.alternatives := by
  cases s with
  | union ms => exact sightings_union ms
  | _ => simp [alternatives]

/-- Under the other policy a union is a mark of its own, one for all that mean the same. -/
@[simp]
theorem root_sightings_choice (ms : List Shape) :
    root (sightings .unknown (.union ms)) =
      {m | ∃ s : Shape, m = .choice s ∧ s.same (.union ms)} := by
  ext m
  constructor
  · intro h
    cases h with
    | choice _ h => exact ⟨_, rfl, h⟩
    | alternative hpolicy => exact Policy.noConfusion hpolicy
  · rintro ⟨s, rfl, h⟩
    exact .choice rfl h

@[simp]
theorem below_sightings_choice (ms : List Shape) (step : Step) :
    below (sightings .unknown (.union ms)) step = ∅ := by
  refine Set.eq_empty_of_forall_notMem fun ⟨path, m⟩ h ↦ ?_
  cases h with
  | alternative hpolicy => exact Policy.noConfusion hpolicy

end Shape

end JsonShapes
