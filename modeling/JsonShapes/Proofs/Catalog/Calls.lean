import JsonShapes.Proofs.Catalog.Hoisting
import JsonShapes.Proofs.Shape.Inference

/-!
# Catalogs that calls lead to

A catalog is used through six operations, in any order and with any outcome (`Catalog.Call`). Each
changes it in allowed ways only (`Call.reaches_run`), so what holds of all catalogs that changes
lead to holds whatever was called before and is called after. In particular hoisting loses nothing:
unfolded at any later time, what a shape was hoisted to is that shape again (`unfold_hoist_after`).

A call that fails may have changed the catalog before it did: hoisting declares the parts of a shape
before the shape. `Call.run` gives what is left, so that nothing said here is about lucky calls
only. The one condition is that a shape which is declared as it is given has its fields sorted, as
all shapes have that are made by a constructor of objects; what is hoisted may be any shape.
-/

namespace JsonShapes

/-- The shapes of which hoisting keeps the meaning: well-formed ones that refer to nothing yet. -/
structure Shape.Closed (s : Shape) : Prop where
  wellFormed : s.WellFormed
  references_eq_nil : s.references = []

/-- The shape of a value may be hoisted: it is well-formed and was made without a catalog. -/
theorem Shape.closed_ofJson (policy : Policy) {value : Json} (h : value.Keyed) :
    (Shape.ofJson policy value).Closed :=
  ⟨wellFormed_ofJson h, references_ofJson value⟩

namespace Catalog

/-- An operation on a catalog with its arguments. -/
inductive Call where
  | insert (shape : Shape) (place : String)
  | declare (shape : Shape) (place : String)
  | addPlace (id : Int) (place : String)
  | hoist (shape : Shape) (document pointer : String)
  | addValue (policy : Policy) (document : String) (value : Json)
  | declareRoot (shape : Shape) (document : String)

namespace Call

/-- The catalog that a call leaves. One that fails leaves the changes made before it failed. -/
def run (c : Catalog) : Call → Catalog
  | .insert shape place =>
    match c.insert shape place with
    | .ok (_, extended) => extended
    | .error _ => c
  | .declare shape place => (Hoisting.declare shape place c).2
  | .addPlace id place =>
    match c.addPlace id place with
    | .ok extended => extended
    | .error _ => c
  | .hoist shape document pointer => (shape.hoist document pointer c).2
  | .addValue policy document value => (Hoisting.addValue policy document value c).2
  | .declareRoot shape document => (Hoisting.declareRoot shape document c).2

/-- A shape that is given in order to be declared as it is has its fields sorted, as
`Shape.ofFields` leaves them. -/
def Sorted : Call → Prop
  | .insert shape _ => shape.Sorted
  | .declare shape _ => shape.Sorted
  | .declareRoot shape _ => shape.Sorted
  | _ => True

/-- The shape that is given in order to be declared as it is. -/
def given? : Call → Option Shape
  | .insert shape _ => some shape
  | .declare shape _ => some shape
  | .declareRoot shape _ => some shape
  | _ => none

theorem sorted_iff {call : Call} : call.Sorted ↔ ∀ s ∈ call.given?, s.Sorted := by
  cases call <;> simp [Sorted, given?]

/-- A call makes allowed changes only, if the shape that it is given is allowed: what hoisting
declares has its fields sorted, whatever shape it starts from. -/
theorem reaches_run {allowed : Shape → Prop} (hallowed : ∀ s : Shape, s.Sorted → allowed s)
    {call : Call} (h : ∀ s ∈ call.given?, allowed s) (c : Catalog) :
    Reaches allowed c (call.run c) := by
  cases call with
  | insert shape place =>
    rw [run]
    split
    · exact .single (.insert (h shape rfl) ‹_›)
    · exact .refl
  | declare shape place => exact (Hoisting.Extends.declare (h shape rfl) place c).1
  | addPlace id place =>
    rw [run]
    split
    · exact .single (.addPlace ‹_›)
    · exact .refl
  | hoist shape document pointer => exact (Shape.extends_hoist shape pointer c).1.mono hallowed
  | addValue policy document value => exact (Shape.extends_hoist _ "" c).1.mono hallowed
  | declareRoot shape document => exact (Hoisting.Extends.declareRoot (h shape rfl) document c).1

end Call

/-- The catalog after calls, one after another. -/
def after (c : Catalog) (calls : List Call) : Catalog :=
  calls.foldl Call.run c

/-- Calls one after another make allowed changes only, each from where the one before it stopped. -/
theorem reaches_after {allowed : Shape → Prop} (hallowed : ∀ s : Shape, s.Sorted → allowed s)
    {calls : List Call} (h : ∀ call ∈ calls, ∀ s ∈ call.given?, allowed s) (c : Catalog) :
    Reaches allowed c (c.after calls) := by
  induction calls generalizing c with
  | nil => exact .refl
  | cons call calls ih =>
    obtain ⟨hcall, hcalls⟩ := List.forall_mem_cons.1 h
    exact (Call.reaches_run hallowed hcall c).trans (ih hcalls (call.run c))

/-- Calls that are given sorted shapes declare sorted shapes only. -/
theorem reaches_after_of_sorted {calls : List Call} (h : ∀ call ∈ calls, call.Sorted)
    (c : Catalog) : Reaches Shape.Sorted c (c.after calls) :=
  reaches_after (fun _ hs ↦ hs) (fun call hcall ↦ Call.sorted_iff.1 (h call hcall)) c

/-- Hoisting loses nothing. In a catalog that any calls made, a shape without references is hoisted
to one that unfolds to it, then and after any further calls; the shapes of values are such shapes.
-/
theorem unfold_hoist_after {calls later : List Call} (hcalls : ∀ call ∈ calls, call.Sorted)
    (hlater : ∀ call ∈ later, call.Sorted) :
    (∀ s : Shape, s.Closed → ∀ document pointer, ∃ t c,
      s.hoist document pointer (empty.after calls) = (.ok t, c) ∧
        (c.unfold t).same s = true ∧ ((c.after later).unfold t).same s = true) ∧
      ∀ policy value, value.Keyed → (Shape.ofJson policy value).Closed := by
  refine ⟨fun s hs document pointer ↦ ?_, fun policy value ↦ Shape.closed_ofJson policy⟩
  have hsound := (reaches_after_of_sorted hcalls empty).sound (sound_empty Shape.Sorted)
  obtain ⟨t, c, hrun, hreaches, ht⟩ :=
    Shape.yields_hoist document hs.wellFormed hs.references_eq_nil pointer hsound
  have hinitial := (reaches_after_of_sorted hlater c).shapes_initial (hreaches.sound hsound)
  exact ⟨t, c, hrun, ht.unfold_same, (ht.mono hinitial).unfold_same⟩

/-- A catalog that has some of the parts already and refused a call; an optional field whose content
is a union, to be hoisted after a field that comes after it by name; and further calls, one of
which fails. -/
theorem unfold_hoist_after_refused :
    let s : Shape := .object [⟨"a", true, .union [.emptyArray, .object [] []]⟩,
      ⟨"b", false, .array (.object [⟨"x", true, .prim .unknown⟩] ["x"])⟩] ["b", "a"]
    let calls : List Call := [.addValue .union "1.json" (.array [.object [], .array []]),
      .insert (.array (.ref 9)) "2.json", .addPlace 1 "2.json"]
    let later : List Call := [.declare (.ref 0) "4.json",
      .hoist (.union [.object [⟨"b", false, .ref 1⟩] ["b"]]) "5.json" "/x"]
    ((∀ call ∈ calls, call.Sorted) ∧ (∀ call ∈ later, call.Sorted) ∧ s.Closed) ∧
      ∃ t c, s.hoist "3.json" "" (empty.after calls) = (.ok t, c) ∧
        (c.unfold t).same s = true ∧ ((c.after later).unfold t).same s = true := by
  intro s calls later
  have hcalls : ∀ call ∈ calls, call.Sorted := by
    simpa [calls, Call.Sorted] using .array (.ref 9)
  have hlater : ∀ call ∈ later, call.Sorted := by
    simpa [later, Call.Sorted] using .ref 0
  have hs : s.Closed := by
    refine ⟨.object (by decide) (by decide) ?_, by decide⟩
    simp only [List.forall_mem_cons, List.not_mem_nil, false_imp_iff, implies_true, and_true]
    refine ⟨.union (by decide) ⟨by decide, by decide, by decide, by decide⟩ ?_, .array ?_⟩
    · simpa using ⟨.emptyArray, .object (by decide) (by decide) (by simp)⟩
    · exact .object (by decide) (by decide) (by simpa using .prim .unknown)
  exact ⟨⟨hcalls, hlater, hs⟩, (unfold_hoist_after hcalls hlater).1 s hs "3.json" ""⟩

end Catalog

end JsonShapes
