import JsonShapes.Proofs.Catalog.Changes
import JsonShapes.Proofs.Shape.Key
import Mathlib

/-!
# Shapes as they are built

Raw trees are not all shapes that arise: objects are built from fields in any order, which sorts
them by name, and unions from members in any order and with any repetition, of which the first is
kept (`Shape.Built`). Nothing else is asked of them; an object may have a name twice, and a union
may be empty or lie in a union. For these shapes the key is as good as the shape: two have the same
key exactly if they mean the same (`key?_eq_iff_same`).
-/

namespace JsonShapes.Shape

/-- The shapes that can be built. -/
inductive Built : Shape → Prop
  | prim (p : Primitive) : Built (.prim p)
  | emptyArray : Built .emptyArray
  | array {e : Shape} (element : Built e) : Built (.array e)
  | ofFields {fs : List (Field Shape)} (order : List String)
      (contents : ∀ f ∈ fs, Built f.content) : Built (ofFields fs order)
  | ofMembers {ms : List Shape} (members : ∀ m ∈ ms, Built m) : Built (ofMembers ms)
  | ref (id : Int) : Built (.ref id)

namespace Built

variable {s : Shape}

/-- The fields of an object that was built are sorted, as `ofFields` sorts them. -/
theorem sorted (h : s.Built) : s.Sorted := by
  induction h with
  | prim p => exact .prim p
  | emptyArray => exact .emptyArray
  | array _ ih => exact .array ih
  | ofFields order _ ih => exact sorted_ofFields order ih
  | ofMembers _ ih => exact .union fun m hm ↦ ih m (mem_of_mem_distinct hm)
  | ref id => exact .ref id

/-- No union that was built has a member twice, as `ofMembers` keeps the first of those that are
equal. -/
theorem irredundant (h : s.Built) : s.Irredundant := by
  induction h with
  | prim p => exact .prim p
  | emptyArray => exact .emptyArray
  | array _ ih => exact .array ih
  | ofFields order _ ih =>
    exact .object _ fun f hf ↦ ih f ((Field.sorted_perm _).mem_iff.1 hf)
  | ofMembers _ ih =>
    exact .union (pairwise_distinct _) fun m hm ↦ ih m (mem_of_mem_distinct hm)
  | ref id => exact .ref id

/-- Nothing that is no shape gets into what is built of shapes. -/
theorem foreigns_eq_nil (h : s.Built) : s.foreigns = [] := by
  induction h with
  | prim _ | emptyArray | ref _ => rfl
  | array _ ih => exact ih
  | ofFields order _ ih =>
    exact foreignsOfFields_eq_nil_iff.2 fun f hf ↦ ih f ((Field.sorted_perm _).mem_iff.1 hf)
  | ofMembers _ ih =>
    exact foreignsOfAll_eq_nil_iff.2 fun m hm ↦ ih m (mem_of_mem_distinct hm)

end Built

/-- Every shape that can be built has a key, and two of them have the same key exactly if they mean
the same: neither the order in which fields were seen nor that of members shows in it, and
everything else does. -/
theorem key?_eq_iff_same {s t : Shape} (hs : s.Built) (ht : t.Built) :
    (s.key? = .ok s.key ∧ t.key? = .ok t.key) ∧ (s.key = t.key ↔ s.same t = true) := by
  have hkeys : ∀ {u : Shape}, u.Built → u.key? = .ok u.key :=
    fun hu ↦ key?_eq_ok_iff.2 ⟨hu.foreigns_eq_nil, rfl⟩
  refine ⟨⟨hkeys hs, hkeys ht⟩, fun h ↦ ?_, key_eq_of_same hs.irredundant ht.irredundant⟩
  exact same_of_key_eq hs.sorted ht.sorted hs.foreigns_eq_nil ht.foreigns_eq_nil h

/-- A name that occurs twice and a union with a repeated member, then the same fields and members
the other way round; and the shape that differs in a single array, of which no item was seen. -/
theorem key?_eq_iff_same_turned_round :
    let nullArray : Shape := .array (.prim .null)
    let choice : Shape := ofMembers [.emptyArray, nullArray, ofMembers [], nullArray]
    let s := ofFields [⟨"b", true, choice⟩, ⟨"a", false, .ref 3⟩, ⟨"a", true, .ref 4⟩] []
    let t := ofFields [⟨"a", false, .ref 3⟩, ⟨"b", true, ofMembers [ofMembers [], nullArray,
      .emptyArray]⟩, ⟨"a", true, .ref 4⟩] ["b"]
    let u := ofFields [⟨"a", false, .ref 3⟩, ⟨"a", true, .ref 4⟩,
      ⟨"b", true, ofMembers [ofMembers [], nullArray]⟩] []
    (s.Built ∧ t.Built ∧ u.Built) ∧ s.key? = t.key? ∧ s.key? ≠ u.key? := by
  intro nullArray choice s t u
  have hnull : nullArray.Built := .array (.prim .null)
  have hnone : (ofMembers []).Built := .ofMembers (by simp)
  have hs : s.Built := .ofFields [] (by
    simpa using ⟨.ofMembers (by simpa using ⟨.emptyArray, hnull, hnone, hnull⟩), .ref 3, .ref 4⟩)
  have ht : t.Built := .ofFields ["b"] (by
    simpa using ⟨.ref 3, .ofMembers (by simpa using ⟨hnone, hnull, .emptyArray⟩), .ref 4⟩)
  have hu : u.Built := .ofFields [] (by
    simpa using ⟨.ref 3, .ref 4, .ofMembers (by simpa using ⟨hnone, hnull⟩)⟩)
  obtain ⟨⟨hskey, htkey⟩, hst⟩ := key?_eq_iff_same hs ht
  obtain ⟨⟨-, hukey⟩, hsu⟩ := key?_eq_iff_same hs hu
  refine ⟨⟨hs, ht, hu⟩, ?_, ?_⟩
  · rw [hskey, htkey, hst.2 (by cbv)]
  · rw [hskey, hukey, ne_eq, Except.ok.injEq, hsu, show s.same u = false by cbv]
    exact Bool.false_ne_true

end JsonShapes.Shape
