import JsonShapes.Proofs.Shape.Faultless
import JsonShapes.Proofs.Shape.Joining

/-!
# The laws of joining

Well-formed shapes are a semilattice under `Shape.join`, up to what their equality leaves open, and
`unknown` is its top (`join_semilattice`). None of the laws looks at how a join is made: both sides
of each are joins of the same shapes, and two joins of the same shapes mean the same.

A law about the order or grouping of operands is thus one of lists, and lists with the same shapes
in them show the same: for associativity both sides join `[a, b, c]`, for idempotence both join what
`[s]` does. The top is the exception, as its absorbing the rest does not depend on well-formedness;
there one layer of the join is opened.
-/

namespace JsonShapes.Shape

variable {policy : Policy}

/-- The join of a join and a third shape is the join of the three. -/
theorem isJoin_join_left {a b c : Shape} (ha : a.WellFormed) (hb : b.WellFormed)
    (hc : c.WellFormed) : IsJoin policy [a, b, c] ((a.join policy b).join policy c) :=
  have hab := isJoin_join ha hb
  hab.append (.single hc) (isJoin_join hab.wellFormed hc)

/-- Grouped to the right, three shapes are joined as well. -/
theorem isJoin_join_right {a b c : Shape} (ha : a.WellFormed) (hb : b.WellFormed)
    (hc : c.WellFormed) : IsJoin policy [a, b, c] (a.join policy (b.join policy c)) :=
  have hbc := isJoin_join hb hc
  (IsJoin.single ha).append hbc (isJoin_join ha hbc.wellFormed)

/-! ### The top -/

theorem eq_unknown_of_same {s : Shape} (h : s.same unknown = true) : s = unknown := by
  cases same_cases h
  rfl

/-- One layer of a join gives up whatever is joined to `unknown`. -/
theorem joinLayer_unknown_left (part : Shape → Shape → Shape) (s : Shape) :
    joinLayer part policy unknown s = unknown := by
  rw [joinLayer]
  split <;> rfl

/-- The same on the other side. -/
theorem joinLayer_unknown_right (part : Shape → Shape → Shape) (s : Shape) :
    joinLayer part policy s unknown = unknown := by
  rw [joinLayer.eq_def]
  split
  · exact eq_unknown_of_same ‹_›
  · cases s with
    | prim p => cases p <;> rfl
    | _ => rfl

@[simp]
theorem join_unknown_left (s : Shape) : unknown.join policy s = unknown := by
  rw [join]
  cases max unknown.depth s.depth <;> exact joinLayer_unknown_left _ s

/-- It is absorbing on either side, and for operands that are not well-formed as well. -/
@[simp]
theorem join_unknown_right (s : Shape) : s.join policy unknown = unknown := by
  rw [join]
  cases max s.depth unknown.depth <;> exact joinLayer_unknown_right _ s

/-! ### The laws -/

/-- Joining well-formed shapes never fails and makes well-formed shapes; it is idempotent,
commutative and associative, and nothing is added to `unknown`. -/
theorem join_semilattice (policy : Policy) {a b c : Shape} (ha : a.WellFormed) (hb : b.WellFormed)
    (hc : c.WellFormed) :
    a.join? policy b = .ok (a.join policy b) ∧ (a.join policy b).WellFormed ∧
      (a.join policy a).same a = true ∧
      (a.join policy b).same (b.join policy a) = true ∧
      ((a.join policy b).join policy c).same (a.join policy (b.join policy c)) = true ∧
      unknown.join policy a = unknown ∧ a.join policy unknown = unknown := by
  have hab : IsJoin policy [a, b] (a.join policy b) := isJoin_join ha hb
  refine ⟨join?_eq_ok ha hb, hab.wellFormed, ?_, ?_, ?_, join_unknown_left a, join_unknown_right a⟩
  · exact (isJoin_join ha ha).same (IsJoin.single ha) fun x ↦ by simp
  · exact hab.same (isJoin_join hb ha) fun x ↦ by simp [or_comm]
  · exact (isJoin_join_left ha hb hc).same (isJoin_join_right ha hb hc) fun x ↦ Iff.rfl

/-- An optional field in one alternative of a union, required in an object beside it, and arrays of
which only one side saw an item: all three ways of joining meet. -/
theorem join_semilattice_optional_in_union :
    let a := union [.prim .string, .object [⟨"id", true, .array (.ref 1)⟩] ["id"]]
    let b := object [⟨"id", false, .emptyArray⟩, ⟨"tag", false, .prim .null⟩] ["tag", "id"]
    let c := union [.emptyArray, .object [⟨"id", false, .prim .number⟩] ["id"]]
    (a.WellFormed ∧ b.WellFormed ∧ c.WellFormed) ∧
      a.join? .union b = .ok (a.join .union b) ∧ (a.join .union b).WellFormed ∧
      (a.join .union a).same a = true ∧ (a.join .union b).same (b.join .union a) = true ∧
      ((a.join .union b).join .union c).same (a.join .union (b.join .union c)) = true ∧
      unknown.join .union a = unknown ∧ a.join .union unknown = unknown := by
  intro a b c
  have ha : a.WellFormed := by
    refine .union (by decide) ⟨by decide, by decide, by decide, by decide⟩ ?_
    simp only [List.forall_mem_cons, List.not_mem_nil, false_imp_iff, implies_true, and_true]
    exact ⟨.prim _, .object (by decide) (by decide) (by simpa using .array (.ref 1))⟩
  have hb : b.WellFormed := by
    refine .object (by decide) (by decide) ?_
    simpa using ⟨.emptyArray, .prim _⟩
  have hc : c.WellFormed := by
    refine .union (by decide) ⟨by decide, by decide, by decide, by decide⟩ ?_
    simp only [List.forall_mem_cons, List.not_mem_nil, false_imp_iff, implies_true, and_true]
    exact ⟨.emptyArray, .object (by decide) (by decide) (by simpa using .prim _)⟩
  exact ⟨⟨ha, hb, hc⟩, join_semilattice .union ha hb hc⟩

end JsonShapes.Shape
