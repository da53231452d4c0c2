import JsonShapes.Proofs.Shape.IsJoin
import JsonShapes.Proofs.Shape.JoinParts

/-!
# What a join shows

That `Shape.join` joins is proved layer by layer. Each case of `joinLayer` is a join if `part` joins
the shapes below (`isJoin_joinLayer`), and the iteration follows by induction on the number of
layers. No case looks into `part`, which is why operands that are themselves outcomes of joins make
no difference.

What makes the layers work together is that a join is no deeper than its operands, which is part of
`IsJoin`: the elements of a joined array may be joined again, and are still below the bound. So the
induction needs no measure but the number of layers that are left.

## The cases of a layer

* Operands that mean the same: the first is kept, and showing the same it is a join of both.
* One operand is `unknown`: so is the join, as `unknown` shows everything.
* Two objects, two arrays: field by field and by the element, with `part` for the contents
  (`isJoin_joinObjects`, `isJoin_joinArrays`).
* Anything else is a conflict. It is given up, or else the alternatives are put side by side, with
  the objects among them joined to one and the arrays as well (`isJoin_joinAlternatives`).
-/

namespace JsonShapes

open Sighting

namespace Shape

variable {policy : Policy}

/-- An array of which no item was seen adds nothing to another. -/
theorem sightings_emptyArray_subset (e : Shape) :
    sightings policy .emptyArray ⊆ sightings policy (.array e) := by
  rintro ⟨path, m⟩ h
  cases h
  exact .array e

/-- Alternatives that may stand side by side are joined by standing side by side. -/
theorem isJoin_ofAlternatives {ms : List Shape} (hne : ms ≠ []) (h : Assorted ms)
    (hms : ∀ m ∈ ms, m.WellFormed) : IsJoin .union ms (ofAlternatives ms) := by
  match ms, hne with
  | [only], _ => exact .single (hms only List.mem_cons_self)
  | m :: n :: rest, _ =>
    refine ⟨.union (by simp) h hms, le_rfl, ?_⟩
    exact sightings_union _

/-! ### Objects -/

/-- Two objects are no conflict under either policy; only their fields may be. -/
theorem not_givesUp_objects (fs gs : List (Field Shape)) (order order' : List String) :
    ¬policy.GivesUp (sightings policy (object fs order) ∪ sightings policy (object gs order')) := by
  refine Policy.not_givesUp_of_agree fun m hm n hn ↦ ?_
  exact agree_object (hm.elim (agree_of_mem_root_object m) (agree_of_mem_root_object m))
    (hn.elim (agree_of_mem_root_object n) (agree_of_mem_root_object n))

/-- The join of two objects may lack what either of them may lack. -/
theorem root_sightings_of_get? {part : Shape → Shape → Shape} {fs gs ks : List (Field Shape)}
    (hget : ∀ name, Field.get? ks name =
      joinField part name (Field.get? fs name) (Field.get? gs name))
    (order order' order'' : List String) :
    root (sightings policy (object ks order'')) =
      root (sightings policy (object fs order)) ∪ root (sightings policy (object gs order')) := by
  simp only [root_sightings_object, hget, optional_joinField]
  ext m
  simp only [Bool.or_eq_true, Set.mem_union, Set.mem_ofPred_eq]
  constructor
  · rintro (rfl | ⟨name, rfl, hl | hr⟩)
    · exact Or.inl (Or.inl rfl)
    · exact Or.inl (Or.inr ⟨name, rfl, hl⟩)
    · exact Or.inr (Or.inr ⟨name, rfl, hr⟩)
  · rintro ((rfl | ⟨name, rfl, hl⟩) | (rfl | ⟨name, rfl, hr⟩))
    · exact Or.inl rfl
    · exact Or.inr ⟨name, rfl, Or.inl hl⟩
    · exact Or.inl rfl
    · exact Or.inr ⟨name, rfl, Or.inr hr⟩

/-! ### One layer -/

section Layer

variable {part : Shape → Shape → Shape} {d : Nat}
  (hpart : ∀ x y, x.WellFormed → y.WellFormed → x.depth < d → y.depth < d →
    IsJoin policy [x, y] (part x y))
include hpart

/-- What lies below a name in the join of two objects is what lies below it in either. -/
theorem sightings_joinField {f g : Option (Field Shape)}
    (hf : ∀ k ∈ f, k.content.WellFormed ∧ k.content.depth < d)
    (hg : ∀ k ∈ g, k.content.WellFormed ∧ k.content.depth < d) (name : String) :
    (joinField part name f g).elim ∅ (fun k ↦ sightings policy k.content) =
      policy.closure (f.elim ∅ (fun k ↦ sightings policy k.content) ∪
        g.elim ∅ fun k ↦ sightings policy k.content) := by
  cases f with
  | none =>
    cases g with
    | none => simp [joinField]
    | some g => simp [joinField, closure_sightings]
  | some f =>
    cases g with
    | none => simp [joinField, closure_sightings]
    | some g =>
      obtain ⟨hfw, hfd⟩ := hf f rfl
      obtain ⟨hgw, hgd⟩ := hg g rfl
      have hjoin := (hpart f.content g.content hfw hgw hfd hgd).sightings_eq
      rwa [sightingsOfAll_pair] at hjoin

/-- The content of a joined field is well-formed and lies below the layer, whether one side has the
field or both. -/
theorem wellFormed_joinField {f? g? : Option (Field Shape)}
    (hf : ∀ k ∈ f?, k.content.WellFormed ∧ k.content.depth < d)
    (hg : ∀ k ∈ g?, k.content.WellFormed ∧ k.content.depth < d) {name : String} {k : Field Shape}
    (h : joinField part name f? g? = some k) : k.content.WellFormed ∧ k.content.depth < d := by
  match f?, g?, h with
  | some f, none, rfl => exact hf f rfl
  | none, some g, rfl => exact hg g rfl
  | some f, some g, rfl =>
    obtain ⟨hfw, hfd⟩ := hf f rfl
    obtain ⟨hgw, hgd⟩ := hg g rfl
    have hjoin := hpart f.content g.content hfw hgw hfd hgd
    have hdepth := hjoin.depth_le
    simp only [depthOfAll] at hdepth
    exact ⟨hjoin.wellFormed, by simp only; omega⟩

/-- The join of two objects joins them. -/
theorem isJoin_joinObjects {s t : Shape} (hso : s.isObject = true) (hto : t.isObject = true)
    (hs : s.WellFormed) (ht : t.WellFormed) (hsd : s.depth ≤ d) (htd : t.depth ≤ d) :
    (joinObjects part s t).isObject = true ∧ IsJoin policy [s, t] (joinObjects part s t) := by
  match s, t, hso, hto with
  | .object fs order, .object gs order', _, _ =>
  obtain ⟨ks, heq, hincreasing, hlisted, hget⟩ := joinObjects_wellFormed part hs ht
  -- the bound that counts is the depth of the two objects, not `d`
  set D := max (object fs order).depth (object gs order').depth with hD
  have hpartD : ∀ x y, x.WellFormed → y.WellFormed → x.depth < D → y.depth < D →
      IsJoin policy [x, y] (part x y) :=
    fun x y hx hy hxD hyD ↦ hpart x y hx hy (by omega) (by omega)
  have hf : ∀ name, ∀ k ∈ Field.get? fs name, k.content.WellFormed ∧ k.content.depth < D := by
    intro name k hk
    have hlt := depth_lt_of_get? order hk
    exact ⟨hs.of_get? hk, by omega⟩
  have hg : ∀ name, ∀ k ∈ Field.get? gs name, k.content.WellFormed ∧ k.content.depth < D := by
    intro name k hk
    have hlt := depth_lt_of_get? order' hk
    exact ⟨ht.of_get? hk, by omega⟩
  have hks : ∀ k ∈ ks, k.content.WellFormed ∧ k.content.depth < D := by
    intro k hk
    have hkget := Field.get?_of_mem hincreasing.nodup hk
    rw [hget k.name] at hkget
    exact wellFormed_joinField hpartD (hf k.name) (hg k.name) hkget
  have hkept : ¬policy.GivesUp
      (sightings policy (object fs order) ∪ sightings policy (object gs order')) :=
    not_givesUp_objects fs gs order order'
  rw [heq]
  refine ⟨rfl, .object hincreasing hlisted fun k hk ↦ (hks k hk).1, ?_, ?_⟩
  · have hfields : depthOfFields ks < D := by
      have hpos : 0 < D := by simp only [depth] at hD; omega
      have := depthOfFields_le_iff.2 fun k hk ↦ Nat.le_sub_one_of_lt (hks k hk).2
      omega
    simp only [depthOfAll, depth] at hD ⊢
    omega
  · rw [sightingsOfAll_pair]
    refine ext_root_below ?_ fun step ↦ ?_
    · rw [Policy.root_closure hkept, root_union, root_sightings_of_get? hget order order']
    · rw [Policy.below_closure hkept, below_union]
      cases step with
      | item => simp
      | member name =>
        simp only [below_sightings_object_member, hget]
        exact sightings_joinField hpartD (hf name) (hg name) name

/-- The join of two arrays joins them. -/
theorem isJoin_joinArrays {s t : Shape} (hsa : s.isArray = true) (hta : t.isArray = true)
    (hs : s.WellFormed) (ht : t.WellFormed) (hsd : s.depth ≤ d) (htd : t.depth ≤ d) :
    (joinArrays part s t).isArray = true ∧ IsJoin policy [s, t] (joinArrays part s t) := by
  by_cases hsame : s.same t = true
  · rw [joinArrays_of_same hsame]
    exact ⟨hsa, .of_same hs hsame⟩
  · match s, t, hsa, hta with
    | .emptyArray, .emptyArray, _, _ => exact absurd (same_refl _) hsame
    | .array e, .emptyArray, _, _ =>
      refine ⟨rfl, (IsJoin.single hs).of_sightingsOfAll_eq (by simp [depthOfAll]) ?_⟩
      simp [Set.union_eq_left.2 (sightings_emptyArray_subset e)]
    | .emptyArray, .array f, _, _ =>
      refine ⟨rfl, (IsJoin.single ht).of_sightingsOfAll_eq (by simp [depthOfAll]) ?_⟩
      simp [Set.union_eq_right.2 (sightings_emptyArray_subset f)]
    | .array e, .array f, _, _ =>
      rw [joinArrays_array_array (show ¬e.same f = true from hsame)]
      cases hs with
      | array he =>
      cases ht with
      | array hf =>
      have hjoin := hpart e f he hf hsd htd
      have hdepth := hjoin.depth_le
      -- two arrays agree at the root, so nothing is given up there
      have hkept : ¬policy.GivesUp (sightings policy (.array e) ∪ sightings policy (.array f)) := by
        refine Policy.not_givesUp_of_agree ?_
        rw [root_union, root_sightings_array, root_sightings_array, Set.union_self]
        exact agree_of_mem_singleton rfl
      refine ⟨rfl, .array hjoin.wellFormed, ?_, ?_⟩
      · simp only [depthOfAll, depth] at hdepth ⊢
        omega
      · rw [sightingsOfAll_pair]
        refine ext_root_below ?_ fun step ↦ ?_
        · rw [Policy.root_closure hkept]
          simp
        · rw [Policy.below_closure hkept]
          cases step with
          | item => simpa using hjoin.sightings_eq
          | member name => simp

/-- The join of alternatives joins them, if every one may be a member of a union. -/
theorem isJoin_joinAlternatives {ms : List Shape} (hpolicy : policy = .union) (hne : ms ≠ [])
    (hms : ∀ m ∈ ms, m.isPlain = true ∧ m.WellFormed ∧ m.depth ≤ d) :
    IsJoin .union ms (joinAlternatives part ms) := by
  subst hpolicy
  obtain ⟨hobject, hobjects, hshown⟩ := IsJoin.toList_reduce?
    (fun x y hx hy ↦ isJoin_joinObjects hpart hx hy) fun m hm ↦ (hms m hm).2
  obtain ⟨harray, harrays, hshown'⟩ := IsJoin.toList_reduce?
    (fun x y hx hy ↦ isJoin_joinArrays hpart hx hy) fun m hm ↦ (hms m hm).2
  rw [Policy.closure_union] at hshown hshown'
  rw [joinAlternatives_eq]
  -- from here on it only counts what the one object and the one array show
  generalize (JsonShapes.reduce? (joinObjects part) (ms.filter isObject)).toList = objects at *
  generalize (JsonShapes.reduce? (joinArrays part) (ms.filter isArray)).toList = arrays at *
  have hothers : ∀ m ∈ otherAlternatives ms, m ∈ ms ∧ m.isObject = false ∧ m.isArray = false := by
    intro m hm
    simpa using List.mem_filter.1 (mem_of_mem_distinct hm)
  have hassorted : Assorted (otherAlternatives ms ++ objects ++ arrays) :=
    assorted_append (pairwise_distinct _)
      (fun m hm ↦ ⟨(hms m (hothers m hm).1).1, (hothers m hm).2⟩) hobject
      (fun m hm ↦ (hobjects m hm).1) harray fun m hm ↦ (harrays m hm).1
  have hall : ∀ m ∈ otherAlternatives ms ++ objects ++ arrays,
      m.WellFormed ∧ m.depth ≤ depthOfAll ms := by
    intro m hm
    rcases List.mem_append.1 hm with hm | hm
    · rcases List.mem_append.1 hm with hm | hm
      · exact ⟨(hms m (hothers m hm).1).2.1, depth_le_of_mem (hothers m hm).1⟩
      · exact (hobjects m hm).2
    · exact (harrays m hm).2
  have hsightings : sightingsOfAll .union (otherAlternatives ms ++ objects ++ arrays) =
      sightingsOfAll .union ms := by
    rw [sightingsOfAll_append, sightingsOfAll_append, hshown, hshown', otherAlternatives,
      sightingsOfAll_distinct, ← sightingsOfAll_append, ← sightingsOfAll_append]
    refine Set.Subset.antisymm (sightingsOfAll_subset fun x hx ↦ ⟨x, ?_, subset_rfl⟩)
      (sightingsOfAll_subset fun x hx ↦ ⟨x, ?_, subset_rfl⟩)
    · simp only [List.mem_append, List.mem_filter] at hx
      tauto
    · cases ho : x.isObject <;> cases ha : x.isArray <;> simp [hx, ho, ha]
  -- something is shown at the root, so something is left
  have hne' : otherAlternatives ms ++ objects ++ arrays ≠ [] := by
    intro hnil
    obtain ⟨m, hm⟩ := List.exists_mem_of_ne_nil ms hne
    obtain ⟨k, hk⟩ : ∃ k, m.Shows .union [] k := exists_shows (hms m hm).2.1
    have hmem : (([], k) : Sighting) ∈ sightingsOfAll .union ms := ⟨m, hm, hk⟩
    rw [← hsightings, hnil, sightingsOfAll_nil] at hmem
    exact hmem
  exact (isJoin_ofAlternatives hne' hassorted fun m hm ↦ (hall m hm).1).of_sightingsOfAll_eq
    (depthOfAll_le_iff.2 fun m hm ↦ (hall m hm).2) hsightings

omit hpart in
/-- What cannot be joined but by a policy has heads that do not agree. -/
theorem not_agree_head {s t : Shape} (hs : s.WellFormed) (ht : t.WellFormed)
    (hsame : ¬s.same t = true) (hobjects : s.isObject = true → t.isObject = false)
    (harrays : s.isArray = true → t.isArray = false) : ¬s.head.Agree t.head := by
  cases hs <;> cases ht <;> simp_all [head, Mark.Agree, isObject, isArray]

/-- A conflict, resolved by the policy, is a join. -/
theorem isJoin_conflict {s t : Shape} (hs : s.WellFormed) (ht : t.WellFormed) (hsd : s.depth ≤ d)
    (htd : t.depth ≤ d) (hsne : s ≠ unknown) (htne : t ≠ unknown) (hsame : ¬s.same t = true)
    (hobjects : s.isObject = true → t.isObject = false)
    (harrays : s.isArray = true → t.isArray = false) :
    IsJoin policy [s, t] (joinConflict part policy s t) := by
  cases policy with
  | unknown =>
    refine ⟨.prim _, Nat.zero_le _, ?_⟩
    -- the heads clash, so the position is given up
    have hclash : Clash (sightingsOfAll .unknown [s, t]) [] := by
      refine ⟨s.head, t.head, ?_, ?_, not_agree_head hs ht hsame hobjects harrays⟩
      · exact ⟨s, by simp, shows_head hs (Or.inl rfl)⟩
      · exact ⟨t, by simp, shows_head ht (Or.inl rfl)⟩
    rw [Policy.closure_of_givesUp ⟨rfl, hclash⟩]
    exact sightings_unknown
  | union =>
    have hall : ∀ m ∈ s.alternatives ++ t.alternatives,
        m.isPlain = true ∧ m.WellFormed ∧ m.depth ≤ d :=
      List.forall_mem_append.2
        ⟨hs.forall_mem_alternatives hsne hsd, ht.forall_mem_alternatives htne htd⟩
    have hne : s.alternatives ++ t.alternatives ≠ [] := by simp [alternatives_ne_nil hs]
    refine (isJoin_joinAlternatives hpart rfl hne hall).of_sightingsOfAll_eq ?_ ?_
    · simp [depthOfAll_append, depthOfAll_alternatives, depthOfAll]
    · simp [sightings_alternatives s, sightings_alternatives t]

/-- One layer of a join joins, if the layers below do. -/
theorem isJoin_joinLayer {s t : Shape} (hs : s.WellFormed) (ht : t.WellFormed) (hsd : s.depth ≤ d)
    (htd : t.depth ≤ d) : IsJoin policy [s, t] (joinLayer part policy s t) := by
  have harrays := fun hsa hta ↦ (isJoin_joinArrays hpart hsa hta hs ht hsd htd).2
  rw [joinLayer.eq_def]
  by_cases hsame : s.same t = true
  · rw [if_pos hsame]
    exact .of_same hs hsame
  rw [if_neg hsame]
  split
  · exact ⟨.prim _, Nat.zero_le _, by simp⟩
  · exact ⟨.prim _, Nat.zero_le _, by simp⟩
  · exact harrays rfl rfl
  · exact harrays rfl rfl
  · rename_i e f
    rw [← joinArrays_array_array (show ¬e.same f = true from hsame)]
    exact harrays rfl rfl
  · exact (isJoin_joinObjects hpart rfl rfl hs ht hsd htd).2
  · -- two objects or two arrays do not get here
    rename_i hsne htne hea hae haa hoo
    refine isJoin_conflict hpart hs ht hsd htd hsne htne hsame (fun hs ↦ ?_) fun hs ↦ ?_
    · obtain ⟨fs, order, rfl⟩ := isObject_iff.1 hs
      refine Bool.eq_false_iff.2 fun ht ↦ ?_
      obtain ⟨gs, order', rfl⟩ := isObject_iff.1 ht
      exact hoo fs order gs order' rfl rfl
    · refine Bool.eq_false_iff.2 fun ht ↦ ?_
      rcases isArray_iff.1 hs with rfl | ⟨e, rfl⟩ <;> rcases isArray_iff.1 ht with rfl | ⟨f, rfl⟩
      · exact hsame (same_refl _)
      · exact hea f rfl rfl
      · exact hae e rfl rfl
      · exact haa e f rfl rfl

end Layer

/-- A join of any number of layers joins the shapes that have fewer. -/
theorem isJoin_joinWithin {d : Nat} {s t : Shape} (hs : s.WellFormed) (ht : t.WellFormed)
    (hsd : s.depth ≤ d) (htd : t.depth ≤ d) : IsJoin policy [s, t] (joinWithin policy d s t) := by
  induction d generalizing s t with
  | zero =>
    exact isJoin_joinLayer (fun x y _ _ hx ↦ absurd hx (Nat.not_lt_zero _)) hs ht hsd htd
  | succ d ih =>
    exact isJoin_joinLayer (fun x y hx hy hxd hyd ↦ ih hx hy (by omega) (by omega)) hs ht hsd htd

/-- The join of two well-formed shapes joins them. -/
theorem isJoin_join {s t : Shape} (hs : s.WellFormed) (ht : t.WellFormed) :
    IsJoin policy [s, t] (join policy s t) :=
  isJoin_joinWithin hs ht (Nat.le_max_left _ _) (Nat.le_max_right _ _)

/-- The join of a list of well-formed shapes joins them. -/
theorem isJoin_joinAll {xs : List Shape} {z : Shape} (hxs : ∀ x ∈ xs, x.WellFormed)
    (h : joinAll policy xs = some z) : IsJoin policy xs z :=
  (IsJoin.reduce? (fun _ ↦ True) (fun _ _ _ _ hx hy ↦ ⟨trivial, isJoin_join hx hy⟩)
    (fun x hx ↦ ⟨trivial, hxs x hx⟩) h).2

end Shape

end JsonShapes
