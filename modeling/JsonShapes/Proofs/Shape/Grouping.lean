import JsonShapes.Proofs.Shape.Groups

/-!
# Inference groups the items of an array

Inference never sees more than two shapes at a time, yet of the items of an array it makes the shape
that is read off their groups (`ofJson_array_same_grouped`), with the names of fields in the order
of their first appearance.

The two are compared by what they show. The alternatives of the grouped shape show together what all
items do, once conflicts are resolved, and so does the join of the items. The order of names is no
part of that and is followed through the joins one by one.

## The course of the proof

* An item is of one group: it is a plain value of some kind, an object or an array (`exists_group`).
  So what all items show is what the groups show, together.
* For each group there is an alternative of the grouped shape that shows what its items do, once
  conflicts below are resolved.
* These alternatives differ in kind, so they may stand in a union (`assorted_groupedAlternatives`),
  and the grouped shape is well-formed.
* Joining the items shows the same (`isJoin_joinAll`), and well-formed shapes that show the same
  mean the same.

An array has to have items for this: the shape of an array without any is a case of its own.
-/

namespace JsonShapes

open Sighting

namespace Shape

variable {policy : Policy}

/-! ### Alternatives -/

/-- What the policy makes of alternatives that may stand side by side shows what they do, conflicts
resolved. -/
theorem sightings_ofGroups (policy : Policy) {ms : List Shape} (hne : ms ≠ []) (h : Assorted ms)
    (hms : ∀ m ∈ ms, m.WellFormed) :
    (ofGroups policy ms).WellFormed ∧
      sightings policy (ofGroups policy ms) = policy.closure (sightingsOfAll policy ms) := by
  match ms, hne with
  | [only], _ =>
    refine ⟨hms only List.mem_cons_self, ?_⟩
    rw [sightingsOfAll_cons, sightingsOfAll_nil, Set.union_empty, closure_sightings]
    rfl
  | m :: n :: rest, _ =>
    cases policy with
    | union => exact ⟨.union (by simp) h hms, sightings_union _⟩
    | unknown =>
      refine ⟨.prim _, ?_⟩
      have hsame : ¬m.same n = true :=
        Bool.eq_false_iff.1 ((List.pairwise_cons.1 h.distinct).1 n List.mem_cons_self)
      have hlone : ∀ {p : Shape → Bool}, (m :: n :: rest).countP p ≤ 1 → p m = true →
          p n = false := by
        intro p hp hpm
        refine Bool.eq_false_iff.2 fun hpn ↦ hsame ?_
        rw [eq_of_countP_le_one hp (by simp) (by simp) hpm hpn]
        exact same_refl n
      -- two groups differ in kind, so their heads clash at the root
      have hclash : Clash (sightingsOfAll .unknown (m :: n :: rest)) [] := by
        have hm := hms m (by simp)
        have hn := hms n (by simp)
        refine ⟨m.head, n.head, ⟨m, by simp, shows_head hm (Or.inl rfl)⟩,
          ⟨n, by simp, shows_head hn (Or.inl rfl)⟩, ?_⟩
        exact not_agree_head hm hn hsame (hlone h.objects) (hlone h.arrays)
      rw [Policy.closure_of_givesUp ⟨rfl, hclash⟩]
      exact sightings_unknown

section Items

variable {items : List Json} (hkeyed : ∀ item ∈ items, item.Keyed)

/-- Every item falls into a group. -/
theorem exists_group (item : Json) : (∃ p, item.primitive? = some p) ∨
    (∃ members, item.members? = some members ∧ item = .object members) ∨
      ∃ items, item.items? = some items ∧ item = .array items := by
  cases item <;> simp [Json.primitive?, Json.members?, Json.items?]

theorem object_mem_of_members? {members : List (String × Json)}
    (h : members ∈ items.filterMap Json.members?) : .object members ∈ items := by
  obtain ⟨item, hitem, hmembers⟩ := List.mem_filterMap.1 h
  cases item <;> simp_all [Json.members?]

theorem array_mem_of_items? {array : List Json} (h : array ∈ items.filterMap Json.items?) :
    .array array ∈ items := by
  obtain ⟨item, hitem, harray⟩ := List.mem_filterMap.1 h
  cases item <;> simp_all [Json.items?]

/-- The alternative of a group of items shows what they do. -/
theorem mem_groupedAlternatives {m : Shape} : m ∈ groupedAlternatives policy items ↔
    (∃ p ∈ kindsAmong items, m = .prim p) ∨
    (items.filterMap Json.members? ≠ [] ∧
      m = groupedObject policy (items.filterMap Json.members?)) ∨
    (items.filterMap Json.items? ≠ [] ∧
      m = ofJson policy (.array (items.filterMap Json.items?).flatten)) := by
  rw [groupedAlternatives, List.mem_append, List.mem_append, or_assoc]
  refine or_congr ?_ (or_congr ?_ ?_)
  · rw [List.mem_map]
    exact exists_congr fun p ↦ and_congr Iff.rfl eq_comm
  · cases items.filterMap Json.members? <;> simp
  · cases items.filterMap Json.items? <;> simp

/-- Items fall into at least one group. -/
theorem groupedAlternatives_ne_nil (hne : items ≠ []) : groupedAlternatives policy items ≠ [] := by
  obtain ⟨item, hitem⟩ := List.exists_mem_of_ne_nil items hne
  rcases exists_group item with ⟨p, hp⟩ | ⟨members, hmembers, -⟩ | ⟨array, harray, -⟩
  · exact List.ne_nil_of_mem
      (mem_groupedAlternatives.2 (Or.inl ⟨p, mem_kindsAmong.2 ⟨item, hitem, hp⟩, rfl⟩))
  · have hmem : members ∈ items.filterMap Json.members? :=
      List.mem_filterMap.2 ⟨item, hitem, hmembers⟩
    exact List.ne_nil_of_mem
      (mem_groupedAlternatives.2 (Or.inr (Or.inl ⟨List.ne_nil_of_mem hmem, rfl⟩)))
  · have hmem : array ∈ items.filterMap Json.items? :=
      List.mem_filterMap.2 ⟨item, hitem, harray⟩
    exact List.ne_nil_of_mem
      (mem_groupedAlternatives.2 (Or.inr (Or.inr ⟨List.ne_nil_of_mem hmem, rfl⟩)))

/-- The groups may stand side by side in a union: at most one object, one array, and each primitive
kind once. -/
theorem assorted_groupedAlternatives (policy : Policy) (items : List Json) :
    Assorted (groupedAlternatives policy items) := by
  refine assorted_append ?_ ?_ ?_ ?_ ?_ ?_
  · refine List.pairwise_map.2 ((nodup_kindsAmong items).imp fun hpq ↦ ?_)
    simpa [same] using hpq
  · intro m hm
    obtain ⟨p, hp, rfl⟩ := List.mem_map.1 hm
    refine ⟨?_, rfl, rfl⟩
    cases p <;> simp_all [kindsAmong, isPlain]
  · split <;> simp
  · split <;> simp [groupedObject, ofFields, isObject]
  · split <;> simp
  · split
    · simp
    · simp only [List.mem_singleton, forall_eq, ofJson]
      split <;> rfl

include hkeyed in
theorem keyed_members {members : List (String × Json)}
    (h : members ∈ items.filterMap Json.members?) : (Json.object members).Keyed :=
  hkeyed _ (object_mem_of_members? h)

include hkeyed in
theorem keyed_items {array : List Json} (h : array ∈ items.filterMap Json.items?) :
    ∀ item ∈ array, item.Keyed := by
  cases hkeyed _ (array_mem_of_items? h) with
  | array hitems => exact hitems

include hkeyed in
/-- Every group makes a well-formed alternative. -/
theorem wellFormed_groupedAlternatives {m : Shape} (h : m ∈ groupedAlternatives policy items) :
    m.WellFormed := by
  rcases mem_groupedAlternatives.1 h with ⟨p, -, rfl⟩ | ⟨-, rfl⟩ | ⟨-, rfl⟩
  · exact .prim p
  · exact wellFormed_groupedObject fun members hmembers ↦ keyed_members hkeyed hmembers
  · refine wellFormed_ofJson (.array fun item hitem ↦ ?_)
    obtain ⟨array, harray, hitem⟩ := List.mem_flatten.1 hitem
    exact keyed_items hkeyed harray item hitem

include hkeyed in
/-- The alternatives show together what the items do, conflicts resolved. Two inclusions: an
alternative shows no more than its group does, and each item has a group that shows what it shows.
-/
theorem closure_sightingsOfAll_groupedAlternatives :
    policy.closure (sightingsOfAll policy (groupedAlternatives policy items)) =
      policy.closure (shown policy items) := by
  have hobjects : items.filterMap Json.members? ≠ [] →
      sightings policy (groupedObject policy (items.filterMap Json.members?)) =
        policy.closure (shown policy ((items.filterMap Json.members?).map .object)) :=
    fun hne ↦ sightings_groupedObject hne fun members h ↦ keyed_members hkeyed h
  have harrays : items.filterMap Json.items? ≠ [] →
      sightings policy (ofJson policy (.array (items.filterMap Json.items?).flatten)) =
        policy.closure (shown policy ((items.filterMap Json.items?).map .array)) :=
    fun hne ↦ sightings_ofJson_flatten hne fun array h ↦ keyed_items hkeyed h
  refine le_antisymm (policy.closure.le_closure_iff.1 ?_) (policy.closure.monotone ?_)
  · -- an alternative shows no more than the items of its group
    rintro x ⟨m, hm, hx⟩
    rcases mem_groupedAlternatives.1 hm with ⟨p, hp, rfl⟩ | ⟨hne, rfl⟩ | ⟨hne, rfl⟩
    · obtain ⟨item, hitem, hp⟩ := mem_kindsAmong.1 hp
      rw [← ofJson_of_primitive? hp] at hx
      exact policy.closure.le_closure _ (subset_shown hitem hx)
    · rw [hobjects hne] at hx
      refine policy.closure.monotone (shown_mono fun value hvalue ↦ ?_) hx
      obtain ⟨members, hmembers, rfl⟩ := List.mem_map.1 hvalue
      exact object_mem_of_members? hmembers
    · rw [harrays hne] at hx
      refine policy.closure.monotone (shown_mono fun value hvalue ↦ ?_) hx
      obtain ⟨array, harray, rfl⟩ := List.mem_map.1 hvalue
      exact array_mem_of_items? harray
  · -- every item is in a group
    rintro x ⟨item, hitem, hx⟩
    rcases exists_group item with ⟨p, hp⟩ | ⟨members, hmembers, rfl⟩ | ⟨array, harray, rfl⟩
    · rw [ofJson_of_primitive? hp] at hx
      refine ⟨.prim p, mem_groupedAlternatives.2 (Or.inl ⟨p, ?_, rfl⟩), hx⟩
      exact mem_kindsAmong.2 ⟨item, hitem, hp⟩
    · have hmem : members ∈ items.filterMap Json.members? :=
        List.mem_filterMap.2 ⟨_, hitem, hmembers⟩
      have hne := List.ne_nil_of_mem hmem
      refine ⟨_, mem_groupedAlternatives.2 (Or.inr (Or.inl ⟨hne, rfl⟩)), ?_⟩
      rw [hobjects hne]
      exact policy.closure.le_closure _ (subset_shown (List.mem_map_of_mem hmem) hx)
    · have hmem : array ∈ items.filterMap Json.items? :=
        List.mem_filterMap.2 ⟨_, hitem, harray⟩
      have hne := List.ne_nil_of_mem hmem
      refine ⟨_, mem_groupedAlternatives.2 (Or.inr (Or.inr ⟨hne, rfl⟩)), ?_⟩
      rw [harrays hne]
      exact policy.closure.le_closure _ (subset_shown (List.mem_map_of_mem hmem) hx)

/-! ### The order of names -/

theorem discovered_ofJson_object (members : List (String × Json)) :
    (ofJson policy (.object members)).discovered = members.map (·.1) := by
  rw [ofJson_object]
  exact List.append_nil _

/-- What is no object shows no names at its root; an object inside it shows its names further below.
-/
theorem discovered_ofJson_of_members? {item : Json} (h : item.members? = none) :
    (ofJson policy item).discovered = [] := by
  cases item with
  | object members => simp [Json.members?] at h
  | array items =>
    rw [ofJson]
    split <;> rfl
  | _ => rfl

/-- One item more adds the names that no object before it had. -/
theorem namesOf_filterMap_concat (policy : Policy) {item : Json} (h : item.Keyed) :
    namesOf ((items ++ [item]).filterMap Json.members?) =
      joinNames (namesOf (items.filterMap Json.members?)) (ofJson policy item).discovered := by
  rw [List.filterMap_append]
  cases hmembers : item.members? with
  | none =>
    rw [List.filterMap_cons_none hmembers, List.filterMap_nil, List.append_nil,
      discovered_ofJson_of_members? hmembers, joinNames_nil_right]
  | some members =>
    rw [List.filterMap_cons_some hmembers, List.filterMap_nil]
    cases h with
    | object hnodup _ =>
      rw [Json.members?, Option.some.injEq] at hmembers
      subst hmembers
      rw [namesOf_concat hnodup, discovered_ofJson_object]
    | _ => simp [Json.members?] at hmembers

/-- Joining from the left, a further shape is joined to what all before it have made. -/
theorem joinAll_concat {xs : List Shape} {y : Shape} (h : joinAll policy xs = some y) (x : Shape) :
    joinAll policy (xs ++ [x]) = some (y.join policy x) := by
  cases xs with
  | nil => simp [joinAll, reduce?] at h
  | cons s xs =>
    rw [joinAll_cons, Option.some.injEq] at h
    rw [List.cons_append, joinAll_cons, List.foldl_append, h]
    rfl

include hkeyed in
/-- The joins of the items from the left discover names in the order of their first appearance,
unless they are given up on the way. -/
theorem discovered_joinAll {z : Shape} (h : joinAll policy (items.map (ofJson policy)) = some z) :
    z = unknown ∨ z.discovered = namesOf (items.filterMap Json.members?) := by
  induction items using List.reverseRecOn generalizing z with
  | nil => simp [joinAll, reduce?] at h
  | append_singleton items item ih =>
    have hitem := hkeyed item (by simp)
    have hitems : ∀ k ∈ items, k.Keyed := fun k hk ↦ hkeyed k (List.mem_append_left _ hk)
    rw [namesOf_filterMap_concat policy hitem]
    by_cases hne : items = []
    · subst hne
      have hz : ofJson policy item = z := Option.some.inj h
      refine Or.inr ?_
      rw [← hz]
      exact (joinNames_nil_left _).symm
    · obtain ⟨y, hy, -⟩ := ofJson_array policy hne
      rw [List.map_append, List.map_singleton, joinAll_concat hy, Option.some.injEq] at h
      have hwf : y.WellFormed := (isJoin_joinAll (by
        simpa using fun k hk ↦ wellFormed_ofJson (hitems k hk)) hy).wellFormed
      subst h
      -- what is given up stays given up, as `unknown` absorbs what comes after it
      rcases ih hitems hy with rfl | hdiscovered
      · exact Or.inl (join_unknown_left _)
      · by_cases hgiven : y.join policy (ofJson policy item) = unknown
        · exact Or.inl hgiven
        · rw [discovered_join hwf (wellFormed_ofJson hitem) hgiven, hdiscovered]
          exact Or.inr rfl

end Items

/-! ### The shape of an array -/

/-- Inference reads the shape of an array off its groups: the alternatives of its items are the
kinds of plain values that occur, one object in whose fields the values under each name are
gathered, and one array of all inner items, as far as there are such items. The names of the object
are listed by first appearance. -/
theorem ofJson_array_same_grouped (policy : Policy) {items : List Json} (hne : items ≠ [])
    (hkeyed : ∀ item ∈ items, item.Keyed) :
    ∃ e, ofJson policy (.array items) = .array e ∧ e.same (grouped policy items) = true ∧
      ∀ fs order, .object fs order ∈ e.alternatives →
        order = namesOf (items.filterMap Json.members?) := by
  obtain ⟨e, hjoin, he⟩ := ofJson_array policy hne
  have hisjoin := isJoin_joinAll (by simpa using fun k hk ↦ wellFormed_ofJson (hkeyed k hk)) hjoin
  obtain ⟨hwf, hgrouped⟩ := sightings_ofGroups policy (groupedAlternatives_ne_nil hne)
    (assorted_groupedAlternatives policy items) fun m hm ↦ wellFormed_groupedAlternatives hkeyed hm
  have hshown : sightings policy e = sightings policy (grouped policy items) := by
    rw [grouped, hgrouped, closure_sightingsOfAll_groupedAlternatives hkeyed, hisjoin.sightings_eq,
      shown_eq]
  refine ⟨e, he, same_of_sightings_eq hisjoin.wellFormed hwf hshown, ?_⟩
  intro fs order horder
  rcases discovered_joinAll hkeyed hjoin with rfl | hdiscovered
  · simp [alternatives] at horder
  · rw [← hdiscovered, discovered_of_mem_alternatives hisjoin.wellFormed horder]

/-- A field that is seen, is absent and comes again with a value of another kind; an empty array
before one with items; and an object without members. -/
theorem ofJson_array_same_grouped_mixed :
    let items : List Json := [.object [("b", .number (.int 1))], .array [],
      .object [("a", .null)], .array [.bool true], .object [("a", .null), ("b", .string "")],
      .object []]
    (items ≠ [] ∧ ∀ item ∈ items, item.Keyed) ∧
      ∃ e, ofJson .union (.array items) = .array e ∧ e.same (grouped .union items) = true ∧
        ∀ fs order, .object fs order ∈ e.alternatives → order = ["b", "a"] := by
  intro items
  have hne : items ≠ [] := List.cons_ne_nil _ _
  have hkeyed : ∀ item ∈ items, item.Keyed := by
    simp only [items, List.forall_mem_cons, List.not_mem_nil, false_imp_iff, implies_true, and_true]
    refine ⟨.object (by decide) ?_, .array ?_, .object (by decide) ?_, .array ?_,
      .object (by decide) ?_, .object (by decide) ?_⟩
    · simpa using .number _
    · simp
    · simpa using .null
    · simpa using .bool true
    · simpa using ⟨.null, .string ""⟩
    · simp
  obtain ⟨e, he, hsame, horder⟩ := ofJson_array_same_grouped .union hne hkeyed
  exact ⟨⟨hne, hkeyed⟩, e, he, hsame, fun fs order h ↦ (horder fs order h).trans (by decide)⟩

end Shape

end JsonShapes
