import JsonShapes.Proofs.Shape.Groups
import JsonShapes.Proofs.Shape.Listing

/-!
# Arrays put end to end

The shape of two arrays put end to end is the join of their shapes, and not only in what it means:
every object in it has its names in the same order (`ofJson_append`). What the two mean is seen from
what they show. As to the order, both list the items of the first array and then those of the
second, an array without items being listed by an array of which no item was seen.

What an array lists is written as a relation (`Lists`), of which this module needs one consequence:
shapes that mean the same and list the same are shuffles of each other (`Lists.shuffled`). The
induction is over what is listed, so it goes down through items and members together, and at each
level the alternatives of the two sides are paired by what they mean.
-/

namespace JsonShapes.Shape

variable {policy : Policy} {s t : Shape} {xs : List Shape}

/-! ### Shapes that list the same -/

/-- If the alternatives of shapes that mean the same are shuffles so far as they mean the same, so
are the shapes. -/
theorem shuffled_of_alternatives (hs : s.WellFormed) (ht : t.WellFormed) (hst : s.same t = true)
    (h : ∀ m ∈ s.alternatives, ∀ n ∈ t.alternatives, m.same n = true → m.Shuffled n) :
    s.Shuffled t := by
  cases same_cases hst with
  | @union ms ns hl hr =>
    cases hs with
    | union _ hms =>
    cases ht with
    | union _ hns =>
    obtain ⟨ns', hperm, hpaired⟩ := exists_perm_forall₂_same hms.distinct hns.distinct hl hr
    exact .union (forall₂_imp_of_mem hpaired fun m hm n hn ↦ h m hm n (hperm.mem_iff.1 hn)) hperm
  | _ => exact h _ (List.mem_singleton_self _) _ (List.mem_singleton_self _) hst

/-- Alternatives that mean the same are shuffles, if the shapes have discovered names in one order
and what lies below them are shuffles. -/
theorem shuffled_alternative (hs : s.WellFormed) (ht : t.WellFormed)
    (horder : s.discovered = t.discovered)
    (hbelow : ∀ step, ∀ c ∈ s.children step, ∀ c' ∈ t.children step, c.same c' = true →
      c.Shuffled c') {m n : Shape} (hm : m ∈ s.alternatives) (hn : n ∈ t.alternatives)
    (hplain : ∀ ms, m ≠ .union ms) (hmn : m.same n = true) : m.Shuffled n := by
  have hcontent : ∀ step, ∀ c ∈ contentAt step m, ∀ c' ∈ contentAt step n, c.same c' = true →
      c.Shuffled c' := fun step c hc c' hc' ↦
    hbelow step c (List.mem_flatMap.2 ⟨m, hm, hc⟩) c' (List.mem_flatMap.2 ⟨n, hn, hc'⟩)
  have hmw := hs.mem_alternatives hm
  have hnw := ht.mem_alternatives hn
  cases same_cases hmn with
  | array hef =>
    exact .array (hcontent .item _ (List.mem_singleton_self _) _ (List.mem_singleton_self _) hef)
  | @object fs gs order order' halike =>
    -- all objects among the alternatives of a shape have the order of the shape
    obtain rfl : order = order' := by
      rw [← discovered_of_mem_alternatives hs hm, horder, discovered_of_mem_alternatives ht hn]
    cases hmw with
    | object hincreasing _ _ =>
    cases hnw with
    | object hincreasing' _ _ =>
    refine .object order (forall₂_imp_of_mem halike fun f hf g hg hfg ↦ ?_)
    refine .of_eq hfg.name hfg.optional (hcontent (.member f.name) _ ?_ _ ?_ hfg.content)
    · simp [contentAt, Field.get?_of_mem hincreasing.nodup hf]
    · simp [contentAt, hfg.name, Field.get?_of_mem hincreasing'.nodup hg]
  | union => exact absurd rfl (hplain _)
  | _ => exact .refl _

/-- Shapes that mean the same and list the same shapes differ at most in how unions are enumerated.
-/
theorem Lists.shuffled (h : s.Lists xs) (h' : t.Lists xs) (hs : s.WellFormed) (ht : t.WellFormed)
    (hst : s.same t = true) : s.Shuffled t := by
  induction h generalizing t with
  | givenUp =>
    cases same_cases hst
    exact .refl _
  | @seen s xs _ order _ below ih =>
    by_cases hne : t = unknown
    · subst hne
      exact eq_unknown_of_same hst ▸ .refl _
    cases h' with
    | givenUp => exact absurd rfl hne
    | seen _ order' _ below' =>
      have hsne : s ≠ unknown := fun heq ↦ hne (eq_unknown_of_same (same_symm (heq ▸ hst)))
      refine shuffled_of_alternatives hs ht hst fun m hm n hn hmn ↦ ?_
      refine shuffled_alternative hs ht (order.trans order'.symm) (fun step c hc c' hc' ↦ ?_) hm hn
        (fun ms hms ↦ ?_) hmn
      · exact ih step c hc (below' step c' hc') (children_wellFormed hs hc).1
          (children_wellFormed ht hc').1
      · exact nomatch hms ▸ (hs.assorted hsne).plain m hm

/-! ### Arrays -/

/-- The shape of an array lists arrays of the shapes of its items. The element is the join of the
shapes of the items, which lists them all; an array without items lists nothing. -/
theorem lists_ofJson_array {items : List Json} (h : ∀ item ∈ items, item.Keyed) :
    (ofJson policy (.array items)).Lists (items.map fun item ↦ .array (ofJson policy item)) := by
  have hitem : (items.map fun item ↦ Shape.array (ofJson policy item)).flatMap (children .item) =
      items.map (ofJson policy) := by
    rw [List.flatMap_map, List.map_eq_flatMap]
    rfl
  have hmember : ∀ name,
      (items.map fun item ↦ Shape.array (ofJson policy item)).flatMap (children (.member name)) =
        [] := by
    intro name
    rw [List.flatMap_map]
    exact List.flatMap_eq_nil_iff.2 fun _ _ ↦ rfl
  have horder : discoveredByAll (items.map fun item ↦ Shape.array (ofJson policy item)) = [] := by
    refine List.subset_nil.1 (discoveredByAll_subset fun x hx ↦ ?_)
    obtain ⟨item, -, rfl⟩ := List.mem_map.1 hx
    exact List.nil_subset []
  -- an array without items has no element that could list anything
  by_cases hne : items = []
  · subst hne
    exact .seen (by simp) rfl (fun _ _ ↦ rfl) fun step ↦ by cases step <;> exact nofun
  obtain ⟨e, hjoin, he⟩ := ofJson_array policy hne
  have hlists : e.Lists (items.map (ofJson policy)) := by
    refine lists_joinAll (fun x hx ↦ ?_) hjoin
    obtain ⟨item, hitem, rfl⟩ := List.mem_map.1 hx
    exact wellFormed_ofJson (h item hitem)
  rw [he]
  refine .seen (by simp) horder.symm (fun step ↦ ?_) fun step c hc ↦ ?_
  · cases step with
    | item => exact fun hnil ↦ absurd hnil (List.cons_ne_nil _ _)
    | member name => exact fun _ ↦ hmember name
  · cases step with
    | item =>
      rw [hitem]
      exact List.mem_singleton.1 hc ▸ hlists
    | member name => exact absurd hc List.not_mem_nil

/-- A join of the shapes of two arrays means the same as the shape of both put end to end. -/
theorem IsJoin.same_ofJson_append {z : Shape} {xs ys : List Json} (hxs : ∀ x ∈ xs, x.Keyed)
    (hys : ∀ y ∈ ys, y.Keyed)
    (h : IsJoin policy [ofJson policy (.array xs), ofJson policy (.array ys)] z) :
    z.same (ofJson policy (.array (xs ++ ys))) = true := by
  have hxys : ∀ item ∈ xs ++ ys, item.Keyed := List.forall_mem_append.2 ⟨hxs, hys⟩
  have hflatten : sightings policy (ofJson policy (.array [xs, ys].flatten)) = _ :=
    sightings_ofJson_flatten (List.cons_ne_nil _ _) (by simpa using ⟨hxs, hys⟩)
  have hsightings : sightings policy z = sightings policy (ofJson policy (.array (xs ++ ys))) := by
    rw [h.sightings_eq]
    simpa [shown_eq] using hflatten.symm
  exact same_of_sightings_eq h.wellFormed (wellFormed_ofJson (.array hxys)) hsightings

/-- The shape of two arrays put end to end is the join of their shapes, with the same order of
discovery in every object at every depth: the two differ at most in how unions are enumerated. -/
theorem ofJson_append (policy : Policy) {xs ys : List Json} (hxs : ∀ x ∈ xs, x.Keyed)
    (hys : ∀ y ∈ ys, y.Keyed) :
    ∃ z, (ofJson policy (.array xs)).join? policy (ofJson policy (.array ys)) = .ok z ∧
      z.same (ofJson policy (.array (xs ++ ys))) = true ∧
      z.Shuffled (ofJson policy (.array (xs ++ ys))) := by
  have hxys : ∀ item ∈ xs ++ ys, item.Keyed := List.forall_mem_append.2 ⟨hxs, hys⟩
  have hx : (ofJson policy (.array xs)).WellFormed := wellFormed_ofJson (.array hxs)
  have hy : (ofJson policy (.array ys)).WellFormed := wellFormed_ofJson (.array hys)
  have hxy : (ofJson policy (.array (xs ++ ys))).WellFormed := wellFormed_ofJson (.array hxys)
  have hjoin : IsJoin policy [ofJson policy (.array xs), ofJson policy (.array ys)] _ :=
    isJoin_join hx hy
  have hlists : ((ofJson policy (.array xs)).join policy (ofJson policy (.array ys))).Lists _ :=
    lists_join hx hy
  generalize hz : (ofJson policy (.array xs)).join policy (ofJson policy (.array ys)) = z
    at hjoin hlists
  have hsame : z.same (ofJson policy (.array (xs ++ ys))) = true :=
    hjoin.same_ofJson_append hxs hys
  refine ⟨z, hz ▸ join?_eq_ok hx hy, hsame, ?_⟩
  have hitems := hlists.append hx hy (lists_ofJson_array hxs) (lists_ofJson_array hys)
  rw [← List.map_append] at hitems
  exact hitems.shuffled (lists_ofJson_array hxys) hjoin.wellFormed hxy hsame

/-- Both halves have an object among other alternatives, with a field that only one of them has, and
an array below a field that only the second has seen an item of. -/
theorem ofJson_append_alternatives :
    let xs : List Json := [.object [("id", .number (.int 1)), ("tags", .array [])], .null]
    let ys : List Json := [.object [("note", .bool true),
      ("tags", .array [.object [("b", .null), ("a", .null)], .object [("a", .string "x")]]),
      ("id", .string "y")], .array []]
    ((∀ x ∈ xs, x.Keyed) ∧ ∀ y ∈ ys, y.Keyed) ∧
      ∃ z, (ofJson .union (.array xs)).join? .union (ofJson .union (.array ys)) = .ok z ∧
        z.same (ofJson .union (.array (xs ++ ys))) = true ∧
        z.Shuffled (ofJson .union (.array (xs ++ ys))) := by
  intro xs ys
  have hempty : (Json.array []).Keyed := .array nofun
  have htags : (Json.array [.object [("b", .null), ("a", .null)],
      .object [("a", .string "x")]]).Keyed := by
    refine .array ?_
    simpa using ⟨.object (by decide) (by simpa using .null),
      .object (by decide) (by simpa using .string "x")⟩
  have hxs : ∀ x ∈ xs, x.Keyed := by
    simpa [xs] using ⟨.object (by decide) (by simpa using ⟨.number _, hempty⟩), .null⟩
  have hys : ∀ y ∈ ys, y.Keyed := by
    simpa [ys] using
      ⟨.object (by decide) (by simpa using ⟨.bool true, htags, .string "y"⟩), hempty⟩
  exact ⟨⟨hxs, hys⟩, ofJson_append .union hxs hys⟩

end JsonShapes.Shape
