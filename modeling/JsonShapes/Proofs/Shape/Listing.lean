import JsonShapes.Proofs.Shape.ShufflingJoins

/-!
# The order of discovery at every position

A shape lists, at a position, the names that were discovered in the objects there. `Shape.Lists`
says that it does so at every position in the order in which some shapes have discovered them, one
shape after another, unless the position was given up. As with the sightings of a join, it does not
count how the shapes were joined: what lists shapes that list others lists all of these
(`Lists.flatten`), and a join lists its operands (`lists_join`). So two shapes that mean the same
and list the same shapes have every object in one order (`Lists.shuffled`).

That a join may leave either operand as it is, when both mean the same, is no exception: they have
discovered the same names at every position, and the first operand has the say.

## The course of the proof

* At most one alternative of a well-formed shape has contents under a given step
  (`length_children_le`), so that a position in a shape is one shape.
* Names discovered by one shape after another are put together associatively (`joinNames_assoc`),
  which is why lists of shapes can be flattened.
* One layer of a join accounts for what its operands have below each step, if the join of the layers
  below does (`accountFor_joinLayer`). As for what a join shows, no case looks into the join of the
  layers below, and the iteration follows by induction on the number of layers (`lists_joinWithin`).
-/

namespace JsonShapes.Shape

variable {policy : Policy} {part : Shape → Shape → Shape} {s t z : Shape} {xs ys : List Shape}
  {step : Step}

/-! ### What lies below a step -/

/-- What one alternative has below a step. -/
def contentAt : Step → Shape → List Shape
  | .item, .array e => [e]
  | .member name, .object fs _ => ((Field.get? fs name).map (·.content)).toList
  | _, _ => []

/-- What the alternatives of a shape have below a step. -/
def children (step : Step) (s : Shape) : List Shape :=
  s.alternatives.flatMap (contentAt step)

/-- Whether an alternative is of the kind that has something below a step. -/
def admits : Step → Shape → Bool
  | .item => isArray
  | .member _ => isObject

theorem contentAt_eq_nil (h : ¬admits step s = true) : contentAt step s = [] := by
  cases step <;> cases s <;> first | rfl | exact absurd rfl h

/-- What lies below a step lies in the alternatives of one kind. -/
theorem flatMap_contentAt_filter (step : Step) (ms : List Shape) :
    (ms.filter (admits step)).flatMap (contentAt step) = ms.flatMap (contentAt step) := by
  induction ms with
  | nil => rfl
  | cons m ms ih =>
    by_cases hm : admits step m = true
    · rw [List.filter_cons_of_pos hm, List.flatMap_cons, List.flatMap_cons, ih]
    · rw [List.filter_cons_of_neg hm, List.flatMap_cons, contentAt_eq_nil hm, ih, List.nil_append]

theorem children_of_isPlain (h : s.isPlain = true) : s.children step = contentAt step s := by
  rw [children, alternatives_of_isPlain h, List.flatMap_singleton]

/-- A step leads to one content at most, since a name is got once. -/
theorem length_contentAt_le (step : Step) (s : Shape) : (contentAt step s).length ≤ 1 := by
  unfold contentAt
  split
  · exact le_rfl
  · exact Option.length_toList_le
  · exact Nat.zero_le 1

/-- Of the alternatives of a well-formed shape one at most admits a step: the object admits names,
the array its items. -/
theorem filter_admits_length_le (hs : s.WellFormed) (step : Step) :
    (s.alternatives.filter (admits step)).length ≤ 1 := by
  by_cases hne : s = unknown
  · subst hne
    cases step <;> exact Nat.zero_le 1
  · rw [← List.countP_eq_length_filter]
    cases step with
    | item => exact (hs.assorted hne).arrays
    | member => exact (hs.assorted hne).objects

/-- Of the alternatives of a well-formed shape, one at most has something below a step. -/
theorem length_children_le (hs : s.WellFormed) (step : Step) : (s.children step).length ≤ 1 := by
  have hle := filter_admits_length_le hs step
  rw [children, ← flatMap_contentAt_filter]
  match s.alternatives.filter (admits step), hle with
  | [], _ => exact Nat.zero_le 1
  | [m], _ => simpa using length_contentAt_le step m

/-- What a step leads to is well-formed and less deep. -/
theorem contentAt_wellFormed {c : Shape} (hs : s.WellFormed) (hc : c ∈ contentAt step s) :
    c.WellFormed ∧ c.depth < s.depth := by
  unfold contentAt at hc
  split at hc
  · cases hs with
    | array he =>
      rw [List.mem_singleton.1 hc]
      exact ⟨he, Nat.lt_succ_self _⟩
  · obtain ⟨f, hf, rfl⟩ := Option.map_eq_some_iff.1 (Option.mem_toList.1 hc)
    exact ⟨hs.of_get? hf, depth_lt_of_get? _ hf⟩
  · exact absurd hc List.not_mem_nil

/-- So is what a step leads to in any of the alternatives. -/
theorem children_wellFormed {c : Shape} (hs : s.WellFormed) (hc : c ∈ s.children step) :
    c.WellFormed ∧ c.depth < s.depth := by
  obtain ⟨m, hm, hc⟩ := List.mem_flatMap.1 hc
  obtain ⟨hwf, hlt⟩ := contentAt_wellFormed (hs.mem_alternatives hm) hc
  exact ⟨hwf, hlt.trans_le (depthOfAll_alternatives s ▸ depth_le_of_mem hm)⟩

/-- Shapes that mean the same have below a step what means the same. -/
theorem exists_child_of_same (h : s.same t = true) {c : Shape} (hc : c ∈ t.children step) :
    ∃ b ∈ s.children step, b.same c = true := by
  obtain ⟨n, hn, hc⟩ := List.mem_flatMap.1 hc
  obtain ⟨m, hm, hmn⟩ := exists_alternative_of_same h hn
  -- a child lies in one alternative, and some alternative of the other means the same
  suffices hb : ∃ b ∈ contentAt step m, b.same c = true by
    obtain ⟨b, hb, hbc⟩ := hb
    exact ⟨b, List.mem_flatMap.2 ⟨m, hm, hb⟩, hbc⟩
  cases same_cases hmn with
  | array hef =>
    cases step with
    | item => exact ⟨_, List.mem_singleton_self _, List.mem_singleton.1 hc ▸ hef⟩
    | member => exact absurd hc List.not_mem_nil
  | object halike =>
    cases step with
    | item => exact absurd hc List.not_mem_nil
    | member name =>
      obtain ⟨g, hg, rfl⟩ := Option.map_eq_some_iff.1 (Option.mem_toList.1 hc)
      have hrel := Field.rel_get?_of_forall₂ (fun _ _ ↦ Field.Alike.name) halike name
      rw [hg] at hrel
      cases hf : Field.get? _ name with
      | none => exact nomatch hf ▸ hrel
      | some f =>
        rw [hf] at hrel
        cases hrel with
        | some hfg => exact ⟨f.content, by simp [contentAt, hf], hfg.content⟩
  | _ => cases step <;> exact absurd hc List.not_mem_nil

/-! ### Names discovered by one shape after another -/

/-- The names that shapes have discovered, one shape after another. -/
def discoveredByAll : List Shape → List String
  | [] => []
  | x :: xs => joinNames x.discovered (discoveredByAll xs)

/-- Which names are new does not depend on how the lists before are grouped. -/
theorem joinNames_assoc (a b c : List String) :
    joinNames (joinNames a b) c = joinNames a (joinNames b c) := by
  simp only [joinNames, List.filter_append, List.filter_filter, List.append_assoc]
  congr 2
  refine List.filter_congr fun name _ ↦ ?_
  by_cases ha : name ∈ a <;> by_cases hb : name ∈ b <;> simp [ha, hb]

/-- The names of some shapes and then of others. -/
theorem discoveredByAll_append (xs ys : List Shape) :
    discoveredByAll (xs ++ ys) = joinNames (discoveredByAll xs) (discoveredByAll ys) := by
  induction xs with
  | nil => exact (joinNames_nil_left _).symm
  | cons x xs ih => rw [List.cons_append, discoveredByAll, ih, discoveredByAll, joinNames_assoc]

/-- A shape may stand for the shapes whose names it has discovered in their order. -/
theorem discoveredByAll_flatMap {l : List (Shape × List Shape)}
    (h : ∀ p ∈ l, p.1.discovered = discoveredByAll p.2) :
    discoveredByAll (l.map (·.1)) = discoveredByAll (l.flatMap (·.2)) := by
  induction l with
  | nil => rfl
  | cons p l ih =>
    obtain ⟨hp, hl⟩ := List.forall_mem_cons.1 h
    rw [List.map_cons, List.flatMap_cons, discoveredByAll, discoveredByAll_append, hp, ih hl]

/-- Shapes discover together no more than each of them. -/
theorem discoveredByAll_subset {names : List String} (h : ∀ x ∈ xs, x.discovered ⊆ names) :
    discoveredByAll xs ⊆ names := by
  induction xs with
  | nil => exact List.nil_subset names
  | cons x xs ih =>
    intro name hname
    rcases mem_joinNames.1 hname with hname | hname
    · exact h x List.mem_cons_self hname
    · exact ih (fun y hy ↦ h y (List.mem_cons_of_mem _ hy)) hname

/-! ### Listing -/

/-- At every position that is not given up, the shape has discovered what the shapes have, one after
another. -/
inductive Lists : Shape → List Shape → Prop
  | givenUp (xs : List Shape) : Lists unknown xs
  | seen {z : Shape} {xs : List Shape} (known : unknown ∉ xs)
      (order : z.discovered = discoveredByAll xs)
      (nothing : ∀ step, z.children step = [] → xs.flatMap (children step) = [])
      (below : ∀ step, ∀ c ∈ z.children step, Lists c (xs.flatMap (children step))) : Lists z xs

/-- Shapes that mean the same are all listed by the first. -/
theorem lists_of_same (hs : s.WellFormed) (hxs : ∀ x ∈ xs, x.WellFormed ∧ s.same x = true) :
    s.Lists (s :: xs) := by
  induction hd : s.depth using Nat.strong_induction_on generalizing s xs with
  | h d ih =>
    by_cases hne : s = unknown
    · exact hne ▸ .givenUp _
    have hchild : ∀ step, ∀ c ∈ xs.flatMap (children step),
        c.WellFormed ∧ ∃ b ∈ s.children step, b.same c = true := by
      intro step c hc
      obtain ⟨x, hx, hc⟩ := List.mem_flatMap.1 hc
      obtain ⟨hwf, hsame⟩ := hxs x hx
      exact ⟨(children_wellFormed hwf hc).1, exists_child_of_same hsame hc⟩
    refine .seen ?_ ?_ (fun step hnil ↦ ?_) fun step c hc ↦ ?_
    · rw [List.mem_cons, not_or]
      exact ⟨Ne.symm hne, fun hmem ↦ hne (eq_unknown_of_same (hxs _ hmem).2)⟩
    · refine (joinNames_of_subset (discoveredByAll_subset fun x hx ↦ ?_)).symm
      exact discovered_subset_of_same hs (hxs x hx).1 (hxs x hx).2
    · rw [List.flatMap_cons, hnil, List.nil_append]
      refine List.eq_nil_iff_forall_not_mem.2 fun c hc ↦ ?_
      obtain ⟨-, b, hb, -⟩ := hchild step c hc
      exact absurd (hnil ▸ hb) List.not_mem_nil
    · -- there is one child, and what the others have there means the same
      have hle := length_children_le hs step
      obtain ⟨hwf, hlt⟩ := children_wellFormed hs hc
      have hone : s.children step = [c] := by
        match s.children step, hle, hc with
        | [b], _, hc => rw [List.mem_singleton.1 hc]
      rw [List.flatMap_cons, hone, List.singleton_append]
      refine ih c.depth (hd ▸ hlt) hwf (fun x hx ↦ ?_) rfl
      obtain ⟨hx, b, hb, hbx⟩ := hchild step x hx
      rw [hone] at hb
      exact ⟨hx, List.mem_singleton.1 hb ▸ hbx⟩

theorem Lists.single (hs : s.WellFormed) : s.Lists [s] :=
  lists_of_same hs (fun _ h ↦ absurd h List.not_mem_nil)

/-- What lists shapes that list others lists all of these. -/
theorem Lists.flatten {l : List (Shape × List Shape)} (h : z.Lists (l.map (·.1)))
    (hl : ∀ p ∈ l, p.1.WellFormed ∧ p.1.Lists p.2) : z.Lists (l.flatMap (·.2)) := by
  generalize hxs : l.map (·.1) = xs at h
  induction h generalizing l with
  | givenUp => exact .givenUp _
  | @seen z xs known order nothing below ih =>
    subst hxs
    -- none of the shapes listed was given up, so each lists its own in full
    have hseen : ∀ p ∈ l, unknown ∉ p.2 ∧ p.1.discovered = discoveredByAll p.2 ∧
        (∀ step, p.1.children step = [] → p.2.flatMap (children step) = []) ∧
        ∀ step, ∀ c ∈ p.1.children step, Lists c (p.2.flatMap (children step)) := by
      intro p hp
      have hne : p.1 ≠ unknown := fun heq ↦ known (heq ▸ List.mem_map_of_mem hp)
      have hlists := (hl p hp).2
      generalize p.1 = a, p.2 = as at hne hlists
      cases hlists with
      | givenUp => exact absurd rfl hne
      | seen known order nothing below => exact ⟨known, order, nothing, below⟩
    refine .seen ?_ ?_ (fun step hnil ↦ ?_) fun step c hc ↦ ?_
    · intro hmem
      obtain ⟨p, hp, hmem⟩ := List.mem_flatMap.1 hmem
      exact (hseen p hp).1 hmem
    · rw [order]
      exact discoveredByAll_flatMap fun p hp ↦ (hseen p hp).2.1
    · have hnone := List.flatMap_eq_nil_iff.1 (nothing step hnil)
      rw [List.flatMap_assoc]
      exact List.flatMap_eq_nil_iff.2 fun p hp ↦
        (hseen p hp).2.2.1 step (hnone p.1 (List.mem_map_of_mem hp))
    · -- below a step, each shape has one child at most, and this lists what the others have there
      let children' (p : Shape × List Shape) : List (Shape × List Shape) :=
        (p.1.children step).map fun b ↦ (b, p.2.flatMap (children step))
      have hmap : (l.flatMap children').map (·.1) = (l.map (·.1)).flatMap (children step) := by
        simp [children', List.map_flatMap, List.flatMap_map, Function.comp_def]
      have hflat : (l.flatMap children').flatMap (·.2) =
          (l.flatMap (·.2)).flatMap (children step) := by
        rw [List.flatMap_assoc, List.flatMap_assoc]
        refine List.flatMap_congr fun p hp ↦ ?_
        have hle := length_children_le (hl p hp).1 step
        have hnothing := (hseen p hp).2.2.1 step
        match hb : p.1.children step, hle with
        | [], _ => simp [children', hb, hnothing hb]
        | [b], _ => simp [children', hb]
      rw [← hflat]
      refine ih step c hc (fun q hq ↦ ?_) hmap
      obtain ⟨p, hp, hq⟩ := List.mem_flatMap.1 hq
      obtain ⟨b, hb, rfl⟩ := List.mem_map.1 hq
      exact ⟨(children_wellFormed (hl p hp).1 hb).1, (hseen p hp).2.2.2 step b hb⟩

/-- What lists two shapes lists what they do. -/
theorem Lists.append (h : z.Lists [s, t]) (hs : s.WellFormed) (ht : t.WellFormed)
    (hxs : s.Lists xs) (hys : t.Lists ys) : z.Lists (xs ++ ys) := by
  have hpairs : ∀ p ∈ [(s, xs), (t, ys)], p.1.WellFormed ∧ p.1.Lists p.2 := by
    simpa using ⟨⟨hs, hxs⟩, ht, hys⟩
  simpa using Lists.flatten (l := [(s, xs), (t, ys)]) h hpairs

/-! ### One layer of a join -/

/-- Each of some shapes lists others, and there is one if there is any other. -/
def AccountFor (cs xs : List Shape) : Prop :=
  (cs = [] → xs = []) ∧ ∀ c ∈ cs, c.Lists xs

theorem accountFor_nil : AccountFor [] [] :=
  ⟨fun _ ↦ rfl, fun _ h ↦ absurd h List.not_mem_nil⟩

theorem accountFor_singleton (h : z.Lists xs) : AccountFor [z] xs :=
  ⟨fun hnil ↦ absurd hnil (List.cons_ne_nil _ _), fun _ hc ↦ List.mem_singleton.1 hc ▸ h⟩

/-- At most one well-formed shape lists itself. -/
theorem accountFor_self {cs : List Shape} (hle : cs.length ≤ 1) (hcs : ∀ c ∈ cs, c.WellFormed) :
    AccountFor cs cs := by
  match cs, hle with
  | [], _ => exact accountFor_nil
  | [c], _ => exact accountFor_singleton (.single (hcs c List.mem_cons_self))

/-- Of at most one shape on either side, combined as `f` does, the contents account for theirs if
those of two combined do. -/
theorem accountFor_reduce? {f : Shape → Shape → Shape} {os os' : List Shape} (hle : os.length ≤ 1)
    (hle' : os'.length ≤ 1) (hos : ∀ o ∈ os ++ os', o.WellFormed)
    (hf : ∀ o ∈ os, ∀ o' ∈ os',
      AccountFor (contentAt step (f o o')) (contentAt step o ++ contentAt step o')) :
    AccountFor ((reduce? f (os ++ os')).toList.flatMap (contentAt step))
      ((os ++ os').flatMap (contentAt step)) := by
  have hone : ∀ o ∈ os ++ os', AccountFor (contentAt step o) (contentAt step o) := fun o ho ↦
    accountFor_self (length_contentAt_le step o) fun c hc ↦ (contentAt_wellFormed (hos o ho) hc).1
  match os, os', hle, hle' with
  | [], [], _, _ => exact accountFor_nil
  | [o], [], _, _ => simpa [reduce?] using hone o (by simp)
  | [], [o'], _, _ => simpa [reduce?] using hone o' (by simp)
  | [o], [o'], _, _ => simpa [reduce?] using hf o (by simp) o' (by simp)

section Layer

variable {d : Nat} (hpart : ∀ x y, x.WellFormed → y.WellFormed → x.depth < d → y.depth < d →
  (part x y).Lists [x, y])
include hpart

/-- The field of a name lists what either object has under it. -/
theorem accountFor_joinField {f? g? : Option (Field Shape)} (name : String)
    (hf : ∀ f ∈ f?, f.content.WellFormed ∧ f.content.depth < d)
    (hg : ∀ g ∈ g?, g.content.WellFormed ∧ g.content.depth < d) :
    AccountFor ((joinField part name f? g?).map (·.content)).toList
      ((f?.map (·.content)).toList ++ (g?.map (·.content)).toList) := by
  match f?, g? with
  | none, none => exact accountFor_nil
  | some f, none => exact accountFor_singleton (.single (hf f rfl).1)
  | none, some g => exact accountFor_singleton (.single (hg g rfl).1)
  | some f, some g =>
    obtain ⟨hfw, hfd⟩ := hf f rfl
    obtain ⟨hgw, hgd⟩ := hg g rfl
    exact accountFor_singleton (hpart f.content g.content hfw hgw hfd hgd)

/-- Below a name the join of two objects has the join of what they have there, or what one of them
has, and that accounts for both. -/
theorem accountFor_joinObjects (hso : s.isObject = true) (hto : t.isObject = true)
    (hs : s.WellFormed) (ht : t.WellFormed) (hsd : s.depth ≤ d) (htd : t.depth ≤ d)
    (step : Step) : AccountFor (contentAt step (joinObjects part s t))
      (contentAt step s ++ contentAt step t) := by
  obtain ⟨fs, order, rfl⟩ := isObject_iff.1 hso
  obtain ⟨gs, order', rfl⟩ := isObject_iff.1 hto
  obtain ⟨ks, hjoin, -, -, hget⟩ := joinObjects_wellFormed part hs ht
  rw [hjoin]
  cases step with
  | item => exact accountFor_nil
  | member name =>
    simp only [contentAt, hget]
    refine accountFor_joinField hpart name (fun f hf ↦ ?_) fun g hg ↦ ?_
    · exact ⟨hs.of_get? hf, (depth_lt_of_get? order hf).trans_le hsd⟩
    · exact ⟨ht.of_get? hg, (depth_lt_of_get? order' hg).trans_le htd⟩

/-- Below the items, the join of two arrays has the join of their elements. Arrays that mean the
same are left as they are, and then their elements have discovered the same names. -/
theorem accountFor_joinArrays (hsa : s.isArray = true) (hta : t.isArray = true)
    (hs : s.WellFormed) (ht : t.WellFormed) (hsd : s.depth ≤ d) (htd : t.depth ≤ d)
    (step : Step) : AccountFor (contentAt step (joinArrays part s t))
      (contentAt step s ++ contentAt step t) := by
  cases step with
  | member name =>
    have hnone : ∀ {a : Shape}, a.isArray = true → contentAt (.member name) a = [] := fun ha ↦
      contentAt_eq_nil (Bool.eq_false_iff.1 (isPlain_of_isArray ha).2)
    rw [hnone (isArray_joinArrays hsa), hnone hsa, hnone hta]
    exact accountFor_nil
  | item =>
    match s, t, hsa, hta, hs, ht with
    | .emptyArray, .emptyArray, _, _, _, _ => exact accountFor_nil
    | .array e, .emptyArray, _, _, .array he, _ => exact accountFor_singleton (.single he)
    | .emptyArray, .array f, _, _, _, .array hf => exact accountFor_singleton (.single hf)
    | .array e, .array f, _, _, .array he, .array hf =>
      by_cases hsame : e.same f = true
      · rw [joinArrays_of_same (show (array e).same (.array f) = true from hsame)]
        refine accountFor_singleton (lists_of_same he fun x hx ↦ ?_)
        rw [List.mem_singleton.1 hx]
        exact ⟨hf, hsame⟩
      · rw [joinArrays_array_array hsame]
        exact accountFor_singleton (hpart e f he hf hsd htd)

/-- Below any step, one alternative of a join at most has anything, and it accounts for what both
operands have. -/
theorem accountFor_joinAlternatives (hs : s.WellFormed) (ht : t.WellFormed) (hsne : s ≠ unknown)
    (htne : t ≠ unknown) (hsd : s.depth ≤ d) (htd : t.depth ≤ d) (step : Step) :
    AccountFor ((joinAlternatives part (s.alternatives ++ t.alternatives)).children step)
      (s.children step ++ t.children step) := by
  have hmembers : ∀ m ∈ s.alternatives ++ t.alternatives,
      m.isPlain = true ∧ m.WellFormed ∧ m.depth ≤ d :=
    List.forall_mem_append.2
      ⟨hs.forall_mem_alternatives hsne hsd, ht.forall_mem_alternatives htne htd⟩
  have hplain : ∀ m ∈ s.alternatives ++ t.alternatives, m.isPlain = true :=
    fun m hm ↦ (hmembers m hm).1
  -- below a step only one kind of alternatives counts, of which each operand has one at most
  have hkind : ∀ {f : Shape → Shape → Shape}, (∀ x y, admits step x = true → admits step y = true →
      x.WellFormed → y.WellFormed → x.depth ≤ d → y.depth ≤ d →
        AccountFor (contentAt step (f x y)) (contentAt step x ++ contentAt step y)) →
      AccountFor ((reduce? f ((s.alternatives ++ t.alternatives).filter
        (admits step))).toList.flatMap (contentAt step)) (s.children step ++ t.children step) := by
    intro f hf
    rw [List.filter_append, children, children, ← flatMap_contentAt_filter step s.alternatives,
      ← flatMap_contentAt_filter step t.alternatives, ← List.flatMap_append]
    refine accountFor_reduce? (filter_admits_length_le hs step) (filter_admits_length_le ht step)
      (fun o ho ↦ ?_) fun o ho o' ho' ↦ ?_
    · rw [← List.filter_append] at ho
      exact (hmembers o (List.mem_filter.1 ho).1).2.1
    · obtain ⟨ho, hadmits⟩ := List.mem_filter.1 ho
      obtain ⟨ho', hadmits'⟩ := List.mem_filter.1 ho'
      obtain ⟨-, hwf, hdepth⟩ := hmembers o (List.mem_append_left _ ho)
      obtain ⟨-, hwf', hdepth'⟩ := hmembers o' (List.mem_append_right _ ho')
      exact hf o o' hadmits hadmits' hwf hwf' hdepth hdepth'
  rw [children, ← flatMap_contentAt_filter]
  cases step with
  | item =>
    rw [admits, filter_isArray_joinAlternatives hplain]
    exact hkind fun x y hx hy hxw hyw hxd hyd ↦
      accountFor_joinArrays hpart hx hy hxw hyw hxd hyd .item
  | member name =>
    rw [admits, filter_isObject_joinAlternatives hplain]
    exact hkind fun x y hx hy hxw hyw hxd hyd ↦
      accountFor_joinObjects hpart hx hy hxw hyw hxd hyd (.member name)

/-- What one layer of a join has below a step lists what the operands have there. -/
theorem accountFor_joinLayer (hs : s.WellFormed) (ht : t.WellFormed) (hsd : s.depth ≤ d)
    (htd : t.depth ≤ d) (hsame : ¬s.same t = true) (hsne : s ≠ unknown) (htne : t ≠ unknown)
    (hne : joinLayer part policy s t ≠ unknown) (step : Step) :
    AccountFor ((joinLayer part policy s t).children step)
      (s.children step ++ t.children step) := by
  have heq : joinLayer part policy s t = _ := joinLayer_eq hsame hsne htne
  rw [heq]
  split
  · next harrays =>
    obtain ⟨hsa, hta⟩ := Bool.and_eq_true_iff.1 harrays
    rw [children_of_isPlain (isPlain_of_isArray (isArray_joinArrays hsa)).1,
      children_of_isPlain (isPlain_of_isArray hsa).1,
      children_of_isPlain (isPlain_of_isArray hta).1]
    exact accountFor_joinArrays hpart hsa hta hs ht hsd htd step
  · next harrays =>
    split
    · next hobjects =>
      obtain ⟨hso, hto⟩ := Bool.and_eq_true_iff.1 hobjects
      rw [children_of_isPlain (isPlain_of_isObject (isObject_joinObjects hso)).1,
        children_of_isPlain (isPlain_of_isObject hso).1,
        children_of_isPlain (isPlain_of_isObject hto).1]
      exact accountFor_joinObjects hpart hso hto hs ht hsd htd step
    · next hobjects =>
      cases policy with
      | unknown => exact absurd (heq.trans ((if_neg harrays).trans (if_neg hobjects))) hne
      | union => exact accountFor_joinAlternatives hpart hs ht hsne htne hsd htd step

/-- One layer of a join lists the operands, if the layers below list theirs. -/
theorem lists_joinLayer (hs : s.WellFormed) (ht : t.WellFormed) (hsd : s.depth ≤ d)
    (htd : t.depth ≤ d) : (joinLayer part policy s t).Lists [s, t] := by
  by_cases hsame : s.same t = true
  · rw [joinLayer.eq_def, if_pos hsame]
    exact lists_of_same hs (by simpa using ⟨ht, hsame⟩)
  by_cases hsne : s = unknown
  · rw [hsne, joinLayer_unknown_left]
    exact .givenUp _
  by_cases htne : t = unknown
  · rw [htne, joinLayer_unknown_right]
    exact .givenUp _
  by_cases hne : joinLayer part policy s t = unknown
  · rw [hne]
    exact .givenUp _
  have hcontent := accountFor_joinLayer hpart hs ht hsd htd hsame hsne htne hne
  have hbelow : ∀ step, [s, t].flatMap (children step) = s.children step ++ t.children step :=
    fun step ↦ by rw [List.flatMap_cons, List.flatMap_singleton]
  refine .seen ?_ ?_ (fun step hnil ↦ ?_) fun step c hc ↦ ?_
  · simpa using ⟨Ne.symm hsne, Ne.symm htne⟩
  · rw [discoveredByAll, discoveredByAll, discoveredByAll, joinNames_nil_right]
    exact discovered_joinLayer hs ht hne
  · rw [hbelow, (hcontent step).1 hnil]
  · rw [hbelow]
    exact (hcontent step).2 c hc

end Layer

/-- By induction on the number of layers a join lists its operands, the first one first. -/
theorem lists_joinWithin {d : Nat} (hs : s.WellFormed) (ht : t.WellFormed) (hsd : s.depth ≤ d)
    (htd : t.depth ≤ d) : (joinWithin policy d s t).Lists [s, t] := by
  induction d generalizing s t with
  | zero => exact lists_joinLayer (fun x y _ _ hx ↦ absurd hx (Nat.not_lt_zero _)) hs ht hsd htd
  | succ d ih =>
    exact lists_joinLayer (fun x y hx hy hxd hyd ↦ ih hx hy (by omega) (by omega)) hs ht hsd htd

/-- The join of two well-formed shapes lists them. -/
theorem lists_join (hs : s.WellFormed) (ht : t.WellFormed) : (s.join policy t).Lists [s, t] :=
  lists_joinWithin hs ht (Nat.le_max_left _ _) (Nat.le_max_right _ _)

/-- The join of a list of well-formed shapes lists them. -/
theorem lists_joinAll (hxs : ∀ x ∈ xs, x.WellFormed) (h : joinAll policy xs = some z) :
    z.Lists xs := by
  have hfold : ∀ {xs ys : List Shape} {a : Shape}, a.WellFormed → a.Lists xs →
      (∀ y ∈ ys, y.WellFormed) → (ys.foldl (join policy) a).Lists (xs ++ ys) := by
    intro xs ys a ha hlists hys
    induction ys generalizing xs a with
    | nil => exact (List.append_nil xs).symm ▸ hlists
    | cons y ys ih =>
      obtain ⟨hy, hys⟩ := List.forall_mem_cons.1 hys
      have hjoin : (a.join policy y).Lists [a, y] := lists_join ha hy
      have hrest := ih (isJoin_join ha hy).wellFormed (hjoin.append ha hy hlists (.single hy)) hys
      rwa [List.append_assoc] at hrest
  cases xs with
  | nil => exact nomatch h
  | cons x xs =>
    obtain ⟨hx, hxs⟩ := List.forall_mem_cons.1 hxs
    rw [joinAll_cons, Option.some.injEq] at h
    exact h ▸ hfold hx (.single hx) hxs

end JsonShapes.Shape
