import JsonShapes.Proofs.Shape.Discovery
import JsonShapes.Proofs.Shape.Inference
import JsonShapes.Proofs.Shape.Shuffling

/-!
# Joins do not depend on how unions are enumerated

Joining two unions goes through their members as they come, and joins them to an object or an array
that may be a join already. The order of the members could show in that; it does not, as there is at
most one object and at most one array on either side, and what is neither is kept as it is. So
shuffles of well-formed shapes are joined to shuffles of the same shape, with the same order of
discovery in every object (`Shape.respects_join`).

What inference may give, if the unions that it makes are enumerated anew at each step, is a relation
(`Shape.Infers`), and all that it gives are shuffles (`Shape.Infers.shuffled`).

## Why it is enough to look at one layer

A join of two shapes joins parts of them, which may be shuffled in turn, so respecting shuffles is
stated of an operation that joins parts (`Respects`), and shown of one layer on the condition that
the layers below respect them (`respects_joinLayer`). The iteration is by induction on the number of
layers. Within a layer, shuffles of a list of alternatives have shuffled objects, shuffled arrays
and shuffled others (`Shuffle.filter`), the first two of length one at most.
-/

namespace JsonShapes.Shape

variable {policy : Policy} {part : Shape → Shape → Shape}

/-- Joining shuffles of well-formed shapes gives shuffles of the same shape. -/
def Respects (part : Shape → Shape → Shape) : Prop :=
  ∀ ⦃s s' t t' : Shape⦄, s.WellFormed → t.WellFormed → s.Shuffled s' → t.Shuffled t' →
    (part s t).Shuffled (part s' t')

/-! ### Lists of alternatives -/

theorem Shuffle.append {ms ns ks ls : List Shape} (h : Shuffle ms ns) (h' : Shuffle ks ls) :
    Shuffle (ms ++ ks) (ns ++ ls) := by
  obtain ⟨ms', h, hperm⟩ := h
  obtain ⟨ks', h', hperm'⟩ := h'
  exact ⟨ms' ++ ks', List.rel_append h h', hperm.append hperm'⟩

theorem Shuffle.of_forall₂ {ms ns : List Shape} (h : List.Forall₂ Shuffled ms ns) :
    Shuffle ms ns :=
  ⟨ns, h, .refl ns⟩

theorem Shuffle.of_perm {ms ns : List Shape} (h : ms.Perm ns) : Shuffle ms ns :=
  ⟨ms, List.forall₂_same.2 fun m _ ↦ .refl m, h⟩

/-- The alternatives of shuffles are shuffles, in some order. -/
theorem Shuffled.alternatives {s t : Shape} (h : s.Shuffled t) :
    Shuffle s.alternatives t.alternatives := by
  cases h with
  | union h hperm => exact ⟨_, h, hperm⟩
  | prim p => exact .of_forall₂ (.cons (.prim p) .nil)
  | emptyArray => exact .of_forall₂ (.cons .emptyArray .nil)
  | array h => exact .of_forall₂ (.cons (.array h) .nil)
  | object order h => exact .of_forall₂ (.cons (.object order h) .nil)
  | ref id => exact .of_forall₂ (.cons (.ref id) .nil)
  | foreign thing => exact .of_forall₂ (.cons (.foreign thing) .nil)

/-- If at most one member has a property that shuffles share, the ones that have it are shuffles of
each other. -/
theorem Shuffle.filter {ms ns : List Shape} (h : Shuffle ms ns) {p : Shape → Bool}
    (hp : ∀ {m n : Shape}, m.Shuffled n → p m = p n) (hle : (ms.filter p).length ≤ 1) :
    List.Forall₂ Shuffled (ms.filter p) (ns.filter p) := by
  obtain ⟨ms', h, hperm⟩ := h
  have hfilter : List.Forall₂ Shuffled (ms.filter p) (ms'.filter p) :=
    List.rel_filter (fun _ _ hmn ↦ iff_of_eq (congrArg (· = true) (hp hmn))) h
  have hperm : (ms'.filter p).Perm (ns.filter p) := hperm.filter p
  generalize ms'.filter p = l at hfilter hperm
  match l, hfilter.length_eq ▸ hle with
  | [], _ => rwa [hperm.nil_eq] at hfilter
  | [m], _ => rwa [List.singleton_perm.1 hperm] at hfilter

/-- Of what is neither an object nor an array, only the same shape means the same. -/
theorem eq_of_same_of_other {m n : Shape} (hm : m.WellFormed) (hplain : m.isPlain = true)
    (hother : (!m.isObject && !m.isArray) = true) (h : m.same n = true) : m = n := by
  cases same_cases h with
  | array => exact nomatch hother
  | object => exact nomatch hother
  | union => exact nomatch hplain
  | _ => rfl

/-- The alternatives that are neither objects nor arrays are the same, in whatever order. -/
theorem Shuffle.otherAlternatives {ms ns : List Shape} (h : Shuffle ms ns)
    (hms : ∀ m ∈ ms, m.isPlain = true ∧ m.WellFormed) :
    (otherAlternatives ms).Perm (otherAlternatives ns) := by
  obtain ⟨ms', h, hperm⟩ := h
  set p : Shape → Bool := fun m ↦ !m.isObject && !m.isArray with hp
  have hsame : ∀ m ∈ ms.filter p, ∀ n, m.same n = true → m = n := by
    intro m hm n hmn
    obtain ⟨hm, hother⟩ := List.mem_filter.1 hm
    exact eq_of_same_of_other (hms m hm).2 (hms m hm).1 hother hmn
  -- what is neither object nor array has nothing in it to shuffle
  have heq : ms.filter p = ms'.filter p := by
    have hfilter : List.Forall₂ Shuffled (ms.filter p) (ms'.filter p) := by
      refine List.rel_filter (fun m n hmn ↦ ?_) h
      rw [hp]
      simp only [isObject_of_same hmn.same, isArray_of_same hmn.same]
    exact List.forall₂_eq_eq_eq ▸ forall₂_imp_of_mem hfilter fun m hm n _ hmn ↦
      hsame m hm n hmn.same
  have hfilter : (ms.filter p).Perm (ns.filter p) := heq ▸ hperm.filter p
  have hmem : ∀ {l : List Shape}, l.Perm (ms.filter p) → ∀ k, k ∈ distinct l ↔ k ∈ l := by
    intro l hl k
    refine ⟨mem_of_mem_distinct, fun hk ↦ ?_⟩
    obtain ⟨k', hk', hkk'⟩ := exists_mem_distinct hk
    rwa [← hsame k' (hl.mem_iff.1 (mem_of_mem_distinct hk')) k hkk']
  have hnodup : ∀ l : List Shape, (distinct l).Nodup := fun l ↦
    (pairwise_distinct l).imp fun hdiffer heq ↦ by simp [heq, same_refl] at hdiffer
  refine (List.perm_ext_iff_of_nodup (hnodup _) (hnodup _)).2 fun k ↦ ?_
  rw [hmem (.refl _), hmem hfilter.symm, hfilter.mem_iff]

/-- The shapes with shuffled alternatives are shuffles. -/
theorem Shuffle.ofAlternatives {ms ns : List Shape} (h : Shuffle ms ns) :
    (ofAlternatives ms).Shuffled (ofAlternatives ns) := by
  obtain ⟨ms', h, hperm⟩ := h
  match ms, ms', h with
  | [], _, .nil =>
    rw [← hperm.nil_eq]
    exact .refl _
  | [m], [m'], .cons hm .nil =>
    rw [← List.singleton_perm.1 hperm]
    exact hm
  | m :: n :: rest, m' :: n' :: rest', h =>
    match ns, hperm with
    | [k], hperm => simpa using hperm.length_eq
    | k :: l :: ns, hperm => exact .union h hperm
    | [], hperm => simpa using hperm.length_eq

/-- Combining at most one shape with at most one other respects shuffling, if combining two does. -/
theorem shuffled_reduce? {f : Shape → Shape → Shape} {l r l' r' : List Shape} (hl : l.length ≤ 1)
    (hr : r.length ≤ 1) (hll' : List.Forall₂ Shuffled l l') (hrr' : List.Forall₂ Shuffled r r')
    (hf : ∀ x ∈ l, ∀ x' y', ∀ y ∈ r, x.Shuffled x' → y.Shuffled y' →
      (f x y).Shuffled (f x' y')) :
    List.Forall₂ Shuffled (reduce? f (l ++ r)).toList (reduce? f (l' ++ r')).toList := by
  match l, l', hll', r, r', hrr', hl, hr with
  | [], _, .nil, [], _, .nil, _, _ => exact .nil
  | [], _, .nil, [y], _, .cons hy .nil, _, _ => exact .cons hy .nil
  | [x], _, .cons hx .nil, [], _, .nil, _, _ => exact .cons hx .nil
  | [x], _, .cons hx .nil, [y], _, .cons hy .nil, _, _ =>
    exact .cons (hf x (by simp) _ _ y (by simp) hx hy) .nil

/-! ### Joins -/

section Layer

variable (hpart : Respects part)

include hpart

/-- Related fields on both sides are joined to related fields, or left as they are where one side
has none. -/
theorem rel_joinField (name : String) {f f' g g' : Option (Field Shape)}
    (hf : ∀ k ∈ f, k.content.WellFormed) (hg : ∀ k ∈ g, k.content.WellFormed)
    (hff' : Option.Rel (Field.Related Shuffled) f f')
    (hgg' : Option.Rel (Field.Related Shuffled) g g') :
    Option.Rel (Field.Related Shuffled) (joinField part name f g) (joinField part name f' g') := by
  cases hff' with
  | none =>
    cases hgg' with
    | none => exact .none
    | some hgg' => exact .some (.of_eq hgg'.name_eq rfl hgg'.related)
  | some hff' =>
    cases hgg' with
    | none => exact .some (.of_eq hff'.name_eq rfl hff'.related)
    | some hgg' =>
      refine .some (.of_eq rfl ?_ (hpart (hf _ rfl) (hg _ rfl) hff'.related hgg'.related))
      rw [hff'.optional_eq, hgg'.optional_eq]

/-- Joined objects list their names in the same order, whatever the contents. -/
theorem shuffled_joinObjects {s s' t t' : Shape} (hs : s.WellFormed) (ht : t.WellFormed)
    (hso : s.isObject = true) (hto : t.isObject = true) (hss' : s.Shuffled s')
    (htt' : t.Shuffled t') : (joinObjects part s t).Shuffled (joinObjects part s' t') := by
  obtain ⟨fs, order, rfl⟩ := isObject_iff.1 hso
  obtain ⟨gs, order', rfl⟩ := isObject_iff.1 hto
  cases hss' with
  | @object _ fs' _ hff' =>
  cases htt' with
  | @object _ gs' _ hgg' =>
    obtain ⟨ks, hjoin, hks, -, hget⟩ := joinObjects_wellFormed part hs ht
    obtain ⟨ks', hjoin', hks', -, hget'⟩ := joinObjects_wellFormed part
      (hs.shuffled (.object order hff')) (ht.shuffled (.object order' hgg'))
    rw [hjoin, hjoin']
    refine .object _ (Field.forall₂_of_get? hks hks' fun name ↦ ?_)
    rw [hget, hget']
    exact rel_joinField hpart name (fun k hk ↦ hs.of_get? hk) (fun k hk ↦ ht.of_get? hk)
      (Field.rel_get?_of_forall₂ (fun _ _ ↦ Field.Related.name_eq) hff' name)
      (Field.rel_get?_of_forall₂ (fun _ _ ↦ Field.Related.name_eq) hgg' name)

/-- Arrays are joined to shuffles. Where those on one side mean the same, so do those on the other,
and both are left as they are. -/
theorem shuffled_joinArrays {s s' t t' : Shape} (hs : s.WellFormed) (ht : t.WellFormed)
    (hsa : s.isArray = true) (hta : t.isArray = true) (hss' : s.Shuffled s')
    (htt' : t.Shuffled t') : (joinArrays part s t).Shuffled (joinArrays part s' t') := by
  have hsame : s.same t = s'.same t' := hss'.same_eq htt'
  rw [joinArrays.eq_def, joinArrays.eq_def, ← hsame]
  split
  · exact hss'
  · rcases isArray_iff.1 hsa with rfl | ⟨e, rfl⟩ <;>
      rcases isArray_iff.1 hta with rfl | ⟨f, rfl⟩ <;>
      cases hss' <;> cases htt'
    · exact .emptyArray
    · exact .array ‹_›
    · exact .array ‹_›
    · next he _ hf =>
      cases hs with
      | array hs =>
      cases ht with
      | array ht => exact .array (hpart hs ht he hf)

/-- A conflict is resolved in the same way, since there is one object and one array at most on
either side. -/
theorem shuffled_joinConflict {s s' t t' : Shape} (hs : s.WellFormed) (ht : t.WellFormed)
    (hsne : s ≠ unknown) (htne : t ≠ unknown) (hss' : s.Shuffled s') (htt' : t.Shuffled t') :
    (joinConflict part policy s t).Shuffled (joinConflict part policy s' t') := by
  cases policy with
  | unknown => exact .refl _
  | union =>
    have hsa := hs.assorted hsne
    have hta := ht.assorted htne
    have hmembers : ∀ m ∈ s.alternatives ++ t.alternatives, m.isPlain = true ∧ m.WellFormed :=
      List.forall_mem_append.2 ⟨fun m hm ↦ ⟨hsa.plain m hm, hs.mem_alternatives hm⟩,
        fun m hm ↦ ⟨hta.plain m hm, ht.mem_alternatives hm⟩⟩
    have hothers := (hss'.alternatives.append htt'.alternatives).otherAlternatives hmembers
    -- of each kind there is at most one alternative on either side
    have hkind : ∀ {p : Shape → Bool} {f : Shape → Shape → Shape},
        (∀ {m n : Shape}, m.Shuffled n → p m = p n) → s.alternatives.countP p ≤ 1 →
        t.alternatives.countP p ≤ 1 →
        (∀ {x x' y y' : Shape}, x.WellFormed → y.WellFormed → p x = true → p y = true →
          x.Shuffled x' → y.Shuffled y' → (f x y).Shuffled (f x' y')) →
        List.Forall₂ Shuffled
          (reduce? f ((s.alternatives ++ t.alternatives).filter p)).toList
          (reduce? f ((s'.alternatives ++ t'.alternatives).filter p)).toList := by
      intro p f hp hsp htp hf
      rw [List.countP_eq_length_filter] at hsp htp
      rw [List.filter_append, List.filter_append]
      refine shuffled_reduce? hsp htp (hss'.alternatives.filter hp hsp)
        (htt'.alternatives.filter hp htp) fun x hx x' y' y hy hxx' hyy' ↦ ?_
      obtain ⟨hx, hxp⟩ := List.mem_filter.1 hx
      obtain ⟨hy, hyp⟩ := List.mem_filter.1 hy
      exact hf (hs.mem_alternatives hx) (ht.mem_alternatives hy) hxp hyp hxx' hyy'
    have hobjects := hkind (fun hmn ↦ isObject_of_same hmn.same) hsa.objects hta.objects
      (shuffled_joinObjects hpart)
    have harrays := hkind (fun hmn ↦ isArray_of_same hmn.same) hsa.arrays hta.arrays
      (shuffled_joinArrays hpart)
    rw [joinConflict, joinConflict, joinAlternatives_eq, joinAlternatives_eq]
    exact (((Shuffle.of_perm hothers).append (.of_forall₂ hobjects)).append
      (.of_forall₂ harrays)).ofAlternatives

/-- One layer respects shuffling, if the layers below do. The branch that a join takes depends on
sameness, on being unknown and on the kinds of the two shapes, all of which shuffles share. -/
theorem respects_joinLayer : Respects (joinLayer part policy) := by
  intro s s' t t' hs ht hss' htt'
  have hsame : s.same t = s'.same t' := hss'.same_eq htt'
  by_cases h : s.same t = true
  · rw [joinLayer.eq_def, if_pos h, joinLayer.eq_def, if_pos (hsame ▸ h)]
    exact hss'
  by_cases hsne : s = unknown
  · subst hsne
    cases hss'
    rw [joinLayer_unknown_left, joinLayer_unknown_left]
    exact .refl _
  by_cases htne : t = unknown
  · subst htne
    cases htt'
    rw [joinLayer_unknown_right, joinLayer_unknown_right]
    exact .refl _
  -- what decides on the kind of the join is the same for shuffles
  have hsne' : s' ≠ unknown := by
    rintro rfl
    exact hsne (eq_unknown_of_same hss'.same)
  have htne' : t' ≠ unknown := by
    rintro rfl
    exact htne (eq_unknown_of_same htt'.same)
  rw [joinLayer_eq h hsne htne, joinLayer_eq (hsame ▸ h) hsne' htne',
    ← isArray_of_same hss'.same, ← isArray_of_same htt'.same, ← isObject_of_same hss'.same,
    ← isObject_of_same htt'.same]
  split
  · next harray =>
    rw [Bool.and_eq_true] at harray
    exact shuffled_joinArrays hpart hs ht harray.1 harray.2 hss' htt'
  · split
    · next hobject =>
      rw [Bool.and_eq_true] at hobject
      exact shuffled_joinObjects hpart hs ht hobject.1 hobject.2 hss' htt'
    · exact shuffled_joinConflict hpart hs ht hsne htne hss' htt'

end Layer

/-- By induction on the number of layers, joins of shuffles are shuffles. -/
theorem respects_joinWithin (d : Nat) : Respects (joinWithin policy d) := by
  induction d with
  | zero => exact respects_joinLayer fun _ _ _ _ _ _ hss' _ ↦ hss'
  | succ d ih => exact respects_joinLayer ih

/-- Shuffles of well-formed shapes are joined to shuffles of the same shape. -/
theorem respects_join : Respects (join policy) := by
  intro s s' t t' hs ht hss' htt'
  rw [join, join, ← hss'.depth_eq, ← htt'.depth_eq]
  exact respects_joinWithin _ hs ht hss' htt'

/-! ### Inference -/

/-- A shape that joining shapes to a first one after another may give, if the unions of each result
are enumerated anew. -/
inductive Joins (policy : Policy) : Shape → List Shape → Shape → Prop
  | nil {s t : Shape} (h : s.Shuffled t) : Joins policy s [] t
  | cons {s t u v : Shape} {rest : List Shape} (h : (s.join policy t).Shuffled u)
      (hrest : Joins policy u rest v) : Joins policy s (t :: rest) v

/-- A shape that inference may give for a value, if the unions of each join are enumerated anew. -/
inductive Infers (policy : Policy) : Json → Shape → Prop
  | null : Infers policy .null (.prim .null)
  | bool (b : Bool) : Infers policy (.bool b) (.prim .boolean)
  | number (n : Number) : Infers policy (.number n) (.prim .number)
  | string (s : String) : Infers policy (.string s) (.prim .string)
  | emptyArray : Infers policy (.array []) .emptyArray
  /-- The shapes of the items are joined from the left, each join with the enumeration that it
  happens upon. -/
  | array {item : Json} {items : List Json} {first element : Shape} {rest : List Shape}
      (hfirst : Infers policy item first) (hrest : List.Forall₂ (Infers policy) items rest)
      (h : Joins policy first rest element) :
      Infers policy (.array (item :: items)) (.array element)
  | object {members : List (String × Json)} {contents : List Shape}
      (h : List.Forall₂ (Infers policy) (members.map (·.2)) contents) :
      Infers policy (.object members)
        (ofFields (List.zipWith (fun member s ↦ ⟨member.1, false, s⟩) members contents) [])

/-- Joining shape after shape, with each outcome enumerated anew, leads to a shuffle of what joining
from the left leads to. -/
theorem Joins.shuffled {s s' t : Shape} {xs ys : List Shape} (h : Joins policy s' ys t)
    (hs : s.WellFormed) (hxs : ∀ x ∈ xs, x.WellFormed) (hss' : s.Shuffled s')
    (hxy : List.Forall₂ Shuffled xs ys) : (xs.foldl (join policy) s).Shuffled t := by
  induction h generalizing s xs with
  | nil h =>
    cases hxy
    exact hss'.trans h
  | cons h _ ih =>
    cases hxy with
    | @cons x _ xs _ hx hxy =>
      rw [List.forall_mem_cons] at hxs
      rw [List.foldl_cons]
      exact ih (isJoin_join hs hxs.1).wellFormed hxs.2
        ((respects_join hs hxs.1 hss' hx).trans h) hxy

/-- Whatever the enumerations, inference gives the same shape up to shuffling. By induction over the
value, with the joins of the items shuffled one after the other. -/
theorem Infers.shuffled {value : Json} {s : Shape} (h : Infers policy value s)
    (hkeyed : value.Keyed) : (ofJson policy value).Shuffled s := by
  induction value generalizing s with
  | null | bool _ | number _ | string _ =>
    cases h
    exact .prim _
  | array items ih =>
    cases hkeyed with
    | array hkeyed =>
    cases h with
    | emptyArray => exact .emptyArray
    | @array item items first element rest hfirst hrest hjoins =>
      rw [List.forall_mem_cons] at hkeyed ih
      rw [ofJson, ofItems_eq_map, List.map_cons, joinAll_cons]
      refine .array (hjoins.shuffled (wellFormed_ofJson hkeyed.1) ?_ (ih.1 hfirst hkeyed.1) ?_)
      · simpa using fun item hitem ↦ wellFormed_ofJson (hkeyed.2 item hitem)
      · exact List.forall₂_map_left_iff.2 (forall₂_imp_of_mem hrest fun item hitem _ _ h ↦
          ih.2 item hitem h (hkeyed.2 item hitem))
  | object members ih =>
    cases hkeyed with
    | object hnodup hkeyed =>
    -- that names are distinct would stand in the way of the induction on the members
    clear hnodup
    cases h with
    | @object _ contents h =>
      rw [ofJson, ofMemberList_eq_map]
      refine .ofFields [] ?_
      induction members generalizing contents with
      | nil =>
        cases h
        exact .nil
      | cons member members ihm =>
        cases h with
        | cons hvalue h =>
          rw [List.forall_mem_cons] at ih hkeyed
          exact .cons ⟨_, _, ih.1 hvalue hkeyed.1⟩ (ihm ih.2 hkeyed.2 h)

end JsonShapes.Shape
