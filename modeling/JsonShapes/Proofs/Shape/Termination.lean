import JsonShapes.Proofs.Shape.Inference
import Mathlib.Data.List.Permutation

/-!
# Joining comes to an end

`Shape.join` is bounded by the number of layers that its operands have. Here joining is described
without a bound, by what is done after what (`Shape.JoinEnds`): the parts of two arrays and of two
objects are joined one after another, and the members of two unions are gathered one by one, in
whichever order each union is enumerated, an object being joined to what the objects before it have
become. That all of this comes to an end is said together with what is known of the shape that is
left.

The recursion is on no part of the operands, since what was gathered so far is none. What decreases
is the number of layers: whatever was gathered has no more than the alternatives, as joins are no
deeper than their operands, and the contents of its fields have fewer. So it is of shapes of fewer
than `n` layers that joining is shown to end with such a shape (`JoinEnds.of_shallow`), by induction
on `n`. Among the shapes that may be left is the one that `join` makes (`JoinEnds.join`).

## What is assumed of the operands

Nothing but that objects list the names of their fields (`Listed`). Unions may have members that
mean the same, may have several objects and several arrays, and may lie in unions; joining gathers
them as they come. So this is about more than well-formed shapes, and in particular about everything
that joining itself may meet on its way.

That some enumerations were left out is excluded by the way in which ending is defined. `JoinEnds`
has one rule for each case, and in the case of two unions it asks for all rearrangements of the
members on either side. Only if every one of them ends does joining end.
-/

namespace JsonShapes

namespace Shape

variable {policy : Policy} {part : Shape → Shape → Shape} {s t : Shape} {n : Nat}

/-- Two shapes that only a policy can join. -/
structure Conflict (s t : Shape) : Prop where
  /-- They are not the same. -/
  differ : s.same t = false
  /-- Neither is unknown. -/
  left_known : s ≠ unknown
  right_known : t ≠ unknown
  /-- They are not both objects, whose fields could be joined. -/
  objects : (s.isObject && t.isObject) = false
  /-- They are not both arrays, whose elements could be joined. -/
  arrays : (s.isArray && t.isArray) = false

/-- The alternatives with one more that is neither an object nor an array. -/
def addOther (others : List Shape) (m : Shape) : List Shape :=
  if anySame others m then others else others ++ [m]

/-- An alternative that is gathered was there or is the one that was added. -/
theorem mem_of_mem_addOther {others : List Shape} {m k : Shape} (h : k ∈ addOther others m) :
    k ∈ others ∨ k = m := by
  rw [addOther] at h
  split at h
  · exact .inl h
  · exact (List.mem_append.1 h).imp_right List.mem_singleton.1

mutual

/-- Joining two shapes comes to an end, however unions are enumerated, and always with a shape that
has the property. -/
inductive JoinEnds (policy : Policy) : Shape → Shape → (Shape → Prop) → Prop
  /-- Equal shapes are joined to the first. -/
  | same {s t : Shape} {P : Shape → Prop} (hsame : s.same t = true) (h : P s) :
      JoinEnds policy s t P
  /-- The unknown absorbs what is joined to it. -/
  | unknownLeft {t : Shape} {P : Shape → Prop} (hsame : unknown.same t = false) (h : P unknown) :
      JoinEnds policy unknown t P
  /-- It does so on either side. -/
  | unknownRight {s : Shape} {P : Shape → Prop} (hsame : s.same unknown = false) (h : P unknown) :
      JoinEnds policy s unknown P
  /-- An array of which no item was seen gives way to one with an element. -/
  | emptyLeft {f : Shape} {P : Shape → Prop} (h : P (.array f)) :
      JoinEnds policy .emptyArray (.array f) P
  /-- It does so on either side. -/
  | emptyRight {e : Shape} {P : Shape → Prop} (h : P (.array e)) :
      JoinEnds policy (.array e) .emptyArray P
  /-- Arrays are joined by their elements. -/
  | arrays {e f : Shape} {P : Shape → Prop} (hsame : e.same f = false)
      (h : JoinEnds policy e f fun z ↦ P (.array z)) : JoinEnds policy (.array e) (.array f) P
  /-- Objects are joined field by field. -/
  | objects {s t : Shape} {P : Shape → Prop} (hsame : s.same t = false)
      (h : ObjectsEnd policy s t P) : JoinEnds policy s t P
  /-- A conflict leaves the unknown where the policy gives up. -/
  | givenUp {s t : Shape} {P : Shape → Prop} (hpolicy : policy = .unknown)
      (hconflict : Conflict s t) (h : P unknown) : JoinEnds policy s t P
  /-- Else the alternatives of both are gathered, in whatever order they are enumerated. -/
  | gathered {s t : Shape} {P : Shape → Prop} (hpolicy : policy = .union)
      (hconflict : Conflict s t)
      (h : ∀ ms ns, ms.Perm s.alternatives → ns.Perm t.alternatives →
        AlternativesEnd policy none none [] (ms ++ ns) P) : JoinEnds policy s t P

/-- Joining two objects comes to an end. -/
inductive ObjectsEnd (policy : Policy) : Shape → Shape → (Shape → Prop) → Prop
  | fields {fs gs : List (Field Shape)} {order order' : List String} {P : Shape → Prop}
      (h : FieldsEnd policy fs gs (joinNames order order') fun ks ↦
        P (ofFields ks (joinNames order order'))) :
      ObjectsEnd policy (.object fs order) (.object gs order') P

/-- Joining the fields of two objects comes to an end, name after name. A name that neither of them
has cannot be got past. -/
inductive FieldsEnd (policy : Policy) : List (Field Shape) → List (Field Shape) → List String →
    (List (Field Shape) → Prop) → Prop
  /-- All names are done. -/
  | nil {fs gs : List (Field Shape)} {P : List (Field Shape) → Prop} (h : P []) :
      FieldsEnd policy fs gs [] P
  /-- A name that both have is joined by content. -/
  | both {fs gs : List (Field Shape)} {name : String} {names : List String} {f g : Field Shape}
      {P : List (Field Shape) → Prop} {Q : Shape → Prop} (hf : Field.get? fs name = some f)
      (hg : Field.get? gs name = some g) (hcontent : JoinEnds policy f.content g.content Q)
      (h : ∀ z, Q z → FieldsEnd policy fs gs names fun ks ↦
        P (⟨name, f.optional || g.optional, z⟩ :: ks)) : FieldsEnd policy fs gs (name :: names) P
  /-- One that only the first has is kept as optional. -/
  | left {fs gs : List (Field Shape)} {name : String} {names : List String} {f : Field Shape}
      {P : List (Field Shape) → Prop} (hf : Field.get? fs name = some f)
      (hg : Field.get? gs name = none)
      (h : FieldsEnd policy fs gs names fun ks ↦ P ({ f with optional := true } :: ks)) :
      FieldsEnd policy fs gs (name :: names) P
  /-- So is one that only the second has. -/
  | right {fs gs : List (Field Shape)} {name : String} {names : List String} {g : Field Shape}
      {P : List (Field Shape) → Prop} (hf : Field.get? fs name = none)
      (hg : Field.get? gs name = some g)
      (h : FieldsEnd policy fs gs names fun ks ↦ P ({ g with optional := true } :: ks)) :
      FieldsEnd policy fs gs (name :: names) P

/-- Gathering alternatives comes to an end, with what the objects met so far have become, what the
arrays have become, and the others. -/
inductive AlternativesEnd (policy : Policy) : Option Shape → Option Shape → List Shape →
    List Shape → (Shape → Prop) → Prop
  /-- All alternatives are done: the objects were joined to one, and the arrays. -/
  | nil {object? array? : Option Shape} {others : List Shape} {P : Shape → Prop}
      (h : P (ofAlternatives (others ++ object?.toList ++ array?.toList))) :
      AlternativesEnd policy object? array? others [] P
  | firstObject {m : Shape} {array? : Option Shape} {others ms : List Shape} {P : Shape → Prop}
      (hm : m.isObject = true) (h : AlternativesEnd policy (some m) array? others ms P) :
      AlternativesEnd policy none array? others (m :: ms) P
  /-- A further object is joined to what the objects before it were joined to. -/
  | object {known m : Shape} {array? : Option Shape} {others ms : List Shape}
      {P Q : Shape → Prop} (hm : m.isObject = true) (hjoin : ObjectsEnd policy known m Q)
      (h : ∀ z, Q z → AlternativesEnd policy (some z) array? others ms P) :
      AlternativesEnd policy (some known) array? others (m :: ms) P
  | firstArray {m : Shape} {object? : Option Shape} {others ms : List Shape} {P : Shape → Prop}
      (hm : m.isArray = true) (h : AlternativesEnd policy object? (some m) others ms P) :
      AlternativesEnd policy object? none others (m :: ms) P
  /-- So is a further array. -/
  | array {known m : Shape} {object? : Option Shape} {others ms : List Shape}
      {P Q : Shape → Prop} (hm : m.isArray = true) (hjoin : JoinEnds policy known m Q)
      (h : ∀ z, Q z → AlternativesEnd policy object? (some z) others ms P) :
      AlternativesEnd policy object? (some known) others (m :: ms) P
  /-- What is neither is kept, unless an equal one was. -/
  | other {m : Shape} {object? array? : Option Shape} {others ms : List Shape} {P : Shape → Prop}
      (hmo : m.isObject = false) (hma : m.isArray = false)
      (h : AlternativesEnd policy object? array? (addOther others m) ms P) :
      AlternativesEnd policy object? array? others (m :: ms) P

end

/-! ### Joining ends -/

section Layer

variable (hends : ∀ x y (P : Shape → Prop), x.Shallow n → y.Shallow n → (∀ z, z.Shallow n → P z) →
    JoinEnds policy x y P)

include hends

/-- Joining the fields under some names ends, with a field of fewer layers for each name, if joining
any two contents does. The induction is on the names that are left. -/
theorem FieldsEnd.of_shallow {fs gs : List (Field Shape)} (hfs : ∀ f ∈ fs, f.content.Shallow n)
    (hgs : ∀ g ∈ gs, g.content.Shallow n) {names : List String}
    (hnames : ∀ name ∈ names, name ∈ fs.map (·.name) ∨ name ∈ gs.map (·.name))
    {P : List (Field Shape) → Prop}
    (h : ∀ ks, ks.map (·.name) = names → (∀ k ∈ ks, k.content.Shallow n) → P ks) :
    FieldsEnd policy fs gs names P := by
  induction names generalizing P with
  | nil => exact .nil (h [] rfl nofun)
  | cons name names ih =>
    obtain ⟨hname, hnames⟩ := List.forall_mem_cons.1 hnames
    -- whatever the field of this name has become, the others are added to it
    have hrest : ∀ k : Field Shape, k.name = name → k.content.Shallow n →
        FieldsEnd policy fs gs names fun ks ↦ P (k :: ks) := by
      intro k hk hcontent
      refine ih hnames fun ks hks hcontents ↦ h _ ?_ (List.forall_mem_cons.2 ⟨hcontent, hcontents⟩)
      rw [List.map_cons, hk, hks]
    cases hf : Field.get? fs name with
    | none =>
      cases hg : Field.get? gs name with
      | none => exact absurd hname (not_or.2
          ⟨Field.get?_eq_none_iff.1 hf, Field.get?_eq_none_iff.1 hg⟩)
      | some g =>
        have hgn : g.name = name := Field.name_of_get? hg
        exact .right hf hg (hrest _ hgn (hgs g (Field.mem_of_get? hg)))
    | some f =>
      have hfn : f.name = name := Field.name_of_get? hf
      have hcontent : f.content.Shallow n := hfs f (Field.mem_of_get? hf)
      cases hg : Field.get? gs name with
      | none => exact .left hf hg (hrest _ hfn hcontent)
      | some g =>
        exact .both hf hg (hends _ _ _ hcontent (hgs g (Field.mem_of_get? hg)) fun z hz ↦ hz)
          fun z hz ↦ hrest _ rfl hz

/-- So joining two objects ends with an object that has no more layers than they have. -/
theorem ObjectsEnd.of_shallow (hso : s.isObject = true) (hto : t.isObject = true)
    (hs : s.Shallow (n + 1)) (ht : t.Shallow (n + 1)) {P : Shape → Prop}
    (h : ∀ z, z.isObject = true → z.Shallow (n + 1) → P z) : ObjectsEnd policy s t P := by
  obtain ⟨fs, order, rfl⟩ := isObject_iff.1 hso
  obtain ⟨gs, order', rfl⟩ := isObject_iff.1 hto
  obtain ⟨hn, hlisted, hfs⟩ := shallow_object.1 hs
  obtain ⟨-, hlisted', hgs⟩ := shallow_object.1 ht
  refine .fields (FieldsEnd.of_shallow hends hfs hgs (fun name hname ↦ ?_) fun ks hks hcontents ↦
    h _ rfl (shallow_ofFields hn hks hcontents))
  rw [← hlisted.mem_iff, ← hlisted'.mem_iff]
  exact mem_joinNames.1 hname

/-- And so does joining two arrays. -/
theorem JoinEnds.of_arrays (hsa : s.isArray = true) (hta : t.isArray = true)
    (hs : s.Shallow (n + 1)) (ht : t.Shallow (n + 1)) {P : Shape → Prop}
    (h : ∀ z, z.isArray = true → z.Shallow (n + 1) → P z) : JoinEnds policy s t P := by
  by_cases hsame : s.same t = true
  · exact .same hsame (h s hsa hs)
  match s, t, hsa, hta with
  | .emptyArray, .emptyArray, _, _ => exact absurd (same_refl _) hsame
  | .emptyArray, .array f, _, _ => exact .emptyLeft (h _ rfl ht)
  | .array e, .emptyArray, _, _ => exact .emptyRight (h _ rfl hs)
  | .array e, .array f, _, _ =>
    exact .arrays (Bool.eq_false_iff.2 hsame) (hends e f _ (shallow_array.1 hs)
      (shallow_array.1 ht) fun z hz ↦ h _ rfl (shallow_array.2 hz))

/-- Gathering ends, if neither what was gathered so far nor what is to come has too many layers. By
induction over the members still to come; what was gathered stays as shallow as they are, since a
join adds no layer. -/
theorem AlternativesEnd.of_shallow {ms others : List Shape} {object? array? : Option Shape}
    (hobject : ∀ k ∈ object?, k.isObject = true ∧ k.Shallow (n + 1))
    (harray : ∀ k ∈ array?, k.isArray = true ∧ k.Shallow (n + 1))
    (hothers : ∀ m ∈ others, m.Shallow (n + 1)) (hms : ∀ m ∈ ms, m.Shallow (n + 1))
    {P : Shape → Prop} (h : ∀ z, z.Shallow (n + 1) → P z) :
    AlternativesEnd policy object? array? others ms P := by
  induction ms generalizing object? array? others with
  | nil =>
    refine .nil (h _ (shallow_ofAlternatives fun k hk ↦ ?_))
    rcases List.mem_append.1 hk with hk | hk
    · exact (List.mem_append.1 hk).elim (hothers k) fun hk ↦ (hobject k (Option.mem_toList.1 hk)).2
    · exact (harray k (Option.mem_toList.1 hk)).2
  | cons m ms ih =>
    obtain ⟨hm, hms⟩ := List.forall_mem_cons.1 hms
    by_cases hmo : m.isObject = true
    · cases object? with
      | none => exact .firstObject hmo (ih (by simpa using ⟨hmo, hm⟩) harray hothers hms)
      | some known =>
        -- what the objects become has no more layers than they have, so it can be joined again
        obtain ⟨hko, hk⟩ := hobject known rfl
        have hjoin : ObjectsEnd policy known m fun z ↦ z.isObject = true ∧ z.Shallow (n + 1) :=
          .of_shallow hends hko hmo hk hm fun z hzo hz ↦ ⟨hzo, hz⟩
        exact .object hmo hjoin fun z hz ↦ ih (by simpa using hz) harray hothers hms
    · by_cases hma : m.isArray = true
      · cases array? with
        | none => exact .firstArray hma (ih hobject (by simpa using ⟨hma, hm⟩) hothers hms)
        | some known =>
          obtain ⟨hka, hk⟩ := harray known rfl
          have hjoin : JoinEnds policy known m fun z ↦ z.isArray = true ∧ z.Shallow (n + 1) :=
            .of_arrays hends hka hma hk hm fun z hza hz ↦ ⟨hza, hz⟩
          exact .array hma hjoin fun z hz ↦ ih hobject (by simpa using hz) hothers hms
      · refine .other (Bool.eq_false_iff.2 hmo) (Bool.eq_false_iff.2 hma)
          (ih hobject harray (fun k hk ↦ ?_) hms)
        exact (mem_of_mem_addOther hk).elim (hothers k) fun hk ↦ hk ▸ hm

/-- One layer more: the cases are those of the judgment, and in that of alternatives these are
gathered one by one, with at most one object and one array so far. -/
theorem JoinEnds.of_layer (hs : s.Shallow (n + 1)) (ht : t.Shallow (n + 1)) {P : Shape → Prop}
    (h : ∀ z, z.Shallow (n + 1) → P z) : JoinEnds policy s t P := by
  by_cases hsame : s.same t = true
  · exact .same hsame (h s hs)
  have hdiffer : s.same t = false := Bool.eq_false_iff.2 hsame
  by_cases hsne : s = unknown
  · subst hsne
    exact .unknownLeft hdiffer (h _ (shallow_prim _))
  by_cases htne : t = unknown
  · subst htne
    exact .unknownRight hdiffer (h _ (shallow_prim _))
  by_cases ho : (s.isObject && t.isObject) = true
  · obtain ⟨hso, hto⟩ := Bool.and_eq_true_iff.1 ho
    exact .objects hdiffer (ObjectsEnd.of_shallow hends hso hto hs ht fun z _ ↦ h z)
  by_cases ha : (s.isArray && t.isArray) = true
  · obtain ⟨hsa, hta⟩ := Bool.and_eq_true_iff.1 ha
    exact .of_arrays hends hsa hta hs ht fun z _ ↦ h z
  have hconflict : Conflict s t :=
    ⟨hdiffer, hsne, htne, Bool.eq_false_iff.2 ho, Bool.eq_false_iff.2 ha⟩
  cases policy with
  | unknown => exact .givenUp rfl hconflict (h _ (shallow_prim _))
  | union =>
    refine .gathered rfl hconflict fun ms ns hms hns ↦ .of_shallow hends (by simp) (by simp)
      (by simp) (List.forall_mem_append.2 ⟨?_, ?_⟩) h
    · exact fun m hm ↦ shallow_iff_alternatives.1 hs m (hms.mem_iff.1 hm)
    · exact fun m hm ↦ shallow_iff_alternatives.1 ht m (hns.mem_iff.1 hm)

end Layer

/-- Joining shapes of fewer than `n` layers ends with such a shape. -/
theorem JoinEnds.of_shallow {P : Shape → Prop} (hs : s.Shallow n) (ht : t.Shallow n)
    (h : ∀ z, z.Shallow n → P z) : JoinEnds policy s t P := by
  induction n generalizing s t P with
  | zero => exact absurd hs (not_shallow_zero s)
  | succ n ih => exact .of_layer (fun _ _ _ ↦ ih) hs ht h

/-! ### What joining ends with -/

/-- Shapes that are neither equal nor both objects nor both arrays are left to the policy. -/
theorem Conflict.joinLayer_eq (h : Conflict s t) :
    joinLayer part policy s t = joinConflict part policy s t := by
  rw [Shape.joinLayer_eq (Bool.eq_false_iff.1 h.differ) h.left_known h.right_known, h.objects,
    h.arrays]
  rfl

theorem joinFields_cons {names : List String} {name : String} {fs gs : List (Field Shape)}
    {k : Field Shape}
    (h : joinField part name (Field.get? fs name) (Field.get? gs name) = some k) :
    joinFields part (name :: names) fs gs = k :: joinFields part names fs gs :=
  List.filterMap_cons_some h

theorem reduce?_cons_cons {α : Type} (f : α → α → α) (a b : α) (l : List α) :
    reduce? f (a :: b :: l) = reduce? f (f a b :: l) :=
  rfl

/-- Two arrays are joined as arrays, also if they mean the same. -/
theorem joinLayer_of_isArray (hsa : s.isArray = true) (hta : t.isArray = true) :
    joinLayer part policy s t = Shape.joinArrays part s t := by
  by_cases hsame : s.same t = true
  · rw [joinArrays_of_same hsame]
    exact if_pos hsame
  · have hsne : s ≠ unknown := fun h ↦ nomatch h ▸ hsa
    have htne : t ≠ unknown := fun h ↦ nomatch h ▸ hta
    rw [joinLayer_eq hsame hsne htne, hsa, hta]
    rfl

section Layer

variable (hjoin : ∀ x y (P : Shape → Prop), x.Shallow n → y.Shallow n → JoinEnds policy x y P →
    P (x.join policy y))

include hjoin

/-- Whatever holds of all fields that joining may end with holds of those that `joinFields` makes.
-/
theorem FieldsEnd.joinFields {fs gs : List (Field Shape)} (hfs : ∀ f ∈ fs, f.content.Shallow n)
    (hgs : ∀ g ∈ gs, g.content.Shallow n) {names : List String} {P : List (Field Shape) → Prop}
    (h : FieldsEnd policy fs gs names P) : P (Shape.joinFields (join policy) names fs gs) := by
  induction names generalizing P with
  | nil =>
    cases h with
    | nil h => exact h
  | cons name names ih =>
    cases h with
    | @both _ _ _ _ f g _ Q hf hg hcontent h =>
      have hz : Q (f.content.join policy g.content) :=
        hjoin _ _ Q (hfs f (Field.mem_of_get? hf)) (hgs g (Field.mem_of_get? hg)) hcontent
      rw [joinFields_cons (by rw [hf, hg]; rfl)]
      exact ih (h _ hz)
    | left hf hg h =>
      rw [joinFields_cons (by rw [hf, hg]; rfl)]
      exact ih h
    | right hf hg h =>
      rw [joinFields_cons (by rw [hf, hg]; rfl)]
      exact ih h

/-- The same for two objects. -/
theorem ObjectsEnd.joinObjects {P : Shape → Prop} (hs : s.Shallow (n + 1))
    (ht : t.Shallow (n + 1)) (h : ObjectsEnd policy s t P) :
    P (Shape.joinObjects (join policy) s t) := by
  cases h with
  | fields h =>
    obtain ⟨-, -, hfs⟩ := shallow_object.1 hs
    obtain ⟨-, -, hgs⟩ := shallow_object.1 ht
    exact h.joinFields hjoin hfs hgs

/-- The same for two arrays. -/
theorem JoinEnds.joinArrays {P : Shape → Prop} (hsa : s.isArray = true) (hta : t.isArray = true)
    (hs : s.Shallow (n + 1)) (ht : t.Shallow (n + 1)) (h : JoinEnds policy s t P) :
    P (Shape.joinArrays (join policy) s t) := by
  cases h with
  | same hsame h =>
    rw [joinArrays_of_same hsame]
    exact h
  | unknownLeft => exact nomatch hsa
  | unknownRight => exact nomatch hta
  | emptyLeft h => exact h
  | emptyRight h => exact h
  | arrays hsame h =>
    rw [joinArrays_array_array (Bool.eq_false_iff.1 hsame)]
    exact hjoin _ _ _ (shallow_array.1 hs) (shallow_array.1 ht) h
  | objects _ h =>
    cases h
    exact nomatch hsa
  | givenUp _ hconflict => exact absurd hconflict.arrays (by simp [hsa, hta])
  | gathered _ hconflict => exact absurd hconflict.arrays (by simp [hsa, hta])

/-- Gathering ends with what the objects, the arrays and the others of the list are, behind those
gathered before. -/
theorem AlternativesEnd.joinAlternatives {ms others : List Shape} {object? array? : Option Shape}
    (hobject : ∀ k ∈ object?, k.Shallow (n + 1))
    (harray : ∀ k ∈ array?, k.isArray = true ∧ k.Shallow (n + 1))
    (hms : ∀ m ∈ ms, m.Shallow (n + 1)) {P : Shape → Prop}
    (h : AlternativesEnd policy object? array? others ms P) :
    P (ofAlternatives ((ms.filter fun m ↦ !m.isObject && !m.isArray).foldl addOther others ++
      (reduce? (Shape.joinObjects (join policy)) (object?.toList ++ ms.filter isObject)).toList ++
      (reduce? (Shape.joinArrays (join policy)) (array?.toList ++ ms.filter isArray)).toList)) := by
  induction ms generalizing object? array? others with
  | nil =>
    cases h with
    | nil h =>
      cases object? <;> cases array? <;> exact h
  | cons m ms ih =>
    obtain ⟨hm, hms⟩ := List.forall_mem_cons.1 hms
    cases h with
    | firstObject hmo h =>
      have hma : m.isArray = false := (isPlain_of_isObject hmo).2
      simpa [hmo, hma] using ih (by simpa using hm) harray hms h
    | @object known _ _ _ _ _ _ hmo hends h =>
      have hma : m.isArray = false := (isPlain_of_isObject hmo).2
      have hk : known.Shallow (n + 1) := hobject known rfl
      have hkm : (Shape.joinObjects (join policy) known m).Shallow (n + 1) :=
        shallow_joinObjects (fun _ _ ↦ shallow_join) hk hm
      simpa [hmo, hma, reduce?_cons_cons] using
        ih (by simpa using hkm) harray hms (h _ (hends.joinObjects hjoin hk hm))
    | firstArray hma h =>
      have hmo : m.isObject = false := (isPlain_of_isArray hma).2
      simpa [hmo, hma] using ih hobject (by simpa using ⟨hma, hm⟩) hms h
    | @array known _ _ _ _ _ _ hma hends h =>
      have hmo : m.isObject = false := (isPlain_of_isArray hma).2
      obtain ⟨hka, hk⟩ := harray known rfl
      have hkm : (Shape.joinArrays (join policy) known m).Shallow (n + 1) :=
        shallow_joinArrays (fun _ _ ↦ shallow_join) hk hm
      simpa [hmo, hma, reduce?_cons_cons] using
        ih hobject (by simpa using ⟨isArray_joinArrays hka, hkm⟩) hms
          (h _ (hends.joinArrays hjoin hka hma hk hm))
    | other hmo hma h => simpa [hmo, hma] using ih hobject harray hms h

/-- The same for one layer. Of the enumerations that the judgment allows, the one at hand is taken.
-/
theorem JoinEnds.joinLayer {P : Shape → Prop} (hs : s.Shallow (n + 1)) (ht : t.Shallow (n + 1))
    (h : JoinEnds policy s t P) : P (Shape.joinLayer (join policy) policy s t) := by
  by_cases harrays : (s.isArray && t.isArray) = true
  · obtain ⟨hsa, hta⟩ := Bool.and_eq_true_iff.1 harrays
    rw [joinLayer_of_isArray hsa hta]
    exact h.joinArrays hjoin hsa hta hs ht
  cases h with
  | same hsame h =>
    rw [Shape.joinLayer.eq_def, if_pos hsame]
    exact h
  | unknownLeft _ h => rwa [joinLayer_unknown_left]
  | unknownRight _ h => rwa [joinLayer_unknown_right]
  | emptyLeft => exact absurd rfl harrays
  | emptyRight => exact absurd rfl harrays
  | arrays => exact absurd rfl harrays
  | objects hsame h =>
    have hobjects := h.joinObjects hjoin hs ht
    cases h with
    | fields =>
      rw [Shape.joinLayer, if_neg (Bool.eq_false_iff.1 hsame)]
      exact hobjects
  | givenUp hpolicy hconflict h =>
    subst hpolicy
    rw [hconflict.joinLayer_eq]
    exact h
  | gathered hpolicy hconflict h =>
    subst hpolicy
    rw [hconflict.joinLayer_eq]
    exact (h _ _ (.refl _) (.refl _)).joinAlternatives hjoin (by simp) (by simp)
      (List.forall_mem_append.2 ⟨shallow_iff_alternatives.1 hs, shallow_iff_alternatives.1 ht⟩)

end Layer

/-- What holds of the shape that joining ends with, however unions are enumerated, holds of the
join. -/
theorem JoinEnds.join {P : Shape → Prop} (hs : s.Shallow n) (ht : t.Shallow n)
    (h : JoinEnds policy s t P) : P (s.join policy t) := by
  induction n generalizing s t P with
  | zero => exact absurd hs (not_shallow_zero s)
  | succ n ih =>
    rw [join_eq_joinLayer hs.listed ht.listed]
    exact h.joinLayer (fun _ _ _ ↦ ih) hs ht

end Shape

/-! ### Inferred shapes -/

namespace Json

mutual

/-- How deep arrays and objects are nested in a value. -/
def depth : Json → Nat
  | .array items => depthOfItems items + 1
  | .object members => depthOfMembers members + 1
  | _ => 0

/-- The greatest depth of an item. -/
def depthOfItems : List Json → Nat
  | [] => 0
  | item :: rest => max item.depth (depthOfItems rest)

/-- The greatest depth of the value of a member. -/
def depthOfMembers : List (String × Json) → Nat
  | [] => 0
  | (_, value) :: rest => max value.depth (depthOfMembers rest)

end

theorem depth_le_depthOfItems {items : List Json} {item : Json} (h : item ∈ items) :
    item.depth ≤ depthOfItems items := by
  induction items with
  | nil => exact absurd h List.not_mem_nil
  | cons first rest ih =>
    rw [depthOfItems]
    rcases List.mem_cons.1 h with rfl | h
    · exact Nat.le_max_left _ _
    · exact (ih h).trans (Nat.le_max_right _ _)

theorem depth_le_depthOfMembers {members : List (String × Json)} {member : String × Json}
    (h : member ∈ members) : member.2.depth ≤ depthOfMembers members := by
  induction members with
  | nil => exact absurd h List.not_mem_nil
  | cons first rest ih =>
    obtain ⟨name, value⟩ := first
    rw [depthOfMembers]
    rcases List.mem_cons.1 h with rfl | h
    · exact Nat.le_max_left _ _
    · exact (ih h).trans (Nat.le_max_right _ _)

end Json

namespace Shape

variable {policy : Policy}

/-- The shape of a value lists its fields and is no deeper than the value, even if names are
repeated in it. -/
theorem shallow_ofJson (value : Json) : (ofJson policy value).Shallow (value.depth + 1) := by
  induction value with
  | array items ih =>
    rw [ofJson, Json.depth]
    split
    · rename_i element h
      refine shallow_array.2 (of_mem_reduce? (fun _ _ ↦ shallow_join) (fun x hx ↦ ?_) h)
      rw [ofItems_eq_map] at hx
      obtain ⟨item, hitem, rfl⟩ := List.mem_map.1 hx
      exact (ih item hitem).mono (Nat.succ_le_succ (Json.depth_le_depthOfItems hitem))
    · exact shallow_emptyArray
  | object members ih =>
    rw [ofJson_object, Json.depth]
    refine shallow_object.2 ⟨Nat.succ_pos _, map_fst_perm policy members, fun f hf ↦ ?_⟩
    obtain ⟨member, hmember, rfl⟩ := List.mem_map.1 ((Field.sorted_perm _).mem_iff.1 hf)
    exact (ih member hmember).mono (Nat.succ_le_succ (Json.depth_le_depthOfMembers hmember))
  | _ => exact shallow_prim _

/-! ### Termination -/

/-- Joining two shapes that list their fields comes to an end, in whichever order the members of
unions are taken, with a shape that lists its fields and is no deeper than the deeper of the two.
`join` makes such a shape, by the recursion alone, and the guarded join does not refuse to. So the
shape of a value is no deeper than the value. -/
theorem join_ends (policy : Policy) {s t : Shape} (hs : s.Listed) (ht : t.Listed) :
    JoinEnds policy s t (fun z ↦ z.Listed ∧ z.depth ≤ max s.depth t.depth) ∧
      (∀ P, JoinEnds policy s t P → P (s.join policy t)) ∧
      s.join policy t = joinLayer (join policy) policy s t ∧
      s.join? policy t = .ok (s.join policy t) ∧
      (s.join policy t).depth ≤ max s.depth t.depth ∧
      ∀ value, (ofJson policy value).depth ≤ value.depth := by
  have hs' : s.Shallow (max s.depth t.depth + 1) := hs.shallow (Nat.le_max_left ..)
  have ht' : t.Shallow (max s.depth t.depth + 1) := ht.shallow (Nat.le_max_right ..)
  refine ⟨?_, fun P h ↦ h.join hs' ht', join_eq_joinLayer hs ht, hs.join?_eq_ok ht,
    Nat.le_of_lt_succ (shallow_join hs' ht').depth_lt,
    fun value ↦ Nat.le_of_lt_succ (shallow_ofJson value).depth_lt⟩
  exact .of_shallow hs' ht' fun z hz ↦ ⟨hz.listed, Nat.le_of_lt_succ hz.depth_lt⟩

/-- Several objects and a union of one member in a union, several arrays in the other: what the
arrays before it have become is joined to the last one. -/
theorem join_ends_several_arrays :
    let item := object [⟨"x", false, .prim .null⟩] ["x"]
    let s := union [.object [⟨"a", false, .prim .null⟩] ["a"], .union [.emptyArray],
      .object [⟨"b", false, .prim .null⟩] ["b"]]
    let t := union [.array item, .array .emptyArray, .array (.prim .string)]
    (s.Listed ∧ t.Listed) ∧ JoinEnds .union s t (fun z ↦ z.Listed ∧ z.depth ≤ 2) ∧
      s.join? .union t = .ok (.union [.union [.emptyArray],
        .object [⟨"a", true, .prim .null⟩, ⟨"b", true, .prim .null⟩] ["a", "b"],
        .array (.union [.prim .string, item, .emptyArray])]) := by
  intro item s t
  have hone : ∀ name, (object [⟨name, false, .prim .null⟩] [name]).Listed :=
    fun name ↦ .object (.refl _) (by simpa using .prim _)
  have hs : s.Listed := by
    refine .union ?_
    simp only [List.forall_mem_cons, List.not_mem_nil, false_imp_iff, implies_true, and_true]
    exact ⟨hone "a", .union (by simpa using .emptyArray), hone "b"⟩
  have ht : t.Listed := by
    refine .union ?_
    simp only [List.forall_mem_cons, List.not_mem_nil, false_imp_iff, implies_true, and_true]
    exact ⟨.array (hone "x"), .array .emptyArray, .array (.prim _)⟩
  obtain ⟨hends, -, -, hjoin, -⟩ := join_ends .union hs ht
  refine ⟨⟨hs, ht⟩, hends, hjoin.trans ?_⟩
  cbv

end Shape

end JsonShapes
