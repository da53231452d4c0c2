import JsonShapes.Proofs.Shape.Inference

/-!
# The two policies agree

To widen a shape is to give up every union in it (`Shape.widen`). Resolving conflicts by giving
positions up comes to the same as keeping every alternative and widening the outcome, both for
joins and for the shapes of values (`policies_agree`).

The two ways of joining are not compared step by step, where one goes on merging inside a union that
the other has left behind. What a widened shape shows is what the shape does with the positions
given up at which its sightings clash (`sightings_widen`), and to give positions up before joining
or only after makes no difference, as it is a closure.

## The course of the proof

* A well-formed union shows at its root marks that do not agree, so its sightings clash there
  (`clash_union`); but for `unknown`, which shows everything and stays as it is, nothing else does.
* So widening a shape is giving up the positions at which its sightings clash (`sightings_widen`),
  by induction on the shape.
* Giving positions up is a closure, and a closure of a union is the closure of the union of
  closures. With what joins show, both halves of `policies_agree` come down to this.
* Shapes that show the same mean the same, which brings the result back to shapes.
-/

namespace JsonShapes

open Sighting

namespace Shape

mutual

/-- The shape with every union in it given up. -/
def widen : Shape → Shape
  | .union _ => unknown
  | .array e => .array e.widen
  | .object fs order => .object (widenFields fs) order
  | .prim p => .prim p
  | .emptyArray => .emptyArray
  | .ref id => .ref id
  | .foreign thing => .foreign thing

/-- The fields with every union in their contents given up. -/
def widenFields : List (Field Shape) → List (Field Shape)
  | [] => []
  | ⟨name, optional, s⟩ :: fs => ⟨name, optional, s.widen⟩ :: widenFields fs

end

/-- The field with every union in its content given up. -/
def widenField (f : Field Shape) : Field Shape :=
  { f with content := f.content.widen }

theorem widenFields_eq_map (fs : List (Field Shape)) : widenFields fs = fs.map widenField := by
  induction fs with
  | nil => rfl
  | cons f fs ih => rw [widenFields, ih, List.map_cons, widenField]

theorem widen_object (fs : List (Field Shape)) (order : List String) :
    (object fs order).widen = .object (fs.map widenField) order := by
  rw [widen, widenFields_eq_map]

@[simp]
theorem name_widenField (f : Field Shape) : (widenField f).name = f.name := rfl

theorem get?_widenField (fs : List (Field Shape)) (name : String) :
    Field.get? (fs.map widenField) name = (Field.get? fs name).map widenField :=
  Field.get?_map name_widenField fs name

/-- A widened shape is well-formed, and it has no unions left. -/
theorem WellFormed.widen {s : Shape} (h : s.WellFormed) : s.widen.WellFormed := by
  induction h with
  | array _ ih => exact .array ih
  | @object fs order hincreasing hlisted _ ih =>
    have hnames : (fs.map widenField).map (·.name) = fs.map (·.name) := by
      rw [List.map_map]
      rfl
    rw [widen_object]
    exact .object (hincreasing.map name_widenField) (hnames ▸ hlisted) (List.forall_mem_map.2 ih)
  | union => exact .prim _
  | prim p => exact .prim p
  | emptyArray => exact .emptyArray
  | ref id => exact .ref id

/-! ### What a widened shape shows -/

/-- Two members of a union clash at its root. -/
theorem clash_union {ms : List Shape} (h : (union ms).WellFormed) :
    Clash (sightings .union (union ms)) [] := by
  cases h with
  | union hmany hassorted hmembers =>
    match ms, hmany with
    | m :: n :: rest, _ =>
      have hm : m ∈ m :: n :: rest := by simp
      have hn : n ∈ m :: n :: rest := by simp
      have hdistinct : m.same n = false := (List.pairwise_cons.1 hassorted.distinct).1 n (by simp)
      -- of objects there is one at most, and of arrays
      have hlone : ∀ {p : Shape → Bool}, (m :: n :: rest).countP p ≤ 1 → p m = true →
          p n = false := by
        intro p hp hpm
        refine Bool.eq_false_iff.2 fun hpn ↦ ?_
        rw [eq_of_countP_le_one hp hm hn hpm hpn, same_refl] at hdistinct
        exact Bool.noConfusion hdistinct
      have hshown : ∀ k ∈ m :: n :: rest, (([], k.head) : Sighting) ∈ sightings .union
          (union (m :: n :: rest)) :=
        fun k hk ↦ .alternative rfl hk (shows_head (hmembers k hk) (Or.inr (hassorted.plain k hk)))
      exact ⟨m.head, n.head, hshown m hm, hshown n hn, not_agree_head (hmembers m hm)
        (hmembers n hn) (Bool.eq_false_iff.1 hdistinct) (hlone hassorted.objects)
        (hlone hassorted.arrays)⟩

/-- Sets of sightings of which one is the other with conflicts resolved may be compared at the root
and below each step. -/
theorem eq_closure_of_root_below {policy : Policy} {F G : Set Sighting}
    (hagree : ∀ m ∈ root F, ∀ n ∈ root F, m.Agree n) (hroot : root G = root F)
    (hbelow : ∀ step, below G step = policy.closure (below F step)) : G = policy.closure F := by
  have hkept : ¬policy.GivesUp F := Policy.not_givesUp_of_agree hagree
  refine ext_root_below ?_ fun step ↦ ?_
  · rw [hroot, Policy.root_closure hkept]
  · rw [hbelow, Policy.below_closure hkept]

/-- A widened shape shows what the shape does, with the positions given up where that clashes. By
induction over the shape, at its root and below each step; a union is where kinds clash, and it is
widened to what shows everything. -/
theorem sightings_widen {s : Shape} (h : s.WellFormed) :
    sightings .unknown s.widen = Policy.unknown.closure (sightings .union s) := by
  induction h with
  | prim p =>
    by_cases hp : p = .unknown
    · rw [hp, widen, sightings_unknown, sightings_unknown, Policy.closure_univ]
    · refine eq_closure_of_root_below ?_ ?_ fun step ↦ ?_
      · rw [root_sightings_prim hp]
        exact agree_of_mem_singleton rfl
      · rw [widen, root_sightings_prim hp, root_sightings_prim hp]
      · rw [widen, below_sightings_prim hp, below_sightings_prim hp, Policy.closure_empty]
  | emptyArray =>
    refine eq_closure_of_root_below ?_ (by simp [widen]) fun step ↦ by simp [widen]
    rw [root_sightings_emptyArray]
    exact agree_of_mem_singleton rfl
  | array _ ih =>
    refine eq_closure_of_root_below ?_ (by simp [widen]) fun step ↦ ?_
    · rw [root_sightings_array]
      exact agree_of_mem_singleton rfl
    · cases step with
      | item => rw [widen, below_sightings_array_item, below_sightings_array_item, ih]
      | member name => simp [widen]
  | @object fs order _ _ _ ih =>
    rw [widen_object]
    refine eq_closure_of_root_below ?_ ?_ fun step ↦ ?_
    · exact fun m hm n hn ↦ agree_object (agree_of_mem_root_object m hm)
        (agree_of_mem_root_object n hn)
    · -- widening keeps the names of fields and their optional marks
      simp only [root_sightings_object, get?_widenField, Option.all_map]
      rfl
    · cases step with
      | item => simp
      | member name =>
        rw [below_sightings_object_member, below_sightings_object_member, get?_widenField]
        cases hf : Field.get? fs name with
        | none => exact Policy.closure_empty.symm
        | some f => exact ih f (Field.mem_of_get? hf)
  | union hmany hassorted hmembers =>
    have hclash := clash_union (.union hmany hassorted hmembers)
    rw [widen, sightings_unknown, Policy.closure_of_givesUp ⟨rfl, hclash⟩]
  | ref id =>
    refine eq_closure_of_root_below ?_ (by simp [widen]) fun step ↦ by simp [widen]
    rw [root_sightings_ref]
    exact agree_of_mem_singleton rfl

/-- Shapes that show the same once positions are given up are the same once they are widened. -/
theorem widen_same_of_sightings {s t : Shape} (hs : s.WellFormed) (ht : t.WellFormed)
    (h : sightings .unknown t = Policy.unknown.closure (sightings .union s)) :
    s.widen.same t = true :=
  same_of_sightings_eq hs.widen ht ((sightings_widen hs).trans h.symm)

/-! ### Joins -/

/-- Giving positions up before two shapes are joined or only after makes no difference. -/
theorem sightings_join_widen {a b : Shape} (ha : a.WellFormed) (hb : b.WellFormed) :
    sightings .unknown (a.widen.join .unknown b.widen) =
      Policy.unknown.closure (sightings .union (a.join .union b)) := by
  have hkept : IsJoin .union [a, b] (a.join .union b) := isJoin_join ha hb
  have hgiven : IsJoin .unknown [a.widen, b.widen] (a.widen.join .unknown b.widen) :=
    isJoin_join ha.widen hb.widen
  calc sightings .unknown (a.widen.join .unknown b.widen)
    _ = Policy.unknown.closure (sightings .unknown a.widen ∪ sightings .unknown b.widen) := by
      rw [hgiven.sightings_eq, sightingsOfAll_pair]
    _ = Policy.unknown.closure (Policy.unknown.closure (sightings .union a) ∪
          Policy.unknown.closure (sightings .union b)) := by
      rw [sightings_widen ha, sightings_widen hb]
    _ = Policy.unknown.closure (sightings .union a ∪ sightings .union b) :=
      Policy.unknown.closure.closure_sup_closure _ _
    _ = Policy.unknown.closure (sightings .union (a.join .union b)) := by
      rw [hkept.sightings_eq, sightingsOfAll_pair, Policy.closure_union]

/-! ### Shapes of values -/

/-- What holds of the sightings of each of several values holds of them together. -/
theorem closure_sightingsOfAll_ofJson {values : List Json}
    (h : ∀ value ∈ values, sightings .unknown (ofJson .unknown value) =
      Policy.unknown.closure (sightings .union (ofJson .union value))) :
    Policy.unknown.closure (sightingsOfAll .unknown (values.map (ofJson .unknown))) =
      Policy.unknown.closure (sightingsOfAll .union (values.map (ofJson .union))) := by
  induction values with
  | nil => simp
  | cons value values ih =>
    obtain ⟨hvalue, hvalues⟩ := List.forall_mem_cons.1 h
    rw [List.map_cons, List.map_cons, sightingsOfAll_cons, sightingsOfAll_cons, hvalue]
    calc Policy.unknown.closure (Policy.unknown.closure (sightings .union (ofJson .union value)) ∪
          sightingsOfAll .unknown (values.map (ofJson .unknown)))
      _ = Policy.unknown.closure (Policy.unknown.closure (sightings .union (ofJson .union value)) ∪
            Policy.unknown.closure (sightingsOfAll .unknown (values.map (ofJson .unknown)))) :=
        (Policy.unknown.closure.closure_sup_closure_right _ _).symm
      _ = Policy.unknown.closure (Policy.unknown.closure (sightings .union (ofJson .union value)) ∪
            Policy.unknown.closure (sightingsOfAll .union (values.map (ofJson .union)))) := by
        rw [ih hvalues]
      _ = _ := Policy.unknown.closure.closure_sup_closure _ _

/-- The shape of a value in which positions are given up shows what the one in which every
alternative is kept does, with the positions given up where that clashes. -/
theorem sightings_ofJson_unknown {value : Json} (h : value.Keyed) :
    sightings .unknown (ofJson .unknown value) =
      Policy.unknown.closure (sightings .union (ofJson .union value)) := by
  induction h with
  | null => exact sightings_widen (.prim .null)
  | bool b => exact sightings_widen (.prim .boolean)
  | number n => exact sightings_widen (.prim .number)
  | string s => exact sightings_widen (.prim .string)
  | @array items hitems ih =>
    refine eq_closure_of_root_below ?_ (by simp) fun step ↦ ?_
    · rw [root_sightings_ofJson_array]
      exact agree_of_mem_singleton rfl
    · cases step with
      | item =>
        rw [below_sightings_ofJson_array_item hitems, below_sightings_ofJson_array_item hitems,
          Policy.closure_union, closure_sightingsOfAll_ofJson ih]
      | member name => simp
  | @object members hnodup _ ih =>
    refine eq_closure_of_root_below ?_ ?_ fun step ↦ ?_
    · rw [ofJson_object]
      exact fun m hm n hn ↦ agree_object (agree_of_mem_root_object m hm)
        (agree_of_mem_root_object n hn)
    · rw [root_sightings_ofJson_object hnodup, root_sightings_ofJson_object hnodup]
    · cases step with
      | item => simp
      | member name =>
        rw [below_sightings_ofJson_object_member hnodup,
          below_sightings_ofJson_object_member hnodup]
        cases hlookup : members.lookup name with
        | none => exact Policy.closure_empty.symm
        | some value => exact ih _ (Entries.mem_of_lookup_eq_some hlookup)

/-! ### Agreement -/

/-- Giving positions up comes to the same as keeping every alternative and widening what comes of
it, for the shapes of values and for joins of well-formed shapes, which never fail. -/
theorem policies_agree {value : Json} (hv : value.Keyed) {a b : Shape} (ha : a.WellFormed)
    (hb : b.WellFormed) :
    (ofJson .unknown value).same (ofJson .union value).widen = true ∧
      ∃ kept given, a.join? .union b = .ok kept ∧ a.widen.join? .unknown b.widen = .ok given ∧
        kept.widen.same given = true := by
  refine ⟨?_, a.join .union b, a.widen.join .unknown b.widen, join?_eq_ok ha hb,
    join?_eq_ok ha.widen hb.widen, ?_⟩
  · exact same_symm (widen_same_of_sightings (wellFormed_ofJson hv) (wellFormed_ofJson hv)
      (sightings_ofJson_unknown hv))
  · exact widen_same_of_sightings (isJoin_join ha hb).wellFormed
      (isJoin_join ha.widen hb.widen).wellFormed (sightings_join_widen ha hb)

/-- A conflict among items of which one lacks the field; and two unions that meet below an optional
field, with objects inside that only one of the policies goes on to merge. -/
theorem policies_agree_below_optional :
    let value : Json := .array [.object [("a", .array [.null, .string "x"]), ("b", .bool true)],
      .object [("b", .array [])], .object [("a", .array []), ("b", .bool false)]]
    let a : Shape := .object [⟨"k", true, .union [.prim .string,
      .object [⟨"n", false, .prim .number⟩] ["n"]]⟩, ⟨"l", false, .ref 1⟩] ["l", "k"]
    let b : Shape := .object [⟨"k", false, .union [.emptyArray,
      .object [⟨"n", false, .prim .null⟩] ["n"]]⟩, ⟨"l", false, .ref 2⟩] ["k", "l"]
    (value.Keyed ∧ a.WellFormed ∧ b.WellFormed) ∧
      (ofJson .unknown value).same (ofJson .union value).widen = true ∧
      ∃ kept given, a.join? .union b = .ok kept ∧ a.widen.join? .unknown b.widen = .ok given ∧
        kept.widen.same given = true := by
  intro value a b
  have hv : value.Keyed := by
    refine .array ?_
    simp only [List.forall_mem_cons, List.not_mem_nil, false_imp_iff, implies_true, and_true]
    refine ⟨.object (by decide) ?_, .object (by decide) ?_, .object (by decide) ?_⟩
    · simpa using ⟨.array (by simpa using ⟨.null, .string _⟩), .bool true⟩
    · simpa using .array nofun
    · simpa using ⟨.array nofun, .bool false⟩
  have ha : a.WellFormed := by
    refine .object (by decide) (by decide) ?_
    simp only [List.forall_mem_cons, List.not_mem_nil, false_imp_iff, implies_true, and_true]
    refine ⟨.union (by decide) ⟨by decide, by decide, by decide, by decide⟩ ?_, .ref 1⟩
    simpa using ⟨.prim _, .object (by decide) (by decide) (by simpa using .prim _)⟩
  have hb : b.WellFormed := by
    refine .object (by decide) (by decide) ?_
    simp only [List.forall_mem_cons, List.not_mem_nil, false_imp_iff, implies_true, and_true]
    refine ⟨.union (by decide) ⟨by decide, by decide, by decide, by decide⟩ ?_, .ref 2⟩
    simpa using ⟨.emptyArray, .object (by decide) (by decide) (by simpa using .prim _)⟩
  exact ⟨⟨hv, ha, hb⟩, policies_agree hv ha hb⟩

end Shape

end JsonShapes
