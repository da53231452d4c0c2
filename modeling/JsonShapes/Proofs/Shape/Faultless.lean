import JsonShapes.Proofs.Shape.Listed
import JsonShapes.Shape.Guarded

/-!
# Joins without a fault

The guarded join refuses shapes that are ill-formed in one of two ways: a name is listed that no
field has, or something that is no shape would be held in a union. Neither occurs where objects list
their fields, and the shapes that a join makes on its way list their fields again, so there the
guarded join is the plain one (`Listed.join?_eq_ok`). Well-formed shapes are a case of that.

The guards look at each layer before it is joined, so the proof follows the layers once more, with
`Shallow` for what is known of them (`joinLayerFault?_eq_none`). That the layers below are as good
is taken from the theorem on what joins keep.
-/

namespace JsonShapes.Shape

variable {policy : Policy} {part : Shape → Shape → Shape}
  {partFault? : Shape → Shape → Option ShapeFault} {s t : Shape} {n : Nat}

theorem Listed.memberFault?_eq_none (hs : s.Listed) : s.memberFault? = none := by
  simp [memberFault?, hs.foreigns_eq_nil]

section Layer

variable (hpart : ∀ x y, x.Shallow n → y.Shallow n → (part x y).Shallow n)
  (hfault : ∀ x y, x.Shallow n → y.Shallow n → partFault? x y = none)

include hfault

/-- Joining the objects among alternatives refuses nothing, if no join of parts does. The two
operands list their fields, so no name is looked up in vain. -/
theorem objectsFault?_eq_none (hs : s.Shallow (n + 1)) (ht : t.Shallow (n + 1)) :
    objectsFault? partFault? s t = none := by
  cases s with
  | object fs order =>
    cases t with
    | object gs order' =>
      obtain ⟨-, hlisted, hfs⟩ := shallow_object.1 hs
      obtain ⟨-, hlisted', hgs⟩ := shallow_object.1 ht
      refine List.findSome?_eq_none_iff.2 fun name hname ↦ ?_
      -- names are joined from the orders, which list the fields
      have hknown : name ∈ fs.map (·.name) ∨ name ∈ gs.map (·.name) := by
        rw [← hlisted.mem_iff, ← hlisted'.mem_iff]
        exact mem_joinNames.1 hname
      rw [fieldFault?]
      cases hf : Field.get? fs name with
      | none =>
        cases hg : Field.get? gs name with
        | none => exact absurd hknown (not_or.2
            ⟨Field.get?_eq_none_iff.1 hf, Field.get?_eq_none_iff.1 hg⟩)
        | some g => rfl
      | some f =>
        cases hg : Field.get? gs name with
        | none => rfl
        | some g =>
          exact hfault f.content g.content (hfs f (Field.mem_of_get? hf))
            (hgs g (Field.mem_of_get? hg))
    | _ => rfl
  | _ => rfl

/-- Nor does joining the arrays, whose elements are a layer lower. -/
theorem arraysFault?_eq_none (hs : s.Shallow (n + 1)) (ht : t.Shallow (n + 1)) :
    arraysFault? partFault? s t = none := by
  rw [arraysFault?.eq_def]
  split
  · rfl
  split
  · exact hfault _ _ (shallow_array.1 hs) (shallow_array.1 ht)
  · rfl

include hpart

/-- Gathering alternatives meets no fault; what was gathered of objects and of arrays so far lists
its fields throughout. -/
theorem alternativesFault?_eq_none {ms : List Shape} {object? array? : Option Shape}
    (hobject : ∀ k ∈ object?, k.Shallow (n + 1)) (harray : ∀ k ∈ array?, k.Shallow (n + 1))
    (hms : ∀ m ∈ ms, m.Shallow (n + 1)) :
    alternativesFault? part partFault? object? array? ms = none := by
  induction ms generalizing object? array? with
  | nil =>
    refine List.findSome?_eq_none_iff.2 fun k hk ↦ Listed.memberFault?_eq_none ?_
    rcases List.mem_append.1 hk with hk | hk
    · exact (hobject k (Option.mem_toList.1 hk)).listed
    · exact (harray k (Option.mem_toList.1 hk)).listed
  | cons m ms ih =>
    obtain ⟨hm, hms⟩ := List.forall_mem_cons.1 hms
    rw [alternativesFault?.eq_def]
    simp only
    split
    · cases object? with
      | none => exact ih (by simpa using hm) harray hms
      | some known =>
        -- the object gathered so far becomes its join with this one
        have hk : known.Shallow (n + 1) := hobject known rfl
        simp only [objectsFault?_eq_none hfault hk hm]
        exact ih (by simpa using shallow_joinObjects hpart hk hm) harray hms
    · split
      · cases array? with
        | none => exact ih hobject (by simpa using hm) hms
        | some known =>
          have hk : known.Shallow (n + 1) := harray known rfl
          simp only [arraysFault?_eq_none hfault hk hm]
          exact ih hobject (by simpa using shallow_joinArrays hpart hk hm) hms
      · simp only [hm.listed.memberFault?_eq_none]
        exact ih hobject harray hms

/-- One layer of a join refuses nothing, if no join of parts does. -/
theorem joinLayerFault?_eq_none (hs : s.Shallow (n + 1)) (ht : t.Shallow (n + 1)) :
    joinLayerFault? part partFault? policy s t = none := by
  rw [joinLayerFault?.eq_def]
  split
  · rfl
  split <;> try rfl
  · exact hfault _ _ (shallow_array.1 hs) (shallow_array.1 ht)
  · exact objectsFault?_eq_none hfault hs ht
  · split
    · rfl
    · exact alternativesFault?_eq_none hpart hfault (by simp) (by simp) (List.forall_mem_append.2
        ⟨shallow_iff_alternatives.1 hs, shallow_iff_alternatives.1 ht⟩)

end Layer

/-- By induction on the number of layers, a join within them refuses nothing. -/
theorem joinFaultWithin?_eq_none {d : Nat} (hs : s.Shallow (d + 1)) (ht : t.Shallow (d + 1)) :
    joinFaultWithin? policy d s t = none := by
  induction d generalizing s t with
  | zero => exact joinLayerFault?_eq_none (fun _ _ hx _ ↦ hx) (fun _ _ _ _ ↦ rfl) hs ht
  | succ d ih =>
    exact joinLayerFault?_eq_none (fun _ _ ↦ shallow_joinWithin) (fun _ _ ↦ ih) hs ht

/-- On shapes that list their fields the guarded join succeeds, with the join. -/
theorem Listed.join?_eq_ok (hs : s.Listed) (ht : t.Listed) :
    s.join? policy t = .ok (s.join policy t) := by
  have hnone : s.joinFault? policy t = none :=
    joinFaultWithin?_eq_none (hs.shallow (Nat.le_max_left ..)) (ht.shallow (Nat.le_max_right ..))
  rw [join?, hnone]
  rfl

/-- On well-formed shapes the guarded join succeeds, with the join. -/
theorem join?_eq_ok (hs : s.WellFormed) (ht : t.WellFormed) :
    s.join? policy t = .ok (s.join policy t) :=
  hs.listed.join?_eq_ok ht.listed

end JsonShapes.Shape
