import JsonShapes.Proofs.Emit.Ranks

/-!
# Shapes that have the same text

An array of which no item was seen is written as an array of items of which nothing is known. Apart
from this the text of a well-formed shape is one of its meaning: to put the one array for the other
everywhere (`Shape.filled`) keeps a shape well-formed and does not change its text, and shapes that
mean the same then have the same text (`text_eq_of_filled_same`).

## Why filling keeps shapes well-formed

Two members of a union might come to mean the same when one array is put for the other. They do not
(`WellFormed.filled`): a well-formed union has one object and one array at most, filling leaves each
of the kind that it is, and what is neither it does not change at all. The order in which members
are written goes by their kinds and texts and stays the same too, so the text of a union is that of
the filled one.
-/

namespace JsonShapes.Shape

variable {style : Style} {s t : Shape}

mutual

/-- The shape with nothing known of the items of any array of which no item was seen. -/
def filled : Shape → Shape
  | .emptyArray => .array unknown
  | .array e => .array e.filled
  | .object fs order => .object (filledFields fs) order
  | .union ms => .union (filledAll ms)
  | .prim p => .prim p
  | .ref id => .ref id
  | .foreign thing => .foreign thing

/-- The shapes with nothing known of the items of arrays of which none was seen. -/
def filledAll : List Shape → List Shape
  | [] => []
  | m :: ms => m.filled :: filledAll ms

/-- The fields with nothing known of the items of arrays of which none was seen. -/
def filledFields : List (Field Shape) → List (Field Shape)
  | [] => []
  | ⟨name, optional, s⟩ :: fs => ⟨name, optional, s.filled⟩ :: filledFields fs

end

/-- The field with nothing known of the items of arrays of which none was seen. -/
def filledField (f : Field Shape) : Field Shape :=
  { f with content := f.content.filled }

@[simp]
theorem name_filledField (f : Field Shape) : (filledField f).name = f.name := rfl

theorem filled_union (ms : List Shape) : (union ms).filled = .union (ms.map filled) := by
  rw [filled]
  congr
  induction ms with
  | nil => rfl
  | cons m ms ih => rw [filledAll, ih, List.map_cons]

theorem filled_object (fs : List (Field Shape)) (order : List String) :
    (object fs order).filled = .object (fs.map filledField) order := by
  rw [filled]
  congr
  induction fs with
  | nil => rfl
  | cons f fs ih => rw [filledFields, ih, List.map_cons, filledField]

/-- Filling a shape fills its alternatives. -/
theorem alternatives_filled (s : Shape) : s.filled.alternatives = s.alternatives.map filled := by
  cases s with
  | union ms => rw [filled_union, alternatives, alternatives]
  | _ => rfl

/-! ### Filled shapes are well-formed -/

theorem isObject_filled (s : Shape) : s.filled.isObject = s.isObject := by
  cases s <;> rfl

theorem isArray_filled (s : Shape) : s.filled.isArray = s.isArray := by
  cases s <;> rfl

theorem isPlain_filled (s : Shape) : s.filled.isPlain = s.isPlain := by
  cases s <;> rfl

/-- What may be a member of a union and is neither an object nor an array is left as it is. -/
theorem filled_of_other (hplain : s.isPlain = true) (hobject : s.isObject = false)
    (harray : s.isArray = false) : s.filled = s := by
  cases s <;> simp_all [filled, isPlain, isObject, isArray]

/-- Of a property that at most one item has, no two items have it. -/
theorem pairwise_of_countP_le_one {p : Shape → Bool} {ms : List Shape} (h : ms.countP p ≤ 1) :
    ms.Pairwise fun m n ↦ p m = true → p n = false := by
  induction ms with
  | nil => exact .nil
  | cons m ms ih =>
    rw [List.countP_cons] at h
    refine List.pairwise_cons.2 ⟨fun n hn hm ↦ ?_, ih (by omega)⟩
    rw [if_pos hm] at h
    exact Bool.eq_false_iff.2 (List.countP_eq_zero.1 (by omega) n hn)

/-- Alternatives may stand side by side when they are filled: there is one array at most, so no two
become equal. -/
theorem Assorted.filled {ms : List Shape} (h : Assorted ms) : Assorted (ms.map filled) where
  distinct := by
    rw [List.pairwise_map]
    refine ((h.distinct.and (pairwise_of_countP_le_one h.objects)).and
      (pairwise_of_countP_le_one h.arrays)).imp_of_mem fun {m n} hm hn ⟨⟨hmn, hobject⟩, harray⟩ ↦ ?_
    refine Bool.eq_false_iff.2 fun hsame ↦ ?_
    -- the two are of one kind, and of objects and of arrays there is only one
    have hobject' : m.isObject = n.isObject := by
      rw [← isObject_filled, isObject_of_same hsame, isObject_filled]
    have harray' : m.isArray = n.isArray := by
      rw [← isArray_filled, isArray_of_same hsame, isArray_filled]
    have hmo : m.isObject = false :=
      Bool.eq_false_iff.2 fun hm ↦ Bool.eq_false_iff.1 (hobject hm) (hobject' ▸ hm)
    have hma : m.isArray = false :=
      Bool.eq_false_iff.2 fun hm ↦ Bool.eq_false_iff.1 (harray hm) (harray' ▸ hm)
    rw [filled_of_other (h.plain m hm) hmo hma,
      filled_of_other (h.plain n hn) (hobject' ▸ hmo) (harray' ▸ hma)] at hsame
    exact Bool.eq_false_iff.1 hmn hsame
  plain := List.forall_mem_map.2 fun m hm ↦ (isPlain_filled m).trans (h.plain m hm)
  objects := by
    rw [List.countP_map]
    exact (List.countP_congr fun m _ ↦ by simp [isObject_filled]).trans_le h.objects
  arrays := by
    rw [List.countP_map]
    exact (List.countP_congr fun m _ ↦ by simp [isArray_filled]).trans_le h.arrays

/-- Filling keeps a shape well-formed. -/
theorem WellFormed.filled (h : s.WellFormed) : s.filled.WellFormed := by
  induction h with
  | array _ ih => exact .array ih
  | emptyArray => exact .array (.prim _)
  | @object fs order hincreasing hlisted _ ih =>
    have hnames : (fs.map filledField).map (·.name) = fs.map (·.name) := by
      rw [List.map_map]
      rfl
    rw [filled_object]
    exact .object (hincreasing.map name_filledField) (hnames ▸ hlisted) (List.forall_mem_map.2 ih)
  | @union ms hmany hassorted _ ih =>
    rw [filled_union]
    exact .union ((List.length_map Shape.filled).symm ▸ hmany) hassorted.filled
      (List.forall_mem_map.2 ih)
  | prim p => exact .prim p
  | ref id => exact .ref id

/-! ### Texts -/

/-- Filling does not change the text. -/
theorem text_filled (s : Shape) : s.filled.text style = s.text style := by
  induction s with
  | array e ih =>
    have hunion : e.filled.isUnion = e.isUnion := by cases e <;> rfl
    rw [filled, text, text, ih, hunion]
  | object fs order ih =>
    have hfields : fieldTexts style (fs.map filledField) = fieldTexts style fs := by
      rw [fieldTexts_eq_map, fieldTexts_eq_map, List.map_map]
      refine List.map_congr_left fun f hf ↦ ?_
      show _ ++ f.content.filled.text style = _
      rw [ih f hf]
      rfl
    rw [filled_object, text, text, hfields]
  | union ms ih =>
    have hmembers : (ms.map filled).map (ranked style) = ms.map (ranked style) := by
      rw [List.map_map]
      refine List.map_congr_left fun m hm ↦ ?_
      have hrank : ∀ text : String, m.filled.rank text = m.rank text := by
        cases m <;> exact fun _ ↦ rfl
      rw [Function.comp_apply, ranked, ranked, ih m hm, hrank]
    rw [filled_union, text, text, rankedTexts_eq_map, rankedTexts_eq_map, hmembers]
  | emptyArray => rfl
  | _ => rfl

/-- Where a member is written in a union is a matter of its meaning and its text. -/
theorem rank_of_same (h : s.same t = true) (text : String) : s.rank text = t.rank text := by
  cases same_cases h <;> rfl

/-- Well-formed shapes that mean the same have the same text. By induction over the first shape: of
two unions that mean the same the members can be paired, and they are written in the order of their
ranks and texts. -/
theorem text_eq_of_same (hs : s.WellFormed) (ht : t.WellFormed) (h : s.same t = true) :
    s.text style = t.text style := by
  induction hs generalizing t with
  | @array e _ ih =>
    cases same_cases h with
    | @array _ f hef =>
      cases ht with
      | array hf =>
        have hunion : e.isUnion = f.isUnion := by cases same_cases hef <;> rfl
        rw [text, text, hunion, ih hf hef]
  | @object fs order _ _ _ ih =>
    cases same_cases h with
    | @object _ gs _ _ halike =>
      cases ht with
      | object _ _ hgs =>
        have hfields : fieldTexts style fs = fieldTexts style gs := by
          rw [fieldTexts_eq_map, fieldTexts_eq_map]
          refine map_eq_of_forall₂ (forall₂_imp_of_mem halike fun f hf g hg hfg ↦
            And.intro hfg (ih f hf (hgs g hg) hfg.content)) fun f g hfg ↦ ?_
          rw [hfg.1.name, hfg.1.optional, hfg.2]
        rw [text, text, hfields]
  | @union ms hmany hassorted hms ih =>
    cases same_cases h with
    | @union _ ns hl hr =>
      cases ht with
      | union hmany' hassorted' hns =>
        -- the members can be paired, and paired members have the same text and rank
        obtain ⟨ns', hperm, hpaired⟩ :=
          exists_perm_forall₂_same hassorted.distinct hassorted'.distinct hl hr
        have hmembers : ms.map (ranked style) = ns'.map (ranked style) := by
          refine map_eq_of_forall₂ (forall₂_imp_of_mem hpaired fun m hm n hn hmn ↦
            And.intro hmn (ih m hm (hns n (hperm.mem_iff.1 hn)) hmn)) fun m n hmn ↦ ?_
          rw [ranked, ranked, hmn.2, rank_of_same hmn.1]
        have hws : (union ms).WellFormed := .union hmany hassorted hms
        rw [text, text, rankedTexts_eq_map, rankedTexts_eq_map,
          mergeSort_ranked_eq_of_perm ?_ (hmembers ▸ hperm.map (ranked style))]
        simp only [List.forall_mem_map]
        exact fun m hm n hn ↦ ranked_eq_of_rank_eq (.inl hws) hm hn
  | _ =>
    cases same_cases h
    rfl

/-- Well-formed shapes that mean the same once they are filled are written alike. Members are
compared by rank, in which those that mean the same have the same place. -/
theorem text_eq_of_filled_same (hs : s.WellFormed) (ht : t.WellFormed)
    (h : s.filled.same t.filled = true) : s.text style = t.text style := by
  rw [← text_filled s, ← text_filled t]
  exact text_eq_of_same hs.filled ht.filled h

end JsonShapes.Shape
