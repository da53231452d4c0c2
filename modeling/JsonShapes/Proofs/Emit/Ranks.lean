import JsonShapes.Emit.TypeText
import JsonShapes.Proofs.Shape.Shuffling
import Mathlib.Data.Prod.Lex

/-!
# Texts do not depend on how unions are enumerated

The text of a union lists the texts of its members by rank. Members of the same rank have the same
text, except that a member without text would tie with a reference to the number zero; there is none
in a well-formed shape, and no declaration has that number. So all shuffles of a shape have the same
text (`Shape.Shuffled.text_eq`).

Sorting by rank gives one list whatever the list before, if only members of equal rank are equal in
what is written of them. So the module is about ties: where they occur (`Shape.rank`), and that the
texts are the same there.

A shuffle of a union has members that are shuffles of those of the other, in some order, so the
ranks and the texts of the two lists are the same up to order by induction, and sorting makes them
one list.
-/

namespace JsonShapes

namespace Rank

/-- A rank as a position in the order of groups, then numbers, then texts. -/
def position (a : Rank) : ℕ ×ₗ ℤ ×ₗ String :=
  toLex (a.group, toLex (a.number, a.text))

theorem le_iff_position_le {a b : Rank} : a.le b = true ↔ a.position ≤ b.position := by
  simp [le, position, Prod.Lex.le_iff]

/-- A rank is known by its position, so ranks that come before each other are the same. -/
theorem position_injective : Function.Injective position := by
  rintro ⟨g, n, t⟩ ⟨g', n', t'⟩ h
  simpa [position] using h

end Rank

namespace Shape

variable {style : Style}

/-- A member of a union with its text, and the rank by which the text is listed. -/
def ranked (style : Style) (m : Shape) : Rank × String :=
  (m.rank (m.text style), m.text style)

theorem rankedTexts_eq_map (ms : List Shape) : rankedTexts style ms = ms.map (ranked style) := by
  induction ms with
  | nil => rfl
  | cons m ms ih => rw [rankedTexts, ih, List.map_cons, ranked]

theorem fieldTexts_eq_map (fs : List (Field Shape)) : fieldTexts style fs = fs.map fun f ↦
    Identifier.property f.name ++ (if f.optional then "?: " else ": ") ++ f.content.text style := by
  induction fs with
  | nil => rfl
  | cons f fs ih => rw [fieldTexts, ih, List.map_cons]

/-- Texts sorted by rank do not depend on the order in which they are given, if rank determines
text. -/
theorem mergeSort_ranked_eq_of_perm {l l' : List (Rank × String)}
    (hties : ∀ a ∈ l, ∀ b ∈ l, a.1 = b.1 → a = b) (hperm : l.Perm l') :
    l.mergeSort (fun a b ↦ a.1.le b.1) = l'.mergeSort fun a b ↦ a.1.le b.1 := by
  have hsorted : ∀ k : List (Rank × String),
      (k.mergeSort fun a b ↦ a.1.le b.1).Pairwise fun a b ↦ a.1.le b.1 = true := by
    refine fun k ↦ List.pairwise_mergeSort (fun a b c hab hbc ↦ ?_) (fun a b ↦ ?_) k
    · rw [Rank.le_iff_position_le] at hab hbc ⊢
      exact hab.trans hbc
    · rw [Bool.or_eq_true, Rank.le_iff_position_le, Rank.le_iff_position_le]
      exact le_total _ _
  refine List.Perm.eq_of_pairwise (fun a b ha hb hab hba ↦ ?_) (hsorted l) (hsorted l') ?_
  · rw [Rank.le_iff_position_le] at hab hba
    refine hties a (List.mem_mergeSort.1 ha) b ?_ (Rank.position_injective (le_antisymm hab hba))
    exact hperm.mem_iff.2 (List.mem_mergeSort.1 hb)
  · exact (List.mergeSort_perm _ _).trans (hperm.trans (List.mergeSort_perm _ _).symm)

/-- An object has a text, with its braces at least, so it does not tie with a reference. -/
theorem text_object_ne_empty (fs : List (Field Shape)) (order : List String) :
    (object fs order).text style ≠ "" := by
  rw [text]
  split <;> exact braced_ne_empty _

/-- Whether a shape is written before references in a union: its rank has its text and no number. -/
def leads : Shape → Bool
  | .object .. => true
  | .union _ => true
  | .foreign _ => true
  | _ => false

/-- Members of the same rank are the same or have the same text, except for a reference to the
number zero and a member without text. -/
theorem eq_or_of_rank_eq {m n : Shape} {text text' : String} (h : m.rank text = n.rank text') :
    m = n ∨ text = text' ∨ (m = .ref 0 ∧ n.leads = true ∧ text' = "") ∨
      n = .ref 0 ∧ m.leads = true ∧ text = "" := by
  cases m <;> cases n <;> simp_all [rank, leads]
  case prim.prim p q => cases p <;> cases q <;> simp_all [Primitive.rank]

/-- Members of a well-formed union, or of any in which nothing refers to the number zero, have the
same text if they have the same rank. -/
theorem ranked_eq_of_rank_eq {ms : List Shape}
    (hms : (union ms).WellFormed ∨ 0 ∉ (union ms).references) {m n : Shape} (hm : m ∈ ms)
    (hn : n ∈ ms) (h : (m.ranked style).1 = (n.ranked style).1) :
    m.ranked style = n.ranked style := by
  -- a reference to zero occurs in well-formed unions only, whose other members have texts
  have hzero : ∀ {k l : Shape}, k ∈ ms → l ∈ ms → k = .ref 0 → l.leads = true →
      l.text style ≠ "" := by
    rintro k l hk hl rfl hleads
    rcases hms with hms | hms
    · cases hms with
      | union _ hassorted hmembers =>
        have hplain := hassorted.plain l hl
        cases hmembers l hl with
        | object => exact text_object_ne_empty _ _
        | union => exact nomatch hplain
        | _ => exact nomatch hleads
    · exact absurd (mem_references_union.2 ⟨_, hk, List.mem_singleton_self _⟩) hms
  rcases eq_or_of_rank_eq h with rfl | htext | ⟨hk, hleads, htext⟩ | ⟨hk, hleads, htext⟩
  · rfl
  · exact Prod.ext h htext
  · exact absurd htext (hzero hm hn hk hleads)
  · exact absurd htext (hzero hn hm hk hleads)

namespace Shuffled

theorem rank_eq {m n : Shape} (h : m.Shuffled n) (text : String) : m.rank text = n.rank text := by
  cases h <;> rfl

theorem isUnion_eq {s t : Shape} (h : s.Shuffled t) : s.isUnion = t.isUnion := by
  cases h <;> rfl

/-- All shuffles of a shape have the same text. -/
theorem text_eq {s t : Shape} (h : s.Shuffled t) (hs : s.WellFormed ∨ 0 ∉ s.references) :
    s.text style = t.text style := by
  induction h with
  | prim _ | emptyArray | ref _ | foreign _ => rfl
  | array h ih =>
    rw [text, text, h.isUnion_eq, ih (hs.imp_left fun | .array hs => hs)]
  | @object fs gs order _ ih =>
    have hfields : fieldTexts style fs = fieldTexts style gs := by
      rw [fieldTexts_eq_map, fieldTexts_eq_map]
      refine map_eq_of_forall₂ (forall₂_imp_of_mem ih fun f hf g _ hfg ↦
        And.intro hfg (hfg.related.2 ?_)) fun f g hfg ↦ ?_
      · refine hs.imp (fun | .object _ _ hs => hs f hf) fun hzero hf0 ↦ ?_
        exact hzero (mem_references_object.2 ⟨f, hf, hf0⟩)
      · rw [hfg.1.name_eq, hfg.1.optional_eq, hfg.2]
    rw [text, text, hfields]
  | @union ms ms' ns _ hperm ih =>
    -- members and their shuffles are ranked alike, so sorting brings them into one order
    have hmembers : ms.map (ranked style) = ms'.map (ranked style) := by
      refine map_eq_of_forall₂ (forall₂_imp_of_mem ih fun m hm n _ hmn ↦
        And.intro hmn.1 (hmn.2 ?_)) fun m n hmn ↦ ?_
      · refine hs.imp (fun | .union _ _ hs => hs m hm) fun hzero hm0 ↦ ?_
        exact hzero (mem_references_union.2 ⟨m, hm, hm0⟩)
      · rw [ranked, ranked, hmn.2, hmn.1.rank_eq]
    rw [text, text, rankedTexts_eq_map, rankedTexts_eq_map,
      mergeSort_ranked_eq_of_perm ?_ (hmembers ▸ hperm.map (ranked style))]
    simp only [List.forall_mem_map]
    exact fun m hm n hn ↦ ranked_eq_of_rank_eq hs hm hn

/-- Where shapes are shuffles and nothing in them is no shape, both have a text, and it is the same.
-/
theorem text?_eq {s t : Shape} (h : s.Shuffled t) (hs : s.WellFormed ∨ 0 ∉ s.references)
    (hforeign : s.foreigns = []) : s.text? style = t.text? style := by
  rw [text?, text?, foreignKind?, foreignKind?, hforeign, h.foreigns_eq_nil hforeign, h.text_eq hs]

end Shuffled

end Shape

end JsonShapes
