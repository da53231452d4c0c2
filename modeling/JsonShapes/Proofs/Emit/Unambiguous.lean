import JsonShapes.Proofs.Emit.Boundaries
import JsonShapes.Proofs.Emit.Filled
import JsonShapes.Proofs.Emit.Pieces
import JsonShapes.Proofs.Shape.Parts

/-!
# Texts are unambiguous

Well-formed shapes are written in the same way only if they mean the same, but for the array of
which no item was seen, which is written as one of items of which nothing is known
(`text?_unambiguous`).

A text can be told from what stands behind it, and what may stand there is not the same for all
shapes. A union goes on for as long as members do, so it ends before a semicolon, a brace or a
parenthesis (`Complete`). Any other shape ends wherever no word goes on, but brackets behind it
belong to an array around it. Therefore shapes are compared as the elements of arrays, so many
levels deep on either side (`Legible`): the innermost element, where all arrays are taken off, is
told by the first character of its text, and after it the pairs of brackets are counted.

## The course of the proof

* What a text begins with says of which kind its core is (`opens`, `kind_eq_of_elementText_eq`).
  Words are then compared as a whole, since each of them goes on for as long as words do.
* A core is read by its kind. An object ends at its own brace because the texts of its fields are
  read one after another (`fieldTexts_append_inj`), and a union because those of its members are
  (`legible_of_alternatives`).
* The induction is on well-formed shapes, and says of each that its alternatives are legible
  (`legible_of_mem_alternatives`), as a union by itself is only so within parentheses.

Names need not be identifiers. Of a property key only this is used, that in front of a colon or a
question mark it can be read off the text.
-/

namespace JsonShapes.Shape

variable {style : Style} {s t : Shape}

/-! ### Arrays of arrays -/

/-- Filling goes down through arrays. -/
theorem filled_nested (levels : Nat) (s : Shape) :
    (nested levels s).filled = nested levels s.filled := by
  induction levels generalizing s with
  | zero => rfl
  | succ levels ih => exact ih (.array s)

/-- Arrays of as many levels are compared by what is in them. -/
theorem same_nested (levels : Nat) (s t : Shape) :
    (nested levels s).same (nested levels t) = s.same t := by
  induction levels generalizing s t with
  | zero => rfl
  | succ levels ih => exact ih (.array s) (.array t)

/-- Levels around levels are counted together. -/
theorem nested_nested (k l : Nat) (s : Shape) : nested k (nested l s) = nested (k + l) s := by
  induction k with
  | zero => rw [Nat.zero_add, nested]
  | succ k ih => rw [Nat.succ_add, nested_succ, nested_succ, ih]

/-- The text of a shape as the element of an array, with something behind it. -/
def elementText (style : Style) (s : Shape) (rest : List Char) : List Char :=
  if s.isUnion then '(' :: ((s.text style).toList ++ ')' :: rest) else (s.text style).toList ++ rest

theorem elementText_of_not_isUnion (h : s.isUnion = false) (rest : List Char) :
    elementText style s rest = (s.text style).toList ++ rest := by
  rw [elementText, h]
  rfl

theorem elementText_union (ms : List Shape) (rest : List Char) :
    elementText style (.union ms) rest =
      '(' :: (((union ms).text style).toList ++ ')' :: rest) :=
  rfl

theorem elementText_array (e : Shape) (rest : List Char) :
    elementText style (.array e) rest = elementText style e ('[' :: ']' :: rest) := by
  rw [elementText_of_not_isUnion rfl, text, elementText]
  split <;> simp [String.toList_append]

/-- An array of which no item was seen is written as if its element were unknown. -/
theorem elementText_emptyArray (rest : List Char) :
    elementText style .emptyArray rest = elementText style unknown ('[' :: ']' :: rest) := by
  rw [elementText_of_not_isUnion rfl, elementText_of_not_isUnion rfl, text, text,
    String.toList_append, List.append_assoc]
  rfl

/-- Every shape is written as arrays of arrays of one that is no array. -/
theorem exists_core (style : Style) (hs : s.WellFormed) :
    ∃ levels core, core.WellFormed ∧ core.isArray = false ∧
      s.filled = nested levels core.filled ∧
      ∀ rest, elementText style s rest = elementText style core (brackets levels rest) := by
  induction hs with
  | @array e _ ih =>
    obtain ⟨levels, core, hcore, harray, hfilled, htext⟩ := ih
    refine ⟨levels + 1, core, hcore, harray, ?_, fun rest ↦ ?_⟩
    · rw [filled, hfilled, nested_succ]
    · rw [elementText_array, htext, brackets_add]
      rfl
  | emptyArray => exact ⟨1, unknown, .prim _, rfl, rfl, elementText_emptyArray⟩
  | prim p => exact ⟨0, .prim p, .prim p, rfl, rfl, fun _ ↦ rfl⟩
  | object hincreasing hlisted hcontents =>
    exact ⟨0, _, .object hincreasing hlisted hcontents, rfl, rfl, fun _ ↦ rfl⟩
  | union hmany hassorted hmembers =>
    exact ⟨0, _, .union hmany hassorted hmembers, rfl, rfl, fun _ ↦ rfl⟩
  | ref id => exact ⟨0, .ref id, .ref id, rfl, rfl, fun _ ↦ rfl⟩

/-! ### Texts that can be read -/

/-- Whatever shape a text begins with as well, as the element of an array of so many levels, is the
same, if nothing follows that could belong to either. -/
def Legible (style : Style) (s : Shape) : Prop :=
  ∀ ⦃t : Shape⦄, t.WellFormed → ∀ ⦃k l : Nat⦄ ⦃rest rest' : List Char⦄, Follows rest →
    Follows rest' → elementText style s (brackets k rest) = elementText style t (brackets l rest') →
      (nested k s).filled.same (nested l t).filled = true ∧ rest = rest'

/-- Whatever shape a text begins with as well is the same, if nothing follows that could belong to
either. -/
def Complete (style : Style) (s : Shape) : Prop :=
  ∀ ⦃t : Shape⦄, t.WellFormed → ∀ ⦃rest rest' : List Char⦄, Ends rest → Ends rest' →
    (s.text style).toList ++ rest = (t.text style).toList ++ rest' →
      s.filled.same t.filled = true ∧ rest = rest'

/-- A shape that is no array need only be told from such. -/
theorem legible_of_cores (h : ∀ ⦃t : Shape⦄, t.WellFormed → t.isArray = false →
    ∀ ⦃rest rest' : List Char⦄, (∀ c ∈ rest.head?, inWord c = false) →
      (∀ c ∈ rest'.head?, inWord c = false) →
      elementText style s rest = elementText style t rest' →
        s.filled.same t.filled = true ∧ rest = rest') : Legible style s := by
  intro t ht k l rest rest' hrest hrest' htexts
  obtain ⟨levels, core, hcore, harray, hfilled, htext⟩ := exists_core style ht
  rw [htext, ← brackets_add] at htexts
  obtain ⟨hsame, hbrackets⟩ := h hcore harray (not_inWord_of_mem_head_brackets hrest)
    (not_inWord_of_mem_head_brackets hrest') htexts
  obtain ⟨rfl, hrests⟩ := brackets_inj hrest hrest' hbrackets
  refine ⟨?_, hrests⟩
  rw [filled_nested, filled_nested, hfilled, nested_nested, Nat.add_comm levels, same_nested]
  exact hsame

/-- If an element can be told from what is behind it, however many brackets there are, so can an
array of it: its own brackets are counted with the others. -/
theorem Legible.array {e : Shape} (h : Legible style e) : Legible style (.array e) := by
  intro t ht k l rest rest' hrest hrest' htexts
  rw [elementText_array] at htexts
  exact h (k := k + 1) ht hrest hrest' htexts

/-- The same for the array of which no item was seen. -/
theorem Legible.emptyArray (h : Legible style unknown) : Legible style .emptyArray := by
  intro t ht k l rest rest' hrest hrest' htexts
  rw [elementText_emptyArray] at htexts
  have hfilled : (nested k Shape.emptyArray).filled = (nested (k + 1) unknown).filled := by
    rw [filled_nested, filled_nested]
    rfl
  rw [hfilled]
  exact h (k := k + 1) ht hrest hrest' htexts

/-! ### Alternatives -/

/-- No alternative of a well-formed shape is a union. -/
theorem isUnion_of_mem_alternatives {m : Shape} (hs : s.WellFormed) (hm : m ∈ s.alternatives) :
    m.isUnion = false := by
  cases hs with
  | union _ hassorted _ =>
    have hplain := hassorted.plain m hm
    cases m <;> first | rfl | exact nomatch hplain
  | _ =>
    rw [List.mem_singleton.1 hm]
    rfl

/-- The text of a shape lists those of its alternatives, in some order. -/
theorem exists_texts (style : Style) (s : Shape) :
    ∃ ms : List Shape, ms.Perm s.alternatives ∧
      s.text style = " | ".intercalate (ms.map (text style)) := by
  cases s with
  | union ms =>
    refine ⟨ms.mergeSort fun m n ↦ (m.ranked style).1.le (n.ranked style).1,
      List.mergeSort_perm ms _, ?_⟩
    have hsort : (ms.mergeSort fun m n ↦ (m.ranked style).1.le (n.ranked style).1).map
        (ranked style) = (ms.map (ranked style)).mergeSort fun a b ↦ a.1.le b.1 :=
      List.map_mergeSort fun _ _ _ _ ↦ rfl
    rw [text, rankedTexts_eq_map, ← hsort, List.map_map]
    rfl
  | _ => exact ⟨[_], .refl _, (String.intercalate_singleton ..).symm⟩

/-- A shape of which all alternatives are legible is complete. -/
theorem complete_of_alternatives (hs : s.WellFormed)
    (h : ∀ m ∈ s.alternatives, Legible style m) : Complete style s := by
  intro t ht rest rest' hrest hrest' htexts
  obtain ⟨ms, hms, hs_text⟩ := exists_texts style s
  obtain ⟨ns, hns, ht_text⟩ := exists_texts style t
  have hne : ms ≠ [] := fun hnil ↦ alternatives_ne_nil hs (hnil ▸ hms).nil_eq.symm
  have hne' : ns ≠ [] := fun hnil ↦ alternatives_ne_nil ht (hnil ▸ hns).nil_eq.symm
  rw [hs_text, ht_text] at htexts
  -- members are told from each other one by one, with no brackets behind any of them
  have hitem : ∀ m ∈ ms, ∀ n ∈ ns, ∀ {r r' : List Char}, Follows r → Follows r' →
      (m.text style).toList ++ r = (n.text style).toList ++ r' →
        m.filled.same n.filled = true ∧ r = r' := by
    intro m hm n hn r r' hr hr' hmn
    have hm := hms.mem_iff.1 hm
    have hn := hns.mem_iff.1 hn
    refine h m hm (ht.mem_alternatives hn) (k := 0) (l := 0) hr hr' ?_
    rwa [brackets, brackets, elementText_of_not_isUnion (isUnion_of_mem_alternatives hs hm),
      elementText_of_not_isUnion (isUnion_of_mem_alternatives ht hn)]
  have hends : ∀ r, Ends r → Follows r := fun _ hr ↦ hr.1
  have hseparator : ∀ r, Follows (" | ".toList ++ r) := fun r ↦
    (follows_cons (c := ' ')).2 (by decide)
  have hother : ∀ r, ¬Ends (" | ".toList ++ r) := fun r hr ↦ hr.2 (List.prefix_append _ r)
  obtain ⟨hpaired, hrests⟩ :=
    forall₂_of_intercalate hends hseparator hother hitem hne hne' hrest hrest' htexts
  refine ⟨same_of_alternatives hs.filled ht.filled ?_ ?_, hrests⟩
  · rw [alternatives_filled, alternatives_filled]
    simp only [List.mem_map, forall_exists_index, and_imp, forall_apply_eq_imp_iff₂]
    intro m hm
    obtain ⟨n, hn, hmn⟩ := exists_of_forall₂_left hpaired (hms.mem_iff.2 hm)
    exact ⟨_, ⟨n, hns.mem_iff.1 hn, rfl⟩, hmn⟩
  · rw [alternatives_filled, alternatives_filled]
    simp only [List.mem_map, forall_exists_index, and_imp, forall_apply_eq_imp_iff₂]
    intro n hn
    obtain ⟨m, hm, hmn⟩ := exists_of_forall₂_right hpaired (hns.mem_iff.2 hn)
    exact ⟨_, ⟨m, hms.mem_iff.1 hm, rfl⟩, hmn⟩

/-! ### Objects -/

/-- The text of a field. -/
def fieldText (style : Style) (f : Field Shape) : String :=
  Identifier.property f.name ++ (if f.optional then "?: " else ": ") ++ f.content.text style

/-- Of two texts that begin with fields, the fields are alike and the rests are the same, if the
content of the first is complete. -/
theorem fieldText_append_inj {f g : Field Shape} (hf : Complete style f.content)
    (hg : g.content.WellFormed) {rest rest' : List Char} (hrest : Ends rest) (hrest' : Ends rest')
    (h : (fieldText style f).toList ++ rest = (fieldText style g).toList ++ rest') :
    (filledField f).Alike (filledField g) ∧ rest = rest' := by
  obtain ⟨name, optional, s⟩ := f
  obtain ⟨name', optional', t⟩ := g
  have hmark : ∀ (optional : Bool) (r : List Char), (if optional then "?: " else ": ").toList ++ r =
      bif optional then '?' :: ':' :: ' ' :: r else ':' :: ' ' :: r := by
    rintro (_ | _) r <;> rfl
  simp only [fieldText, String.toList_append, List.append_assoc, hmark] at h
  cases optional <;> cases optional'
  · obtain ⟨rfl, hmarks⟩ := Identifier.property_append_inj (.inr rfl) (.inr rfl) h
    obtain ⟨hsame, hrests⟩ := hf hg hrest hrest' (List.cons.inj (List.cons.inj hmarks).2).2
    exact ⟨⟨rfl, rfl, hsame⟩, hrests⟩
  · have hmarks := (Identifier.property_append_inj (.inr rfl) (.inl rfl) h).2
    exact absurd (List.cons.inj hmarks).1 (by decide)
  · have hmarks := (Identifier.property_append_inj (.inl rfl) (.inr rfl) h).2
    exact absurd (List.cons.inj hmarks).1 (by decide)
  · obtain ⟨rfl, hmarks⟩ := Identifier.property_append_inj (.inl rfl) (.inl rfl) h
    obtain ⟨hsame, hrests⟩ :=
      hf hg hrest hrest' (List.cons.inj (List.cons.inj (List.cons.inj hmarks).2).2).2
    exact ⟨⟨rfl, rfl, hsame⟩, hrests⟩

/-- The text of an object with fields, and what stands behind it, from the opening brace on. -/
theorem text_object_append {fs : List (Field Shape)} (hne : fs ≠ []) (order : List String)
    (rest : List Char) : ((object fs order).text style).toList ++ rest = '{' :: ' ' ::
      (("; ".intercalate (fs.map (fieldText style))).toList ++ ' ' :: '}' :: rest) := by
  have hfields : fieldTexts style fs = fs.map (fieldText style) := fieldTexts_eq_map fs
  rw [text, hfields]
  split
  · next hnil => exact absurd (List.map_eq_nil_iff.1 hnil) hne
  · rw [toList_braced, String.toList_append, String.toList_append, List.cons_append]
    simp only [List.append_assoc, List.cons_append, List.nil_append]
    rfl

/-- The same for an object without fields. -/
theorem text_object_nil_append (order : List String) (rest : List Char) :
    ((object [] order).text style).toList ++ rest = '{' :: '}' :: rest := by
  have htext : (object [] order).text style = braced "" := rfl
  rw [htext, toList_braced]
  rfl

/-- Of two texts that begin with the fields of an object, up to the brace behind these, the fields
are alike and the rests are the same. -/
theorem fieldTexts_append_inj {fs gs : List (Field Shape)} (hfs : fs ≠ []) (hgs : gs ≠ [])
    (hf : ∀ f ∈ fs, Complete style f.content) (hg : ∀ g ∈ gs, g.content.WellFormed)
    {rest rest' : List Char}
    (h : ("; ".intercalate (fs.map (fieldText style))).toList ++ ' ' :: '}' :: rest =
      ("; ".intercalate (gs.map (fieldText style))).toList ++ ' ' :: '}' :: rest') :
    List.Forall₂ (fun f g ↦ (filledField f).Alike (filledField g)) fs gs ∧ rest = rest' := by
  have hends : ∀ r, [' ', '}'] <+: r → Ends r := by
    rintro _ ⟨r, rfl⟩
    exact ⟨follows_cons.2 (by decide), by simp⟩
  have hseparator : ∀ r, Ends ("; ".toList ++ r) := fun r ↦
    ⟨(follows_cons (c := ';')).2 (by decide), by simp⟩
  have hother : ∀ r, ¬[' ', '}'] <+: "; ".toList ++ r := fun r ↦ by simp
  have hitem : ∀ f ∈ fs, ∀ g ∈ gs, ∀ {r r' : List Char}, Ends r → Ends r' →
      (fieldText style f).toList ++ r = (fieldText style g).toList ++ r' →
        (filledField f).Alike (filledField g) ∧ r = r' :=
    fun f hmem g hmem' _ _ ↦ fieldText_append_inj (hf f hmem) (hg g hmem')
  obtain ⟨halike, hrests⟩ := forall₂_of_intercalate hends hseparator hother hitem hfs hgs
    (List.prefix_append [' ', '}'] rest) (List.prefix_append [' ', '}'] rest') h
  exact ⟨halike, (List.cons.inj (List.cons.inj hrests).2).2⟩

/-! ### What a text begins with -/

/-- Whether a shape is written in one word. -/
def isWord : Shape → Bool
  | .prim _ => true
  | .ref _ => true
  | _ => false

/-- Whether the text of a shape that is no array may begin with the character. -/
def opens : Shape → Char → Bool
  | .object .., c => c = '{'
  | .union _, c => c = '('
  | _, c => inWord c

/-- The first character tells an object by its brace, a union by its parenthesis, and a word by
anything else. -/
theorem kind_eq_of_opens {c : Char} (hs : s.opens c = true) (ht : t.opens c = true) :
    s.isObject = t.isObject ∧ s.isUnion = t.isUnion := by
  have hbrace : inWord '{' = false := by decide
  have hparenthesis : inWord '(' = false := by decide
  cases s <;> cases t <;> simp_all [opens, isObject, isUnion]

/-- No alias is taken for the name of a primitive shape, as it has a digit in it. -/
theorem text_prim_ne_text_ref (p : Primitive) (id : Int) :
    (prim p).text style ≠ (ref id).text style :=
  (Identifier.aliasOf_ne (Identifier.isDigit_of_mem_primitiveName p) style.stem id).symm

/-- Of shapes that are written in one word, no two have the same text. -/
theorem eq_of_text_eq (hs : s.isWord = true) (ht : t.isWord = true)
    (h : s.text style = t.text style) : s = t := by
  cases s with
  | prim p =>
    cases t with
    | prim q => exact congrArg _ (Primitive.name_injective h)
    | ref id => exact absurd h (text_prim_ne_text_ref p id)
    | _ => exact nomatch ht
  | ref i =>
    cases t with
    | prim q => exact absurd h.symm (text_prim_ne_text_ref q i)
    | ref j => exact congrArg _ (style.aliasOf_injective h)
    | _ => exact nomatch ht
  | _ => exact nomatch hs

section Stem

variable (hstem : ∀ c ∈ style.stem.toList, Identifier.continues c = true)
include hstem

/-- A shape that is written in one word has a text, and that is a word. -/
theorem inWord_of_isWord (h : s.isWord = true) :
    (s.text style).toList ≠ [] ∧ ∀ c ∈ (s.text style).toList, inWord c = true := by
  cases s with
  | prim p =>
    have hnonempty : p.name.toList.isEmpty = false := by cases p <;> rfl
    exact ⟨List.isEmpty_eq_false_iff.1 hnonempty, p.inWord_of_mem_name⟩
  | ref id =>
    obtain ⟨c, hc, -⟩ := Identifier.exists_isDigit_mem_toString id
    rw [text, Style.aliasOf, Identifier.aliasOf, String.toList_append]
    refine ⟨List.append_ne_nil_of_right_ne_nil _ (List.ne_nil_of_mem hc),
      List.forall_mem_append.2 ⟨fun d hd ↦ ?_, inWord_of_mem_toString id⟩⟩
    rw [inWord, hstem d hd, Bool.true_or]
  | _ => exact absurd h Bool.false_ne_true

/-- What is no array begins with a character that its kind allows. -/
theorem exists_opening (hs : s.WellFormed) (harray : s.isArray = false) (rest : List Char) :
    ∃ c cs, elementText style s rest = c :: cs ∧ s.opens c = true := by
  have hword : ∀ {s : Shape}, s.isWord = true →
      ∃ c cs, (s.text style).toList ++ rest = c :: cs ∧ inWord c = true := by
    intro s hs
    obtain ⟨hne, hall⟩ := inWord_of_isWord hstem hs
    obtain ⟨c, cs, hcs⟩ := List.exists_cons_of_ne_nil hne
    exact ⟨c, cs ++ rest, by rw [hcs]; rfl, hall c (hcs ▸ List.mem_cons_self)⟩
  cases hs with
  | prim p => exact hword rfl
  | ref id => exact hword rfl
  | @object fs order =>
    rw [elementText_of_not_isUnion rfl, text]
    split <;> exact ⟨'{', _, congrArg (· ++ rest) (toList_braced _), rfl⟩
  | union => exact ⟨'(', _, rfl, rfl⟩
  | emptyArray | array => exact absurd harray.symm Bool.false_ne_true

/-- Texts that begin in the same way are of shapes of one kind. -/
theorem kind_eq_of_elementText_eq (hs : s.WellFormed) (ht : t.WellFormed)
    (hsa : s.isArray = false) (hta : t.isArray = false) {rest rest' : List Char}
    (h : elementText style s rest = elementText style t rest') :
    s.isObject = t.isObject ∧ s.isUnion = t.isUnion := by
  obtain ⟨c, cs, hs_text, hs_opens⟩ := exists_opening hstem hs hsa rest
  obtain ⟨d, ds, ht_text, ht_opens⟩ := exists_opening hstem ht hta rest'
  rw [hs_text, ht_text] at h
  exact kind_eq_of_opens hs_opens ((List.cons.inj h).1 ▸ ht_opens)

/-! ### Shapes that can be read -/

/-- A shape that is written in one word is legible. -/
theorem legible_of_isWord (hs : s.WellFormed) (hword : s.isWord = true) : Legible style s := by
  have hkinds : s.isArray = false ∧ s.isObject = false ∧ s.isUnion = false := by
    cases s <;> first | exact ⟨rfl, rfl, rfl⟩ | exact nomatch hword
  obtain ⟨harray, hobject, hunion⟩ := hkinds
  refine legible_of_cores fun t ht hta rest rest' hrest hrest' htexts ↦ ?_
  obtain ⟨hobject', hunion'⟩ := kind_eq_of_elementText_eq hstem hs ht harray hta htexts
  rw [hobject] at hobject'
  rw [hunion] at hunion'
  have hword' : t.isWord = true := by
    cases ht with
    | prim | ref => rfl
    | emptyArray | array => exact nomatch hta
    | object => exact absurd hobject' Bool.false_ne_true
    | union => exact absurd hunion' Bool.false_ne_true
  rw [elementText_of_not_isUnion hunion, elementText_of_not_isUnion hunion'.symm] at htexts
  obtain ⟨htext, hrests⟩ := run_append_inj (inWord_of_isWord hstem hword).2
    (inWord_of_isWord hstem hword').2 hrest hrest' htexts
  obtain rfl := eq_of_text_eq hword hword' (String.toList_injective htext)
  exact ⟨same_refl _, hrests⟩

/-- A shape of which all alternatives are legible is legible itself: as the element of an array a
union stands in parentheses. -/
theorem legible_of_alternatives (hs : s.WellFormed)
    (h : ∀ m ∈ s.alternatives, Legible style m) : Legible style s := by
  have hcomplete := complete_of_alternatives hs h
  cases s with
  | union ms =>
    refine legible_of_cores fun t ht harray rest rest' _ _ htexts ↦ ?_
    have hunion := (kind_eq_of_elementText_eq hstem hs ht rfl harray htexts).2
    cases t with
    | union ns =>
      rw [elementText_union, elementText_union] at htexts
      have hends : ∀ r, Ends (')' :: r) := fun r ↦ ⟨follows_cons.2 (by decide), by simp⟩
      obtain ⟨hsame, hrests⟩ := hcomplete ht (hends _) (hends _) (List.cons.inj htexts).2
      exact ⟨hsame, (List.cons.inj hrests).2⟩
    | _ => exact absurd hunion.symm Bool.false_ne_true
  | _ => exact h _ (List.mem_singleton_self _)

/-- An object is legible if its contents are complete. -/
theorem legible_object {fs : List (Field Shape)} {order : List String}
    (hs : (object fs order).WellFormed) (h : ∀ f ∈ fs, Complete style f.content) :
    Legible style (.object fs order) := by
  refine legible_of_cores fun t ht harray rest rest' _ _ htexts ↦ ?_
  have hobject := (kind_eq_of_elementText_eq hstem hs ht rfl harray htexts).1
  cases ht with
  | @object gs order' _ _ hcontents =>
    rw [elementText_of_not_isUnion rfl, elementText_of_not_isUnion rfl] at htexts
    rw [filled_object, filled_object, same_object, List.forall₂_map_left_iff,
      List.forall₂_map_right_iff]
    -- what comes after the opening brace tells whether there are fields
    by_cases hfs : fs = [] <;> by_cases hgs : gs = []
    · subst hfs hgs
      rw [text_object_nil_append, text_object_nil_append] at htexts
      exact ⟨.nil, (List.cons.inj (List.cons.inj htexts).2).2⟩
    · subst hfs
      rw [text_object_nil_append, text_object_append hgs] at htexts
      exact absurd (List.cons.inj (List.cons.inj htexts).2).1 (by decide)
    · subst hgs
      rw [text_object_nil_append, text_object_append hfs] at htexts
      exact absurd (List.cons.inj (List.cons.inj htexts).2).1 (by decide)
    · rw [text_object_append hfs, text_object_append hgs] at htexts
      exact fieldTexts_append_inj hfs hgs h hcontents (List.cons.inj (List.cons.inj htexts).2).2
  | _ => exact absurd hobject.symm Bool.false_ne_true

/-- The alternatives of every well-formed shape are legible. -/
theorem legible_of_mem_alternatives (hs : s.WellFormed) :
    ∀ m ∈ s.alternatives, Legible style m := by
  have hone : ∀ {s : Shape}, Legible style s → ∀ m ∈ [s], Legible style m :=
    fun h ↦ List.forall_mem_singleton.2 h
  induction hs with
  | prim p => exact hone (legible_of_isWord hstem (.prim p) rfl)
  | ref id => exact hone (legible_of_isWord hstem (.ref id) rfl)
  | emptyArray => exact hone (legible_of_isWord hstem (.prim _) rfl).emptyArray
  | array he ih => exact hone (legible_of_alternatives hstem he ih).array
  | object hincreasing hlisted hcontents ih =>
    exact hone (legible_object hstem (.object hincreasing hlisted hcontents) fun f hf ↦
      complete_of_alternatives (hcontents f hf) (ih f hf))
  | union _ _ hmembers ih =>
    exact fun m hm ↦ legible_of_alternatives hstem (hmembers m hm) (ih m hm)

/-- Well-formed shapes have the same text exactly if they mean the same, but for arrays of which no
item was seen. -/
theorem text_eq_iff (hs : s.WellFormed) (ht : t.WellFormed) :
    s.text style = t.text style ↔ s.filled.same t.filled = true := by
  refine ⟨fun h ↦ ?_, text_eq_of_filled_same hs ht⟩
  have hends : Ends [] := ⟨follows_nil, by decide⟩
  have hcomplete := complete_of_alternatives hs (legible_of_mem_alternatives hstem hs)
  exact (hcomplete ht hends hends (by rw [h])).1

end Stem

/-- Texts are unambiguous, whatever stem is configured for aliases: well-formed shapes have texts,
and these are the same exactly if the shapes are, once nothing is known of the items of any array of
which no item was seen. -/
theorem text?_unambiguous {configured : Option String}
    (hstem : style.stem = Identifier.stem configured) (hs : s.WellFormed) (ht : t.WellFormed) :
    ∃ text text', s.text? style = .ok text ∧ t.text? style = .ok text' ∧
      (text = text' ↔ s.filled.same t.filled = true) := by
  have htext : ∀ {s : Shape}, s.WellFormed → s.text? style = .ok (s.text style) := by
    intro s hs
    rw [text?, foreignKind?, hs.foreigns_eq_nil]
    rfl
  have hcontinues : ∀ c ∈ style.stem.toList, Identifier.continues c = true :=
    hstem ▸ Identifier.continues_of_mem_stem configured
  exact ⟨_, _, htext hs, htext ht, text_eq_iff hcontinues hs ht⟩

/-- An object with an optional field that has a name to be quoted, and in it an array of a union of
which the members are given in either order and an array of them is unresolved on one side only. -/
theorem text?_unambiguous_quoted :
    let s := object [⟨"a; b?: c", true, .array (.union [.ref (-1), .array .emptyArray])⟩]
      ["a; b?: c"]
    let t := object [⟨"a; b?: c", true, .array (.union [.array (.array unknown), .ref (-1)])⟩]
      ["a; b?: c"]
    (Style.standard.stem = Identifier.stem none ∧ s.WellFormed ∧ t.WellFormed) ∧
      ∃ text text', s.text? .standard = .ok text ∧ t.text? .standard = .ok text' ∧
        (text = text' ↔ s.filled.same t.filled = true) := by
  intro s t
  have hstem : Style.standard.stem = Identifier.stem none := rfl
  have hobject : ∀ {e : Shape}, e.WellFormed →
      (object [⟨"a; b?: c", true, .array e⟩] ["a; b?: c"]).WellFormed := fun he ↦
    .object (List.pairwise_singleton _ _) (.refl _) (by simpa using .array he)
  have hs : s.WellFormed := by
    refine hobject (.union (by decide) ⟨by decide, by decide, by decide, by decide⟩ ?_)
    simpa using ⟨.ref (-1), .array .emptyArray⟩
  have ht : t.WellFormed := by
    refine hobject (.union (by decide) ⟨by decide, by decide, by decide, by decide⟩ ?_)
    simpa using ⟨.array (.array (.prim _)), .ref (-1)⟩
  exact ⟨⟨hstem, hs, ht⟩, text?_unambiguous hstem hs ht⟩

end JsonShapes.Shape
