import JsonShapes.Proofs.Json.Compact
import JsonShapes.Proofs.Shape.WellFormed
import JsonShapes.Shape.Key

/-!
# The key of a shape and its meaning

Shapes with the same key mean the same (`same_of_key_eq`). The key is the compact text of an
encoding, from which the encoding can be recovered; the encoding in turn leaves out of a shape only
what its equality ignores. An encoding lists fields by name, so this needs that shapes do: what has
fields in any other order (`Shape.Sorted`) is not made by `Shape.ofFields`, and so never arises.

Conversely, shapes that mean the same have the same key (`key_eq_of_same`) unless a union lists a
member twice (`Shape.Irredundant`), which would show in the encoding. Unions that mean the same can
then be paired member by member, and the order of members is lost where they are sorted by text.

## Three layers

A key is a text, the text is one of an encoding, and the encoding is one of a shape. Each layer can
be taken off. The compact text of a JSON value determines the value, as is shown where compact texts
are. The encoding has a tag by which the kind of shape is known (`tag?`), and parts that are
encodings of the parts. Only the last step needs anything of the shape: that its fields are sorted
and that it has nothing foreign in it.

In the other direction the sorting of encodings is what does the work. Two lists of members that
mean the same, member by member in some order, have encodings that are rearrangements of each other,
and sorting by text undoes the rearrangement as no two encodings have one text
(`Json.sortedByText_eq_of_perm`).
-/

namespace JsonShapes

/-- Sorting by text rearranges. -/
theorem Json.sortedByText_perm (values : List Json) : (Json.sortedByText values).Perm values := by
  have h := (List.mergeSort_perm (values.map fun v ↦ (v.compact, v))
    fun a b ↦ decide (a.1 ≤ b.1)).map Prod.snd
  rw [List.map_map] at h
  exact h.trans (List.Perm.of_eq (List.map_id _))

/-- The values with their texts, in the order of these. -/
def Json.withTexts (values : List Json) : List (String × Json) :=
  (values.map fun v ↦ (v.compact, v)).mergeSort fun a b ↦ a.1 ≤ b.1

/-- Values sorted by text have texts that do not decrease. -/
theorem Json.pairwise_withTexts (values : List Json) :
    (Json.withTexts values).Pairwise fun a b ↦ a.1 ≤ b.1 := by
  have h : (Json.withTexts values).Pairwise fun a b ↦ decide (a.1 ≤ b.1) = true := by
    refine List.pairwise_mergeSort (fun a b c hab hbc ↦ ?_) (fun a b ↦ ?_) _
    · rw [decide_eq_true_eq] at hab hbc ⊢
      exact le_trans hab hbc
    · simpa using le_total a.1 b.1
  exact h.imp fun hle ↦ of_decide_eq_true hle

/-- Values sorted by their texts do not depend on the order in which they were given. -/
theorem Json.sortedByText_eq_of_perm {values values' : List Json} (h : ∀ v ∈ values, v.Plain)
    (hperm : values.Perm values') : Json.sortedByText values = Json.sortedByText values' := by
  have hmem : ∀ {vs : List Json}, vs.Perm values →
      ∀ a ∈ Json.withTexts vs, a.1 = a.2.compact ∧ a.2.Plain := by
    intro vs hvs a ha
    obtain ⟨v, hv, rfl⟩ := List.mem_map.1 ((List.mergeSort_perm _ _).mem_iff.1 ha)
    exact ⟨rfl, h v (hvs.mem_iff.1 hv)⟩
  have htexts : Json.withTexts values = Json.withTexts values' := by
    refine List.Perm.eq_of_pairwise (fun a b ha hb hab hba ↦ ?_) (Json.pairwise_withTexts _)
      (Json.pairwise_withTexts _) ?_
    · obtain ⟨hat, hap⟩ := hmem (.refl _) a ha
      obtain ⟨hbt, hbp⟩ := hmem hperm.symm b hb
      have htext : a.1 = b.1 := le_antisymm hab hba
      exact Prod.ext htext (Json.compact_inj hap hbp (hat ▸ hbt ▸ htext))
    · exact (List.mergeSort_perm _ _).trans ((hperm.map _).trans (List.mergeSort_perm _ _).symm)
  exact congrArg (List.map (·.2)) htexts

namespace Shape

/-- The shapes whose objects have their fields in the order of names, as `Shape.ofFields` leaves
them. -/
inductive Sorted : Shape → Prop
  | prim (p : Primitive) : Sorted (.prim p)
  | emptyArray : Sorted .emptyArray
  | array {e : Shape} (element : Sorted e) : Sorted (.array e)
  | object {fs : List (Field Shape)} (order : List String)
      (fields : fs.Pairwise fun f g ↦ f.name ≤ g.name) (contents : ∀ f ∈ fs, Sorted f.content) :
      Sorted (.object fs order)
  | union {ms : List Shape} (members : ∀ m ∈ ms, Sorted m) : Sorted (.union ms)
  | ref (id : Int) : Sorted (.ref id)
  | foreign (thing : Foreign) : Sorted (.foreign thing)

/-- Well-formed shapes list fields by name. -/
theorem WellFormed.sorted {s : Shape} (h : s.WellFormed) : s.Sorted := by
  induction h with
  | prim p => exact .prim p
  | emptyArray => exact .emptyArray
  | array _ ih => exact .array ih
  | object hincreasing _ _ ih => exact .object _ (hincreasing.imp le_of_lt) ih
  | union _ _ _ ih => exact .union ih
  | ref id => exact .ref id

theorem sorted_ofFields {fs : List (Field Shape)} (order : List String)
    (h : ∀ f ∈ fs, f.content.Sorted) : (ofFields fs order).Sorted :=
  .object _ (Field.pairwise_sorted fs) fun f hf ↦ h f ((Field.sorted_perm fs).mem_iff.1 hf)

/-- Shapes in whose unions no two members mean the same. -/
inductive Irredundant : Shape → Prop
  | prim (p : Primitive) : Irredundant (.prim p)
  | emptyArray : Irredundant .emptyArray
  | array {e : Shape} (element : Irredundant e) : Irredundant (.array e)
  | object {fs : List (Field Shape)} (order : List String)
      (contents : ∀ f ∈ fs, Irredundant f.content) : Irredundant (.object fs order)
  | union {ms : List Shape} (distinct : ms.Pairwise fun m n ↦ m.same n = false)
      (members : ∀ m ∈ ms, Irredundant m) : Irredundant (.union ms)
  | ref (id : Int) : Irredundant (.ref id)
  | foreign (thing : Foreign) : Irredundant (.foreign thing)

/-- Well-formed unions have no member twice. -/
theorem WellFormed.irredundant {s : Shape} (h : s.WellFormed) : s.Irredundant := by
  induction h with
  | prim p => exact .prim p
  | emptyArray => exact .emptyArray
  | array _ ih => exact .array ih
  | object _ _ _ ih => exact .object _ ih
  | union _ hassorted _ ih => exact .union hassorted.distinct ih
  | ref id => exact .ref id

/-! ### Encodings -/

/-- The encodings of members, as a map. -/
theorem encodings_eq_map (ms : List Shape) : encodings ms = ms.map encoding := by
  induction ms with
  | nil => rfl
  | cons m ms ih => rw [encodings, ih, List.map_cons]

/-- The encoding of a field. -/
def encodedField (f : Field Shape) : Json :=
  .array [.string f.name, .bool f.optional, f.content.encoding]

/-- The fields with the encodings of their contents, as a map. -/
theorem encodedFields_eq_map (fs : List (Field Shape)) :
    encodedFields fs = fs.map fun f ↦ ⟨f.name, f.optional, f.content.encoding⟩ := by
  induction fs with
  | nil => rfl
  | cons f fs ih => rw [encodedFields, ih, List.map_cons]

/-- A union is encoded with the encodings of its members sorted by text, where their order is lost.
-/
theorem encoding_union (ms : List Shape) : (union ms).encoding =
    .array [.string "union", .array (Json.sortedByText (ms.map encoding))] := by
  rw [encoding, encodings_eq_map]

/-- An object is encoded with its fields sorted by name. The order of discovery is not encoded. -/
theorem encoding_object (fs : List (Field Shape)) (order : List String) :
    (object fs order).encoding =
      .array [.string "object", .array ((Field.sorted fs).map encodedField)] := by
  have hsort : (encodedFields fs).mergeSort (fun f g ↦ f.name ≤ g.name) =
      (Field.sorted fs).map fun f ↦ ⟨f.name, f.optional, f.content.encoding⟩ := by
    rw [encodedFields_eq_map, Field.sorted, List.map_mergeSort]
    exact fun f _ g _ ↦ rfl
  rw [encoding, hsort, List.map_map]
  rfl

/-- An encoding has no objects and no numbers with a fraction, so `Json.compact_inj` recovers it
from its text. -/
theorem plain_encoding (s : Shape) : s.encoding.Plain := by
  have hpair : ∀ {tag : String} {v : Json}, v.Plain → (Json.array [.string tag, v]).Plain := by
    intro tag v hv
    exact .array (by simpa using ⟨.string tag, hv⟩)
  induction s with
  | prim p => exact .string _
  | emptyArray => exact hpair .null
  | array e ih => exact hpair ih
  | object fs order ih =>
    rw [encoding_object]
    refine hpair (.array fun item hitem ↦ ?_)
    obtain ⟨f, hf, rfl⟩ := List.mem_map.1 hitem
    have hcontent := ih f ((Field.sorted_perm fs).mem_iff.1 hf)
    exact .array (by simpa using ⟨.string _, .bool _, hcontent⟩)
  | union ms ih =>
    rw [encoding_union]
    refine hpair (.array fun item hitem ↦ ?_)
    obtain ⟨m, hm, rfl⟩ := List.mem_map.1 ((Json.sortedByText_perm _).mem_iff.1 hitem)
    exact ih m hm
  | ref id => exact hpair (.int id)
  | foreign thing => exact hpair (.string _)

/-! ### What an encoding tells -/

theorem Primitive.name_injective {p q : Primitive} (h : p.name = q.name) : p = q := by
  cases p <;> cases q <;> simp_all [Primitive.name]

/-- Members with the same encodings mean the same, one by one. -/
theorem exists_same_of_encodings {ms ns : List Shape}
    (h : Json.sortedByText (ms.map encoding) = Json.sortedByText (ns.map encoding)) {m : Shape}
    (hm : m ∈ ms) : ∃ n ∈ ns, m.encoding = n.encoding := by
  have hmem : m.encoding ∈ Json.sortedByText (ns.map encoding) := by
    rw [← h, (Json.sortedByText_perm _).mem_iff]
    exact List.mem_map_of_mem hm
  obtain ⟨n, hn, hmn⟩ := List.mem_map.1 ((Json.sortedByText_perm _).mem_iff.1 hmem)
  exact ⟨n, hn, hmn.symm⟩

/-- Fields with the same encodings agree one by one, if contents with the same encodings mean the
same. -/
theorem forall₂_of_encodedField {fs gs : List (Field Shape)}
    (ih : ∀ f ∈ fs, ∀ g ∈ gs, f.content.encoding = g.content.encoding →
      f.content.same g.content = true)
    (h : fs.map encodedField = gs.map encodedField) : List.Forall₂ Field.Alike fs gs := by
  induction fs generalizing gs with
  | nil =>
    cases gs with
    | nil => exact .nil
    | cons g gs => simp at h
  | cons f fs ihfs =>
    cases gs with
    | nil => simp at h
    | cons g gs =>
      obtain ⟨hfield, hrest⟩ := List.cons.inj h
      simp only [encodedField, Json.array.injEq, List.cons.injEq, Json.string.injEq,
        Json.bool.injEq, and_true] at hfield
      obtain ⟨hname, hoptional, hcontent⟩ := hfield
      refine .cons ⟨hname, hoptional, ih f List.mem_cons_self g List.mem_cons_self hcontent⟩ ?_
      exact ihfs (fun f hf g hg ↦ ih f (List.mem_cons_of_mem _ hf) g (List.mem_cons_of_mem _ hg))
        hrest

/-- What the encoding of a shape begins with, if it is not that of a primitive. -/
def tag? : Shape → Option String
  | .prim _ => none
  | .emptyArray => some "array"
  | .array _ => some "array"
  | .ref _ => some "ref"
  | .union _ => some "union"
  | .object .. => some "object"
  | .foreign _ => some "foreign"

/-- An encoding is a text, or an array of a tag and one more value. -/
theorem encoding_eq (s : Shape) : (∃ p, s = .prim p ∧ s.encoding = .string p.name) ∨
    ∃ tag v, s.tag? = some tag ∧ s.encoding = .array [.string tag, v] := by
  cases s with
  | prim p => exact Or.inl ⟨p, rfl, rfl⟩
  | _ => exact Or.inr ⟨_, _, rfl, rfl⟩

/-- The first item of an encoding tells of which kind the shape is. -/
theorem tag?_eq_of_encoding_eq {s t : Shape} (h : s.encoding = t.encoding) : s.tag? = t.tag? := by
  rcases encoding_eq s with ⟨p, rfl, hs⟩ | ⟨tag, v, htag, hs⟩ <;>
    rcases encoding_eq t with ⟨q, rfl, ht⟩ | ⟨tag', v', htag', ht⟩ <;> rw [hs, ht] at h
  · rfl
  · exact nomatch h
  · exact nomatch h
  · simp only [Json.array.injEq, List.cons.injEq, Json.string.injEq] at h
    rw [htag, htag', h.1]

/-- No shape is encoded as null, which stands for the element of an array that has none. -/
theorem encoding_ne_null (s : Shape) : s.encoding ≠ .null := by
  rcases encoding_eq s with ⟨p, -, hs⟩ | ⟨tag, v, -, hs⟩ <;> rw [hs] <;> exact nofun

/-- Shapes with the same encoding mean the same. -/
theorem same_of_encoding_eq {s t : Shape} (hs : s.Sorted) (ht : t.Sorted) (hsf : s.foreigns = [])
    (htf : t.foreigns = []) (h : s.encoding = t.encoding) : s.same t = true := by
  -- shapes with the same tag share their constructor, except for the two kinds of arrays
  have htag := tag?_eq_of_encoding_eq h
  induction hs generalizing t with
  | prim p =>
    cases ht with
    | prim q => exact same_prim.2 (Primitive.name_injective (Json.string.inj h))
    | _ => simp [tag?] at htag
  | emptyArray =>
    cases ht with
    | emptyArray => rfl
    | @array f _ =>
      simp only [encoding, Json.array.injEq, List.cons.injEq, and_true, true_and] at h
      exact absurd h.symm (encoding_ne_null f)
    | _ => simp [tag?] at htag
  | @array e _ ih =>
    cases ht with
    | emptyArray =>
      simp only [encoding, Json.array.injEq, List.cons.injEq, and_true, true_and] at h
      exact absurd h (encoding_ne_null e)
    | array hf =>
      simp only [encoding, Json.array.injEq, List.cons.injEq, and_true, true_and] at h
      exact ih hf hsf htf h (tag?_eq_of_encoding_eq h)
    | _ => simp [tag?] at htag
  | @object fs order hfields _ ih =>
    cases ht with
    | @object gs order' hfields' hcontents' =>
      rw [encoding_object, encoding_object, Field.sorted_of_pairwise hfields,
        Field.sorted_of_pairwise hfields'] at h
      simp only [Json.array.injEq, List.cons.injEq, and_true, true_and] at h
      refine same_object.2 (forall₂_of_encodedField (fun f hf g hg hfg ↦ ?_) h)
      exact ih f hf (hcontents' g hg) (foreignsOfFields_eq_nil_iff.1 hsf f hf)
        (foreignsOfFields_eq_nil_iff.1 htf g hg) hfg (tag?_eq_of_encoding_eq hfg)
    | _ => simp [tag?] at htag
  | @union ms _ ih =>
    cases ht with
    | @union ns hns =>
      rw [encoding_union, encoding_union] at h
      simp only [Json.array.injEq, List.cons.injEq, and_true, true_and] at h
      have hsame : ∀ m ∈ ms, ∀ n ∈ ns, m.encoding = n.encoding → m.same n = true :=
        fun m hm n hn hmn ↦ ih m hm (hns n hn) (foreignsOfAll_eq_nil_iff.1 hsf m hm)
          (foreignsOfAll_eq_nil_iff.1 htf n hn) hmn (tag?_eq_of_encoding_eq hmn)
      refine same_union.2 ⟨fun m hm ↦ ?_, fun n hn ↦ ?_⟩
      · obtain ⟨n, hn, hmn⟩ := exists_same_of_encodings h hm
        exact ⟨n, hn, hsame m hm n hn hmn⟩
      · obtain ⟨m, hm, hnm⟩ := exists_same_of_encodings h.symm hn
        exact ⟨m, hm, hsame m hm n hn hnm.symm⟩
    | _ => simp [tag?] at htag
  | ref id =>
    cases ht with
    | ref id' => simpa [encoding] using h
    | _ => simp [tag?] at htag
  | foreign thing => simp [foreigns] at hsf

/-- Shapes with the same key mean the same. -/
theorem same_of_key_eq {s t : Shape} (hs : s.Sorted) (ht : t.Sorted) (hsf : s.foreigns = [])
    (htf : t.foreigns = []) (h : s.key = t.key) : s.same t = true :=
  same_of_encoding_eq hs ht hsf htf (Json.compact_inj (plain_encoding s) (plain_encoding t) h)

/-! ### What the meaning tells -/

/-- The members of unions that mean the same can be paired, if neither has a member twice. -/
theorem exists_perm_forall₂_same {ms ns : List Shape}
    (hms : ms.Pairwise fun m n ↦ m.same n = false) (hns : ns.Pairwise fun m n ↦ m.same n = false)
    (hl : ∀ m ∈ ms, ∃ n ∈ ns, m.same n = true) (hr : ∀ n ∈ ns, ∃ m ∈ ms, m.same n = true) :
    ∃ ns', ns'.Perm ns ∧ List.Forall₂ (fun m n ↦ m.same n = true) ms ns' := by
  induction ms generalizing ns with
  | nil =>
    have hnil : ns = [] := List.eq_nil_iff_forall_not_mem.2 fun n hn ↦ by simpa using hr n hn
    exact ⟨[], hnil ▸ .refl _, .nil⟩
  | cons m ms ih =>
    obtain ⟨hm, hms⟩ := List.pairwise_cons.1 hms
    obtain ⟨n, hn, hmn⟩ := hl m List.mem_cons_self
    obtain ⟨before, after, rfl⟩ := List.append_of_mem hn
    have hsymm : ∀ {x y : Shape}, x.same y = false → y.same x = false :=
      fun hxy ↦ Bool.eq_false_iff.2 fun hyx ↦ Bool.eq_false_iff.1 hxy (same_symm hyx)
    have hperm : (before ++ n :: after).Perm (n :: (before ++ after)) := List.perm_middle
    obtain ⟨hn, hns⟩ := List.pairwise_cons.1 (hperm.pairwise hns hsymm)
    -- once `m` and `n` are paired, the others are left to each other
    have hl' : ∀ k ∈ ms, ∃ k' ∈ before ++ after, k.same k' = true := by
      intro k hk
      obtain ⟨k', hk', hkk'⟩ := hl k (List.mem_cons_of_mem _ hk)
      rcases List.mem_cons.1 (hperm.mem_iff.1 hk') with rfl | hk'
      · exact absurd (same_trans hmn (same_symm hkk')) (Bool.eq_false_iff.1 (hm k hk))
      · exact ⟨k', hk', hkk'⟩
    have hr' : ∀ k' ∈ before ++ after, ∃ k ∈ ms, k.same k' = true := by
      intro k' hk'
      obtain ⟨k, hk, hkk'⟩ := hr k' (hperm.mem_iff.2 (List.mem_cons_of_mem _ hk'))
      rcases List.mem_cons.1 hk with rfl | hk
      · exact absurd (same_trans (same_symm hmn) hkk') (Bool.eq_false_iff.1 (hn k' hk'))
      · exact ⟨k, hk, hkk'⟩
    obtain ⟨ns', hns', hpaired⟩ := ih hms hns hl' hr'
    exact ⟨n :: ns', (hns'.cons n).trans hperm.symm, .cons hmn hpaired⟩

/-- Shapes that mean the same have the same encoding. -/
theorem encoding_eq_of_same {s t : Shape} (hs : s.Irredundant) (ht : t.Irredundant)
    (h : s.same t = true) : s.encoding = t.encoding := by
  induction hs generalizing t with
  | prim _ | emptyArray | ref _ | foreign _ =>
    cases same_cases h
    rfl
  | array _ ih =>
    cases same_cases h with
    | array hef =>
      cases ht with
      | array hf => rw [encoding, encoding, ih hf hef]
  | @object fs order _ ih =>
    cases same_cases h with
    | @object _ gs _ order' halike =>
      cases ht with
      | object _ hgs =>
        have hfields : encodedFields fs = encodedFields gs := by
          rw [encodedFields_eq_map, encodedFields_eq_map]
          refine map_eq_of_forall₂
            (R := fun f g ↦ f.Alike g ∧ f.content.encoding = g.content.encoding) ?_ ?_
          · refine forall₂_imp_of_mem halike fun f hf g hg hfg ↦ ⟨hfg, ?_⟩
            exact ih f hf (hgs g hg) hfg.content
          · rintro f g ⟨hfg, hcontent⟩
            rw [hfg.name, hfg.optional, hcontent]
        rw [encoding, encoding, hfields]
  | @union ms hdistinct _ ih =>
    cases same_cases h with
    | @union _ ns hl hr =>
      cases ht with
      | union hdistinct' hns =>
        -- members of one union are paired with those of the other, as none is there twice
        obtain ⟨ns', hperm, hpaired⟩ := exists_perm_forall₂_same hdistinct hdistinct' hl hr
        have hencodings : ms.map encoding = ns'.map encoding := by
          refine map_eq_of_forall₂ (R := fun m n ↦ m.encoding = n.encoding) ?_ fun _ _ ↦ id
          exact forall₂_imp_of_mem hpaired fun m hm n hn ↦ ih m hm (hns n (hperm.mem_iff.1 hn))
        rw [encoding_union, encoding_union, hencodings,
          Json.sortedByText_eq_of_perm (List.forall_mem_map.2 fun n _ ↦ plain_encoding n)
            (hperm.map encoding)]

/-- Shapes that mean the same have the same key. -/
theorem key_eq_of_same {s t : Shape} (hs : s.Irredundant) (ht : t.Irredundant)
    (h : s.same t = true) : s.key = t.key := by
  rw [key, key, encoding_eq_of_same hs ht h]

end Shape

end JsonShapes
