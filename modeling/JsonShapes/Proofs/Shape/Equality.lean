import JsonShapes.Shape.Basic
import Mathlib.Data.List.Forall2
import Mathlib.Data.List.Induction

/-!
# Equality of shapes

`Shape.same` is an equivalence. Its definition walks two nested trees at once; the lemmas here say
what it asks at each constructor in terms of members and fields, so that nothing later opens the
definition. An object is compared field by field (`Field.Alike`), a union as a set of members.

Two properties of lists stand before the rest, as fields are compared one by one and members by
membership. What equality asks of an object does not mention the order in which its names were seen,
and what it asks of a union does not mention the order of its members; all that is said later of
shapes up to equality rests on these two.

`SameCases` is the inversion of equality. It has one case for each constructor and says of the parts
of the two shapes what is needed, so a proof about equal shapes goes by these cases and not by those
of either shape. `distinct` leaves one member for each meaning, the first (`pairwise_distinct`).
-/

namespace JsonShapes

section Forall₂

variable {α β : Type} {R : α → β → Prop} {l : List α} {l' : List β}

/-- Of lists related one by one, each item of the first is related to one of the second. -/
theorem exists_of_forall₂_left (h : List.Forall₂ R l l') {a : α} (ha : a ∈ l) :
    ∃ b ∈ l', R a b := by
  induction h with
  | nil => exact absurd ha List.not_mem_nil
  | cons hab _ ih =>
    rcases List.mem_cons.1 ha with rfl | ha
    · exact ⟨_, List.mem_cons_self, hab⟩
    · obtain ⟨b, hb, hab⟩ := ih ha
      exact ⟨b, List.mem_cons_of_mem _ hb, hab⟩

theorem exists_of_forall₂_right (h : List.Forall₂ R l l') {b : β} (hb : b ∈ l') :
    ∃ a ∈ l, R a b :=
  exists_of_forall₂_left h.flip hb

/-- Lists related one by one are related at each index. -/
theorem rel_getElem?_of_forall₂ (h : List.Forall₂ R l l') (i : Nat) :
    Option.Rel R l[i]? l'[i]? := by
  induction h generalizing i with
  | nil => exact .none
  | cons hab _ ih =>
    cases i with
    | zero => exact .some hab
    | succ i => exact ih i

/-- What follows for members of the two lists follows for the lists. -/
theorem forall₂_imp_of_mem {S : α → β → Prop} (h : List.Forall₂ R l l')
    (hRS : ∀ a ∈ l, ∀ b ∈ l', R a b → S a b) : List.Forall₂ S l l' := by
  obtain ⟨hlength, hR⟩ := List.forall₂_iff_zip.1 h
  refine List.forall₂_iff_zip.2 ⟨hlength, fun {a b} hmem ↦ ?_⟩
  exact hRS a (List.of_mem_zip hmem).1 b (List.of_mem_zip hmem).2 (hR hmem)

/-- Lists related one by one agree in what related items agree in. -/
theorem map_eq_of_forall₂ {γ : Type} {f : α → γ} {g : β → γ} (h : List.Forall₂ R l l')
    (hR : ∀ a b, R a b → f a = g b) : l.map f = l'.map g := by
  induction h with
  | nil => rfl
  | cons hab _ ih => rw [List.map_cons, List.map_cons, hR _ _ hab, ih]

end Forall₂

section EraseDups

variable {α : Type} [BEq α] [LawfulBEq α]

/-- What is not repeated is left as it is. -/
theorem eraseDups_of_nodup {l : List α} (h : l.Nodup) : l.eraseDups = l := by
  induction l with
  | nil => rfl
  | cons a l ih =>
    obtain ⟨hnot, hl⟩ := List.nodup_cons.1 h
    have hfilter : l.filter (fun b ↦ !b == a) = l :=
      List.filter_eq_self.2 fun b hb ↦ by simpa using ne_of_mem_of_not_mem hb hnot
    rw [List.eraseDups_cons, hfilter, ih hl]

/-- Erasing repetitions leaves none. -/
theorem nodup_eraseDups (l : List α) : l.eraseDups.Nodup := by
  induction l using List.reverseRecOn with
  | nil => exact List.nodup_nil
  | append_singleton l a ih =>
    rw [List.eraseDups_append]
    by_cases ha : a ∈ l
    · simpa [List.removeAll, ha] using ih
    · simpa [List.removeAll, ha, List.eraseDups_cons, List.nodup_append] using
        ⟨ih, fun b hb hba ↦ ha (hba ▸ hb)⟩

/-- Repetitions may be dropped before more is added. -/
theorem eraseDups_eraseDups_append (l m : List α) :
    (l.eraseDups ++ m).eraseDups = (l ++ m).eraseDups := by
  have helem : ∀ a, l.eraseDups.elem a = l.elem a := fun a ↦ Bool.eq_iff_iff.2 (by
    rw [List.elem_iff, List.elem_iff, List.mem_eraseDups])
  rw [List.eraseDups_append, List.eraseDups_append, eraseDups_of_nodup (nodup_eraseDups l),
    List.removeAll, List.removeAll, List.filter_congr fun a _ ↦ congrArg Bool.not (helem a)]

end EraseDups

/-- Two fields that agree in name and optional mark, with contents that mean the same. -/
structure Field.Alike (f g : Field Shape) : Prop where
  name : f.name = g.name
  optional : f.optional = g.optional
  content : f.content.same g.content = true

namespace Shape

/-- Induction over shapes: what holds of all parts of a shape passes to the shape. -/
@[elab_as_elim, induction_eliminator]
theorem induction {motive : Shape → Prop} (prim : ∀ p, motive (.prim p))
    (emptyArray : motive .emptyArray) (array : ∀ e, motive e → motive (.array e))
    (object : ∀ fs order, (∀ f ∈ fs, motive f.content) → motive (.object fs order))
    (union : ∀ ms, (∀ m ∈ ms, motive m) → motive (.union ms))
    (ref : ∀ id, motive (.ref id)) (foreign : ∀ thing, motive (.foreign thing)) (s : Shape) :
    motive s :=
  @Shape.rec motive (fun fs ↦ ∀ f ∈ fs, motive f.content) (fun ms ↦ ∀ m ∈ ms, motive m)
    (fun f ↦ motive f.content) prim emptyArray array object union ref foreign
    (fun _ h ↦ absurd h List.not_mem_nil)
    (fun _ _ hf hfs _ h ↦ (List.mem_cons.1 h).elim (fun e ↦ e ▸ hf) (hfs _))
    (fun _ h ↦ absurd h List.not_mem_nil)
    (fun _ _ hm hms _ h ↦ (List.mem_cons.1 h).elim (fun e ↦ e ▸ hm) (hms _))
    (fun _ _ _ h ↦ h) s

/-! ### What equality asks -/

@[simp]
theorem same_prim {p q : Primitive} : (prim p).same (prim q) = true ↔ p = q := by
  simp [same]

@[simp]
theorem same_array {e f : Shape} : (array e).same (array f) = e.same f := rfl

/-- References are compared by their numbers, not by what they stand for. -/
@[simp]
theorem same_ref {i j : Int} : (ref i).same (ref j) = true ↔ i = j := by
  simp [same]

/-- The fields of two objects are compared in pairs, from the front. -/
theorem sameFields_iff {fs gs : List (Field Shape)} :
    sameFields fs gs = true ↔ List.Forall₂ Field.Alike fs gs := by
  induction fs generalizing gs with
  | nil => cases gs <;> simp [sameFields]
  | cons f fs ih =>
    cases gs with
    | nil => simp [sameFields]
    | cons g gs =>
      simp only [sameFields, Bool.and_eq_true, beq_iff_eq, ih, List.forall₂_cons, and_assoc]
      exact ⟨fun ⟨hn, ho, hs, h⟩ ↦ ⟨⟨hn, ho, hs⟩, h⟩, fun ⟨⟨hn, ho, hs⟩, h⟩ ↦ ⟨hn, ho, hs, h⟩⟩

/-- Objects mean the same exactly when their fields agree one by one. -/
theorem same_object {fs gs : List (Field Shape)} {order order' : List String} :
    (object fs order).same (object gs order') = true ↔ List.Forall₂ Field.Alike fs gs :=
  sameFields_iff

/-- Being among members is meant up to equality. -/
theorem anySame_iff {ms : List Shape} {n : Shape} :
    anySame ms n = true ↔ ∃ m ∈ ms, m.same n = true := by
  induction ms with
  | nil => simp [anySame]
  | cons m ms ih => simp [anySame, ih]

/-- Each of some members is among others, up to equality. -/
theorem allIn_iff {ms ns : List Shape} :
    allIn ms ns = true ↔ ∀ m ∈ ms, ∃ n ∈ ns, m.same n = true := by
  induction ms with
  | nil => simp [allIn]
  | cons m ms ih => simp [allIn, ih]

/-- Unions mean the same exactly when each member of either means the same as one of the other. -/
theorem same_union {ms ns : List Shape} :
    (union ms).same (union ns) = true ↔
      (∀ m ∈ ms, ∃ n ∈ ns, m.same n = true) ∧ ∀ n ∈ ns, ∃ m ∈ ms, m.same n = true := by
  simp only [same, Bool.and_eq_true, allIn_iff, List.all_eq_true, anySame_iff]

/-- The ways in which two shapes mean the same: they share a constructor, and their parts agree. -/
inductive SameCases : Shape → Shape → Prop
  | prim (p : Primitive) : SameCases (.prim p) (.prim p)
  | emptyArray : SameCases .emptyArray .emptyArray
  | array {e f : Shape} (h : e.same f = true) : SameCases (.array e) (.array f)
  | object {fs gs : List (Field Shape)} {order order' : List String}
      (h : List.Forall₂ Field.Alike fs gs) : SameCases (.object fs order) (.object gs order')
  | union {ms ns : List Shape} (hl : ∀ m ∈ ms, ∃ n ∈ ns, m.same n = true)
      (hr : ∀ n ∈ ns, ∃ m ∈ ms, m.same n = true) : SameCases (.union ms) (.union ns)
  | ref (id : Int) : SameCases (.ref id) (.ref id)
  | foreign (thing : Foreign) : SameCases (.foreign thing) (.foreign thing)

/-- Whatever else is to be shown of shapes that mean the same need only look at these cases. -/
theorem same_cases {s t : Shape} (h : s.same t = true) : SameCases s t := by
  cases s <;> cases t <;> try (simp [same] at h; done)
  case prim p q => exact same_prim.1 h ▸ .prim p
  case emptyArray => exact .emptyArray
  case array e f => exact .array h
  case object => exact .object (same_object.1 h)
  case union => exact .union (same_union.1 h).1 (same_union.1 h).2
  case ref i j => exact same_ref.1 h ▸ .ref i
  case foreign k l =>
    rw [same, beq_iff_eq] at h
    exact h ▸ .foreign k

/-! ### Equality is an equivalence -/

/-- Every shape is equal to itself. -/
theorem same_refl (s : Shape) : s.same s = true := by
  induction s with
  | prim p => simp
  | emptyArray => rfl
  | array e ih => exact ih
  | object fs order ih =>
    exact same_object.2 (List.forall₂_same.2 fun f hf ↦ ⟨rfl, rfl, ih f hf⟩)
  | union ms ih => exact same_union.2 ⟨fun m hm ↦ ⟨m, hm, ih m hm⟩, fun m hm ↦ ⟨m, hm, ih m hm⟩⟩
  | ref id => simp
  | foreign thing => simp [same]

/-- Equality does not depend on which of two shapes comes first. The definition walks both at once,
so the induction is over one of them with the other arbitrary. -/
theorem same_symm {s t : Shape} (h : s.same t = true) : t.same s = true := by
  induction s generalizing t with
  | prim _ | emptyArray | ref _ | foreign _ =>
    cases same_cases h
    exact same_refl _
  | array e ih =>
    cases same_cases h with
    | array hef => exact ih hef
  | object fs order ih =>
    cases same_cases h with
    | object hfields =>
      refine same_object.2 (List.Forall₂.flip (forall₂_imp_of_mem hfields ?_))
      exact fun f hf g _ hfg ↦ ⟨hfg.name.symm, hfg.optional.symm, ih f hf hfg.content⟩
  | union ms ih =>
    cases same_cases h with
    | union hl hr =>
      refine same_union.2 ⟨fun n hn ↦ ?_, fun m hm ↦ ?_⟩
      · obtain ⟨m, hm, hmn⟩ := hr n hn
        exact ⟨m, hm, ih m hm hmn⟩
      · obtain ⟨n, hn, hmn⟩ := hl m hm
        exact ⟨n, hn, ih m hm hmn⟩

/-- Fields that agree with the same fields agree, if that holds of their contents. -/
theorem forall₂_alike_trans {fs gs ks : List (Field Shape)}
    (ih : ∀ f ∈ fs, ∀ t u : Shape, f.content.same t = true → t.same u = true →
      f.content.same u = true)
    (h : List.Forall₂ Field.Alike fs gs) (h' : List.Forall₂ Field.Alike gs ks) :
    List.Forall₂ Field.Alike fs ks := by
  induction h generalizing ks with
  | nil => exact h'
  | @cons f g fs gs hfg _ ihfs =>
    cases h' with
    | cons hgk h' =>
      refine .cons ⟨hfg.name.trans hgk.name, hfg.optional.trans hgk.optional, ?_⟩ ?_
      · exact ih f List.mem_cons_self _ _ hfg.content hgk.content
      · exact ihfs (fun f hf ↦ ih f (List.mem_cons_of_mem _ hf)) h'

/-- Shapes that are equal to one are equal to each other. By induction over the first shape; for
unions both directions are composed member by member. -/
theorem same_trans {s t u : Shape} (h : s.same t = true) (h' : t.same u = true) :
    s.same u = true := by
  induction s generalizing t u with
  | prim _ | emptyArray | ref _ | foreign _ =>
    cases same_cases h
    exact h'
  | array e ih =>
    cases same_cases h with
    | array hef =>
      cases same_cases h' with
      | array hfg => exact ih hef hfg
  | object fs order ih =>
    cases same_cases h with
    | object hfg =>
      cases same_cases h' with
      | object hgk => exact same_object.2 (forall₂_alike_trans (fun f hf _ _ ↦ ih f hf) hfg hgk)
  | union ms ih =>
    cases same_cases h with
    | union hl hr =>
      cases same_cases h' with
      | union hl' hr' =>
        refine same_union.2 ⟨fun m hm ↦ ?_, fun k hk ↦ ?_⟩
        · obtain ⟨n, hn, hmn⟩ := hl m hm
          obtain ⟨k, hk, hnk⟩ := hl' n hn
          exact ⟨k, hk, ih m hm hmn hnk⟩
        · obtain ⟨n, hn, hnk⟩ := hr' k hk
          obtain ⟨m, hm, hmn⟩ := hr n hn
          exact ⟨m, hm, ih m hm hmn hnk⟩

/-! ### Members without repetition -/

theorem distinct_concat (ms : List Shape) (m : Shape) :
    distinct (ms ++ [m]) = if anySame (distinct ms) m then distinct ms else distinct ms ++ [m] := by
  rw [distinct, List.foldl_append]
  rfl

/-- What is kept was there. -/
theorem mem_of_mem_distinct {ms : List Shape} {k : Shape} (h : k ∈ distinct ms) : k ∈ ms := by
  induction ms using List.reverseRecOn with
  | nil => exact h
  | append_singleton ms m ih =>
    rw [distinct_concat] at h
    split at h
    · exact List.mem_append_left _ (ih h)
    · exact (List.mem_append.1 h).elim (fun h ↦ List.mem_append_left _ (ih h))
        fun h ↦ List.mem_append_right _ h

/-- What is left out means the same as something that is kept. -/
theorem exists_mem_distinct {ms : List Shape} {m : Shape} (h : m ∈ ms) :
    ∃ k ∈ distinct ms, k.same m = true := by
  induction ms using List.reverseRecOn with
  | nil => exact absurd h List.not_mem_nil
  | append_singleton ms n ih =>
    rw [distinct_concat]
    rcases List.mem_append.1 h with h | h
    · obtain ⟨k, hk, hkm⟩ := ih h
      split
      · exact ⟨k, hk, hkm⟩
      · exact ⟨k, List.mem_append_left _ hk, hkm⟩
    · rw [List.mem_singleton.1 h]
      split
      · exact anySame_iff.1 ‹_›
      · exact ⟨n, by simp, same_refl n⟩

/-- No two members that are kept are equal. -/
theorem pairwise_distinct (ms : List Shape) :
    (distinct ms).Pairwise fun m n ↦ m.same n = false := by
  induction ms using List.reverseRecOn with
  | nil => exact List.Pairwise.nil
  | append_singleton ms n ih =>
    rw [distinct_concat]
    split
    · exact ih
    · rename_i hnone
      refine List.pairwise_append.2 ⟨ih, List.pairwise_singleton _ _, fun m hm k hk ↦ ?_⟩
      rw [List.mem_singleton.1 hk]
      exact Bool.eq_false_iff.2 fun hsame ↦ hnone (anySame_iff.2 ⟨m, hm, hsame⟩)

end Shape

end JsonShapes
