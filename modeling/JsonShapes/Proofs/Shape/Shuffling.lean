import JsonShapes.Proofs.Shape.Key
import JsonShapes.Proofs.Shape.References
import Mathlib.Data.List.Pairwise
import Mathlib.Data.List.Perm.Basic

/-!
# The order in which unions list their members

A union is a set, and the list that stands for it in a shape is one enumeration among many. Shapes
are shuffles of each other if they differ in nothing but the enumerations chosen for their unions,
at any depth (`Shape.Shuffled`): the fields of objects and the order of discovery are the same. This
is an equivalence that implies equality and keeps shapes well-formed, so whatever is read off the
meaning of a shape does not tell shuffles apart; what else is read off them has to be looked at.

The relation is needed because equality says less than it seems: it also ignores the order of
discovery, in which declared objects are emitted. To show that nothing a run writes depends on how
sets are enumerated, one has to keep that order and let go of the enumeration alone.

## What is kept and what is not

Kept are the depth, the references, the encoding and hence the key (`Shuffled.key_eq`), and whatever
equality of shapes keeps. Of lists that a shape holds, the fields and their order of discovery are
kept as they are. Not kept is any list of members, nor what is computed by going through one. That
such computations end with the same result is no matter of this relation; it has to be shown of
each, and mostly is, by going through the members in an order that does not depend on the list, such
as that of their keys or their texts.
-/

namespace JsonShapes

/-- Two fields that agree in name and optional mark, with related contents. -/
inductive Field.Related {σ τ : Type} (r : σ → τ → Prop) : Field σ → Field τ → Prop
  | mk (name : String) (optional : Bool) {s : σ} {t : τ} (content : r s t) :
      Related r ⟨name, optional, s⟩ ⟨name, optional, t⟩

namespace Field.Related

variable {σ τ : Type} {r : σ → τ → Prop} {f : Field σ} {g : Field τ}

theorem name_eq (h : Related r f g) : f.name = g.name := by
  cases h
  rfl

theorem optional_eq (h : Related r f g) : f.optional = g.optional := by
  cases h
  rfl

theorem related (h : Related r f g) : r f.content g.content := by
  cases h
  assumption

/-- Name, optional mark and content are all that is asked of related fields. -/
theorem of_eq (hname : f.name = g.name) (hoptional : f.optional = g.optional)
    (hcontent : r f.content g.content) : Related r f g := by
  obtain ⟨name, optional, s⟩ := f
  obtain ⟨_, _, t⟩ := g
  cases hname
  cases hoptional
  exact ⟨name, optional, hcontent⟩

end Field.Related

section Forall₂

variable {α β γ : Type} {R : α → β → Prop} {l : List α} {l' : List β}

/-- Lists related one by one to a common list are related one by one. -/
theorem forall₂_trans {S : β → γ → Prop} {T : α → γ → Prop} {l'' : List γ}
    (h : List.Forall₂ R l l') (h' : List.Forall₂ S l' l'') (hT : ∀ a b c, R a b → S b c → T a c) :
    List.Forall₂ T l l'' := by
  induction h generalizing l'' with
  | nil =>
    cases h'
    exact .nil
  | cons hab _ ih =>
    cases h' with
    | cons hbc h' => exact .cons (hT _ _ _ hab hbc) (ih h')

/-- A property of pairs passes to a list related one by one, if it passes to related pairs. -/
theorem pairwise_of_forall₂ {P : α → α → Prop} {Q : β → β → Prop} (h : List.Forall₂ R l l')
    (hl : l.Pairwise P) (hPQ : ∀ a a' b b', R a b → R a' b' → P a a' → Q b b') :
    l'.Pairwise Q := by
  induction h with
  | nil => exact .nil
  | cons hab hrest ih =>
    obtain ⟨ha, hl⟩ := List.pairwise_cons.1 hl
    refine List.pairwise_cons.2 ⟨fun b' hb' ↦ ?_, ih hl⟩
    obtain ⟨a', ha', hab'⟩ := exists_of_forall₂_right hrest hb'
    exact hPQ _ _ _ _ hab hab' (ha a' ha')

/-- Sorting by what related items agree in keeps lists related one by one. -/
theorem forall₂_mergeSort {le : α → α → Bool} {le' : β → β → Bool} (h : List.Forall₂ R l l')
    (hle : ∀ a b a' b', R a b → R a' b' → le a a' = le' b b') :
    List.Forall₂ R (l.mergeSort le) (l'.mergeSort le') := by
  obtain ⟨hlength, hR⟩ := List.forall₂_iff_zip.1 h
  have hl : (l.zip l').map Prod.fst = l := List.map_fst_zip hlength.le
  have hl' : (l.zip l').map Prod.snd = l' := List.map_snd_zip hlength.ge
  generalize l.zip l' = pairs at hR hl hl'
  -- both lists are read off one list of pairs, sorted
  have hsort : (pairs.mergeSort fun p q ↦ le p.1 q.1).map Prod.fst = l.mergeSort le := by
    rw [List.map_mergeSort (s := le) fun _ _ _ _ ↦ rfl, hl]
  have hsort' : (pairs.mergeSort fun p q ↦ le p.1 q.1).map Prod.snd = l'.mergeSort le' := by
    rw [List.map_mergeSort (s := le') fun p hp q hq ↦ hle _ _ _ _ (hR hp) (hR hq), hl']
  rw [← hsort, ← hsort', List.forall₂_map_left_iff, List.forall₂_map_right_iff]
  exact List.forall₂_same.2 fun p hp ↦ hR (List.mem_mergeSort.1 hp)

end Forall₂

namespace Shape

/-- Two shapes are the same but for the order in which the members of unions are listed. -/
inductive Shuffled : Shape → Shape → Prop
  | prim (p : Primitive) : Shuffled (.prim p) (.prim p)
  | emptyArray : Shuffled .emptyArray .emptyArray
  | array {e f : Shape} (h : Shuffled e f) : Shuffled (.array e) (.array f)
  | object {fs gs : List (Field Shape)} (order : List String)
      (h : List.Forall₂ (Field.Related Shuffled) fs gs) :
      Shuffled (.object fs order) (.object gs order)
  | union {ms ms' ns : List Shape} (h : List.Forall₂ Shuffled ms ms') (hperm : ms'.Perm ns) :
      Shuffled (.union ms) (.union ns)
  | ref (id : Int) : Shuffled (.ref id) (.ref id)
  | foreign (thing : Foreign) : Shuffled (.foreign thing) (.foreign thing)

/-- Two lists have the same shapes up to shuffling, in whatever order. -/
def Shuffle (ms ns : List Shape) : Prop :=
  ∃ ms', List.Forall₂ Shuffled ms ms' ∧ ms'.Perm ns

namespace Shuffled

/-- Induction over a shuffle: what holds of all pairs of parts passes to the pair. This is the
principle that the proofs about shuffles use in place of the recursor of the judgment. -/
@[elab_as_elim, induction_eliminator]
theorem induction {motive : ∀ s t : Shape, s.Shuffled t → Prop}
    (prim : ∀ p, motive (.prim p) (.prim p) (.prim p))
    (emptyArray : motive .emptyArray .emptyArray .emptyArray)
    (array : ∀ {e f : Shape} (h : e.Shuffled f), motive e f h →
      motive (.array e) (.array f) (.array h))
    (object : ∀ {fs gs : List (Field Shape)} (order : List String)
      (h : List.Forall₂ (Field.Related Shuffled) fs gs),
      List.Forall₂ (Field.Related fun s t ↦ ∃ h, motive s t h) fs gs →
        motive (.object fs order) (.object gs order) (.object order h))
    (union : ∀ {ms ms' ns : List Shape} (h : List.Forall₂ Shuffled ms ms') (hperm : ms'.Perm ns),
      List.Forall₂ (fun m n ↦ ∃ h, motive m n h) ms ms' →
        motive (.union ms) (.union ns) (.union h hperm))
    (ref : ∀ id, motive (.ref id) (.ref id) (.ref id))
    (foreign : ∀ thing, motive (.foreign thing) (.foreign thing) (.foreign thing))
    {s t : Shape} (h : s.Shuffled t) : motive s t h := by
  -- the recursor of the judgment does not reach into its lists, so the induction is on the shape
  induction s generalizing t with
  | prim p =>
    cases h
    exact prim p
  | emptyArray =>
    cases h
    exact emptyArray
  | array e ih =>
    cases h with
    | array h => exact array h (ih h)
  | object fs order ih =>
    cases h with
    | object _ h =>
      exact object order h (forall₂_imp_of_mem h fun f hf g _ hfg ↦
        .of_eq hfg.name_eq hfg.optional_eq ⟨hfg.related, ih f hf hfg.related⟩)
  | union ms ih =>
    cases h with
    | union h hperm =>
      exact union h hperm (forall₂_imp_of_mem h fun m hm _ _ hmn ↦ ⟨hmn, ih m hm hmn⟩)
  | ref id =>
    cases h
    exact ref id
  | foreign thing =>
    cases h
    exact foreign thing

/-- Every shape is a shuffle of itself, with each union enumerated as it is. -/
theorem refl (s : Shape) : s.Shuffled s := by
  induction s with
  | prim p => exact .prim p
  | emptyArray => exact .emptyArray
  | array e ih => exact .array ih
  | object fs order ih =>
    exact .object order (List.forall₂_same.2 fun f hf ↦ ⟨f.name, f.optional, ih f hf⟩)
  | union ms ih => exact .union (List.forall₂_same.2 ih) (.refl ms)
  | ref id => exact .ref id
  | foreign thing => exact .foreign thing

/-- An enumeration may be undone. -/
theorem symm {s t : Shape} (h : s.Shuffled t) : t.Shuffled s := by
  induction h with
  | prim _ | emptyArray | ref _ | foreign _ => exact refl _
  | array _ ih => exact .array ih
  | object order _ ih =>
    exact .object order (ih.flip.imp fun _ _ hfg ↦
      .of_eq hfg.name_eq.symm hfg.optional_eq.symm hfg.related.2)
  | union _ hperm ih =>
    have hback := ih.flip.imp fun _ _ hmn ↦ hmn.2
    obtain ⟨ms', hms', hperm'⟩ := List.perm_comp_forall₂ hperm.symm hback
    exact .union hms' hperm'

/-- One shuffle after another is a shuffle: the two enumerations of a union are composed. -/
theorem trans {s t u : Shape} (h : s.Shuffled t) (h' : t.Shuffled u) : s.Shuffled u := by
  induction h generalizing u with
  | prim _ | emptyArray | ref _ | foreign _ => exact h'
  | array _ ih =>
    cases h' with
    | array h' => exact .array (ih h')
  | object order _ ih =>
    cases h' with
    | object _ h' =>
      refine .object order (forall₂_trans ih h' fun f g k hfg hgk ↦ ?_)
      exact .of_eq (hfg.name_eq.trans hgk.name_eq) (hfg.optional_eq.trans hgk.optional_eq)
        (hfg.related.2 hgk.related)
  | union _ hperm ih =>
    cases h' with
    | union h' hperm' =>
      obtain ⟨ks, hks, hperm⟩ := List.perm_comp_forall₂ hperm h'
      exact .union (forall₂_trans ih hks fun _ _ _ hmn hnk ↦ hmn.2 hnk) (hperm.trans hperm')

/-! ### What shuffling keeps -/

/-- Shuffles mean the same. -/
theorem same {s t : Shape} (h : s.Shuffled t) : s.same t = true := by
  induction h with
  | prim _ | emptyArray | ref _ | foreign _ => exact same_refl _
  | array _ ih => exact ih
  | object order _ ih =>
    exact same_object.2 (ih.imp fun _ _ hfg ↦
      ⟨hfg.name_eq, hfg.optional_eq, hfg.related.2⟩)
  | union _ hperm ih =>
    refine same_union.2 ⟨fun m hm ↦ ?_, fun n hn ↦ ?_⟩
    · obtain ⟨n, hn, hmn⟩ := exists_of_forall₂_left ih hm
      exact ⟨n, hperm.mem_iff.1 hn, hmn.2⟩
    · obtain ⟨m, hm, hmn⟩ := exists_of_forall₂_right ih (hperm.mem_iff.2 hn)
      exact ⟨m, hm, hmn.2⟩

/-- Whether two shapes mean the same does not depend on how they are enumerated. -/
theorem same_eq {s s' t t' : Shape} (hss' : s.Shuffled s') (htt' : t.Shuffled t') :
    s.same t = s'.same t' :=
  Bool.eq_iff_iff.2
    ⟨fun h ↦ same_trans hss'.symm.same (same_trans h htt'.same),
      fun h ↦ same_trans hss'.same (same_trans h htt'.symm.same)⟩

theorem isPlain_eq {s t : Shape} (h : s.Shuffled t) : s.isPlain = t.isPlain := by
  cases h <;> rfl

theorem eq_emptyArray_iff {s t : Shape} (h : s.Shuffled t) :
    s = .emptyArray ↔ t = .emptyArray := by
  cases h <;> simp

/-- Shuffling makes no shape deeper. -/
theorem depth_le {s t : Shape} (h : s.Shuffled t) : t.depth ≤ s.depth := by
  induction h with
  | prim _ | emptyArray | ref _ | foreign _ => exact le_rfl
  | array _ ih => exact Nat.succ_le_succ ih
  | object order _ ih =>
    refine Nat.succ_le_succ (depthOfFields_le_iff.2 fun g hg ↦ ?_)
    obtain ⟨f, hf, hfg⟩ := exists_of_forall₂_right ih hg
    exact hfg.related.2.trans (depthOfFields_le_iff.1 le_rfl f hf)
  | union _ hperm ih =>
    refine depthOfAll_le_iff.2 fun n hn ↦ ?_
    obtain ⟨m, hm, hmn⟩ := exists_of_forall₂_right ih (hperm.mem_iff.2 hn)
    exact hmn.2.trans (depth_le_of_mem hm)

theorem depth_eq {s t : Shape} (h : s.Shuffled t) : s.depth = t.depth :=
  le_antisymm h.symm.depth_le h.depth_le

/-- Shuffling brings in no reference. -/
theorem references_subset {s t : Shape} (h : s.Shuffled t) : t.references ⊆ s.references := by
  induction h with
  | prim _ | emptyArray | ref _ | foreign _ => exact List.Subset.refl _
  | array _ ih => exact ih
  | object order _ ih =>
    intro id hid
    obtain ⟨g, hg, hid⟩ := mem_references_object.1 hid
    obtain ⟨f, hf, hfg⟩ := exists_of_forall₂_right ih hg
    exact mem_references_object.2 ⟨f, hf, hfg.related.2 hid⟩
  | union _ hperm ih =>
    intro id hid
    obtain ⟨n, hn, hid⟩ := mem_references_union.1 hid
    obtain ⟨m, hm, hmn⟩ := exists_of_forall₂_right ih (hperm.mem_iff.2 hn)
    exact mem_references_union.2 ⟨m, hm, hmn.2 hid⟩

theorem mem_references_iff {s t : Shape} (h : s.Shuffled t) {id : Int} :
    id ∈ s.references ↔ id ∈ t.references :=
  ⟨fun hid ↦ h.symm.references_subset hid, fun hid ↦ h.references_subset hid⟩

/-- Nor does it bring in anything that is no shape. -/
theorem foreigns_eq_nil {s t : Shape} (h : s.Shuffled t) (hs : s.foreigns = []) :
    t.foreigns = [] := by
  induction h with
  | prim _ | emptyArray | ref _ | foreign _ => exact hs
  | array _ ih => exact ih hs
  | object order _ ih =>
    refine foreignsOfFields_eq_nil_iff.2 fun g hg ↦ ?_
    obtain ⟨f, hf, hfg⟩ := exists_of_forall₂_right ih hg
    exact hfg.related.2 (foreignsOfFields_eq_nil_iff.1 hs f hf)
  | union _ hperm ih =>
    refine foreignsOfAll_eq_nil_iff.2 fun n hn ↦ ?_
    obtain ⟨m, hm, hmn⟩ := exists_of_forall₂_right ih (hperm.mem_iff.2 hn)
    exact hmn.2 (foreignsOfAll_eq_nil_iff.1 hs m hm)

/-- The encoding sorts the members of a union by their texts, so it is that of any shuffle. -/
theorem encoding_eq {s t : Shape} (h : s.Shuffled t) : s.encoding = t.encoding := by
  induction h with
  | prim _ | emptyArray | ref _ | foreign _ => rfl
  | array _ ih => rw [encoding, encoding, ih]
  | object order _ ih =>
    rw [encoding, encoding, encodedFields_eq_map, encodedFields_eq_map,
      map_eq_of_forall₂ ih fun f g hfg ↦ ?_]
    rw [hfg.name_eq, hfg.optional_eq, hfg.related.2]
  | union _ hperm ih =>
    rw [encoding_union, encoding_union, map_eq_of_forall₂ ih fun _ _ hmn ↦ hmn.2,
      Json.sortedByText_eq_of_perm (fun v hv ↦ ?_) (hperm.map _)]
    obtain ⟨m, -, rfl⟩ := List.mem_map.1 hv
    exact plain_encoding m

/-- The key sorts the members of unions, so it does not tell shuffles apart. -/
theorem key_eq {s t : Shape} (h : s.Shuffled t) : s.key = t.key := by
  rw [key, key, h.encoding_eq]

/-- Objects with shuffled fields are shuffles. -/
theorem ofFields {fs gs : List (Field Shape)} (order : List String)
    (h : List.Forall₂ (Field.Related Shuffled) fs gs) :
    (ofFields fs order).Shuffled (ofFields gs order) := by
  rw [Shape.ofFields, Shape.ofFields, map_eq_of_forall₂ h fun _ _ ↦ Field.Related.name_eq]
  refine .object _ (forall₂_mergeSort h fun f g f' g' hfg hfg' ↦ ?_)
  rw [hfg.name_eq, hfg'.name_eq]

theorem name_map_eq {fs gs : List (Field Shape)}
    (h : List.Forall₂ (Field.Related Shuffled) fs gs) : fs.map (·.name) = gs.map (·.name) :=
  map_eq_of_forall₂ h fun _ _ ↦ Field.Related.name_eq

end Shuffled

/-! ### Well-formed shapes -/

/-- Of shuffled lists, as many items have a property, if shuffles share it. -/
theorem countP_eq_of_shuffle {ms ns : List Shape} (h : Shuffle ms ns) {p : Shape → Bool}
    (hp : ∀ {m n : Shape}, m.Shuffled n → p m = p n) : ms.countP p = ns.countP p := by
  obtain ⟨ms', h, hperm⟩ := h
  have hmap : ms.map p = ms'.map p := map_eq_of_forall₂ h fun _ _ ↦ hp
  calc ms.countP p = (ms.map p).countP id := by rw [List.countP_map, Function.id_comp]
    _ = (ms'.map p).countP id := by rw [hmap]
    _ = ms'.countP p := by rw [List.countP_map, Function.id_comp]
    _ = ns.countP p := hperm.countP_eq p

/-- To differ does not depend on which of two shapes comes first. -/
theorem symm_differ : Std.Symm fun m n : Shape ↦ m.same n = false :=
  ⟨fun _ _ h ↦ Bool.eq_false_iff.2 fun hsame ↦ Bool.eq_false_iff.1 h (same_symm hsame)⟩

/-- Of shapes that may stand side by side in a union, only the same one means the same. -/
theorem Assorted.eq_of_same {ms : List Shape} (hms : Assorted ms) {m n : Shape} (hm : m ∈ ms)
    (hn : n ∈ ms) (h : m.same n = true) : m = n := by
  have := symm_differ
  by_contra hne
  exact Bool.eq_false_iff.1 (hms.distinct.forall hm hn hne) h

/-- Alternatives that may stand side by side still may when they are enumerated in another way. -/
theorem Assorted.shuffled {ms ns : List Shape} (hms : Assorted ms) (h : Shuffle ms ns) :
    Assorted ns := by
  refine ⟨?_, ?_, ?_, ?_⟩
  · obtain ⟨ms', h, hperm⟩ := h
    refine (hperm.pairwise_iff (symm_differ.symm _ _)).1
      (pairwise_of_forall₂ h hms.distinct fun m m' n n' hmn hmn' hdiffer ↦ ?_)
    rwa [← hmn.same_eq hmn']
  · obtain ⟨ms', h, hperm⟩ := h
    intro n hn
    obtain ⟨m, hm, hmn⟩ := exists_of_forall₂_right h (hperm.mem_iff.2 hn)
    rw [← hmn.isPlain_eq]
    exact hms.plain m hm
  · rw [← countP_eq_of_shuffle h fun hmn ↦ isObject_of_same hmn.same]
    exact hms.objects
  · rw [← countP_eq_of_shuffle h fun hmn ↦ isArray_of_same hmn.same]
    exact hms.arrays

/-- Shuffling keeps a shape well-formed. -/
theorem WellFormed.shuffled {s t : Shape} (hs : s.WellFormed) (h : s.Shuffled t) :
    t.WellFormed := by
  induction h with
  | prim _ | emptyArray | ref _ | foreign _ => exact hs
  | array _ ih =>
    cases hs with
    | array hs => exact .array (ih hs)
  | object order h ih =>
    cases hs with
    | object hincreasing hlisted hcontents =>
      refine .object ?_ (Shuffled.name_map_eq h ▸ hlisted) fun g hg ↦ ?_
      · exact pairwise_of_forall₂ h hincreasing fun f f' g g' hfg hfg' hlt ↦
          hfg.name_eq ▸ hfg'.name_eq ▸ hlt
      · obtain ⟨f, hf, hfg⟩ := exists_of_forall₂_right ih hg
        exact hfg.related.2 (hcontents f hf)
  | union h hperm ih =>
    cases hs with
    | union hmany hassorted hmembers =>
      refine .union ?_ (hassorted.shuffled ⟨_, h, hperm⟩) fun n hn ↦ ?_
      · rwa [← hperm.length_eq, ← h.length_eq]
      · obtain ⟨m, hm, hmn⟩ := exists_of_forall₂_right ih (hperm.mem_iff.2 hn)
        exact hmn.2 (hmembers m hm)

end Shape

end JsonShapes
