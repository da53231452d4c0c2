import JsonShapes.Proofs.Catalog.Unfolding
import JsonShapes.Proofs.Shape.Occurrences

/-!
# Settled shapes are known by what they unfold to

Hoisting gives every object a declaration, every array of which no item was seen, and every array of
what has one (`Shape.isNamed`); all else stays where it is. So a hoisted shape refers to a
declaration exactly where it unfolds to something of these kinds (`Catalog.Settled`), and what is
declared has such parts (`Catalog.Body`).

Of such shapes no two unfold to the same: two that do are equal up to the numbers in their
references (`Settled.rename_same`). In a catalog all of whose declarations are made of settled parts
(`Catalog.Tidy`) a number is therefore determined by what it unfolds to (`Tidy.eq_of_unfold_same`).
This takes that a declaration which hoisting would not make, such as that of an inline root, is
never referred to, or else one shape could be written in two ways.

Uniqueness goes down two shapes at once and compares what they unfold to. One of them cannot be a
reference where the other is spelled out, as either is decided by the kind of what is unfolded; and
where both are references, the numbers are equal by induction on the declarations. Keys come in at
the end only: declarations that are equal but for the order of what is enumerated have one key, so a
catalog has one of them.
-/

namespace JsonShapes

open Shape

namespace Catalog

variable {c c' : Catalog}

/-! ### Unfolding, case by case -/

@[simp]
theorem unfold_prim (p : Primitive) : c.unfold (.prim p) = .prim p := rfl

@[simp]
theorem unfold_emptyArray : c.unfold .emptyArray = .emptyArray := rfl

@[simp]
theorem unfold_array (e : Shape) : c.unfold (.array e) = .array (c.unfold e) := rfl

theorem unfold_union (ms : List Shape) : c.unfold (.union ms) = .union (ms.map c.unfold) :=
  resolve_union ms

/-- The field with its content unfolded. -/
def unfoldField (c : Catalog) (f : Field Shape) : Field Shape :=
  { f with content := c.unfold f.content }

theorem unfold_object (fs : List (Field Shape)) (order : List String) :
    c.unfold (.object fs order) = .object (fs.map c.unfoldField) order :=
  resolve_object fs order

/-! ### Settled shapes -/

/-- The shape refers to a declaration exactly where it unfolds to what hoisting names. -/
inductive Settled (c : Catalog) : Shape → Prop
  | prim (p : Primitive) : Settled c (.prim p)
  /-- A reference leads to what hoisting names. -/
  | ref {id : Int} (named : (c.unfold (.ref id)).isNamed = true) : Settled c (.ref id)
  /-- An array that is left inline has an element that is not named, as else it would be named
  itself. -/
  | array {e : Shape} (element : Settled c e) (nameless : (c.unfold e).isNamed = false) :
      Settled c (.array e)
  | union {ms : List Shape} (members : ∀ m ∈ ms, Settled c m) : Settled c (.union ms)

/-- What is declared: something that hoisting names, made of settled parts, or else a settled shape
that stands for a whole document. -/
inductive Body (c : Catalog) : Shape → Prop
  /-- An array of which no item was seen is declared. -/
  | emptyArray : Body c .emptyArray
  /-- So is an array around what has a declaration. -/
  | array {e : Shape} (element : c.Settled e) (named : (c.unfold e).isNamed = true) :
      Body c (.array e)
  /-- So is any object. -/
  | object {fs : List (Field Shape)} (order : List String)
      (contents : ∀ f ∈ fs, c.Settled f.content) : Body c (.object fs order)
  /-- A whole document may be declared though it is not of these. -/
  | inline {t : Shape} (settled : c.Settled t) (nameless : (c.unfold t).isNamed = false) : Body c t

/-- A settled shape is a reference exactly if it unfolds to what hoisting names. -/
theorem Settled.isNamed_unfold_iff {t : Shape} (h : c.Settled t) :
    (c.unfold t).isNamed = true ↔ ∃ id, t = .ref id := by
  cases h with
  | prim p => simp [isNamed]
  | ref hnamed => simp [hnamed]
  | array _ hnameless => simp [isNamed, hnameless]
  | union => simp [unfold_union, isNamed]

/-- What unfolds alike in two catalogs is settled in both. -/
theorem Settled.congr {t : Shape} (h : c.Settled t)
    (href : ∀ s : Shape, (∀ id ∈ s.references, id ∈ t.references) → c'.unfold s = c.unfold s) :
    c'.Settled t := by
  induction h with
  | prim p => exact .prim p
  | ref hnamed => exact .ref ((href _ fun _ hid ↦ hid).symm ▸ hnamed)
  | @array e _ hnameless ih => exact .array (ih href) ((href e fun _ hid ↦ hid).symm ▸ hnameless)
  | @union ms _ ih =>
    refine .union fun m hm ↦ ih m hm fun s hs ↦ href s fun id hid ↦ ?_
    exact mem_references_union.2 ⟨m, hm, hs id hid⟩

/-- What is settled stays so while the catalog grows. -/
theorem Settled.mono {t : Shape} (h : c.Settled t) (hinitial : c.shapes <+: c'.shapes)
    (hknown : ∀ r ∈ t.references, c.contains r = true) : c'.Settled t :=
  h.congr fun _ hs ↦ unfold_eq_of_initial hinitial fun r hr ↦ hknown r (hs r hr)

/-- What may be declared may be declared later. -/
theorem Body.mono {t : Shape} (h : c.Body t) (hinitial : c.shapes <+: c'.shapes)
    (hknown : ∀ r ∈ t.references, c.contains r = true) : c'.Body t := by
  cases h with
  | emptyArray => exact .emptyArray
  | @array e he hnamed =>
    have hunfold : c'.unfold e = c.unfold e := unfold_eq_of_initial hinitial hknown
    exact .array (he.mono hinitial hknown) (hunfold ▸ hnamed)
  | object order hfs =>
    refine .object order fun f hf ↦ (hfs f hf).mono hinitial fun r hr ↦ hknown r ?_
    exact mem_references_object.2 ⟨f, hf, hr⟩
  | inline ht hnameless =>
    have hunfold : c'.unfold t = c.unfold t := unfold_eq_of_initial hinitial hknown
    exact .inline (ht.mono hinitial hknown) (hunfold ▸ hnameless)

/-! ### One shape for one meaning -/

section Rename

variable {f : Int → Int}

/-- Settled shapes of two catalogs that unfold to the same are the same up to renaming, if the
numbers in them are. -/
theorem Settled.rename_same {t u : Shape} (ht : c.Settled t) (hu : c'.Settled u)
    (hf : ∀ i ∈ t.references, ∀ j ∈ u.references,
      (c.unfold (.ref i)).same (c'.unfold (.ref j)) = true → f i = j)
    (h : (c.unfold t).same (c'.unfold u) = true) : (t.rename f).same u = true := by
  -- one of the two is a reference exactly if the other is
  have hrefs : (∃ i, t = .ref i) ↔ ∃ j, u = .ref j := by
    rw [← ht.isNamed_unfold_iff, ← hu.isNamed_unfold_iff, isNamed_of_same h]
  induction ht generalizing u with
  | prim p =>
    cases hu with
    | prim q => exact h
    | ref => simp at hrefs
    | array => cases same_cases h
    | union => simp [unfold_union, same] at h
  | @ref i _ =>
    obtain ⟨j, rfl⟩ := hrefs.1 ⟨i, rfl⟩
    exact same_ref.2 (hf i (List.mem_singleton_self i) j (List.mem_singleton_self j) h)
  | @array e he _ ih =>
    cases hu with
    | prim => cases same_cases h
    | ref => simp at hrefs
    | @array e' he' _ =>
      have helements : (c.unfold e).same (c'.unfold e') = true := h
      refine ih he' hf helements ?_
      rw [← he.isNamed_unfold_iff, ← he'.isNamed_unfold_iff, isNamed_of_same helements]
    | union => simp [unfold_union, same] at h
  | @union ms hms ih =>
    cases hu with
    | prim => simp [unfold_union, same] at h
    | ref => simp at hrefs
    | array => simp [unfold_union, same] at h
    | @union ns hns =>
      rw [unfold_union, unfold_union] at h
      obtain ⟨hl, hr⟩ := same_union.1 h
      have hmember : ∀ m ∈ ms, ∀ n ∈ ns, (c.unfold m).same (c'.unfold n) = true →
          (m.rename f).same n = true := by
        intro m hm n hn hmn
        refine ih m hm (hns n hn) (fun i hi j hj ↦ hf i ?_ j ?_) hmn ?_
        · exact mem_references_union.2 ⟨m, hm, hi⟩
        · exact mem_references_union.2 ⟨n, hn, hj⟩
        · rw [← (hms m hm).isNamed_unfold_iff, ← (hns n hn).isNamed_unfold_iff,
            isNamed_of_same hmn]
      rw [rename_union]
      refine same_union.2 ⟨List.forall_mem_map.2 fun m hm ↦ ?_, fun n hn ↦ ?_⟩
      · obtain ⟨_, hmem, hmn⟩ := hl _ (List.mem_map_of_mem hm)
        obtain ⟨n, hn, rfl⟩ := List.mem_map.1 hmem
        exact ⟨n, hn, hmember m hm n hn hmn⟩
      · obtain ⟨_, hmem, hmn⟩ := hr _ (List.mem_map_of_mem hn)
        obtain ⟨m, hm, rfl⟩ := List.mem_map.1 hmem
        exact ⟨_, List.mem_map_of_mem hm, hmember m hm n hn hmn⟩

/-- The same of what is declared. Bodies of two kinds do not unfold to the same, and two of one kind
are compared part by part. -/
theorem Body.rename_same {t u : Shape} (ht : c.Body t) (hu : c'.Body u)
    (hf : ∀ i ∈ t.references, ∀ j ∈ u.references,
      (c.unfold (.ref i)).same (c'.unfold (.ref j)) = true → f i = j)
    (h : (c.unfold t).same (c'.unfold u) = true) : (t.rename f).same u = true := by
  -- what is named is told from what is not by what it unfolds to
  have hnamed := isNamed_of_same h
  cases ht with
  | emptyArray =>
    cases hu with
    | emptyArray => rfl
    | array => cases same_cases h
    | object => simp [unfold_object, same] at h
    | inline _ hnameless => exact absurd (hnamed.trans hnameless) Bool.false_ne_true.symm
  | array he hename =>
    cases hu with
    | emptyArray => cases same_cases h
    | array he' => exact he.rename_same he' hf h
    | object => simp [unfold_object, same] at h
    | inline _ hnameless =>
      exact absurd (hename.symm.trans (hnamed.trans hnameless)) Bool.false_ne_true.symm
  | @object fs order hfs =>
    rw [unfold_object] at h hnamed
    cases hu with
    | emptyArray => simp [same] at h
    | array => simp [same] at h
    | @object gs order' hgs =>
      rw [unfold_object] at h
      have halike := List.forall₂_map_right_iff.1 (List.forall₂_map_left_iff.1 (same_object.1 h))
      rw [rename_object]
      refine same_object.2 (List.forall₂_map_left_iff.2 (forall₂_imp_of_mem halike ?_))
      intro k hk g hg hkg
      refine ⟨hkg.name, hkg.optional, (hfs k hk).rename_same (hgs g hg) ?_ hkg.content⟩
      refine fun i hi j hj ↦ hf i ?_ j ?_
      · exact mem_references_object.2 ⟨k, hk, hi⟩
      · exact mem_references_object.2 ⟨g, hg, hj⟩
    | inline _ hnameless => exact absurd (hnamed.trans hnameless) Bool.false_ne_true.symm
  | inline ht hnameless =>
    cases hu with
    | emptyArray => exact absurd (hnameless.symm.trans hnamed) Bool.false_ne_true
    | array _ hename => exact absurd (hnameless.symm.trans (hnamed.trans hename)) Bool.false_ne_true
    | object =>
      rw [unfold_object] at hnamed
      exact absurd (hnameless.symm.trans hnamed) Bool.false_ne_true
    | inline hu => exact ht.rename_same hu hf h

end Rename

/-! ### Tidy catalogs -/

/-- A sound catalog whose declarations are made of settled parts. -/
structure Tidy (c : Catalog) : Prop where
  /-- Numbers, keys and places are in order. -/
  sound : Sound Shape.Sorted c
  /-- Everything declared is what hoisting may declare. -/
  bodies : ∀ entry ∈ c.shapes, c.Body entry.2
  /-- No two members of a union mean the same. -/
  irredundant : ∀ entry ∈ c.shapes, entry.2.Irredundant

theorem tidy_empty : Tidy empty :=
  ⟨sound_empty _, nofun, nofun⟩

namespace Tidy

/-- A catalog stays tidy when one more shape is declared that may be, or none. -/
theorem of_shapes (h : c.Tidy) (hsound : Sound Shape.Sorted c') {t : Shape} (ht : c.Body t)
    (hdistinct : t.Irredundant) (hknown : ∀ r ∈ t.references, c.contains r = true)
    (hshapes : c'.shapes = c.shapes ∨ ∃ id, c'.shapes = c.shapes ++ [(id, t)]) : c'.Tidy := by
  have hinitial : c.shapes <+: c'.shapes := by
    rcases hshapes with hshapes | ⟨id, hshapes⟩
    · exact hshapes ▸ List.prefix_refl _
    · exact hshapes ▸ List.prefix_append _ _
  have hmem : ∀ entry ∈ c'.shapes, entry ∈ c.shapes ∨ entry.2 = t := by
    intro entry hentry
    rcases hshapes with hshapes | ⟨id, hshapes⟩ <;> rw [hshapes] at hentry
    · exact .inl hentry
    · refine (List.mem_append.1 hentry).imp_right fun hnew ↦ ?_
      exact congrArg (·.2) (List.mem_singleton.1 hnew)
  refine ⟨hsound, fun entry hentry ↦ ?_, fun entry hentry ↦ ?_⟩
  · rcases hmem entry hentry with hentry | hentry
    · obtain ⟨slot, hslot, rfl⟩ := List.mem_map.1 hentry
      exact (h.bodies _ hentry).mono hinitial (h.sound.known hslot)
    · exact hentry ▸ ht.mono hinitial hknown
  · rcases hmem entry hentry with hentry | hentry
    · exact h.irredundant _ hentry
    · exact hentry ▸ hdistinct

/-- No two numbers unfold to the same. -/
theorem eq_of_unfold_same (h : c.Tidy) {i j : Int} (hi : c.contains i = true)
    (hj : c.contains j = true) (hsame : (c.unfold (.ref i)).same (c.unfold (.ref j)) = true) :
    i = j := by
  -- by the references of the first number, for all second ones
  refine h.sound.induction_on (motive := fun i ↦ ∀ j, c.contains j = true →
    (c.unfold (.ref i)).same (c.unfold (.ref j)) = true → i = j) ?_ hi j hj hsame
  intro i d hd ih j hj hsame
  obtain ⟨e, he⟩ := Sound.exists_of_contains hj
  have hdm := Entries.mem_of_lookup_eq_some hd
  have hem := Entries.mem_of_lookup_eq_some he
  have hds : (i, d.shape) ∈ c.shapes := List.mem_map_of_mem hdm
  have hes : (j, e.shape) ∈ c.shapes := List.mem_map_of_mem hem
  rw [h.sound.unfold_ref hd, h.sound.unfold_ref he] at hsame
  have hshape : d.shape.same e.shape = true := by
    rw [← rename_self d.shape]
    refine (h.bodies _ hds).rename_same (h.bodies _ hes) (fun r hr k hk ↦ ?_) hsame
    exact (ih r hr).2 k (h.sound.known hem k hk)
  -- equal shapes without repetitions have one key, and a key one declaration
  have hkey : d.key = e.key := by
    rw [(h.sound.fits _ hdm).key_eq, (h.sound.fits _ hem).key_eq]
    exact key_eq_of_same (h.irredundant _ hds) (h.irredundant _ hes) hshape
  have hlookup := h.sound.lookup_eq_some_iff.2 ⟨d, hd, rfl⟩
  rw [hkey, h.sound.lookup_eq_some_iff.2 ⟨e, he, rfl⟩] at hlookup
  exact (Option.some.inj hlookup).symm

/-- Settled shapes that unfold to the same are the same. -/
theorem same_of_unfold_same (h : c.Tidy) {t u : Shape} (ht : c.Settled t) (hu : c.Settled u)
    (htk : ∀ r ∈ t.references, c.contains r = true) (huk : ∀ r ∈ u.references, c.contains r = true)
    (hsame : (c.unfold t).same (c.unfold u) = true) : t.same u = true := by
  rw [← rename_self t]
  exact ht.rename_same hu (fun i hi j hj ↦ h.eq_of_unfold_same (htk i hi) (huk j hj)) hsame

end Tidy

end Catalog

end JsonShapes
