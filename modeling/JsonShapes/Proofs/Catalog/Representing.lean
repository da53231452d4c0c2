import JsonShapes.Proofs.Catalog.Extending
import JsonShapes.Proofs.Catalog.Unfolding

/-!
# Representations of a shape

A shape with references represents another in a catalog if it unfolds to it there
(`Catalog.Represents`), which later changes leave so. Declaring a shape makes the reference
represent what the shape did (`yields_declare`): either it is declared anew, or the declaration
found has the same key and hence the same meaning. The rest of hoisting puts representations of
parts together.

What can be declared must be fit for a key: nothing foreign is in it, and its fields are sorted, so
that shapes with one key mean the same (`Shape.same_of_key_eq`). `Represents` carries both along,
and that all references are known, without which unfolding would leave them standing.

A representation of an object or of a union is put together from representations of its parts in
whichever order these were hoisted (`represents_ofFields`, `represents_ofMembers`). The order is a
rearrangement that the lemmas take as given.
-/

namespace JsonShapes

open Shape

namespace Catalog

variable {c c' : Catalog}

/-- In the catalog, a shape that can be declared unfolds to what another means. -/
structure Represents (c : Catalog) (t s : Shape) : Prop where
  /-- It has a key. -/
  encodable : t.foreigns = []
  /-- Its fields are sorted, so the key tells what it means. -/
  sorted : t.Sorted
  /-- What it refers to is declared. -/
  known : ∀ r ∈ t.references, c.contains r = true
  /-- With the declarations put in, it is the other shape. -/
  unfold_same : (c.unfold t).same s = true

/-- A field whose content represents that of another with its name and optional mark. -/
structure RepresentsField (c : Catalog) (g f : Field Shape) : Prop where
  name : g.name = f.name
  optional : g.optional = f.optional
  content : c.Represents g.content f.content

/-- A catalog that has grown unfolds the shape as before. -/
theorem Represents.mono {t s : Shape} (h : c.shapes <+: c'.shapes) (hts : c.Represents t s) :
    c'.Represents t s where
  encodable := hts.encodable
  sorted := hts.sorted
  known r hr := contains_of_initial h (hts.known r hr)
  unfold_same := by
    rw [unfold_eq_of_initial h hts.known]
    exact hts.unfold_same

/-- What has its references declared already represents now what it represents later. -/
theorem Represents.of_initial {t s : Shape} (h : c.shapes <+: c'.shapes)
    (hts : c'.Represents t s) (hknown : ∀ r ∈ t.references, c.contains r = true) :
    c.Represents t s where
  encodable := hts.encodable
  sorted := hts.sorted
  known := hknown
  unfold_same := by
    rw [← unfold_eq_of_initial h hknown]
    exact hts.unfold_same

theorem RepresentsField.mono {g f : Field Shape} (h : c.shapes <+: c'.shapes)
    (hgf : c.RepresentsField g f) : c'.RepresentsField g f :=
  ⟨hgf.name, hgf.optional, hgf.content.mono h⟩

/-! ### Putting representations together -/

/-- What has no parts represents itself. -/
theorem represents_prim (c : Catalog) (p : Primitive) : c.Represents (.prim p) (.prim p) :=
  ⟨rfl, .prim p, by simp [references], same_refl _⟩

theorem represents_emptyArray (c : Catalog) : c.Represents .emptyArray .emptyArray :=
  ⟨rfl, .emptyArray, by simp [references], same_refl _⟩

theorem Represents.array {t s : Shape} (h : c.Represents t s) :
    c.Represents (.array t) (.array s) :=
  ⟨h.encodable, .array h.sorted, h.known, h.unfold_same⟩

/-- Fields that represent those of an object, taken in any order, make a representation of it. They
are sorted by name when an object is made, so the order in which they were taken leaves no trace. -/
theorem represents_ofFields {gs fs fs' : List (Field Shape)} (order order' : List String)
    (hfs : Field.Increasing fs) (hperm : fs'.Perm fs)
    (h : List.Forall₂ c.RepresentsField gs fs') :
    c.Represents (ofFields gs order) (.object fs order') := by
  have hmem : ∀ g ∈ gs, ∃ f, c.RepresentsField g f := by
    intro g hg
    obtain ⟨f, -, hgf⟩ := exists_of_forall₂_left h hg
    exact ⟨f, hgf⟩
  -- hoisting keeps names
  have hnames : gs.map (·.name) = fs'.map (·.name) :=
    map_eq_of_forall₂ h fun _ _ ↦ RepresentsField.name
  have hnodup : (fs'.map (·.name)).Nodup := (hperm.map _).nodup_iff.2 hfs.nodup
  constructor
  · refine foreignsOfFields_eq_nil_iff.2 fun g hg ↦ ?_
    obtain ⟨f, hgf⟩ := hmem g ((Field.sorted_perm gs).mem_iff.1 hg)
    exact hgf.content.encodable
  · refine sorted_ofFields order fun g hg ↦ ?_
    obtain ⟨f, hgf⟩ := hmem g hg
    exact hgf.content.sorted
  · intro r hr
    obtain ⟨g, hg, hr⟩ := mem_references_ofFields.1 hr
    obtain ⟨f, hgf⟩ := hmem g hg
    exact hgf.content.known r hr
  · have hgs : (gs.map (·.name)).Nodup := hnames ▸ hnodup
    have hkept : ∀ f, (resolveField (fun r ↦ (unfolded c.shapes).lookup r) f).name = f.name :=
      fun f ↦ rfl
    rw [unfold, ofFields, resolve_object]
    refine same_object.2 (Field.forall₂_of_get? ?_ hfs fun name ↦ ?_)
    · exact (Field.increasing_sorted hgs).map hkept
    · -- names are distinct, so the order in which fields were hoisted does not matter
      have hrel := Field.rel_get?_of_forall₂ (fun g f hgf ↦ hgf.name) h name
      rw [Field.get?_of_perm hfs.nodup hperm] at hrel
      show Option.Rel _ (Field.get? ((Field.sorted gs).map _) name) _
      rw [Field.get?_map hkept, Field.get?_sorted hgs]
      generalize Field.get? gs name = g?, Field.get? fs name = f? at hrel ⊢
      cases hrel with
      | none => exact .none
      | some hgf => exact .some ⟨hgf.name, hgf.optional, hgf.content.unfold_same⟩

/-- Shapes that represent the members of a union, taken in any order, make a representation of it.
-/
theorem represents_ofMembers {ts ms ms' : List Shape} (hperm : ms'.Perm ms)
    (h : List.Forall₂ c.Represents ts ms') : c.Represents (ofMembers ts) (.union ms) := by
  have hmem : ∀ t ∈ distinct ts, ∃ m ∈ ms, c.Represents t m := by
    intro t ht
    obtain ⟨m, hm, htm⟩ := exists_of_forall₂_left h (mem_of_mem_distinct ht)
    exact ⟨m, hperm.mem_iff.1 hm, htm⟩
  constructor
  · refine foreignsOfAll_eq_nil_iff.2 fun t ht ↦ ?_
    obtain ⟨m, -, htm⟩ := hmem t ht
    exact htm.encodable
  · refine .union fun t ht ↦ ?_
    obtain ⟨m, -, htm⟩ := hmem t ht
    exact htm.sorted
  · intro r hr
    obtain ⟨t, ht, hr⟩ := mem_references_union.1 hr
    obtain ⟨m, -, htm⟩ := hmem t ht
    exact htm.known r hr
  · rw [unfold, ofMembers, resolve_union]
    refine same_union.2 ⟨List.forall_mem_map.2 fun t ht ↦ ?_, fun m hm ↦ ?_⟩
    · obtain ⟨m, hm, htm⟩ := hmem t ht
      exact ⟨m, hm, htm.unfold_same⟩
    · -- of representations that mean the same only one is kept, and it serves for the others
      obtain ⟨t, ht, htm⟩ := exists_of_forall₂_right h (hperm.mem_iff.2 hm)
      obtain ⟨k, hk, hkt⟩ := exists_mem_distinct ht
      exact ⟨_, List.mem_map_of_mem hk, same_trans (same_resolve hkt) htm.unfold_same⟩

/-! ### Declaring -/

/-- A reference represents what the shape declared under its number does. -/
theorem represents_ref (hc : Sound Sorted c) {id : Int} {d : Declaration}
    (hd : c.slots.lookup id = some d) {s : Shape} (h : (c.unfold d.shape).same s = true) :
    c.Represents (.ref id) s := by
  refine ⟨rfl, .ref id, fun r hr ↦ ?_, ?_⟩
  · exact List.mem_singleton.1 hr ▸ Sound.contains_of_lookup hd
  · rw [hc.unfold_ref hd]
    exact h

/-- Declaring a shape makes the reference to it represent what the shape does. Either the key is new
and the shape becomes a declaration, or the declaration found under it has the same meaning, since
its key has. -/
theorem yields_declare {t s : Shape} (hc : Sound Sorted c) (h : c.Represents t s)
    (place : String) : Hoisting.Yields Sorted c (Hoisting.declare t place) fun c' id ↦
      c'.Represents (.ref id) s := by
  cases hlookup : c.lookup t.key with
  | none =>
    have hinsert : c.insert t place = .ok (c.nextId, c.extend t place) :=
      insert_eq_ok_iff.2 ⟨h.encodable, hlookup, h.known, rfl, rfl⟩
    have hchange : Change Sorted c (c.extend t place) := .insert h.sorted hinsert
    have hc' := hchange.sound hc
    refine ⟨c.nextId, c.extend t place, ?_, .single hchange, ?_⟩
    · rw [Hoisting.declare, declare_eq_ok_iff.2 (.inr hinsert)]
    · refine represents_ref hc' (d := ⟨c.nextId, t, t.key, [place]⟩) ?_ ?_
      · rw [Entries.lookup_eq_some_iff hc'.ids_nodup, hc.slots_extend]
        exact List.mem_append_right _ (List.mem_singleton_self _)
      · exact (h.mono (hchange.shapes_initial hc)).unfold_same
  | some id =>
    obtain ⟨d, hd, hkey⟩ := hc.lookup_eq_some_iff.1 hlookup
    obtain ⟨c', hplace⟩ : ∃ c', c.addPlace id place = .ok c' :=
      ⟨_, addPlace_eq_ok_iff.2 ⟨d, hd, rfl⟩⟩
    have hchange : Change Sorted c c' := .addPlace hplace
    refine ⟨id, c', ?_, .single hchange, ?_⟩
    · rw [Hoisting.declare, declare_eq_ok_iff.2 (.inl ⟨h.encodable, hlookup, hplace⟩)]
    · -- the key of the declaration found is that of the shape, so they mean the same
      have hmem := Entries.mem_of_lookup_eq_some hd
      have hfits := hc.fits _ hmem
      have hsame : d.shape.same t = true :=
        same_of_key_eq (hc.allowed _ hmem) h.sorted hfits.encodable h.encodable
          (hfits.key_eq.symm.trans hkey)
      refine (represents_ref hc hd ?_).mono (hchange.shapes_initial hc)
      exact same_trans (same_resolve hsame) h.unfold_same

end Catalog

end JsonShapes
