import JsonShapes.Catalog.Basic
import JsonShapes.Proofs.Entries
import JsonShapes.Proofs.Shape.References
import Mathlib.Logic.Relation

/-!
# Changes of a catalog

Whatever is done to a catalog comes down to two changes: a shape is declared under the next number,
or a place is added to a declaration (`Catalog.Change`). A sound catalog numbers its declarations
from one on, has each key once, and refers backwards only; both changes keep it sound
(`Change.sound`), and neither touches a shape that is declared (`Change.shapes_initial`). The
catalogs that any sequence of changes leads to (`Catalog.Reaches`) inherit both.

The shapes that may be declared are kept apart by a predicate, for which a catalog of all shapes
takes the one that holds always.

What an operation does is said once, as an equivalence for its success (`insert_eq_ok_iff`,
`addPlace_eq_ok_iff`, `declare_eq_ok_iff`), and nothing below or in other modules unfolds it again.
The checks of an operation are the hypotheses with which its change keeps the catalog sound: that
the key is new keeps keys apart, and that references are known makes them lead backwards.

## Main definitions

* `Catalog.Change`: a catalog and the one that a single change makes of it.
* `Catalog.Reaches`: any number of changes, one after another.
* `Catalog.Sound`: the rules that changes keep. Its parameter says of which shapes declarations are.

## Main results

* `Change.sound` and `Reaches.sound`: changes keep a catalog sound.
* `Sound.induction_on`: as references lead backwards, what holds of a declaration if it holds of all
  those that it refers to holds of every declaration.
* `Reaches.shapes_initial`: the list of declared shapes is only ever continued.
-/

namespace JsonShapes

namespace Shape

theorem foreignKind?_eq_none_iff {s : Shape} : s.foreignKind? = none ↔ s.foreigns = [] := by
  simp [foreignKind?]

theorem requireEncoding_eq_ok {s : Shape} (h : s.foreigns = []) : s.requireEncoding = .ok () := by
  rw [requireEncoding, foreignKind?_eq_none_iff.2 h]
  rfl

/-- Checking one item after another succeeds exactly if each check does. -/
theorem forM_eq_ok_iff {α ε : Type} {check : α → Except ε Unit} {l : List α} :
    l.forM check = .ok () ↔ ∀ a ∈ l, check a = .ok () := by
  induction l with
  | nil => simp [List.forM, pure, Except.pure]
  | cons a l ih =>
    show (do check a; l.forM check) = _ ↔ _
    rw [List.forall_mem_cons, ← ih]
    cases check a <;> simp [bind, Except.bind]

theorem forM_requireEncoding_eq_ok {ms : List Shape} (h : ∀ m ∈ ms, m.foreigns = []) :
    ms.forM requireEncoding = .ok () :=
  forM_eq_ok_iff.2 fun m hm ↦ requireEncoding_eq_ok (h m hm)

/-- A shape has a key exactly if no part of it is anything but a shape. -/
theorem key?_eq_ok_iff {s : Shape} {key : String} :
    s.key? = .ok key ↔ s.foreigns = [] ∧ key = s.key := by
  rw [key?, requireEncoding, ← foreignKind?_eq_none_iff]
  cases s.foreignKind? with
  | none => simp [bind, Except.bind, pure, Except.pure, eq_comm]
  | some kind => simp [bind, Except.bind, throw, throwThe, MonadExceptOf.throw]

/-- So a refusal of a key has one cause only. -/
theorem foreigns_ne_nil_of_key? {s : Shape} {breach : Breach} (h : s.key? = .error breach) :
    s.foreigns ≠ [] := by
  intro hforeign
  rw [key?_eq_ok_iff.2 ⟨hforeign, rfl⟩] at h
  exact nomatch h

end Shape

/-- A declaration that may stand under a number. -/
structure Declaration.Fits (d : Declaration) (id : Int) : Prop where
  /-- It has its own number. -/
  id_eq : d.id = id
  /-- Its key is that of its shape. -/
  key_eq : d.key = d.shape.key
  /-- Its shape has nothing foreign in it, so that the key tells what it means. -/
  encodable : d.shape.foreigns = []
  /-- References lead to declarations made before. -/
  backward : ∀ r ∈ d.shape.references, 1 ≤ r ∧ r < id
  /-- It was declared for some place. -/
  places_ne_nil : d.places ≠ []
  /-- No place is listed twice. -/
  places_nodup : d.places.Nodup

namespace Catalog

/-! ### What an operation does when it succeeds

The equivalences list every check that was passed. They are proved by going through the checks in
their order; the reasons for a refusal are listed with `Catalog.Refuses`. -/

/-- The catalog with one more declaration, under the next number. -/
def extend (c : Catalog) (shape : Shape) (place : String) : Catalog where
  slots := Entries.set c.nextId ⟨c.nextId, shape, shape.key, [place]⟩ c.slots
  index := Entries.set shape.key c.nextId c.index
  nextId := c.nextId + 1

/-- A shape is inserted exactly if nothing in it is foreign, its key is new and all that it refers
to is declared; it gets the next number, and its declaration is all that is added. -/
theorem insert_eq_ok_iff {c c' : Catalog} {shape : Shape} {place : String} {id : Int} :
    c.insert shape place = .ok (id, c') ↔ shape.foreigns = [] ∧ c.lookup shape.key = none ∧
      (∀ r ∈ shape.references, c.contains r = true) ∧ id = c.nextId ∧
      c' = c.extend shape place := by
  have hfind : (shape.references.find? fun r ↦ !c.contains r) = none ↔
      ∀ r ∈ shape.references, c.contains r = true := by
    simp
  rw [← hfind, insert]
  cases hkey : shape.key? with
  | error breach =>
    have hforeign := Shape.foreigns_ne_nil_of_key? hkey
    simp [bind, Except.bind, hforeign]
  | ok key =>
    obtain ⟨hforeign, rfl⟩ := Shape.key?_eq_ok_iff.1 hkey
    cases hlookup : c.lookup shape.key with
    | some other => simp [bind, Except.bind, throw, throwThe, MonadExceptOf.throw, hlookup]
    | none =>
      cases shape.references.find? fun r ↦ !c.contains r with
      | some r => simp [bind, Except.bind, throw, throwThe, MonadExceptOf.throw, hlookup]
      | none => simp [bind, Except.bind, pure, Except.pure, hlookup, hforeign, extend, eq_comm]

/-- A place is added exactly if the number was given out; if the declaration has the place already,
nothing changes. -/
theorem addPlace_eq_ok_iff {c c' : Catalog} {place : String} {id : Int} :
    c.addPlace id place = .ok c' ↔ ∃ d, c.slots.lookup id = some d ∧
      c' = if place ∈ d.places then c else
        { c with slots := Entries.set id { d with places := d.places ++ [place] } c.slots } := by
  rw [addPlace, get]
  cases c.slots.lookup id with
  | none => simp [bind, Except.bind, throw, throwThe, MonadExceptOf.throw]
  | some d =>
    by_cases h : place ∈ d.places
    · simp [bind, Except.bind, pure, Except.pure, h, eq_comm]
    · simp [bind, Except.bind, pure, Except.pure, h, eq_comm]

/-! ### Changes -/

/-- One change of a catalog: a shape that may be declared is, under the next number, or a place is
added to a declaration. -/
inductive Change (allowed : Shape → Prop) (c c' : Catalog) : Prop
  | insert {shape : Shape} {place : String} {id : Int} (hshape : allowed shape)
      (h : c.insert shape place = .ok (id, c'))
  | addPlace {id : Int} {place : String} (h : c.addPlace id place = .ok c')

/-- A catalog leads to another by changes. -/
abbrev Reaches (allowed : Shape → Prop) : Catalog → Catalog → Prop :=
  Relation.ReflTransGen (Change allowed)

/-- What is allowed may be made more. -/
theorem Reaches.mono {allowed allowed' : Shape → Prop} {c c' : Catalog}
    (hreaches : Reaches allowed c c') (h : ∀ s, allowed s → allowed' s) :
    Reaches allowed' c c' := by
  refine Relation.ReflTransGen.mono (fun c c' hchange ↦ ?_) c c' hreaches
  cases hchange with
  | insert hshape hinsert => exact .insert (h _ hshape) hinsert
  | addPlace hplace => exact .addPlace hplace

/-- Declaring a shape adds a place to the declaration under its key, or else declares it anew. The
two cases exclude each other, since an insertion refuses a key that is in the index. -/
theorem declare_eq_ok_iff {c c' : Catalog} {shape : Shape} {place : String} {id : Int} :
    c.declare shape place = .ok (id, c') ↔
      (shape.foreigns = [] ∧ c.lookup shape.key = some id ∧ c.addPlace id place = .ok c') ∨
        c.insert shape place = .ok (id, c') := by
  rw [declare]
  cases hkey : shape.key? with
  | error breach =>
    have hforeign := Shape.foreigns_ne_nil_of_key? hkey
    simp [bind, Except.bind, insert_eq_ok_iff, hforeign]
  | ok key =>
    obtain ⟨hforeign, rfl⟩ := Shape.key?_eq_ok_iff.1 hkey
    cases hlookup : c.lookup shape.key with
    | none => simp [bind, Except.bind, hlookup]
    | some other =>
      -- what has its key declared is never declared anew
      have hinsert : ¬c.insert shape place = .ok (id, c') := by
        simp [insert_eq_ok_iff, hlookup]
      cases hplace : c.addPlace other place with
      | error breach =>
        simp only [bind, Except.bind, hlookup, hplace, hinsert, or_false, Option.some.injEq]
        refine iff_of_false nofun ?_
        rintro ⟨-, rfl, h⟩
        exact nomatch hplace.symm.trans h
      | ok c'' =>
        simp only [bind, Except.bind, pure, Except.pure, hlookup, hplace, hinsert, or_false,
          hforeign, true_and, Except.ok.injEq, Prod.mk.injEq, Option.some.injEq]
        refine and_congr_right fun h ↦ ?_
        rw [← h, hplace, Except.ok.injEq]

/-- Declaring a shape is one change, whichever of the two it is. -/
theorem change_of_declare {allowed : Shape → Prop} {c c' : Catalog} {shape : Shape}
    {place : String} {id : Int} (hshape : allowed shape)
    (h : c.declare shape place = .ok (id, c')) : Change allowed c c' := by
  rcases declare_eq_ok_iff.1 h with ⟨-, -, h⟩ | h
  · exact .addPlace h
  · exact .insert hshape h

/-! ### Sound catalogs

Numbers are those from one on, in the order of the slots, so that they are distinct, increase, and
are the ones below the next number. That references lead backwards gives a principle of induction,
which is how everything is proved that follows references. -/

/-- A catalog whose declarations are numbered from one on, with one declaration for each key. -/
structure Sound (allowed : Shape → Prop) (c : Catalog) : Prop where
  /-- Numbers are those from one on, in the order of declaration. -/
  ids : c.slots.map (·.1) = (List.range c.slots.length).map fun n : Nat ↦ (n : Int) + 1
  /-- The next number is the one after the last. -/
  nextId_eq : c.nextId = c.slots.length + 1
  /-- The index is made of the keys of the declarations, in their order. -/
  index_eq : c.index = c.slots.map fun slot ↦ (slot.2.key, slot.1)
  /-- No two declarations have one key. -/
  keys_nodup : (c.slots.map (·.2.key)).Nodup
  /-- Each declaration fits its number. -/
  fits : ∀ slot ∈ c.slots, slot.2.Fits slot.1
  /-- Only what is allowed is declared. -/
  allowed : ∀ slot ∈ c.slots, allowed slot.2.shape

variable {allowed : Shape → Prop} {c c' : Catalog}

theorem sound_empty (allowed : Shape → Prop) : Sound allowed empty := by
  constructor <;> simp [empty]

namespace Sound

/-- The numbers that were given out are those from one on and below the next. -/
theorem mem_ids (h : Sound allowed c) {id : Int} :
    id ∈ c.slots.map (·.1) ↔ 1 ≤ id ∧ id < c.nextId := by
  rw [h.ids, h.nextId_eq, List.mem_map]
  constructor
  · rintro ⟨n, hn, rfl⟩
    have := List.mem_range.1 hn
    omega
  · rintro ⟨hpos, hlt⟩
    exact ⟨(id - 1).toNat, List.mem_range.2 (by omega), by omega⟩

theorem ids_increasing (h : Sound allowed c) : (c.slots.map (·.1)).Pairwise (· < ·) := by
  rw [h.ids]
  exact List.pairwise_map.2 (List.pairwise_lt_range.imp fun hlt ↦ by omega)

theorem ids_nodup (h : Sound allowed c) : (c.slots.map (·.1)).Nodup :=
  h.ids_increasing.imp ne_of_lt

/-- A number leads to a declaration exactly if it was given out. -/
theorem contains_iff (h : Sound allowed c) {id : Int} :
    c.contains id = true ↔ 1 ≤ id ∧ id < c.nextId := by
  rw [← h.mem_ids, contains, Option.isSome_iff_ne_none, ne_eq, Entries.lookup_eq_none_iff, not_not]

theorem contains_of_lookup {id : Int} {d : Declaration} (hd : c.slots.lookup id = some d) :
    c.contains id = true := by
  rw [contains, hd]
  rfl

theorem exists_of_contains {id : Int} (hid : c.contains id = true) :
    ∃ d, c.slots.lookup id = some d :=
  Option.isSome_iff_exists.1 hid

/-- What a declaration refers to is declared. -/
theorem known (h : Sound allowed c) {id : Int} {d : Declaration} (hd : (id, d) ∈ c.slots) :
    ∀ r ∈ d.shape.references, c.contains r = true := by
  intro r hr
  obtain ⟨hpos, hlt⟩ := (h.fits _ hd).backward r hr
  have hid := h.mem_ids.1 (List.mem_map_of_mem (f := fun slot ↦ slot.1) hd)
  exact h.contains_iff.2 ⟨hpos, hlt.trans hid.2⟩

/-- Declarations refer backwards: what a number has if all numbers in its declaration have it, every
number has. -/
theorem induction_on (h : Sound allowed c) {motive : Int → Prop}
    (step : ∀ id d, c.slots.lookup id = some d →
      (∀ r ∈ d.shape.references, c.contains r = true ∧ motive r) → motive id)
    {id : Int} (hid : c.contains id = true) : motive id := by
  have hall : ∀ n : Nat, ∀ id : Int, id < n → c.contains id = true → motive id := by
    intro n
    induction n with
    | zero =>
      intro id hlt hid
      have hpos := (h.contains_iff.1 hid).1
      omega
    | succ n ih =>
      intro id hlt hid
      obtain ⟨d, hd⟩ := exists_of_contains hid
      refine step id d hd fun r hr ↦ ?_
      have hmem := Entries.mem_of_lookup_eq_some hd
      have hless := ((h.fits _ hmem).backward r hr).2
      have hknown := h.known hmem r hr
      exact ⟨hknown, ih r (by omega) hknown⟩
  exact hall (id.toNat + 1) id (by omega) hid

/-- A key is looked up as the number of the declaration that has it. -/
theorem lookup_eq_some_iff (h : Sound allowed c) {key : String} {id : Int} :
    c.lookup key = some id ↔ ∃ d, c.slots.lookup id = some d ∧ d.key = key := by
  have hkeys : (c.index.map (·.1)).Nodup := by
    rw [h.index_eq, List.map_map]
    exact h.keys_nodup
  rw [lookup, Entries.lookup_eq_some_iff hkeys, h.index_eq, List.mem_map]
  constructor
  · rintro ⟨⟨id', d⟩, hslot, hpair⟩
    obtain ⟨rfl, rfl⟩ := Prod.mk.inj hpair
    exact ⟨d, (Entries.lookup_eq_some_iff h.ids_nodup).2 hslot, rfl⟩
  · rintro ⟨d, hslot, rfl⟩
    exact ⟨(id, d), Entries.mem_of_lookup_eq_some hslot, rfl⟩

theorem lookup_eq_none_iff (h : Sound allowed c) {key : String} :
    c.lookup key = none ↔ key ∉ c.slots.map (·.2.key) := by
  rw [lookup, Entries.lookup_eq_none_iff, h.index_eq, List.map_map]
  rfl

/-! ### What changes keep -/

/-- The next number is new, so a new declaration comes last. -/
theorem slots_extend (h : Sound allowed c) (shape : Shape) (place : String) :
    (c.extend shape place).slots =
      c.slots ++ [(c.nextId, ⟨c.nextId, shape, shape.key, [place]⟩)] := by
  refine Entries.set_of_not_mem _ fun hmem ↦ ?_
  exact absurd (h.mem_ids.1 hmem).2 (lt_irrefl _)

/-- An insertion that passed its checks leaves a sound catalog. The declaration is appended to every
table, so each condition splits into that on the old declarations and that on the new one. -/
theorem extend (h : Sound allowed c) {shape : Shape} (place : String)
    (hforeign : shape.foreigns = []) (hnew : c.lookup shape.key = none)
    (hknown : ∀ r ∈ shape.references, c.contains r = true) (hshape : allowed shape) :
    Sound allowed (c.extend shape place) where
  ids := by
    rw [h.slots_extend, List.map_append, h.ids, List.length_append, List.length_singleton,
      List.range_succ, List.map_append, List.map_singleton, List.map_singleton, h.nextId_eq]
  nextId_eq := by
    rw [h.slots_extend, List.length_append, List.length_singleton]
    show c.nextId + 1 = _
    rw [h.nextId_eq]
    rfl
  index_eq := by
    have hkey : shape.key ∉ c.index.map (·.1) := Entries.lookup_eq_none_iff.1 hnew
    show Entries.set shape.key c.nextId c.index = _
    rw [Entries.set_of_not_mem _ hkey, h.slots_extend, List.map_append, h.index_eq]
    rfl
  keys_nodup := by
    rw [h.slots_extend, List.map_append]
    refine List.nodup_append.2 ⟨h.keys_nodup, List.nodup_singleton _, ?_⟩
    rintro key hkey _ hnewkey rfl
    rw [List.map_singleton, List.mem_singleton] at hnewkey
    subst hnewkey
    exact h.lookup_eq_none_iff.1 hnew hkey
  fits := by
    rw [h.slots_extend]
    refine List.forall_mem_append.2 ⟨h.fits, List.forall_mem_singleton.2 ?_⟩
    exact ⟨rfl, rfl, hforeign, fun r hr ↦ h.contains_iff.1 (hknown r hr), List.cons_ne_nil _ _,
      List.nodup_singleton _⟩
  allowed := by
    rw [h.slots_extend]
    exact List.forall_mem_append.2 ⟨h.allowed, List.forall_mem_singleton.2 hshape⟩

/-- A place that a declaration does not have may be added to it. All conditions but that on the
places look at what the addition does not touch. -/
theorem setPlaces (h : Sound allowed c) {id : Int} {d : Declaration} {place : String}
    (hd : c.slots.lookup id = some d) (hplace : place ∉ d.places) : Sound allowed
      { c with slots := Entries.set id { d with places := d.places ++ [place] } c.slots } := by
  -- what does not look at the places does not see the change
  have hkept : ∀ {β : Type} {f : Int × Declaration → β},
      f (id, d) = f (id, { d with places := d.places ++ [place] }) →
      (Entries.set id { d with places := d.places ++ [place] } c.slots).map f = c.slots.map f :=
    fun hf ↦ Entries.map_set_of_lookup hd hf
  have hlength : (Entries.set id { d with places := d.places ++ [place] } c.slots).length =
      c.slots.length := by
    simpa using congrArg List.length (hkept (f := fun slot ↦ slot.1) rfl)
  have hmem := Entries.mem_of_lookup_eq_some hd
  constructor
  · rw [hkept rfl, hlength]
    exact h.ids
  · rw [hlength]
    exact h.nextId_eq
  · rw [hkept rfl]
    exact h.index_eq
  · rw [hkept rfl]
    exact h.keys_nodup
  · intro slot hslot
    rcases Entries.mem_of_mem_set hslot with hslot | rfl
    · exact h.fits slot hslot
    · obtain ⟨hid, hkey, hforeign, hbackward, -, hnodup⟩ := h.fits _ hmem
      refine ⟨hid, hkey, hforeign, hbackward, List.append_ne_nil_of_right_ne_nil _ (by simp), ?_⟩
      refine List.nodup_append.2 ⟨hnodup, List.nodup_singleton _, ?_⟩
      rintro other hother _ hnew rfl
      exact hplace (List.mem_singleton.1 hnew ▸ hother)
  · intro slot hslot
    rcases Entries.mem_of_mem_set hslot with hslot | rfl
    · exact h.allowed slot hslot
    · exact h.allowed (id, d) hmem

end Sound

/-- Either change keeps a catalog sound. -/
theorem Change.sound (hchange : Change allowed c c') (h : Sound allowed c) : Sound allowed c' := by
  cases hchange with
  | insert hshape hinsert =>
    obtain ⟨hforeign, hnew, hknown, -, rfl⟩ := insert_eq_ok_iff.1 hinsert
    exact h.extend _ hforeign hnew hknown hshape
  | addPlace hplace =>
    obtain ⟨d, hd, rfl⟩ := addPlace_eq_ok_iff.1 hplace
    split
    · exact h
    · exact h.setPlaces hd ‹_›

/-- Changes keep a catalog sound. -/
theorem Reaches.sound (hreaches : Reaches allowed c c') (h : Sound allowed c) :
    Sound allowed c' := by
  induction hreaches with
  | refl => exact h
  | tail _ hchange ih => exact hchange.sound ih

/-! ### Shapes stay declared -/

/-- The declared shapes with their numbers. -/
def shapes (c : Catalog) : List (Int × Shape) :=
  c.slots.map fun slot ↦ (slot.1, slot.2.shape)

/-- A change adds a shape after the others or none at all. -/
theorem Change.shapes_initial (hchange : Change allowed c c') (h : Sound allowed c) :
    c.shapes <+: c'.shapes := by
  cases hchange with
  | insert hshape hinsert =>
    obtain ⟨-, -, -, -, rfl⟩ := insert_eq_ok_iff.1 hinsert
    rw [shapes, shapes, h.slots_extend, List.map_append]
    exact List.prefix_append _ _
  | @addPlace id place hplace =>
    obtain ⟨d, hd, rfl⟩ := addPlace_eq_ok_iff.1 hplace
    split
    · exact List.prefix_refl _
    · have hkept : (Entries.set id { d with places := d.places ++ [place] } c.slots).map
          (fun slot ↦ (slot.1, slot.2.shape)) = c.shapes := Entries.map_set_of_lookup hd rfl
      exact ⟨[], (List.append_nil _).trans hkept.symm⟩

/-- No change touches a declared shape. -/
theorem Reaches.shapes_initial (hreaches : Reaches allowed c c') (h : Sound allowed c) :
    c.shapes <+: c'.shapes := by
  induction hreaches with
  | refl => exact List.prefix_refl _
  | tail hfirst hchange ih => exact ih.trans (hchange.shapes_initial (Reaches.sound hfirst h))

end Catalog

end JsonShapes
