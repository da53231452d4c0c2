import JsonShapes.Proofs.Shape.Inference
import JsonShapes.Proofs.Shape.Occurrences

/-!
# Where arrays are empty

A path leads to values of a document: to several of them where it goes through the items of arrays
(`Json.valuesAt`). The shape that is inferred shows at a path what the values there are
(`sightings_ofJson_iff`), so it has an array without items at a path exactly if there are arrays
among these values and all of them are empty (`emptyArray_namedAt_ofJson_iff`): one item anywhere at
the position would show below it.

## Why sightings

A shape does not remember which value a part of it came from, and where values differ a part is made
of several. What it shows at a path is made of what the values there show, one by one, and an array
with an item shows something below its items, while one without shows nothing there. So both halves,
that there is an array and that no item was seen, are read off what is shown, and from there off the
shape (`shows_of_emptyArray_namedAt`, `emptyArray_namedAt_of_shows`).

The policy is the one that keeps alternatives. Where positions are given up, arrays among other
values are not seen any more.
-/

namespace JsonShapes

open Sighting

/-! ### Values at the end of a path -/

/-- The values at the end of a path: a step to a name goes to the member of every object that has
it, a step to the items goes to every item of every array. -/
def Json.valuesAt : List Step → Json → List Json
  | [], value => [value]
  | .member name :: path, .object members => (members.lookup name).toList.flatMap (valuesAt path)
  | .item :: path, .array items => items.flatMap (valuesAt path)
  | _, _ => []

/-- The data at a path say nothing of the items of an array: there are arrays, and all are empty. -/
def Json.SaysNothing (value : Json) (path : List Step) : Prop :=
  (∃ items, .array items ∈ value.valuesAt path) ∧
    ∀ items, .array items ∈ value.valuesAt path → items = []

namespace Shape

variable {s : Shape} {path : List Step}

/-- Values that a path leads to have no name twice either. -/
theorem keyed_of_mem_valuesAt {value v : Json} (h : value.Keyed) (hv : v ∈ value.valuesAt path) :
    v.Keyed := by
  induction path generalizing value with
  | nil => exact List.mem_singleton.1 hv ▸ h
  | cons step path ih =>
    cases h with
    | array hitems =>
      cases step with
      | item =>
        obtain ⟨item, hitem, hv⟩ := List.mem_flatMap.1 hv
        exact ih (hitems item hitem) hv
      | member => exact nomatch hv
    | object _ hvalues =>
      cases step with
      | item => exact nomatch hv
      | member name =>
        obtain ⟨inner, hinner, hv⟩ := List.mem_flatMap.1 hv
        have hmem := Entries.mem_of_lookup_eq_some (Option.mem_toList.1 hinner)
        exact ih (hvalues _ hmem) hv
    | _ => cases step <;> exact nomatch hv

/-- Under the policy that keeps all alternatives, a shape shows at a path what the shapes of the
values there show at the root. -/
theorem sightings_ofJson_iff {value : Json} (h : value.Keyed) (path : List Step) (rest : List Step)
    (m : Mark) : (ofJson .union value).Shows .union (path ++ rest) m ↔
      ∃ v ∈ value.valuesAt path, (ofJson .union v).Shows .union rest m := by
  induction path generalizing value with
  | nil => simp [Json.valuesAt]
  | cons step path ih =>
    -- the first step is taken in the value and in its shape at once
    show (path ++ rest, m) ∈ below (sightings .union (ofJson .union value)) step ↔ _
    cases h with
    | array hitems =>
      cases step with
      | item =>
        rw [below_sightings_ofJson_array_item hitems, Policy.closure_union]
        simp only [Json.valuesAt, List.mem_flatMap, sightingsOfAll, Set.mem_ofPred_eq, List.mem_map,
          exists_exists_and_eq_and]
        constructor
        · rintro ⟨item, hitem, hshows⟩
          obtain ⟨v, hv, hshows⟩ := (ih (hitems item hitem)).1 hshows
          exact ⟨v, ⟨item, hitem, hv⟩, hshows⟩
        · rintro ⟨v, ⟨item, hitem, hv⟩, hshows⟩
          exact ⟨item, hitem, (ih (hitems item hitem)).2 ⟨v, hv, hshows⟩⟩
      | member name => simp [Json.valuesAt]
    | @object members hnodup hvalues =>
      cases step with
      | item => simp [Json.valuesAt]
      | member name =>
        rw [below_sightings_ofJson_object_member hnodup]
        cases hlookup : members.lookup name with
        | none => simp [Json.valuesAt, hlookup]
        | some v =>
          have hv := hvalues _ (Entries.mem_of_lookup_eq_some hlookup)
          show (ofJson .union v).Shows .union (path ++ rest) m ↔ _
          simpa [Json.valuesAt, hlookup] using ih hv
    | _ => cases step <;> simp [Json.valuesAt, ofJson, below_sightings_prim]

/-! ### Arrays at the end of a path -/

/-- The shape of a value shows at its root that it is an array exactly if the value is one. -/
theorem shows_array_iff {value : Json} (h : value.Keyed) :
    (ofJson .union value).Shows .union [] .array ↔ ∃ items, value = .array items := by
  show Mark.array ∈ root (sightings .union (ofJson .union value)) ↔ _
  cases h with
  | array => simp
  | object hnodup => simp [root_sightings_ofJson_object hnodup]
  | _ => simp [ofJson, root_sightings_prim]

/-- It shows something below exactly if the array has an item. -/
theorem exists_shows_item_iff {value : Json} (h : value.Keyed) :
    (∃ m, (ofJson .union value).Shows .union [.item] m) ↔
      ∃ items, value = .array items ∧ items ≠ [] := by
  have hitems : ∀ m, (ofJson .union value).Shows .union [.item] m ↔
      ∃ v ∈ value.valuesAt [.item], (ofJson .union v).Shows .union [] m :=
    sightings_ofJson_iff h [.item] []
  constructor
  · rintro ⟨m, hm⟩
    obtain ⟨v, hv, -⟩ := (hitems m).1 hm
    cases h with
    | array =>
      obtain ⟨item, hitem, -⟩ := List.mem_flatMap.1 hv
      exact ⟨_, rfl, List.ne_nil_of_mem hitem⟩
    | _ => exact nomatch hv
  · rintro ⟨items, rfl, hne⟩
    obtain ⟨item, hitem⟩ := List.exists_mem_of_ne_nil items hne
    have hitem : item ∈ (Json.array items).valuesAt [.item] :=
      List.mem_flatMap.2 ⟨item, hitem, List.mem_singleton_self item⟩
    obtain ⟨m, hm⟩ := (exists_shows (wellFormed_ofJson (keyed_of_mem_valuesAt h hitem)) :
      ∃ m, (ofJson .union item).Shows .union [] m)
    exact ⟨m, (hitems m).2 ⟨item, hitem, hm⟩⟩

/-- An array is shown at a path exactly if there is one among the values there. -/
theorem shows_array_at_iff {value : Json} (h : value.Keyed) (path : List Step) :
    (ofJson .union value).Shows .union path .array ↔
      ∃ items, .array items ∈ value.valuesAt path := by
  rw [← List.append_nil path, sightings_ofJson_iff h, List.append_nil]
  constructor
  · rintro ⟨v, hv, hshows⟩
    obtain ⟨items, rfl⟩ := (shows_array_iff (keyed_of_mem_valuesAt h hv)).1 hshows
    exact ⟨items, hv⟩
  · rintro ⟨items, hitems⟩
    exact ⟨_, hitems, (shows_array_iff (keyed_of_mem_valuesAt h hitems)).2 ⟨items, rfl⟩⟩

/-- Something is shown below exactly if one of these arrays has an item. -/
theorem exists_shows_item_at_iff {value : Json} (h : value.Keyed) (path : List Step) :
    (∃ m, (ofJson .union value).Shows .union (path ++ [.item]) m) ↔
      ∃ items, .array items ∈ value.valuesAt path ∧ items ≠ [] := by
  constructor
  · rintro ⟨m, hm⟩
    obtain ⟨v, hv, hshows⟩ := (sightings_ofJson_iff h path [.item] m).1 hm
    obtain ⟨items, rfl, hne⟩ := (exists_shows_item_iff (keyed_of_mem_valuesAt h hv)).1 ⟨m, hshows⟩
    exact ⟨items, hv, hne⟩
  · rintro ⟨items, hitems, hne⟩
    obtain ⟨m, hm⟩ := (exists_shows_item_iff (keyed_of_mem_valuesAt h hitems)).2 ⟨items, rfl, hne⟩
    exact ⟨m, (sightings_ofJson_iff h path [.item] m).2 ⟨_, hitems, hm⟩⟩

/-! ### Arrays without items -/

/-- An array without items shows that it is an array, and nothing below. Of the alternatives at its
position no other can, as there is one array at most among them. -/
theorem shows_of_emptyArray_namedAt (h : emptyArray.NamedAt s path) (hs : s.WellFormed) :
    s.Shows .union path .array ∧ ∀ m, ¬s.Shows .union (path ++ [.item]) m := by
  induction h with
  | self _ hsame =>
    cases same_cases hsame
    exact ⟨.emptyArray, nofun⟩
  | item _ ih =>
    cases hs with
    | array he =>
      obtain ⟨hshows, hnone⟩ := ih he
      refine ⟨.item hshows, fun m hm ↦ ?_⟩
      cases hm with
      | item hm => exact hnone m hm
  | @member fs f path order hf _ ih =>
    cases hs with
    | object hincreasing _ hcontents =>
      obtain ⟨hshows, hnone⟩ := ih (hcontents f hf)
      have hget := (Field.get?_eq_some_iff hincreasing.nodup).2 ⟨hf, rfl⟩
      refine ⟨.member order hget hshows, fun m hm ↦ ?_⟩
      cases hm with
      | member _ hg hm => exact hnone m (Option.some.inj (hget.symm.trans hg) ▸ hm)
  | @alternative ms k path hk _ ih =>
    cases hs with
    | union hmany hassorted hmembers =>
      obtain ⟨hshows, hnone⟩ := ih (hmembers k hk)
      refine ⟨.alternative rfl hk hshows, fun m hm ↦ hnone m ?_⟩
      -- what is shown below an item belongs to the member that is an array
      have hhead : Sighting.head (path ++ [.item], m) = k.head := by
        rw [← head_eq_of_shows (hassorted.plain k hk) hshows]
        rcases path with _ | ⟨_ | _, _⟩ <;> rfl
      exact (mem_sightings_alternative (.union hmany hassorted hmembers) nofun hk).2 ⟨hm, hhead⟩

/-- Where an array is shown and nothing below it, there is an array without items. By induction over
what is shown: an array with an element shows something below it, so what remains is one without. -/
theorem emptyArray_namedAt_of_shows (hs : s.WellFormed) (h : s.Shows .union path .array)
    (hnone : ∀ m, ¬s.Shows .union (path ++ [.item]) m) : emptyArray.NamedAt s path := by
  generalize hmark : Mark.array = mark at h
  induction h with
  | anything => exact absurd (.anything _ .array) (hnone .array)
  | emptyArray => exact .self rfl (same_refl _)
  | array e =>
    cases hs with
    | array he =>
      -- an element would show something
      obtain ⟨m, hm⟩ := (exists_shows he : ∃ m, e.Shows .union [] m)
      exact absurd (.item hm) (hnone m)
  | item _ ih =>
    cases hs with
    | array he => exact .item (ih he (fun m hm ↦ hnone m (.item hm)) hmark)
  | member order hf _ ih =>
    cases hs with
    | object hincreasing _ hcontents =>
      obtain ⟨hmem, rfl⟩ := (Field.get?_eq_some_iff hincreasing.nodup).1 hf
      exact .member order hmem
        (ih (hcontents _ hmem) (fun m hm ↦ hnone m (.member order hf hm)) hmark)
  | alternative _ hk _ ih =>
    cases hs with
    | union _ _ hmembers =>
      exact .alternative hk
        (ih (hmembers _ hk) (fun m hm ↦ hnone m (.alternative rfl hk hm)) hmark)
  | choice hpolicy => exact nomatch hpolicy
  | _ => exact nomatch hmark

/-- The shape of a value has an array without items where the data say nothing of the items. -/
theorem emptyArray_namedAt_ofJson_iff {value : Json} (h : value.Keyed) (path : List Step) :
    emptyArray.NamedAt (ofJson .union value) path ↔ value.SaysNothing path := by
  have hwf : (ofJson .union value).WellFormed := wellFormed_ofJson h
  constructor
  · intro hempty
    obtain ⟨hshows, hnone⟩ := shows_of_emptyArray_namedAt hempty hwf
    refine ⟨(shows_array_at_iff h path).1 hshows, fun items hitems ↦ by_contra fun hne ↦ ?_⟩
    obtain ⟨m, hm⟩ := (exists_shows_item_at_iff h path).2 ⟨items, hitems, hne⟩
    exact hnone m hm
  · rintro ⟨hsome, hempty⟩
    refine emptyArray_namedAt_of_shows hwf ((shows_array_at_iff h path).2 hsome) fun m hm ↦ ?_
    obtain ⟨items, hitems, hne⟩ := (exists_shows_item_at_iff h path).1 ⟨m, hm⟩
    exact hne (hempty items hitems)

end Shape

end JsonShapes
