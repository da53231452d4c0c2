import JsonShapes.Proofs.Catalog.Deduplication
import JsonShapes.Proofs.Catalog.Reaching
import JsonShapes.Proofs.Shape.Parts

/-!
# The normal form of declarations

However a catalog is used, what it declares has a normal form: whatever hoisting gives a declaration
of its own lies in one, so below the top of a declaration there are only plain values, references to
such declarations, and arrays and unions of these (`Catalog.NormalForm`). What a conversion gives is
a reference exactly if its shape is made of arrays around an object or an array of which no item was
seen, and else it may itself lie below the top of a declaration (`runAll_normalForm`).

That unions keep two members at least, and none that is a union, is not seen from how they are
hoisted, as members are dropped that mean the same as others. It follows from what they unfold to.
All that is noted in a catalog was noted of a part of a shape that was inferred, so everything
declared unfolds to a well-formed shape, and so does every part of it.

What may lie below the top of a declaration is said of one shape (`Catalog.Nestable`) and asked of
everything within the parts of the declaration. It is carried down from the declaration with the
relation `Catalog.Means`, as long as the parts are settled, and what hoisting leaves is settled in
all its parts, and irredundant.

## Why declarations are not looked at while they are made

Hoisting a union drops members that have become equal, and whether two have is not seen from the
union before. To follow this through the recursion one would have to carry along what each member
unfolds to. It is easier to look at the catalog in the end: it is tidy, so what unfolds to one
meaning is one shape, and a declaration that unfolds to a well-formed union has as many members as
that union.
-/

namespace JsonShapes

open Shape

/-! ### What hoisting names -/

namespace Shape

/-- What hoisting gives a declaration of its own, wherever it comes across it. -/
inductive NeedsName : Shape → Prop
  /-- Every object has a declaration. -/
  | object (fs : List (Field Shape)) (order : List String) : NeedsName (.object fs order)
  /-- So has an array of which no item was seen. -/
  | emptyArray : NeedsName .emptyArray
  /-- An array has one if its element was left as a reference. -/
  | array (id : Int) : NeedsName (.array (.ref id))

/-- Hoisting leaves a reference for arrays around an object or an array of which no item was seen.
-/
theorem isNamed_iff_nested {s : Shape} : s.isNamed = true ↔
    ∃ levels core, s = nested levels core ∧ (core.isObject = true ∨ core = .emptyArray) := by
  constructor
  · intro h
    induction s with
    | emptyArray => exact ⟨0, .emptyArray, rfl, .inr rfl⟩
    | object fs order => exact ⟨0, .object fs order, rfl, .inl rfl⟩
    | array e ih =>
      obtain ⟨levels, core, rfl, hcore⟩ := ih h
      exact ⟨levels + 1, core, (nested_succ levels core).symm, hcore⟩
    | _ => exact nomatch h
  · rintro ⟨levels, core, rfl, hcore⟩
    induction levels with
    | zero =>
      rcases hcore with hcore | rfl
      · obtain ⟨fs, order, rfl⟩ := isObject_iff.1 hcore
        rfl
      · rfl
    | succ levels ih =>
      rw [nested_succ]
      exact ih

/-- The members of a union with two of them at least are not all represented by less. -/
theorem two_le_length_of_same_union {ms ns : List Shape} (hns : (union ns).WellFormed)
    (h : (union ms).same (union ns) = true) : 2 ≤ ms.length := by
  obtain ⟨-, hr⟩ := same_union.1 h
  cases hns with
  | union hmany hassorted _ =>
    rcases ms with _ | ⟨m, _ | ⟨m', ms⟩⟩
    · obtain ⟨n, hn⟩ := List.exists_mem_of_length_pos (show 0 < ns.length by omega)
      obtain ⟨m, hm, -⟩ := hr n hn
      exact nomatch hm
    · have hall : ∀ n ∈ ns, n.same m = true := fun n hn ↦ same_symm (by simpa using hr n hn)
      exact absurd hall (not_forall_same hmany hassorted m)
    · simp

end Shape

namespace Catalog

variable {c : Catalog} {s t part : Shape}

/-! ### Below the top -/

/-- In the catalog, the shape may lie below the top of a declaration. -/
structure Nestable (c : Catalog) (t : Shape) : Prop where
  /-- It is not what hoisting would give a declaration of its own. -/
  nameless : ¬t.NeedsName
  /-- A union has two members at least, and no two of them mean the same. -/
  many : ∀ ms, t = .union ms → 2 ≤ ms.length ∧ ms.Pairwise fun m n ↦ m.same n = false
  /-- No union is a member of a union. -/
  flat : ∀ ms, t = .union ms → ∀ m ∈ ms, ∀ ns, m ≠ .union ns
  /-- A reference leads to a declaration, and this is of what hoisting names. -/
  target : ∀ id, t = .ref id → ∃ d, c.slots.lookup id = some d ∧ d.shape.NeedsName

/-- Everything strictly below the top of the shape may lie there. -/
def NormalForm (c : Catalog) (t : Shape) : Prop :=
  ∀ top, PartOf top t → ∀ part : Shape, part.Within top → c.Nestable part

/-- A declaration that unfolds to what hoisting names is of what hoisting names. -/
theorem Body.needsName (h : c.Body t) (hnamed : (c.unfold t).isNamed = true) : t.NeedsName := by
  cases h with
  | emptyArray => exact .emptyArray
  | array he hename =>
    obtain ⟨id, rfl⟩ := he.isNamed_unfold_iff.1 hename
    exact .array id
  | object order => exact .object _ order
  | inline _ hnameless => exact nomatch hnameless.symm.trans hnamed

/-- What stands for a well-formed shape may lie below the top of a declaration. The four conditions
are read off what the type unfolds to, which is the shape. -/
theorem Tidy.nestable (hc : c.Tidy) (h : c.Means t s) (hs : s.WellFormed)
    (hdistinct : t.Irredundant) : c.Nestable t where
  nameless hname := by
    cases hname with
    | object => exact nomatch h.settled
    | emptyArray => exact nomatch h.settled
    | array id =>
      cases h.settled with
      | array he hnameless =>
        exact nomatch hnameless.symm.trans (he.isNamed_unfold_iff.2 ⟨id, rfl⟩)
  many ms hms := by
    subst hms
    have hsame := h.unfold_same
    rw [unfold_union] at hsame
    cases same_cases hsame with
    | union =>
      cases hdistinct with
      | union hdistinct _ =>
        exact ⟨List.length_map c.unfold ▸ two_le_length_of_same_union hs hsame, hdistinct⟩
  flat ms hms m hm ns hns := by
    subst hms hns
    have hsame := h.unfold_same
    rw [unfold_union] at hsame
    cases same_cases hsame with
    | union hl _ =>
      obtain ⟨n, hn, hmn⟩ := hl _ (List.mem_map_of_mem hm)
      rw [unfold_union] at hmn
      cases hs with
      | union _ hassorted _ =>
        -- a union within a union would stand for a member that is one
        have hplain := hassorted.plain n hn
        cases same_cases hmn with
        | union => exact nomatch hplain
  target id hid := by
    subst hid
    obtain ⟨d, hd⟩ := Sound.exists_of_contains (h.known id (List.mem_singleton_self id))
    have hbody := hc.bodies _ (List.mem_map_of_mem (Entries.mem_of_lookup_eq_some hd))
    refine ⟨d, hd, hbody.needsName ?_⟩
    rw [← hc.sound.unfold_ref hd]
    exact h.settled.isNamed_unfold_iff.2 ⟨id, rfl⟩

/-! ### Parts of what stands for well-formed shapes -/

/-- Parts of what unfolds to a well-formed shape unfold to well-formed shapes. -/
theorem exists_wellFormed_of_part (hpart : PartOf part t) (h : (c.unfold t).same s = true)
    (hs : s.WellFormed) : ∃ s' : Shape, s'.WellFormed ∧ (c.unfold part).same s' = true := by
  cases hpart with
  | item e =>
    rw [unfold_array] at h
    cases same_cases h with
    | array he =>
      cases hs with
      | array hs => exact ⟨_, hs, he⟩
  | member order hf =>
    rw [unfold_object] at h
    cases same_cases h with
    | object halike =>
      obtain ⟨g, hg, hfg⟩ := exists_of_forall₂_left halike (List.mem_map_of_mem hf)
      cases hs with
      | object _ _ hcontents => exact ⟨_, hcontents g hg, hfg.content⟩
  | alternative hm =>
    rw [unfold_union] at h
    cases same_cases h with
    | union hl _ =>
      obtain ⟨n, hn, hmn⟩ := hl _ (List.mem_map_of_mem hm)
      cases hs with
      | union _ _ hmembers => exact ⟨n, hmembers n hn, hmn⟩

/-- A shape that repeats nothing has parts that repeat nothing. -/
theorem PartOf.irredundant (hpart : PartOf part t) (h : t.Irredundant) : part.Irredundant := by
  cases hpart with
  | item =>
    cases h with
    | array he => exact he
  | member _ hf =>
    cases h with
    | object _ hcontents => exact hcontents _ hf
  | alternative hm =>
    cases h with
    | union _ hmembers => exact hmembers _ hm

/-- Settled parts of what unfolds to a well-formed shape stand for well-formed shapes. -/
theorem exists_means_of_part (hpart : PartOf part t) (hsettled : c.Settled part)
    (hknown : ∀ r ∈ t.references, c.contains r = true) (h : (c.unfold t).same s = true)
    (hs : s.WellFormed) : ∃ s' : Shape, s'.WellFormed ∧ c.Means part s' := by
  obtain ⟨s', hs', hsame⟩ := exists_wellFormed_of_part hpart h hs
  exact ⟨s', hs', hsettled, fun r hr ↦ hknown r (hpart.references_subset hr), hsame⟩

/-- Nothing within what stands for a well-formed shape is out of place below a declaration. -/
theorem Tidy.nestable_of_within (hc : c.Tidy) (hwithin : part.Within t) (h : c.Means t s)
    (hs : s.WellFormed) (hdistinct : t.Irredundant) : c.Nestable part := by
  have hstep : ∀ {t t' s : Shape}, PartOf t' t → c.Means t s → s.WellFormed → t.Irredundant →
      t'.Irredundant ∧ ∃ s' : Shape, s'.WellFormed ∧ c.Means t' s' :=
    fun hpart h hs hdistinct ↦ ⟨hpart.irredundant hdistinct,
      exists_means_of_part hpart (h.settled.of_part hpart) h.known h.unfold_same hs⟩
  induction hwithin generalizing s with
  | self => exact hc.nestable h hs hdistinct
  | element _ ih =>
    obtain ⟨hdistinct', s', hs', h'⟩ := hstep (.item _) h hs hdistinct
    exact ih h' hs' hdistinct'
  | content order hf _ ih =>
    obtain ⟨hdistinct', s', hs', h'⟩ := hstep (.member order hf) h hs hdistinct
    exact ih h' hs' hdistinct'
  | member hm _ ih =>
    obtain ⟨hdistinct', s', hs', h'⟩ := hstep (.alternative hm) h hs hdistinct
    exact ih h' hs' hdistinct'

/-- What unfolds to a well-formed shape and is made of settled parts is in normal form. -/
theorem Tidy.normalForm (hc : c.Tidy) (hsettled : ∀ top, PartOf top t → c.Settled top)
    (hknown : ∀ r ∈ t.references, c.contains r = true) (h : (c.unfold t).same s = true)
    (hs : s.WellFormed) (hdistinct : t.Irredundant) : c.NormalForm t := by
  intro top htop part hwithin
  obtain ⟨s', hs', h'⟩ := exists_means_of_part htop (hsettled top htop) hknown h hs
  exact hc.nestable_of_within hwithin h' hs' (htop.irredundant hdistinct)

/-! ### Notes of well-formed shapes -/

/-- What is noted of a well-formed shape is of a part of it, and this is well-formed. -/
theorem exists_wellFormed_of_occurs {document pointer : String} {o : Shape × String}
    (ho : Occurs document o s pointer) (hs : s.WellFormed) :
    ∃ s' : Shape, s'.WellFormed ∧ s'.same o.1 = true := by
  induction ho with
  | self _ hnote => exact ⟨_, hs, hnote.1⟩
  | item _ ih =>
    cases hs with
    | array hs => exact ih hs
  | member _ hf _ ih =>
    cases hs with
    | object _ _ hcontents => exact ih (hcontents _ hf)
  | alternative hm _ ih =>
    cases hs with
    | union _ _ hmembers => exact ih (hmembers _ hm)

namespace Use

/-- What a use infers is the shape of a value. -/
theorem wellFormed_of_inferred {use : Use} (h : use.Keyed) (hs : use.inferred? = some s) :
    s.WellFormed := by
  cases use with
  | convert policy document value => exact Option.some.inj hs ▸ wellFormed_ofJson h
  | declareRoot => exact nomatch hs

/-- One use notes parts of the shape that it infers, or of one that an earlier use did. -/
theorem exists_wellFormed_of_notes {use : Use} (h : use.Keyed) {inferred : List Shape}
    (hinferred : ∀ s ∈ inferred, s.WellFormed) {o : Shape × String} (ho : o ∈ use.notes inferred) :
    ∃ s' : Shape, s'.WellFormed ∧ s'.same o.1 = true := by
  cases use with
  | convert policy document value => exact exists_wellFormed_of_occurs ho (wellFormed_ofJson h)
  | declareRoot conversion document =>
    rw [notes] at ho
    split at ho
    · next s hs =>
      split at ho
      · exact absurd ho (Set.notMem_empty o)
      · exact ⟨s, hinferred s (List.mem_of_getElem? hs), ho.1⟩
    · exact absurd ho (Set.notMem_empty o)

/-- Whatever the uses, notes are of well-formed shapes. -/
theorem exists_wellFormed_of_notesOfAll {uses : List Use} (h : ∀ use ∈ uses, use.Keyed)
    {inferred : List Shape} (hinferred : ∀ s ∈ inferred, s.WellFormed) {o : Shape × String}
    (ho : o ∈ notesOfAll inferred uses) : ∃ s' : Shape, s'.WellFormed ∧ s'.same o.1 = true := by
  induction uses generalizing inferred with
  | nil => exact absurd ho (Set.notMem_empty o)
  | cons use uses ih =>
    obtain ⟨huse, huses⟩ := List.forall_mem_cons.1 h
    rcases ho with ho | ho
    · exact exists_wellFormed_of_notes huse hinferred ho
    · refine ih huses (fun s hs ↦ ?_) ho
      rcases List.mem_append.1 hs with hs | hs
      · exact hinferred s hs
      · exact wellFormed_of_inferred huse (Option.mem_toList.1 hs)

end Use

/-- If all that is noted was noted of well-formed shapes, every declaration is in normal form. -/
theorem Tidy.normalForm_of_lookup (hc : c.Tidy)
    (hnoted : ∀ o ∈ c.noted, ∃ s' : Shape, s'.WellFormed ∧ s'.same o.1 = true) {id : Int}
    {d : Declaration} (hd : c.slots.lookup id = some d) : c.NormalForm d.shape := by
  have hmem := Entries.mem_of_lookup_eq_some hd
  have hentry : (id, d.shape) ∈ c.shapes := List.mem_map_of_mem hmem
  obtain ⟨place, hplace⟩ := List.exists_mem_of_ne_nil _ (hc.sound.fits _ hmem).places_ne_nil
  obtain ⟨s, hs, hsame⟩ := hnoted (c.unfold (.ref id), place) ⟨id, d, hd, same_refl _, hplace⟩
  rw [hc.sound.unfold_ref hd] at hsame
  exact hc.normalForm (fun _ htop ↦ (hc.bodies _ hentry).of_part htop) (hc.sound.known hmem)
    (same_symm hsame) hs (hc.irredundant _ hentry)

/-- However a catalog is used, what it declares is in normal form. A conversion gives a reference
exactly if the shape inferred is made of arrays around an object or an array of which no item was
seen, and a shape in normal form which may itself lie below the top of a declaration. -/
theorem runAll_normalForm {uses : List Use} (h : ∀ use ∈ uses, use.Keyed) :
    ∃ converted c, Use.runAll uses empty = (.ok converted, c) ∧
      (∀ id d, c.slots.lookup id = some d → c.NormalForm d.shape) ∧
      List.Forall₂ (fun t s ↦
        ((∃ id, t = .ref id) ↔
          ∃ levels core, s = nested levels core ∧ (core.isObject = true ∨ core = .emptyArray)) ∧
        c.Nestable t ∧ c.NormalForm t) converted (uses.filterMap Use.inferred?) := by
  obtain ⟨converted, c, hrun, -, hnoted, htidy, hconverted⟩ :=
    Use.records_foldlM h (sound_empty _) .nil
  rw [noted_empty, Set.empty_union] at hnoted
  have hc := htidy tidy_empty
  have hinferred : ∀ s ∈ uses.filterMap Use.inferred?, s.WellFormed := by
    intro s hs
    obtain ⟨use, huse, hs⟩ := List.mem_filterMap.1 hs
    exact Use.wellFormed_of_inferred (h use huse) hs
  refine ⟨converted, c, hrun, fun id d hd ↦ hc.normalForm_of_lookup (fun o ho ↦ ?_) hd, ?_⟩
  · exact Use.exists_wellFormed_of_notesOfAll h (by simp) (hnoted ▸ ho)
  · rw [List.nil_append, List.forall₂_iff_zip] at hconverted
    refine List.forall₂_iff_zip.2 ⟨hconverted.1, fun hts ↦ ?_⟩
    have hdenotes := hconverted.2 hts
    have hs := hinferred _ (List.of_mem_zip hts).2
    have hmeans : c.Means _ _ := ⟨hdenotes.settled, hdenotes.known, hdenotes.unfold_same⟩
    refine ⟨hdenotes.isNamed_iff.symm.trans isNamed_iff_nested,
      hc.nestable hmeans hs hdenotes.irredundant, ?_⟩
    exact hc.normalForm (fun _ htop ↦ hdenotes.settled.of_part htop) hdenotes.known
      hdenotes.unfold_same hs hdenotes.irredundant

/-- Arrays of arrays of objects, alone and in an object; and an array that is declared inline, with
another below a union in it. -/
theorem runAll_normalForm_arrays :
    let rows := Json.array [.array [.object [("a", .array [])]]]
    let mixed := Json.array [.array [.array [.null], .string "x", .object []]]
    let uses : List Use := [.convert .union "1.json" rows, .declareRoot 0 "1.json",
      .convert .union "2.json" (.object [("rows", rows), ("n", .number (.int 1))]),
      .convert .union "3.json" mixed, .declareRoot 2 "3.json", .convert .unknown "4.json" mixed]
    (∀ use ∈ uses, use.Keyed) ∧ ∃ converted c, Use.runAll uses empty = (.ok converted, c) ∧
      (∀ id d, c.slots.lookup id = some d → c.NormalForm d.shape) ∧
      List.Forall₂ (fun t s ↦
        ((∃ id, t = .ref id) ↔
          ∃ levels core, s = nested levels core ∧ (core.isObject = true ∨ core = .emptyArray)) ∧
        c.Nestable t ∧ c.NormalForm t) converted (uses.filterMap Use.inferred?) := by
  intro rows mixed uses
  have hempty : (Json.array []).Keyed := .array nofun
  have hrows : rows.Keyed := by
    refine .array (List.forall_mem_singleton.2 (.array (List.forall_mem_singleton.2 ?_)))
    exact .object (by decide) (by simpa using hempty)
  have hmixed : mixed.Keyed := by
    refine .array (List.forall_mem_singleton.2 (.array ?_))
    simpa using ⟨.array (by simpa using .null), .string "x", .object (by decide) nofun⟩
  have huses : ∀ use ∈ uses, use.Keyed := by
    simp only [uses, List.forall_mem_cons, List.not_mem_nil, false_imp_iff, implies_true, and_true]
    exact ⟨hrows, trivial, .object (by decide) (by simpa using ⟨hrows, .number _⟩), hmixed, trivial,
      hmixed⟩
  exact ⟨huses, runAll_normalForm huses⟩

end Catalog

end JsonShapes
