import JsonShapes.Proofs.Catalog.Reaching
import JsonShapes.Proofs.Emit.Pieces
import JsonShapes.Proofs.Run.Documents
import JsonShapes.Run.Report

/-!
# The module of all aliases is closed and minimal

Each declaration of a catalog has a line in the module of all aliases. The lines define distinct
aliases and use only those defined before them, the aliases that stubs pass on are exported, and all
others are there because some exported one leads to them (`Catalog.ModuleClosed`). The first two are
rules that every sound catalog keeps; that nothing is dead takes the documents
(`Catalog.exists_root_reaches`).

That a module is closed is told from its text in pieces (`Declaration.pieces`), not from the shapes
that it was made of: an alias that is used somewhere is a piece of a line, and a piece of an earlier
line defines it. What remains to be seen of shapes is that aliases and references correspond.

## What the documents are needed for

A declaration that no stub leads to is not excluded by any rule that the catalog checks. It is
excluded by how documents are added: all that is declared for one is a part of its shape, and the
root of the shape is the declaration that the stub passes on. So every declaration was made for some
document, and from the root of this document references lead to it.
-/

namespace JsonShapes

/-! ### Lines -/

namespace Declaration

/-- The pieces of the right-hand side of a declaration. -/
def pieces (style : Style) (d : Declaration) : List Piece :=
  if style.expand && d.isObject then
    .words (expander ++ "<") :: d.shape.pieces style ++ [.words ">"]
  else d.shape.pieces style

/-- What the line of a declaration says. -/
def written (style : Style) (exported : Bool) (d : Declaration) : String :=
  (if exported then "export " else "") ++ "type " ++ style.aliasOf d.id ++ " = " ++
    Piece.written style (d.pieces style) ++ "; // " ++
    ", ".intercalate (d.places.map Pointer.singleLine)

/-- The aliases in the line of a declaration are those that its shape refers to. -/
theorem aliasOf_mem_pieces_iff {style : Style} {d : Declaration} {id : Int} :
    .aliasOf id ∈ d.pieces style ↔ id ∈ d.shape.references := by
  have hbody : .aliasOf id ∈ d.shape.pieces style ↔ id ∈ d.shape.references :=
    Shape.aliasOf_mem_pieces_iff
  rw [pieces, ← hbody]
  split <;> simp

/-- What can be declared has a line. -/
theorem line_eq_ok {style : Style} {d : Declaration} (h : d.shape.foreigns = [])
    (exported : Bool) : d.line style exported = .ok (d.written style exported) := by
  have htext : d.shape.text? style = .ok (d.shape.text style) := by
    rw [Shape.text?, Shape.foreignKind?_eq_none_iff.2 h]
    rfl
  have hbody : Piece.written style (d.pieces style) =
      if style.expand && d.isObject then expander ++ "<" ++ d.shape.text style ++ ">"
      else d.shape.text style := by
    rw [pieces, ← Shape.written_pieces]
    split
    · simp [Piece.text, String.append_assoc]
    · rfl
  rw [line, htext, written, hbody]
  rfl

end Declaration

namespace Catalog

variable {allowed : Shape → Prop} {c : Catalog}

namespace Sound

theorem map_id_declarations (hc : Sound allowed c) :
    c.declarations.map (·.id) = c.slots.map (·.1) := by
  rw [declarations, List.map_map]
  exact List.map_congr_left fun slot hslot ↦ (hc.fits slot hslot).id_eq

/-- A number that is in use is that of a declaration. -/
theorem exists_declaration (hc : Sound allowed c) {id : Int} (hid : c.contains id = true) :
    ∃ d ∈ c.declarations, d.id = id := by
  obtain ⟨d, hd⟩ := exists_of_contains hid
  have hmem := Entries.mem_of_lookup_eq_some hd
  exact ⟨d, List.mem_map_of_mem hmem, (hc.fits _ hmem).id_eq⟩

/-- A sound catalog has a module, whichever declarations are exported: the wrapper if it is used,
and one line for each declaration. -/
theorem moduleText_eq_ok (hc : Sound allowed c) (style : Style) (roots : List Int) :
    c.moduleText style roots = .ok ("\n".intercalate
      ((if style.expand then expanderDefinition ++ [""] else []) ++
        c.declarations.map fun d ↦ d.written style (d.id ∈ roots)) ++ "\n") := by
  have hlines : ∀ ds ⊆ c.declarations,
      ds.mapM (fun d ↦ d.line style (d.id ∈ roots)) =
        .ok (ds.map fun d ↦ d.written style (d.id ∈ roots)) := by
    intro ds hds
    induction ds with
    | nil => rfl
    | cons d ds ih =>
      obtain ⟨hd, hrest⟩ := List.cons_subset.1 hds
      obtain ⟨slot, hslot, hslotd⟩ := List.mem_map.1 hd
      have hencodable : d.shape.foreigns = [] := hslotd ▸ (hc.fits slot hslot).encodable
      rw [List.mapM_cons, Declaration.line_eq_ok hencodable, ih hrest]
      rfl
  rw [moduleText, hlines _ (List.Subset.refl _)]
  rfl

/-- What a declaration refers to is declared before it. -/
theorem declared_before (hc : Sound allowed c) {before after : List Declaration} {d : Declaration}
    (hd : c.declarations = before ++ d :: after) {id : Int} (hid : id ∈ d.shape.references) :
    ∃ e ∈ before, e.id = id := by
  have hmem : d ∈ c.declarations := hd ▸ by simp
  obtain ⟨slot, hslot, rfl⟩ := List.mem_map.1 hmem
  have hfits := hc.fits slot hslot
  have hless : id < slot.2.id := hfits.id_eq.symm ▸ (hfits.backward id hid).2
  have hincreasing := hc.ids_increasing
  rw [← hc.map_id_declarations, hd, List.map_append, List.map_cons] at hincreasing
  obtain ⟨e, he, rfl⟩ := hc.exists_declaration (hc.known hslot id hid)
  rw [hd] at he
  rcases List.mem_append.1 he with he | he
  · exact ⟨e, he, rfl⟩
  · rcases List.mem_cons.1 he with rfl | he
    · exact absurd hless (lt_irrefl _)
    · have hafter := (List.pairwise_cons.1 (List.pairwise_append.1 hincreasing).2.1).1 e.id
        (List.mem_map_of_mem he)
      exact absurd hless (lt_asymm hafter)

end Sound

/-! ### Modules -/

/-- What can be said of the module of all aliases if these numbers stand for documents. -/
structure ModuleClosed (style : Style) (roots : List Int) (c : Catalog) : Prop where
  /-- The module has a line for each declaration, marked as exported if the declaration stands for a
  document. -/
  moduleText_eq : c.moduleText style roots = .ok ("\n".intercalate
    ((if style.expand then expanderDefinition ++ [""] else []) ++
      c.declarations.map fun d ↦ d.written style (d.id ∈ roots)) ++ "\n")
  /-- No two lines define one alias. -/
  aliases_nodup : (c.declarations.map fun d ↦ style.aliasOf d.id).Nodup
  /-- A line uses what lines before it define. -/
  uses_earlier : ∀ before d after, c.declarations = before ++ d :: after →
    ∀ id, .aliasOf id ∈ d.pieces style → ∃ e ∈ before, e.id = id
  /-- What stands for a document has a line. -/
  roots_declared : ∀ root ∈ roots, ∃ d ∈ c.declarations, d.id = root
  /-- Every line is reached from one that stands for a document. -/
  reached : ∀ d ∈ c.declarations, ∃ root ∈ roots, Relation.ReflTransGen c.Refers root d.id

/-- The module is closed after documents were added to an empty catalog. -/
theorem moduleClosed_of_addDocuments (policy : Policy) (style : Style)
    {documents : List (String × Json)} (h : ∀ document ∈ documents, document.2.Keyed)
    {roots : List Int}
    (hrun : Hoisting.addDocuments policy documents empty = (.ok roots, c)) :
    c.ModuleClosed style roots := by
  obtain ⟨hc, -, hroots⟩ := tidy_of_addDocuments policy h hrun
  have hids := hc.sound.map_id_declarations
  constructor
  · exact hc.sound.moduleText_eq_ok style roots
  · have haliases := (hids.symm ▸ hc.sound.ids_nodup).map style.aliasOf_injective
    rwa [List.map_map] at haliases
  · intro before d after hd id hid
    exact hc.sound.declared_before hd (Declaration.aliasOf_mem_pieces_iff.1 hid)
  · intro root hroot
    obtain ⟨document, -, hrepresents⟩ := exists_of_forall₂_left hroots hroot
    exact hc.sound.exists_declaration (hrepresents.known root (List.mem_singleton_self root))
  · intro d hd
    have hid : d.id ∈ c.slots.map (·.1) := hids ▸ List.mem_map_of_mem hd
    refine exists_root_reaches policy h hrun (contains_eq_true_iff.2 ?_)
    rwa [map_fst_shapes]

end Catalog

namespace Run

/-- What the report lists as declarations are those of the catalog in their order, each with the
alias and the mark of its line. -/
theorem report_declarations (settings : Settings) (summary : Summary) :
    ∃ entries, (summary.report settings).member? "declarations" = some (.array entries) ∧
      entries.map (fun e ↦ (e.member? "alias", e.member? "exported", e.member? "unresolved")) =
        summary.catalog.declarations.map fun d ↦
          (some (.string (settings.style.aliasOf d.id)),
            some (.bool (d.id ∈ summary.exported)), some (.bool d.isUnresolved)) := by
  refine ⟨_, rfl, ?_⟩
  rw [List.map_map]
  rfl

/-- The module of all aliases is closed and minimal: after any documents were added to a catalog,
and in every run that succeeds. The run writes this module and a stub for each document that passes
on an exported alias of it, and the report lists the declarations as the module does. -/
theorem module_closed (policy : Policy) (style : Style) {documents : List (String × Json)}
    (h : ∀ document ∈ documents, document.2.Keyed) :
    (∃ roots c, Hoisting.addDocuments policy documents .empty = (.ok roots, c) ∧
      roots.length = documents.length ∧ c.ModuleClosed style roots) ∧
    (∀ settings folders files summary p,
      planAll settings folders files ⟨.empty, []⟩ = (.ok summary, p) →
        summary.catalog.ModuleClosed settings.style summary.exported ∧
        (∃ text, summary.catalog.moduleText settings.style summary.exported = .ok text ∧
          .write (Path.within (.absolute folders.output)
            (Path.parse settings.style.commonModule)) text ∈ p.effects) ∧
        ∀ document ∈ summary.documents, document.root ∈ summary.exported ∧
          .write (.absolute (folders.output ++ document.stubNames))
            (document.stubText settings.style) ∈ p.effects) ∧
    ∀ settings (summary : Summary),
      ∃ entries, (summary.report settings).member? "declarations" = some (.array entries) ∧
        entries.map (fun e ↦ (e.member? "alias", e.member? "exported", e.member? "unresolved")) =
          summary.catalog.declarations.map fun d ↦
            (some (.string (settings.style.aliasOf d.id)),
              some (.bool (d.id ∈ summary.exported)), some (.bool d.isUnresolved)) := by
  refine ⟨?_, ?_, report_declarations⟩
  · obtain ⟨roots, c, hrun, -, -, -, hroots⟩ :=
      Catalog.records_addDocuments policy h (Catalog.sound_empty Shape.Sorted)
    exact ⟨roots, c, hrun, hroots.length_eq,
      Catalog.moduleClosed_of_addDocuments policy style h hrun⟩
  · intro settings folders files summary p hplan
    obtain ⟨values, hreads, hrun⟩ := addDocuments_of_planAll hplan
    obtain ⟨-, -, text, htext, heffects⟩ := effects_of_planAll hplan
    have hkeyed := keyed_of_reads hreads
    refine ⟨Catalog.moduleClosed_of_addDocuments settings.policy settings.style hkeyed hrun,
      ⟨text, htext, ?_⟩, fun document hdocument ↦ ⟨List.mem_map_of_mem hdocument, ?_⟩⟩
    · rw [heffects]
      exact List.mem_append_right _ (by simp [moduleEffects])
    · rw [← List.zipIdx_map_fst 1 summary.documents] at hdocument
      obtain ⟨⟨document, number⟩, hnumbered, rfl⟩ := List.mem_map.1 hdocument
      rw [heffects]
      refine List.mem_append_left _ (List.mem_cons_of_mem _ (List.mem_flatMap.2 ?_))
      exact ⟨_, hnumbered, by simp [Emitted.effects]⟩

/-- An object that comes again within another document, a document that is declared as it stands,
and one that is there already. -/
theorem module_closed_shared :
    let documents : List (String × Json) :=
      [("1.json", .object [("a", .array [])]),
        ("2.json", .array [.null, .object [("a", .array [])]]),
        ("3.json", .object [("a", .array [])]), ("4.json", .bool true)]
    (∀ document ∈ documents, document.2.Keyed) ∧
      ∃ roots c, Hoisting.addDocuments .union documents .empty = (.ok roots, c) ∧
        roots.length = 4 ∧ c.ModuleClosed .standard roots := by
  intro documents
  have hobject : (Json.object [("a", .array [])]).Keyed :=
    .object (by decide) (by simpa using .array nofun)
  have hkeyed : ∀ document ∈ documents, document.2.Keyed := by
    simp only [documents, List.forall_mem_cons, List.not_mem_nil, false_imp_iff, implies_true,
      and_true]
    exact ⟨hobject, .array (by simpa using ⟨.null, hobject⟩), hobject, .bool true⟩
  exact ⟨hkeyed, (module_closed .union .standard hkeyed).1⟩

end Run

end JsonShapes
