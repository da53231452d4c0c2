import JsonShapes.Proofs.Run.Loading
import JsonShapes.Proofs.Run.Unhindered
import JsonShapes.Proofs.Run.Written

/-!
# How a run ends

The plan of a run depends on its documents only: it succeeds if all are read, and ends with the
fault of the first that is not (`outcome_plan_ok`, `outcome_plan_error`). Either way none of its
effects is refused if the files that it writes are free (`unhindered_plan`).

The two halves of how a run ends are kept apart because they have different causes. A plan is made
without looking at the files that there are, except for the documents, so its outcome is a matter of
documents. Performing it is a matter of paths: whether folders can be made and files written at the
places that the plan names, whatever their texts are. A plan that ends with a fault has effects as
well, those for the documents before, and none of them is refused either.
-/

namespace JsonShapes.Run

variable {settings : Settings} {folders : Folders} {files : FileTree} {paths : List Path}

/-- The path of the stub at some names below the output folder. -/
def stubPath (folders : Folders) (names : List String) : Path :=
  .absolute (folders.output ++ names)

/-- The path of the module of all aliases. -/
def modulePath (settings : Settings) (folders : Folders) : Path :=
  .within (.absolute folders.output) (Path.parse settings.style.commonModule)

/-- The names that lead to the stubs of all documents below the output folder. -/
def stubNames (folders : Folders) (files : FileTree) : List (List String) :=
  (files.documents folders.input).filterMap fun document ↦
    (Path.stub? document.1).map fun stub ↦ (Path.parse stub).names

/-- The paths of the stubs of all documents. -/
def stubPaths (folders : Folders) (files : FileTree) : List Path :=
  (stubNames folders files).map (stubPath folders)

/-- The paths of all files that a run writes. -/
def targets (settings : Settings) (folders : Folders) (files : FileTree) : List Path :=
  stubPaths folders files ++ [modulePath settings folders]

/-! ### Effects -/

/-- A plain name of the module of all aliases puts it into the output folder. -/
theorem modulePath_eq_of_isName (hmodule : IsName settings.style.commonModule)
    (folders : Folders) : modulePath settings folders =
      .absolute (folders.output ++ [settings.style.commonModule]) := by
  have hparse := Path.parse_intercalate (List.forall_mem_singleton.2 hmodule)
  rw [String.intercalate_singleton] at hparse
  rw [modulePath, hparse, Path.within, if_pos rfl]
  rfl

/-- What is done when all documents are, if the module of all aliases lies in the output folder. -/
theorem unhindered_moduleEffects (hmodule : IsName settings.style.commonModule)
    (hpath : modulePath settings folders ∈ paths) (c : Catalog) (text : String) :
    World.Unhindered paths (moduleEffects settings folders c text) := by
  have hparent : Path.absolute folders.output = (modulePath settings folders).parent := by
    rw [modulePath_eq_of_isName hmodule]
    exact congrArg Path.absolute List.dropLast_concat.symm
  have hlines : World.Unhindered paths ((warningLines settings.style c).map .say) := by
    rw [List.map_eq_flatMap]
    exact .flatMap fun line _ ↦ .say line
  rw [moduleEffects, ← modulePath, hparent]
  refine .append (.cons (.say _) ?_) hlines
  exact (World.Unhindered.write hpath text).append (.say _)

section

variable (hnamed : files.Named) (hkeyed : files.Keyed)
include hnamed hkeyed

/-- The documents below a folder have stubs, so no run ends for a path without a name. -/
theorem haveStubs : HaveStubs (files.documents folders.input) := by
  intro document hdocument
  obtain ⟨_, _, -, hstub, -⟩ := hnamed.exists_stub hkeyed hdocument
  exact ⟨_, hstub⟩

/-- Nothing hinders what is done for documents: for each, the folder of its stub and then the stub.
-/
theorem unhindered_emitted {emitted : List Emitted} (hsubset : stubPaths folders files ⊆ paths)
    (hsources : ∀ e ∈ emitted, e.source ∈ (files.documents folders.input).map (·.1))
    (hstubs : ∀ e ∈ emitted, Path.stub? e.source = some e.stub) (total number : Nat) :
    World.Unhindered paths ((emitted.zipIdx number).flatMap fun e ↦
      e.1.effects settings folders total e.2) := by
  refine .flatMap fun ⟨e, n⟩ he ↦ ?_
  have he := List.fst_mem_of_mem_zipIdx he
  obtain ⟨inner, stem, -, hnames, -⟩ :=
    Emitted.exists_stem hnamed hkeyed (hsources e he) (hstubs e he)
  obtain ⟨document, hdocument, hsource⟩ := List.mem_map.1 (hsources e he)
  have hpath : stubPath folders e.stubNames ∈ paths := by
    refine hsubset (List.mem_map_of_mem (List.mem_filterMap.2 ⟨document, hdocument, ?_⟩))
    rw [hsource, hstubs e he]
    rfl
  have hparent : Path.absolute (folders.output ++ e.stubNames.dropLast) =
      (stubPath folders e.stubNames).parent := by
    rw [stubPath, Path.absolute, Path.absolute, Path.parent,
      List.dropLast_append_of_ne_nil (by simp [hnames])]
  show World.Unhindered paths ([_, _] ++ [_])
  rw [hparent]
  exact (World.Unhindered.write hpath _).append (.say _)

/-- The effects that are planned for a tree are those of some of its documents, and then those of
the module of all aliases if nothing has ended the plan. -/
theorem effects_plan (settings : Settings) (folders : Folders) :
    ∃ (emitted : List Emitted) (rest : List Effect),
      (∀ e ∈ emitted, e.source ∈ (files.documents folders.input).map (·.1)) ∧
      (∀ e ∈ emitted, Path.stub? e.source = some e.stub) ∧
      (rest = [] ∨ ∃ c text, rest = moduleEffects settings folders c text) ∧
      (plan settings folders files).effects = .say "Parsing JSON files..." ::
        ((emitted.zipIdx 1).flatMap fun e ↦
          e.1.effects settings folders (files.documents folders.input).length e.2) ++ rest := by
  rw [plan, planOf]
  rcases reads_or_firstFault folders (files.documents folders.input) with
    ⟨values, hreads⟩ | ⟨before, document, fault, hfault⟩
  · obtain ⟨summary, p, hplan⟩ := exists_planAll_eq_ok settings (haveStubs hnamed hkeyed) hreads
    obtain ⟨hsources, hstubs, text, -, heffects⟩ := effects_of_planAll hplan
    rw [hplan]
    exact ⟨_, _, fun e he ↦ hsources ▸ List.mem_map_of_mem he, hstubs, .inr ⟨_, text, rfl⟩,
      heffects⟩
  · -- the documents before the fault were planned, and nothing after it was
    obtain ⟨emitted, p, hbefore, hplan⟩ :=
      planAll_eq_error settings (haveStubs hnamed hkeyed) hfault
    obtain ⟨-, hsources, hstubs, heffects⟩ := planDocuments_eq_ok hbefore
    rw [hplan]
    refine ⟨emitted, [], fun e he ↦ ?_, hstubs, .inl rfl, ?_⟩
    · have hsource : e.source ∈ before.map (·.1) := hsources ▸ List.mem_map_of_mem he
      have hsubset : before ⊆ files.documents folders.input := fun d hd ↦
        hfault.leading.subset (List.mem_append_left _ hd)
      exact List.map_subset _ hsubset hsource
    · rw [List.append_nil]
      exact heffects

/-- Nothing hinders what is planned for a tree if the module of all aliases lies in the output
folder, whether all documents are read or not. -/
theorem unhindered_plan (hmodule : IsName settings.style.commonModule)
    (hsubset : targets settings folders files ⊆ paths) :
    World.Unhindered paths (plan settings folders files).effects := by
  obtain ⟨hstubPaths, hpath⟩ := List.append_subset.1 hsubset
  have hpath := hpath (List.mem_singleton_self _)
  obtain ⟨emitted, rest, hsources, hstubs, hrest, heffects⟩ :=
    effects_plan hnamed hkeyed settings folders
  rw [heffects, List.cons_append]
  refine (World.Unhindered.say _).append
    (.append (unhindered_emitted hnamed hkeyed hstubPaths hsources hstubs _ _) ?_)
  rcases hrest with rfl | ⟨c, text, rfl⟩
  · exact .nil
  · exact unhindered_moduleEffects hmodule hpath c text

/-- A run complains of nothing by itself. -/
theorem complaints_plan :
    (plan settings folders files).effects.filterMap Effect.complaint? = [] := by
  obtain ⟨emitted, rest, -, -, hrest, heffects⟩ := effects_plan hnamed hkeyed settings folders
  have hempty : rest.filterMap Effect.complaint? = [] := by
    rcases hrest with rfl | ⟨c, text, rfl⟩
    · rfl
    · rw [moduleEffects, List.filterMap_append, List.filterMap_map,
        show Effect.complaint? ∘ Effect.say = fun _ ↦ none from rfl, List.filterMap_none]
      rfl
  rw [heffects, List.filterMap_append, hempty, List.filterMap_cons_none rfl,
    List.filterMap_flatMap, List.append_nil]
  exact List.flatMap_eq_nil_iff.2 fun _ _ ↦ rfl

/-! ### Outcomes -/

/-- If all documents are read the plan of a run succeeds. -/
theorem outcome_plan_ok (settings : Settings) {values : List Json}
    (hreads : List.Forall₂ (Reads folders) (files.documents folders.input) values) :
    ∃ summary, (plan settings folders files).outcome = .ok summary := by
  obtain ⟨summary, p, hplan⟩ :=
    exists_planAll_eq_ok settings (haveStubs hnamed hkeyed) hreads
  refine ⟨summary, ?_⟩
  rw [plan, planOf, hplan]

/-- If not, it ends with the fault of the first that is not. -/
theorem outcome_plan_error (settings : Settings) {before : List (String × List UInt8)}
    {document : String × List UInt8} {fault : Fault}
    (h : FirstFault folders (files.documents folders.input) before document fault) :
    (plan settings folders files).outcome = .error fault := by
  obtain ⟨emitted, p, -, hplan⟩ :=
    planAll_eq_error settings (haveStubs hnamed hkeyed) h
  rw [plan, planOf, hplan]

end

end JsonShapes.Run
