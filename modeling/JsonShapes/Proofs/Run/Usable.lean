import JsonShapes.Proofs.Files.Import
import JsonShapes.Proofs.Run.Outcome

/-!
# Which settings a run can be done with

Into a fresh output folder every run writes the stubs of its documents. The module of all aliases is
written last, and for it no folder is made but the output folder. So whether a run succeeds depends
on where the settings want the module (`usable_iff`): each folder on the way has to be there or to
be made for some stub. A plain name will do. Where the module is written, all imports lead, unless
the settings give its path from the root.

All of this is about documents that are read, and whose names are texts (`Spelled`): a name that is
none stands in the way of the module whatever the settings say, and then no choice of them would be
one that a run can be done with.

## The course of the proof

* Planning succeeds, as all documents are read. It remains what the plan meets in the files.
* The stubs meet nothing: the output folder is fresh, and no folder of the input has the name of a
  stub, so that no stub is to be written where a folder was made for another (`free_stubPaths`).
* So all that can be refused is the module, and what it meets is known: the folders of the tree
  before, those of the stubs, and the output folder (`Available`, `exists_perform_eq_ok_iff_write`).
* Whether it is refused then is read off its path, step by step (`exists_perform_eq_ok_iff`).

Where imports lead is a matter of paths alone and is shown for itself (`importPlace_eq`). For each
stub the steps up to the output folder cancel with the folders of the stub, so that all of them
lead to the same place.
-/

namespace JsonShapes

namespace World

variable {world world' : World} {effect : Effect} {effects : List Effect}

/-- Lines are never refused. -/
theorem performAll_map_say (world : World) (lines : List String) :
    ∃ world', world.performAll (lines.map .say) = (world', .ok ()) := by
  induction lines generalizing world with
  | nil => exact ⟨world, rfl⟩
  | cons line lines ih => exact ih _

/-- A file that is written before lines are said is all that can be refused. -/
theorem exists_performAll_write_iff {path : Path} {text : String} {lines : List String} :
    (∃ world', world.performAll (.write path text :: lines.map .say) = (world', .ok ())) ↔
      ∃ files, world.files.write world.base path (Utf8.encode text) = .ok files := by
  rw [performAll, performOne]
  cases hwrite : world.files.write world.base path (Utf8.encode text) with
  | ok files =>
    exact iff_of_true (performAll_map_say { world with files } lines) ⟨files, rfl⟩
  | error fault => exact iff_of_false (by simp) (by simp)

/-- If planning succeeds, a run does exactly if all effects are performed. -/
theorem exists_perform_eq_ok_iff {α : Type} {a : α} :
    (∃ world' b, world.perform ⟨effects, .ok a⟩ = (world', .ok b)) ↔
      ∃ world', world.performAll effects = (world', .ok ()) := by
  rw [perform]
  rcases world.performAll effects with ⟨changed, result⟩
  cases result with
  | ok _ => exact iff_of_true ⟨changed, a, rfl⟩ ⟨changed, rfl⟩
  | error fault => exact iff_of_false (by simp) (by simp)

end World

namespace Run

variable {settings : Settings} {folders : Folders} {files : FileTree} {base : Location}
  {world : World} {summary : Summary}

/-! ### Stubs -/

section Stubs

variable (hnamed : files.Named) (hkeyed : files.Keyed)
include hnamed hkeyed

/-- A stub lies in a folder that corresponds to one of the input, and its names can be joined by
slashes. -/
theorem exists_of_mem_stubNames {names : List String} (h : names ∈ stubNames folders files) :
    ∃ inner stem, names = inner ++ [stem ++ ".d.ts"] ∧ (∀ name ∈ names, IsName name) ∧
      files.HasFolder (folders.input ++ inner) := by
  obtain ⟨document, hdocument, hmap⟩ := List.mem_filterMap.1 h
  obtain ⟨inner, stem, -, hstub, hall, hfolder⟩ := hnamed.exists_stub hkeyed hdocument
  rw [hstub, Option.map_some, Option.some.injEq, Path.parse_intercalate hall] at hmap
  obtain rfl : inner ++ [stem ++ ".d.ts"] = names := hmap
  exact ⟨inner, stem, rfl, hall, hfolder⟩

/-- In a fresh output folder stubs are free, if no folder of the input has the name of a stub. -/
theorem free_stubPaths (hfresh : files.Fresh folders.output)
    (hleads : ∀ path ∈ stubPaths folders files, path.Leads base)
    (hapart : ∀ names ∈ stubNames folders files, ¬files.HasFolder (folders.input ++ names)) :
    files.Free base (stubPaths folders files) := by
  refine hfresh.free (fun names hnames ↦ ?_) (fun names hnames ↦
    hleads _ (List.mem_map_of_mem hnames)) fun names hnames other hother hinitial ↦ ?_
  · obtain ⟨inner, stem, rfl, -⟩ := exists_of_mem_stubNames hnamed hkeyed hnames
    exact List.append_ne_nil_of_right_ne_nil _ (List.cons_ne_nil _ _)
  · obtain ⟨inner, stem, rfl, -, hfolder⟩ := exists_of_mem_stubNames hnamed hkeyed hother
    refine (List.prefix_concat_iff.1 hinitial).resolve_right fun hinner ↦ hapart names hnames ?_
    exact hfolder.of_prefix ((List.prefix_append_right_inj _).2 hinner)

end Stubs

/-- The places of the stubs are known from the documents, before anything is read. -/
theorem map_stubNames
    (hsources : summary.documents.map (·.source) = (files.documents folders.input).map (·.1))
    (hstubs : ∀ e ∈ summary.documents, Path.stub? e.source = some e.stub) :
    summary.documents.map (·.stubNames) = stubNames folders files := by
  let namesOf : String → Option (List String) := fun source ↦
    (Path.stub? source).map fun stub ↦ (Path.parse stub).names
  calc summary.documents.map (·.stubNames)
      = summary.documents.filterMap fun e ↦ namesOf e.source := by
        rw [← List.filterMap_eq_map]
        refine List.filterMap_congr fun e he ↦ ?_
        simp only [namesOf, hstubs e he, Option.map_some, Emitted.stubNames, Function.comp]
    _ = (summary.documents.map (·.source)).filterMap namesOf := by rw [List.filterMap_map]; rfl
    _ = stubNames folders files := by rw [hsources, List.filterMap_map]; rfl

/-! ### The module of all aliases -/

/-- There is a folder at a place when the module of all aliases is written: there was one before, or
it is made for the output folder or for a stub. -/
def Available (folders : Folders) (files : FileTree) (place : Location) : Prop :=
  files.HasFolder place ∨
    (∃ names ∈ stubNames folders files, place <+: folders.output ++ names.dropLast) ∨
    place <+: folders.output

/-- For each stub its folder is made, and for documents there is nothing else that makes one. -/
theorem filterMap_made?_emitted (emitted : List Emitted) (total number : Nat) (base : Location) :
    ((emitted.zipIdx number).flatMap fun e ↦ e.1.effects settings folders total e.2).filterMap
        (Effect.made? base) = emitted.map fun e ↦ folders.output ++ e.stubNames.dropLast := by
  induction emitted generalizing number with
  | nil => rfl
  | cons e emitted ih =>
    rw [List.zipIdx_cons, List.flatMap_cons, List.filterMap_append, ih]
    rfl

/-- The path of the module ends in a name with the suffix of modules, whatever the settings say. -/
theorem exists_modulePath_names (settings : Settings) (folders : Folders) :
    ∃ steps stem, (modulePath settings folders).names = steps ++ [stem ++ Style.suffix] := by
  obtain ⟨names, stem, hnames⟩ : ∃ names stem,
      (Path.parse settings.style.commonModule).names = names ++ [stem ++ Style.suffix] :=
    Path.exists_names_parse_suffix _ (by decide) (by decide)
  rw [modulePath, Path.within]
  split
  · exact ⟨folders.output ++ names, stem, by rw [hnames, List.append_assoc]; rfl⟩
  · exact ⟨names, stem, hnames⟩

section Fresh

variable (hsystem : files.IsSystem) (hnamed : files.Named) (hfresh : files.Fresh folders.output)
  (houtput : (Path.absolute folders.output).Leads base)
  (hleads : ∀ path ∈ stubPaths folders files, path.Leads base)
  (hapart : ∀ names ∈ stubNames folders files, ¬files.HasFolder (folders.input ++ names))
include hsystem hnamed hfresh houtput hleads hapart

/-- If all documents are read, a run succeeds if the module of all aliases can be written, with the
folders that are available then. -/
theorem exists_perform_eq_ok_iff_write (settings : Settings) {values : List Json}
    (hreads : List.Forall₂ (Reads folders) (files.documents folders.input) values) :
    ∃ (tree : FileTree) (text : String), (∀ q, tree.HasFolder q ↔ Available folders files q) ∧
      ((∃ world summary, (World.ofFiles files base).perform (plan settings folders files) =
        (world, .ok summary)) ↔
          ∃ tree', tree.write base (modulePath settings folders) (Utf8.encode text) =
            .ok tree') := by
  obtain ⟨summary, p, hplan⟩ :=
    exists_planAll_eq_ok settings (haveStubs hnamed hsystem.keyed) hreads
  obtain ⟨hsources, hstubs, text, -, heffects⟩ := effects_of_planAll hplan
  -- the stubs are written
  have hstubEffects : World.Unhindered (stubPaths folders files)
      ([.say "Parsing JSON files..."] ++ (summary.documents.zipIdx 1).flatMap fun e ↦
        e.1.effects settings folders (files.documents folders.input).length e.2) :=
    (World.Unhindered.say _).append (unhindered_emitted hnamed hsystem.keyed
      (List.Subset.refl _) (fun e he ↦ hsources ▸ List.mem_map_of_mem he) hstubs _ _)
  obtain ⟨world₁, hafter⟩ := hstubEffects (.ofFiles files base)
    ⟨hsystem, free_stubPaths hnamed hsystem.keyed hfresh hleads hapart⟩
  have hbase : world₁.base = base := hafter.base_eq
  -- the output folder is made, if it is not there
  have hway : ∀ q, q <+: folders.output → world₁.files.file? q = none := by
    intro q hq
    refine (hafter.file?_eq q fun path hpath heq ↦ ?_).trans (hfresh.no_file q hq)
    obtain ⟨names, hnames, rfl⟩ := List.mem_map.1 hpath
    obtain ⟨inner, stem, rfl, -⟩ := exists_of_mem_stubNames hnamed hsystem.keyed hnames
    have hlength := (show folders.output ++ _ <+: folders.output from heq ▸ hq).length_le
    simp at hlength
  obtain ⟨hok, hfolders⟩ := FileTree.makeFolders_of_leads hafter.ready.system.root
    (show (Path.absolute folders.output).Leads world₁.base from hbase.symm ▸ houtput) hway
  let world₂ : World :=
    { world₁ with
      files := (world₁.files.makeFolders world₁.base (.absolute folders.output)).1
      said := world₁.said ++ ["Creating " ++ settings.style.commonModule ++ " file..."] }
  have hmake : World.performOne
      { world₁ with
        said := world₁.said ++ ["Creating " ++ settings.style.commonModule ++ " file..."] }
      (.makeFolders (.absolute folders.output)) = (world₂, .ok ()) := Prod.ext rfl hok
  have hperform : (World.ofFiles files base).performAll p.effects = world₂.performAll
      (.write (modulePath settings folders) text ::
        ((settings.style.commonModule ++ " created successfully.") ::
          warningLines settings.style summary.catalog).map .say) := by
    rw [heffects]
    exact (World.performAll_append hafter.performed).trans (World.performAll_cons_of_ok hmake)
  have hplanned : plan settings folders files = ⟨p.effects, .ok summary⟩ := by
    rw [plan, planOf, hplan]
  refine ⟨world₂.files, text, fun q ↦ ?_, ?_⟩
  · rw [show world₂.files.HasFolder q ↔ _ from hfolders q, hafter.hasFolder_iff,
      List.filterMap_append, show World.base (.ofFiles files base) = base from rfl,
      filterMap_made?_emitted, Available, ← map_stubNames hsources hstubs, or_assoc]
    refine or_congr_right (or_congr_left ?_)
    simp [Effect.made?]
  · rw [hplanned, World.exists_perform_eq_ok_iff, hperform, World.exists_performAll_write_iff]
    exact hbase ▸ Iff.rfl

/-- A run succeeds exactly if the path of the module of all aliases is admissible, every step of it
before the last leads to a folder that is available, and the last does not. -/
theorem exists_perform_eq_ok_iff {values : List Json}
    (hreads : List.Forall₂ (Reads folders) (files.documents folders.input) values) :
    (∃ world summary, (World.ofFiles files base).perform (plan settings folders files) =
      (world, .ok summary)) ↔
      (modulePath settings folders).Admissible base ∧
        (∀ steps, steps <+: (modulePath settings folders).names.dropLast →
          Available folders files (Path.straighten steps)) ∧
        ¬Available folders files (modulePlace settings folders) := by
  obtain ⟨tree, text, htree, hiff⟩ :=
    exists_perform_eq_ok_iff_write hsystem hnamed hfresh houtput hleads hapart settings hreads
  obtain ⟨steps, stem, hnames⟩ := exists_modulePath_names settings folders
  have hroute : (modulePath settings folders).route base = (modulePath settings folders).names :=
    route_within_absolute base folders.output _
  have hlast : stem ++ Style.suffix ≠ ".." := fun heq ↦ by
    have hlength := congrArg (fun s : String ↦ s.toList.length) heq
    simp [Style.suffix] at hlength
  rw [hiff, FileTree.exists_write_eq_ok_iff ((htree []).2 (.inl hsystem.root))
    (hroute.trans hnames) hlast, hroute, hnames, List.dropLast_concat, ← hnames]
  simp only [htree]
  rfl

/-- A plain name as the name of the module makes a run succeed, unless some document lies below a
folder of this name. -/
theorem exists_perform_eq_ok_of_isName {values : List Json}
    (hreads : List.Forall₂ (Reads folders) (files.documents folders.input) values)
    (hmodule : IsName settings.style.commonModule)
    (hadmissible : (modulePath settings folders).Admissible base)
    (hbelow : ∀ names ∈ stubNames folders files,
      ¬[settings.style.commonModule] <+: names.dropLast) :
    ∃ world summary, (World.ofFiles files base).perform (plan settings folders files) =
      (world, .ok summary) := by
  have hpath := modulePath_eq_of_isName hmodule folders
  -- a plain name leads nowhere but into the output folder
  have hstraight : ".." ∉ folders.output ++ [settings.style.commonModule] := by
    refine List.mem_append.not.2 (not_or.2 ⟨houtput.straight, fun hdots ↦ ?_⟩)
    exact hmodule.ne_dots (List.mem_singleton.1 hdots).symm
  refine (exists_perform_eq_ok_iff hsystem hnamed hfresh houtput hleads hapart hreads).2
    ⟨hadmissible, fun steps hsteps ↦ ?_, ?_⟩
  · rw [hpath] at hsteps
    have hsteps : steps <+: (folders.output ++ [settings.style.commonModule]).dropLast := hsteps
    rw [List.dropLast_concat] at hsteps
    rw [Path.straighten_eq_self fun hdots ↦ houtput.straight (hsteps.subset hdots)]
    exact .inr (.inr hsteps)
  · have hplace : modulePlace settings folders =
        folders.output ++ [settings.style.commonModule] := by
      show Path.straighten (modulePath settings folders).names = _
      rw [hpath]
      exact Path.straighten_eq_self hstraight
    rw [hplace]
    rintro (⟨_, hfolder⟩ | ⟨names, hnames, hinitial⟩ | hinitial)
    · exact nomatch hfolder.symm.trans (hfresh.nothing_below _ (List.cons_ne_nil _ _))
    · exact hbelow names hnames ((List.prefix_append_right_inj _).1 hinitial)
    · have hlength := hinitial.length_le
      simp at hlength

end Fresh

/-- Where the import in a stub leads from the folder of the stub. -/
def importPlace (settings : Settings) (folders : Folders) (document : Emitted) : Location :=
  Path.straighten (folders.output ++ document.stubNames.dropLast ++
    (Path.parse (Path.importFrom document.stub settings.style.commonFile ++ Style.suffix)).names)

/-- From the folder of any stub the import leads to one place, that of the module as the settings
give it. -/
theorem importPlace_eq (hnamed : files.Named) (hkeyed : files.Keyed)
    (hsources : summary.documents.map (·.source) = (files.documents folders.input).map (·.1))
    (hstubs : ∀ e ∈ summary.documents, Path.stub? e.source = some e.stub) {e : Emitted}
    (he : e ∈ summary.documents) : importPlace settings folders e =
      Path.straighten (folders.output ++ (Path.parse settings.style.commonModule).names) := by
  have hmem : e.source ∈ (files.documents folders.input).map (·.1) :=
    hsources ▸ List.mem_map_of_mem he
  obtain ⟨document, hdocument, hsource⟩ := List.mem_map.1 hmem
  obtain ⟨inner, stem, -, hstub, hall, -⟩ := hnamed.exists_stub hkeyed hdocument
  rw [hsource, hstubs e he, Option.some.injEq] at hstub
  rw [importPlace, Emitted.stubNames, hstub, Path.parse_intercalate hall]
  exact Path.straighten_importFrom hall (by simp) _ _

/-- For which settings a run can be done, if all documents are read and are spelled, the output
folder is fresh, and no folder of the input has the name of a stub. A document that is read but is
not spelled has a name with a lone half of a surrogate pair, which no module can hold whatever the
settings are. The module of all aliases needs an admissible path all of whose steps lead to folders
that are there or are made for stubs, and no folder in its place; for it no folder is made. A plain
name will do, unless a document lies below a folder of that name. After a run that succeeds the
module is where the settings say, and from the folder of every stub the import leads there, unless
the settings give a path from the root. Without double points this is below the output folder. -/
theorem usable_iff (hsystem : files.IsSystem) (hnamed : files.Named)
    (hfresh : files.Fresh folders.output) (houtput : (Path.absolute folders.output).Leads base)
    (hleads : ∀ path ∈ stubPaths folders files, path.Leads base)
    (hapart : ∀ names ∈ stubNames folders files, ¬files.HasFolder (folders.input ++ names))
    {values : List Json}
    (hreads : List.Forall₂ (Reads folders) (files.documents folders.input) values)
    (settings : Settings)
    (_hspelled : ∀ document ∈ files.documents folders.input, Spelled settings.policy document) :
    let start := World.ofFiles files base
    let target := Path.parse settings.style.commonModule
    ((∃ world summary, start.perform (plan settings folders files) = (world, .ok summary)) ↔
      (modulePath settings folders).Admissible base ∧
        (∀ steps, steps <+: (modulePath settings folders).names.dropLast →
          Available folders files (Path.straighten steps)) ∧
        ¬Available folders files (modulePlace settings folders)) ∧
    (IsName settings.style.commonModule → (modulePath settings folders).Admissible base →
      (∀ names ∈ stubNames folders files, ¬[settings.style.commonModule] <+: names.dropLast) →
      ∃ world summary, start.perform (plan settings folders files) = (world, .ok summary)) ∧
    (∀ world summary, start.perform (plan settings folders files) = (world, .ok summary) →
      (∃ text, summary.catalog.moduleText settings.style summary.exported = .ok text ∧
        Leaves settings folders summary text world.files) ∧
      (target.slashes = 0 → ∀ e ∈ summary.documents,
        importPlace settings folders e = modulePlace settings folders)) ∧
    (target.slashes = 0 → ".." ∉ target.names →
      modulePlace settings folders = folders.output ++ target.names) := by
  intro start target
  -- a relative common file is looked for in the output folder
  have hrelative : target.slashes = 0 → modulePlace settings folders =
      Path.straighten (folders.output ++ target.names) := fun hslashes ↦ by
    rw [modulePlace, Path.within, if_pos hslashes]
    rfl
  refine ⟨exists_perform_eq_ok_iff hsystem hnamed hfresh houtput hleads hapart hreads,
    exists_perform_eq_ok_of_isName hsystem hnamed hfresh houtput hleads hapart hreads,
    fun world summary hperform ↦ ⟨?_, fun hslashes e he ↦ ?_⟩, fun hslashes hdots ↦ ?_⟩
  · exact leaves_of_perform hsystem hnamed houtput.straight
      (hfresh.filesBelow_eq_nil hsystem.keyed) hperform
  · obtain ⟨p, hplan, -⟩ := planAll_of_perform hperform
    obtain ⟨hsources, hstubs, -⟩ := effects_of_planAll hplan
    rw [hrelative hslashes]
    exact importPlace_eq hnamed hsystem.keyed hsources hstubs he
  · rw [hrelative hslashes]
    exact Path.straighten_eq_self (List.mem_append.not.2 (not_or.2 ⟨houtput.straight, hdots⟩))

set_option maxRecDepth 100000 in
/-- A module in a folder that is made for the only stub. -/
theorem usable_iff_beside_stub :
    let settings : Settings := ⟨.union, ⟨"T", "sub/common", false⟩⟩
    let folders : Folders := ⟨["in"], ["out"]⟩
    let files : FileTree := .folder
      [("in", .folder [("sub", .folder [("b.json", .file [0x7b, 0x7d])])])]
    (files.IsSystem ∧ files.Named ∧ files.Fresh folders.output ∧
      (Path.absolute folders.output).Leads [] ∧
      (∀ path ∈ stubPaths folders files, path.Leads []) ∧
      (∀ names ∈ stubNames folders files, ¬files.HasFolder (folders.input ++ names)) ∧
      List.Forall₂ (Reads folders) (files.documents folders.input) [.object []] ∧
      ∀ document ∈ files.documents folders.input, Spelled settings.policy document) ∧
      ∃ world summary, (World.ofFiles files []).perform (plan settings folders files) =
        (world, .ok summary) ∧
        (∃ text, Leaves settings folders summary text world.files) ∧
        ∀ e ∈ summary.documents,
          importPlace settings folders e = ["out", "sub", "common.d.ts"] := by
  intro settings folders files
  have hsystem : files.IsSystem := by
    refine ⟨⟨_, rfl⟩, .folder (by decide) (List.forall_mem_singleton.2 ?_)⟩
    refine .folder (by decide) (List.forall_mem_singleton.2 ?_)
    exact .folder (by decide) (List.forall_mem_singleton.2 (.file _))
  have hnamed : files.Named := by
    refine FileTree.named_folder (List.forall_mem_singleton.2 ⟨by decide, ?_⟩)
    refine FileTree.named_folder (List.forall_mem_singleton.2 ⟨by decide, ?_⟩)
    exact FileTree.named_folder (List.forall_mem_singleton.2 ⟨by decide, FileTree.named_file _⟩)
  have hfresh : files.Fresh ["out"] := FileTree.fresh_of_lookup rfl
  have hleadsTo : ∀ names ∈ [["out"], ["out", "sub", "b.d.ts"], ["out", "sub", "common.d.ts"]],
      (Path.absolute names).Leads [] := by
    simp only [List.forall_mem_cons, List.not_mem_nil, false_imp_iff, implies_true, and_true]
    refine ⟨?_, ?_, ?_⟩ <;> exact Path.leads_absolute (by cbv) (by decide) (by decide)
  have hnames : stubNames folders files = [["sub", "b.d.ts"]] := by cbv
  have hleads : ∀ path ∈ stubPaths folders files, path.Leads [] := by
    rw [stubPaths, hnames]
    exact List.forall_mem_singleton.2 (hleadsTo _ (by decide))
  have hapart : ∀ names ∈ stubNames folders files, ¬files.HasFolder (folders.input ++ names) := by
    rw [hnames, List.forall_mem_singleton]
    rintro ⟨_, hfolder⟩
    cases hfolder
  have hdocuments : files.documents folders.input = [("sub/b.json", [0x7b, 0x7d])] := by cbv
  have hreads : List.Forall₂ (Reads folders) (files.documents folders.input) [.object []] := by
    rw [hdocuments]
    refine .cons ?_ .nil
    show Document.read _ _ = _
    cbv
  have hspelled : ∀ document ∈ files.documents folders.input,
      Spelled settings.policy document := by
    rw [hdocuments, List.forall_mem_singleton]
    refine spelled_of_halfFree _ fun text htext ↦ Json.Reader.halfFree_of_not_mem ?_
    obtain rfl : ['{', '}'] = text := Except.ok.inj htext
    decide
  have hpath : modulePath settings folders = .absolute ["out", "sub", "common.d.ts"] := by cbv
  have houtput : (Path.absolute folders.output).Leads [] := hleadsTo ["out"] (by decide)
  obtain ⟨hiff, -, hafter, hplace⟩ :=
    usable_iff hsystem hnamed hfresh houtput hleads hapart hreads settings hspelled
  have hparse : Path.parse settings.style.commonModule = ⟨0, ["sub", "common.d.ts"]⟩ := by cbv
  rw [hparse] at hafter hplace
  have hplace : modulePlace settings folders = ["out", "sub", "common.d.ts"] :=
    hplace rfl (by decide)
  obtain ⟨world, summary, hperform⟩ := hiff.2 (by
    rw [hplace, hpath]
    refine ⟨(hleadsTo _ (by decide)).toAdmissible, fun steps hsteps ↦ ?_, ?_⟩
    · have hsteps : steps <+: ["out", "sub"] := hsteps
      rw [Path.straighten_eq_self fun hdots ↦ absurd (hsteps.subset hdots) (by decide)]
      exact .inr (.inl ⟨["sub", "b.d.ts"], hnames ▸ List.mem_singleton_self _, hsteps⟩)
    · rintro (⟨_, hfolder⟩ | ⟨names, hmem, hinitial⟩ | hinitial)
      · cases hfolder
      · rw [hnames, List.mem_singleton] at hmem
        subst hmem
        exact absurd hinitial (by decide)
      · exact absurd hinitial (by decide))
  obtain ⟨⟨text, -, hleaves⟩, himports⟩ := hafter world summary hperform
  refine ⟨⟨hsystem, hnamed, hfresh, houtput, hleads, hapart, hreads, hspelled⟩, world, summary,
    hperform, ⟨text, hleaves⟩, fun e he ↦ ?_⟩
  rw [himports rfl e he, hplace]

set_option maxRecDepth 100000 in
/-- For a module in a folder that is made for no stub nothing makes the folder: the configuration is
accepted and the only document is read, but the run fails. -/
theorem module_folder_missing :
    let settings : Settings := ⟨.union, ⟨"T", "sub/common", true⟩⟩
    let folders : Folders := ⟨["in"], ["out"]⟩
    let files : FileTree := .folder [("in", .folder [("a.json", .file [0x7b, 0x7d])])]
    Settings.load (.file (Utf8.encode "[render]\ncommon_file='sub/common'")) = .ok settings ∧
      (files.IsSystem ∧ files.Named ∧ files.Fresh folders.output ∧
        (Path.absolute folders.output).Leads [] ∧
        (∀ path ∈ stubPaths folders files, path.Leads []) ∧
        (∀ names ∈ stubNames folders files, ¬files.HasFolder (folders.input ++ names)) ∧
        List.Forall₂ (Reads folders) (files.documents folders.input) [.object []]) ∧
      ¬∃ world summary, (World.ofFiles files []).perform (plan settings folders files) =
        (world, .ok summary) := by
  intro settings folders files
  have hsystem : files.IsSystem := by
    refine ⟨⟨_, rfl⟩, .folder (by decide) (List.forall_mem_singleton.2 ?_)⟩
    exact .folder (by decide) (List.forall_mem_singleton.2 (.file _))
  have hnamed : files.Named := by
    refine FileTree.named_folder (List.forall_mem_singleton.2 ⟨by decide, ?_⟩)
    exact FileTree.named_folder (List.forall_mem_singleton.2 ⟨by decide, FileTree.named_file _⟩)
  have hfresh : files.Fresh ["out"] := FileTree.fresh_of_lookup rfl
  have houtput : (Path.absolute folders.output).Leads [] :=
    Path.leads_absolute (by cbv) (by decide) (by decide)
  have hnames : stubNames folders files = [["a.d.ts"]] := by cbv
  have hleads : ∀ path ∈ stubPaths folders files, path.Leads [] := by
    rw [stubPaths, hnames]
    exact List.forall_mem_singleton.2 (Path.leads_absolute (by cbv) (by decide) (by decide))
  have hapart : ∀ names ∈ stubNames folders files, ¬files.HasFolder (folders.input ++ names) := by
    rw [hnames, List.forall_mem_singleton]
    rintro ⟨_, hfolder⟩
    cases hfolder
  have hreads : List.Forall₂ (Reads folders) (files.documents folders.input) [.object []] := by
    rw [show files.documents folders.input = [("a.json", [0x7b, 0x7d])] by cbv]
    refine .cons ?_ .nil
    show Document.read _ _ = _
    cbv
  refine ⟨by cbv, ⟨hsystem, hnamed, hfresh, houtput, hleads, hapart, hreads⟩, fun hperform ↦ ?_⟩
  have hpath : modulePath settings folders = .absolute ["out", "sub", "common.d.ts"] := by cbv
  obtain ⟨-, hsteps, -⟩ := (exists_perform_eq_ok_iff hsystem hnamed hfresh houtput hleads hapart
    hreads).1 hperform
  rw [hpath] at hsteps
  obtain ⟨_, hfolder⟩ | ⟨names, hmem, hinitial⟩ | hinitial :=
    hsteps ["out", "sub"] (List.prefix_refl _)
  · cases hfolder
  · rw [hnames, List.mem_singleton] at hmem
    subst hmem
    exact absurd hinitial (by decide)
  · exact absurd hinitial (by decide)

end Run

end JsonShapes
