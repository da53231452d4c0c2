import JsonShapes.Proofs.Files.Documents
import JsonShapes.Proofs.Files.Walking
import JsonShapes.Proofs.Run.Performing
import Mathlib

/-!
# What a run leaves in its output folder

A run that succeeds leaves what it wrote last at each place (`World.performAll_files`). Its stubs
are at different places, as its documents are, but the module of all aliases is written last and its
name is whatever the settings say, so it may take the place of a stub, and it may lie outside the
output folder.

What is left is looked up by place, so that it does not matter how often something was written there
on the way. `Leaves` says it for all places below the output folder at once: the module has its
place, a stub has its own unless the module took it, and no other place has a file.

## The course of the proof

* Of effects that are performed one after another, the last that wrote to a place decides what is
  there (`performAll_files`).
* What a plan writes below the output folder is a stub for each document and then the module
  (`written_of_planAll`).
* The places of the stubs differ (`nodup_stubNames`), since a stub has the name of its document up
  to the suffix, and the documents have each name once.

From this the list of files in a fresh output folder is read off, and how long it is
(`Leaves.mem_names_iff`, `Leaves.length_eq_iff`). If the module takes the place of a stub, there is
one file less than documents and module together; this is what `stub_overwritten` is an instance of.
-/

namespace JsonShapes

/-! ### Effects on files -/

/-- The place and the content of the file that an effect writes. -/
def Effect.written? (base : Location) : Effect → Option (Location × List UInt8)
  | .write path text => some (Path.straighten (path.route base), Utf8.encode text)
  | _ => none

namespace World

variable {world world' : World}

/-- An effect changes the file that it writes and no other. A world in which paths lead as expected
is left as one. -/
theorem performOne_files (hsystem : world.files.IsSystem) {effect : Effect}
    (h : world.performOne effect = (world', .ok ())) :
    world'.files.IsSystem ∧ world'.base = world.base ∧ ∀ q, world'.files.file? q =
      ((effect.written? world.base).toList.lookup q).or (world.files.file? q) := by
  cases effect with
  | say line =>
    cases h
    exact ⟨hsystem, rfl, fun _ ↦ rfl⟩
  | complain line =>
    cases h
    exact ⟨hsystem, rfl, fun _ ↦ rfl⟩
  | makeFolders path =>
    obtain ⟨rfl, -⟩ := Prod.mk.inj h
    obtain ⟨hmade, hfiles⟩ := FileTree.makeFolders_keeps hsystem world.base path
    exact ⟨hmade, rfl, hfiles⟩
  | write path text =>
    rw [performOne] at h
    split at h
    · next files hwrite =>
      cases h
      refine ⟨hsystem.write hwrite, rfl, fun q ↦ ?_⟩
      rw [FileTree.file?_write hsystem.root hwrite, Effect.written?, Option.toList_some,
        Entries.lookup_cons]
      split <;> rfl
    · cases h

/-- After effects a file holds what was written to it last. -/
theorem performAll_files (hsystem : world.files.IsSystem) {effects : List Effect}
    (h : world.performAll effects = (world', .ok ())) :
    world'.files.IsSystem ∧ ∀ q, world'.files.file? q =
      ((effects.filterMap (Effect.written? world.base)).reverse.lookup q).or
        (world.files.file? q) := by
  induction effects generalizing world with
  | nil =>
    cases h
    exact ⟨hsystem, fun _ ↦ rfl⟩
  | cons effect effects ih =>
    obtain ⟨world₁, hone, hrest⟩ := performAll_cons_eq_ok h
    obtain ⟨hsystem₁, hbase, hfiles₁⟩ := performOne_files hsystem hone
    obtain ⟨hsystem', hfiles⟩ := ih hsystem₁ hrest
    refine ⟨hsystem', fun q ↦ ?_⟩
    have hcons : (effect :: effects).filterMap (Effect.written? world.base) =
        (effect.written? world.base).toList ++
          effects.filterMap (Effect.written? world.base) := by
      cases hwritten : effect.written? world.base <;> simp [hwritten]
    have hshort : (effect.written? world.base).toList.reverse =
        (effect.written? world.base).toList := by
      cases effect.written? world.base <;> rfl
    rw [hfiles, hfiles₁, hbase, hcons, List.reverse_append, List.lookup_append, hshort,
      Option.or_assoc]

end World

namespace Run

variable {settings : Settings} {folders : Folders} {files : FileTree} {base : Location}
  {world : World} {summary : Summary}

/-! ### Stubs -/

/-- A document and its stub lie in one folder and have one stem. -/
theorem Emitted.exists_stem (hnamed : files.Named) (hkeyed : files.Keyed) {e : Emitted}
    (hsource : e.source ∈ (files.documents folders.input).map (·.1))
    (hstub : Path.stub? e.source = some e.stub) :
    ∃ inner stem, e.source = "/".intercalate (inner ++ [stem ++ ".json"]) ∧
      e.stubNames = inner ++ [stem ++ ".d.ts"] ∧
      ∀ name ∈ inner ++ [stem ++ ".d.ts"], IsName name := by
  obtain ⟨document, hdocument, hname⟩ := List.mem_map.1 hsource
  obtain ⟨inner, stem, hnames, hstub', hall, -⟩ := hnamed.exists_stub hkeyed hdocument
  rw [hname, hstub, Option.some.injEq] at hstub'
  exact ⟨inner, stem, hname ▸ hnames,
    by rw [Emitted.stubNames, hstub', Path.parse_intercalate hall], hall⟩

/-- The stubs of the first documents lie apart, each in a place of its own. -/
theorem Emitted.nodup_stubNames (hnamed : files.Named) (hkeyed : files.Keyed)
    {emitted : List Emitted}
    (hsources : emitted.map (·.source) <+: (files.documents folders.input).map (·.1))
    (hstubs : ∀ e ∈ emitted, Path.stub? e.source = some e.stub) :
    (emitted.map (·.stubNames)).Nodup := by
  have hnodup : (emitted.map (·.source)).Nodup :=
    hsources.sublist.nodup (hnamed.nodup_documents hkeyed folders.input)
  have hstem {e : Emitted} (he : e ∈ emitted) :=
    exists_stem hnamed hkeyed (hsources.subset (List.mem_map_of_mem he)) (hstubs e he)
  refine List.Nodup.map_on (fun a ha b hb heq ↦ List.inj_on_of_nodup_map hnodup ha hb ?_)
    hnodup.of_map
  obtain ⟨inner, stem, hsource, hnames, -⟩ := hstem ha
  obtain ⟨inner', stem', hsource', hnames', -⟩ := hstem hb
  rw [hnames, hnames'] at heq
  obtain ⟨rfl, hlast⟩ := List.append_inj' heq rfl
  obtain rfl := (String.append_left_inj _).1 (List.singleton_inj.1 hlast)
  rw [hsource, hsource']

section Stubs

variable (hnamed : files.Named) (hkeyed : files.Keyed)
  (hsources : summary.documents.map (·.source) = (files.documents folders.input).map (·.1))
  (hstubs : ∀ e ∈ summary.documents, Path.stub? e.source = some e.stub)
include hnamed hkeyed hsources hstubs

/-- A document and its stub lie in one folder and have one stem. -/
theorem exists_stem {e : Emitted} (he : e ∈ summary.documents) :
    ∃ inner stem, e.source = "/".intercalate (inner ++ [stem ++ ".json"]) ∧
      e.stubNames = inner ++ [stem ++ ".d.ts"] ∧
      ∀ name ∈ inner ++ [stem ++ ".d.ts"], IsName name :=
  Emitted.exists_stem hnamed hkeyed (hsources ▸ List.mem_map_of_mem he) (hstubs e he)

/-- Stubs lie apart, each in a place of its own. -/
theorem nodup_stubNames : (summary.documents.map (·.stubNames)).Nodup :=
  Emitted.nodup_stubNames hnamed hkeyed ⟨[], (List.append_nil _).trans hsources⟩ hstubs

theorem stubNames_ne_nil {e : Emitted} (he : e ∈ summary.documents) : e.stubNames ≠ [] := by
  obtain ⟨inner, stem, -, hnames, -⟩ := exists_stem hnamed hkeyed hsources hstubs he
  exact hnames ▸ List.append_ne_nil_of_right_ne_nil _ (List.cons_ne_nil _ _)

theorem isName_of_mem_stubNames {e : Emitted} (he : e ∈ summary.documents) {name : String}
    (hname : name ∈ e.stubNames) : IsName name := by
  obtain ⟨inner, stem, -, hnames, hall⟩ := exists_stem hnamed hkeyed hsources hstubs he
  exact hall name (hnames ▸ hname)

end Stubs

/-! ### The output folder -/

/-- Where the module of all aliases is written. -/
def modulePlace (settings : Settings) (folders : Folders) : Location :=
  Path.straighten
    (Path.within (.absolute folders.output) (Path.parse settings.style.commonModule)).names

/-- A path that starts from a folder of its own leads there from anywhere. -/
theorem route_within_absolute (base output : Location) (p : Path) :
    (Path.within (.absolute output) p).route base = (Path.within (.absolute output) p).names := by
  refine Path.route_of_slashes ?_
  rw [Path.within]
  split
  · exact Nat.one_ne_zero
  · assumption

/-- The files that are written for documents are their stubs, one after another. -/
theorem written_of_emitted (settings : Settings) (base : Location) (houtput : ".." ∉ folders.output)
    {emitted : List Emitted} (hnames : ∀ e ∈ emitted, ∀ name ∈ e.stubNames, IsName name)
    (total number : Nat) :
    ((emitted.zipIdx number).flatMap fun e ↦
      e.1.effects settings folders total e.2).filterMap (Effect.written? base) =
        emitted.map fun e ↦
          (folders.output ++ e.stubNames, Utf8.encode (e.stubText settings.style)) := by
  have hwritten : ∀ e ∈ emitted.zipIdx number,
      (e.1.effects settings folders total e.2).filterMap (Effect.written? base) =
        [(folders.output ++ e.1.stubNames, Utf8.encode (e.1.stubText settings.style))] := by
    intro e he
    have hstraight : ".." ∉ folders.output ++ e.1.stubNames := by
      refine List.mem_append.not.2 (not_or.2 ⟨houtput, fun hdots ↦ ?_⟩)
      exact (hnames e.1 (List.fst_mem_of_mem_zipIdx he) _ hdots).ne_dots rfl
    show [(Path.straighten (folders.output ++ e.1.stubNames), _)] = _
    rw [Path.straighten_eq_self hstraight]
  rw [List.filterMap_flatMap, List.flatMap_congr hwritten, ← List.map_eq_flatMap]
  conv_rhs => rw [← List.zipIdx_map_fst number emitted, List.map_map]
  rfl

/-- The files that a run writes are the stubs one after another, and then the module. -/
theorem written_of_planAll (base : Location) {documents : List (String × List UInt8)}
    {p : Progress}
    (hplan : planAll settings folders documents ⟨.empty, []⟩ = (.ok summary, p))
    (houtput : ".." ∉ folders.output)
    (hnames : ∀ e ∈ summary.documents, ∀ name ∈ e.stubNames, IsName name) :
    ∃ text, summary.catalog.moduleText settings.style summary.exported = .ok text ∧
      p.effects.filterMap (Effect.written? base) =
        (summary.documents.map fun e ↦
          (folders.output ++ e.stubNames, Utf8.encode (e.stubText settings.style))) ++
        [(modulePlace settings folders, Utf8.encode text)] := by
  obtain ⟨-, -, text, htext, heffects⟩ := effects_of_planAll hplan
  refine ⟨text, htext, ?_⟩
  have hdocuments := written_of_emitted settings base houtput hnames documents.length 1
  have hmodule : (moduleEffects settings folders summary.catalog text).filterMap
      (Effect.written? base) = [(modulePlace settings folders, Utf8.encode text)] := by
    rw [moduleEffects, List.filterMap_append, List.filterMap_map,
      show Effect.written? base ∘ Effect.say = fun _ ↦ none from rfl, List.filterMap_none,
      List.append_nil]
    show [(Path.straighten (Path.route base _), _)] = _
    rw [route_within_absolute]
    rfl
  rw [heffects, List.filterMap_append, List.filterMap_cons_none rfl, hdocuments, hmodule]

/-- What a run leaves, with the text of its module, if its output folder had no files before: stubs
in places of their own, unless the module took the place. -/
structure Leaves (settings : Settings) (folders : Folders) (summary : Summary) (text : String)
    (files : FileTree) : Prop where
  /-- No two stubs have one place. -/
  stubs_apart : (summary.documents.map (·.stubNames)).Nodup
  /-- No two files are listed at one place. -/
  files_apart : ((files.filesBelow folders.output).map (·.1)).Nodup
  /-- The module is where the settings say, wherever that is. -/
  module_at : files.file? (modulePlace settings folders) = some (Utf8.encode text)
  /-- Below the output folder there are the module, if that is its place, and the stubs, but for the
  one that was there before the module. -/
  mem_iff : ∀ names content, (names, content) ∈ files.filesBelow folders.output ↔ names ≠ [] ∧
    if folders.output ++ names = modulePlace settings folders then content = Utf8.encode text
    else ∃ e ∈ summary.documents, names = e.stubNames ∧
      content = Utf8.encode (e.stubText settings.style)

/-- A run into a folder without files leaves there what it wrote, and its text was made from its own
summary. -/
theorem leaves_of_perform (hsystem : files.IsSystem) (hnamed : files.Named)
    (houtput : ".." ∉ folders.output) (hempty : files.filesBelow folders.output = [])
    (h : (World.ofFiles files base).perform (plan settings folders files) =
      (world, .ok summary)) :
    ∃ text, summary.catalog.moduleText settings.style summary.exported = .ok text ∧
      Leaves settings folders summary text world.files := by
  obtain ⟨p, hplan, hperform⟩ := planAll_of_perform h
  obtain ⟨hsources, hstubs, -⟩ := effects_of_planAll hplan
  have hnodup := nodup_stubNames hnamed hsystem.keyed hsources hstubs
  obtain ⟨text, htext, hwritten⟩ := written_of_planAll base hplan houtput fun e he name ↦
    isName_of_mem_stubNames hnamed hsystem.keyed hsources hstubs he
  obtain ⟨hsystem', hfiles⟩ := World.performAll_files hsystem hperform
  let stubs := summary.documents.map fun e ↦
    (folders.output ++ e.stubNames, Utf8.encode (e.stubText settings.style))
  -- the module was written last, so it is what is looked up first
  have hlast : ∀ q, world.files.file? q =
      if q = modulePlace settings folders then some (Utf8.encode text)
      else (stubs.reverse.lookup q).or (files.file? q) := by
    intro q
    rw [hfiles, show (World.ofFiles files base).base = base from rfl, hwritten,
      List.reverse_append, List.reverse_singleton, List.singleton_append, Entries.lookup_cons]
    split <;> rfl
  have hkeys : (stubs.reverse.map (·.1)).Nodup := by
    rw [List.map_reverse, List.nodup_reverse, List.map_map]
    have happend := hnodup.map (List.append_right_injective folders.output)
    rwa [List.map_map] at happend
  refine ⟨text, htext, hnodup, hsystem'.keyed.nodup_filesBelow _, ?_, fun names content ↦ ?_⟩
  · rw [hlast, if_pos rfl]
  · rw [hsystem'.keyed.mem_filesBelow_iff, hlast]
    refine and_congr_right fun hne ↦ ?_
    have hbefore := hsystem.keyed.file?_eq_none_of_filesBelow hempty hne
    show (if folders.output ++ names = modulePlace settings folders then some (Utf8.encode text)
      else _) = some content ↔ _
    split
    · rw [Option.some.injEq, eq_comm]
    · rw [hbefore, Option.or_none, Entries.lookup_eq_some_iff hkeys, List.mem_reverse,
        List.mem_map]
      refine exists_congr fun e ↦ and_congr_right fun _ ↦ ?_
      rw [Prod.mk.injEq, List.append_cancel_left_eq, eq_comm, eq_comm (a := content)]

namespace Leaves

variable {text : String}

/-- The places with files are the place of the module and those of the stubs. -/
theorem mem_names_iff (h : Leaves settings folders summary text files) {names : List String} :
    names ∈ (files.filesBelow folders.output).map (·.1) ↔ names ≠ [] ∧
      (folders.output ++ names = modulePlace settings folders ∨
        names ∈ summary.documents.map (·.stubNames)) := by
  constructor
  · intro hnames
    obtain ⟨⟨names, content⟩, hfile, rfl⟩ := List.mem_map.1 hnames
    obtain ⟨hne, hfile⟩ := (h.mem_iff names content).1 hfile
    refine ⟨hne, ?_⟩
    split at hfile
    · next hplace => exact .inl hplace
    · obtain ⟨e, he, rfl, -⟩ := hfile
      exact .inr (List.mem_map_of_mem he)
  · rintro ⟨hne, hnames⟩
    by_cases hplace : folders.output ++ names = modulePlace settings folders
    · have hfile := (h.mem_iff names (Utf8.encode text)).2 ⟨hne, by rw [if_pos hplace]⟩
      exact List.mem_map_of_mem hfile
    · obtain ⟨e, he, rfl⟩ := List.mem_map.1 (hnames.resolve_left hplace)
      have hfile : (e.stubNames, Utf8.encode (e.stubText settings.style)) ∈
          files.filesBelow folders.output :=
        (h.mem_iff _ _).2 ⟨hne, by rw [if_neg hplace]; exact ⟨e, he, rfl, rfl⟩⟩
      exact List.mem_map_of_mem hfile

/-- There is a file for each document and one more just if the module took a place of its own in the
output folder. -/
theorem length_eq_iff (h : Leaves settings folders summary text files)
    (hne : ∀ e ∈ summary.documents, e.stubNames ≠ []) :
    (files.filesBelow folders.output).length = summary.documents.length + 1 ↔
      ∃ names ≠ [], folders.output ++ names = modulePlace settings folders ∧
        names ∉ summary.documents.map (·.stubNames) := by
  rw [← List.length_map (·.1), ← List.length_map (fun e : Emitted ↦ e.stubNames)]
  constructor
  · intro hlength
    by_contra hnone
    push Not at hnone
    -- if the module is outside, or in the place of a stub, all files are those of stubs
    have hsubset : (files.filesBelow folders.output).map (·.1) ⊆
        summary.documents.map (·.stubNames) := by
      intro names hnames
      obtain ⟨hne, hplace | hstub⟩ := h.mem_names_iff.1 hnames
      · exact hnone names hne hplace
      · exact hstub
    have hle := (h.files_apart.subperm hsubset).length_le
    omega
  · rintro ⟨names, hnames, hplace, hapart⟩
    have hperm : ((files.filesBelow folders.output).map (·.1)).Perm
        (names :: summary.documents.map (·.stubNames)) := by
      refine (List.perm_ext_iff_of_nodup h.files_apart
        (List.nodup_cons.2 ⟨hapart, h.stubs_apart⟩)).2 fun other ↦ ?_
      rw [h.mem_names_iff, List.mem_cons, ← hplace, List.append_cancel_left_eq]
      refine and_iff_right_of_imp ?_
      rintro (rfl | hother)
      · exact hnames
      · obtain ⟨e, he, rfl⟩ := List.mem_map.1 hother
        exact hne e he
    exact hperm.length_eq

end Leaves

/-- What a run that succeeds leaves in an output folder without files is exact but for the place of
the module. The run has added the values of all visible documents to a catalog, and each document
has a stub that passes on the declaration that stands for it; stubs are at different places, and
what is found there passes on what it should. The module of all aliases is where the settings say,
but it is written without a look at what is there. So there is a file for each document and one more
just if its place is in the output folder and not that of a stub. -/
theorem output_folder_exact {settings : Settings} {folders : Folders} {files : FileTree}
    {base : Location} {world : World} {summary : Summary} (hsystem : files.IsSystem)
    (hnamed : files.Named) (houtput : ".." ∉ folders.output)
    (hempty : files.filesBelow folders.output = [])
    (h : (World.ofFiles files base).perform (plan settings folders files) =
      (world, .ok summary)) :
    (∃ values, List.Forall₂ (Reads folders) (files.documents folders.input) values ∧
      Hoisting.addDocuments settings.policy
        (((files.documents folders.input).map (·.1)).zip values) .empty =
          (.ok summary.exported, summary.catalog)) ∧
      (summary.documents.map (·.source) = (files.documents folders.input).map (·.1) ∧
        ∀ e ∈ summary.documents, Path.stub? e.source = some e.stub) ∧
      (∃ text, summary.catalog.moduleText settings.style summary.exported = .ok text ∧
        Leaves settings folders summary text world.files) ∧
      ((world.files.filesBelow folders.output).length =
          (files.visible folders.input).length + 1 ↔
        ∃ names ≠ [], folders.output ++ names = modulePlace settings folders ∧
          names ∉ summary.documents.map (·.stubNames)) := by
  obtain ⟨p, hplan, -⟩ := planAll_of_perform h
  obtain ⟨hsources, hstubs, -⟩ := effects_of_planAll hplan
  obtain ⟨text, htext, hleaves⟩ := leaves_of_perform hsystem hnamed houtput hempty h
  have hcount : summary.documents.length = (files.visible folders.input).length := by
    have hlength := congrArg List.length hsources
    rwa [List.length_map, List.length_map, (FileTree.documents_perm _ _).length_eq,
      List.length_map] at hlength
  refine ⟨addDocuments_of_planAll hplan, ⟨hsources, hstubs⟩, ⟨text, htext, hleaves⟩, ?_⟩
  rw [← hcount]
  exact hleaves.length_eq_iff fun e ↦ stubNames_ne_nil hnamed hsystem.keyed hsources hstubs

set_option maxRecDepth 100000 in
/-- A run over a single document whose stub is apart from the module. -/
theorem output_folder_exact_apart :
    let settings : Settings := ⟨.union, ⟨"T", "c", false⟩⟩
    let folders : Folders := ⟨["in"], ["out"]⟩
    let files : FileTree := .folder [("in", .folder [("a.json", .file [0x7b, 0x7d])])]
    files.IsSystem ∧ files.Named ∧ ".." ∉ folders.output ∧
      files.filesBelow folders.output = [] ∧ ∃ world summary,
        (World.ofFiles files []).perform (plan settings folders files) = (world, .ok summary) ∧
        (∃ text, Leaves settings folders summary text world.files) ∧
        ((world.files.filesBelow folders.output).length =
            (files.visible folders.input).length + 1 ↔
          ∃ names ≠ [], folders.output ++ names = modulePlace settings folders ∧
            names ∉ summary.documents.map (·.stubNames)) := by
  intro settings folders files
  have hsystem : files.IsSystem := by
    refine ⟨⟨_, rfl⟩, .folder (by decide) ?_⟩
    refine List.forall_mem_singleton.2 (.folder (by decide) ?_)
    exact List.forall_mem_singleton.2 (.file _)
  have hnamed : files.Named := by
    intro place content hfile
    have hmem := hsystem.keyed.mem_files_iff.2 (show files.file? (place, content).1 = _ from hfile)
    obtain ⟨rfl, -⟩ := Prod.mk.inj (List.mem_singleton.1 hmem)
    refine List.forall_mem_cons.2 ⟨?_, List.forall_mem_singleton.2 ?_⟩
    · exact ⟨by decide, by decide, by decide, by decide⟩
    · exact ⟨by decide, by decide, by decide, by decide⟩
  have houtput : ".." ∉ folders.output := by decide
  have hempty : files.filesBelow folders.output = [] := rfl
  have hok : ((World.ofFiles files []).perform (plan settings folders files)).2.isOk = true := by
    cbv
  rcases hperform : (World.ofFiles files []).perform (plan settings folders files) with
    ⟨world, outcome⟩
  rw [hperform] at hok
  cases outcome with
  | ok summary =>
    obtain ⟨-, -, ⟨text, -, hleaves⟩, hlength⟩ :=
      output_folder_exact hsystem hnamed houtput hempty hperform
    exact ⟨hsystem, hnamed, houtput, hempty, world, summary, rfl, ⟨text, hleaves⟩, hlength⟩
  | error fault => exact absurd hok Bool.false_ne_true

set_option maxRecDepth 100000 in
/-- A document that has the name of the module loses its stub: there is one file for both. -/
theorem stub_overwritten :
    let settings : Settings := ⟨.union, ⟨"T", "_common", false⟩⟩
    let folders : Folders := ⟨["in"], ["out"]⟩
    let files : FileTree := .folder [("in", .folder [("_common.json", .file [0x7b, 0x7d])])]
    let run := (World.ofFiles files []).perform (plan settings folders files)
    (files.visible folders.input).map (·.1) = [["_common.json"]] ∧
      files.filesBelow folders.output = [] ∧
      (run.2.toOption.map fun summary ↦ summary.documents.map fun e ↦
        (e.stubNames, e.stubText settings.style)) =
          some [(["_common.d.ts"], "export \x7b T1 as default \x7d from \"./_common\";")] ∧
      run.1.files.filesBelow folders.output =
        [(["_common.d.ts"], Utf8.encode "export type T1 = \x7b\x7d; // _common.json\n")] ∧
      (run.1.files.filesBelow folders.output).length ≠
        (files.visible folders.input).length + 1 := by
  cbv

end Run

end JsonShapes
