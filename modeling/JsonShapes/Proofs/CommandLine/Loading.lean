import JsonShapes.CommandLine
import JsonShapes.Proofs.Json.Digits
import JsonShapes.Proofs.Run.Outcome

/-!
# How a call ends

A call with two folders and settings does what the run does, whatever lines are shown of it, and
then writes the report that was asked for. It ends with status 0 if all documents are read and the
names in them are texts. If the first that is not read is no JSON, this is said and the status is 1;
a whole number that is too long ends the call with a fault instead, as it ends the run
(`loading_outcome`).

What is shown of a line is the line without control sequences, so effects are compared up to that:
they do the same to the files (`performAll_shown`), and are refused alike.

## What a call adds to a run

* Arguments, settings and the folders are sorted out before anything is done. `Asks` says that this
  went well and what came of it; calls that ask for help, or for nothing that can be made out, are
  not treated here.
* Lines are shown without control sequences. This is the one change to the effects of the run.
* A run that ends well has its report written, if one was asked for, so the place of the report has
  to be free as well.
* A document that is no JSON is reported and the status is 1. Whatever else ends the run ends the
  call.
-/

namespace JsonShapes.CommandLine

open Run

variable {files : FileTree} {base : Location} {argv : List String} {settings : Settings}
  {request : Request} {folders : Folders} {world world' : World} {paths : List Path}
  {effects : List Effect}

/-! ### Lines that are shown -/

/-- Whether a line is shown as it is makes no difference to what an effect does to the files, nor to
whether it is refused. -/
theorem performOne_shown (hfiles : world.files = world'.files) (hbase : world.base = world'.base)
    (effect : Effect) : (world.performOne (shown effect)).2 = (world'.performOne effect).2 ∧
      (world.performOne (shown effect)).1.files = (world'.performOne effect).1.files ∧
      (world.performOne (shown effect)).1.base = (world'.performOne effect).1.base := by
  cases effect with
  | say line => exact ⟨rfl, hfiles, hbase⟩
  | complain line => exact ⟨rfl, hfiles, hbase⟩
  | makeFolders path =>
    simp only [shown, World.performOne, hfiles, hbase, and_self]
  | write path text =>
    simp only [shown, World.performOne, hfiles, hbase]
    split <;> exact ⟨rfl, by simp [hfiles], by simp [hbase]⟩

/-- What is shown of effects changes nothing about the files. -/
theorem performAll_shown (hfiles : world.files = world'.files) (hbase : world.base = world'.base)
    (effects : List Effect) :
    (world.performAll (effects.map shown)).2 = (world'.performAll effects).2 ∧
      (world.performAll (effects.map shown)).1.files = (world'.performAll effects).1.files ∧
      (world.performAll (effects.map shown)).1.base = (world'.performAll effects).1.base := by
  induction effects generalizing world world' with
  | nil => exact ⟨rfl, hfiles, hbase⟩
  | cons effect effects ih =>
    obtain ⟨hresult, hfiles, hbase⟩ := performOne_shown hfiles hbase effect
    rw [List.map_cons, World.performAll, World.performAll]
    rcases hone : world.performOne (shown effect) with ⟨changed, result⟩
    rcases hone' : world'.performOne effect with ⟨changed', result'⟩
    rw [hone, hone'] at hresult hfiles hbase
    obtain rfl : result = result' := hresult
    cases result with
    | ok _ => exact ih hfiles hbase
    | error fault => exact ⟨rfl, hfiles, hbase⟩

/-- What is shown makes the same folders. -/
theorem filterMap_made?_shown (effects : List Effect) (base : Location) :
    (effects.map shown).filterMap (Effect.made? base) = effects.filterMap (Effect.made? base) := by
  rw [List.filterMap_map]
  refine List.filterMap_congr fun effect _ ↦ ?_
  cases effect <;> rfl

/-- What hinders none of the effects hinders none as they are shown. -/
theorem unhindered_shown (h : World.Unhindered paths effects) :
    World.Unhindered paths (effects.map shown) := by
  intro world hready
  obtain ⟨world₁, hafter⟩ := h world hready
  obtain ⟨hresult, hfiles, hbase⟩ :=
    performAll_shown (rfl : world.files = world.files) rfl effects
  rw [hafter.performed] at hresult hfiles hbase
  refine ⟨_, Prod.ext rfl hresult, hbase.trans hafter.base_eq, ⟨?_, ?_⟩, fun q hq ↦ ?_,
    fun q ↦ ?_⟩
  · rw [hfiles]
    exact hafter.ready.system
  · rw [hfiles, hbase]
    exact hafter.ready.free
  · rw [hfiles, hafter.file?_eq q hq]
  · rw [hfiles, hafter.hasFolder_iff, filterMap_made?_shown]

/-! ### Calls for two folders -/

/-- A call asks for something, under settings. -/
structure Asks (files : FileTree) (base : Location) (argv : List String) (settings : Settings)
    (request : Request) : Prop where
  sorted : ∃ arguments, sortOut .none argv = .ok arguments ∧ arguments.help = false ∧
    arguments.request files base = .ok request
  configured : Settings.load (configSource files base request.config) = .ok settings

/-- A call that asks for something plans that, and neither help nor a complaint about its arguments.
-/
theorem Asks.rawPlan_eq (h : Asks files base argv settings request) :
    rawPlan files base argv = request.plan files base := by
  obtain ⟨arguments, hsorted, hhelp, hrequest⟩ := h.sorted
  rw [rawPlan, hsorted]
  simp only [hhelp, hrequest, Bool.false_eq_true, if_false]

/-- Nothing hinders a call if the files that its run writes are free, and the report as well. -/
theorem Asks.unhindered (h : Asks files base argv settings request)
    (hmodule : IsName settings.style.commonModule) (hnamed : files.Named) (hkeyed : files.Keyed)
    (hsubset : targets settings request.folders files ++ request.report.toList ⊆ paths) :
    World.Unhindered paths (plan files base argv).effects := by
  obtain ⟨htargets, hreport⟩ := List.append_subset.1 hsubset
  have hplan := unhindered_plan hnamed hkeyed hmodule htargets
  refine unhindered_shown ?_
  rw [h.rawPlan_eq, Request.plan, h.configured]
  simp only
  split
  · next summary hsummary =>
    refine hplan.append ?_
    cases hpath : request.report with
    | none => exact .nil
    | some path => exact .write (hreport (by simp [hpath])) _
  · exact hplan.append (.complain _)
  · exact hplan

/-- The status of a call is 0 if its run ends well. -/
theorem Asks.outcome_ok (h : Asks files base argv settings request) {summary : Summary}
    (houtcome : (Run.plan settings request.folders files).outcome = .ok summary) :
    (plan files base argv).outcome = .ok 0 := by
  show (rawPlan files base argv).outcome = _
  rw [h.rawPlan_eq, Request.plan, h.configured]
  simp only [houtcome]

/-- A document that is no JSON is reported, and the status of the call is 1. -/
theorem Asks.plan_malformed (h : Asks files base argv settings request) {name detail : String}
    (houtcome : (Run.plan settings request.folders files).outcome =
      .error (.malformed name detail)) :
    plan files base argv =
      ⟨((Run.plan settings request.folders files).effects ++
        [Effect.complain ("Malformed JSON in " ++ name ++ ": " ++ detail)]).map shown, .ok 1⟩ := by
  rw [plan, h.rawPlan_eq, Request.plan, h.configured]
  simp only [houtcome]

/-- A whole number that is too long ends the call as it ends the run. -/
theorem Asks.outcome_integerTooLong (h : Asks files base argv settings request)
    (houtcome : (Run.plan settings request.folders files).outcome = .error .integerTooLong) :
    (plan files base argv).outcome = .error .integerTooLong := by
  show (rawPlan files base argv).outcome = _
  rw [h.rawPlan_eq, Request.plan, h.configured]
  simp only [houtcome]

/-- What went wrong is shown line by line. -/
theorem filterMap_complaint?_shown (effects : List Effect) :
    (effects.map shown).filterMap Effect.complaint? =
      (effects.filterMap Effect.complaint?).map ControlSequence.remove := by
  rw [List.filterMap_map, List.map_filterMap]
  refine List.filterMap_congr fun effect _ ↦ ?_
  cases effect <;> rfl

/-- How a run ends is decided by its documents alone, if the module of all aliases lies in the
output folder and the files to be written are free. The run succeeds if all documents are read and
are spelled, that is, if no name in their shapes has a lone half of a surrogate pair; a document
that is read but is not spelled has a name that no file can hold, and of a run over such documents
nothing is said here. The run ends with the fault of the first document that is not read, whether
those before it are spelled or not. This fault names the document, unless a whole number in its text
is too long. So a call for the run has status 0 or 1, and in the second case it says which document
is malformed, but for a whole number that is too long: no call is prepared for that. -/
theorem loading_outcome (hmodule : IsName settings.style.commonModule) (hsystem : files.IsSystem)
    (hnamed : files.Named) (hfree : files.Free base (targets settings folders files)) :
    let documents := files.documents folders.input
    let start := World.ofFiles files base
    ((∃ values, List.Forall₂ (Reads folders) documents values) ∨
      ∃ before document fault, FirstFault folders documents before document fault) ∧
    (∀ values, List.Forall₂ (Reads folders) documents values →
      (∀ document ∈ documents, Spelled settings.policy document) →
      ∃ world summary, start.perform (Run.plan settings folders files) = (world, .ok summary)) ∧
    (∀ before document fault, FirstFault folders documents before document fault →
      (∃ world, start.perform (Run.plan settings folders files) = (world, .error fault)) ∧
      ((∃ detail,
        fault = .malformed (Path.absolute (folders.input ++ [document.1])).text detail) ∨
        fault = .integerTooLong ∧ ∃ text, Utf8.decode document.2 = .ok text ∧
          Json.parse (Newline.unify text) = .error .integerTooLong)) ∧
    ∀ argv request, Asks files base argv settings request → request.folders = folders →
      files.Free base (targets settings folders files ++ request.report.toList) →
      (∀ values, List.Forall₂ (Reads folders) documents values →
        (∀ document ∈ documents, Spelled settings.policy document) →
        ∃ world, start.perform (plan files base argv) = (world, .ok 0)) ∧
      (∀ before document name detail,
        FirstFault folders documents before document (.malformed name detail) →
        ∃ world, start.perform (plan files base argv) = (world, .ok 1) ∧
          world.complaints =
            [ControlSequence.remove ("Malformed JSON in " ++ name ++ ": " ++ detail)]) ∧
      ∀ before document, FirstFault folders documents before document .integerTooLong →
        ∃ world, start.perform (plan files base argv) = (world, .error .integerTooLong) := by
  intro documents start
  have hkeyed := hsystem.keyed
  have hplan := unhindered_plan hnamed hkeyed hmodule
    (List.Subset.refl (targets settings folders files))
  obtain ⟨world, -, hperform⟩ := hplan.perform (show World.Ready _ start from ⟨hsystem, hfree⟩)
  -- what is performed is known from the paths alone, so only the outcome of the plan is left
  refine ⟨reads_or_firstFault folders documents, fun values hreads _ ↦ ?_,
    fun before document fault hfault ↦ ⟨⟨world, ?_⟩, ?_⟩, fun argv request hasks hfolders hall ↦ ?_⟩
  · obtain ⟨summary, hsummary⟩ := outcome_plan_ok hnamed hkeyed settings hreads
    exact ⟨world, summary, hsummary ▸ hperform⟩
  · exact outcome_plan_error hnamed hkeyed settings hfault ▸ hperform
  · obtain ⟨refusal, -, rfl⟩ | ⟨text, htext, ⟨_, _, _, -, rfl⟩ | ⟨hparse, rfl⟩⟩ :=
      hfault.fails.cases
    · exact .inl ⟨_, rfl⟩
    · exact .inl ⟨_, rfl⟩
    · exact .inr ⟨rfl, text, htext, hparse⟩
  · subst hfolders
    obtain ⟨world, heffects, hperform⟩ := (hasks.unhindered hmodule hnamed hkeyed
      (List.Subset.refl _)).perform (show World.Ready _ start from ⟨hsystem, hall⟩)
    refine ⟨fun values hreads _ ↦ ⟨world, ?_⟩, fun before document name detail hfault ↦ ⟨world, ?_⟩,
      fun before document hfault ↦ ⟨world, ?_⟩⟩
    · obtain ⟨summary, hsummary⟩ := outcome_plan_ok hnamed hkeyed settings hreads
      exact hasks.outcome_ok hsummary ▸ hperform
    · have hraw := hasks.plan_malformed (outcome_plan_error hnamed hkeyed settings hfault)
      rw [hraw] at heffects hperform ⊢
      refine ⟨hperform, ?_⟩
      rw [World.complaints_of_performAll heffects, filterMap_complaint?_shown,
        List.filterMap_append, complaints_plan hnamed hkeyed]
      rfl
    · exact hasks.outcome_integerTooLong
        (outcome_plan_error hnamed hkeyed settings hfault) ▸ hperform

set_option maxRecDepth 100000 in
/-- The second of two documents is cut short. The run ends at its stop with the path and the
position of the fault, and the call reports that in one line and returns 1. -/
theorem loading_outcome_cut_short :
    let files : FileTree := .folder
      [("in", .folder [("a.json", .file [0x7b, 0x7d]), ("b.json", .file [0x7b])])]
    let folders : Folders := ⟨["in"], ["out"]⟩
    let detail := "Expecting property name enclosed in double quotes (line 1, column 2)"
    IsName Settings.standard.style.commonModule ∧ files.IsSystem ∧ files.Named ∧
      files.Free [] (targets .standard folders files) ∧
      (∃ world, (World.ofFiles files []).perform (Run.plan .standard folders files) =
        (world, .error (.malformed "/in/b.json" detail))) ∧
      ∃ world, (World.ofFiles files []).perform (plan files [] ["/in", "/out"]) = (world, .ok 1) ∧
        world.complaints = ["Malformed JSON in /in/b.json: " ++ detail] := by
  intro files folders detail
  have hmodule : IsName Settings.standard.style.commonModule := by decide
  have hsystem : files.IsSystem := by
    refine ⟨⟨_, rfl⟩, .folder (by decide) ?_⟩
    refine List.forall_mem_singleton.2 (.folder (by decide) ?_)
    exact List.forall_mem_cons.2 ⟨.file _, List.forall_mem_singleton.2 (.file _)⟩
  have hnamed : files.Named := by
    refine FileTree.named_folder (List.forall_mem_singleton.2 ⟨by decide, ?_⟩)
    exact FileTree.named_folder (List.forall_mem_cons.2 ⟨⟨by decide, FileTree.named_file _⟩,
      List.forall_mem_singleton.2 ⟨by decide, FileTree.named_file _⟩⟩)
  have htargets : targets .standard folders files =
      [["a.d.ts"], ["b.d.ts"], ["_common.d.ts"]].map fun names ↦
        .absolute (["out"] ++ names) := by cbv
  have hfree : files.Free [] (targets .standard folders files) := by
    rw [htargets]
    have hfresh : files.Fresh ["out"] := FileTree.fresh_of_lookup rfl
    refine hfresh.free (by decide) ?_ (by decide)
    simp only [List.forall_mem_cons, List.not_mem_nil, false_imp_iff, implies_true, and_true]
    refine ⟨?_, ?_, ?_⟩ <;> exact Path.leads_absolute (by cbv) (by decide) (by decide)
  have hfault : FirstFault folders (files.documents folders.input) [("a.json", [0x7b, 0x7d])]
      ("b.json", [0x7b]) (.malformed "/in/b.json" detail) := by
    refine ⟨?_, ⟨[.object []], .cons ?_ .nil⟩, ?_⟩
    · rw [show files.documents folders.input =
        [("a.json", [0x7b, 0x7d]), ("b.json", [0x7b])] by cbv]
      exact List.prefix_refl _
    · show Document.read _ _ = _
      cbv
    · show Document.read _ _ = _
      cbv
  have hasks : Asks files [] ["/in", "/out"] .standard
      ⟨folders, Path.parse Settings.fileName, none⟩ := by
    refine ⟨⟨⟨false, none, none, ["/in", "/out"]⟩, ?_, rfl, ?_⟩, ?_⟩ <;> cbv
  obtain ⟨-, -, hrun, hcall⟩ := loading_outcome hmodule hsystem hnamed hfree
  obtain ⟨world, hperform⟩ := (hrun _ _ _ hfault).1
  obtain ⟨-, hmalformed, -⟩ := hcall _ _ hasks rfl (by simpa using hfree)
  obtain ⟨world', hperform', hcomplaints⟩ := hmalformed _ _ _ _ hfault
  refine ⟨hmodule, hsystem, hnamed, hfree, ⟨world, hperform⟩, world', hperform', ?_⟩
  rw [hcomplaints]
  cbv

set_option maxRecDepth 100000 in
/-- A whole number of 4301 digits as a document is reported neither by a run nor by a call. The
fault is neither of the two that a call reports, so it goes through the run and the call as it is.
-/
theorem long_integer_not_reported :
    let files : FileTree := .folder
      [("in", .folder [("a.json", .file (List.replicate 4301 0x31))])]
    let folders : Folders := ⟨["in"], ["out"]⟩
    (IsName Settings.standard.style.commonModule ∧ files.IsSystem ∧ files.Named ∧
      files.Free [] (targets .standard folders files)) ∧
      (∃ world, (World.ofFiles files []).perform (Run.plan .standard folders files) =
        (world, .error .integerTooLong)) ∧
      ∃ world, (World.ofFiles files []).perform (plan files [] ["/in", "/out"]) =
        (world, .error .integerTooLong) := by
  have hlong : Document.read "/in/a.json" (List.replicate 4301 0x31) = .error .integerTooLong := by
    refine Document.read_of_digits (fun octet hoctet ↦ ?_) ?_ _
    · rw [List.eq_of_mem_replicate hoctet]
      decide
    · rw [List.length_replicate]
      decide
  generalize List.replicate 4301 (0x31 : UInt8) = octets at hlong
  intro files folders
  have hmodule : IsName Settings.standard.style.commonModule := by decide
  have hsystem : files.IsSystem := by
    refine ⟨⟨_, rfl⟩, .folder (List.nodup_singleton _) (List.forall_mem_singleton.2 ?_)⟩
    exact .folder (List.nodup_singleton _) (List.forall_mem_singleton.2 (.file _))
  have hnamed : files.Named := by
    have hnames : IsName "in" ∧ IsName "a.json" := by decide
    refine FileTree.named_folder (List.forall_mem_singleton.2 ⟨hnames.1, ?_⟩)
    exact FileTree.named_folder (List.forall_mem_singleton.2 ⟨hnames.2, FileTree.named_file _⟩)
  have htargets : targets .standard folders files =
      [["a.d.ts"], ["_common.d.ts"]].map fun names ↦ .absolute (["out"] ++ names) := by cbv
  have hfree : files.Free [] (targets .standard folders files) := by
    rw [htargets]
    have hfresh : files.Fresh ["out"] := FileTree.fresh_of_lookup rfl
    refine hfresh.free (by decide) ?_ (by decide)
    simp only [List.forall_mem_cons, List.not_mem_nil, false_imp_iff, implies_true, and_true]
    refine ⟨?_, ?_⟩ <;> exact Path.leads_absolute (by cbv) (by decide) (by decide)
  have hfault : FirstFault folders (files.documents folders.input) [] ("a.json", octets)
      .integerTooLong := by
    refine ⟨?_, ⟨[], .nil⟩, hlong⟩
    rw [show files.documents folders.input = [("a.json", octets)] by cbv]
    exact List.prefix_refl _
  have houtcome := outcome_plan_error hnamed hsystem.keyed .standard hfault
  have hasks : Asks files [] ["/in", "/out"] .standard
      ⟨folders, Path.parse Settings.fileName, none⟩ := by
    refine ⟨⟨⟨false, none, none, ["/in", "/out"]⟩, ?_, rfl, ?_⟩, ?_⟩ <;> cbv
  have hready : World.Ready (targets .standard folders files) (.ofFiles files []) :=
    ⟨hsystem, hfree⟩
  obtain ⟨world, -, hperform⟩ :=
    (unhindered_plan hnamed hsystem.keyed hmodule (List.Subset.refl _)).perform hready
  obtain ⟨world', -, hperform'⟩ := (hasks.unhindered hmodule hnamed hsystem.keyed
    (List.append_nil _ ▸ List.Subset.refl _)).perform hready
  exact ⟨⟨hmodule, hsystem, hnamed, hfree⟩, ⟨world, houtcome ▸ hperform⟩,
    world', hasks.outcome_integerTooLong houtcome ▸ hperform'⟩

end JsonShapes.CommandLine
