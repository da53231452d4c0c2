import JsonShapes.Proofs.Run.Outcome

/-!
# What a run leaves that ends at a document

The first document that is not read ends a run, and by then the run has done for the documents
before what it does for them in any case (`planDocuments_initial`): numbers are given out in the
order of declaration, so what comes later has no say in them. What such a run leaves is therefore an
initial part of what any run leaves that starts with the same documents and goes on
(`aborted_run_exact`).

The two runs need not agree on how many documents there are, and the lines that are shown to the
user give that number; so effects are compared up to it. What is written is the same to the last
octet.

## The course of the proof

* What is planned for a document depends on the catalog before it and on nothing that comes later,
  but for the total that is shown (`planDocument_unique`).
* So the plan over the documents that two runs have in common leads both to one catalog and gives
  the documents the same stubs (`planDocuments_initial`).
* The total is in lines only, and lines do not change the files.

Nothing is assumed of the document that is not read, nor of those after it. The run that goes on may
have any documents in their place.
-/

namespace JsonShapes

/-- The value of a document does not depend on what the document is called. -/
theorem Document.read_eq_ok_iff {document : String} {octets : List UInt8} {value : Json} :
    read document octets = .ok value ↔
      ∃ text, Utf8.decode octets = .ok text ∧ Json.parse (Newline.unify text) = .ok value := by
  rw [read, readWith]
  cases Utf8.decode octets with
  | error refusal => simp [throw, throwThe, MonadExceptOf.throw]
  | ok text =>
    cases hparse : Json.parseWith Json.replacement (Newline.unify text) with
    | ok other => simp [pure, Except.pure, Json.parse, hparse]
    | error refusal =>
      cases refusal <;> simp [throw, throwThe, MonadExceptOf.throw, Json.parse, hparse]

namespace Run

variable {settings : Settings} {folders folders' : Folders} {p p' q q' : Progress}
  {total total' number number' : Nat}

/-! ### Documents that two runs have in common -/

/-- A document has the same value below any folder. -/
theorem Reads.unique {document : String × List UInt8} {value value' : Json}
    (h : Reads folders document value) (h' : Reads folders' document value') : value = value' := by
  obtain ⟨text, htext, hvalue⟩ := Document.read_eq_ok_iff.1 h
  obtain ⟨text', htext', hvalue'⟩ := Document.read_eq_ok_iff.1 h'
  obtain rfl : text = text' := Except.ok.inj (htext.symm.trans htext')
  exact Except.ok.inj (hvalue.symm.trans hvalue')

/-- What becomes of a document depends on the catalog only, and neither on the folders nor on how
many documents there are. -/
theorem planDocument_unique {document : String × List UInt8} {e e' : Emitted}
    (h : planDocument settings folders total number document.1 document.2 p = (.ok e, p'))
    (h' : planDocument settings folders' total' number' document.1 document.2 q = (.ok e', q'))
    (hcatalog : p.catalog = q.catalog) : e = e' ∧ p'.catalog = q'.catalog := by
  obtain ⟨⟨value, hread, hadd⟩, hsource, hstub, -⟩ := planDocument_eq_ok h
  obtain ⟨⟨value', hread', hadd'⟩, hsource', hstub', -⟩ := planDocument_eq_ok h'
  rw [hread.unique hread', hcatalog, hadd'] at hadd
  obtain ⟨hroot, hcatalog'⟩ := Prod.mk.inj hadd
  refine ⟨?_, hcatalog'.symm⟩
  obtain ⟨source, stub, root⟩ := e
  rw [Emitted.mk.injEq]
  exact ⟨hsource.trans hsource'.symm, Option.some.inj (hstub.symm.trans hstub'),
    (Except.ok.inj hroot).symm⟩

/-- The first documents of a run fare as they do in a run over them alone. -/
theorem planDocuments_initial {documents documents' : List (String × List UInt8)}
    (hinitial : documents <+: documents') {emitted emitted' : List Emitted}
    (h : planDocuments settings folders total number documents p = (.ok emitted, p'))
    (h' : planDocuments settings folders' total' number' documents' q = (.ok emitted', q'))
    (hcatalog : p.catalog = q.catalog) : emitted <+: emitted' := by
  obtain ⟨more, rfl⟩ := hinitial
  -- Both runs take one document at a time, and the catalogs stay the same; the effects and the
  -- numbers that progress is told with may differ.
  induction documents generalizing number number' p q emitted emitted' with
  | nil =>
    cases h
    exact List.nil_prefix
  | cons document documents ih =>
    obtain ⟨first, p₁, hfirst, h⟩ := bind_eq_ok h
    obtain ⟨rest, p₂, hrest, h⟩ := bind_eq_ok h
    obtain ⟨first', q₁, hfirst', h'⟩ := bind_eq_ok h'
    obtain ⟨rest', q₂, hrest', h'⟩ := bind_eq_ok h'
    cases h
    cases h'
    obtain ⟨rfl, hcatalog₁⟩ := planDocument_unique hfirst hfirst' hcatalog
    exact List.cons_prefix_cons.2 ⟨rfl, ih hrest hcatalog₁ hrest'⟩

/-! ### Runs that end early -/

section

variable {files : FileTree} {base : Location} {world world' : World} {fault : Fault}

/-- A run that ends with a fault of its plan has done all that it planned. -/
theorem performAll_of_perform {α : Type} {plan : Plan α}
    (h : world.perform plan = (world', .error fault)) (hfault : ∀ f, fault ≠ .file f) :
    world.performAll plan.effects = (world', .ok ()) ∧ plan.outcome = .error fault := by
  rw [World.perform] at h
  split at h
  · next hperform =>
    obtain ⟨rfl, houtcome⟩ := Prod.mk.inj h
    exact ⟨hperform, houtcome⟩
  · next refusal hperform =>
    obtain ⟨-, houtcome⟩ := Prod.mk.inj h
    exact absurd (Except.error.inj houtcome).symm (hfault refusal)

/-- A plan that ends with a fault does so at the first document that is not read, and plans what it
does for the documents before. -/
theorem exists_of_outcome_eq_error (hnamed : files.Named) (hkeyed : files.Keyed)
    (h : (plan settings folders files).outcome = .error fault) : ∃ before document emitted p,
      FirstFault folders (files.documents folders.input) before document fault ∧
      planDocuments settings folders (files.documents folders.input).length 1 before
        ⟨.empty, [.say "Parsing JSON files..."]⟩ = (.ok emitted, p) ∧
      (plan settings folders files).effects = p.effects := by
  rcases reads_or_firstFault folders (files.documents folders.input) with
    ⟨values, hreads⟩ | ⟨before, document, other, hfault⟩
  · obtain ⟨summary, hok⟩ := outcome_plan_ok hnamed hkeyed settings hreads
    exact nomatch hok.symm.trans h
  · obtain rfl : other = fault :=
      Except.error.inj ((outcome_plan_error hnamed hkeyed settings hfault).symm.trans h)
    obtain ⟨emitted, p, hbefore, hplan⟩ :=
      planAll_eq_error settings (haveStubs hnamed hkeyed) hfault
    refine ⟨before, document, emitted, p, hfault, hbefore, ?_⟩
    rw [plan, planOf, hplan]

/-- A run over documents that are read passes on what one over the first of them passes on. A run
over more documents does for the first of them what the run over these did, as the catalog it starts
from is the same. -/
theorem exists_planOf_eq_ok {before documents : List (String × List UInt8)} {values : List Json}
    {emitted : List Emitted} (hcatalog : p.catalog = .empty)
    (hbefore : planDocuments settings folders total number before p = (.ok emitted, p'))
    (hinitial : before <+: documents) (hstubs : HaveStubs documents)
    (hreads : List.Forall₂ (Reads folders') documents values) :
    ∃ summary, (planOf settings folders' documents).outcome = .ok summary ∧
      emitted <+: summary.documents ∧ ∀ e ∈ emitted,
        .write (stubPath folders' e.stubNames) (e.stubText settings.style) ∈
          (planOf settings folders' documents).effects := by
  obtain ⟨summary, q, hplan⟩ := exists_planAll_eq_ok settings hstubs hreads
  obtain ⟨-, -, text, -, heffects⟩ := effects_of_planAll hplan
  -- the run that succeeds is taken apart at its documents, where it is compared with the other
  obtain ⟨_, q₁, hsay, hrest⟩ := bind_eq_ok hplan
  obtain ⟨emitted', q₂, hdocuments, hmodule⟩ := bind_eq_ok hrest
  obtain ⟨_, rfl, rfl⟩ := Adds.planned _ _ _ _ hsay
  obtain ⟨rfl, -⟩ := planModule_eq_ok hmodule
  have hemitted : emitted <+: emitted' :=
    planDocuments_initial hinitial hbefore hdocuments hcatalog
  have hplanOf : planOf settings folders' documents = ⟨q.effects, .ok ⟨q₂.catalog, emitted'⟩⟩ := by
    rw [planOf, hplan]
  refine ⟨⟨q₂.catalog, emitted'⟩, by rw [hplanOf], hemitted, fun e he ↦ ?_⟩
  obtain ⟨entry, hentry, rfl⟩ : ∃ entry ∈ emitted'.zipIdx 1, entry.1 = e := by
    rw [← List.mem_map, List.zipIdx_map_fst]
    exact hemitted.subset he
  have hwrite : Effect.write (stubPath folders' entry.1.stubNames)
      (entry.1.stubText settings.style) ∈
        entry.1.effects settings folders' documents.length entry.2 :=
    List.mem_cons_of_mem _ List.mem_cons_self
  rw [hplanOf]
  show _ ∈ q.effects
  rw [heffects]
  exact List.mem_append_left _
    (List.mem_cons_of_mem _ (List.mem_flatMap.2 ⟨entry, hentry, hwrite⟩))

/-- Files that were written apart, each once, to a folder without files are what it has. Neither
side lists a file twice, so it is enough that they have the same files. -/
theorem filesBelow_perm_of_written {files' : FileTree} {place : Location}
    (hkeyed : files.Keyed) (hkeyed' : files'.Keyed) (hempty : files.filesBelow place = [])
    {written : List (Location × List UInt8)} (hapart : (written.map (·.1)).Nodup)
    (hnames : ∀ file ∈ written, file.1 ≠ [])
    (hfiles : ∀ q, files'.file? q =
      ((written.map fun file ↦ (place ++ file.1, file.2)).reverse.lookup q).or (files.file? q)) :
    (files'.filesBelow place).Perm written := by
  have hkeys : ((written.map fun file ↦ (place ++ file.1, file.2)).reverse.map (·.1)).Nodup := by
    rw [List.map_reverse, List.nodup_reverse, List.map_map]
    have happend := hapart.map (List.append_right_injective place)
    rwa [List.map_map] at happend
  -- Nothing is in either list twice, so membership settles it.
  refine (List.perm_ext_iff_of_nodup (hkeyed'.nodup_filesBelow place).of_map hapart.of_map).2 ?_
  rintro ⟨names, content⟩
  rw [hkeyed'.mem_filesBelow_iff, hfiles]
  constructor
  · rintro ⟨hne, hfile⟩
    rw [hkeyed.file?_eq_none_of_filesBelow hempty hne, Option.or_none,
      Entries.lookup_eq_some_iff hkeys, List.mem_reverse] at hfile
    obtain ⟨file, hmem, heq⟩ := List.mem_map.1 hfile
    obtain ⟨hplace, rfl⟩ := Prod.mk.inj heq
    obtain rfl := List.append_cancel_left hplace
    exact hmem
  · intro hmem
    have hfile : (place ++ names, content) ∈
        (written.map fun file ↦ (place ++ file.1, file.2)).reverse :=
      List.mem_reverse.2 (List.mem_map_of_mem (f := fun file ↦ (place ++ file.1, file.2)) hmem)
    rw [(Entries.lookup_eq_some_iff hkeys).2 hfile]
    exact ⟨hnames _ hmem, rfl⟩

end

/-- A run that ends at a document that is no JSON leaves exactly what was finished. Below the output
folder, which had no files, there are the stubs of the documents before, each in a place of its own,
and the user was told of these documents in their order. Nothing of it would have been different in
a run that goes on: one that starts with the same documents, wherever they lie, and reads all of its
own succeeds, and for these it passes on the same declarations and writes the same stubs. -/
theorem aborted_run_exact {settings : Settings} {folders : Folders} {files : FileTree}
    {base : Location} {world : World} {name detail : String} (hsystem : files.IsSystem)
    (hnamed : files.Named) (houtput : ".." ∉ folders.output)
    (hempty : files.filesBelow folders.output = [])
    (h : (World.ofFiles files base).perform (plan settings folders files) =
      (world, .error (.malformed name detail))) :
    ∃ before document emitted,
      FirstFault folders (files.documents folders.input) before document
        (.malformed name detail) ∧
      (emitted.map (·.source) = before.map (·.1) ∧
        ∀ e ∈ emitted, Path.stub? e.source = some e.stub) ∧
      ((emitted.map (·.stubNames)).Nodup ∧ (world.files.filesBelow folders.output).Perm
        (emitted.map fun e ↦ (e.stubNames, Utf8.encode (e.stubText settings.style)))) ∧
      world.said = "Parsing JSON files..." ::
        progressLines (files.documents folders.input).length 1 emitted ∧
      ∀ folders' documents values, before <+: documents → HaveStubs documents →
        List.Forall₂ (Reads folders') documents values →
        ∃ summary, (planOf settings folders' documents).outcome = .ok summary ∧
          emitted <+: summary.documents ∧ ∀ e ∈ emitted,
            .write (stubPath folders' e.stubNames) (e.stubText settings.style) ∈
              (planOf settings folders' documents).effects := by
  obtain ⟨hperform, houtcome⟩ := performAll_of_perform h fun f hf ↦ nomatch hf
  obtain ⟨before, document, emitted, p, hfault, hbefore, heffects⟩ :=
    exists_of_outcome_eq_error hnamed hsystem.keyed houtcome
  obtain ⟨-, hsources, hstubs, hplanned⟩ := planDocuments_eq_ok hbefore
  -- what was emitted comes from the documents before the fault, whose stubs have their own places
  have hinitial : emitted.map (·.source) <+: (files.documents folders.input).map (·.1) := by
    rw [hsources]
    exact ((List.prefix_append _ _).trans hfault.leading).map _
  have hapart := Emitted.nodup_stubNames hnamed hsystem.keyed hinitial hstubs
  have hstem {e : Emitted} (he : e ∈ emitted) := Emitted.exists_stem hnamed hsystem.keyed
    (hinitial.subset (List.mem_map_of_mem he)) (hstubs e he)
  have hnames : ∀ e ∈ emitted, ∀ name ∈ e.stubNames, IsName name := by
    intro e he
    obtain ⟨_, _, -, hnames, hall⟩ := hstem he
    exact hnames ▸ hall
  rw [heffects, hplanned] at hperform
  refine ⟨before, document, emitted, hfault, ⟨hsources, hstubs⟩, ⟨hapart, ?_⟩, ?_, ?_⟩
  · obtain ⟨hsystem', hfiles⟩ := World.performAll_files hsystem hperform
    refine filesBelow_perm_of_written hsystem.keyed hsystem'.keyed hempty ?_ ?_ fun q ↦ ?_
    · rwa [List.map_map]
    · intro file hfile
      obtain ⟨e, he, rfl⟩ := List.mem_map.1 hfile
      obtain ⟨_, _, -, hnames, -⟩ := hstem he
      exact hnames ▸ List.append_ne_nil_of_right_ne_nil _ (List.cons_ne_nil _ _)
    · rw [hfiles, List.filterMap_append, List.filterMap_cons_none rfl, List.filterMap_nil,
        List.nil_append, written_of_emitted settings _ houtput hnames, List.map_map]
      rfl
  · rw [World.said_of_performAll hperform, List.filterMap_append, said_of_emitted]
    rfl
  · intro folders' documents values hlonger hhave hreads
    exact exists_planOf_eq_ok rfl hbefore hlonger hhave hreads

set_option maxRecDepth 100000 in
/-- A document without an end after one that is read; and the same document with one that is read in
its place. -/
theorem aborted_run_exact_second :
    let settings : Settings := ⟨.union, ⟨"T", "c", false⟩⟩
    let folders : Folders := ⟨["in"], ["out"]⟩
    let files : FileTree := .folder
      [("in", .folder [("a.json", .file [0x7b, 0x7d]), ("b.json", .file [0x7b])])]
    let run := (World.ofFiles files []).perform (plan settings folders files)
    let longer := [("a.json", [0x7b, 0x7d]), ("b.json", [0x5b, 0x5d])]
    (files.IsSystem ∧ files.Named ∧ ".." ∉ folders.output ∧
      files.filesBelow folders.output = []) ∧
      ∃ name detail, run.2 = .error (.malformed name detail) ∧
        run.1.said = ["Parsing JSON files...", "Finished file 1 of 2: a.json"] ∧
        ∃ e : Emitted, e.source = "a.json" ∧
          run.1.files.filesBelow folders.output =
            [(e.stubNames, Utf8.encode (e.stubText settings.style))] ∧
          ∃ summary, (planOf settings folders longer).outcome = .ok summary ∧
            [e] <+: summary.documents := by
  intro settings folders files run longer
  have hsystem : files.IsSystem := by
    refine ⟨⟨_, rfl⟩, .folder (by decide) ?_⟩
    refine List.forall_mem_singleton.2 (.folder (by decide) ?_)
    exact List.forall_mem_cons.2 ⟨.file _, List.forall_mem_singleton.2 (.file _)⟩
  have hnamed : files.Named := by
    refine FileTree.named_folder (List.forall_mem_singleton.2 ⟨by decide, ?_⟩)
    exact FileTree.named_folder (List.forall_mem_cons.2 ⟨⟨by decide, FileTree.named_file _⟩,
      List.forall_mem_singleton.2 ⟨by decide, FileTree.named_file _⟩⟩)
  have houtput : ".." ∉ folders.output := by decide
  have hempty : files.filesBelow folders.output = [] := rfl
  obtain ⟨name, detail, houtcome⟩ : ∃ name detail, run.2 = .error (.malformed name detail) := by
    simp only [run, files, folders, settings]
    exact ⟨"/in/b.json", "Expecting property name enclosed in double quotes (line 1, column 2)",
      by cbv⟩
  have hdocuments : files.documents folders.input =
      [("a.json", [0x7b, 0x7d]), ("b.json", [0x7b])] := by cbv
  have hfirst : Reads folders ("a.json", [0x7b, 0x7d]) (.object []) := by
    show Document.read _ _ = _
    cbv
  have hsecond : Reads folders ("b.json", [0x5b, 0x5d]) (.array []) := by
    show Document.read _ _ = _
    cbv
  have hstubs : HaveStubs longer :=
    List.forall_mem_cons.2 ⟨⟨"a.d.ts", by cbv⟩, List.forall_mem_singleton.2 ⟨"b.d.ts", by cbv⟩⟩
  obtain ⟨before, document, emitted, hfault, ⟨hsources, -⟩, ⟨-, hfiles⟩, hsaid, hlonger⟩ :=
    aborted_run_exact hsystem hnamed houtput hempty
      (show (World.ofFiles files []).perform (plan settings folders files) = (run.1, _) from
        Prod.ext rfl houtcome)
  rw [hdocuments] at hfault hsaid
  obtain rfl : before = [("a.json", [0x7b, 0x7d])] := by
    obtain ⟨more, hleading⟩ := hfault.leading
    cases before with
    | nil =>
      obtain ⟨rfl, -⟩ := List.cons.inj hleading
      cases hfirst.symm.trans hfault.fails
    | cons first rest =>
      rw [List.append_assoc, List.cons_append, List.cons.injEq] at hleading
      obtain ⟨rfl, hrest⟩ := hleading
      have hlength := congrArg List.length hrest
      rw [List.length_append, List.length_append] at hlength
      simp only [List.length_cons, List.length_nil] at hlength
      rw [List.length_eq_zero_iff.1 (show rest.length = 0 by omega)]
  obtain ⟨e, rfl⟩ : ∃ e, emitted = [e] :=
    List.length_eq_one_iff.1 (by simpa using congrArg List.length hsources)
  obtain ⟨summary, hok, hinitial, -⟩ := hlonger folders longer _ ⟨[("b.json", [0x5b, 0x5d])], rfl⟩
    hstubs (.cons hfirst (.cons hsecond .nil))
  have hsource : e.source = "a.json" := by simpa using hsources
  refine ⟨⟨hsystem, hnamed, houtput, hempty⟩, name, detail, houtcome, ?_, e, hsource, ?_, summary,
    hok, hinitial⟩
  · rw [hsaid, progressLines, List.zipIdx_singleton, List.map_singleton, hsource]
    cbv
  · exact List.perm_singleton.1 hfiles

end Run

end JsonShapes
