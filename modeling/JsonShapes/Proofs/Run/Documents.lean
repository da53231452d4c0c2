import JsonShapes.Proofs.Catalog.Documents
import JsonShapes.Proofs.Json.Reading
import JsonShapes.Run.Basic

/-!
# What a run that succeeds has planned

A run that succeeds has read every document, and its catalog and the numbers that its stubs pass on
are those of adding the values to an empty catalog (`addDocuments_of_planAll`): nothing else that a
run does reaches the catalog. So what holds of documents that are added one after another holds of
runs. Its effects are three for each document and then those that make the module of all aliases
(`effects_of_planAll`). Both come of one pass over the plan: a part of it that leaves the catalog
alone is known by the effects that it adds (`Adds`).

## Two views of a plan

One is of the catalog. Planning changes it in one place only, where the value of a document is
added, so the catalog at the end is that of adding documents (`addDocuments_of_planAll`). The other
is of the effects. They are listed as the plan is made, and a step that leaves the catalog alone is
known by those that it adds to the list (`Adds`). The two views are taken together once, for a
single document (`planDocument_eq_ok`), and then by induction for all.

Everything later that is said of runs is said of these two: no proof elsewhere opens the plan.
-/

namespace JsonShapes.Run

variable {α β : Type} {p p' : Progress}

/-! ### Steps that succeed -/

/-- A sequence succeeds if its parts do. -/
theorem bind_eq_ok {m : Planning α} {f : α → Planning β} {b : β} (h : (m >>= f) p = (.ok b, p')) :
    ∃ a p₁, m p = (.ok a, p₁) ∧ f a p₁ = (.ok b, p') := by
  have hbind : (m >>= f) p = ExceptT.bindCont f (m p).1 (m p).2 := rfl
  rw [hbind] at h
  rcases hrun : m p with ⟨result, p₁⟩
  rw [hrun] at h
  cases result with
  | ok a => exact ⟨a, p₁, rfl, h⟩
  | error fault => exact nomatch h

/-- A step that extends the catalog adds no effect. -/
theorem extending_eq_ok {step : Hoisting α} {a : α} (h : extending step p = (.ok a, p')) :
    step p.catalog = (.ok a, p'.catalog) ∧ p'.effects = p.effects := by
  rw [extending] at h
  split at h
  · cases h
    exact ⟨‹_›, rfl⟩
  · exact nomatch h

/-- A part that leaves the catalog as it is when it succeeds, and has only such results together
with the effects that it adds. -/
def Adds (m : Planning α) (post : α → List Effect → Prop) : Prop :=
  ∀ p a p', m p = (.ok a, p') → ∃ effects, p' = ⟨p.catalog, p.effects ++ effects⟩ ∧ post a effects

namespace Adds

theorem pure {post : α → List Effect → Prop} {a : α} (h : post a []) : Adds (pure a) post := by
  rintro p _ p' ⟨⟩
  exact ⟨[], by rw [List.append_nil], h⟩

theorem throw (fault : Fault) (post : α → List Effect → Prop) : Adds (throw fault) post :=
  fun _ _ _ h ↦ nomatch h

theorem planned (effect : Effect) :
    Adds (planned effect) fun _ effects ↦ effects = [effect] := by
  rintro p _ p' ⟨⟩
  exact ⟨[effect], rfl, rfl⟩

/-- To pass on a result adds nothing, and the result is known. -/
theorem result (result : Except Fault α) :
    Adds (ExceptT.mk (return result)) fun a effects ↦ result = .ok a ∧ effects = [] := by
  rintro p a p' h
  obtain ⟨rfl, rfl⟩ := Prod.mk.inj h
  exact ⟨[], by rw [List.append_nil], rfl, rfl⟩

/-- What two steps one after another add is what the first adds and then what the second does. -/
theorem bind {m : Planning α} {f : α → Planning β} {post : α → List Effect → Prop}
    {post' : β → List Effect → Prop} (hm : Adds m post)
    (hf : ∀ a effects, post a effects → Adds (f a) fun b more ↦ post' b (effects ++ more)) :
    Adds (m >>= f) post' := by
  intro p b p' h
  obtain ⟨a, p₁, hrun, hrest⟩ := bind_eq_ok h
  obtain ⟨effects, rfl, ha⟩ := hm p a p₁ hrun
  obtain ⟨more, rfl, hb⟩ := hf a effects ha _ b p' hrest
  exact ⟨effects ++ more, by rw [List.append_assoc], hb⟩

/-- An effect comes before those of the rest. -/
theorem planned_bind {effect : Effect} {m : Planning β} {post : β → List Effect → Prop}
    (h : Adds m fun b effects ↦ post b (effect :: effects)) :
    Adds (do Run.planned effect; m) post := by
  refine (planned effect).bind fun _ effects heffects ↦ ?_
  rw [heffects]
  exact h

/-- A result is passed on without an effect. -/
theorem result_bind {result : Except Fault α} {f : α → Planning β}
    {post : β → List Effect → Prop} (h : ∀ a, result = .ok a → Adds (f a) post) :
    Adds (ExceptT.mk (return result) >>= f) post := by
  refine (Adds.result result).bind fun a effects ⟨ha, heffects⟩ ↦ ?_
  rw [heffects]
  exact h a ha

end Adds

/-! ### Documents -/

variable {settings : Settings} {folders : Folders}

/-- The value that a document below a folder spells. -/
def Reads (folders : Folders) (document : String × List UInt8) (value : Json) : Prop :=
  Document.read (Path.absolute (folders.input ++ [document.1])).text document.2 = .ok value

/-- No object has a name twice in what a document spells. -/
theorem Reads.keyed {document : String × List UInt8} {value : Json}
    (h : Reads folders document value) : value.Keyed := by
  rw [Reads, Document.read, Document.readWith] at h
  split at h
  · exact nomatch h
  · split at h
    · next hparse =>
      cases h
      exact Json.keyed_of_parse hparse
    · exact nomatch h
    · exact nomatch h

/-- The values of documents that are read have no object with a name twice. -/
theorem keyed_of_reads {documents : List (String × List UInt8)} {values : List Json}
    (h : List.Forall₂ (Reads folders) documents values) :
    ∀ document ∈ (documents.map (·.1)).zip values, document.2.Keyed := by
  intro document hdocument
  obtain ⟨_, -, hread⟩ := exists_of_forall₂_right h (List.of_mem_zip hdocument).2
  exact hread.keyed

/-- The names that lead to a stub below the output folder. -/
def Emitted.stubNames (document : Emitted) : List String :=
  (Path.parse document.stub).names

/-- What the stub of a document holds. -/
def Emitted.stubText (style : Style) (document : Emitted) : String :=
  "export " ++ braced (" " ++ style.aliasOf document.root ++ " as default ") ++ " from \"" ++
    Path.importFrom document.stub style.commonFile ++ "\";"

/-- What is done for a document, the one of a number among as many as there are. -/
def Emitted.effects (settings : Settings) (folders : Folders) (total : Nat) (document : Emitted)
    (number : Nat) : List Effect :=
  [.makeFolders (.absolute (folders.output ++ document.stubNames.dropLast)),
   .write (.absolute (folders.output ++ document.stubNames)) (document.stubText settings.style),
   .say ("Finished file " ++ toString number ++ " of " ++ toString total ++ ": " ++
     document.source)]

/-- To a document that is done its value was added, and its stub was written. The steps are taken
apart in their order: reading, adding to the catalog, and then writing, which leaves the catalog as
it is. -/
theorem planDocument_eq_ok {total number : Nat} {source : String} {octets : List UInt8}
    {emitted : Emitted}
    (h : planDocument settings folders total number source octets p = (.ok emitted, p')) :
    (∃ value, Reads folders (source, octets) value ∧
      Hoisting.addDocument settings.policy source value p.catalog =
        (.ok emitted.root, p'.catalog)) ∧
      emitted.source = source ∧ Path.stub? source = some emitted.stub ∧
      p'.effects = p.effects ++ emitted.effects settings folders total number := by
  obtain ⟨value, p₁, hread, h⟩ := bind_eq_ok h
  obtain ⟨_, rfl, hvalue, rfl⟩ := Adds.result _ p value p₁ hread
  obtain ⟨root, p₂, hroot, h⟩ := bind_eq_ok h
  obtain ⟨hadd, heffects⟩ := extending_eq_ok hroot
  -- what follows writes the stub and leaves the catalog alone
  obtain ⟨effects, rfl, rfl, hsource, hstub, rfl⟩ : ∃ effects,
      p' = ⟨p₂.catalog, p₂.effects ++ effects⟩ ∧ emitted.root = root ∧
        emitted.source = source ∧ Path.stub? source = some emitted.stub ∧
        effects = emitted.effects settings folders total number := by
    refine (?_ : Adds _ fun (e : Emitted) effects ↦ e.root = root ∧ e.source = source ∧
      Path.stub? source = some e.stub ∧ effects = e.effects settings folders total number)
      p₂ emitted p' h
    split
    · exact .throw _ _
    · next hstub =>
      refine .planned_bind (.result_bind fun text htext ↦ .planned_bind (.planned_bind ?_))
      cases htext
      exact .pure ⟨rfl, rfl, hstub, rfl⟩
  refine ⟨⟨value, hvalue, hadd⟩, hsource, hstub, ?_⟩
  show p₂.effects ++ _ = _
  rw [heffects, List.append_nil]

/-- To documents that are done one after another their values were added, and their stubs were
written. -/
theorem planDocuments_eq_ok {total number : Nat} {documents : List (String × List UInt8)}
    {emitted : List Emitted}
    (h : planDocuments settings folders total number documents p = (.ok emitted, p')) :
    (∃ values, List.Forall₂ (Reads folders) documents values ∧
      Hoisting.addDocuments settings.policy ((documents.map (·.1)).zip values) p.catalog =
        (.ok (emitted.map (·.root)), p'.catalog)) ∧
      emitted.map (·.source) = documents.map (·.1) ∧
      (∀ e ∈ emitted, Path.stub? e.source = some e.stub) ∧
      p'.effects = p.effects ++
        (emitted.zipIdx number).flatMap fun e ↦ e.1.effects settings folders total e.2 := by
  induction documents generalizing number p emitted with
  | nil =>
    cases h
    exact ⟨⟨[], .nil, rfl⟩, rfl, nofun, (List.append_nil _).symm⟩
  | cons document documents ih =>
    obtain ⟨first, p₁, hfirst, h⟩ := bind_eq_ok h
    obtain ⟨rest, p₂, hrest, h⟩ := bind_eq_ok h
    cases h
    obtain ⟨⟨value, hread, hadd⟩, hsource, hstub, heffects⟩ := planDocument_eq_ok hfirst
    obtain ⟨⟨values, hreads, hadds⟩, hsources, hstubs, hrest⟩ := ih hrest
    refine ⟨⟨value :: values, .cons hread hreads, ?_⟩, ?_, ?_, ?_⟩
    · rw [Hoisting.addDocuments] at hadds ⊢
      rw [List.map_cons, List.zip_cons_cons, List.mapM_cons, Hoisting.bind_of_ok hadd,
        Hoisting.bind_of_ok hadds]
      rfl
    · rw [List.map_cons, List.map_cons, hsource, hsources]
    · exact List.forall_mem_cons.2 ⟨hsource.symm ▸ hstub, hstubs⟩
    · rw [hrest, heffects, List.append_assoc, List.zipIdx_cons, List.flatMap_cons]

/-! ### Whole runs -/

/-- The lines that warn of arrays of which no item was seen. -/
def warningLines (style : Style) (c : Catalog) : List String :=
  if c.unresolved.isEmpty then []
  else ((warning? style c.unresolved).map fun text ↦ "\n" ++ text).toList

/-- What is done when all documents are, with the text of the module of all aliases. -/
def moduleEffects (settings : Settings) (folders : Folders) (c : Catalog) (text : String) :
    List Effect :=
  [.say ("Creating " ++ settings.style.commonModule ++ " file..."),
   .makeFolders (.absolute folders.output),
   .write (Path.within (.absolute folders.output) (Path.parse settings.style.commonModule)) text,
   .say (settings.style.commonModule ++ " created successfully.")] ++
    (warningLines settings.style c).map .say

/-- When the module of all aliases is planned, the catalog is the one at hand and its text has been
made; the effects come after those for the documents. -/
theorem planModule_eq_ok {emitted : List Emitted} {summary : Summary}
    (h : planModule settings folders emitted p = (.ok summary, p')) :
    summary = ⟨p.catalog, emitted⟩ ∧ ∃ text,
      summary.catalog.moduleText settings.style summary.exported = .ok text ∧
        p'.effects = p.effects ++ moduleEffects settings folders p.catalog text := by
  obtain ⟨_, _, hget, h⟩ := bind_eq_ok h
  cases hget
  obtain ⟨effects, rfl, rfl, text, htext, rfl⟩ : ∃ effects,
      p' = ⟨p.catalog, p.effects ++ effects⟩ ∧ summary = ⟨p.catalog, emitted⟩ ∧ ∃ text,
        p.catalog.moduleText settings.style (Summary.exported ⟨p.catalog, emitted⟩) = .ok text ∧
          effects = moduleEffects settings folders p.catalog text := by
    -- all that comes after the catalog was got only adds effects
    refine (?_ : Adds _ fun s effects ↦ s = ⟨p.catalog, emitted⟩ ∧ ∃ text,
      p.catalog.moduleText settings.style (Summary.exported ⟨p.catalog, emitted⟩) = .ok text ∧
        effects = moduleEffects settings folders p.catalog text) p summary p' h
    refine .result_bind fun _ _ ↦ .planned_bind (.planned_bind (.result_bind fun text htext ↦ ?_))
    have htext : p.catalog.moduleText settings.style (Summary.exported ⟨p.catalog, emitted⟩) =
        .ok text := by
      revert htext
      cases p.catalog.moduleText settings.style (Summary.exported ⟨p.catalog, emitted⟩) with
      | ok found => exact fun h ↦ congrArg Except.ok (Except.ok.inj h)
      | error breach => exact nofun
    refine .planned_bind (.planned_bind ?_)
    show Adds (ite _ _ _) _
    split
    · next hempty =>
      exact .pure ⟨rfl, text, htext, by simp [moduleEffects, warningLines, hempty]⟩
    · next hempty =>
      split
      · next warning hwarning =>
        exact .planned_bind
          (.pure ⟨rfl, text, htext, by simp [moduleEffects, warningLines, hempty, hwarning]⟩)
      · next hwarning =>
        have hwarning := Option.eq_none_iff_forall_ne_some.2 hwarning
        exact .pure ⟨rfl, text, htext, by simp [moduleEffects, warningLines, hempty, hwarning]⟩
  exact ⟨rfl, text, htext, rfl⟩

/-- In a run that succeeds, the values of all documents were added to an empty catalog in their
order, and nothing else: the stubs pass on the declarations that stand for them. -/
theorem addDocuments_of_planAll {documents : List (String × List UInt8)} {summary : Summary}
    (h : planAll settings folders documents ⟨.empty, []⟩ = (.ok summary, p)) :
    ∃ values, List.Forall₂ (Reads folders) documents values ∧
      Hoisting.addDocuments settings.policy ((documents.map (·.1)).zip values) .empty =
        (.ok summary.exported, summary.catalog) := by
  obtain ⟨_, p₁, hsay, h⟩ := bind_eq_ok h
  obtain ⟨emitted, p₂, hdocuments, hmodule⟩ := bind_eq_ok h
  obtain ⟨_, rfl, rfl⟩ := Adds.planned _ _ _ _ hsay
  obtain ⟨hadds, -⟩ := planDocuments_eq_ok hdocuments
  obtain ⟨rfl, -⟩ := planModule_eq_ok hmodule
  exact hadds

/-- A run that succeeds writes a stub for each document, in their order, and then the module of all
aliases. -/
theorem effects_of_planAll {documents : List (String × List UInt8)} {summary : Summary}
    (h : planAll settings folders documents ⟨.empty, []⟩ = (.ok summary, p)) :
    summary.documents.map (·.source) = documents.map (·.1) ∧
      (∀ e ∈ summary.documents, Path.stub? e.source = some e.stub) ∧ ∃ text,
        summary.catalog.moduleText settings.style summary.exported = .ok text ∧
        p.effects = .say "Parsing JSON files..." ::
          ((summary.documents.zipIdx 1).flatMap fun e ↦
            e.1.effects settings folders documents.length e.2) ++
          moduleEffects settings folders summary.catalog text := by
  obtain ⟨_, p₁, hsay, h⟩ := bind_eq_ok h
  obtain ⟨emitted, p₂, hdocuments, hmodule⟩ := bind_eq_ok h
  obtain ⟨_, rfl, rfl⟩ := Adds.planned _ _ _ _ hsay
  obtain ⟨-, hsources, hstubs, heffects⟩ := planDocuments_eq_ok hdocuments
  obtain ⟨rfl, text, htext, hmodule⟩ := planModule_eq_ok hmodule
  refine ⟨hsources, hstubs, text, htext, ?_⟩
  rw [hmodule, heffects]
  rfl

end JsonShapes.Run
