import JsonShapes.Proofs.Run.Documents

/-!
# What a run that succeeds has done

A run succeeds if its plan does and no effect is refused (`planAll_of_perform`). Then the user has
been told what the plan says, line by line (`said_of_perform`).

A plan is made before anything is done, so two things are known of a run that succeeds: that
planning succeeded, with the catalog and the effects that it gave, and that every single effect was
performed in turn. The lines that were said are those of the effects, in their order.

Nothing is said here of what the files become. Which lines a user has seen does not depend on it, as
long as nothing was refused. The converse direction, that nothing is refused, needs the files, and
is shown elsewhere.
-/

namespace JsonShapes

/-- The line that an effect has for the user. -/
def Effect.said? : Effect → Option String
  | .say line => some line
  | _ => none

/-- The line that an effect has for the user about what went wrong. -/
def Effect.complaint? : Effect → Option String
  | .complain line => some line
  | _ => none

namespace World

variable {world world' : World}

/-- An effect that is performed says its line, if it is one. -/
theorem performOne_said {effect : Effect} (h : world.performOne effect = (world', .ok ())) :
    world'.said = world.said ++ effect.said?.toList := by
  cases effect with
  | say line =>
    cases h
    rfl
  | complain line =>
    cases h
    exact (List.append_nil _).symm
  | makeFolders path =>
    obtain ⟨rfl, -⟩ := Prod.mk.inj h
    exact (List.append_nil _).symm
  | write path text =>
    rw [performOne] at h
    split at h
    · cases h
      exact (List.append_nil _).symm
    · exact nomatch h

/-- Effects are performed if the first is and then the rest. -/
theorem performAll_cons_eq_ok {effect : Effect} {effects : List Effect}
    (h : world.performAll (effect :: effects) = (world', .ok ())) :
    ∃ world₁, world.performOne effect = (world₁, .ok ()) ∧
      world₁.performAll effects = (world', .ok ()) := by
  rw [performAll] at h
  split at h
  · next world₁ hone => exact ⟨world₁, hone, h⟩
  · exact nomatch h

/-- So effects say their lines one after another. -/
theorem said_of_performAll {effects : List Effect}
    (h : world.performAll effects = (world', .ok ())) :
    world'.said = world.said ++ effects.filterMap Effect.said? := by
  induction effects generalizing world with
  | nil =>
    cases h
    exact (List.append_nil _).symm
  | cons effect effects ih =>
    obtain ⟨world₁, hone, hrest⟩ := performAll_cons_eq_ok h
    rw [ih hrest, performOne_said hone, List.append_assoc]
    cases hsaid : effect.said? <;> simp [hsaid]

/-- The same goes for lines about what went wrong. -/
theorem performOne_complaints {effect : Effect} (h : world.performOne effect = (world', .ok ())) :
    world'.complaints = world.complaints ++ effect.complaint?.toList := by
  cases effect with
  | say line =>
    cases h
    exact (List.append_nil _).symm
  | complain line =>
    cases h
    rfl
  | makeFolders path =>
    obtain ⟨rfl, -⟩ := Prod.mk.inj h
    exact (List.append_nil _).symm
  | write path text =>
    rw [performOne] at h
    split at h
    · cases h
      exact (List.append_nil _).symm
    · exact nomatch h

/-- They are kept apart from the others, in their own order. -/
theorem complaints_of_performAll {effects : List Effect}
    (h : world.performAll effects = (world', .ok ())) :
    world'.complaints = world.complaints ++ effects.filterMap Effect.complaint? := by
  induction effects generalizing world with
  | nil =>
    cases h
    exact (List.append_nil _).symm
  | cons effect effects ih =>
    obtain ⟨world₁, hone, hrest⟩ := performAll_cons_eq_ok h
    rw [ih hrest, performOne_complaints hone, List.append_assoc]
    cases hcomplaint : effect.complaint? <;> simp [hcomplaint]

end World

namespace Run

variable {settings : Settings} {folders : Folders} {files : FileTree} {world world' : World}
  {summary : Summary}

/-- A run that succeeds has planned to and has done what it planned. -/
theorem planAll_of_perform
    (h : world.perform (plan settings folders files) = (world', .ok summary)) :
    ∃ p, planAll settings folders (files.documents folders.input) ⟨.empty, []⟩ = (.ok summary, p) ∧
      world.performAll p.effects = (world', .ok ()) := by
  rcases hplan : planAll settings folders (files.documents folders.input) ⟨.empty, []⟩ with
    ⟨outcome, p⟩
  have hplanned : plan settings folders files = ⟨p.effects, outcome⟩ := by
    rw [plan, planOf, hplan]
  rw [hplanned, World.perform] at h
  split at h
  · next hperform =>
    obtain ⟨rfl, rfl⟩ := Prod.mk.inj h
    exact ⟨p, rfl, hperform⟩
  · exact nomatch h

/-- The lines about documents that are done, from a number on among as many as there are. -/
def progressLines (total number : Nat) (emitted : List Emitted) : List String :=
  (emitted.zipIdx number).map fun e ↦
    "Finished file " ++ toString e.2 ++ " of " ++ toString total ++ ": " ++ e.1.source

/-- The user is told of each document that is done. -/
theorem said_of_emitted (settings : Settings) (folders : Folders) (emitted : List Emitted)
    (total number : Nat) :
    ((emitted.zipIdx number).flatMap fun e ↦
      e.1.effects settings folders total e.2).filterMap Effect.said? =
        progressLines total number emitted := by
  rw [List.filterMap_flatMap, progressLines, List.map_eq_flatMap]
  rfl

/-- What the user is told of a run, a warning apart. -/
def Summary.lines (settings : Settings) (summary : Summary) : List String :=
  "Parsing JSON files..." ::
    ((summary.documents.zipIdx 1).map fun e ↦ "Finished file " ++ toString e.2 ++ " of " ++
      toString summary.documents.length ++ ": " ++ e.1.source) ++
    ["Creating " ++ settings.style.commonModule ++ " file...",
      settings.style.commonModule ++ " created successfully."]

/-- In a run that succeeds the user is told of each document and of the module, and is warned. -/
theorem said_of_perform (h : world.perform (plan settings folders files) = (world', .ok summary)) :
    world'.said = world.said ++ summary.lines settings ++
      warningLines settings.style summary.catalog := by
  obtain ⟨p, hplan, hperform⟩ := planAll_of_perform h
  obtain ⟨hsources, -, text, -, heffects⟩ := effects_of_planAll hplan
  have hlength : (files.documents folders.input).length = summary.documents.length := by
    simpa using (congrArg List.length hsources).symm
  have hdocuments := said_of_emitted settings folders summary.documents summary.documents.length 1
  have hmodule : (moduleEffects settings folders summary.catalog text).filterMap Effect.said? =
      ["Creating " ++ settings.style.commonModule ++ " file...",
        settings.style.commonModule ++ " created successfully."] ++
        warningLines settings.style summary.catalog := by
    rw [moduleEffects, List.filterMap_append, List.filterMap_map,
      show Effect.said? ∘ Effect.say = some from rfl, List.filterMap_some]
    rfl
  rw [World.said_of_performAll hperform, heffects, hlength, List.filterMap_append,
    List.filterMap_cons_some (show Effect.said? (.say _) = some _ from rfl), hdocuments, hmodule,
    Summary.lines, progressLines, List.append_assoc, List.append_assoc]

end Run

end JsonShapes
