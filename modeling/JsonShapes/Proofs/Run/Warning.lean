import JsonShapes.Proofs.Catalog.Unresolved
import JsonShapes.Proofs.Run.Performing
import Mathlib

/-!
# The warning

Unresolved declarations are where the data say nothing, and a run that succeeds warns of them if
there are any: there is one at most, and the places that it lists are those where some document has
an array, and only empty ones.

That there is one unresolved declaration at most comes from the catalog, where all arrays of which
no item was seen mean the same and share a declaration. Where its places are comes from the shapes,
and that these stand for the data from `Shape.emptyArray_namedAt_ofJson_iff`.
-/

namespace JsonShapes.Run

open Catalog

/-- A declaration has a place to be named in the warning, so there is a warning of it. At most one
declaration is unresolved, and its list of places is never empty. -/
theorem warningLines_eq {allowed : Shape → Prop} {c : Catalog} (hc : Sound allowed c)
    (style : Style) :
    c.unresolved = [] ∧ warningLines style c = [] ∨
      ∃ d text, c.unresolved = [d] ∧ warning? style [d] = some text ∧
        warningLines style c = ["\n" ++ text] := by
  have hlength := hc.length_unresolved_le_one
  rw [warningLines]
  cases hd : c.unresolved with
  | nil => exact .inl ⟨rfl, rfl⟩
  | cons d rest =>
    have hmem : d ∈ c.declarations := (List.mem_filter.1 (hd ▸ List.mem_cons_self)).1
    obtain rfl : rest = [] := by
      rw [hd, List.length_cons] at hlength
      exact List.length_eq_zero_iff.1 (by omega)
    obtain ⟨slot, hslot, rfl⟩ := List.mem_map.1 hmem
    obtain ⟨place, places, hplaces⟩ := List.exists_cons_of_ne_nil (hc.fits slot hslot).places_ne_nil
    -- the line names the first place, and every declaration has one
    have hline : ∃ line, slot.2.warningLine? style = some line := by
      rw [Declaration.warningLine?, hplaces]
      exact ⟨_, rfl⟩
    obtain ⟨line, hline⟩ := hline
    have hwarning : ∃ text, warning? style [slot.2] = some text := by
      rw [warning?, List.mapM_cons, hline]
      exact ⟨_, rfl⟩
    obtain ⟨text, htext⟩ := hwarning
    refine .inr ⟨slot.2, text, rfl, htext, ?_⟩
    rw [htext]
    rfl

/-- Unresolved arrays are reported exactly where the data say nothing. Of documents with distinct
labels, none of which has a `#`, the label of a position is listed by an unresolved declaration
exactly if there are arrays at the position and all of them are empty; there is one such declaration
at most. A run that succeeds under the policy that keeps all alternatives says nothing besides its
usual lines, but for a warning of this declaration if there is such a position in some document. -/
theorem unresolved_reported {documents : List (String × Json)}
    (h : ∀ document ∈ documents, document.2.Keyed) (hnodup : (documents.map (·.1)).Nodup)
    (hplain : ∀ document ∈ documents, '#' ∉ document.1.toList) :
    (∃ roots c, Hoisting.addDocuments .union documents .empty = (.ok roots, c) ∧
      (∀ document ∈ documents, ∀ path,
        (∃ d ∈ c.unresolved, Pointer.label document.1 (Pointer.ofPath path) ∈ d.places) ↔
          document.2.SaysNothing path) ∧
      c.unresolved.length ≤ 1) ∧
    ∀ settings folders files base world summary, settings.policy = .union →
      (World.ofFiles files base).perform (plan settings folders files) = (world, .ok summary) →
        ∃ values, List.Forall₂ (Reads folders) (files.documents folders.input) values ∧
          ((∃ value ∈ values, ∃ path, value.SaysNothing path) ∧
            (∃ d text, summary.catalog.unresolved = [d] ∧ warning? settings.style [d] = some text ∧
              world.said = summary.lines settings ++ ["\n" ++ text]) ∨
          (¬∃ value ∈ values, ∃ path, value.SaysNothing path) ∧
            world.said = summary.lines settings) := by
  constructor
  · obtain ⟨roots, c, hrun, hreaches, -⟩ :=
      records_addDocuments .union h (sound_empty Shape.Sorted)
    refine ⟨roots, c, hrun, fun document hdocument path ↦ ?_, ?_⟩
    · exact places_unresolved_exact h hnodup hplain hrun hdocument path
    · exact (hreaches.sound (sound_empty Shape.Sorted)).length_unresolved_le_one
  · intro settings folders files base world summary hpolicy hperform
    obtain ⟨p, hplan, -⟩ := planAll_of_perform hperform
    obtain ⟨values, hreads, hrun⟩ := addDocuments_of_planAll hplan
    have hsaid : world.said =
        summary.lines settings ++ warningLines settings.style summary.catalog :=
      said_of_perform hperform
    have hkeyed := keyed_of_reads hreads
    obtain ⟨hc, -⟩ := tidy_of_addDocuments .union hkeyed (hpolicy ▸ hrun)
    -- documents are the values under their names, so something is said of the one as of the other
    have hvalues : (((files.documents folders.input).map (·.1)).zip values).map (·.2) = values := by
      refine List.map_snd_zip ?_
      rw [List.length_map, hreads.length_eq]
    have hnothing : summary.catalog.unresolved ≠ [] ↔
        ∃ value ∈ values, ∃ path, value.SaysNothing path := by
      rw [unresolved_ne_nil_iff hkeyed (hpolicy ▸ hrun)]
      conv_rhs => rw [← hvalues]
      simp only [List.mem_map, exists_exists_and_eq_and]
    refine ⟨values, hreads, ?_⟩
    rcases warningLines_eq hc.sound settings.style with
      ⟨hnone, hlines⟩ | ⟨d, text, hd, htext, hlines⟩
    · refine .inr ⟨fun hsome ↦ hnothing.2 hsome hnone, ?_⟩
      rw [hsaid, hlines, List.append_nil]
    · refine .inl ⟨hnothing.1 (hd ▸ List.cons_ne_nil _ _), d, text, hd, htext, ?_⟩
      rw [hsaid, hlines]

set_option maxRecDepth 100000 in
/-- An empty array beside one that is not, at one position of the first document, and one that is
empty for itself in the second; and a run over a single empty array. -/
theorem unresolved_reported_once :
    let documents : List (String × Json) :=
      [("1.json", .array [.object [("a", .array [])], .object [("a", .array [.null])]]),
        ("2.json", .object [("a", .array []), ("b", .null)])]
    let settings : Settings := ⟨.union, ⟨"T", "c", false⟩⟩
    let files : FileTree := .folder [("in", .folder [("a.json", .file [0x5b, 0x5d])])]
    let folders : Folders := ⟨["in"], ["out"]⟩
    ((∀ document ∈ documents, document.2.Keyed) ∧ (documents.map (·.1)).Nodup ∧
      ∀ document ∈ documents, '#' ∉ document.1.toList) ∧
      (∃ roots c, Hoisting.addDocuments .union documents .empty = (.ok roots, c) ∧
        (∀ document ∈ documents, ∀ path,
          (∃ d ∈ c.unresolved, Pointer.label document.1 (Pointer.ofPath path) ∈ d.places) ↔
            document.2.SaysNothing path) ∧ c.unresolved.length ≤ 1) ∧
      ∃ world summary, (World.ofFiles files []).perform (plan settings folders files) =
        (world, .ok summary) ∧
        ∃ values, List.Forall₂ (Reads folders) (files.documents folders.input) values ∧
          ((∃ value ∈ values, ∃ path, value.SaysNothing path) ∧
            (∃ d text, summary.catalog.unresolved = [d] ∧ warning? settings.style [d] = some text ∧
              world.said = summary.lines settings ++ ["\n" ++ text]) ∨
          (¬∃ value ∈ values, ∃ path, value.SaysNothing path) ∧
            world.said = summary.lines settings) := by
  intro documents settings files folders
  have hempty : (Json.array []).Keyed := .array (List.forall_mem_nil _)
  have hkeyed : ∀ document ∈ documents, document.2.Keyed := by
    simp only [documents, List.forall_mem_cons, List.not_mem_nil, false_imp_iff, implies_true,
      and_true]
    refine ⟨.array ?_, .object (by decide) (by simpa using ⟨hempty, .null⟩)⟩
    simp only [List.forall_mem_cons, List.not_mem_nil, false_imp_iff, implies_true, and_true]
    refine ⟨.object (by decide) (by simpa using hempty), .object (by decide) ?_⟩
    simpa using .array (by simpa using .null)
  have hnodup : (documents.map (·.1)).Nodup := by decide
  have hplain : ∀ document ∈ documents, '#' ∉ document.1.toList := by decide
  obtain ⟨hvalues, hruns⟩ := unresolved_reported hkeyed hnodup hplain
  have hok : ((World.ofFiles files []).perform (plan settings folders files)).2.isOk = true := by
    cbv
  rcases hperform : (World.ofFiles files []).perform (plan settings folders files) with
    ⟨world, outcome⟩
  rw [hperform] at hok
  cases outcome with
  | ok summary =>
    exact ⟨⟨hkeyed, hnodup, hplain⟩, hvalues, world, summary, rfl,
      hruns settings folders files [] world summary rfl hperform⟩
  | error fault => exact absurd hok Bool.false_ne_true

end JsonShapes.Run
