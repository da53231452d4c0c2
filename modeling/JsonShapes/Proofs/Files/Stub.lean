import JsonShapes.Proofs.Files.Documents
import JsonShapes.Proofs.Files.Import
import Mathlib

/-!
# Stubs and what they import

Every document that is read has a stub, whose path is that of the document with another suffix. So
the stub lies beside the document, and different documents have different stubs. The import in a
stub is a relative path, and from the folder of the stub it leads to where the common file is below
the output folder, however deep the document lies (`Path.stub_imports`).

The stub and the folder of its document go up and down by the same names. An import from a stub that
lies `n` folders deep begins with `n` double points, or with a point if there is no folder, and from
the folder of the stub these lead back to the output folder. So the proof is by straightening: what
stands behind the double points is the name of the common file alone.
-/

namespace JsonShapes.Path

/-- The text is the path of a document that is read below some folder. -/
def IsDocument (p : String) : Prop :=
  ∃ (tree : FileTree) (place : Location), tree.Named ∧ tree.Keyed ∧
    p ∈ (tree.documents place).map (·.1)

/-! ### Texts of names -/

/-- What is put behind the last name is put behind the text. -/
theorem intercalate_concat_append (names : List String) (name suffix : String) :
    "/".intercalate (names ++ [name ++ suffix]) = "/".intercalate (names ++ [name]) ++ suffix := by
  induction names with
  | nil => rw [List.nil_append, List.nil_append, String.intercalate_singleton,
      String.intercalate_singleton]
  | cons first names ih =>
    have hcons : ∀ last, "/".intercalate (first :: names ++ [last]) =
        first ++ "/" ++ "/".intercalate (names ++ [last]) := by
      intro last
      cases names <;> exact String.intercalate_cons_cons
    rw [hcons, hcons, ih]
    exact String.append_assoc.symm

/-- An import begins with a point or two and a slash. -/
theorem exists_importFrom_eq (stub target : String) :
    ∃ rest, importFrom stub target = "./" ++ rest ∨ importFrom stub target = "../" ++ rest := by
  rw [importFrom]
  cases (parse stub).parentDepth with
  | zero => exact ⟨target, .inl rfl⟩
  | succ depth =>
    obtain ⟨first, rest, hcons⟩ : ∃ first rest, List.replicate depth ".." ++ [target] =
        first :: rest := List.exists_cons_of_ne_nil (by simp)
    refine ⟨"/".intercalate (first :: rest), .inr ?_⟩
    show "/".intercalate (".." :: (List.replicate depth ".." ++ [target])) = _
    rw [hcons, String.intercalate_cons_cons]
    rfl

/-- An import is a relative one, with a single point for the folder of the stub, or with double
points. -/
theorem startsWith_importFrom (stub target : String) :
    (importFrom stub target).startsWith "./" = true ∨
      (importFrom stub target).startsWith "../" = true := by
  simp only [String.startsWith_string_iff]
  obtain ⟨rest, h | h⟩ := exists_importFrom_eq stub target
  · exact .inl (h ▸ String.toList_append ▸ List.prefix_append _ _)
  · exact .inr (h ▸ String.toList_append ▸ List.prefix_append _ _)

/-- No import starts at the root, however the target is spelled: a point stands before the first
slash. -/
theorem slashes_parse_importFrom (stub target : String) :
    (parse (importFrom stub target)).slashes = 0 := by
  obtain ⟨rest, h | h⟩ := exists_importFrom_eq stub target
  · rw [h, parse, String.toList_append]
    rfl
  · rw [h, parse, String.toList_append]
    rfl

/-! ### Stubs -/

/-- A document is told from others by what is before its suffix, and so is its stub. -/
theorem IsDocument.exists_stem {p : String} (h : IsDocument p) : ∃ folders stem,
    (∀ name ∈ folders ++ [stem ++ ".json"], IsName name) ∧
      p = "/".intercalate (folders ++ [stem]) ++ ".json" ∧
      stub? p = some ("/".intercalate (folders ++ [stem]) ++ ".d.ts") := by
  obtain ⟨tree, place, hnamed, hkeyed, hp⟩ := h
  obtain ⟨document, hdocument, rfl⟩ := List.mem_map.1 hp
  obtain ⟨folders, stem, hstem, hfolders, hname, hsource, -⟩ :=
    hnamed.exists_of_mem_documents hkeyed hdocument
  have hall : ∀ name ∈ folders ++ [stem ++ ".json"], IsName name :=
    List.forall_mem_append.2 ⟨hfolders, List.forall_mem_singleton.2 hname⟩
  refine ⟨folders, stem, hall, ?_, ?_⟩
  · rw [hsource, intercalate_concat_append]
  · rw [hsource, stub?_intercalate hstem hall, intercalate_concat_append]

/-- The stub of a document has the path of the document, with the suffix of modules for that of
documents. So it lies in the same folder, and no other document has it. For a common file with a
relative path the import begins with a point or two and a slash, and from the folder of the stub it
leads where the common file is below the output folder. -/
theorem stub_imports {p : String} (h : IsDocument p) :
    ∃ stem, p = stem ++ ".json" ∧ stub? p = some (stem ++ ".d.ts") ∧
      (parse (stem ++ ".d.ts")).parent = (parse p).parent ∧
      (∀ q, IsDocument q → stub? q = stub? p → q = p) ∧
      ∀ commonFile, (parse commonFile).slashes = 0 →
        let source := importFrom (stem ++ ".d.ts") commonFile
        (source.startsWith "./" = true ∨ source.startsWith "../" = true) ∧
          ∀ output, straighten ((parse source).route (output ++ (parse p).parent.names)) =
            straighten ((parse commonFile).route output) := by
  obtain ⟨folders, name, hall, hp, hstub⟩ := h.exists_stem
  have hsource : (parse p).parent = ⟨0, folders⟩ := by
    rw [hp, ← intercalate_concat_append, parse_intercalate hall, parent, List.dropLast_concat]
  have hall : ∀ n ∈ folders ++ [name ++ ".d.ts"], IsName n := by
    rw [List.forall_mem_append, List.forall_mem_singleton] at hall ⊢
    exact ⟨hall.1, hall.2.stub⟩
  -- stub and document lie in one folder
  have hbeside :
      (parse ("/".intercalate (folders ++ [name]) ++ ".d.ts")).parent = ⟨0, folders⟩ := by
    rw [← intercalate_concat_append, parse_intercalate hall, parent, List.dropLast_concat]
  refine ⟨_, hp, hstub, hbeside.trans hsource.symm, fun q hq hstubs ↦ ?_,
    fun commonFile hcommon ↦ ⟨startsWith_importFrom _ _, fun output ↦ ?_⟩⟩
  · obtain ⟨folders', name', -, hq, hstub'⟩ := hq.exists_stem
    rw [hstub, hstub', Option.some.injEq, String.append_left_inj] at hstubs
    rw [hp, hq, hstubs]
  · have hstraight := straighten_importFrom_append hall output commonFile ""
    rw [intercalate_concat_append, String.append_empty, String.append_empty] at hstraight
    rwa [route, if_pos (slashes_parse_importFrom _ _), route, if_pos hcommon, hsource]

/-- A document two folders deep whose name has two points, and a common file outside the output
folder. -/
theorem stub_imports_nested :
    let source := importFrom "x/y/a.b.d.ts" "../shared"
    IsDocument "x/y/a.b.json" ∧ (parse "../shared").slashes = 0 ∧
      stub? "x/y/a.b.json" = some "x/y/a.b.d.ts" ∧ source = "../../../shared" ∧
      straighten ((parse source).route ["root", "out", "x", "y"]) = ["root", "shared"] := by
  intro source
  have hdocument : IsDocument "x/y/a.b.json" := by
    refine ⟨.folder [("x", .folder [("y", .folder [("a.b.json", .file [])])])], [], ?_, ?_, ?_⟩
    · refine FileTree.named_folder (List.forall_mem_singleton.2 ⟨by decide, ?_⟩)
      refine FileTree.named_folder (List.forall_mem_singleton.2 ⟨by decide, ?_⟩)
      exact FileTree.named_folder (List.forall_mem_singleton.2 ⟨by decide, FileTree.named_file _⟩)
    · refine .folder (by decide) (List.forall_mem_singleton.2 (.folder (by decide) ?_))
      refine List.forall_mem_singleton.2 (.folder (by decide) ?_)
      exact List.forall_mem_singleton.2 (.file _)
    · rw [show FileTree.documents _ [] = [("x/y/a.b.json", [])] by cbv]
      exact List.mem_singleton_self _
  have hcommon : (parse "../shared").slashes = 0 := by cbv
  obtain ⟨stem, hp, hstub, -, -, himport⟩ := stub_imports hdocument
  obtain rfl : "x/y/a.b" = stem := (String.append_left_inj ".json").1 hp
  have hplace := (himport "../shared" hcommon).2 ["root", "out"]
  rw [show (parse "x/y/a.b.json").parent.names = ["x", "y"] by cbv] at hplace
  refine ⟨hdocument, hcommon, hstub, by cbv, hplace.trans ?_⟩
  cbv

end JsonShapes.Path
