import JsonShapes.Proofs.Files.Path
import JsonShapes.Proofs.Files.Tree

/-!
# Documents below a folder

If the names in a tree are names that folders can give, the visible documents below a folder are
told apart by the texts of their paths (`Named.nodup_documents`), and each is a stem with the suffix
of documents (`Named.exists_of_mem_documents`), whose stub has the same stem (`Named.exists_stub`).

The path of a document is a text, and a run knows its documents by these texts alone. That this is
enough is what has to be shown: names have no slash in them (`FileTree.Named`), so a path is told by
its text, and the suffix can be taken off the last name and another put in its place.
-/

namespace JsonShapes

namespace FileTree

/-- The name of a visible document is more than its suffix. -/
theorem exists_of_isVisibleDocument {names : List String} (h : isVisibleDocument names = true) :
    ∃ folders stem, stem ≠ "" ∧ names = folders ++ [stem ++ ".json"] := by
  rw [isVisibleDocument, Bool.and_eq_true] at h
  obtain ⟨hlast, hall⟩ := h
  rw [String.endsWith_eq_endsWith_toSlice, String.Slice.endsWith_string_iff] at hlast
  obtain ⟨stem, hstem⟩ := hlast
  have hne : names ≠ [] := by
    rintro rfl
    simp at hstem
  obtain ⟨folders, last, rfl⟩ := (List.eq_nil_or_concat' names).resolve_left hne
  rw [List.getLastD_concat, String.copy_toSlice] at hstem
  have hlast : last = String.ofList stem ++ ".json" := by
    rw [← String.toList_inj, ← hstem, String.toList_append]
    exact congrArg (· ++ _) String.toList_ofList.symm
  refine ⟨folders, String.ofList stem, ?_, by rw [← hlast]⟩
  -- a name that is only the suffix begins with a point
  intro hempty
  have hvisible := List.all_eq_true.1 hall last (by simp)
  have hhidden : last.startsWith "." = true := by
    rw [String.startsWith_string_iff, hlast, hempty]
    exact ⟨"json".toList, rfl⟩
  rw [hhidden] at hvisible
  exact nomatch hvisible

variable {tree : FileTree} {place : Location}

/-- Files have names that can be joined by slashes and told apart again. -/
def Named (tree : FileTree) : Prop :=
  ∀ place content, tree.file? place = some content → ∀ name ∈ place, IsName name

/-- In a file there are no names. -/
theorem named_file (content : List UInt8) : (file content).Named := by
  intro place octets h
  cases place with
  | nil => exact List.forall_mem_nil _
  | cons => exact nomatch h

/-- A folder is named if its own names are and all that lies in it is. -/
theorem named_folder {entries : List (String × FileTree)}
    (h : ∀ entry ∈ entries, IsName entry.1 ∧ entry.2.Named) : (folder entries).Named := by
  intro place content hfile
  cases place with
  | nil => exact List.forall_mem_nil _
  | cons name rest =>
    rw [file?_cons] at hfile
    cases hlookup : entries.lookup name with
    | none =>
      rw [show (folder entries).entries = entries from rfl, hlookup] at hfile
      cases rest <;> exact nomatch hfile
    | some inner =>
      rw [show (folder entries).entries = entries from rfl, hlookup] at hfile
      obtain ⟨hname, hinner⟩ := h _ (Entries.mem_of_lookup_eq_some hlookup)
      exact List.forall_mem_cons.2 ⟨hname, hinner rest content hfile⟩

/-- The visible documents below a folder. -/
def visible (tree : FileTree) (place : Location) : List (Location × List UInt8) :=
  (tree.filesBelow place).filter fun file ↦ isVisibleDocument file.1

/-- The documents are the visible files under the texts of their paths. Sorting them by these texts
changes no more than their order. -/
theorem documents_perm (tree : FileTree) (place : Location) :
    (tree.documents place).Perm
      ((tree.visible place).map fun file ↦ ("/".intercalate file.1, file.2)) :=
  List.mergeSort_perm _ _

theorem Named.isName_of_mem_visible (h : tree.Named) (hkeyed : tree.Keyed)
    {file : Location × List UInt8} (hfile : file ∈ tree.visible place) :
    ∀ name ∈ file.1, IsName name := by
  obtain ⟨-, hfile⟩ := hkeyed.mem_filesBelow_iff.1 (List.mem_filter.1 hfile).1
  exact fun name hname ↦ h _ _ hfile name (List.mem_append_right _ hname)

/-- No two documents have one name. -/
theorem Named.nodup_documents (h : tree.Named) (hkeyed : tree.Keyed) (place : Location) :
    ((tree.documents place).map (·.1)).Nodup := by
  have hvisible : ((tree.visible place).map (·.1)).Nodup :=
    (hkeyed.nodup_filesBelow place).sublist (List.filter_sublist.map _)
  rw [((documents_perm tree place).map (·.1)).nodup_iff, List.map_map]
  refine List.Nodup.map_on (fun a ha b hb heq ↦ ?_) hvisible.of_map
  have hnames := Path.intercalate_inj (h.isName_of_mem_visible hkeyed ha)
    (h.isName_of_mem_visible hkeyed hb) heq
  exact List.inj_on_of_nodup_map hvisible ha hb hnames

/-- A document is a file below the folder, at a path whose last name is a stem with the suffix of
documents. -/
theorem Named.exists_of_mem_documents (h : tree.Named) (hkeyed : tree.Keyed)
    {document : String × List UInt8} (hdocument : document ∈ tree.documents place) :
    ∃ folders stem, stem ≠ "" ∧ (∀ name ∈ folders, IsName name) ∧ IsName (stem ++ ".json") ∧
      document.1 = "/".intercalate (folders ++ [stem ++ ".json"]) ∧
      tree.file? (place ++ (folders ++ [stem ++ ".json"])) = some document.2 := by
  obtain ⟨file, hfile, rfl⟩ := List.mem_map.1 ((documents_perm tree place).mem_iff.1 hdocument)
  obtain ⟨hmem, hvisible⟩ := List.mem_filter.1 hfile
  obtain ⟨folders, stem, hstem, hnames⟩ := exists_of_isVisibleDocument hvisible
  have hall := h.isName_of_mem_visible hkeyed hfile
  have hcontent := (hkeyed.mem_filesBelow_iff.1 hmem).2
  rw [hnames, List.forall_mem_append] at hall
  rw [hnames] at hcontent
  exact ⟨folders, stem, hstem, hall.1, hall.2 _ (List.mem_singleton_self _), by rw [hnames],
    hcontent⟩

/-- Documents have stubs, which lie beside them. -/
theorem Named.exists_stub (h : tree.Named) (hkeyed : tree.Keyed) {document : String × List UInt8}
    (hdocument : document ∈ tree.documents place) : ∃ folders stem,
      document.1 = "/".intercalate (folders ++ [stem ++ ".json"]) ∧
      Path.stub? document.1 = some ("/".intercalate (folders ++ [stem ++ ".d.ts"])) ∧
      (∀ name ∈ folders ++ [stem ++ ".d.ts"], IsName name) ∧ tree.HasFolder (place ++ folders) := by
  obtain ⟨folders, stem, hstem, hfolders, hname, hsource, hcontent⟩ :=
    h.exists_of_mem_documents hkeyed hdocument
  refine ⟨folders, stem, hsource, ?_,
    List.forall_mem_append.2 ⟨hfolders, List.forall_mem_singleton.2 hname.stub⟩, ?_⟩
  · rw [hsource, Path.stub?_intercalate hstem
      (List.forall_mem_append.2 ⟨hfolders, List.forall_mem_singleton.2 hname⟩)]
  · rw [← List.append_assoc] at hcontent
    exact hasFolder_of_node?_append (file?_eq_some_iff.1 hcontent) (List.cons_ne_nil _ _)

end FileTree

end JsonShapes
