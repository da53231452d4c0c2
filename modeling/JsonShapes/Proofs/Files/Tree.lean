import JsonShapes.Files.Tree
import JsonShapes.Proofs.Entries
import Mathlib.Data.List.Lattice
import Mathlib.Data.List.Pairwise

/-!
# What is where in a tree of files

A tree is known by the file that it has at each location, if it has one there (`FileTree.file?`).
Putting a node somewhere changes what is found at and below its location and nothing else, as long
as no file lies on the way (`file?_put_elsewhere`). If the folders of a tree have each name once
(`FileTree.Keyed`), the list of its files says the same as looking them up (`Keyed.mem_files_iff`).

Trees are compared by what is found in them, never by how they are built: the entries of a folder
come in the order in which they were made, and that order is not part of any statement. The lemmas
come in two kinds, about the files that are found (`file?`) and about the folders that there are
(`HasFolder`), as a run asks for both and neither tells the other: a folder may be empty.

## Conditions on the way

Putting a node at a place makes the folders on the way to it. It would replace a file that is there
by a folder, so the lemmas ask that no file is on the way; a run never puts anything where this is
not known from walking. For the folders that there are, the condition is that those on the way are
folders already, as otherwise putting would make new ones.
-/

namespace JsonShapes.FileTree

variable {tree node : FileTree} {place p q : Location} {content : List UInt8}

/-! ### Looking up -/

/-- What the file at a location holds, if there is one. -/
def file? (tree : FileTree) (place : Location) : Option (List UInt8) :=
  match tree.node? place with
  | some (.file content) => some content
  | _ => none

/-- There is a folder at a location. -/
def HasFolder (tree : FileTree) (place : Location) : Prop :=
  ∃ entries, tree.node? place = some (.folder entries)

/-- A file with some content is found exactly where the node is that file. -/
theorem file?_eq_some_iff : tree.file? place = some content ↔
    tree.node? place = some (.file content) := by
  rw [file?]
  split
  · next h => rw [h, Option.some.injEq, Option.some.injEq, file.injEq]
  · next h => exact iff_of_false nofun fun hfile ↦ h content hfile

/-- What lies behind a name is looked up in what has that name; a file, or a name that is not there,
has nothing in it. -/
theorem file?_cons (tree : FileTree) (name : String) (rest : Location) :
    tree.file? (name :: rest) = ((tree.entries.lookup name).getD empty).file? rest := by
  rw [file?, node?]
  cases tree.entries.lookup name with
  | none => cases rest <;> rfl
  | some inner => rfl

/-- A location is looked up part by part. -/
theorem node?_append (tree : FileTree) (p q : Location) :
    tree.node? (p ++ q) = (tree.node? p).bind fun inner ↦ inner.node? q := by
  induction p generalizing tree with
  | nil => rfl
  | cons name p ih =>
    rw [List.cons_append, node?, node?]
    cases tree.entries.lookup name with
    | none => rfl
    | some inner => exact ih inner

theorem file?_append (tree : FileTree) (p q : Location) :
    tree.file? (p ++ q) = (tree.node? p).bind fun inner ↦ inner.file? q := by
  rw [file?, node?_append]
  cases tree.node? p <;> rfl

theorem HasFolder.file?_eq_none (h : tree.HasFolder place) : tree.file? place = none := by
  obtain ⟨entries, hentries⟩ := h
  rw [file?, hentries]

/-- What something lies below is a folder. -/
theorem hasFolder_of_node?_append (h : tree.node? (p ++ q) = some node) (hq : q ≠ []) :
    tree.HasFolder p := by
  rw [node?_append] at h
  obtain ⟨inner, hinner, hnode⟩ := Option.bind_eq_some_iff.1 h
  cases inner with
  | folder entries => exact ⟨entries, hinner⟩
  | file content =>
    obtain ⟨name, rest, rfl⟩ := List.exists_cons_of_ne_nil hq
    exact nomatch hnode

/-- Folders lie in folders only. -/
theorem HasFolder.of_prefix (h : tree.HasFolder place) (hp : p <+: place) : tree.HasFolder p := by
  obtain ⟨entries, hentries⟩ := h
  obtain ⟨rest, rfl⟩ := hp
  by_cases hrest : rest = []
  · subst hrest
    exact ⟨entries, List.append_nil p ▸ hentries⟩
  · exact hasFolder_of_node?_append hentries hrest

theorem HasFolder.of_prefix_concat {name : String} (h : tree.HasFolder place)
    (hp : p <+: place ++ [name]) (hne : p ≠ place ++ [name]) : tree.HasFolder p :=
  h.of_prefix ((List.prefix_concat_iff.1 hp).resolve_left hne)

/-! ### Putting -/

/-- At and below its location what was put is found. -/
theorem node?_put_append (tree node : FileTree) (place more : Location) :
    (tree.put node place).node? (place ++ more) = node.node? more := by
  induction place generalizing tree with
  | nil => rfl
  | cons name rest ih =>
    rw [put, List.cons_append, node?]
    show ((Entries.set _ _ _).lookup name).bind _ = _
    rw [Entries.lookup_set, if_pos rfl]
    exact ih _

/-- What does not lie at or below the location of what is put stays as it was. -/
theorem file?_put_elsewhere (hway : ∀ p, p <+: place → p ≠ place → tree.file? p = none)
    (hq : ¬place <+: q) : (tree.put node place).file? q = tree.file? q := by
  induction place generalizing tree q with
  | nil => exact absurd List.nil_prefix hq
  | cons name rest ih =>
    cases q with
    | nil => exact (hway [] List.nil_prefix (List.cons_ne_nil _ _).symm).symm
    | cons other q =>
      rw [put, file?_cons, file?_cons]
      show ((Entries.set _ _ _).lookup other |>.getD empty).file? q = _
      rw [Entries.lookup_set]
      by_cases hother : other = name
      · subst hother
        rw [if_pos rfl, Option.getD_some]
        refine ih (fun p hp hne ↦ ?_) fun hinitial ↦ hq (List.cons_prefix_cons.2 ⟨rfl, hinitial⟩)
        rw [← file?_cons]
        exact hway (other :: p) (List.cons_prefix_cons.2 ⟨rfl, hp⟩) fun heq ↦
          hne (List.cons_inj_right _ |>.1 heq)
      · rw [if_neg hother]

/-- A file that is put where no other node has to give way is all that changes. -/
theorem file?_put_file (hway : ∀ p, p <+: place → p ≠ place → tree.file? p = none)
    (hbelow : ∀ more ≠ [], tree.file? (place ++ more) = none) (content : List UInt8)
    (q : Location) : (tree.put (.file content) place).file? q =
      if q = place then some content else tree.file? q := by
  by_cases hq : place <+: q
  · obtain ⟨more, rfl⟩ := hq
    rw [file?, node?_put_append]
    cases more with
    | nil => rw [if_pos (List.append_nil place)]; rfl
    | cons name rest =>
      rw [if_neg (by simp), hbelow _ (List.cons_ne_nil _ _)]
      rfl
  · rw [file?_put_elsewhere hway hq, if_neg]
    rintro rfl
    exact hq (List.prefix_refl _)

/-- A folder that is put where there was nothing changes no file. -/
theorem file?_put_empty (hway : ∀ p, p <+: place → p ≠ place → tree.file? p = none)
    (hvacant : tree.node? place = none) (q : Location) :
    (tree.put empty place).file? q = tree.file? q := by
  by_cases hq : place <+: q
  · obtain ⟨more, rfl⟩ := hq
    rw [file?, node?_put_append, file?, node?_append, hvacant]
    cases more <;> rfl
  · exact file?_put_elsewhere hway hq

/-- Putting a node where there are folders all the way leaves the folders elsewhere. -/
theorem hasFolder_put_elsewhere (hway : ∀ p, p <+: place → p ≠ place → tree.HasFolder p)
    (hq : ¬place <+: q) : (tree.put node place).HasFolder q ↔ tree.HasFolder q := by
  induction place generalizing tree q with
  | nil => exact absurd List.nil_prefix hq
  | cons name rest ih =>
    have hcons : ∀ (t : FileTree) other q, t.HasFolder (other :: q) ↔
        ∃ inner, t.entries.lookup other = some inner ∧ inner.HasFolder q := by
      intro t other q
      rw [HasFolder, node?]
      cases t.entries.lookup other <;> simp [HasFolder]
    cases q with
    | nil => exact iff_of_true ⟨_, rfl⟩ (hway [] List.nil_prefix (List.cons_ne_nil _ _).symm)
    | cons other q =>
      rw [put, hcons, hcons]
      -- only the entry on the way is set, and it was a folder before
      show (∃ inner, (Entries.set _ _ _).lookup other = some inner ∧ _) ↔ _
      rw [Entries.lookup_set]
      by_cases hother : other = name
      · subst hother
        rw [if_pos rfl]
        have hrest : rest ≠ [] := by
          rintro rfl
          exact hq (List.cons_prefix_cons.2 ⟨rfl, List.nil_prefix⟩)
        obtain ⟨inner, hinner, -⟩ := (hcons tree other []).1
          (hway [other] (List.cons_prefix_cons.2 ⟨rfl, List.nil_prefix⟩)
            (by simpa using hrest.symm))
        rw [hinner]
        simp only [Option.getD_some, Option.some.injEq, exists_eq_left']
        refine ih (fun p hp hne ↦ ?_) fun hinitial ↦ hq (List.cons_prefix_cons.2 ⟨rfl, hinitial⟩)
        obtain ⟨inner', hinner', hfolder⟩ := (hcons tree other p).1
          (hway (other :: p) (List.cons_prefix_cons.2 ⟨rfl, hp⟩) fun heq ↦
            hne (List.cons_inj_right _ |>.1 heq))
        exact Option.some.inj (hinner.symm.trans hinner') ▸ hfolder
      · rw [if_neg hother]

/-- A file that is put where there is no folder leaves the folders as they were. -/
theorem hasFolder_put_file (hway : ∀ p, p <+: place → p ≠ place → tree.HasFolder p)
    (hplace : ¬tree.HasFolder place) :
    (tree.put (.file content) place).HasFolder q ↔ tree.HasFolder q := by
  by_cases hq : place <+: q
  · refine iff_of_false ?_ fun h ↦ hplace (h.of_prefix hq)
    obtain ⟨more, rfl⟩ := hq
    rintro ⟨entries, hentries⟩
    rw [node?_put_append] at hentries
    cases more <;> exact nomatch hentries
  · exact hasFolder_put_elsewhere hway hq

/-- A folder that is put where there was nothing is the only new one. -/
theorem hasFolder_put_empty (hway : ∀ p, p <+: place → p ≠ place → tree.HasFolder p)
    (hvacant : tree.node? place = none) :
    (tree.put empty place).HasFolder q ↔ tree.HasFolder q ∨ q = place := by
  by_cases hq : place <+: q
  · have hnone : ¬tree.HasFolder q := fun h ↦ by
      obtain ⟨entries, hentries⟩ := h.of_prefix hq
      exact nomatch hvacant.symm.trans hentries
    obtain ⟨more, rfl⟩ := hq
    rw [or_iff_right hnone, List.append_right_eq_self, HasFolder, node?_put_append]
    cases more with
    | nil => exact iff_of_true ⟨[], rfl⟩ rfl
    | cons => exact iff_of_false nofun (List.cons_ne_nil _ _)
  · rw [hasFolder_put_elsewhere hway hq, or_iff_left]
    rintro rfl
    exact hq (List.prefix_refl _)

/-! ### Listing -/

/-- The folders of the tree have each name once. -/
inductive Keyed : FileTree → Prop
  | file (content : List UInt8) : Keyed (.file content)
  | folder {entries : List (String × FileTree)} (nodup : (entries.map (·.1)).Nodup)
      (inner : ∀ entry ∈ entries, Keyed entry.2) : Keyed (.folder entries)

theorem keyed_empty : Keyed empty :=
  .folder List.nodup_nil nofun

/-- Putting a node keeps names apart: `Entries.set` replaces the node under a name that is there
already. -/
theorem Keyed.put (h : tree.Keyed) (hnode : node.Keyed) (place : Location) :
    (tree.put node place).Keyed := by
  induction place generalizing tree with
  | nil => exact hnode
  | cons name rest ih =>
    obtain ⟨hnodup, hinner⟩ : (tree.entries.map (·.1)).Nodup ∧
        ∀ entry ∈ tree.entries, entry.2.Keyed := by
      cases h with
      | file => exact ⟨List.nodup_nil, nofun⟩
      | folder hnodup hinner => exact ⟨hnodup, hinner⟩
    have hbelow : ((tree.entries.lookup name).getD empty).Keyed := by
      cases hlookup : tree.entries.lookup name with
      | none => exact keyed_empty
      | some inner => exact hinner _ (Entries.mem_of_lookup_eq_some hlookup)
    refine .folder (Entries.nodup_set _ hnodup) fun entry hentry ↦ ?_
    rcases Entries.mem_of_mem_set hentry with hentry | rfl
    · exact hinner entry hentry
    · exact ih hbelow

/-- The files in a folder are those of its entries, each with the name of the entry in front of its
path. -/
theorem filesOfEntries_eq_flatMap (entries : List (String × FileTree)) :
    filesOfEntries entries = entries.flatMap fun entry ↦
      entry.2.files.map fun file ↦ (entry.1 :: file.1, file.2) := by
  induction entries with
  | nil => rfl
  | cons entry entries ih => rw [filesOfEntries, ih, List.flatMap_cons]

/-- The files that are listed are those that are looked up. -/
theorem Keyed.mem_files_iff (h : tree.Keyed) {file : Location × List UInt8} :
    file ∈ tree.files ↔ tree.file? file.1 = some file.2 := by
  induction h generalizing file with
  | file content =>
    rw [files, List.mem_singleton]
    obtain ⟨names, octets⟩ := file
    cases names with
    | nil => simp [file?, node?, eq_comm]
    | cons name rest => simp [file?, node?, entries]
  | @folder entries hnodup _ ih =>
    obtain ⟨names, octets⟩ := file
    rw [files, filesOfEntries_eq_flatMap, List.mem_flatMap]
    cases names with
    | nil => simp [file?, node?]
    | cons name rest =>
      rw [file?_cons]
      show _ ↔ ((entries.lookup name).getD empty).file? rest = some octets
      constructor
      · rintro ⟨entry, hentry, hfile⟩
        obtain ⟨inner, hinner, heq⟩ := List.mem_map.1 hfile
        obtain ⟨hnames, rfl⟩ := Prod.mk.inj heq
        obtain ⟨rfl, rfl⟩ := List.cons.inj hnames
        rw [(Entries.lookup_eq_some_iff hnodup).2 hentry]
        exact (ih entry hentry).1 hinner
      · intro hfile
        cases hlookup : entries.lookup name with
        | none =>
          rw [hlookup] at hfile
          cases rest <;> exact nomatch hfile
        | some inner =>
          rw [hlookup] at hfile
          have hentry := Entries.mem_of_lookup_eq_some hlookup
          exact ⟨_, hentry, List.mem_map.2 ⟨(rest, octets), (ih _ hentry).2 hfile, rfl⟩⟩

/-- No file is listed twice. -/
theorem Keyed.nodup_files (h : tree.Keyed) : (tree.files.map (·.1)).Nodup := by
  induction h with
  | file => exact List.nodup_singleton _
  | @folder entries hnodup _ ih =>
    rw [files, filesOfEntries_eq_flatMap, List.map_flatMap]
    refine List.nodup_flatMap.2 ⟨fun entry hentry ↦ ?_, ?_⟩
    · rw [List.map_map]
      have hcons := (ih entry hentry).map (List.cons_injective (a := entry.1))
      rwa [List.map_map] at hcons
    · refine (List.pairwise_map.1 hnodup).imp fun {a b} hne names ha hb ↦ ?_
      obtain ⟨file, hfile, rfl⟩ := List.mem_map.1 ha
      obtain ⟨inner, -, rfl⟩ := List.mem_map.1 hfile
      obtain ⟨file, hfile, heq⟩ := List.mem_map.1 hb
      obtain ⟨inner', -, rfl⟩ := List.mem_map.1 hfile
      exact hne (List.cons.inj heq).1.symm

/-- What lies in a keyed tree is keyed. -/
theorem Keyed.of_node? (h : tree.Keyed) (hnode : tree.node? place = some node) : node.Keyed := by
  induction place generalizing tree with
  | nil =>
    cases hnode
    exact h
  | cons name rest ih =>
    obtain ⟨inner, hlookup, hrest⟩ := Option.bind_eq_some_iff.1 hnode
    cases h with
    | file => exact nomatch hlookup
    | folder _ hinner => exact ih (hinner _ (Entries.mem_of_lookup_eq_some hlookup)) hrest

/-- The files below a location, by the names that lead on from it. -/
theorem Keyed.mem_filesBelow_iff (h : tree.Keyed) {file : Location × List UInt8} :
    file ∈ tree.filesBelow place ↔ file.1 ≠ [] ∧ tree.file? (place ++ file.1) = some file.2 := by
  rw [filesBelow, file?_append]
  cases hnode : tree.node? place with
  | none => exact iff_of_false List.not_mem_nil fun hfile ↦ nomatch hfile.2
  | some node =>
    cases node with
    | file content =>
      refine iff_of_false List.not_mem_nil fun ⟨hne, hfile⟩ ↦ ?_
      obtain ⟨name, rest, hcons⟩ := List.exists_cons_of_ne_nil hne
      rw [hcons] at hfile
      exact nomatch hfile
    | folder entries =>
      refine ((h.of_node? hnode).mem_files_iff).trans (iff_and_self.2 fun hfile hnil ↦ ?_)
      rw [hnil] at hfile
      exact nomatch hfile

/-- No file below a location is listed twice. -/
theorem Keyed.nodup_filesBelow (h : tree.Keyed) (place : Location) :
    ((tree.filesBelow place).map (·.1)).Nodup := by
  rw [filesBelow]
  split
  · next hnode => exact (h.of_node? hnode).nodup_files
  · exact List.nodup_nil

/-- Below a folder without files no place has one. -/
theorem Keyed.file?_eq_none_of_filesBelow (h : tree.Keyed) {names : Location}
    (hempty : tree.filesBelow place = []) (hne : names ≠ []) :
    tree.file? (place ++ names) = none := by
  rw [← Option.not_isSome_iff_eq_none, Option.isSome_iff_exists]
  rintro ⟨content, hcontent⟩
  have hmem : (names, content) ∈ tree.filesBelow place :=
    h.mem_filesBelow_iff.2 ⟨hne, hcontent⟩
  exact List.not_mem_nil (hempty ▸ hmem)

end JsonShapes.FileTree
