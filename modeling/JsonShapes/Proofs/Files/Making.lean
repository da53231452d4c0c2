import JsonShapes.Proofs.Files.Walking
import Mathlib.Data.Nat.Basic

/-!
# When folders are made and files written

A path that leads straight to its place (`Path.Leads`) is refused only for what is there. Folders
are made along it unless a file is on the way (`makeFolders_of_leads`). A file is written at the end
of any path exactly if all steps before the last lead to folders and the last does not
(`exists_write_eq_ok_iff`). Both leave the folders that there were. So where nothing hinders several
files (`FileTree.Free`), making the folder of one and writing it does not come in the way of the
others (`Free.makeFolders`, `Free.write`).

## Two kinds of hindrance

A path may be at fault by itself: it has a NUL in it, or it is too long, or one of its names is.
What has none of these is admissible (`Path.Admissible`). Or it meets something on its way, a file
where a folder should be, or the other way round. The results here keep the two apart: of an
admissible path they say exactly what it must meet, and the lemmas about parents
(`requirePossible_parent`, `Leads.parent`) say that the folder of a file is admissible if the file
is. So for a file to be written with its folder, only the path of the file has to be looked at.

Steps upwards are why a walk and a location are not the same: a path may lead through folders that
are not on the way to its end. A path that is straight has no such steps.
-/

namespace JsonShapes

/-- The octets of a text are as many as its size in UTF-8. -/
theorem Utf8.length_encode (text : String) : (encode text).length = text.utf8ByteSize := by
  have hloop : ∀ rest i (done : List UInt8), i + rest = text.toUTF8.size →
      (ByteArray.toList.loop text.toUTF8 i done).length = rest + done.length := by
    intro rest
    induction rest with
    | zero =>
      intro i done hi
      rw [ByteArray.toList.loop, if_neg (by omega), List.length_reverse, Nat.zero_add]
    | succ rest ih =>
      intro i done hi
      rw [ByteArray.toList.loop, if_pos (by omega), ih _ _ (by omega), List.length_cons]
      omega
  exact hloop _ 0 [] (Nat.zero_add _)

/-! ### Straight paths -/

namespace Path

variable {base : Location} {path : Path}

/-- A path with nothing in it that is refused whatever there is. -/
structure Admissible (base : Location) (path : Path) : Prop where
  possible : FileTree.requirePossible path = .ok ()
  short : ∀ name ∈ path.route base, (Utf8.encode name).length ≤ FileTree.maxNameOctets

/-- Such a path that leads straight to a place, without a step back. -/
structure Leads (base : Location) (path : Path) : Prop extends Admissible base path where
  straight : ".." ∉ path.route base

/-- To lead to a place from the root is a matter of the names only. -/
theorem leads_absolute {names : List String}
    (hpossible : FileTree.requirePossible (.absolute names) = .ok ())
    (hshort : ∀ name ∈ names, name.utf8ByteSize ≤ FileTree.maxNameOctets)
    (hstraight : ".." ∉ names) : (Path.absolute names).Leads base where
  possible := hpossible
  short name hname := Utf8.length_encode name ▸ hshort name hname
  straight := hstraight

/-- The route of the folder that a path leads into is the route of the path without its last name.
-/
theorem route_parent (h : path.names ≠ []) (base : Location) :
    path.parent.route base = (path.route base).dropLast := by
  rw [route, route]
  show (if path.slashes = 0 then _ else _) = _
  split
  · rw [List.dropLast_append_of_ne_nil h]
    rfl
  · rfl

/-- A path with a name in it leads somewhere below where it starts from. -/
theorem route_ne_nil (h : path.names ≠ []) (base : Location) : path.route base ≠ [] := by
  rw [route]
  split
  · exact List.append_ne_nil_of_right_ne_nil _ h
  · exact h

/-- Leaving the last name off makes the text of names no longer. -/
theorem utf8ByteSize_intercalate_dropLast_le (separator : String) (names : List String) :
    (separator.intercalate names.dropLast).utf8ByteSize ≤
      (separator.intercalate names).utf8ByteSize := by
  induction names with
  | nil => exact Nat.le_refl _
  | cons first rest ih =>
    cases rest with
    | nil => exact Nat.zero_le _
    | cons second rest =>
      rw [List.dropLast_cons_cons, String.intercalate_cons_cons, String.utf8ByteSize_append,
        String.utf8ByteSize_append]
      cases hdrop : (second :: rest).dropLast with
      | nil =>
        rw [String.intercalate_singleton]
        omega
      | cons name names =>
        rw [hdrop] at ih
        rw [String.intercalate_cons_cons, String.utf8ByteSize_append, String.utf8ByteSize_append]
        omega

/-- The text of a path is not longer than that of what lies in it, unless it is the point for the
folder from which paths start. -/
theorem utf8ByteSize_text_parent_le (path : Path) :
    path.parent.text.utf8ByteSize ≤ max 1 path.text.utf8ByteSize := by
  obtain ⟨slashes, names⟩ := path
  rw [parent, text]
  split
  · exact Nat.le_max_left _ _
  · next hpoint =>
    have hpath : ¬(slashes = 0 ∧ names = []) := by
      rintro ⟨hslashes, rfl⟩
      exact hpoint ⟨hslashes, rfl⟩
    rw [text, if_neg hpath, String.utf8ByteSize_append, String.utf8ByteSize_append]
    have hnames := utf8ByteSize_intercalate_dropLast_le "/" names
    exact Nat.le_trans (Nat.add_le_add_left hnames _) (Nat.le_max_right _ _)

/-- What is possible for a path is possible for the folder that it leads into, so a run that may
write a file may make its folder as far as lengths and characters go. -/
theorem requirePossible_parent (h : FileTree.requirePossible path = .ok ()) :
    FileTree.requirePossible path.parent = .ok () := by
  rw [FileTree.requirePossible] at h ⊢
  split at h
  · exact nomatch h
  · next hnul =>
    split at h
    · exact nomatch h
    · next hlong =>
      have hparent : ¬(path.parent.names.any (·.contains '\x00')) = true := by
        intro hany
        obtain ⟨name, hname, hcontains⟩ := List.any_eq_true.1 hany
        exact hnul (List.any_eq_true.2 ⟨name, List.dropLast_subset _ hname, hcontains⟩)
      have hlength := utf8ByteSize_text_parent_le path
      rw [Utf8.length_encode, FileTree.maxPathOctets] at hlong
      rw [if_neg hparent, Utf8.length_encode, FileTree.maxPathOctets, if_neg (by omega)]
      rfl

/-- Along a path that leads straight to its place one gets straight to its folder. -/
theorem Leads.parent (h : path.Leads base) (hne : path.names ≠ []) : path.parent.Leads base := by
  have hsubset : path.parent.route base ⊆ path.route base :=
    route_parent hne base ▸ List.dropLast_subset _
  exact ⟨⟨requirePossible_parent h.possible, fun name hname ↦ h.short name (hsubset hname)⟩,
    fun hdots ↦ h.straight (hsubset hdots)⟩

end Path

namespace FileTree

variable {tree tree' : FileTree} {base done place q : Location} {names : List String}
  {path : Path} {content : List UInt8}

/-! ### Making folders -/

/-- Along names without double points each folder is made in turn. The induction goes over the
names, and what has been walked already is a folder at each step. -/
theorem makeEach_of_straight (hdone : tree.HasFolder done) (hstraight : ".." ∉ names)
    (hshort : ∀ name ∈ names, (Utf8.encode name).length ≤ maxNameOctets)
    (hway : ∀ p, p <+: done ++ names → tree.file? p = none) :
    (tree.makeEach done names).2 = .ok () ∧
      ∀ q, (tree.makeEach done names).1.HasFolder q ↔ tree.HasFolder q ∨ q <+: done ++ names := by
  induction names generalizing tree done with
  | nil =>
    refine ⟨rfl, fun q ↦ (or_iff_left_of_imp fun hq ↦ ?_).symm⟩
    exact hdone.of_prefix (List.append_nil done ▸ hq)
  | cons name rest ih =>
    obtain ⟨hname, hrest⟩ := List.forall_mem_cons.1 hshort
    obtain ⟨hup, hstraight⟩ := not_or.1 (List.mem_cons.not.1 hstraight)
    have hlast : done ++ [name] <+: done ++ name :: rest :=
      (List.prefix_append_right_inj done).2 (List.prefix_append [name] rest)
    have happend : done ++ name :: rest = done ++ [name] ++ rest := List.append_cons done name rest
    rw [makeEach, if_neg (Ne.symm hup), if_neg (Nat.not_lt.2 hname)]
    rw [happend] at hway hlast ⊢
    cases hnode : tree.node? (done ++ [name]) with
    | some node =>
      cases node with
      | folder entries => exact ih ⟨entries, hnode⟩ hstraight hrest hway
      | file content =>
        cases (file?_eq_some_iff.2 hnode).symm.trans (hway _ hlast)
    | none =>
      have hfolders : ∀ p, p <+: done ++ [name] → p ≠ done ++ [name] → tree.HasFolder p :=
        fun p hp hne ↦ hdone.of_prefix_concat hp hne
      have hfiles := file?_put_empty (fun p hp hne ↦ (hfolders p hp hne).file?_eq_none) hnode
      -- an empty folder is put where nothing was, so files and other folders are as before
      have hput := fun q ↦ hasFolder_put_empty (q := q) hfolders hnode
      obtain ⟨hok, hmade⟩ := ih ((hput _).2 (.inr rfl)) hstraight hrest fun p hp ↦
        (hfiles p).trans (hway p hp)
      refine ⟨hok, fun q ↦ (hmade q).trans ?_⟩
      rw [hput, or_assoc]
      refine or_congr_right (or_iff_right_of_imp ?_)
      rintro rfl
      exact hlast

/-- Folders are made along a path that leads straight to its place if no file is on the way, and
they are all that is new. -/
theorem makeFolders_of_leads (hroot : tree.HasFolder []) (h : path.Leads base)
    (hway : ∀ p, p <+: path.route base → tree.file? p = none) :
    (tree.makeFolders base path).2 = .ok () ∧
      ∀ q, (tree.makeFolders base path).1.HasFolder q ↔
        tree.HasFolder q ∨ q <+: path.route base := by
  rw [makeFolders, h.possible]
  exact makeEach_of_straight hroot h.straight h.short hway

/-! ### Writing -/

theorem length_encode_dots : (Utf8.encode "..").length ≤ maxNameOctets := by
  rw [Utf8.length_encode]
  decide

/-- A walk ends well if its names are short and all its steps before the last lead to folders. -/
theorem exists_walk_eq_ok_iff {name : String} (hdone : tree.HasFolder (Path.straighten done))
    (hname : name ≠ "..") :
    (∃ ending, tree.walk (Path.straighten done) (names ++ [name]) = .ok ending) ↔
      (∀ n ∈ names ++ [name], (Utf8.encode n).length ≤ maxNameOctets) ∧
        ∀ q, q <+: names → tree.HasFolder (Path.straighten (done ++ q)) := by
  induction names generalizing done with
  | nil =>
    have hfolders : ∀ q, q <+: [] → tree.HasFolder (Path.straighten (done ++ q)) := by
      intro q hq
      rwa [List.prefix_nil.1 hq, List.append_nil]
    rw [and_iff_left hfolders, List.nil_append, List.forall_mem_singleton, walk, if_neg hname]
    by_cases hlong : maxNameOctets < (Utf8.encode name).length
    · rw [if_pos hlong]
      exact iff_of_false (by rintro ⟨_, ⟨⟩⟩) (Nat.not_le.2 hlong)
    · rw [if_neg hlong]
      refine iff_of_true ?_ (Nat.not_lt.1 hlong)
      cases tree.node? (Path.straighten done ++ [name]) with
      | none => exact ⟨_, rfl⟩
      | some node => cases node <;> exact ⟨_, rfl⟩
  | cons first rest ih =>
    have hstep := Path.straighten_concat done first
    -- the folder where the walk starts is there, so it need not be asked for
    have hprefixes : (∀ q, q <+: first :: rest → tree.HasFolder (Path.straighten (done ++ q))) ↔
        ∀ q, q <+: rest → tree.HasFolder (Path.straighten (done ++ [first] ++ q)) := by
      refine ⟨fun h q hq ↦ ?_, fun h q hq ↦ ?_⟩
      · rw [← List.append_cons]
        exact h _ (List.cons_prefix_cons.2 ⟨rfl, hq⟩)
      · rcases List.prefix_cons_iff.1 hq with rfl | ⟨more, rfl, hmore⟩
        · rwa [List.append_nil]
        · rw [List.append_cons]
          exact h more hmore
    have hrest : rest ++ [name] ≠ [] := by simp
    rw [List.cons_append, List.forall_mem_cons, hprefixes, walk]
    by_cases hup : first = ".."
    · rw [if_pos hup] at hstep ⊢
      -- upwards: from the folder above, which is there as well
      rw [← hstep, ih (hdone.of_prefix (hstep ▸ List.dropLast_prefix _)), hup,
        and_iff_right length_encode_dots]
    rw [if_neg hup] at hstep ⊢
    rw [← hstep]
    by_cases hlong : maxNameOctets < (Utf8.encode first).length
    · rw [if_pos hlong]
      exact iff_of_false (by rintro ⟨_, ⟨⟩⟩) fun h ↦ Nat.not_le.2 hlong h.1.1
    rw [if_neg hlong, and_iff_right (Nat.not_lt.1 hlong)]
    have hfirst : (∀ q, q <+: rest → tree.HasFolder (Path.straighten (done ++ [first] ++ q))) →
        tree.HasFolder (Path.straighten (done ++ [first])) := fun h ↦ by
      simpa using h [] List.nil_prefix
    cases hnode : tree.node? (Path.straighten (done ++ [first])) with
    | none =>
      simp only [if_neg hrest]
      refine iff_of_false (by rintro ⟨_, ⟨⟩⟩) fun h ↦ ?_
      obtain ⟨_, hentries⟩ := hfirst h.2
      cases hnode.symm.trans hentries
    | some node =>
      cases node with
      | folder entries =>
        simp only
        exact ih ⟨entries, hnode⟩
      | file content =>
        simp only [if_neg hrest]
        refine iff_of_false (by rintro ⟨_, ⟨⟩⟩) fun h ↦ ?_
        obtain ⟨_, hentries⟩ := hfirst h.2
        cases hnode.symm.trans hentries

/-- Following a path is a walk from the root along its route, after a look at the path itself. -/
theorem follow_eq_ok_iff {ending : Ending} : tree.follow base path = .ok ending ↔
    requirePossible path = .ok () ∧ tree.walk [] (path.route base) = .ok ending := by
  rw [follow]
  cases requirePossible path with
  | ok _ => exact (and_iff_right rfl).symm
  | error fault => exact iff_of_false (by rintro ⟨⟩) (by rintro ⟨⟨⟩, -⟩)

/-- A file is written exactly if the path is admissible, all steps before the last lead to folders,
and no folder has the place of the file. -/
theorem exists_write_eq_ok_iff {name : String} (hroot : tree.HasFolder [])
    (hroute : path.route base = names ++ [name]) (hname : name ≠ "..") (content : List UInt8) :
    (∃ tree', tree.write base path content = .ok tree') ↔ path.Admissible base ∧
      (∀ q, q <+: names → tree.HasFolder (Path.straighten q)) ∧
        ¬tree.HasFolder (Path.straighten (path.route base)) := by
  -- where a path leads is found by walking from the root, of which nothing is done yet
  have hwalk : (∃ ending, tree.walk [] (path.route base) = .ok ending) ↔
      (∀ n ∈ path.route base, (Utf8.encode n).length ≤ maxNameOctets) ∧
        ∀ q, q <+: names → tree.HasFolder (Path.straighten q) := by
    rw [hroute]
    exact exists_walk_eq_ok_iff (show tree.HasFolder (Path.straighten []) from hroot) hname
  constructor
  · rintro ⟨tree', hwrite⟩
    obtain ⟨-, hplace, -⟩ := write_eq_ok hroot hwrite
    rw [write] at hwrite
    cases hfollow : tree.follow base path with
    | error fault =>
      rw [hfollow] at hwrite
      cases hwrite
    | ok ending =>
      obtain ⟨hpossible, hending⟩ := follow_eq_ok_iff.1 hfollow
      obtain ⟨hshort, hfolders⟩ := hwalk.1 ⟨ending, hending⟩
      exact ⟨⟨hpossible, hshort⟩, hfolders, hplace⟩
  · rintro ⟨⟨hpossible, hshort⟩, hfolders, hplace⟩
    obtain ⟨ending, hending⟩ := hwalk.2 ⟨hshort, hfolders⟩
    have hfollow := follow_eq_ok_iff.2 ⟨hpossible, hending⟩
    have hends := follow_eq_ok hroot hfollow
    rw [write, hfollow]
    cases hends with
    | @found node hnode =>
      cases node with
      | folder entries => exact absurd ⟨entries, hnode⟩ hplace
      | file old => exact ⟨_, rfl⟩
    | vacant => exact ⟨_, rfl⟩

theorem hasFolder_write (hroot : tree.HasFolder []) (h : tree.write base path content = .ok tree')
    (q : Location) : tree'.HasFolder q ↔ tree.HasFolder q := by
  obtain ⟨rfl, hplace, hway⟩ := write_eq_ok hroot h
  exact hasFolder_put_file hway hplace

/-! ### Several files -/

/-- Nothing hinders writing files at the ends of these paths: none of them is taken by a folder, no
file is on the way, and none of them is on the way to another. -/
structure Free (tree : FileTree) (base : Location) (paths : List Path) : Prop where
  /-- The paths lead somewhere. -/
  leads : ∀ path ∈ paths, path.Leads base
  /-- None of them leads to the root. -/
  names_ne_nil : ∀ path ∈ paths, path.names ≠ []
  /-- No folder is where a file is to be. -/
  no_folder : ∀ path ∈ paths, ¬tree.HasFolder (path.route base)
  /-- No file is where a folder is to be. -/
  no_file : ∀ path ∈ paths, ∀ p, p <+: path.route base → p ≠ path.route base → tree.file? p = none
  /-- None of the files is to be where another needs a folder. -/
  apart : ∀ path ∈ paths, ∀ other ∈ paths, path.route base <+: other.route base →
    path.route base = other.route base

namespace Free

variable {paths : List Path}

/-- The folder of one of the files can be made, and the files stay free. -/
theorem makeFolders (h : tree.Free base paths) (hsystem : tree.IsSystem) (hpath : path ∈ paths) :
    (tree.makeFolders base path.parent).2 = .ok () ∧
      (tree.makeFolders base path.parent).1.Free base paths ∧
      ∀ q, (tree.makeFolders base path.parent).1.HasFolder q ↔
        tree.HasFolder q ∨ q <+: (path.route base).dropLast := by
  have hne := h.names_ne_nil path hpath
  have hparent := Path.route_parent hne base
  have hlast : ∀ {p}, p <+: (path.route base).dropLast → p ≠ path.route base := by
    rintro p hp rfl
    have hlength := hp.length_le
    rw [List.length_dropLast] at hlength
    have hpos := List.length_pos_iff.2 (Path.route_ne_nil hne base)
    omega
  have hkeeps := (makeFolders_keeps hsystem base path.parent).2
  obtain ⟨hok, hmade⟩ := makeFolders_of_leads hsystem.root ((h.leads path hpath).parent hne)
    fun p hp ↦ h.no_file path hpath p ((hparent ▸ hp).trans (List.dropLast_prefix _))
      (hlast (hparent ▸ hp))
  rw [hparent] at hmade
  refine ⟨hok, ⟨h.leads, h.names_ne_nil, fun other hother hfolder ↦ ?_, fun other hother p hp hne' ↦
    (hkeeps p).trans (h.no_file other hother p hp hne'), h.apart⟩, hmade⟩
  rcases (hmade _).1 hfolder with hfolder | hinitial
  · exact h.no_folder other hother hfolder
  · exact hlast hinitial (h.apart other hother path hpath
      (hinitial.trans (List.dropLast_prefix _)))

/-- One of the files can be written when its folder is there, and the files stay free. -/
theorem write (h : tree.Free base paths) (hsystem : tree.IsSystem) (hpath : path ∈ paths)
    (hfolder : tree.HasFolder (path.route base).dropLast) (content : List UInt8) :
    ∃ tree', tree.write base path content = .ok tree' ∧ tree'.Free base paths ∧
      ∀ q, tree'.HasFolder q ↔ tree.HasFolder q := by
  have hleads := h.leads path hpath
  -- the path goes through folders to a last name
  obtain ⟨names, name, hroute⟩ := (List.eq_nil_or_concat' _).resolve_left
    (Path.route_ne_nil (h.names_ne_nil path hpath) base)
  have hstraight : ".." ∉ names ++ [name] := hroute ▸ hleads.straight
  have hname : name ≠ ".." := fun heq ↦ hstraight (heq ▸ by simp)
  obtain ⟨tree', hwrite⟩ : ∃ tree', tree.write base path content = .ok tree' := by
    refine (exists_write_eq_ok_iff hsystem.root hroute hname content).2
      ⟨hleads.toAdmissible, fun q hq ↦ ?_, ?_⟩
    · rw [Path.straighten_eq_self fun hdots ↦
        hstraight (List.mem_append_left _ (hq.subset hdots))]
      rw [hroute, List.dropLast_concat] at hfolder
      exact hfolder.of_prefix hq
    · rw [Path.straighten_eq_self hleads.straight]
      exact h.no_folder path hpath
  refine ⟨tree', hwrite, ⟨h.leads, h.names_ne_nil, fun other hother ↦ ?_,
    fun other hother p hp hne ↦ ?_, h.apart⟩, hasFolder_write hsystem.root hwrite⟩
  · rw [hasFolder_write hsystem.root hwrite]
    exact h.no_folder other hother
  · rw [file?_write hsystem.root hwrite, Path.straighten_eq_self hleads.straight, if_neg]
    · exact h.no_file other hother p hp hne
    · rintro rfl
      exact hne (h.apart path hpath other hother hp)

end Free

/-- There is nothing at or above a location but folders, and nothing below it. -/
structure Fresh (tree : FileTree) (place : Location) : Prop where
  no_file : ∀ p, p <+: place → tree.file? p = none
  nothing_below : ∀ names ≠ [], tree.node? (place ++ names) = none

/-- A name that is not in the root folder is a fresh location. -/
theorem fresh_of_lookup {entries : List (String × FileTree)} {name : String}
    (h : entries.lookup name = none) : (folder entries).Fresh [name] := by
  have hnothing : ∀ names, (folder entries).node? (name :: names) = none := by
    intro names
    show (entries.lookup name).bind _ = none
    rw [h]
    rfl
  refine ⟨fun p hp ↦ ?_, fun names _ ↦ hnothing names⟩
  rcases List.prefix_concat_iff.1 (show p <+: [] ++ [name] from hp) with rfl | hp
  · rw [file?, List.nil_append, hnothing]
  · rw [List.prefix_nil.1 hp]
    rfl

/-- No file lies below a fresh location. -/
theorem Fresh.filesBelow_eq_nil (h : tree.Fresh place) (hkeyed : tree.Keyed) :
    tree.filesBelow place = [] := by
  refine List.eq_nil_iff_forall_not_mem.2 fun file hfile ↦ ?_
  obtain ⟨hne, hcontent⟩ := hkeyed.mem_filesBelow_iff.1 hfile
  exact nomatch (file?_eq_some_iff.1 hcontent).symm.trans (h.nothing_below file.1 hne)

/-- Files below a fresh location are free if they are not in each other's way. -/
theorem Fresh.free {output : Location} (h : tree.Fresh output) {files : List (List String)}
    (hne : ∀ names ∈ files, names ≠ [])
    (hleads : ∀ names ∈ files, (Path.absolute (output ++ names)).Leads base)
    (hapart : ∀ names ∈ files, ∀ other ∈ files, names <+: other → names = other) :
    tree.Free base (files.map fun names ↦ .absolute (output ++ names)) := by
  refine ⟨List.forall_mem_map.2 hleads, List.forall_mem_map.2 fun names hnames ↦ ?_,
    List.forall_mem_map.2 fun names hnames ⟨_, hfolder⟩ ↦ ?_,
    List.forall_mem_map.2 fun names hnames p hp _ ↦ ?_,
    List.forall_mem_map.2 fun names hnames ↦ List.forall_mem_map.2 fun other hother hinitial ↦ ?_⟩
  · exact List.append_ne_nil_of_right_ne_nil _ (hne names hnames)
  · exact nomatch hfolder.symm.trans (h.nothing_below names (hne names hnames))
  · rcases List.prefix_or_prefix_of_prefix hp (List.prefix_append output names) with
      hp | ⟨more, rfl⟩
    · exact h.no_file p hp
    · by_cases hmore : more = []
      · rw [hmore, List.append_nil]
        exact h.no_file output (List.prefix_refl _)
      · rw [file?, h.nothing_below more hmore]
  · exact congrArg (output ++ ·) (hapart names hnames other hother
      ((List.prefix_append_right_inj output).1 hinitial))

end FileTree

end JsonShapes
