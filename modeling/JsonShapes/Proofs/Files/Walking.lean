import JsonShapes.Proofs.Files.Tree
import Mathlib.Tactic.Common

/-!
# Where a path leads

Whoever walks along a path passes folders only, so a double point leads back to where the walk came
from, and the walk ends where the straightened route does (`walk_eq_ok`). Hence a file that is
written is found at that place and nothing else has changed (`file?_write`), and making folders
changes no file at all (`makeFolders_keeps`).

## Two ways along a path

A walk goes name by name through what is there. Straightening a route takes the double points out of
it without looking at any tree. In general the two part: a double point behind a name that is not
there, or that is a file, is refused on a walk and makes no trouble in a route. What `walk_eq_ok`
says is that this is the only difference. If the walk is not refused, it ends where the straightened
route does, and what it reports of that place is what the tree has there (`Ends`).

So everything later is about places and never about walks, with the success of a walk as the
hypothesis that is spent on the way.
-/

namespace JsonShapes

namespace Path

/-! ### Straightening -/

/-- A double point takes the last name off, and any other name is put behind. -/
theorem straighten_concat (route : List String) (name : String) :
    straighten (route ++ [name]) =
      if name = ".." then (straighten route).dropLast else straighten route ++ [name] := by
  rw [straighten, List.foldl_append]
  show (if name = ".." then _ else _ : List String).reverse = _
  split
  · rw [straighten, List.dropLast_reverse]
  · rw [List.reverse_cons, straighten]

/-- Without double points there is nothing to straighten. -/
theorem straighten_eq_self {route : List String} (h : ".." ∉ route) : straighten route = route := by
  induction route using List.reverseRecOn with
  | nil => rfl
  | append_singleton route name ih =>
    obtain ⟨hroute, hname⟩ := not_or.1 (List.mem_append.not.1 h)
    rw [straighten_concat, if_neg fun heq ↦ hname (List.mem_singleton.2 heq.symm), ih hroute]

/-- A path that is given from the root does not depend on where it starts. -/
theorem route_of_slashes {base : List String} {p : Path} (h : p.slashes ≠ 0) :
    p.route base = p.names :=
  if_neg h

end Path

namespace FileTree

variable {tree tree' node : FileTree} {base place : Location} {done names : List String}
  {path : Path} {content : List UInt8} {ending : Ending}

/-! ### Walking -/

/-- A walk that ends at a place has found a node there, or a folder that has nothing of the last
name. -/
inductive Ends (tree : FileTree) (place : Location) : Ending → Prop
  | found {node : FileTree} (at_place : tree.node? place = some node) :
    Ends tree place (.found place node)
  | vacant {folder : Location} {name : String} (concat : place = folder ++ [name])
    (in_folder : tree.HasFolder folder) (nothing : tree.node? place = none) :
    Ends tree place (.vacant place)

/-- A walk ends at the straightened route. It is by induction on the names that are left, and what
has been walked is a folder at each step, so that taking a step back is the same as taking the last
name off. -/
theorem walk_eq_ok (hdone : tree.HasFolder (Path.straighten done))
    (h : tree.walk (Path.straighten done) names = .ok ending) :
    tree.Ends (Path.straighten (done ++ names)) ending := by
  induction names generalizing done with
  | nil =>
    obtain ⟨entries, hentries⟩ := hdone
    rw [walk, hentries] at h
    cases h
    rw [List.append_nil]
    exact .found hentries
  | cons name rest ih =>
    have hstep := Path.straighten_concat done name
    rw [List.append_cons]
    rw [walk] at h
    by_cases hup : name = ".."
    · rw [if_pos hup] at h hstep
      rw [← hstep] at h
      exact ih (hdone.of_prefix (hstep ▸ List.dropLast_prefix _)) h
    rw [if_neg hup] at h hstep
    rw [← hstep] at h
    by_cases hlong : maxNameOctets < (Utf8.encode name).length
    · rw [if_pos hlong] at h
      exact nomatch h
    rw [if_neg hlong] at h
    -- only the last name may lead to anything but a folder
    cases hnode : tree.node? (Path.straighten (done ++ [name])) with
    | none =>
      by_cases hrest : rest = []
      · rw [hrest, List.append_nil]
        simp only [hnode, hrest] at h
        cases h
        exact .vacant hstep hdone hnode
      · simp only [hnode, if_neg hrest] at h
        exact nomatch h
    | some node =>
      cases node with
      | folder entries =>
        simp only [hnode] at h
        exact ih ⟨entries, hnode⟩ h
      | file content =>
        by_cases hrest : rest = []
        · rw [hrest, List.append_nil]
          simp only [hnode, hrest] at h
          cases h
          exact .found hnode
        · simp only [hnode, if_neg hrest] at h
          exact nomatch h

/-- Where a path leads from the root. -/
theorem follow_eq_ok (hroot : tree.HasFolder []) (h : tree.follow base path = .ok ending) :
    tree.Ends (Path.straighten (path.route base)) ending := by
  rw [follow] at h
  cases hpossible : requirePossible path with
  | error fault =>
    rw [hpossible] at h
    exact nomatch h
  | ok _ =>
    rw [hpossible] at h
    exact walk_eq_ok (show tree.HasFolder (Path.straighten []) from hroot) h

/-! ### Writing -/

/-- A tree that is a file system: there is a folder at the root, and no folder has a name twice. -/
structure IsSystem (tree : FileTree) : Prop where
  root : tree.HasFolder []
  keyed : tree.Keyed

theorem IsSystem.put (h : tree.IsSystem) (hnode : node.Keyed) (hplace : place ≠ []) :
    (tree.put node place).IsSystem := by
  obtain ⟨name, rest, rfl⟩ := List.exists_cons_of_ne_nil hplace
  exact ⟨⟨_, rfl⟩, h.keyed.put hnode _⟩

/-- What is written is put where no folder is, and there were folders all the way. -/
theorem write_eq_ok (hroot : tree.HasFolder []) (h : tree.write base path content = .ok tree') :
    let place := Path.straighten (path.route base)
    tree' = tree.put (.file content) place ∧ ¬tree.HasFolder place ∧
      ∀ p, p <+: place → p ≠ place → tree.HasFolder p := by
  intro place
  rw [write] at h
  cases hfollow : tree.follow base path with
  | error fault =>
    rw [hfollow] at h
    exact nomatch h
  | ok ending =>
    rw [hfollow] at h
    -- a path ends at a node that is there or in a folder that has none of that name
    cases follow_eq_ok hroot hfollow with
    | @found node hnode =>
      cases node with
      | folder entries => exact nomatch h
      | file old =>
        cases h
        refine ⟨rfl, fun ⟨_, hentries⟩ ↦ (nomatch hnode.symm.trans hentries), ?_⟩
        rintro p ⟨rest, hrest⟩ hne
        refine hasFolder_of_node?_append ((congrArg tree.node? hrest).trans hnode) ?_
        rintro rfl
        exact hne (List.append_nil p ▸ hrest)
    | @vacant folder name hplace hfolder hnothing =>
      cases h
      refine ⟨rfl, fun ⟨_, hentries⟩ ↦ (nomatch hnothing.symm.trans hentries), ?_⟩
      intro p hp hne
      rw [show place = folder ++ [name] from hplace] at hp hne
      exact hfolder.of_prefix_concat hp hne

/-- A file that is written is found at the end of the path, and nothing else has changed. -/
theorem file?_write (hroot : tree.HasFolder []) (h : tree.write base path content = .ok tree')
    (q : Location) : tree'.file? q =
      if q = Path.straighten (path.route base) then some content else tree.file? q := by
  obtain ⟨rfl, hplace, hway⟩ := write_eq_ok hroot h
  refine file?_put_file (fun p hp hne ↦ (hway p hp hne).file?_eq_none) (fun more hmore ↦ ?_) _ _
  rw [← Option.not_isSome_iff_eq_none, Option.isSome_iff_exists]
  rintro ⟨old, hold⟩
  exact hplace (hasFolder_of_node?_append (file?_eq_some_iff.1 hold) hmore)

theorem IsSystem.write (h : tree.IsSystem) (hwrite : tree.write base path content = .ok tree') :
    tree'.IsSystem := by
  obtain ⟨rfl, hplace, -⟩ := write_eq_ok h.root hwrite
  exact h.put (.file content) fun hnil ↦ hplace (hnil ▸ h.root)

/-! ### Making folders -/

/-- Whether a folder is made or something is in the way, no file changes at any step. -/
theorem makeEach_keeps (h : tree.IsSystem) (hdone : tree.HasFolder (Path.straighten done)) :
    (tree.makeEach (Path.straighten done) names).1.IsSystem ∧
      ∀ q, (tree.makeEach (Path.straighten done) names).1.file? q = tree.file? q := by
  induction names generalizing tree done with
  | nil => exact ⟨h, fun _ ↦ rfl⟩
  | cons name rest ih =>
    have hstep := Path.straighten_concat done name
    rw [makeEach]
    by_cases hup : name = ".."
    · rw [if_pos hup] at hstep ⊢
      rw [← hstep]
      -- upwards nothing is made
      exact ih h (hdone.of_prefix (hstep ▸ List.dropLast_prefix _))
    rw [if_neg hup] at hstep ⊢
    rw [← hstep]
    by_cases hlong : maxNameOctets < (Utf8.encode name).length
    · rw [if_pos hlong]
      exact ⟨h, fun _ ↦ rfl⟩
    rw [if_neg hlong]
    cases hnode : tree.node? (Path.straighten (done ++ [name])) with
    | some node =>
      cases node with
      | folder entries => exact ih h ⟨entries, hnode⟩
      | file content => exact ⟨h, fun _ ↦ rfl⟩
    | none =>
      have hmade : (tree.put empty (Path.straighten (done ++ [name]))).HasFolder
          (Path.straighten (done ++ [name])) := by
        have hput := node?_put_append tree empty (Path.straighten (done ++ [name])) []
        rw [List.append_nil] at hput
        exact ⟨[], hput⟩
      have hway : ∀ p, p <+: Path.straighten (done ++ [name]) →
          p ≠ Path.straighten (done ++ [name]) → tree.file? p = none := by
        intro p hp hne
        rw [hstep] at hp hne
        exact (hdone.of_prefix_concat hp hne).file?_eq_none
      obtain ⟨hsystem, hfiles⟩ := ih (h.put keyed_empty (hstep ▸ by simp)) hmade
      exact ⟨hsystem, fun q ↦ (hfiles q).trans (file?_put_empty hway hnode q)⟩

/-- Making folders changes no file, whether it succeeds or not. -/
theorem makeFolders_keeps (h : tree.IsSystem) (base : Location) (path : Path) :
    (tree.makeFolders base path).1.IsSystem ∧
      ∀ q, (tree.makeFolders base path).1.file? q = tree.file? q := by
  rw [makeFolders]
  split
  · exact makeEach_keeps h (show tree.HasFolder (Path.straighten []) from h.root)
  · exact ⟨h, fun _ ↦ rfl⟩

end FileTree

end JsonShapes
