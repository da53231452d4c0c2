import JsonShapes.Proofs.Files.Making
import JsonShapes.Proofs.Run.Performing

/-!
# Effects that nothing hinders

Of effects that make the folders of some files and write these files, none is refused as long as the
files are free (`FileTree.Free`); they stay free, and it is known which folders there are then
(`World.Unhindered`). This passes through sequencing and through lists.

The invariant is that the world is ready for all the files, not only for the one that comes next. It
is kept by every effect of such a list and by no single one made to fit the next, so the lists of a
run can be put together in any order; in which order they come matters only for the folders.
-/

namespace JsonShapes

/-- The place of the folder that an effect makes. -/
def Effect.made? (base : Location) : Effect → Option Location
  | .makeFolders path => some (path.route base)
  | _ => none

namespace World

variable {world world' : World} {effect : Effect} {effects more : List Effect} {paths : List Path}
  {path : Path}

/-! ### Effects in a row -/

theorem performAll_cons_of_ok (h : world.performOne effect = (world', .ok ())) :
    world.performAll (effect :: effects) = world'.performAll effects := by
  rw [performAll, h]

/-- Several effects that are performed leave the rest to the world after them. -/
theorem performAll_append (h : world.performAll effects = (world', .ok ())) :
    world.performAll (effects ++ more) = world'.performAll more := by
  induction effects generalizing world with
  | nil =>
    cases h
    rfl
  | cons effect effects ih =>
    obtain ⟨world₁, hone, hrest⟩ := performAll_cons_eq_ok h
    rw [List.cons_append, performAll_cons_of_ok hone, ih hrest]

/-! ### Free files -/

/-- Files at the ends of these paths can be written. -/
structure Ready (paths : List Path) (world : World) : Prop where
  system : world.files.IsSystem
  free : world.files.Free world.base paths

/-- The world after effects none of which was refused. Files at the ends of the paths can still be
written, no other file has changed, and the new folders are those that were to be made and those on
the way. -/
structure After (paths : List Path) (effects : List Effect) (world world' : World) : Prop where
  /-- All of them are performed. -/
  performed : world.performAll effects = (world', .ok ())
  /-- Paths lead where they did. -/
  base_eq : world'.base = world.base
  /-- The world is still ready for the files. -/
  ready : Ready paths world'
  file?_eq : ∀ q, (∀ path ∈ paths, path.route world.base ≠ q) →
    world'.files.file? q = world.files.file? q
  hasFolder_iff : ∀ q, world'.files.HasFolder q ↔ world.files.HasFolder q ∨
    ∃ place ∈ effects.filterMap (Effect.made? world.base), q <+: place

/-- Effects that are performed as long as files at the ends of these paths can be written, and after
which they still can. -/
def Unhindered (paths : List Path) (effects : List Effect) : Prop :=
  ∀ world, Ready paths world → ∃ world', After paths effects world world'

namespace Unhindered

theorem nil : Unhindered paths [] :=
  fun world h ↦ ⟨world, rfl, rfl, h, fun _ _ ↦ rfl, by simp⟩

/-- What comes after starts from a world that is ready as well. -/
theorem append (h : Unhindered paths effects) (h' : Unhindered paths more) :
    Unhindered paths (effects ++ more) := by
  intro world hready
  obtain ⟨world₁, h₁⟩ := h world hready
  obtain ⟨world₂, h₂⟩ := h' world₁ h₁.ready
  refine ⟨world₂, (performAll_append h₁.performed).trans h₂.performed, h₂.base_eq.trans h₁.base_eq,
    h₂.ready, fun q hq ↦ ?_, fun q ↦ ?_⟩
  · exact (h₂.file?_eq q (h₁.base_eq ▸ hq)).trans (h₁.file?_eq q hq)
  · rw [h₂.hasFolder_iff, h₁.hasFolder_iff, h₁.base_eq, List.filterMap_append, or_assoc]
    simp only [List.mem_append, or_and_right, exists_or]

theorem say (line : String) : Unhindered paths [.say line] :=
  fun _ h ↦ ⟨_, rfl, rfl, ⟨h.system, h.free⟩, fun _ _ ↦ rfl, by simp [Effect.made?]⟩

theorem complain (line : String) : Unhindered paths [.complain line] :=
  fun _ h ↦ ⟨_, rfl, rfl, ⟨h.system, h.free⟩, fun _ _ ↦ rfl, by simp [Effect.made?]⟩

theorem cons (h : Unhindered paths [effect]) (h' : Unhindered paths effects) :
    Unhindered paths (effect :: effects) :=
  h.append h'

/-- Lists of effects go one after another, if each of them is not hindered. -/
theorem flatMap {α : Type} {f : α → List Effect} {l : List α}
    (h : ∀ a ∈ l, Unhindered paths (f a)) : Unhindered paths (l.flatMap f) := by
  induction l with
  | nil => exact nil
  | cons a l ih =>
    obtain ⟨ha, hl⟩ := List.forall_mem_cons.1 h
    exact ha.append (ih hl)

/-- A file at the end of one of the paths is written after its folder is made. -/
theorem write (hpath : path ∈ paths) (text : String) :
    Unhindered paths [.makeFolders path.parent, .write path text] := by
  intro world h
  obtain ⟨hok, hfree, hfolders⟩ := h.free.makeFolders h.system hpath
  obtain ⟨hsystem, hkeeps⟩ := FileTree.makeFolders_keeps h.system world.base path.parent
  obtain ⟨tree, hwrite, hfree', hfolders'⟩ := hfree.write hsystem hpath
    ((hfolders _).2 (.inr (List.prefix_refl _))) (Utf8.encode text)
  have hmake : world.performOne (.makeFolders path.parent) =
      ({ world with files := (world.files.makeFolders world.base path.parent).1 }, .ok ()) :=
    Prod.ext rfl hok
  refine ⟨{ world with files := tree }, ?_, rfl, ⟨hsystem.write hwrite, hfree'⟩, fun q hq ↦ ?_,
    fun q ↦ ?_⟩
  · rw [performAll_cons_of_ok hmake, performAll, performOne]
    simp only [hwrite]
    rfl
  · show tree.file? q = _
    rw [FileTree.file?_write hsystem.root hwrite,
      Path.straighten_eq_self (h.free.leads path hpath).straight, if_neg (hq path hpath).symm]
    exact hkeeps q
  · rw [show tree.HasFolder q ↔ _ from (hfolders' q).trans (hfolders q),
      ← Path.route_parent (h.free.names_ne_nil path hpath)]
    simp [Effect.made?]

end Unhindered

/-- A plan of such effects ends as it says. -/
theorem Unhindered.perform {α : Type} {plan : Plan α} (h : Unhindered paths plan.effects)
    (hready : Ready paths world) : ∃ world',
      world.performAll plan.effects = (world', .ok ()) ∧
        world.perform plan = (world', plan.outcome) := by
  obtain ⟨world', hafter⟩ := h world hready
  refine ⟨world', hafter.performed, ?_⟩
  rw [World.perform, hafter.performed]

end World

end JsonShapes
