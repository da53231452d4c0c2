import JsonShapes.Files.Path
import Mathlib.Data.List.Basic

/-!
# Names in paths

The names that lead to a file can be read back from the text of a path (`parse_intercalate`), since
no name has a slash in it. So the stub of a document lies beside the document, and different
documents have different stubs: what is left of the name of a visible document without its suffix
tells the name (`stemOf_append`).

Paths come from two sources. Those of documents are made of the names that a folder has, and each
name is a `IsName`: it is not empty, has no slash in it and is neither a point nor a double point.
Paths in settings and arguments are texts, of which nothing is known; for them see what is said
where folders are made and files are written.
-/

namespace JsonShapes

/-- A name that something in a folder can have. -/
structure IsName (name : String) : Prop where
  /-- An empty part of a path is dropped. -/
  ne_empty : name ≠ ""
  /-- A point stands for the folder itself. -/
  ne_dot : name ≠ "."
  /-- Two points stand for the folder above. -/
  ne_dots : name ≠ ".."
  /-- A slash ends a name. -/
  no_slash : '/' ∉ name.toList

instance (name : String) : Decidable (IsName name) :=
  decidable_of_iff (name ≠ "" ∧ name ≠ "." ∧ name ≠ ".." ∧ '/' ∉ name.toList)
    ⟨fun ⟨h, hdot, hdots, hslash⟩ ↦ ⟨h, hdot, hdots, hslash⟩,
      fun h ↦ ⟨h.ne_empty, h.ne_dot, h.ne_dots, h.no_slash⟩⟩

/-- With the suffix of modules for that of documents a name is still one: it is longer than a point
or two, and neither suffix has a slash. -/
theorem IsName.stub {stem : String} (h : IsName (stem ++ ".json")) :
    IsName (stem ++ ".d.ts") := by
  have hlength : (stem ++ ".d.ts").toList.length ≥ 5 := by simp
  constructor
  case no_slash =>
    have hslash := h.no_slash
    simp only [String.toList_append, List.mem_append, not_or] at hslash ⊢
    exact ⟨hslash.1, by decide⟩
  all_goals
    intro heq
    simp [heq] at hlength

namespace Path

variable {names : List String}

/-! ### Reading names back -/

/-- The pieces of a path are the library's split at slashes. -/
theorem pieces_eq_splitOn (text : List Char) : pieces text = text.splitOn '/' := by
  induction text with
  | nil => rfl
  | cons c text ih =>
    rw [pieces, List.foldr_cons, ← pieces, ih, List.splitOn_cons_eq_if_modifyHead]
    cases hsplit : text.splitOn '/' with
    | nil => exact absurd hsplit (List.splitOn_ne_nil _ _)
    | cons first rest => simp only [beq_iff_eq, List.modifyHead_cons]

/-- Names that were joined by slashes are split at exactly these. -/
theorem pieces_intercalate (h : ∀ name ∈ names, IsName name) (hne : names ≠ []) :
    pieces ("/".intercalate names).toList = names.map String.toList := by
  rw [pieces_eq_splitOn, String.toList_intercalate]
  refine List.splitOn_intercalate '/' ?_ (mt List.map_eq_nil_iff.1 hne)
  intro p hp
  obtain ⟨name, hname, rfl⟩ := List.mem_map.1 hp
  exact (h name hname).no_slash

/-- The text of names spells a path along these names. -/
theorem parse_intercalate (h : ∀ name ∈ names, IsName name) :
    parse ("/".intercalate names) = ⟨0, names⟩ := by
  by_cases hne : names = []
  · subst hne
    rfl
  have hkept : ((names.map String.toList).filter fun p ↦ p ≠ [] ∧ p ≠ ['.']) =
      names.map String.toList := by
    refine List.filter_eq_self.2 fun p hp ↦ ?_
    obtain ⟨name, hname, rfl⟩ := List.mem_map.1 hp
    refine decide_eq_true ⟨?_, ?_⟩
    · exact fun hnil ↦ (h name hname).ne_empty (String.toList_eq_nil_iff.1 hnil)
    · exact fun hdot ↦ (h name hname).ne_dot (String.toList_inj.1 hdot)
  have hleading : ("/".intercalate names).toList.takeWhile (· = '/') = [] := by
    obtain ⟨name, rest, rfl⟩ := List.exists_cons_of_ne_nil hne
    obtain ⟨hname, -⟩ := List.forall_mem_cons.1 h
    obtain ⟨c, cs, hcs⟩ := List.exists_cons_of_ne_nil (mt String.toList_eq_nil_iff.1 hname.ne_empty)
    have hc : c ≠ '/' := fun hc ↦ hname.no_slash (by rw [hcs, hc]; exact List.mem_cons_self)
    rw [String.toList_intercalate]
    cases rest <;> simp [hcs, hc, List.intercalate]
  rw [parse, hleading, pieces_intercalate h hne, hkept, List.map_map]
  simp

/-- The text of a path that starts from the folder at hand is its names with slashes between them.
-/
theorem text_relative (hne : names ≠ []) : text ⟨0, names⟩ = "/".intercalate names := by
  rw [text, if_neg fun h ↦ hne h.2]
  rfl

/-- Different names have different texts. -/
theorem intercalate_inj {names' : List String} (h : ∀ name ∈ names, IsName name)
    (h' : ∀ name ∈ names', IsName name) (heq : "/".intercalate names = "/".intercalate names') :
    names = names' := by
  have hparse := congrArg parse heq
  rw [parse_intercalate h, parse_intercalate h'] at hparse
  exact (Path.mk.inj hparse).2

/-! ### Stubs -/

/-- A suffix is told from the stem before it. -/
theorem stemOf_append {stem suffix : List Char} (hstem : stem ≠ []) (hsuffix : suffix ≠ [])
    (hpoint : '.' ∉ suffix) : stemOf (stem ++ '.' :: suffix) = stem := by
  let after := suffix.reverse
  have hreverse : (stem ++ '.' :: suffix).reverse = after ++ '.' :: stem.reverse := by
    simp [after]
  have hafter : (after ++ '.' :: stem.reverse).takeWhile (· ≠ '.') = after := by
    rw [List.takeWhile_append_of_pos, List.takeWhile_cons_of_neg (by simp), List.append_nil]
    exact fun c hc ↦ decide_eq_true fun h ↦ hpoint (h ▸ List.mem_reverse.1 hc)
  have hbefore : ((after ++ '.' :: stem.reverse).drop (after.length + 1)).reverse = stem := by
    rw [List.drop_length_add_append, List.drop_one, List.tail_cons, List.reverse_reverse]
  have hlength : after.length ≠ (stem ++ '.' :: suffix).length := by
    simp [after]
    omega
  simp only [stemOf, hreverse, hafter, hbefore]
  exact if_neg (not_or.2 ⟨mt List.reverse_eq_nil_iff.1 hsuffix, not_or.2 ⟨hstem, hlength⟩⟩)

/-- The stub of a document lies beside it. -/
theorem stub?_intercalate {folders : List String} {stem : String} (hstem : stem ≠ "")
    (h : ∀ name ∈ folders ++ [stem ++ ".json"], IsName name) :
    stub? ("/".intercalate (folders ++ [stem ++ ".json"])) =
      some ("/".intercalate (folders ++ [stem ++ ".d.ts"])) := by
  have hstemOf : stemOf (stem ++ ".json").toList = stem.toList := by
    rw [String.toList_append]
    exact stemOf_append (mt String.toList_eq_nil_iff.1 hstem) (by decide) (by decide)
  rw [stub?, parse_intercalate h, withSuffix?, List.getLast?_concat, Option.map_some,
    Option.map_some, List.dropLast_concat, hstemOf, String.ofList_toList]
  exact congrArg some (text_relative (by simp))

end Path

end JsonShapes
