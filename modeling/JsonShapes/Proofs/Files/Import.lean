import JsonShapes.Emit.Style
import JsonShapes.Proofs.Files.Path
import JsonShapes.Proofs.Files.Walking

/-!
# Where imports lead

A stub names the module of all aliases by as many double points as lead from its folder to the
output folder, and then by what the settings say. So from the folder of any stub the import leads
where the name of the module leads from the output folder (`Path.straighten_importFrom`), whatever
that name looks like.

The path has as many double points in front as there are names on the way from the output folder to
the stub, and none of these names is a double point itself, so the ups undo them exactly
(`straighten_append_ups`). What the settings say comes after that and may be anything.
-/

namespace JsonShapes.Path

/-! ### Texts with a slash -/

/-- A slash separates. -/
theorem pieces_append (before after : List Char) :
    pieces (before ++ '/' :: after) = pieces before ++ pieces after := by
  simp only [pieces_eq_splitOn, List.splitOn_append_cons_self]

/-- A suffix without a slash belongs to the last piece. -/
theorem exists_pieces_suffix (text : List Char) {suffix : List Char} (h : '/' ∉ suffix) :
    ∃ init last, pieces (text ++ suffix) = init ++ [last ++ suffix] := by
  induction text with
  | nil =>
    rw [List.nil_append, pieces_eq_splitOn, List.splitOn_eq_singleton h]
    exact ⟨[], [], rfl⟩
  | cons c text ih =>
    obtain ⟨init, last, ih⟩ := ih
    rw [pieces_eq_splitOn] at ih
    rw [List.cons_append, pieces_eq_splitOn, List.splitOn_cons_eq_if_modifyHead, ih]
    split
    · exact ⟨[] :: init, last, rfl⟩
    · cases init with
      | nil => exact ⟨[], c :: last, rfl⟩
      | cons first init => exact ⟨(c :: first) :: init, last, rfl⟩

/-- A path that is two texts with a slash between them goes through the names of both. -/
theorem names_parse_append (before after : String) :
    (parse (before ++ "/" ++ after)).names = (parse before).names ++ (parse after).names := by
  have htext : (before ++ "/" ++ after).toList = before.toList ++ '/' :: after.toList := by
    rw [String.toList_append, String.toList_append, List.append_assoc]
    rfl
  show ((pieces _).filter _).map _ = _
  rw [htext, pieces_append, List.filter_append, List.map_append]
  rfl

/-- A suffix without a slash belongs to the last name, if it is more than a point. -/
theorem exists_names_parse_suffix (text : String) {suffix : String} (hslash : '/' ∉ suffix.toList)
    (hlength : 1 < suffix.toList.length) :
    ∃ names stem, (parse (text ++ suffix)).names = names ++ [stem ++ suffix] := by
  obtain ⟨init, last, hpieces⟩ := exists_pieces_suffix text.toList hslash
  have hkept : ([last ++ suffix.toList].filter fun p ↦ p ≠ [] ∧ p ≠ ['.']) =
      [last ++ suffix.toList] := by
    refine List.filter_eq_self.2 (List.forall_mem_singleton.2 (decide_eq_true ⟨?_, ?_⟩))
    all_goals
      intro heq
      have hle := congrArg List.length heq
      rw [List.length_append] at hle
      simp only [List.length_nil, List.length_singleton] at hle
      omega
  refine ⟨(init.filter fun p ↦ p ≠ [] ∧ p ≠ ['.']).map String.ofList, String.ofList last, ?_⟩
  show ((pieces _).filter _).map _ = _
  rw [String.toList_append, hpieces, List.filter_append, hkept, List.map_append, List.map_singleton,
    String.ofList_append, String.ofList_toList]

/-! ### Steps up -/

/-- What was walked before counts only through where it has led. -/
theorem straighten_append_congr {before before' : List String}
    (h : straighten before = straighten before') (after : List String) :
    straighten (before ++ after) = straighten (before' ++ after) := by
  induction after using List.reverseRecOn with
  | nil => rwa [List.append_nil, List.append_nil]
  | append_singleton after name ih =>
    rw [← List.append_assoc, ← List.append_assoc, straighten_concat, straighten_concat, ih]

/-- As many double points as names lead back to where the names have led from. -/
theorem straighten_append_ups {names : List String} (h : ".." ∉ names) (before : List String) :
    straighten (before ++ names ++ List.replicate names.length "..") = straighten before := by
  induction names using List.reverseRecOn with
  | nil => rw [List.append_nil, List.length_nil, List.replicate_zero, List.append_nil]
  | append_singleton names name ih =>
    obtain ⟨hnames, hname⟩ := not_or.1 (List.mem_append.not.1 h)
    have hback : straighten (before ++ (names ++ [name]) ++ [".."]) =
        straighten (before ++ names) := by
      rw [straighten_concat, if_pos rfl, ← List.append_assoc, straighten_concat,
        if_neg fun heq ↦ hname (List.mem_singleton.2 heq.symm), List.dropLast_concat]
    rw [List.length_append, List.length_singleton, List.replicate_succ, ← ih hnames,
      List.append_cons (before ++ (names ++ [name]))]
    exact straighten_append_congr hback _

/-! ### Imports -/

/-- Double points joined by slashes are read back as so many steps up, whatever target comes behind
them. -/
theorem names_parse_ups (depth : Nat) (target suffix : String) :
    (parse ("/".intercalate (List.replicate depth ".." ++ [target]) ++ suffix)).names =
      List.replicate depth ".." ++ (parse (target ++ suffix)).names := by
  induction depth with
  | zero => rfl
  | succ depth ih =>
    obtain ⟨first, rest, hcons⟩ : ∃ first rest, List.replicate depth ".." ++ [target] =
        first :: rest := List.exists_cons_of_ne_nil (by simp)
    rw [List.replicate_succ, List.cons_append, List.cons_append, hcons,
      String.intercalate_cons_cons, String.append_assoc, names_parse_append, ← hcons, ih]
    rfl

/-- The import in a stub, with whatever suffix, has a double point for every folder on the way to
the stub. -/
theorem names_parse_importFrom {folders : List String} {name : String}
    (h : ∀ n ∈ folders ++ [name], IsName n) (target suffix : String) :
    (parse (importFrom ("/".intercalate (folders ++ [name])) target ++ suffix)).names =
      List.replicate folders.length ".." ++ (parse (target ++ suffix)).names := by
  have hdepth : (parse ("/".intercalate (folders ++ [name]))).parentDepth = folders.length := by
    rw [parse_intercalate h, parentDepth]
    simp
  rw [importFrom, hdepth]
  cases hlength : folders.length with
  | zero =>
    show (parse ("." ++ "/" ++ target ++ suffix)).names = _
    rw [String.append_assoc, names_parse_append]
    rfl
  | succ depth => exact names_parse_ups _ _ _

/-- From the folder of a stub its import leads where the target leads from the output folder. -/
theorem straighten_importFrom_append {folders : List String} {name : String}
    (h : ∀ n ∈ folders ++ [name], IsName n) (output : List String) (target suffix : String) :
    straighten (output ++ folders ++
        (parse (importFrom ("/".intercalate (folders ++ [name])) target ++ suffix)).names) =
      straighten (output ++ (parse (target ++ suffix)).names) := by
  have hfolders : ".." ∉ folders := fun hdots ↦
    (h ".." (List.mem_append_left _ hdots)).ne_dots rfl
  rw [names_parse_importFrom h, ← List.append_assoc]
  exact straighten_append_congr (straighten_append_ups hfolders output) _

/-- From the folder of a stub its import leads where the name of the module leads from the output
folder. -/
theorem straighten_importFrom {names : List String} (h : ∀ name ∈ names, IsName name)
    (hne : names ≠ []) (output : List String) (style : Style) :
    straighten (output ++ names.dropLast ++
        (parse (importFrom ("/".intercalate names) style.commonFile ++ Style.suffix)).names) =
      straighten (output ++ (parse style.commonModule).names) := by
  obtain ⟨folders, name, rfl⟩ := (List.eq_nil_or_concat' names).resolve_left hne
  rw [List.dropLast_concat]
  exact straighten_importFrom_append h output _ _

end JsonShapes.Path
