import JsonShapes.Proofs.Text.OneLine
import Mathlib.Data.List.Basic

/-!
# Pointers tell their paths

A pointer is read back step by step (`Pointer.toPath`), so no two paths have one pointer
(`ofPath_injective`): escaped names have no slash in them, no two names are escaped alike, and no
name is escaped to the token of an array's items. It has no end of line in it either, whatever the
names on the path are (`ofPath_decodable`).

The reader is written beside the pointers for this purpose only: no part of a run reads a pointer
back. It undoes the escapes from left to right, and the order in which `escapeName` applies them
does not matter, since none touches what an earlier one has written (`escapeName_eq_flatMap`).

Decoding is more than telling paths apart: whoever has a pointer can compute the path, without a
list of paths to choose from. `toPath` is total. What it gives for a text that is no pointer is of
no importance, since every pointer was made from a path.
-/

namespace JsonShapes.Pointer

/-! ### Names in tokens -/

/-- What a character of a name is written as in a token. -/
def escape : Char → List Char
  | '%' => ['%', '2', '5']
  | '~' => ['~', '0']
  | '/' => ['~', '1']
  | c => escapeLineEnd c

/-- A character is one of those that are escaped, or stands for itself and begins no escape. -/
theorem escape_cases (c : Char) :
    c ∈ ['%', '~', '/', '\n', '\r', '\u2028', '\u2029'] ∨
      escape c = [c] ∧ c ≠ '%' ∧ c ≠ '~' ∧ c ≠ '/' := by
  by_cases hc : c ∈ ['%', '~', '/', '\n', '\r', '\u2028', '\u2029']
  · exact .inl hc
  · simp only [List.mem_cons, List.not_mem_nil, or_false, not_or] at hc
    obtain ⟨hpercent, htilde, hslash, hfeed, hreturn, hline, hparagraph⟩ := hc
    refine .inr ⟨?_, hpercent, htilde, hslash⟩
    simp [escape, escapeLineEnd, *]

/-- No escape touches what an earlier one has written, so all of them together go character by
character. -/
theorem escapeName_eq_flatMap (name : List Char) : escapeName name = name.flatMap escape := by
  simp only [escapeName, replace, List.flatMap_assoc]
  refine List.flatMap_congr fun c _ ↦ ?_
  rcases escape_cases c with hc | ⟨hc, hpercent, htilde, hslash⟩
  · simp only [List.mem_cons, List.not_mem_nil, or_false] at hc
    rcases hc with rfl | rfl | rfl | rfl | rfl | rfl | rfl <;> rfl
  · have hline : escapeLineEnd c = [c] := by
      rwa [escape.eq_4 c hpercent htilde hslash] at hc
    simp [hc, hpercent, htilde, hslash, hline]

/-! ### Reading back -/

/-- The characters that an escaped text stands for. -/
def unescape : List Char → List Char
  | '%' :: '2' :: '5' :: rest => '%' :: unescape rest
  | '%' :: '2' :: 'A' :: rest => '*' :: unescape rest
  | '%' :: '0' :: 'A' :: rest => '\n' :: unescape rest
  | '%' :: '0' :: 'D' :: rest => '\r' :: unescape rest
  | '%' :: 'E' :: '2' :: '%' :: '8' :: '0' :: '%' :: 'A' :: '8' :: rest => '\u2028' :: unescape rest
  | '%' :: 'E' :: '2' :: '%' :: '8' :: '0' :: '%' :: 'A' :: '9' :: rest => '\u2029' :: unescape rest
  | '~' :: '0' :: rest => '~' :: unescape rest
  | '~' :: '1' :: rest => '/' :: unescape rest
  | c :: rest => c :: unescape rest
  | [] => []

/-- The step that a token stands for. -/
def toStep (token : List Char) : Step :=
  if token = itemToken then .item else .member (String.ofList (unescape token))

/-- The path that a pointer stands for. -/
def toPath (pointer : String) : List Step :=
  ((pointer.toList.splitOn '/').drop 1).map toStep

/-- An escape is undone before the rest is looked at, whatever the rest is. The cases are the seven
characters that are escaped, and all others. -/
theorem unescape_escape_append (c : Char) (rest : List Char) :
    unescape (escape c ++ rest) = c :: unescape rest := by
  rcases escape_cases c with hc | ⟨hc, hpercent, htilde, -⟩
  · simp only [List.mem_cons, List.not_mem_nil, or_false] at hc
    rcases hc with rfl | rfl | rfl | rfl | rfl | rfl | rfl <;> rfl
  · rw [hc, List.singleton_append]
    simp [unescape, hpercent, htilde]

/-- Names are read back from what they are escaped to, character by character. -/
theorem unescape_flatMap_escape (text : List Char) : unescape (text.flatMap escape) = text := by
  induction text with
  | nil => rfl
  | cons c text ih => rw [List.flatMap_cons, unescape_escape_append, ih]

/-- No escape writes a slash, so slashes in a pointer separate tokens and do nothing else. -/
theorem slash_not_mem_escape (c : Char) : '/' ∉ escape c := by
  rcases escape_cases c with hc | ⟨hc, -, -, hslash⟩
  · simp only [List.mem_cons, List.not_mem_nil, or_false] at hc
    rcases hc with rfl | rfl | rfl | rfl | rfl | rfl | rfl <;> decide
  · rw [hc, List.mem_singleton]
    exact Ne.symm hslash

/-- A step is told by its token. -/
theorem toStep_token (step : Step) : toStep (token step) = step := by
  cases step with
  | item => rfl
  | member name =>
    have hname := unescape_flatMap_escape name.toList
    rw [token, distinguish, escapeName_eq_flatMap]
    split
    · next hstar =>
      -- the name is a star itself
      rw [hstar] at hname
      rw [← String.ofList_toList (s := name), ← hname]
      rfl
    · next hstar => rw [toStep, if_neg hstar, hname, String.ofList_toList]

/-- A token has no slash in it, the token of an array's items included. -/
theorem slash_not_mem_token (step : Step) : '/' ∉ token step := by
  cases step with
  | item => decide
  | member name =>
    rw [token, distinguish, escapeName_eq_flatMap]
    split
    · decide
    · intro h
      obtain ⟨c, -, hc⟩ := List.mem_flatMap.1 h
      exact slash_not_mem_escape c hc

/-- A pointer grows by a slash and a token at each step. -/
theorem toList_foldl_extend (path : List Step) (pointer : String) :
    (path.foldl extend pointer).toList =
      pointer.toList ++ path.flatMap fun step ↦ '/' :: token step := by
  induction path generalizing pointer with
  | nil => simp
  | cons step path ih => simp [ih, extend]

theorem toList_ofPath (path : List Step) :
    (ofPath path).toList = path.flatMap fun step ↦ '/' :: token step := by
  rw [ofPath, toList_foldl_extend, String.toList_empty, List.nil_append]

/-- A path is told by its pointer. -/
theorem toPath_ofPath (path : List Step) : toPath (ofPath path) = path := by
  have hjoined : path.flatMap (fun step ↦ '/' :: token step) =
      ['/'].intercalate ([] :: path.map token) := by
    induction path with
    | nil => rfl
    | cons step path ih =>
      rw [List.flatMap_cons, ih, List.map_cons, List.intercalate_cons_cons]
      cases path with
      | nil => simp
      | cons next path => simp [List.intercalate_cons_cons]
  have hslashes : ∀ piece ∈ [] :: path.map token, '/' ∉ piece := by
    simpa using fun step _ ↦ slash_not_mem_token step
  rw [toPath, toList_ofPath, hjoined, List.splitOn_intercalate _ hslashes (List.cons_ne_nil _ _),
    List.drop_one, List.tail_cons, List.map_map]
  exact (List.map_congr_left fun step _ ↦ toStep_token step).trans path.map_id

/-- No two paths have the same pointer, as each is read back. -/
theorem ofPath_injective : Function.Injective ofPath :=
  Function.LeftInverse.injective toPath_ofPath

/-! ### Decoding -/

/-- The end of every name's token is to have the ends of line escaped. -/
theorem oneLine_token (step : Step) : OneLine (String.ofList (token step)) := by
  cases step with
  | item => decide
  | member name =>
    rw [token, distinguish]
    split
    · decide
    · exact OneLine.flatMap_escapeLineEnd _

/-- A pointer fits on one line, whatever names are on its path. -/
theorem oneLine_ofPath (path : List Step) : OneLine (ofPath path) := by
  intro c hc
  rw [toList_ofPath] at hc
  obtain ⟨step, -, hstep⟩ := List.mem_flatMap.1 hc
  rcases List.mem_cons.1 hstep with rfl | htoken
  · decide
  · exact oneLine_token step c (by rwa [String.toList_ofList])

/-- Pointers can be decoded. A pointer has no ends of line in it, and its path is read back from it.
So no name on a path is taken for anything else: what stands for it there, be it the items of an
array, another name, or no step or several, gives another pointer. -/
theorem ofPath_decodable (path : List Step) :
    OneLine (ofPath path) ∧ toPath (ofPath path) = path ∧
      ∀ before name after other, path = before ++ .member name :: after →
        (ofPath (before ++ other ++ after) = ofPath path ↔ other = [.member name]) := by
  refine ⟨oneLine_ofPath path, toPath_ofPath path, ?_⟩
  rintro before name after other rfl
  rw [ofPath_injective.eq_iff, List.append_cons, List.append_cancel_right_eq,
    List.append_cancel_left_eq]

/-- A star, the items of an array, and what the star is escaped to. -/
example : ofPath [.member "*", .item, .member "%2A", .member "~/"] = "/%2A/*/%252A/~0~1" := by
  decide

end JsonShapes.Pointer
