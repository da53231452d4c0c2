import JsonShapes.Proofs.Pointer

/-!
# What labels tell

A label joins the name of a document and a pointer by `#`, and the name is not escaped. So a label
tells its place but for one ambiguity (`Pointer.label_eq_label_iff`): where the name of a document
goes on, behind `#`, as a pointer begins, the two may be split at either `#`. Then the second
document lies in a folder that is called like the first one with `#` behind
(`Pointer.Overlaps.exists_rest`), so there is none if no document has a `#` in its name
(`Pointer.label_inj`).

## Why the ambiguity is exact

A pointer is empty or begins with a slash, and within it every slash that belongs to a name is
escaped. So the pointer can be read off the end of a label as soon as it is known at which `#` it
begins, and from two ways to split one label the longer name is the shorter one with a `#` and some
steps behind (`overlaps_of_append`). Conversely every such pair of names gives one label twice
(`Overlaps.label_eq`), so nothing can be said against the condition in general.
-/

namespace JsonShapes.Pointer

/-! ### Splitting labels -/

/-- The label of the first place can be split at another `#`, so that it reads as that of the second
place: the name of the second document is that of the first with a `#` and the first steps of its
path behind, where the last `#` may end a name on the path, and then the paths go on alike. -/
def Overlaps (document : String) (path : List Step) (document' : String) (path' : List Step) :
    Prop :=
  ∃ steps ≠ [], path = steps ++ path' ∧
    (if path' = [] then document' else document' ++ "#") = document ++ "#" ++ ofPath steps

variable {document document' : String} {path path' : List Step}

/-- A pointer is written step by step, so paths one after another have their pointers one after
another. -/
theorem ofPath_append (path path' : List Step) :
    ofPath (path ++ path') = ofPath path ++ ofPath path' := by
  rw [← String.toList_inj, String.toList_append]
  simp only [toList_ofPath, List.flatMap_append]

@[simp]
theorem ofPath_eq_empty_iff : ofPath path = "" ↔ path = [] :=
  ofPath_injective.eq_iff (b := [])

theorem toList_ofPath_cons (step : Step) (path : List Step) :
    (ofPath (step :: path)).toList = '/' :: token step ++ (ofPath path).toList := by
  rw [toList_ofPath, toList_ofPath, List.flatMap_cons]

/-- A pointer ends in another one only where a token begins. By induction over the steps of the
longer one: every token begins with a slash and has none inside. -/
theorem exists_steps_of_toList_eq {before : List Char}
    (h : (ofPath path).toList = before ++ (ofPath path').toList) :
    ∃ steps, path = steps ++ path' ∧ before = (ofPath steps).toList := by
  have hinj {path path' : List Step} (h : (ofPath path).toList = (ofPath path').toList) :
      path = path' := ofPath_injective (String.toList_inj.1 h)
  induction path generalizing before with
  | nil =>
    obtain ⟨rfl, hpath⟩ := List.append_eq_nil_iff.1 h.symm
    exact ⟨[], hinj hpath.symm, rfl⟩
  | cons step path ih =>
    cases before with
    | nil => exact ⟨[], hinj h, rfl⟩
    | cons c before =>
      rw [toList_ofPath_cons, List.cons_append, List.cons_append, List.cons.injEq] at h
      obtain ⟨rfl, h⟩ := h
      rcases List.append_eq_append_iff.1 h with ⟨rest, rfl, hrest⟩ | ⟨rest, htoken, hpath⟩
      · obtain ⟨steps, rfl, rfl⟩ := ih hrest
        exact ⟨step :: steps, rfl, (toList_ofPath_cons step steps).symm⟩
      · cases rest with
        | nil =>
          rw [List.append_nil] at htoken
          refine ⟨[step], congrArg _ (hinj hpath).symm, ?_⟩
          rw [toList_ofPath_cons, htoken]
          exact (List.append_nil _).symm
        | cons d rest =>
          -- the other pointer would begin within the token, where there is no slash
          cases path' with
          | nil => exact nomatch hpath
          | cons other path' =>
            rw [toList_ofPath_cons, List.cons_append, List.cons_append, List.cons.injEq] at hpath
            obtain ⟨rfl, -⟩ := hpath
            exact absurd (htoken ▸ List.mem_append_right before List.mem_cons_self)
              (slash_not_mem_token step)

/-- What a label has after the name of the document. -/
def tail (pointer : String) : List Char :=
  if pointer = "" then [] else '#' :: pointer.toList

/-- What a label has after the name of the document tells the pointer: it is empty for the root, and
begins with `#` otherwise. -/
theorem tail_injective : Function.Injective tail := by
  intro pointer pointer' h
  rw [tail, tail] at h
  split at h <;> split at h <;> simp_all [String.toList_inj]

/-- A label is the name of a document and a tail. All ambiguity is in where the one ends. -/
theorem toList_label (document pointer : String) :
    (label document pointer).toList = document.toList ++ tail pointer := by
  by_cases hpointer : pointer = "" <;> simp [label, tail, hpointer]

/-- The label of the root of a document is the name of the document, without a `#`. -/
theorem label_ofPath (document : String) (path : List Step) :
    label document (ofPath path) =
      if path = [] then document else document ++ "#" ++ ofPath path := by
  rw [← String.toList_inj, toList_label, tail]
  by_cases hpath : path = [] <;> simp [hpath]

/-! ### Equal labels -/

/-- If the name of a document goes on, behind that of another one, as a label of that begins, then
the label overlaps. -/
theorem overlaps_of_append {before : List Char} (hne : before ≠ [])
    (hdocument : document'.toList = document.toList ++ before)
    (htail : tail (ofPath path) = before ++ tail (ofPath path')) :
    Overlaps document path document' path' := by
  have hpath : path ≠ [] := by
    rintro rfl
    exact hne (List.append_eq_nil_iff.1 htail.symm).1
  obtain ⟨c, before, rfl⟩ := List.exists_cons_of_ne_nil hne
  rw [tail, if_neg (ofPath_eq_empty_iff.not.2 hpath), tail, List.cons_append, List.cons.injEq]
    at htail
  obtain ⟨rfl, htail⟩ := htail
  by_cases hpath' : path' = []
  · rw [if_pos (ofPath_eq_empty_iff.2 hpath'), List.append_nil] at htail
    refine ⟨path, hpath, by rw [hpath', List.append_nil], ?_⟩
    rw [if_pos hpath', ← String.toList_inj, hdocument, ← htail]
    simp
  · rw [if_neg (ofPath_eq_empty_iff.not.2 hpath'), List.append_cons] at htail
    obtain ⟨steps, rfl, hsteps⟩ := exists_steps_of_toList_eq htail
    refine ⟨steps, ?_, rfl, ?_⟩
    · rintro rfl
      simp [ofPath] at hsteps
    · rw [if_neg hpath', ← String.toList_inj]
      simp [hdocument, ← hsteps]

/-- Places that overlap do have the same label, so that `Overlaps` cannot be left out of
`label_eq_label_iff`. -/
theorem Overlaps.label_eq (h : Overlaps document path document' path') :
    label document (ofPath path) = label document' (ofPath path') := by
  obtain ⟨steps, hne, rfl, hname⟩ := h
  rw [label_ofPath, label_ofPath, if_neg (List.append_ne_nil_of_left_ne_nil hne _), ofPath_append,
    ← String.append_assoc, ← hname]
  by_cases hpath' : path' = []
  · simp [hpath', ofPath]
  · simp [hpath']

/-- The labels of two places are equal exactly if the places are, or one of the labels can be split
at another `#`. -/
theorem label_eq_label_iff : label document (ofPath path) = label document' (ofPath path') ↔
    document = document' ∧ path = path' ∨ Overlaps document path document' path' ∨
      Overlaps document' path' document path := by
  constructor
  · intro h
    rw [← String.toList_inj, toList_label, toList_label] at h
    -- the name that is the shorter one is the beginning of the other
    rcases List.append_eq_append_iff.1 h with
      ⟨before, hdocument, htail⟩ | ⟨before, hdocument, htail⟩
    · rcases eq_or_ne before [] with rfl | hne
      · rw [List.append_nil, String.toList_inj] at hdocument
        exact .inl ⟨hdocument.symm, ofPath_injective (tail_injective htail)⟩
      · exact .inr (.inl (overlaps_of_append hne hdocument htail))
    · rcases eq_or_ne before [] with rfl | hne
      · rw [List.append_nil, String.toList_inj] at hdocument
        exact .inl ⟨hdocument, ofPath_injective (tail_injective htail.symm)⟩
      · exact .inr (.inr (overlaps_of_append hne hdocument htail))
  · rintro (⟨rfl, rfl⟩ | h | h)
    · rfl
    · exact h.label_eq
    · exact h.label_eq.symm

/-- Labels overlap only if the second document lies in a folder that is called like the first
document with a `#` behind. -/
theorem Overlaps.exists_rest (h : Overlaps document path document' path') :
    ∃ rest, document' = document ++ "#/" ++ rest := by
  obtain ⟨steps, hne, -, hname⟩ := h
  obtain ⟨step, steps, rfl⟩ := List.exists_cons_of_ne_nil hne
  have hsteps : ofPath (step :: steps) = "/" ++ String.ofList (token step) ++ ofPath steps := by
    rw [← String.toList_inj, toList_ofPath_cons]
    simp
  rw [hsteps] at hname
  split at hname
  · refine ⟨String.ofList (token step) ++ ofPath steps, ?_⟩
    simp [hname, ← String.toList_inj]
  · have htext : document'.toList ++ ['#'] =
        document.toList ++ ['#', '/'] ++ (token step ++ (ofPath steps).toList) := by
      simpa using congrArg String.toList hname
    rcases List.eq_nil_or_concat' (token step ++ (ofPath steps).toList) with
      hnil | ⟨rest, c, hrest⟩
    · -- a name with `#` behind does not end in a slash
      rw [hnil, List.append_nil, List.append_cons document.toList] at htext
      exact absurd (List.append_inj_right' htext rfl) (by decide)
    · rw [hrest, ← List.append_assoc] at htext
      refine ⟨String.ofList rest, ?_⟩
      rw [← String.toList_inj, List.append_inj_left' htext rfl]
      simp

/-- A label tells its document and its path, if no `#` is in the names of documents. -/
theorem label_inj (h : '#' ∉ document.toList) (h' : '#' ∉ document'.toList)
    (hlabel : label document (ofPath path) = label document' (ofPath path')) :
    document = document' ∧ path = path' := by
  rcases label_eq_label_iff.1 hlabel with heq | hoverlaps | hoverlaps
  · exact heq
  · obtain ⟨rest, rfl⟩ := hoverlaps.exists_rest
    simp at h'
  · obtain ⟨rest, rfl⟩ := hoverlaps.exists_rest
    simp at h

end JsonShapes.Pointer
