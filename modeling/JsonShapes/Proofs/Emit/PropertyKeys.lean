import JsonShapes.Identifier
import JsonShapes.Proofs.Identifier
import JsonShapes.Proofs.Json.Quoting
import JsonShapes.Proofs.Text.OneLine
import Mathlib

/-!
# Property keys

The key under which a property is emitted should denote its name and fit on one line, and all keys
but some do (`Identifier.faithful_iff`): an identifier with a line feed behind it is taken for the
identifier and written bare. In the emitted language the line feed does not count, so such a key
denotes the identifier (`Identifier.denoted?_property_line_feed`), and ends a line.

What a key denotes is settled by a reader of its own (`Identifier.denoted?`), which takes quoted
keys for JSON texts and bare ones for identifiers. So faithful means that a name comes back from its
key, and for quoted keys that is what `Json.parse_quoteWith` says of any text between quotes.

## The two ways of writing a key

A name that is not bare is quoted, and then nothing can go wrong: all that ends a line is written as
a code, and the quotes keep the rest together (`faithful_of_not_isBare`). A name that is an
identifier is bare and is its own key (`faithful_of_isIdentifier`). What is left are names that
count as bare and are no identifiers, and there is one way to be such a name (`isBare_iff`).
-/

namespace JsonShapes

/-! ### Keys -/

namespace Identifier

/-- The name is an identifier with a line feed behind it. -/
def Stray (name : String) : Prop :=
  ∃ identifier : String, isIdentifier identifier.toList = true ∧ name = identifier ++ "\n"

/-- The key of a name fits on one line. It is the name, if that is an identifier, or else a text in
quotes that spells the name. -/
structure Faithful (name : String) : Prop where
  oneLine : OneLine (property name)
  exact : isIdentifier name.toList = true ∧ property name = name ∨
    (∃ inside, property name = "\"" ++ inside ++ "\"") ∧
      Json.parse (property name).toList = .ok (.string name)

/-- The name that a key denotes: what a text in quotes spells, and otherwise the identifier that the
key is but for blanks behind it. -/
def denoted? (key : String) : Option String :=
  if key.toList.head? = some '"' then
    match Json.parse key.toList with
    | .ok (.string name) => some name
    | _ => none
  else
    let bare := key.toList.rdropWhile Json.Reader.isSpace
    if isIdentifier bare then some (String.ofList bare) else none

/-- The stem of aliases has only characters of identifiers, whatever is configured. -/
theorem continues_of_mem_stem (configured : Option String) :
    ∀ c ∈ (stem configured).toList, continues c = true :=
  continues_of_isIdentifier (isIdentifier_stem configured)

/-- A stray name is told by its last character and what is before it, so `Stray` can be decided. -/
theorem stray_iff {name : String} : Stray name ↔
    name.toList.getLast? = some '\n' ∧ isIdentifier name.toList.dropLast = true := by
  constructor
  · rintro ⟨identifier, hidentifier, rfl⟩
    have htext : (identifier ++ "\n").toList = identifier.toList ++ ['\n'] :=
      String.toList_append
    rw [htext, List.getLast?_concat, List.dropLast_concat]
    exact ⟨rfl, hidentifier⟩
  · rintro ⟨hlast, hidentifier⟩
    refine ⟨String.ofList name.toList.dropLast, by rwa [String.toList_ofList], ?_⟩
    obtain ⟨before, hbefore⟩ := List.getLast?_eq_some_iff.1 hlast
    refine String.toList_injective ?_
    rw [String.toList_append, String.toList_ofList, hbefore, List.dropLast_concat]
    rfl

instance : DecidablePred Stray :=
  fun _ ↦ decidable_of_iff _ stray_iff.symm

/-- The names without quotes are the identifiers, and those with a line feed behind. -/
theorem isBare_iff {name : String} :
    isBare name = true ↔ isIdentifier name.toList = true ∨ Stray name := by
  rw [isBare, Bool.or_eq_true, Bool.and_eq_true, decide_eq_true_eq, stray_iff]

/-! ### Quoted keys -/

/-- Separators are written as codes between quotes, and all else as usual; a reader of JSON takes
both. -/
theorem writes_escapeProperty : Json.Writes escapeProperty := by
  intro c
  rw [escapeProperty]
  split
  · next hc =>
    refine .inr ⟨?_, rfl⟩
    rcases hc with rfl | rfl <;> decide
  · exact .inl rfl

/-- A code is written in letters and digits. -/
theorem endsLine_of_mem_codeEscape {c d : Char} (h : d ∈ Quoted.codeEscape c) :
    endsLine d = false := by
  have hdigit (n : Nat) : endsLine (n % 16).digitChar = false := by
    have hall : ∀ m < 16, endsLine m.digitChar = false := by decide
    exact hall _ (Nat.mod_lt n (by decide))
  simp only [Quoted.codeEscape, List.map_cons, List.map_nil, List.mem_cons, List.not_mem_nil,
    or_false] at h
  rcases h with rfl | rfl | rfl | rfl | rfl | rfl
  · rfl
  · rfl
  all_goals exact hdigit _

/-- Between quotes nothing ends a line. -/
theorem endsLine_of_mem_escapeProperty {c d : Char} (h : d ∈ escapeProperty c) :
    endsLine d = false := by
  rw [escapeProperty] at h
  split at h
  · exact endsLine_of_mem_codeEscape h
  · next hseparators =>
    revert d
    rw [Quoted.escape.eq_def]
    split
    iterate 7 simp [endsLine]
    split
    · intro d hd
      exact endsLine_of_mem_codeEscape hd
    · next hprintable =>
      intro d hd
      obtain rfl := List.mem_singleton.1 hd
      rw [← Bool.not_eq_true, endsLine_iff]
      rintro (rfl | rfl | hseparator)
      · exact hprintable (by decide)
      · exact hprintable (by decide)
      · exact hseparators hseparator

/-- All other names are quoted. -/
theorem property_of_not_isBare {name : String} (h : ¬isBare name = true) :
    property name = "\"" ++ String.ofList (name.toList.flatMap escapeProperty) ++ "\"" := by
  refine String.toList_injective ?_
  rw [property, if_neg h, Quoted.quoteWith, String.toList_append, String.toList_append,
    String.toList_ofList, String.toList_ofList, String.toList_ofList]
  rfl

/-- A quoted key denotes its name and is on one line, as every end of line is escaped in it. -/
theorem faithful_of_not_isBare {name : String} (h : ¬isBare name = true) : Faithful name where
  oneLine := by
    rw [property_of_not_isBare h, OneLine.append_iff, OneLine.append_iff]
    refine ⟨⟨by decide, fun d hd ↦ ?_⟩, by decide⟩
    rw [String.toList_ofList] at hd
    obtain ⟨c, -, hc⟩ := List.mem_flatMap.1 hd
    exact endsLine_of_mem_escapeProperty hc
  exact := by
    refine .inr ⟨⟨_, property_of_not_isBare h⟩, ?_⟩
    rw [property, if_neg h]
    exact Json.parse_quoteWith writes_escapeProperty name

/-! ### Bare keys -/

/-- An identifier is a key for itself. -/
theorem faithful_of_isIdentifier {name : String} (h : isIdentifier name.toList = true) :
    Faithful name := by
  have hproperty : property name = name := by rw [property, if_pos (isBare_iff.2 (.inl h))]
  refine ⟨?_, .inl ⟨h, hproperty⟩⟩
  rw [hproperty, ← String.ofList_toList (s := name)]
  exact .of_continues (continues_of_isIdentifier h)

/-- The line feed behind an identifier stays in the key. -/
theorem property_stray {identifier : String} (h : isIdentifier identifier.toList = true) :
    property (identifier ++ "\n") = identifier ++ "\n" := by
  rw [property, if_pos (isBare_iff.2 (.inr ⟨identifier, h, rfl⟩))]

/-- Such a key ends a line. -/
theorem not_oneLine_of_stray {name : String} (h : Stray name) : ¬OneLine (property name) := by
  obtain ⟨identifier, hidentifier, rfl⟩ := h
  rw [property_stray hidentifier, OneLine.append_iff]
  exact fun hline ↦ absurd hline.2 (by decide)

/-- Every key denotes its name exactly and fits on one line, unless the name is an identifier with a
line feed behind it. -/
theorem faithful_iff {name : String} : Faithful name ↔ ¬Stray name := by
  refine ⟨fun hfaithful hstray ↦ not_oneLine_of_stray hstray hfaithful.oneLine, fun hstray ↦ ?_⟩
  by_cases hbare : isBare name = true
  · exact faithful_of_isIdentifier ((isBare_iff.1 hbare).resolve_right hstray)
  · exact faithful_of_not_isBare hbare

/-- It is the only kind of key that does. -/
theorem oneLine_property_iff {name : String} : OneLine (property name) ↔ ¬Stray name :=
  ⟨fun hline hstray ↦ not_oneLine_of_stray hstray hline, fun h ↦ (faithful_iff.2 h).oneLine⟩

/-! ### What keys denote -/

/-- Blanks behind an identifier do not count. An identifier ends in no blank and begins with no
quote, so a reader that drops the blanks at the end is left with it. -/
theorem denoted?_identifier {identifier : String} (h : isIdentifier identifier.toList = true)
    {blanks : List Char} (hblanks : ∀ c ∈ blanks, Json.Reader.isSpace c = true) :
    denoted? (identifier ++ String.ofList blanks) = some identifier := by
  have hspace : ∀ c ∈ identifier.toList, Json.Reader.isSpace c = false := by
    intro c hc
    have hcontinues := continues_of_isIdentifier h c hc
    rw [← Bool.not_eq_true]
    intro hspace
    simp only [Json.Reader.isSpace, Bool.or_eq_true, decide_eq_true_eq] at hspace
    rcases hspace with ((rfl | rfl) | rfl) | rfl <;> exact absurd hcontinues (by decide)
  have hquote : '"' ∉ identifier.toList :=
    fun hmem ↦ absurd (continues_of_isIdentifier h _ hmem) (by decide)
  have hne : identifier.toList ≠ [] := by
    intro hnil
    rw [hnil] at h
    exact Bool.false_ne_true h
  -- of the blanks behind it none belongs to the identifier
  have hbare : (identifier.toList ++ blanks).rdropWhile Json.Reader.isSpace =
      identifier.toList := by
    rw [List.rdropWhile, List.reverse_append,
      List.dropWhile_append_of_pos fun c hc ↦ hblanks c (List.mem_reverse.1 hc)]
    refine List.rdropWhile_eq_self_iff.2 fun _ ↦ ?_
    rw [hspace _ (List.getLast_mem hne)]
    exact Bool.false_ne_true
  have hhead : (identifier.toList ++ blanks).head? ≠ some '"' := by
    rw [List.head?_append_of_ne_nil _ hne]
    exact fun hhead ↦ hquote (List.mem_of_head? hhead)
  rw [denoted?, String.toList_append, String.toList_ofList, if_neg hhead]
  simp only [hbare, h, if_true, String.ofList_toList]

/-- A key denotes its name, unless that is an identifier with a line feed behind it. -/
theorem denoted?_property {name : String} (h : ¬Stray name) :
    denoted? (property name) = some name := by
  rcases (faithful_iff.2 h).exact with ⟨hidentifier, hproperty⟩ | ⟨⟨inside, hinside⟩, hread⟩
  · rw [hproperty]
    simpa using denoted?_identifier hidentifier (List.forall_mem_nil _)
  · have hhead : (property name).toList.head? = some '"' := by
      rw [hinside, String.toList_append, String.toList_append]
      rfl
    rw [denoted?, if_pos hhead, hread]

/-- The line feed behind an identifier is lost. -/
theorem denoted?_property_line_feed {identifier : String}
    (h : isIdentifier identifier.toList = true) :
    denoted? (property (identifier ++ "\n")) = some identifier := by
  rw [property_stray h]
  exact denoted?_identifier h (List.forall_mem_singleton.2 rfl)

/-- The name in front of the line feed is an identifier, so it is not such a name itself. -/
theorem not_stray_of_stray_append {name : String} (h : Stray (name ++ "\n")) : ¬Stray name := by
  obtain ⟨identifier, hidentifier, heq⟩ := h
  obtain rfl := (String.append_left_inj _).1 heq
  exact fun hstray ↦ not_oneLine_of_stray hstray (faithful_of_isIdentifier hidentifier).oneLine

/-- Two keys denote one property only if one name is the other with a line feed behind it. Each key
denotes its name, or its name short of a line feed, which gives four cases. -/
theorem denoted?_property_eq_iff {m n : String} : denoted? (property m) = denoted? (property n) ↔
    m = n ∨ (Stray m ∧ m = n ++ "\n") ∨ (Stray n ∧ n = m ++ "\n") := by
  -- a key denotes its name, or its name without a line feed at the end
  have hdenoted (name : String) : ∃ base, denoted? (property name) = some base ∧
      (name = base ∨ Stray name ∧ name = base ++ "\n") := by
    by_cases h : Stray name
    · obtain ⟨identifier, hidentifier, rfl⟩ := h
      exact ⟨identifier, denoted?_property_line_feed hidentifier,
        .inr ⟨⟨identifier, hidentifier, rfl⟩, rfl⟩⟩
    · exact ⟨name, denoted?_property h, .inl rfl⟩
  constructor
  · intro h
    obtain ⟨base, hm, hbase⟩ := hdenoted m
    obtain ⟨base', hn, hbase'⟩ := hdenoted n
    obtain rfl : base = base' := Option.some.inj (hm.symm.trans (h.trans hn))
    rcases hbase with rfl | ⟨hmstray, rfl⟩ <;> rcases hbase' with rfl | ⟨hnstray, rfl⟩
    · exact .inl rfl
    · exact .inr (.inr ⟨hnstray, rfl⟩)
    · exact .inr (.inl ⟨hmstray, rfl⟩)
    · exact .inl rfl
  · -- a name and the same with a line feed behind it both denote the name
    have hboth : ∀ {name : String}, Stray (name ++ "\n") →
        denoted? (property (name ++ "\n")) = denoted? (property name) := by
      intro name h
      rw [denoted?_property (not_stray_of_stray_append h)]
      obtain ⟨identifier, hidentifier, heq⟩ := h
      obtain rfl := (String.append_left_inj _).1 heq
      exact denoted?_property_line_feed hidentifier
    rintro (rfl | ⟨h, rfl⟩ | ⟨h, rfl⟩)
    · rfl
    · exact hboth h
    · exact (hboth h).symm

end Identifier

end JsonShapes
