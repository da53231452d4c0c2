import JsonShapes.Proofs.Emit.PropertyKeys
import JsonShapes.Proofs.Emit.Ranks
import JsonShapes.Proofs.Run.Module

/-!
# Declarations on one line

The module of all aliases has a line for each declaration, and it is read line by line. What could
break a line is names: those in the labels of places are escaped, and those in the shape are written
as keys (`Declaration.oneLine_written_iff`). So a declaration is on one line if all names in its
shape have keys that are (`property_keys_exact`).

## The course of the proof

* The text of a shape is on one line exactly if the keys of all its names are (`oneLine_text_iff`),
  by induction on the shape; aliases and words never break a line.
* The line of a declaration is that text, an alias before it and the labels of its places behind it.
  Labels are on one line whatever the names in them, because pointers escape what ends a line.
* Which keys are on one line is known (`Identifier.oneLine_property_iff`).

`property_keys_exact` states the condition for keys and for declarations together, and
`line_feed_kept_in_key` shows that it cannot be left out.
-/

namespace JsonShapes

open Identifier

/-! ### Texts of shapes -/

/-- Braces end no line. -/
theorem OneLine.braced_iff {text : String} : OneLine (braced text) ↔ OneLine text := by
  have hopen : OneLine openBrace := by decide
  have hclose : OneLine closeBrace := by decide
  rw [braced, append_iff, append_iff, and_iff_left hclose, and_iff_right hopen]

namespace Shape

/-- The shape has a field of this name, at any depth. -/
inductive Names : Shape → String → Prop
  /-- A field names its own name. -/
  | field {fs : List (Field Shape)} {order : List String} {f : Field Shape} (hf : f ∈ fs) :
      Names (.object fs order) f.name
  /-- It also names what its content does. -/
  | content {fs : List (Field Shape)} {order : List String} {f : Field Shape} {name : String}
      (hf : f ∈ fs) (h : Names f.content name) : Names (.object fs order) name
  | element {e : Shape} {name : String} (h : Names e name) : Names (.array e) name
  | member {ms : List Shape} {m : Shape} {name : String} (hm : m ∈ ms) (h : Names m name) :
      Names (.union ms) name

variable {style : Style} {motive : String → Prop}

theorem forall_names_array_iff {e : Shape} :
    (∀ name, (array e).Names name → motive name) ↔ ∀ name, e.Names name → motive name := by
  refine ⟨fun h name hname ↦ h name (.element hname), fun h name hname ↦ ?_⟩
  cases hname with | element hname => exact h name hname

theorem forall_names_union_iff {ms : List Shape} :
    (∀ name, (union ms).Names name → motive name) ↔
      ∀ m ∈ ms, ∀ name, m.Names name → motive name := by
  refine ⟨fun h m hm name hname ↦ h name (.member hm hname), fun h name hname ↦ ?_⟩
  cases hname with | member hm hname => exact h _ hm name hname

/-- The names in an object are those of its fields and those in their contents. -/
theorem forall_names_object_iff {fs : List (Field Shape)} {order : List String} :
    (∀ name, (object fs order).Names name → motive name) ↔
      ∀ f ∈ fs, motive f.name ∧ ∀ name, f.content.Names name → motive name := by
  refine ⟨fun h f hf ↦ ⟨h _ (.field hf), fun name hname ↦ h name (.content hf hname)⟩,
    fun h name hname ↦ ?_⟩
  cases hname with
  | field hf => exact (h _ hf).1
  | content hf hname => exact (h _ hf).2 name hname

/-- The text of a shape is on one line if the keys of all of its names are. By induction over the
shape: all that is written around names is free of line ends. -/
theorem oneLine_text_iff (hstem : OneLine style.stem) {s : Shape} :
    OneLine (s.text style) ↔ ∀ name, s.Names name → ¬Stray name := by
  induction s with
  | prim p =>
    have hname : OneLine p.name := by cases p <;> decide
    exact iff_of_true hname nofun
  | emptyArray => exact iff_of_true (show OneLine (Primitive.unknown.name ++ "[]") by decide) nofun
  | ref id => exact iff_of_true (OneLine.append_iff.2 ⟨hstem, .toString_int id⟩) nofun
  | foreign thing => exact iff_of_true (show OneLine "" by decide) nofun
  | array e ih =>
    rw [forall_names_array_iff, ← ih, text]
    split
    · rw [OneLine.append_iff, OneLine.append_iff, and_iff_left (by decide),
        and_iff_right (by decide)]
    · rw [OneLine.append_iff, and_iff_left (by decide)]
  | union ms ih =>
    -- in whatever order the members are written
    rw [forall_names_union_iff, text, OneLine.intercalate_iff (by decide), rankedTexts_eq_map,
      List.forall_mem_map]
    simp only [List.mem_mergeSort, List.forall_mem_map, ranked]
    exact forall₂_congr ih
  | object fs order ih =>
    have hfield : ∀ f ∈ fs,
        (OneLine (property f.name ++ (if f.optional then "?: " else ": ") ++ f.content.text style) ↔
          ¬Stray f.name ∧ ∀ name, f.content.Names name → ¬Stray name) := by
      intro f hf
      have hmark : OneLine (if f.optional then "?: " else ": ") := by split <;> decide
      rw [OneLine.append_iff, OneLine.append_iff, and_iff_left hmark, oneLine_property_iff,
        ih f hf]
    rw [forall_names_object_iff, text, fieldTexts_eq_map]
    split
    · next hnil =>
      rw [List.map_eq_nil_iff] at hnil
      subst hnil
      exact iff_of_true (by decide) (List.forall_mem_nil _)
    · rw [OneLine.braced_iff, OneLine.append_iff, OneLine.append_iff, and_iff_left (by decide),
        and_iff_right (by decide), OneLine.intercalate_iff (by decide), List.forall_mem_map]
      exact forall₂_congr hfield

end Shape

/-! ### Lines of declarations -/

/-- An alias has no end of line, whatever is configured. -/
theorem Identifier.oneLine_stem (configured : Option String) : OneLine (stem configured) := by
  rw [← String.ofList_toList (s := stem configured)]
  exact .of_continues (continues_of_mem_stem configured)

/-- The line of a declaration is one line exactly if the text of its shape is. -/
theorem Declaration.oneLine_written_iff {style : Style} (hstem : OneLine style.stem)
    {d : Declaration} {exported : Bool} :
    OneLine (d.written style exported) ↔ ∀ name, d.shape.Names name → ¬Stray name := by
  have halias : OneLine (style.aliasOf d.id) := OneLine.append_iff.2 ⟨hstem, .toString_int d.id⟩
  have hmark : OneLine (if exported then "export " else "") := by split <;> decide
  have hplaces : OneLine (", ".intercalate (d.places.map Pointer.singleLine)) := by
    refine (OneLine.intercalate_iff (by decide)).2 ?_
    exact List.forall_mem_map.2 fun place _ ↦ .singleLine place
  have hbody : OneLine (Piece.written style (d.pieces style)) ↔ OneLine (d.shape.text style) := by
    have hopen : OneLine (expander ++ "<") := by decide
    have hclose : OneLine ">" := by decide
    rw [pieces, ← Shape.written_pieces]
    split
    · simp [Piece.text, hopen, hclose]
    · rfl
  rw [← Shape.oneLine_text_iff hstem, ← hbody, written]
  have hkeyword : OneLine "type " := by decide
  have hequals : OneLine " = " := by decide
  have hcomment : OneLine "; // " := by decide
  simp only [OneLine.append_iff, hmark, hkeyword, halias, hequals, hcomment, hplaces, and_true,
    true_and]

/-- Keys are exact and declarations keep to their lines, but for names that are an identifier with a
line feed behind it. Every other name has a key that fits on one line, and is the name as an
identifier or spells it in quotes; so two keys denote the same property only if one name is the
other with a line feed behind it, which stands for the other. And the declaration of any shape is on
one line, whatever the labels of its places, exactly if there is no such name in the shape. -/
theorem property_keys_exact (name other : String) {style : Style} (hstem : OneLine style.stem)
    {d : Declaration} (hforeign : d.shape.foreigns = []) (exported : Bool) :
    (Faithful name ↔ ¬Stray name) ∧
      (¬Stray name → denoted? (property name) = some name) ∧
      (isIdentifier name.toList = true → denoted? (property (name ++ "\n")) = some name) ∧
      (denoted? (property name) = denoted? (property other) ↔
        name = other ∨ (Stray name ∧ name = other ++ "\n") ∨
          (Stray other ∧ other = name ++ "\n")) ∧
      (∀ configured, OneLine (stem configured)) ∧
      ∃ line, d.line style exported = .ok line ∧
        (OneLine line ↔ ∀ name, d.shape.Names name → ¬Stray name) :=
  ⟨faithful_iff, denoted?_property, denoted?_property_line_feed, denoted?_property_eq_iff,
    oneLine_stem, _, Declaration.line_eq_ok hforeign exported,
    Declaration.oneLine_written_iff hstem⟩

/-- Names with an end of line, a quote and a line separator in them, the first one inside a union,
in an array that was seen at a place of two lines. -/
theorem property_keys_exact_quoted :
    let inner : Shape := .object [⟨"a\nb", true, .prim .null⟩] ["a\nb"]
    let s : Shape := .array (.object [⟨"\"", false, .union [inner, .emptyArray]⟩,
      ⟨"\u2028", false, .ref 1⟩, ⟨"a", false, .prim .number⟩] ["a", "\"", "\u2028"])
    let d : Declaration := ⟨2, s, "", ["a\nb.json"]⟩
    (OneLine Style.standard.stem ∧ d.shape.foreigns = []) ∧
      (∃ line, d.line .standard true = .ok line ∧ OneLine line) ∧
      Faithful "a\nb" ∧ denoted? (property "a\nb") = some "a\nb" ∧
      denoted? (property "a\nb") ≠ denoted? (property "ab") := by
  intro inner s d
  have hstem : OneLine Style.standard.stem := by decide
  have hforeign : d.shape.foreigns = [] := by decide
  obtain ⟨hfaithful, hdenoted, -, hdistinct, -, line, hok, honeLine⟩ :=
    property_keys_exact "a\nb" "ab" hstem hforeign true
  have hnames : ∀ name, d.shape.Names name → ¬Stray name := by
    simp only [d, s, inner, Shape.forall_names_array_iff, Shape.forall_names_object_iff,
      Shape.forall_names_union_iff, List.forall_mem_cons, List.not_mem_nil, false_imp_iff,
      implies_true, and_true]
    exact ⟨⟨by decide, ⟨by decide, nofun⟩, nofun⟩, ⟨by decide, nofun⟩, by decide, nofun⟩
  have hstray : ¬Stray "a\nb" := by decide
  refine ⟨⟨hstem, hforeign⟩, ⟨line, hok, honeLine.2 hnames⟩, hfaithful.2 hstray, hdenoted hstray,
    fun h ↦ ?_⟩
  exact absurd (hdistinct.1 h) (by decide)

/-- An identifier with a line feed behind it is a key as it stands: the key ends a line, and denotes
the property whose name is the identifier. -/
theorem line_feed_kept_in_key :
    let s : Shape := .object [⟨"a", false, .prim .number⟩, ⟨"a\n", false, .prim .string⟩]
      ["a", "a\n"]
    let d : Declaration := ⟨1, s, "", ["a.json"]⟩
    let line := "type T1 = \x7b a: number; a\n: string \x7d; // a.json"
    property "a\n" = "a\n" ∧ ¬OneLine (property "a\n") ∧
      denoted? (property "a") = denoted? (property "a\n") ∧
      s.text .standard = "\x7b a: number; a\n: string \x7d" ∧
      d.line ⟨"T", "_common", false⟩ false = .ok line ∧ ¬OneLine line := by
  intro s d line
  exact ⟨by decide, by decide, by cbv, by cbv, by cbv, by decide⟩

end JsonShapes
