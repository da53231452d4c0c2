import JsonShapes.Emit.Module
import JsonShapes.Proofs.Identifier
import JsonShapes.Proofs.Shape.References
import Mathlib

/-!
# Texts in pieces

The text of a shape is made of pieces, some of which are aliases and the others words
(`Shape.pieces`). Written one after another the pieces are the text (`written_pieces`), and the
aliases among them are those of the references in the shape (`aliasOf_mem_pieces_iff`). So what is
said of references is said of the aliases in the text, which a word such as the name of a property
may well look like.

## Why pieces

In the text itself an alias cannot be told from another word. A property may be called `T1`, and
then `T1` is in the text of an object without any reference. The pieces keep the difference: the
recursion that makes them is that of the text, word for word, and `written_pieces` says that nothing
is lost. What is said of imports and of exports is therefore about pieces.
-/

namespace JsonShapes

/-- Different declarations have different aliases. -/
theorem Style.aliasOf_injective (style : Style) : Function.Injective style.aliasOf :=
  Identifier.aliasOf_injective style.stem

/-- A piece of an emitted text. -/
inductive Piece where
  /-- The alias of the declaration with this number. -/
  | aliasOf (id : Int)
  /-- Words that are no alias. -/
  | words (text : String)
deriving DecidableEq, Repr

namespace Piece

/-- The text of a piece. -/
def text (style : Style) : Piece → String
  | .aliasOf id => style.aliasOf id
  | .words text => text

/-- The text of pieces one after another. -/
def written (style : Style) (pieces : List Piece) : String :=
  String.join (pieces.map (text style))

variable (style : Style)

@[simp]
theorem written_nil : written style [] = "" := rfl

@[simp]
theorem written_cons (piece : Piece) (pieces : List Piece) :
    written style (piece :: pieces) = piece.text style ++ written style pieces := by
  rw [written, List.map_cons, String.join_cons, written]

@[simp]
theorem written_append (pieces pieces' : List Piece) :
    written style (pieces ++ pieces') = written style pieces ++ written style pieces' := by
  rw [written, List.map_append, String.join_append, written, written]

/-- Pieces with a word between them are written as texts with that word between them. -/
theorem written_intercalate (separator : String) (parts : List (List Piece)) :
    written style ([words separator].intercalate parts) =
      separator.intercalate (parts.map (written style)) := by
  induction parts with
  | nil => rfl
  | cons part parts ih =>
    cases parts with
    | nil => rw [List.intercalate_singleton, List.map_singleton, String.intercalate_singleton]
    | cons next parts =>
      rw [List.intercalate_cons_cons, written_append, written_append, ih, written_cons, written_nil,
        String.append_empty]
      exact (String.intercalate_cons_cons ..).symm

/-- A word between pieces is no alias. -/
theorem aliasOf_mem_intercalate {id : Int} {separator : String} {parts : List (List Piece)} :
    aliasOf id ∈ [words separator].intercalate parts ↔ ∃ part ∈ parts, aliasOf id ∈ part := by
  induction parts with
  | nil => simp
  | cons part parts ih =>
    cases parts with
    | nil => simp
    | cons next parts =>
      rw [List.intercalate_cons_cons, List.mem_append, List.mem_append, ih]
      simp

end Piece

namespace Shape

open Piece

mutual

/-- The pieces of the text of a shape. -/
def pieces (style : Style) : Shape → List Piece
  | .prim p => [.words p.name]
  | .ref id => [.aliasOf id]
  | .emptyArray => [.words (Primitive.unknown.name ++ "[]")]
  | .array e =>
    if e.isUnion then .words "(" :: e.pieces style ++ [.words ")[]"]
    else e.pieces style ++ [.words "[]"]
  | .union ms =>
    [.words " | "].intercalate (((rankedPieces style ms).mergeSort fun a b ↦ a.1.le b.1).map (·.2))
  | .object fs _ =>
    match fieldPieces style fs with
    | [] => [.words (braced "")]
    | parts =>
      .words (openBrace ++ " ") :: [.words "; "].intercalate parts ++ [.words (" " ++ closeBrace)]
  | .foreign _ => []

/-- The pieces of the members of a union with their ranks. -/
def rankedPieces (style : Style) : List Shape → List (Rank × List Piece)
  | [] => []
  | m :: ms => (m.rank (m.text style), m.pieces style) :: rankedPieces style ms

/-- The pieces of fields. -/
def fieldPieces (style : Style) : List (Field Shape) → List (List Piece)
  | [] => []
  | ⟨name, optional, s⟩ :: fs =>
    (.words (Identifier.property name ++ if optional then "?: " else ": ") :: s.pieces style)
      :: fieldPieces style fs

end

variable {style : Style}

theorem rankedPieces_eq_map (ms : List Shape) :
    rankedPieces style ms = ms.map fun m ↦ (m.rank (m.text style), m.pieces style) := by
  induction ms with
  | nil => rfl
  | cons m ms ih => rw [rankedPieces, ih, List.map_cons]

theorem fieldPieces_eq_map (fs : List (Field Shape)) :
    fieldPieces style fs = fs.map fun f ↦
      .words (Identifier.property f.name ++ if f.optional then "?: " else ": ") ::
        f.content.pieces style := by
  induction fs with
  | nil => rfl
  | cons f fs ih => rw [fieldPieces, ih, List.map_cons]

/-- The pieces of a shape are written as its text. By induction over the shape, with the members of
a union sorted before they are written out as text. -/
theorem written_pieces (s : Shape) : written style (s.pieces style) = s.text style := by
  induction s with
  | array e ih =>
    rw [pieces, text]
    split <;> simp [ih, Piece.text, String.append_assoc]
  | object fs order ih =>
    have hfields : (fieldPieces style fs).map (written style) = fieldTexts style fs := by
      induction fs with
      | nil => rfl
      | cons f fs ihfs =>
        obtain ⟨hf, hfs⟩ := List.forall_mem_cons.1 ih
        rw [fieldPieces, fieldTexts, List.map_cons, ihfs hfs, written_cons, hf]
        rfl
    rw [pieces, text, ← hfields]
    cases fieldPieces style fs with
    | nil => simp [Piece.text]
    | cons part parts => simp [written_intercalate, Piece.text, braced, String.append_assoc]
  | union ms ih =>
    have hmembers : (rankedPieces style ms).map (fun m ↦ (m.1, written style m.2)) =
        rankedTexts style ms := by
      induction ms with
      | nil => rfl
      | cons m ms ihms =>
        obtain ⟨hm, hms⟩ := List.forall_mem_cons.1 ih
        rw [rankedPieces, rankedTexts, List.map_cons, ihms hms, hm]
    -- ranks do not depend on whether a member is given as pieces or as their text
    have hsorted : ((rankedPieces style ms).mergeSort fun a b ↦ a.1.le b.1).map
        (fun m ↦ (m.1, written style m.2)) =
          (rankedTexts style ms).mergeSort fun a b ↦ a.1.le b.1 := by
      rw [← hmembers, List.map_mergeSort]
      exact fun _ _ _ _ ↦ rfl
    rw [pieces, text, written_intercalate, ← hsorted, List.map_map, List.map_map]
    rfl
  | _ => simp [pieces, text, Piece.text]

/-- The aliases in the text of a shape are those of its references. -/
theorem aliasOf_mem_pieces_iff {s : Shape} {id : Int} :
    .aliasOf id ∈ s.pieces style ↔ id ∈ s.references := by
  induction s with
  | prim p => simp [pieces, references]
  | ref id => simp [pieces, references]
  | emptyArray => simp [pieces, references]
  | array e ih =>
    rw [pieces, references, ← ih]
    split <;> simp
  | object fs order ih =>
    have hfields : (∃ part ∈ fieldPieces style fs, .aliasOf id ∈ part) ↔
        id ∈ (object fs order).references := by
      simp only [mem_references_object, fieldPieces_eq_map, List.mem_map,
        exists_exists_and_eq_and]
      exact exists_congr fun f ↦ and_congr_right fun hf ↦ by simpa using ih f hf
    rw [pieces, ← hfields]
    cases fieldPieces style fs with
    | nil => simp
    | cons part parts => simp [aliasOf_mem_intercalate]
  | union ms ih =>
    rw [pieces, aliasOf_mem_intercalate, mem_references_union, rankedPieces_eq_map]
    simp only [List.mem_map, exists_exists_and_eq_and, List.mem_mergeSort]
    exact exists_congr fun m ↦ and_congr_right fun hm ↦ ih m hm
  | foreign thing => simp [pieces, references]

end Shape

end JsonShapes
