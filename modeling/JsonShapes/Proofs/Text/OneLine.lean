import JsonShapes.Identifier
import JsonShapes.Pointer
import Mathlib.Data.Nat.Digits.Defs

/-!
# Texts on one line

A text fits on one line if no character of it ends a line in the emitted language (`OneLine`), as
texts made of characters of identifiers do, and all texts once the ends of line are escaped.

Being on one line is a matter of single characters, so it passes to texts that are put together and
to their parts (`append_iff`, `intercalate_iff`): whether an emitted line is one is decided by the
texts that come into it from outside.
-/

namespace JsonShapes

/-- Whether a character ends a line in the emitted language. -/
def endsLine (c : Char) : Bool :=
  c = '\n' || c = '\r' || c = '\u2028' || c = '\u2029'

theorem endsLine_iff {c : Char} :
    endsLine c = true ↔ c = '\n' ∨ c = '\r' ∨ c = '\u2028' ∨ c = '\u2029' := by
  simp [endsLine, or_assoc]

/-- A text without ends of line. -/
def OneLine (text : String) : Prop :=
  ∀ c ∈ text.toList, endsLine c = false

instance : DecidablePred OneLine :=
  fun text ↦ decidable_of_iff (text.toList.all (!endsLine ·) = true) (by simp [OneLine])

theorem isDigit_of_mem_repr {n : Nat} {c : Char} (h : c ∈ (Nat.repr n).toList) :
    c.isDigit = true := by
  rw [Nat.repr, String.toList_ofList] at h
  exact Nat.isDigit_of_mem_toDigits (by decide) (by decide) h

namespace OneLine

@[simp]
theorem append_iff {s t : String} : OneLine (s ++ t) ↔ OneLine s ∧ OneLine t := by
  rw [OneLine, String.toList_append, List.forall_mem_append]
  rfl

/-- Texts with a separator between them are on one line exactly if all are, as long as the separator
is. -/
theorem intercalate_iff {separator : String} (h : OneLine separator) {texts : List String} :
    OneLine (separator.intercalate texts) ↔ ∀ text ∈ texts, OneLine text := by
  induction texts with
  | nil => exact iff_of_true (show OneLine "" by decide) (List.forall_mem_nil _)
  | cons text texts ih =>
    cases texts with
    | nil => simp
    | cons next texts =>
      rw [String.intercalate_cons_cons, append_iff, append_iff, ih, and_iff_left h]
      exact List.forall_mem_cons.symm

/-- Identifiers and what is left of a text when an identifier is made of it have no ends of line. -/
theorem of_continues {text : List Char} (h : ∀ c ∈ text, Identifier.continues c = true) :
    OneLine (String.ofList text) := by
  intro c hc
  rw [String.toList_ofList] at hc
  have hcontinues := h c hc
  rw [← Bool.not_eq_true, endsLine_iff]
  rintro (rfl | rfl | rfl | rfl) <;> exact absurd hcontinues (by decide)

/-- A whole number is on one line, with or without a sign. -/
theorem toString_int (n : Int) : OneLine (toString n) := by
  have hnat (m : Nat) : OneLine (Nat.repr m) := by
    rw [← String.ofList_toList (s := Nat.repr m)]
    refine of_continues fun c hc ↦ ?_
    simp [Identifier.continues, Char.isAlphanum, isDigit_of_mem_repr hc]
  cases n with
  | ofNat m => exact hnat m
  | negSucc m => exact append_iff.2 ⟨by decide, hnat (m + 1)⟩

/-- Where the ends of line are escaped, none is left. -/
theorem flatMap_escapeLineEnd (text : List Char) :
    OneLine (String.ofList (text.flatMap Pointer.escapeLineEnd)) := by
  have hescape (c : Char) : ∀ d ∈ Pointer.escapeLineEnd c, endsLine d = false := by
    rw [Pointer.escapeLineEnd.eq_def]
    split
    · simp [endsLine]
    · simp [endsLine]
    · simp [endsLine]
    · simp [endsLine]
    · simp_all [endsLine]
  intro c hc
  rw [String.toList_ofList] at hc
  obtain ⟨d, -, hd⟩ := List.mem_flatMap.1 hc
  exact hescape d c hd

/-- Every text is on one line once it is written as `Pointer.singleLine` writes it. -/
theorem singleLine (text : String) : OneLine (Pointer.singleLine text) :=
  flatMap_escapeLineEnd text.toList

end OneLine

end JsonShapes
