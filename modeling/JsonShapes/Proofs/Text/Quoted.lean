import JsonShapes.Text.Digits
import JsonShapes.Text.Quoted
import Mathlib.Data.String.Basic

/-!
# Quoted text ends where it says

A text in quotes can be told apart from whatever is written behind it: of two texts that begin with
one, the quoted texts and the rests are the same (`quote_append_inj`). What a character is written
as is read back by `unescape`, and no character is written with a quote in front, so the closing
quote is the first one that is met.
-/

namespace JsonShapes.Quoted

/-- Reads a character, as it is written between quotes, off the front of a text. -/
def unescape : List Char → Option (Char × List Char)
  | '\\' :: 'u' :: a :: b :: c :: d :: rest =>
    (hexNumber? [a, b, c, d]).map fun n ↦ (Char.ofNat n, rest)
  | '\\' :: 'n' :: rest => some ('\n', rest)
  | '\\' :: 'r' :: rest => some ('\r', rest)
  | '\\' :: 't' :: rest => some ('\t', rest)
  | '\\' :: 'f' :: rest => some ('\x0c', rest)
  | '\\' :: 'b' :: rest => some ('\x08', rest)
  | '\\' :: c :: rest => some (c, rest)
  | c :: rest => some (c, rest)
  | [] => none

theorem hexDigit?_digitChar {n : Nat} (h : n < 16) : hexDigit? n.digitChar = some n := by
  revert n
  decide

/-- Four digits spell the number that they were made of. -/
theorem hexNumber?_digits {n : Nat} (h : n < 0x10000) :
    hexNumber? ([n / 0x1000 % 16, n / 0x100 % 16, n / 0x10 % 16, n % 16].map Nat.digitChar) =
      some n := by
  have hdigit : ∀ m, hexDigit? (m % 16).digitChar = some (m % 16) :=
    fun m ↦ hexDigit?_digitChar (Nat.mod_lt m (by decide))
  simp only [hexNumber?, List.map_cons, List.map_nil, List.foldlM_cons, List.foldlM_nil, hdigit,
    Option.map_some, Option.bind_eq_bind, Option.bind_some, Option.pure_def, Option.some.injEq]
  omega

/-- A control character is read back from its code. -/
theorem unescape_codeEscape {c : Char} (h : c.toNat < 0x20) (rest : List Char) :
    unescape (codeEscape c ++ rest) = some (c, rest) := by
  have hnumber := hexNumber?_digits (show c.toNat < 0x10000 by omega)
  simp only [List.map_cons, List.map_nil] at hnumber
  simp only [codeEscape, List.map_cons, List.map_nil, List.cons_append, List.nil_append, unescape,
    hnumber, Option.map_some, Char.ofNat_toNat]

/-- What a character is written as is read back, whatever follows it. -/
theorem unescape_escape (c : Char) (rest : List Char) :
    unescape (escape c ++ rest) = some (c, rest) := by
  rw [escape.eq_def]
  split <;> try rfl
  rename_i hbackslash _ _ _ _ _
  split
  · exact unescape_codeEscape ‹_› rest
  · rw [List.singleton_append, unescape.eq_def]
    split <;> simp_all

/-- No character is written with a quote in front. -/
theorem escape_append_ne (c : Char) (rest rest' : List Char) :
    escape c ++ rest ≠ '"' :: rest' := by
  rw [escape.eq_def]
  split <;> try simp
  split
  · simp [codeEscape]
  · simp_all

/-- Texts between quotes are the same, and so is what follows, if they are written the same. -/
theorem flatMap_escape_inj {cs ds r r' : List Char}
    (h : cs.flatMap escape ++ '"' :: r = ds.flatMap escape ++ '"' :: r') : cs = ds ∧ r = r' := by
  induction cs generalizing ds with
  | nil =>
    cases ds with
    | nil => exact ⟨rfl, (List.cons.inj h).2⟩
    | cons d ds =>
      rw [List.flatMap_cons, List.append_assoc] at h
      exact absurd h.symm (escape_append_ne d _ _)
  | cons c cs ih =>
    cases ds with
    | nil =>
      rw [List.flatMap_cons, List.append_assoc] at h
      exact absurd h (escape_append_ne c _ _)
    | cons d ds =>
      rw [List.flatMap_cons, List.flatMap_cons, List.append_assoc, List.append_assoc] at h
      -- reading one character back leaves the rest of either text
      have hread := congrArg unescape h
      rw [unescape_escape, unescape_escape, Option.some.injEq, Prod.mk.injEq] at hread
      obtain ⟨rfl, hrest⟩ := ih hread.2
      exact ⟨by rw [hread.1], hrest⟩

theorem toList_quote (s : String) :
    (quote s).toList = '"' :: (s.toList.flatMap escape ++ ['"']) := by
  rw [quote, quoteWith, String.toList_ofList]

/-- Of two texts that begin with a text in quotes, the quoted texts and the rests are the same. -/
theorem quote_append_inj {s t : String} {r r' : List Char}
    (h : (quote s).toList ++ r = (quote t).toList ++ r') : s = t ∧ r = r' := by
  simp only [toList_quote, List.cons_append, List.append_assoc, List.nil_append, List.cons.injEq,
    true_and] at h
  obtain ⟨hst, hr⟩ := flatMap_escape_inj h
  exact ⟨String.toList_injective hst, hr⟩

end JsonShapes.Quoted
