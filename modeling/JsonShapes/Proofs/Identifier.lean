import JsonShapes.Emit.Module
import JsonShapes.Proofs.Text.OneLine
import Mathlib

/-!
# Identifiers and aliases

Of every text an identifier is made, and an identifier is left as it is (`isIdentifier_normalize`,
`normalize_eq_self`). So every stem of aliases is an identifier, whatever is configured, and is
still one with the number of a declaration behind it. Since the number is written in digits,
different declarations have different aliases even where the stem ends in digits, and no alias is
taken for another word of the emitted module (`aliasOf_ne`), all of which are spelled with letters.

Characters are compared by their code points (`starts_iff`, `isDigit_iff`), where all that may stand
in an identifier lies in four ranges below 128. That is why cleaning a text twice is the same as
cleaning it once, and why an alias needs no quotes and no encoding wherever it is written.
-/

namespace JsonShapes.Identifier

variable {text more : List Char} {name fallback : String}

/-! ### Identifiers -/

/-- Digits as a range of code points, in the form in which `omega` compares them. -/
theorem isDigit_iff {c : Char} : c.isDigit = true ↔ 48 ≤ c.toNat ∧ c.toNat ≤ 57 := by
  simp only [Char.isDigit, Bool.and_eq_true, decide_eq_true_eq, UInt32.le_iff_toNat_le, ge_iff_le]
  rfl

/-- What may begin an identifier, as ranges of code points: `$`, `_` and the letters. -/
theorem starts_iff {c : Char} : starts c = true ↔ c.toNat = 36 ∨ c.toNat = 95 ∨
    (65 ≤ c.toNat ∧ c.toNat ≤ 90) ∨ 97 ≤ c.toNat ∧ c.toNat ≤ 122 := by
  have hdollar : c = '$' ↔ c.toNat = 36 := (Char.toNat_inj (d := '$')).symm
  have hunderscore : c = '_' ↔ c.toNat = 95 := (Char.toNat_inj (d := '_')).symm
  simp only [starts, Char.isAlpha, Char.isUpper, Char.isLower, Bool.or_eq_true, Bool.and_eq_true,
    decide_eq_true_eq, UInt32.le_iff_toNat_le, ge_iff_le, hdollar, hunderscore]
  show ((65 ≤ c.toNat ∧ c.toNat ≤ 90 ∨ 97 ≤ c.toNat ∧ c.toNat ≤ 122) ∨ _) ∨ _ ↔ _
  omega

/-- What may stand inside an identifier may begin it unless it is a digit. -/
theorem continues_iff {c : Char} : continues c = true ↔ starts c = true ∨ c.isDigit = true := by
  simp only [continues, starts, Char.isAlphanum, Bool.or_eq_true]
  tauto

/-- An identifier never begins with a digit, which is what `normalize` has to mend. -/
theorem not_isDigit_of_starts {c : Char} (h : starts c = true) : c.isDigit = false := by
  rw [← Bool.not_eq_true, isDigit_iff]
  rw [starts_iff] at h
  omega

/-- Identifiers are ASCII. -/
theorem toNat_lt_of_continues {c : Char} (h : continues c = true) : c.toNat < 128 := by
  rw [continues_iff, starts_iff, isDigit_iff] at h
  omega

/-- All characters of an identifier, the first among them, may stand inside one. -/
theorem continues_of_isIdentifier (h : isIdentifier text = true) :
    ∀ c ∈ text, continues c = true := by
  cases text with
  | nil => exact List.forall_mem_nil _
  | cons c rest =>
    rw [isIdentifier, Bool.and_eq_true, List.all_eq_true] at h
    exact List.forall_mem_cons.2 ⟨continues_iff.2 (.inl h.1), h.2⟩

/-- An identifier may be continued, as a stem is by the number of a declaration. -/
theorem isIdentifier_append (h : isIdentifier text = true)
    (hmore : ∀ c ∈ more, continues c = true) : isIdentifier (text ++ more) = true := by
  cases text with
  | nil => exact nomatch h
  | cons c rest =>
    rw [isIdentifier, Bool.and_eq_true] at h
    rw [List.cons_append, isIdentifier, Bool.and_eq_true, List.all_append, Bool.and_eq_true]
    exact ⟨h.1, h.2, List.all_eq_true.2 hmore⟩

/-! ### Identifiers made of texts -/

/-- Whatever the text, what is made of it is an identifier, provided that the fallback is one: a
text of which nothing is left is replaced by the fallback, and one that begins with a digit is put
behind it. -/
theorem isIdentifier_normalize (text : String) (h : isIdentifier fallback.toList = true) :
    isIdentifier (normalize text fallback).toList = true := by
  have hkept : ∀ c ∈ text.toList.filter continues, continues c = true :=
    fun c hc ↦ (List.mem_filter.1 hc).2
  rw [normalize]
  split
  · exact h
  · next c rest hfilter =>
    rw [hfilter] at hkept
    split
    · rw [String.toList_append, String.toList_ofList]
      exact isIdentifier_append h hkept
    · next hdigit =>
      obtain ⟨hc, hrest⟩ := List.forall_mem_cons.1 hkept
      rw [String.toList_ofList, isIdentifier, Bool.and_eq_true, List.all_eq_true]
      exact ⟨(continues_iff.1 hc).resolve_right hdigit, hrest⟩

/-- An identifier is made of itself. -/
theorem normalize_eq_self (h : isIdentifier name.toList = true) (fallback : String) :
    normalize name fallback = name := by
  have hfilter : name.toList.filter continues = name.toList :=
    List.filter_eq_self.2 (continues_of_isIdentifier h)
  rw [normalize, hfilter]
  split
  · next hnil => exact nomatch (hnil ▸ h)
  · next c rest hname =>
    rw [hname, isIdentifier, Bool.and_eq_true] at h
    rw [if_neg (Bool.eq_false_iff.1 (not_isDigit_of_starts h.1)), ← hname, String.ofList_toList]

/-! ### Stems -/

/-- There is no text that configures a stem which could not begin an alias. -/
theorem isIdentifier_stem (configured : Option String) :
    isIdentifier (stem configured).toList = true :=
  isIdentifier_normalize _ rfl

/-- An identifier is taken as a stem as it is. -/
theorem stem_eq_self (h : isIdentifier name.toList = true) : stem (some name) = name :=
  normalize_eq_self h _

/-! ### Aliases -/

/-- A positive number is written in digits only; a negative one would bring its sign into the alias.
-/
theorem isDigit_of_mem_toString {id : Int} (h : 0 < id) :
    ∀ c ∈ (toString id).toList, c.isDigit = true := by
  cases id with
  | ofNat n => exact fun c hc ↦ isDigit_of_mem_repr hc
  | negSucc n => exact absurd h (by omega)

/-- A number is written with a digit at least. -/
theorem exists_isDigit_mem_toString (id : Int) : ∃ c ∈ (toString id).toList, c.isDigit = true := by
  have hnat (n : Nat) : ∃ c ∈ (Nat.repr n).toList, c.isDigit = true := by
    obtain ⟨c, hc⟩ := List.exists_mem_of_ne_nil (Nat.toDigits 10 n) Nat.toDigits_ne_nil
    have hmem : c ∈ (Nat.repr n).toList := by rwa [Nat.repr, String.toList_ofList]
    exact ⟨c, hmem, isDigit_of_mem_repr hmem⟩
  cases id with
  | ofNat n => exact hnat n
  | negSucc n =>
    obtain ⟨c, hc, hdigit⟩ := hnat (n + 1)
    have htext : (toString (Int.negSucc n)).toList = '-' :: (Nat.repr (n + 1)).toList :=
      String.toList_append (s := "-")
    exact ⟨c, htext ▸ List.mem_cons_of_mem _ hc, hdigit⟩

theorem isIdentifier_aliasOf (h : isIdentifier name.toList = true) {id : Int} (hid : 0 < id) :
    isIdentifier (aliasOf name id).toList = true := by
  rw [aliasOf, String.toList_append]
  exact isIdentifier_append h fun c hc ↦ continues_iff.2 (.inr (isDigit_of_mem_toString hid c hc))

/-- Numbers are told apart by what is behind the stem, even if the stem ends in digits. -/
theorem aliasOf_injective (stem : String) : Function.Injective (aliasOf stem) :=
  fun _ _ h ↦ Int.repr_injective ((String.append_right_inj _).1 h)

/-- No alias is a word without digits. -/
theorem aliasOf_ne {word : String} (h : ∀ c ∈ word.toList, c.isDigit = false) (stem : String)
    (id : Int) : aliasOf stem id ≠ word := by
  rintro rfl
  obtain ⟨c, hc, hdigit⟩ := exists_isDigit_mem_toString id
  rw [h c (by rw [aliasOf, String.toList_append]; exact List.mem_append_right _ hc)] at hdigit
  exact Bool.false_ne_true hdigit

/-- The name of the wrapper has no digit in it, so `aliasOf_ne` tells it from all aliases. -/
theorem isDigit_of_mem_expander : ∀ c ∈ expander.toList, c.isDigit = false :=
  List.forall_mem_singleton (a := 'C').2 rfl

/-- No primitive shape has a digit in its name, so `aliasOf_ne` tells it from all aliases. -/
theorem isDigit_of_mem_primitiveName (p : Primitive) :
    ∀ c ∈ p.name.toList, c.isDigit = false := by
  have hall : p.name.toList.all (fun c ↦ !c.isDigit) = true := by cases p <;> rfl
  simpa using List.all_eq_true.1 hall

/-- Whatever is configured, the stem of aliases is an identifier. It is what is configured if that
is an identifier, so a stem is left as it is when it is configured again. The alias of a declaration
is an identifier and ASCII, no other declaration has the same, and it is neither the name of the
wrapper of objects nor that of a primitive shape. -/
theorem aliases_legal (configured : Option String) {i : Int} (hi : 0 < i) (j : Int) :
    (isIdentifier (stem configured).toList = true ∧
      stem (some (stem configured)) = stem configured ∧
      ∀ name, configured = some name → isIdentifier name.toList = true →
        stem configured = name) ∧
    isIdentifier (aliasOf (stem configured) i).toList = true ∧
    (∀ c ∈ (aliasOf (stem configured) i).toList, c.toNat < 128) ∧
    (aliasOf (stem configured) i = aliasOf (stem configured) j → i = j) ∧
    aliasOf (stem configured) i ≠ expander ∧
    ∀ p : Primitive, aliasOf (stem configured) i ≠ p.name := by
  have hstem := isIdentifier_stem configured
  have hi := isIdentifier_aliasOf hstem hi
  refine ⟨⟨hstem, stem_eq_self hstem, ?_⟩, hi,
    fun c hc ↦ toNat_lt_of_continues (continues_of_isIdentifier hi c hc),
    fun h ↦ aliasOf_injective _ h, aliasOf_ne isDigit_of_mem_expander _ i,
    fun p ↦ aliasOf_ne (isDigit_of_mem_primitiveName p) _ i⟩
  rintro name rfl hname
  exact stem_eq_self hname

/-- A stem that begins with the standard one, as a digit comes first in what is configured, and that
ends in a digit. -/
theorem aliases_legal_digits : stem (some "9 bad-1") = "T9bad1" ∧ 0 < (12 : Int) ∧
    (stem (some "T9bad1") = "T9bad1" ∧ isIdentifier (aliasOf "T9bad1" 12).toList = true ∧
      aliasOf "T9bad1" 12 ≠ aliasOf "T9bad1" 2 ∧ aliasOf "T9bad1" 12 ≠ expander ∧
      aliasOf "T9bad1" 12 ≠ Primitive.unknown.name) := by
  have hstem : stem (some "9 bad-1") = "T9bad1" := by cbv
  have hid : 0 < (12 : Int) := by decide
  obtain ⟨⟨-, hagain, -⟩, hidentifier, -, hdifferent, hexpander, hprimitive⟩ :=
    aliases_legal (some "9 bad-1") hid 2
  rw [hstem] at hagain hidentifier hdifferent hexpander hprimitive
  exact ⟨hstem, hid, hagain, hidentifier, fun h ↦ absurd (hdifferent h) (by decide), hexpander,
    hprimitive _⟩

end JsonShapes.Identifier
