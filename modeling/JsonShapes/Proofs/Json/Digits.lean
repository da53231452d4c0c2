import JsonShapes.Document
import Mathlib.Data.List.TakeWhile
import Mathlib.Tactic.Common
import Mathlib.Tactic.IntervalCases

/-!
# Numbers that are too long

A text of digits only, more of them than are accepted and no zero in front, is no JSON that is
malformed: it is refused for its length (`Document.read_of_digits`).

The octets are ASCII, so they decode to themselves (`Utf8.decode_of_ascii`), and there is no end of
line to unify. What the reader does with the digits is then followed from the inside out, from the
number to the value and the document.

The length of a number is asked for when its last digit is read, so anything before it may be at
fault first. In a text of nothing but digits nothing is, and how many they are decides alone.
-/

namespace JsonShapes

namespace Utf8

/-- Octets of ASCII characters are these characters. -/
theorem decode_of_ascii {octets : List UInt8} (h : ∀ octet ∈ octets, octet.toNat < 0x80) :
    decode octets = .ok (octets.map fun octet ↦ Char.ofNat octet.toNat) := by
  have hsteps : ∀ decoded : List Char,
      octets.foldlM (fun state octet ↦ step state octet.toNat) (decoded, .between) =
        .ok ((octets.map fun octet ↦ Char.ofNat octet.toNat).reverse ++ decoded, .between) := by
    induction octets with
    | nil => exact fun _ ↦ rfl
    | cons octet octets ih =>
      obtain ⟨hoctet, hrest⟩ := List.forall_mem_cons.1 h
      intro decoded
      rw [List.foldlM_cons, step, if_pos hoctet]
      refine (ih hrest _).trans ?_
      rw [List.map_cons, List.reverse_cons, List.append_assoc, List.singleton_append]
  rw [decode, hsteps]
  show Except.ok (List.reverse _) = _
  rw [List.append_nil, List.reverse_reverse]

end Utf8

/-- Ends of line that are line feeds stay as they are. -/
theorem Newline.unify_eq_self {text : List Char} (h : '\r' ∉ text) : unify text = text := by
  have hgo : ∀ done, unify.go done text = done.reverse ++ text := by
    induction text with
    | nil => exact fun done ↦ (List.append_nil _).symm
    | cons c text ih =>
      obtain ⟨hc, htext⟩ := not_or.1 (List.mem_cons.not.1 h)
      intro done
      rw [unify.go, ih htext, List.reverse_cons, List.append_assoc, List.singleton_append]
      · exact fun rest hr _ ↦ hc hr.symm
      · exact fun hr ↦ hc hr.symm
  exact hgo []

namespace Json

namespace Reader

variable {text : List Char}

/-- Digits that are too many are read to the end, and then refused for their number. -/
theorem unsigned_of_digits (h : ∀ c ∈ text, isDigit c = true) (hzero : text.head? ≠ some '0')
    (hlong : maxIntegerDigits < text.length) (negative : Bool) :
    unsigned text negative text (Nat.le_refl _) = .error .integerTooLong := by
  cases text with
  | nil => exact absurd hlong (Nat.not_lt_zero _)
  | cons d rest =>
    obtain ⟨hd, hrest⟩ := List.forall_mem_cons.1 h
    have hne : d ≠ '0' := fun heq ↦ hzero (congrArg some heq)
    have htake : rest.takeWhile isDigit = rest := List.takeWhile_eq_self_iff.2 hrest
    have hdrop : rest.dropWhile isDigit = [] := List.dropWhile_eq_nil_iff.2 hrest
    rw [unsigned, if_pos hd]
    simp only [if_neg hne, htake, hdrop, fraction, exponent, assemble, if_pos hlong]
    rfl

/-- A text of digits is none of the words that are values, and it has no sign. -/
theorem scalar_of_digits (h : ∀ c ∈ text, isDigit c = true) (hzero : text.head? ≠ some '0')
    (hlong : maxIntegerDigits < text.length) : scalar text = .error .integerTooLong := by
  have hdigit : ∀ c, text.head? = some c → isDigit c = true := fun c hc ↦
    h c (List.mem_of_head? hc)
  have hwords : (words.findSome? fun word ↦ word? word.1 word.2 text) = none := by
    have hfirst : ∀ word ∈ words, ∃ c rest, word.1 = c :: rest ∧ isDigit c = false := by
      simp only [words, List.forall_mem_cons, List.not_mem_nil, false_imp_iff, implies_true,
        and_true]
      exact ⟨⟨_, _, rfl, rfl⟩, ⟨_, _, rfl, rfl⟩, ⟨_, _, rfl, rfl⟩, ⟨_, _, rfl, rfl⟩,
        ⟨_, _, rfl, rfl⟩, ⟨_, _, rfl, rfl⟩⟩
    rw [List.findSome?_eq_none_iff]
    rintro ⟨expected, value⟩ hword
    obtain ⟨c, rest, rfl, hc⟩ := hfirst _ hword
    refine dif_neg fun h ↦ ?_
    obtain ⟨-, more, hmore⟩ := h
    have hhead := hdigit c (by rw [← hmore]; rfl)
    exact Bool.false_ne_true (hc.symm.trans hhead)
  have hminus : text.head? ≠ some '-' := fun hhead ↦
    Bool.false_ne_true (hdigit '-' hhead)
  rw [scalar, hwords]
  simp only [if_neg hminus, unsigned_of_digits h hzero hlong]
  rfl

/-- Neither a mark nor a blank stands before the digits, and nothing behind them is looked at. -/
theorem document_of_digits (h : ∀ c ∈ text, isDigit c = true) (hzero : text.head? ≠ some '0')
    (hlong : maxIntegerDigits < text.length) (standIn : Char) :
    document standIn text = .error .integerTooLong := by
  have hvalue : value standIn text = .error .integerTooLong := by
    -- a digit opens no text, no array and no object
    have hscalar := scalar_of_digits h hzero hlong
    rw [value.eq_def]
    split
    · exact absurd (h '"' List.mem_cons_self) (by decide)
    · exact absurd (h '[' List.mem_cons_self) (by decide)
    · exact absurd (h '\x7b' List.mem_cons_self) (by decide)
    · exact hscalar
  obtain ⟨d, rest, rfl⟩ : ∃ d rest, text = d :: rest := by
    refine List.exists_cons_of_ne_nil ?_
    rintro rfl
    exact absurd hlong (Nat.not_lt_zero _)
  obtain ⟨hd, -⟩ := List.forall_mem_cons.1 h
  have hspace : isSpace d = false := by
    rw [← Bool.not_eq_true]
    intro hspace
    simp only [isSpace, Bool.or_eq_true, decide_eq_true_eq] at hspace
    rcases hspace with ((rfl | rfl) | rfl) | rfl <;> exact absurd hd (by decide)
  have hskip : skip (d :: rest) = d :: rest := List.dropWhile_cons_of_neg (by simp [hspace])
  have hmark : (d :: rest).head? ≠ some '\uFEFF' := by
    rintro hhead
    cases hhead
    exact absurd hd (by decide)
  rw [document, if_neg hmark, hskip, hvalue]
  rfl

end Reader

end Json

/-- A document of digits that are too many is not read. -/
theorem Document.read_of_digits {octets : List UInt8}
    (h : ∀ octet ∈ octets, 0x31 ≤ octet.toNat ∧ octet.toNat ≤ 0x39)
    (hlong : maxIntegerDigits < octets.length) (document : String) :
    read document octets = .error .integerTooLong := by
  let text := octets.map fun octet ↦ Char.ofNat octet.toNat
  have hdecode : Utf8.decode octets = .ok text :=
    Utf8.decode_of_ascii fun octet hoctet ↦ by have := h octet hoctet; omega
  have hchar : ∀ c ∈ text, isDigit c = true ∧ c ≠ '0' ∧ c ≠ '\r' := by
    intro c hc
    obtain ⟨octet, hoctet, rfl⟩ := List.mem_map.1 hc
    obtain ⟨hlow, hhigh⟩ := h octet hoctet
    interval_cases octet.toNat <;> decide
  have hparse : Json.Reader.document Json.replacement text = .error .integerTooLong := by
    refine Json.Reader.document_of_digits (fun c hc ↦ (hchar c hc).1) (fun hhead ↦ ?_) ?_ _
    · exact (hchar '0' (List.mem_of_head? hhead)).2.1 rfl
    · rwa [List.length_map]
  rw [read, readWith, hdecode]
  simp only
  rw [Newline.unify_eq_self fun hr ↦ (hchar '\r' hr).2.2 rfl, Json.parseWith, hparse]
  rfl

end JsonShapes
