import Mathlib
import JsonShapes.Json.Reader

/-!
# Texts without halves of surrogate pairs

A character that stands in for lone halves of surrogate pairs is asked for only where a text has a
code escape for such a half. A text without any (`Reader.HalfFree`) is read in one way, whichever
character it is (`parseWith_eq_parse`).

This is enough and more than is needed: the halves of a pair may be written as two escapes in a row,
and a string may have lone halves where nobody looks at it. But it is a condition on the text alone,
and most documents meet it.

## The course of the proof

* A reader leaves the end of the text that it was given (`skip_suffix`, `scalar_suffix` and those
  beside them), so a text that is left is free of halves if the text before was.
* The points of a string are then no halves (`readWhole_stringBody`), and no character stands in for
  any of them (`spell_stringBody`).
* Strings are the only parts in which the character is used. So two readings of a text that differ
  in nothing else are the same, by induction on the length of the text (`alikeBelow`). That the
  readings are the same and that what they leave is the end of the text go together (`Alike`), since
  the part that is read next has to be free of halves as well.
-/

namespace JsonShapes.Json

namespace Reader

/-- No code escape in a text is for half of a surrogate pair. -/
def HalfFree (text : List Char) : Prop :=
  ∀ a b c d rest n, '\\' :: 'u' :: a :: b :: c :: d :: rest <:+ text →
    hexNumber? [a, b, c, d] = some n → isSurrogate n = false

variable {text rest more after opening : List Char} {standIn standIn' : Char}

theorem HalfFree.of_suffix (h : HalfFree text) (hrest : rest <:+ text) : HalfFree rest :=
  fun a b c d more n hmore ↦ h a b c d more n (hmore.trans hrest)

/-- Halves can be written in no other way than by a code escape, which begins with a backslash. -/
theorem halfFree_of_not_mem (h : '\\' ∉ text) : HalfFree text :=
  fun _ _ _ _ _ _ hsuffix _ ↦ absurd (hsuffix.subset List.mem_cons_self) h

/-! ### Points -/

/-- The code point of a character is no half of a surrogate pair. -/
theorem isSurrogate_toNat (c : Char) : isSurrogate c.toNat = false := by
  have hvalid : c.toNat < 0xD800 ∨ 0xDFFF < c.toNat ∧ c.toNat < 0x110000 := c.valid
  exact decide_eq_false (by omega)

theorem isSurrogate_of_letterEscape? {c : Char} {n : Nat} (h : letterEscape? c = some n) :
    isSurrogate n = false := by
  unfold letterEscape? at h
  split at h <;> cases h <;> rfl

/-- Where there are no halves, nothing is joined. -/
theorem joinSurrogates_eq_self {points : List Nat} (h : ∀ n ∈ points, isSurrogate n = false) :
    joinSurrogates points = points := by
  induction points with
  | nil => rfl
  | cons n points ih =>
    obtain ⟨hn, hpoints⟩ := List.forall_mem_cons.1 h
    cases points with
    | nil => rfl
    | cons m points =>
      have hpair : ¬(0xD800 ≤ n ∧ n < 0xDC00 ∧ 0xDC00 ≤ m ∧ m < 0xE000) := by
        have := of_decide_eq_false hn
        omega
      rw [joinSurrogates, if_neg hpair, ih hpoints]

/-- Where there are no halves, nothing is stood in for. -/
theorem spell_congr {points : List Nat} (h : ∀ n ∈ points, isSurrogate n = false)
    (standIn standIn' : Char) : spell standIn points = spell standIn' points := by
  rw [spell, spell]
  refine congrArg String.ofList (List.map_congr_left fun n hn ↦ ?_)
  rw [h n hn]
  rfl

/-! ### Strings -/

/-- The rest of a string is read from a text after some points: what is left is the end of the text,
and no half comes in from a text that is free of them. -/
structure ReadWhole (text : List Char) (done : List Nat) (parsed : Parsed (List Nat) opening) :
    Prop where
  suffix : parsed.rest <:+ text
  whole : HalfFree text → (∀ n ∈ done, isSurrogate n = false) →
    ∀ n ∈ parsed.value, isSurrogate n = false

/-- One point is read at the front of the text. -/
theorem ReadWhole.cons {n : Nat} {done : List Nat} {parsed : Parsed (List Nat) opening}
    (h : ReadWhole more (n :: done) parsed) (hmore : more <:+ text)
    (hn : HalfFree text → isSurrogate n = false) : ReadWhole text done parsed where
  suffix := h.suffix.trans hmore
  whole hfree hdone := h.whole (hfree.of_suffix hmore) (List.forall_mem_cons.2 ⟨hn hfree, hdone⟩)

/-- The cases are those of the reader: the closing quote, a code, a letter behind a backslash, and a
character that stands for itself. The others are faults. What is left after a code is six characters
shorter, so the induction is on the length of the text. -/
theorem readWhole_stringBody {done : List Nat} {h : text.length < opening.length}
    {parsed : Parsed (List Nat) opening} (hread : stringBody opening done text h = .ok parsed) :
    ReadWhole text done parsed := by
  induction hlength : text.length using Nat.strongRecOn generalizing done text with
  | ind length ih =>
    rw [stringBody.eq_def] at hread
    split at hread
    · contradiction
    · next rest _ =>
      cases hread
      refine ⟨List.suffix_cons '"' rest, fun _ hdone ↦ ?_⟩
      have hreverse : ∀ n ∈ done.reverse, isSurrogate n = false := fun n hn ↦
        hdone n (List.mem_reverse.1 hn)
      rwa [joinSurrogates_eq_self hreverse]
    · split at hread
      · contradiction
      · next a b c d e more _ =>
        split at hread
        · next n hn =>
          have hmore : e :: more <:+ '\\' :: 'u' :: a :: b :: c :: d :: e :: more :=
            ⟨['\\', 'u', a, b, c, d], rfl⟩
          refine (ih _ ?_ hread rfl).cons hmore fun hfree ↦ ?_
          · simp only [List.length_cons] at hlength ⊢
            omega
          · exact hfree a b c d (e :: more) n List.suffix_rfl hn
        · contradiction
      · contradiction
      · next c more _ _ _ =>
        split at hread
        · next n hn =>
          refine (ih _ ?_ hread rfl).cons ⟨['\\', c], rfl⟩ fun _ ↦ ?_
          · simp only [List.length_cons] at hlength ⊢
            omega
          · exact isSurrogate_of_letterEscape? hn
        · contradiction
    · next c rest _ _ _ =>
      split at hread
      · contradiction
      · refine (ih _ ?_ hread rfl).cons (List.suffix_cons c rest) fun _ ↦ isSurrogate_toNat c
        simp only [List.length_cons] at hlength
        omega

/-- What a whole string spells is the same whichever character stands in. -/
theorem spell_stringBody {h : text.length < opening.length} {parsed : Parsed (List Nat) opening}
    (hfree : HalfFree text) (hread : stringBody opening [] text h = .ok parsed)
    (standIn standIn' : Char) : spell standIn parsed.value = spell standIn' parsed.value :=
  spell_congr ((readWhole_stringBody hread).whole hfree (List.forall_mem_nil _)) standIn standIn'

/-! ### What is left of a text -/

/-- What follows a character behind blanks. -/
theorem suffix_of_skip {c : Char} (h : skip rest = c :: after) (hrest : rest <:+ text) :
    after <:+ text :=
  (List.suffix_cons c after).trans (h ▸ (skip_suffix rest).trans hrest)

/-- A number without its sign leaves the end of its digits: it has a whole part, a fraction and an
exponent, one after another. -/
theorem unsigned_suffix {negative : Bool} {digits : List Char} {h : digits.length ≤ text.length}
    {parsed : Parsed Number text} (hread : unsigned text negative digits h = .ok parsed) :
    parsed.rest <:+ digits := by
  unfold unsigned at hread
  split at hread
  · contradiction
  · split at hread
    · simp only [bind, Except.bind, pure, Except.pure] at hread
      split at hread
      · contradiction
      · cases hread
        refine ((exponent_suffix _).trans (fraction_suffix _)).trans ?_
        split
        · exact List.suffix_cons _ _
        · exact (List.dropWhile_suffix isDigit).trans (List.suffix_cons _ _)
    · contradiction

theorem scalar_suffix {parsed : Parsed Json text} (hread : scalar text = .ok parsed) :
    parsed.rest <:+ text := by
  rw [scalar] at hread
  split at hread
  · next found =>
    obtain ⟨⟨expected, value⟩, -, hfound⟩ := List.exists_of_findSome?_eq_some found
    cases hread
    simp only [word?] at hfound
    split at hfound
    · cases hfound
      exact List.drop_suffix _ _
    · contradiction
  · simp only [bind, Except.bind, pure, Except.pure] at hread
    split at hread <;> split at hread <;> try contradiction
    · next n hn =>
      cases hread
      exact (unsigned_suffix hn).trans (List.tail_suffix text)
    · next n hn =>
      cases hread
      exact unsigned_suffix hn

/-! ### Two readings of a text -/

/-- Two readings of a text are the same, and what they leave is the end of the text. -/
structure Alike {α : Type} (text : List Char) (result result' : Except Stop (Parsed α opening)) :
    Prop where
  eq : result = result'
  suffix : ∀ parsed, result = .ok parsed → parsed.rest <:+ text

namespace Alike

variable {α : Type} {result result' : Except Stop (Parsed α opening)}

/-- Faults leave nothing. -/
theorem error (stop : Stop) :
    Alike text (.error stop : Except Stop (Parsed α opening)) (.error stop) :=
  ⟨rfl, nofun⟩

theorem ok {parsed : Parsed α opening} (h : parsed.rest <:+ text) :
    Alike text (.ok parsed) (.ok parsed) :=
  ⟨rfl, fun _ hparsed ↦ Except.ok.inj hparsed ▸ h⟩

theorem of_suffix (h : Alike more result result') (hmore : more <:+ text) :
    Alike text result result' :=
  ⟨h.eq, fun parsed hparsed ↦ (h.suffix parsed hparsed).trans hmore⟩

end Alike

/-- In texts shorter than this that are free of halves, values are read alike whichever of the two
characters stands in. -/
def AlikeBelow (standIn standIn' : Char) (length : Nat) : Prop :=
  ∀ text, HalfFree text → text.length < length →
    Alike text (value standIn text) (value standIn' text)

section Parts

variable {length : Nat} (hvalue : AlikeBelow standIn standIn' length)
include hvalue

/-- The items of an array are read alike, one after another. -/
theorem alike_items {done : List Json} {h : text.length < opening.length} (hfree : HalfFree text)
    (hlength : text.length < length) :
    Alike text (items standIn opening done text h) (items standIn' opening done text h) := by
  induction hn : text.length using Nat.strongRecOn generalizing done text with
  | ind n ih =>
    have halike := hvalue text hfree hlength
    rw [items, items, ← halike.eq]
    cases hread : value standIn text with
    | error stop => exact .error stop
    | ok item =>
      have hrest := halike.suffix item hread
      simp only
      split
      · next after hafter => exact .ok (suffix_of_skip hafter hrest)
      · next after hafter =>
        have hmore := (skip_suffix after).trans (suffix_of_skip hafter hrest)
        have hshorter := item.shorter
        have hskip := length_skip_le item.rest
        have hless := length_skip_le after
        rw [hafter, List.length_cons] at hskip
        exact (ih _ (by omega) (hfree.of_suffix hmore) (by omega) rfl).of_suffix hmore
      · exact .error _

/-- A member of an object is read alike: its name has no halves, and its value is shorter. -/
theorem alike_member (hfree : HalfFree text) (hlength : text.length < length) :
    Alike text (member standIn text) (member standIn' text) := by
  rw [member.eq_def, member.eq_def]
  split
  · next rest =>
    have hsuffix := List.suffix_cons '"' rest
    cases hname : stringBody ('"' :: rest) [] rest (by simp) with
    | error stop => exact .error stop
    | ok name =>
      have hspell := spell_stringBody (hfree.of_suffix hsuffix) hname standIn standIn'
      have hrest := (readWhole_stringBody hname).suffix.trans hsuffix
      have hshorter := name.shorter
      have hskip := length_skip_le name.rest
      simp only [hspell]
      split
      · next after hafter =>
        have hmore := (skip_suffix after).trans (suffix_of_skip hafter hrest)
        have hless := length_skip_le after
        rw [hafter, List.length_cons] at hskip
        have halike := hvalue _ (hfree.of_suffix hmore) (by omega)
        rw [← halike.eq]
        cases hread : value standIn (skip after) with
        | error stop => exact .error stop
        | ok item => exact .ok ((halike.suffix item hread).trans hmore)
      · exact .error _
  · exact .error _

/-- So are the members of an object. -/
theorem alike_members {done : List (String × Json)} {h : text.length < opening.length}
    (hfree : HalfFree text) (hlength : text.length < length) :
    Alike text (members standIn opening done text h) (members standIn' opening done text h) := by
  induction hn : text.length using Nat.strongRecOn generalizing done text with
  | ind n ih =>
    have halike := alike_member hvalue hfree hlength
    rw [members, members, ← halike.eq]
    cases hread : member standIn text with
    | error stop => exact .error stop
    | ok read =>
      have hrest := halike.suffix read hread
      simp only
      split
      · next after hafter => exact .ok (suffix_of_skip hafter hrest)
      · next after hafter =>
        have hmore := (skip_suffix after).trans (suffix_of_skip hafter hrest)
        have hshorter := read.shorter
        have hskip := length_skip_le read.rest
        have hless := length_skip_le after
        rw [hafter, List.length_cons] at hskip
        exact (ih _ (by omega) (hfree.of_suffix hmore) (by omega) rfl).of_suffix hmore
      · exact .error _

end Parts

/-- Values are read alike from all texts that are free of halves. Only the body of a string asks for
the stand-in, and it does so for a half alone; all other steps are the same on both sides. -/
theorem alikeBelow (standIn standIn' : Char) (length : Nat) :
    AlikeBelow standIn standIn' length := by
  -- texts that are shorter are done; the cases of a step are those of the first character
  induction length with
  | zero => exact fun text _ h ↦ absurd h (Nat.not_lt_zero _)
  | succ length ih =>
    intro text hfree hlength
    rw [value.eq_def, value.eq_def]
    split
    · next rest =>
      have hsuffix := List.suffix_cons '"' rest
      cases hbody : stringBody ('"' :: rest) [] rest (by simp) with
      | error stop => exact .error stop
      | ok body =>
        have hspell := spell_stringBody (hfree.of_suffix hsuffix) hbody standIn standIn'
        simp only [bind, Except.bind, pure, Except.pure, hspell]
        exact .ok ((readWhole_stringBody hbody).suffix.trans hsuffix)
    · next rest =>
      have hskip := length_skip_le rest
      have hsuffix := List.suffix_cons '[' rest
      have hmore := (skip_suffix rest).trans hsuffix
      rw [List.length_cons] at hlength
      simp only
      split
      · next after hafter => exact .ok (suffix_of_skip hafter hsuffix)
      · exact (alike_items ih (hfree.of_suffix hmore) (by omega)).of_suffix hmore
    · next rest =>
      have hskip := length_skip_le rest
      have hsuffix := List.suffix_cons '{' rest
      have hmore := (skip_suffix rest).trans hsuffix
      rw [List.length_cons] at hlength
      simp only
      split
      · next after hafter => exact .ok (suffix_of_skip hafter hsuffix)
      · exact (alike_members ih (hfree.of_suffix hmore) (by omega)).of_suffix hmore
    · exact ⟨rfl, fun _ hread ↦ scalar_suffix hread⟩

end Reader

/-- A text that is free of halves is read in the same way whatever stands in for them. -/
theorem parseWith_eq_parse {text : List Char} (h : Reader.HalfFree text) (standIn : Char) :
    parseWith standIn text = parse text := by
  have halike := Reader.alikeBelow standIn replacement _ _
    (h.of_suffix (Reader.skip_suffix text)) (Nat.lt_succ_self _)
  rw [parse, parseWith, parseWith, Reader.document, Reader.document, halike.eq]

end JsonShapes.Json
