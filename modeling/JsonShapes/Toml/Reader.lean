import JsonShapes.Toml.Builder
import JsonShapes.Toml.Scalar

/-!
# Reading TOML

A document is a sequence of lines, each of which has at most one statement: a header, which opens a
table, or a key with its value. Arrays may run over several lines and inline tables may not. Where
the text is at fault does not matter to anyone here, only which of two faults comes first.

A key is read before it is known whether a table can have it. What a statement does to the table
built so far is left to the builder, which refuses what is defined twice. The reader only keeps
which table was opened last, as keys are relative to it.

Values and inline tables are read by mutual recursion on the length of the text. Every part that is
read comes with the proof that the text after it is shorter, so the recursion ends without a bound
on nesting.
-/

namespace JsonShapes.Toml.Reader

open Quotation (isBlank isBlankOrEnd isControl length_dropWhile_le)

/-- The text without the blanks at its front. -/
def skip (text : List Char) : List Char :=
  text.dropWhile isBlank

theorem length_skip_le (text : List Char) : (skip text).length ≤ text.length :=
  length_dropWhile_le isBlank text

/-- A reading, or a fault where there is none. -/
def orMalformed {α : Type} : Option α → Except Stop α
  | some a => return a
  | none => throw .malformed

/-! ### Comments -/

/-- The text from the end of a comment on, if one begins here and holds no control character. -/
def skipComment (text : List Char) : Option (List Char) :=
  match text with
  | '#' :: rest =>
    if (rest.takeWhile (· ≠ '\n')).any isControl then none else some (rest.dropWhile (· ≠ '\n'))
  | _ => some text

/-- The text without the blanks, line ends and comments at its front; `inside` says whether it
begins inside a comment. -/
def skipFiller (inside : Bool) : List Char → Option (List Char)
  | [] => some []
  | c :: rest =>
    if inside then
      if c = '\n' then skipFiller false rest
      else if isControl c then none
      else skipFiller true rest
    else if isBlankOrEnd c then skipFiller false rest
    else if c = '#' then skipFiller true rest
    else some (c :: rest)

theorem length_skipFiller_le {inside : Bool} {text rest : List Char}
    (h : skipFiller inside text = some rest) : rest.length ≤ text.length := by
  induction text generalizing inside with
  | nil => simp [skipFiller] at h; simp [h]
  | cons c text ih =>
    unfold skipFiller at h
    split at h <;> (repeat' split at h) <;> first
      | exact Nat.le_succ_of_le (ih h)
      | (simp at h; done)
      | (simp only [Option.some.injEq] at h; simp [← h])

/-! ### Keys -/

/-- Whether a character may stand in a name without quotes. -/
def isBare (c : Char) : Bool :=
  c.isAlphanum || c = '-' || c = '_'

/-- Reads one name of a key. -/
def name (text : List Char) : Option (String × List Char) :=
  match text.takeWhile isBare with
  | [] => Quotation.line? text
  | bare => some (String.ofList bare, text.dropWhile isBare)

/-- Reads a key: names with points between them, and the blanks after it. -/
def key (text : List Char) : Option (Parsed Namespace text) :=
  match name text >>= Parsed.of? text with
  | none => none
  | some first =>
    have h₀ := first.shorter
    have h₁ := length_skip_le first.rest
    match h : skip first.rest with
    | '.' :: after =>
      have h₂ := length_skip_le after
      match key (skip after) with
      | none => none
      | some more =>
        have h₃ := more.shorter
        some ⟨first.value :: more.value, more.rest, by rw [h] at h₁; simp at h₁; omega⟩
    | rest => some ⟨[first.value], rest, by rw [h] at h₁; omega⟩
termination_by text.length
decreasing_by rw [h] at h₁; simp at h₁; omega

/-! ### Values -/

/-- Reads a value that is neither an array nor a table. -/
def scalar (text : List Char) : Except Stop (Parsed Value text) := do
  orMalformed (Parsed.of? text (← Scalar.read text))

mutual

/-- Reads the value at the front of a text. -/
def value (text : List Char) : Except Stop (Parsed Value text) :=
  match text with
  | '[' :: rest =>
    match hf : skipFiller false rest with
    | none => .error .malformed
    | some (']' :: after) =>
      .ok ⟨.list [], after, by have h := length_skipFiller_le hf; simp at h ⊢; omega⟩
    | some first =>
      have h := length_skipFiller_le hf
      items ('[' :: rest) [] first (by simp; omega)
  | '{' :: rest =>
    have h := length_skip_le rest
    match hs : skip rest with
    | '}' :: after => .ok ⟨.table [], after, by rw [hs] at h; simp at h ⊢; omega⟩
    | first => entries ('{' :: rest) .empty first (by rw [hs] at h; simp; omega)
  | first => scalar first
termination_by (text.length, 0)

/-- Reads the items of an array from the next one on; `done` holds those so far, the latest first. A
comma may follow the last. -/
def items (opening : List Char) (done : List Value) (text : List Char)
    (h : text.length < opening.length) : Except Stop (Parsed Value opening) :=
  match value text with
  | .error stop => .error stop
  | .ok item =>
    have h₁ := item.shorter
    match hf : skipFiller false item.rest with
    | some (']' :: after) =>
      .ok ⟨.list (item.value :: done).reverse, after, by
        have h₂ := length_skipFiller_le hf; simp at h₂; omega⟩
    | some (',' :: after) =>
      have h₂ := length_skipFiller_le hf
      match hg : skipFiller false after with
      | none => .error .malformed
      | some (']' :: rest) =>
        .ok ⟨.list (item.value :: done).reverse, rest, by
          have h₃ := length_skipFiller_le hg; simp at h₂ h₃; omega⟩
      | some next =>
        have h₃ := length_skipFiller_le hg
        items opening (item.value :: done) next (by simp at h₂; omega)
    | _ => .error .malformed
termination_by (text.length, 1)
decreasing_by
  · exact Prod.Lex.right _ (by omega)
  · exact Prod.Lex.left _ _ (by simp at h₂; omega)

/-- Reads the entries of an inline table from the next one on, into the table built so far. -/
def entries (opening : List Char) (built : Builder) (text : List Char)
    (h : text.length < opening.length) : Except Stop (Parsed Value opening) :=
  match entry text with
  | .error stop => .error stop
  | .ok read =>
    match built.assign [] read.value.1 read.value.2 with
    | none => .error .malformed
    | some built =>
      have h₁ := read.shorter
      have h₂ := length_skip_le read.rest
      match hs : skip read.rest with
      | '}' :: after => .ok ⟨.table built.table, after, by rw [hs] at h₂; simp at h₂; omega⟩
      | ',' :: after =>
        have h₃ := length_skip_le after
        entries opening built (skip after) (by rw [hs] at h₂; simp at h₂; omega)
      | _ => .error .malformed
termination_by (text.length, 2)
decreasing_by
  · exact Prod.Lex.right _ (by omega)
  · exact Prod.Lex.left _ _ (by rw [hs] at h₂; simp at h₂; omega)

/-- Reads a key and its value. -/
def entry (text : List Char) : Except Stop (Parsed (Namespace × Value) text) :=
  match key text with
  | none => .error .malformed
  | some path =>
    have h₁ := path.shorter
    match hs : path.rest with
    | '=' :: after =>
      have h₂ := length_skip_le after
      match value (skip after) with
      | .error stop => .error stop
      | .ok read =>
        have h₃ := read.shorter
        .ok ⟨(path.value, read.value), read.rest, by rw [hs] at h₁; simp at h₁; omega⟩
    | _ => .error .malformed
termination_by (text.length, 1)
decreasing_by exact Prod.Lex.left _ _ (by rw [hs] at h₁; simp at h₁; omega)

end

/-! ### Statements -/

/-- What is built so far, and the table that the latest header opened. -/
structure Progress where
  built : Builder
  header : Namespace

/-- Reads a header: its key, and as many closing brackets as it had opening ones. -/
def header (closing : List Char) (text : List Char) : Option (Namespace × List Char) := do
  let path ← key (skip text)
  if closing.isPrefixOf path.rest then some (path.value, path.rest.drop closing.length) else none

/-- Reads a header of a table or of an array of tables, the first bracket taken off. -/
def opening (progress : Progress) (text : List Char) : Option (Progress × List Char) := do
  match text with
  | '[' :: rest =>
    let (path, after) ← header [']', ']'] rest
    return (⟨← progress.built.appendTable path, path⟩, after)
  | rest =>
    let (path, after) ← header [']'] rest
    return (⟨← progress.built.openTable path, path⟩, after)

/-- Reads a key with its value into the table that the latest header opened. -/
def assignment (progress : Progress) (text : List Char) : Except Stop (Parsed Progress text) := do
  let read ← entry text
  let built ← orMalformed (progress.built.assign progress.header read.value.1 read.value.2)
  return ⟨⟨built, progress.header⟩, read.rest, read.shorter⟩

/-- Reads the statement, or the comment, at the front of a text. -/
def statement (progress : Progress) (text : List Char) : Except Stop (Parsed Progress text) :=
  match text with
  | '#' :: rest => orMalformed do Parsed.of? ('#' :: rest) (progress, ← skipComment ('#' :: rest))
  | '[' :: rest => orMalformed do Parsed.of? ('[' :: rest) (← opening progress rest)
  | first => assignment progress first

/-- The text after the end of a line on which nothing but a comment is left. -/
def lineEnd (text : List Char) : Option (List Char) :=
  match skipComment (skip text) with
  | some [] => some []
  | some ('\n' :: rest) => some rest
  | _ => none

theorem length_lineEnd_le {text rest : List Char} (h : lineEnd text = some rest) :
    rest.length ≤ text.length := by
  have h₀ := length_skip_le text
  have h₁ : ∀ after, skipComment (skip text) = some after → after.length ≤ text.length := by
    intro after ha
    unfold skipComment at ha
    split at ha
    · next rest' hr =>
      have h₂ := length_dropWhile_le (· ≠ '\n') rest'
      rw [hr] at h₀
      split at ha
      · simp at ha
      · simp only [Option.some.injEq] at ha
        rw [ha] at h₂
        simp at h₀
        omega
    · simp only [Option.some.injEq] at ha
      rw [← ha]
      exact h₀
  unfold lineEnd at h
  split at h
  · simp only [Option.some.injEq] at h
    subst h
    simp
  · next r hr =>
    have := h₁ _ hr
    simp at h this
    rw [← h]
    omega
  · simp at h

/-- Reads statements up to the end of the text. -/
def statements (progress : Progress) (text : List Char) : Except Stop Builder :=
  have h₀ := length_skip_le text
  match hs : skip text with
  | [] => .ok progress.built
  | '\n' :: rest =>
    have : rest.length < text.length := by rw [hs] at h₀; simp at h₀; omega
    statements progress rest
  | first =>
    match statement progress first with
    | .error stop => .error stop
    | .ok read =>
      match hl : lineEnd read.rest with
      | none => .error .malformed
      | some rest =>
        have : rest.length < text.length := by
          have h₁ := read.shorter
          have h₂ := length_lineEnd_le hl
          rw [hs] at h₀
          omega
        statements read.value rest
termination_by text.length

end Reader

/-- The table that a text spells. -/
def parse (text : List Char) : Except Stop Table := do
  return (← Reader.statements ⟨.empty, []⟩ text).table

end JsonShapes.Toml
