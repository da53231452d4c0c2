/-!
# Readings

What a reader takes off the front of a text, with the text after it. A reading always takes
something, so a reader that goes on with the rest comes to an end.
-/

namespace JsonShapes

/-- Something read from the front of `text`, and the text after it. -/
structure Parsed (α : Type) (text : List Char) where
  value : α
  rest : List Char
  shorter : rest.length < text.length

namespace Parsed

variable {α : Type}

/-- A reading with the rest given, if something was taken. -/
def of? (text : List Char) : α × List Char → Option (Parsed α text)
  | (value, rest) => if h : rest.length < text.length then some ⟨value, rest, h⟩ else none

end Parsed

end JsonShapes
