/-!
# Ends of line

A text may end its lines with a line feed, a carriage return, or both in that order. Everything that
reads a text here counts lines by line feeds, so the other two are turned into one first.
-/

namespace JsonShapes.Newline

/-- Turns every end of line into a single line feed. -/
def unify (text : List Char) : List Char :=
  go [] text
where
  /-- Works through the text; `done` is what came before, the latest character first. -/
  go (done : List Char) : List Char → List Char
    | [] => done.reverse
    | '\r' :: '\n' :: rest => go ('\n' :: done) rest
    | '\r' :: rest => go ('\n' :: done) rest
    | c :: rest => go (c :: done) rest

example : unify ['a', '\r', '\n', '\r', 'b', '\n'] = ['a', '\n', '\n', 'b', '\n'] := by decide

end JsonShapes.Newline
