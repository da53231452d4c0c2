/-!
# Control sequences

A control sequence is addressed to a terminal rather than to a reader: an escape character and an
opening bracket, then any number of parameter characters, then any number of intermediate
characters, then one final character. The three classes follow each other in the ASCII table and
have no character in common, so where a sequence ends is never in doubt. Text for a reader is
written without them; a sequence that is not finished is left as it is.
-/

namespace JsonShapes.ControlSequence

/-- Whether a character is a parameter: a digit or one of `:;<=>?`. -/
def isParameter (c : Char) : Bool :=
  '0' ≤ c && c ≤ '?'

/-- Whether a character may stand between the parameters and the final character. -/
def isIntermediate (c : Char) : Bool :=
  ' ' ≤ c && c ≤ '/'

/-- Whether a character ends a control sequence. -/
def isFinal (c : Char) : Bool :=
  '@' ≤ c && c ≤ '~'

/-- How many characters the control sequence at the front of a text has; none if there is no such
sequence. -/
def lengthAt : List Char → Nat
  | '\x1b' :: '[' :: body =>
    let parameters := body.takeWhile isParameter
    let behind := body.dropWhile isParameter
    let intermediates := behind.takeWhile isIntermediate
    match behind.dropWhile isIntermediate with
    | c :: _ => if isFinal c then 2 + parameters.length + intermediates.length + 1 else 0
    | [] => 0
  | _ => 0

/-- A text without its control sequences, the first characters of which are left out, as many as
given, because they belong to a sequence that began before. -/
def removeAfter : Nat → List Char → List Char
  | _, [] => []
  | skipped + 1, _ :: rest => removeAfter skipped rest
  | 0, c :: rest =>
    match lengthAt (c :: rest) with
    | 0 => c :: removeAfter 0 rest
    | skipped + 1 => removeAfter skipped rest

/-- A text without its control sequences. -/
def remove (text : String) : String :=
  String.ofList (removeAfter 0 text.toList)

example : removeAfter 0 "a\x1b[31mb".toList = "ab".toList := by decide

example : removeAfter 0 "\x1b[12;\x1b[3md".toList = "\x1b[12;d".toList := by decide

end JsonShapes.ControlSequence
