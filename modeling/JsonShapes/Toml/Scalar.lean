import JsonShapes.Decimal.Binary64
import JsonShapes.Toml.Basic
import JsonShapes.Toml.Quotation

/-!
# Dates, times and numbers in TOML

Each of the recognisers takes the longest piece of its kind off the front of a text and gives it
with the text after it. A date that the calendar does not have is a fault, as is a number in decimal
notation with more digits than are accepted.
-/

namespace JsonShapes.Toml.Scalar

/-! ### Dates and times -/

/-- The number that two digits spell, if it lies within bounds. -/
def twoDigits? (low high : Nat) (a b : Char) : Option Nat :=
  let n := decimalNumber [a, b]
  if isDigit a && isDigit b && low ≤ n && n ≤ high then some n else none

/-- A day, which the calendar need not have. -/
def day? : List Char → Option (Date × List Char)
  | y₁ :: y₂ :: y₃ :: y₄ :: '-' :: m₁ :: m₂ :: '-' :: d₁ :: d₂ :: rest => do
    let month ← twoDigits? 1 12 m₁ m₂
    let day ← twoDigits? 1 31 d₁ d₂
    if [y₁, y₂, y₃, y₄].all isDigit then
      some (⟨decimalNumber [y₁, y₂, y₃, y₄], month, day⟩, rest)
    else none
  | _ => none

/-- The fraction of a second in microseconds; further digits are dropped. -/
def fraction : List Char → Nat × List Char
  | '.' :: d :: rest =>
    let digits := (d :: rest).takeWhile isDigit
    if isDigit d then
      (decimalNumber ((digits ++ List.replicate 5 '0').take 6), rest.dropWhile isDigit)
    else (0, '.' :: d :: rest)
  | text => (0, text)

/-- A time of day. -/
def clock? : List Char → Option (Time × List Char)
  | h₁ :: h₂ :: ':' :: m₁ :: m₂ :: ':' :: s₁ :: s₂ :: rest => do
    let hour ← twoDigits? 0 23 h₁ h₂
    let minute ← twoDigits? 0 59 m₁ m₂
    let second ← twoDigits? 0 59 s₁ s₂
    let (microsecond, rest) := fraction rest
    some (⟨hour, minute, second, microsecond⟩, rest)
  | _ => none

/-- The distance from the meridian in minutes, if it is given. -/
def offset (text : List Char) : Option Int × List Char :=
  match text with
  | 'Z' :: rest => (some 0, rest)
  | 'z' :: rest => (some 0, rest)
  | sign :: h₁ :: h₂ :: ':' :: m₁ :: m₂ :: rest =>
    match twoDigits? 0 23 h₁ h₂, twoDigits? 0 59 m₁ m₂ with
    | some hour, some minute =>
      let size := Int.ofNat (60 * hour + minute)
      if sign = '+' then (some size, rest)
      else if sign = '-' then (some (-size), rest)
      else (none, text)
    | _, _ => (none, text)
  | _ => (none, text)

/-- The date with a time behind it, if one follows. -/
def withTime (day : Date) (text : List Char) : Value × List Char :=
  match text with
  | mark :: rest =>
    match if mark = 'T' ∨ mark = 't' ∨ mark = ' ' then clock? rest else none with
    | some (time, rest) =>
      let (offset, rest) := offset rest
      (.moment ⟨day, time, offset⟩, rest)
    | none => (.date day, text)
  | [] => (.date day, text)

/-! ### Numbers -/

/-- The digits at the front of a text, between any two of which one underscore may stand. -/
def moreDigits (isDigit : Char → Bool) : List Char → List Char × List Char
  | '_' :: d :: rest =>
    if isDigit d then
      let (digits, after) := moreDigits isDigit rest
      (d :: digits, after)
    else ([], '_' :: d :: rest)
  | d :: rest =>
    if isDigit d then
      let (digits, after) := moreDigits isDigit rest
      (d :: digits, after)
    else ([], d :: rest)
  | [] => ([], [])

/-- One or more digits. -/
def someDigits? (isDigit : Char → Bool) : List Char → Option (List Char × List Char)
  | d :: rest =>
    if isDigit d then
      let (digits, after) := moreDigits isDigit rest
      some (d :: digits, after)
    else none
  | [] => none

/-- The whole number that digits spell to a base. -/
def inBase (base : Nat) (digits : List Char) : Nat :=
  digits.foldl (fun n c ↦ base * n + (hexDigit? c).getD 0) 0

/-- A whole number with a base of its own: hexadecimal, binary or octal, of any length. -/
def based? : List Char → Option (Nat × List Char)
  | '0' :: 'x' :: rest =>
    (someDigits? (fun c ↦ (hexDigit? c).isSome) rest).map fun (d, r) ↦ (inBase 16 d, r)
  | '0' :: 'b' :: rest =>
    (someDigits? (fun c ↦ c = '0' ∨ c = '1') rest).map fun (d, r) ↦ (inBase 2 d, r)
  | '0' :: 'o' :: rest =>
    (someDigits? (fun c ↦ '0' ≤ c && c ≤ '7') rest).map fun (d, r) ↦ (inBase 8 d, r)
  | _ => none

/-- Whether a minus comes next, and the text after the sign, if there is one. -/
def sign : List Char → Bool × List Char
  | '-' :: rest => (true, rest)
  | '+' :: rest => (false, rest)
  | text => (false, text)

/-- The digits before the point: a zero, or digits of which the first is none. -/
def wholePart? : List Char → Option (List Char × List Char)
  | '0' :: rest => some (['0'], rest)
  | text => someDigits? isDigit text

/-- The digits after a point, if there are any. -/
def decimals? : List Char → Option (List Char × List Char)
  | '.' :: rest => someDigits? isDigit rest
  | _ => none

/-- The exponent, if there is one. -/
def exponent? : List Char → Option (Int × List Char)
  | e :: rest => do
    let (negative, unsigned) := sign rest
    let (digits, after) ← if e = 'e' ∨ e = 'E' then someDigits? isDigit unsigned else none
    let size := Int.ofNat (decimalNumber digits)
    return (if negative then -size else size, after)
  | [] => none

/-- A number in decimal notation, which is whole if it has neither decimals nor an exponent. -/
def decimal? (text : List Char) : Except Stop (Option (Value × List Char)) :=
  let (negative, unsigned) := sign text
  match wholePart? unsigned with
  | none => return none
  | some (whole, rest) =>
    let fraction := decimals? rest
    let rest := (fraction.map (·.2)).getD rest
    let exponent := exponent? rest
    let rest := (exponent.map (·.2)).getD rest
    match fraction, exponent with
    | none, none =>
      if maxIntegerDigits < whole.length then throw .integerTooLong
      else
        let n := Int.ofNat (decimalNumber whole)
        return some (.int (if negative then -n else n), rest)
    | _, _ =>
      let digits := (fraction.map (·.1)).getD []
      let power := (exponent.map (·.1)).getD 0 - Int.ofNat digits.length
      let x := Binary64.ofDecimal negative (decimalNumber (whole ++ digits)) power
      return some (.float x, rest)

/-- Infinity or what is no number, with or without a sign. -/
def special? (text : List Char) : Option (Value × List Char) :=
  let (negative, unsigned) := sign text
  match unsigned with
  | 'i' :: 'n' :: 'f' :: rest =>
    some (.float (if negative then -1.0 / 0.0 else 1.0 / 0.0), rest)
  | 'n' :: 'a' :: 'n' :: rest => some (.float (0.0 / 0.0), rest)
  | _ => none

/-- A truth value. -/
def truth? : List Char → Option (Value × List Char)
  | 't' :: 'r' :: 'u' :: 'e' :: rest => some (.bool true, rest)
  | 'f' :: 'a' :: 'l' :: 's' :: 'e' :: rest => some (.bool false, rest)
  | _ => none

/-! ### All of them -/

/-- Reads a value that is neither an array nor a table. -/
def read (text : List Char) : Except Stop (Value × List Char) := do
  if text.head? = some '"' ∨ text.head? = some '\'' then
    match Quotation.text? text with
    | some (s, rest) => return (.text s, rest)
    | none => throw .malformed
  if let some found := truth? text then return found
  if let some (day, rest) := day? text then
    let found := withTime day rest
    if day.isReal then return found else throw .malformed
  if let some (time, rest) := clock? text then return (.time time, rest)
  if let some (n, rest) := based? text then return (.int n, rest)
  match ← decimal? text with
  | some found => return found
  | none =>
    match special? text with
    | some found => return found
    | none => throw .malformed

end JsonShapes.Toml.Scalar
