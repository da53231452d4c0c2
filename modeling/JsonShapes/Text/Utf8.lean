/-!
# UTF-8

Octets are read by a machine that takes one octet at a time and refuses at the first one that no
well-formed sequence allows. Where it stands between two octets is a `State`: between characters, or
inside one, with the number of octets still owed and the range the next one has to lie in. The range
is what rules out overlong forms, surrogates and code points beyond U+10FFFF, so whatever the
machine accepts is a sequence of characters.
-/

namespace JsonShapes.Utf8

/-- Why a sequence of octets is not UTF-8. -/
inductive Refusal where
  /-- An octet that starts no character stands where a character starts. -/
  | badStart
  /-- An octet inside a character is outside the range that its place allows. -/
  | badContinuation
  /-- The text ends inside a character. -/
  | cutShort
deriving DecidableEq, Repr

/-- The words for a refusal. -/
def Refusal.message : Refusal → String
  | .badStart => "invalid start byte"
  | .badContinuation => "invalid continuation byte"
  | .cutShort => "unexpected end of data"

/-- Where the machine stands between two octets. -/
inductive State where
  /-- Between two characters. -/
  | between
  /-- Inside a character: the next octet lies from `low` to `high`, `owed` more follow it, and
  `bits` is what the octets so far contribute to the code point. -/
  | inside (low high owed bits : Nat)
deriving DecidableEq, Repr

/-- The state after the first octet of a character of several octets, or `none` where no such
character starts with the octet. -/
def State.opening (octet : Nat) : Option State :=
  if octet < 0xC2 then none
  else if octet < 0xE0 then some (.inside 0x80 0xBF 0 (octet - 0xC0))
  else if octet = 0xE0 then some (.inside 0xA0 0xBF 1 0)
  else if octet = 0xED then some (.inside 0x80 0x9F 1 0xD)
  else if octet < 0xF0 then some (.inside 0x80 0xBF 1 (octet - 0xE0))
  else if octet = 0xF0 then some (.inside 0x90 0xBF 2 0)
  else if octet < 0xF4 then some (.inside 0x80 0xBF 2 (octet - 0xF0))
  else if octet = 0xF4 then some (.inside 0x80 0x8F 2 4)
  else none

/-- One octet: the characters so far, the latest first, and the state after it. -/
def step : List Char × State → Nat → Except Refusal (List Char × State)
  | (decoded, .between), octet =>
    if octet < 0x80 then .ok (Char.ofNat octet :: decoded, .between)
    else match State.opening octet with
      | some state => .ok (decoded, state)
      | none => .error .badStart
  | (decoded, .inside low high owed bits), octet =>
    if low ≤ octet ∧ octet ≤ high then
      let bits := bits * 0x40 + (octet - 0x80)
      match owed with
      | 0 => .ok (Char.ofNat bits :: decoded, .between)
      | owed + 1 => .ok (decoded, .inside 0x80 0xBF owed bits)
    else .error .badContinuation

/-- The characters that a sequence of octets stands for. -/
def decode (octets : List UInt8) : Except Refusal (List Char) := do
  match ← octets.foldlM (fun state octet ↦ step state octet.toNat) ([], .between) with
  | (decoded, .between) => return decoded.reverse
  | (_, .inside ..) => throw .cutShort

/-- The octets of a text. -/
def encode (text : String) : List UInt8 :=
  text.toUTF8.toList

end JsonShapes.Utf8
