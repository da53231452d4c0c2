/-!
# SHA-256

The digest of a sequence of octets. The message is padded to a whole number of blocks of sixteen
words; each block is expanded to a schedule of sixty-four words, and sixty-four rounds over the
schedule mix it into the eight words of the state.
-/

namespace JsonShapes.Sha256

/-- The round constants: the first thirty-two bits of the fractional parts of the cube roots of the
first sixty-four primes. -/
def roundConstants : List UInt32 :=
  [0x428a2f98, 0x71374491, 0xb5c0fbcf, 0xe9b5dba5, 0x3956c25b, 0x59f111f1, 0x923f82a4, 0xab1c5ed5,
   0xd807aa98, 0x12835b01, 0x243185be, 0x550c7dc3, 0x72be5d74, 0x80deb1fe, 0x9bdc06a7, 0xc19bf174,
   0xe49b69c1, 0xefbe4786, 0x0fc19dc6, 0x240ca1cc, 0x2de92c6f, 0x4a7484aa, 0x5cb0a9dc, 0x76f988da,
   0x983e5152, 0xa831c66d, 0xb00327c8, 0xbf597fc7, 0xc6e00bf3, 0xd5a79147, 0x06ca6351, 0x14292967,
   0x27b70a85, 0x2e1b2138, 0x4d2c6dfc, 0x53380d13, 0x650a7354, 0x766a0abb, 0x81c2c92e, 0x92722c85,
   0xa2bfe8a1, 0xa81a664b, 0xc24b8b70, 0xc76c51a3, 0xd192e819, 0xd6990624, 0xf40e3585, 0x106aa070,
   0x19a4c116, 0x1e376c08, 0x2748774c, 0x34b0bcb5, 0x391c0cb3, 0x4ed8aa4a, 0x5b9cca4f, 0x682e6ff3,
   0x748f82ee, 0x78a5636f, 0x84c87814, 0x8cc70208, 0x90befffa, 0xa4506ceb, 0xbef9a3f7, 0xc67178f2]

/-- The eight working words. -/
structure State where
  a : UInt32
  b : UInt32
  c : UInt32
  d : UInt32
  e : UInt32
  f : UInt32
  g : UInt32
  h : UInt32

/-- The state before the first block: the first thirty-two bits of the fractional parts of the
square roots of the first eight primes. -/
def State.first : State :=
  ⟨0x6a09e667, 0xbb67ae85, 0x3c6ef372, 0xa54ff53a, 0x510e527f, 0x9b05688c, 0x1f83d9ab, 0x5be0cd19⟩

/-- The words of a state, in order. -/
def State.words (s : State) : List UInt32 :=
  [s.a, s.b, s.c, s.d, s.e, s.f, s.g, s.h]

/-- The sum of two states, word by word. -/
def State.add (s t : State) : State :=
  ⟨s.a + t.a, s.b + t.b, s.c + t.c, s.d + t.d, s.e + t.e, s.f + t.f, s.g + t.g, s.h + t.h⟩

/-- A word turned to the right by `n` places. -/
def rotate (n x : UInt32) : UInt32 :=
  (x >>> n) ||| (x <<< (32 - n))

/-- One round, with the schedule word and the round constant added up in `k`. -/
def State.round (s : State) (k : UInt32) : State :=
  let mixed := s.h + (rotate 6 s.e ^^^ rotate 11 s.e ^^^ rotate 25 s.e)
    + ((s.e &&& s.f) ^^^ (~~~s.e &&& s.g)) + k
  let majority := (rotate 2 s.a ^^^ rotate 13 s.a ^^^ rotate 22 s.a)
    + ((s.a &&& s.b) ^^^ (s.a &&& s.c) ^^^ (s.b &&& s.c))
  ⟨mixed + majority, s.a, s.b, s.c, s.d + mixed, s.e, s.f, s.g⟩

/-- The schedule word that follows sixteen others. -/
def nextWord (window : List UInt32) : UInt32 :=
  let w (i : Nat) : UInt32 := window.getD i 0
  w 0 + (rotate 7 (w 1) ^^^ rotate 18 (w 1) ^^^ (w 1 >>> 3)) + w 9
    + (rotate 17 (w 14) ^^^ rotate 19 (w 14) ^^^ (w 14 >>> 10))

/-- The next `n` words of a schedule, given the latest sixteen. -/
def schedule : Nat → List UInt32 → List UInt32
  | 0, _ => []
  | n + 1, window =>
    let word := nextWord window
    word :: schedule n (window.drop 1 ++ [word])

/-- Mixes one block of sixteen words into the state. -/
def State.absorb (s : State) (block : List UInt32) : State :=
  let words := block ++ schedule 48 block
  s.add ((words.zipWith (· + ·) roundConstants).foldl State.round s)

/-- The octets of a number, most significant first. -/
def bigEndian (count n : Nat) : List UInt8 :=
  (List.range count).reverse.map fun i ↦ (n >>> (8 * i)).toUInt8

/-- The message with the mark of its end, zeros, and its length in bits, in whole blocks. -/
def pad (message : List UInt8) : List UInt8 :=
  message ++ 0x80 :: List.replicate ((119 - message.length % 64) % 64) 0
    ++ bigEndian 8 (8 * message.length)

/-- The words that the octets spell, four octets a word. -/
def words : List UInt8 → List UInt32
  | a :: b :: c :: d :: rest =>
    (a.toUInt32 <<< 24 ||| b.toUInt32 <<< 16 ||| c.toUInt32 <<< 8 ||| d.toUInt32) :: words rest
  | _ => []

/-- Mixes the first `n` blocks of sixteen words into the state. -/
def State.absorbAll (s : State) : Nat → List UInt32 → State
  | 0, _ => s
  | n + 1, ws => (s.absorb (ws.take 16)).absorbAll n (ws.drop 16)

/-- The digest of a message, as eight words. -/
def digest (message : List UInt8) : List UInt32 :=
  let ws := words (pad message)
  (State.first.absorbAll (ws.length / 16) ws).words

/-- The digest of a message, as sixty-four hexadecimal digits. -/
def hexDigest (message : List UInt8) : String :=
  String.ofList <| (digest message).flatMap fun word ↦
    (List.range 8).reverse.map fun i ↦ (word.toNat >>> (4 * i) % 16).digitChar

end JsonShapes.Sha256
