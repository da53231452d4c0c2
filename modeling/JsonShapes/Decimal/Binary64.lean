/-!
# Decimals and binary64 numbers

The two directions between a decimal and a double-precision number, both exact: a decimal is rounded
to the nearest double, a tie going to the even one, and a double is written with the fewest digits
that round back to it. Either is a comparison of two whole numbers, so nothing here computes with
doubles; they are only taken apart and put together by their bits.
-/

namespace JsonShapes.Binary64

/-! ### From a decimal to a double -/

/-- The whole number nearest to `n / d`; a tie goes to the even one. -/
def roundQuotient (n d : Nat) : Nat :=
  let q := n / d
  let r := n % d
  if 2 * r > d ∨ (2 * r = d ∧ q % 2 = 1) then q + 1 else q

/-- The bits of positive infinity. -/
def infinityBits : Nat :=
  0x7FF <<< 52

/-- The bits of the double nearest to `n / d`, for positive `n` and `d`.

The significand is the quotient in units of `2 ^ q`, where `q` is as small as fifty-three bits and
the least exponent allow. Adding the significand to the shifted exponent makes a carry out of the
rounding raise the exponent, and makes subnormal numbers no special case. -/
def nearestBits (n d : Nat) : Nat :=
  let guess : Int := Int.ofNat n.log2 - Int.ofNat d.log2
  let fits : Bool := if 0 ≤ guess then d <<< guess.toNat ≤ n else d ≤ n <<< (-guess).toNat
  let exponent := if fits then guess else guess - 1
  let q := max (exponent - 52) (-1074)
  let significand :=
    if 0 ≤ q then roundQuotient n (d <<< q.toNat) else roundQuotient (n <<< (-q).toNat) d
  min infinityBits (((q + 1074).toNat <<< 52) + significand)

/-- The double nearest to `digits * 10 ^ exponent`, with the sign given. Powers of ten that no
double reaches are cut off before they are computed. -/
def ofDecimal (negative : Bool) (digits : Nat) (exponent : Int) : Float :=
  let magnitude := exponent + Int.ofNat (Nat.toDigits 10 digits).length
  let bits :=
    if digits = 0 ∨ magnitude < -400 then 0
    else if 400 < magnitude then infinityBits
    else if 0 ≤ exponent then nearestBits (digits * Nat.pow 10 exponent.toNat) 1
    else nearestBits digits (Nat.pow 10 (-exponent).toNat)
  Float.ofBits (UInt64.ofNat (if negative then bits + 1 <<< 63 else bits))

/-! ### From a double to a decimal -/

/-- The decimals that round to one double: those between `low / unit` and `high / unit`, the ends
included if `closed`, around the double itself at `value / unit`. -/
structure Interval where
  low : Nat
  value : Nat
  high : Nat
  unit : Nat
  closed : Bool

/-- The decimals that round to the double with these bits, which have no sign and are neither zero
nor those of infinity. Below a power of two the neighbours are half as far apart as above it. -/
def Interval.ofBits (bits : Nat) : Interval :=
  let exponent := bits >>> 52
  let fraction := bits % (1 <<< 52)
  let significand := if exponent = 0 then fraction else fraction + 1 <<< 52
  let q := Int.ofNat (max exponent 1) - 1075
  let below := if fraction = 0 ∧ 1 < exponent then 1 else 2
  let scale := if 0 ≤ q then 1 <<< q.toNat else 1
  { low := (4 * significand - below) * scale
    value := 4 * significand * scale
    high := (4 * significand + 2) * scale
    unit := if 0 ≤ q then 4 else 4 <<< (-q).toNat
    closed := significand % 2 = 0 }

/-- Whether `n / d` rounds to the double. -/
def Interval.contains (i : Interval) (n d : Nat) : Bool :=
  if i.closed then i.low * d ≤ n * i.unit && n * i.unit ≤ i.high * d
  else i.low * d < n * i.unit && n * i.unit < i.high * d

/-- The exponent of the first digit of `n / d`. -/
def leadingExponent (n d : Nat) : Int :=
  if d ≤ n then Int.ofNat (Nat.toDigits 10 (n / d)).length - 1
  else -Int.ofNat (Nat.toDigits 10 ((d - 1) / n)).length

/-- A decimal `digits * 10 ^ exponent`. -/
structure Decimal where
  digits : Nat
  exponent : Int

/-- The nearest of the multiples of `10 ^ exponent` that round to the double, if one does: one of
the two neighbours of the double itself. -/
def Interval.onGrid? (i : Interval) (exponent : Int) : Option Decimal :=
  let up := Nat.pow 10 exponent.toNat
  let down := Nat.pow 10 (-exponent).toNat
  let inside (k : Nat) : Bool := i.contains (k * up) down
  let step := i.unit * up
  let floor := i.value * down / step
  let excess := i.value * down % step
  let nearerFirst := if 2 * excess < step ∨ (2 * excess = step ∧ floor % 2 = 0)
    then [floor, floor + 1] else [floor + 1, floor]
  (nearerFirst.find? inside).map (⟨·, exponent⟩)

/-- The decimal with the fewest digits that rounds to the double; of several the nearest. Seventeen
digits always do. -/
def Interval.shortest (i : Interval) : Decimal :=
  let leading := leadingExponent i.value i.unit
  ((List.range 17).findSome? fun k ↦ i.onGrid? (leading - Int.ofNat k)).getD
    ⟨i.value * Nat.pow 10 17 / i.unit, -17⟩

/-! ### Text -/

/-- The digits of a decimal and the exponent of the first of them, without zeros at the end. -/
def Decimal.spelled (d : Decimal) : List Char × Int :=
  let digits := Nat.toDigits 10 d.digits
  let kept := (digits.reverse.dropWhile (· = '0')).reverse
  (kept, d.exponent + Int.ofNat digits.length - 1)

/-- The text of a positive decimal: in positions where the first digit stands for `10 ^ -4` or more
and for less than `10 ^ 16`, with a point always; otherwise with an exponent of a sign and at least
two digits. -/
def Decimal.text (d : Decimal) : String :=
  let (digits, exponent) := d.spelled
  String.ofList <|
    if exponent < -4 ∨ 16 ≤ exponent then
      let mantissa := match digits with
        | first :: [] => [first]
        | first :: rest => first :: '.' :: rest
        | [] => []
      let size := Nat.toDigits 10 exponent.natAbs
      mantissa ++ ['e', if exponent < 0 then '-' else '+']
        ++ List.replicate (2 - size.length) '0' ++ size
    else if exponent < 0 then
      ['0', '.'] ++ List.replicate (exponent.natAbs - 1) '0' ++ digits
    else
      let whole := exponent.toNat + 1
      digits.take whole ++ List.replicate (whole - digits.length) '0' ++ ['.']
        ++ (if digits.length ≤ whole then ['0'] else digits.drop whole)

/-- The text of a double: the fewest digits that read back, or the name of what is no number. -/
def text (x : Float) : String :=
  let bits := x.toBits.toNat
  let magnitude := bits % (1 <<< 63)
  if infinityBits < magnitude then "nan"
  else
    let unsigned :=
      if magnitude = 0 then "0.0"
      else if magnitude = infinityBits then "inf"
      else (Interval.ofBits magnitude).shortest.text
    if magnitude = bits then unsigned else "-" ++ unsigned

end JsonShapes.Binary64
