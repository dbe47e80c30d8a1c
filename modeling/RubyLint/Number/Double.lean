import RubyLint.Number.Digits

/-!
# Binary floating-point numbers

A `Double` is a number of sixty-four bits in the usual binary form: a sign, an exponent of eleven
bits and fifty-two bits of a mantissa.  `ofRatio` rounds a positive ratio to the nearest one, a tie
to the even mantissa; `ofDecimal` reads a decimal text; `text` writes the fewest digits that read
back, positionally for zero and for sizes from `1e-4` to below `1e16`.
-/

namespace RubyLint.Number

/-- A number of sixty-four bits: one of sign, eleven of exponent, fifty-two of mantissa. -/
structure Double where
  bits : UInt64
deriving DecidableEq, Inhabited

namespace Double

def signWeight : Nat := 0x8000000000000000

/-- The number of bits of the mantissa that are written down. -/
def mantissaBits : Nat := 52

/-- The weight of the bit in front of the mantissa, which is not written down. -/
def hiddenBit : Nat := Nat.pow 2 mantissaBits

/-- The exponent of the smallest positive number. -/
def lowestExponent : Int := -1074

/-- The exponent field of infinities and of numbers that are none. -/
def specialField : Nat := 2047

def magnitude (x : Double) : Nat := x.bits.toNat % signWeight

def isNegative (x : Double) : Bool := signWeight ≤ x.bits.toNat

def field (x : Double) : Nat := x.magnitude / hiddenBit

def fraction (x : Double) : Nat := x.magnitude % hiddenBit

def isNaN (x : Double) : Bool := x.field == specialField && x.fraction != 0

def isInfinite (x : Double) : Bool := x.field == specialField && x.fraction == 0

def ofMagnitude (negative : Bool) (n : Nat) : Double :=
  ⟨UInt64.ofNat (n + if negative then signWeight else 0)⟩

def infinityMagnitude : Nat := specialField * hiddenBit

/-- The magnitude of the number that is none. -/
def nanMagnitude : Nat := infinityMagnitude + hiddenBit / 2

/-- The same number with the other sign. -/
def neg (x : Double) : Double := ofMagnitude (!x.isNegative) x.magnitude

/-- Equal as numbers: the two zeros are equal, and what is no number equals nothing. -/
def numEq (x y : Double) : Bool :=
  !x.isNaN && !y.isNaN && (x.bits == y.bits || (x.magnitude == 0 && y.magnitude == 0))

/-! ## Reading -/

/-- The quotient rounded to the nearest natural number, a tie to the even one. -/
def roundDiv (num den : Nat) : Nat :=
  let q := num / den
  let r := num % den
  if 2 * r < den then q
  else if den < 2 * r then q + 1
  else if q % 2 = 0 then q else q + 1

/-- `num / (den * 2 ^ e)` as a pair of naturals. -/
def scaleDown (num den : Nat) (e : Int) : Nat × Nat :=
  if 0 ≤ e then (num, den * Nat.pow 2 e.toNat) else (num * Nat.pow 2 (-e).toNat, den)

/-- The magnitude of the number nearest to `num / den`. -/
def ofRatio (num den : Nat) : Nat :=
  if num = 0 then 0
  else
    let size : Int := (num.log2 : Int) - (den.log2 : Int)
    let first := max lowestExponent (size - mantissaBits)
    let (n, d) := scaleDown num den first
    let e := if n / d < hiddenBit then max lowestExponent (first - 1) else first
    let (n, d) := scaleDown num den e
    let mantissa := roundDiv n d
    let bits := ((e - lowestExponent).toNat) * hiddenBit + mantissa
    min bits infinityMagnitude

/-- The magnitude of `digits * 10 ^ exponent`, where `digits` has `count` digits. -/
def ofScientific (digits count : Nat) (exponent : Int) : Nat :=
  if digits = 0 then 0
  else if exponent + count > 400 then infinityMagnitude
  else if exponent + count < -400 then 0
  else if 0 ≤ exponent then ofRatio (digits * Nat.pow 10 exponent.toNat) 1
  else ofRatio digits (Nat.pow 10 (-exponent).toNat)

def isDigit (c : Char) : Bool := '0' ≤ c && c ≤ '9'

/-- Reads an exponent text such as `e-3`; the empty text is exponent zero. -/
def readExponent : List Char → Option Int
  | [] => some 0
  | c :: cs =>
    if c = 'e' ∨ c = 'E' then
      let (negative, digits) := splitSign cs
      (readDigits 10 digits).map fun n => if negative then -(n : Int) else n
    else none

/-- The text in lower case, as far as it is of ASCII letters. -/
def lower (cs : List Char) : List Char := cs.map Char.toLower

/-- Reads an unsigned decimal text: digits with at most one point, at least one digit, and an
optional exponent; or the name of an infinity or of the number that is none. -/
def readMagnitude (cs : List Char) : Option Nat :=
  if lower cs = "inf".toList ∨ lower cs = "infinity".toList then some infinityMagnitude
  else if lower cs = "nan".toList then some nanMagnitude
  else
    let whole := cs.takeWhile isDigit
    let rest := cs.dropWhile isDigit
    let (part, tail) := match rest with
      | '.' :: r => (r.takeWhile isDigit, r.dropWhile isDigit)
      | r => ([], r)
    if whole.isEmpty && part.isEmpty then none
    else
      match readExponent tail, readDigits 10 (whole ++ part) with
      | some e, some n =>
        let significant := ((whole ++ part).dropWhile (· == '0')).length
        some (ofScientific n significant (e - part.length))
      | _, _ => none

/-- Reads a decimal text with an optional sign. -/
def ofDecimal (cs : List Char) : Option Double :=
  let (negative, unsigned) := splitSign cs
  (readMagnitude unsigned).map (ofMagnitude negative)

/-! ## Writing -/

/-- The number of decimal digits; zero has one. -/
def digitCount (n : Nat) : Nat := (Nat.toDigits 10 n).length

/-- The exponent of the highest decimal digit of `num / den`. -/
def decimalExponent (num den : Nat) : Int :=
  if den ≤ num then (digitCount (num / den) : Int) - 1
  else
    let e : Int := -(digitCount (den / num) : Int)
    if den ≤ num * Nat.pow 10 (-e - 1).toNat then e + 1 else e

/-- The decimal `digits * 10 ^ exponent` on the scale of quarters of the last place: the pair of
naturals to compare with it and with the value. -/
def onScale (digits : Nat) (exponent : Int) (unit : Int) : Nat × Nat :=
  -- digits * 10 ^ exponent  against  x * 2 ^ unit
  let tens := if 0 ≤ exponent then Nat.pow 10 exponent.toNat else 1
  let tenths := if 0 ≤ exponent then 1 else Nat.pow 10 (-exponent).toNat
  let twos := if 0 ≤ unit then Nat.pow 2 unit.toNat else 1
  let halves := if 0 ≤ unit then 1 else Nat.pow 2 (-unit).toNat
  (digits * tens * halves, tenths * twos)

/-- The reals that round to a number, in quarters of its last place. -/
structure Interval where
  low : Nat
  mid : Nat
  high : Nat
  closed : Bool
  unit : Int

/-- The interval of the number with this magnitude, which is positive and finite. -/
def interval (magnitude : Nat) : Interval :=
  let field := magnitude / hiddenBit
  let fraction := magnitude % hiddenBit
  let m := if field = 0 then fraction else fraction + hiddenBit
  let e := lowestExponent + (if field = 0 then 0 else (field : Int) - 1)
  let below := if fraction = 0 ∧ 1 < field then 1 else 2
  { low := 4 * m - below, mid := 4 * m, high := 4 * m + 2, closed := m % 2 == 0, unit := e - 2 }

def Interval.holds (i : Interval) (digits : Nat) (exponent : Int) : Bool :=
  let (n, d) := onScale digits exponent i.unit
  if i.closed then decide (i.low * d ≤ n) && decide (n ≤ i.high * d)
  else decide (i.low * d < n) && decide (n < i.high * d)

/-- How far the decimal is from the value, on a scale common to all decimals of one exponent. -/
def Interval.distance (i : Interval) (digits : Nat) (exponent : Int) : Nat :=
  let (n, d) := onScale digits exponent i.unit
  if n ≤ i.mid * d then i.mid * d - n else n - i.mid * d

/-- The first grid of `17 - left` or more digits that holds a point of the interval, and of two
points the nearer. -/
def shortestFrom (i : Interval) (top : Int) : Nat → Nat × Int
  | 0 => (0, 0)
  | left + 1 =>
    let places : Nat := 17 - left
    let exponent := top - places + 1
    let (unitNum, unitDen) := onScale 1 exponent i.unit
    let down := i.mid * unitDen / unitNum
    let up := down + 1
    match i.holds down exponent, i.holds up exponent with
    | true, true =>
      if i.distance down exponent < i.distance up exponent then (down, exponent)
      else (up, exponent)
    | true, false => (down, exponent)
    | false, true => (up, exponent)
    | false, false => shortestFrom i top left

/-- The shortest decimal of a positive finite magnitude: its digits and its exponent. -/
def shortest (magnitude : Nat) : Nat × Int :=
  let i := interval magnitude
  let (n, d) := if 0 ≤ i.unit then (i.mid * Nat.pow 2 i.unit.toNat, 1) else (i.mid, Nat.pow 2 (-i.unit).toNat)
  shortestFrom i (decimalExponent n d) 17

/-- Zeros at the end of the digits moved into the exponent. -/
def stripZeros : Nat → Nat × Int → Nat × Int
  | 0, p => p
  | fuel + 1, (digits, e) =>
    if digits % 10 = 0 ∧ digits ≠ 0 then stripZeros fuel (digits / 10, e + 1) else (digits, e)

/-- Digits in positional form, with at least one digit on each side of the point. -/
def positional (digits : List Char) (exponent : Int) : List Char :=
  if 0 ≤ exponent then digits ++ List.replicate exponent.toNat '0' ++ ['.', '0']
  else
    let places := (-exponent).toNat
    if places < digits.length then
      digits.take (digits.length - places) ++ '.' :: digits.drop (digits.length - places)
    else '0' :: '.' :: (List.replicate (places - digits.length) '0' ++ digits)

/-- Digits in exponent form, the point after the first. -/
def exponential (digits : List Char) (exponent : Int) : List Char :=
  let power : Int := exponent + digits.length - 1
  let mantissa := match digits with
    | [] => []
    | [c] => [c]
    | c :: cs => c :: '.' :: cs
  mantissa ++ 'e' :: (toString power).toList

def magnitudeText (magnitude : Nat) : List Char :=
  if magnitude = 0 then ['0', '.', '0']
  else if infinityMagnitude < magnitude then "NaN".toList
  else if infinityMagnitude = magnitude then "inf".toList
  else
    let (n, e) := stripZeros 17 (shortest magnitude)
    let digits := Nat.toDigits 10 n
    let top : Int := e + digits.length - 1
    if -4 ≤ top ∧ top < 16 then positional digits e else exponential digits e

/-- The fewest digits that read back as the number. -/
def text (x : Double) : List Char :=
  let body := magnitudeText x.magnitude
  if x.isNegative && !x.isNaN then '-' :: body else body

/-- Digits in positional form, with a point only where digits follow it. -/
def plainPositional (digits : List Char) (exponent : Int) : List Char :=
  if 0 ≤ exponent then digits ++ List.replicate exponent.toNat '0' else positional digits exponent

/-- The fewest digits that read back as the number, always in positional form. -/
def plainText (x : Double) : List Char :=
  let m := x.magnitude
  let body :=
    if m = 0 then ['0']
    else if infinityMagnitude ≤ m then magnitudeText m
    else
      let (n, e) := stripZeros 17 (shortest m)
      plainPositional (Nat.toDigits 10 n) e
  if x.isNegative && !x.isNaN then '-' :: body else body

end Double

end RubyLint.Number
