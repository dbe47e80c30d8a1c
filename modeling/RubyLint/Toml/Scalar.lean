import RubyLint.Number.Digits
import RubyLint.Number.Double

/-!
# Values and scalars of a TOML document

A document is a table of keys and values in the order in which they are first written.  A word without
quotes denotes a scalar: a truth value, a number, or a date and time.
-/

namespace RubyLint

inductive Toml where
  | text (s : String)
  | integer (n : Int)
  | float (x : Number.Double)
  | boolean (b : Bool)
  /-- a date, a time of day, or both -/
  | moment (written : String)
  | list (items : List Toml)
  | table (entries : List (String × Toml))

namespace Toml

def lookup? (key : String) : List (String × Toml) → Option Toml
  | [] => none
  | (k, v) :: rest => if k = key then some v else lookup? key rest

/-! ## scalars -/

def isDigit (c : Char) : Bool := '0' ≤ c && c ≤ '9'

/-- The digits without the underscores between them; an underscore anywhere else is refused. -/
def joinDigits (isFigure : Char → Bool) : List Char → Option (List Char)
  | [] => none
  | [c] => if isFigure c then some [c] else none
  | c :: '_' :: cs => if isFigure c then (joinDigits isFigure cs).map (c :: ·) else none
  | c :: cs => if isFigure c then (joinDigits isFigure cs).map (c :: ·) else none

/-- A number without a sign in a base that is written in front of it. -/
def basedInteger (base : Nat) (cs : List Char) : Option Int := do
  let digits ← joinDigits (fun c => (Number.digitIn base c).isSome) cs
  let n ← Number.readDigits base digits
  return n

/-- Decimal digits of which the first is a zero only when it is the only one. -/
def plainDigits (cs : List Char) : Option (List Char) := do
  let digits ← joinDigits isDigit cs
  if digits.head? = some '0' && 1 < digits.length then none else some digits

/-- The largest size of an integer that can be read. -/
def maxInteger : Nat := 0xffffffffffffffffffffffffffffffff

def integer? (cs : List Char) : Option Toml := do
  let n ← match cs with
    | '0' :: 'x' :: r => basedInteger 16 r
    | '0' :: 'o' :: r => basedInteger 8 r
    | '0' :: 'b' :: r => basedInteger 2 r
    | _ => do
      let (isNegative, digits) := Number.splitSign cs
      let n ← Number.readDigits 10 (← plainDigits digits)
      pure (if isNegative then -(n : Int) else n)
  if n.natAbs ≤ maxInteger then some (.integer n) else none

/-- Splits before the first character that satisfies the condition. -/
def splitBefore (p : Char → Bool) (cs : List Char) : List Char × List Char :=
  (cs.takeWhile (fun c => !p c), cs.dropWhile fun c => !p c)

def float? (cs : List Char) : Option Toml := do
  let (_, body) := Number.splitSign cs
  let unsigned := String.ofList body
  if unsigned = "inf" || unsigned = "nan" then
    return .float (← Number.Double.ofDecimal cs)
  let (mantissa, exponent) := splitBefore (fun c => c == 'e' || c == 'E') body
  let (whole, fraction) := splitBefore (· == '.') mantissa
  let wholeDigits ← plainDigits whole
  let fractionDigits ← match fraction with
    | [] => some []
    | _ :: ds => (joinDigits isDigit ds).map ('.' :: ·)
  let exponentDigits ← match exponent with
    | [] => some []
    | _ :: ds => do
      let digits ← joinDigits isDigit (Number.splitSign ds).2
      pure ('e' :: ((if ds.head? = some '-' then ['-'] else []) ++ digits))
  if fraction.isEmpty && exponent.isEmpty then none
  else
    let x ← Number.Double.ofDecimal (wholeDigits ++ fractionDigits ++ exponentDigits)
    if x.isInfinite then none
    else return .float (if cs.head? = some '-' then x.neg else x)

/-! ## dates and times -/

def twoDigits? : List Char → Option (Nat × List Char)
  | a :: b :: cs => if isDigit a && isDigit b then
      (Number.readDigits 10 [a, b]).map fun n => (n, cs) else none
  | _ => none

def isLeapYear (y : Nat) : Bool := y % 4 == 0 && (y % 100 != 0 || y % 400 == 0)

def daysIn (year month : Nat) : Nat :=
  if month = 2 then (if isLeapYear year then 29 else 28)
  else if month ∈ [4, 6, 9, 11] then 30 else 31

def afterDate? (cs : List Char) : Option (List Char) := do
  let year ← Number.readDigits 10 (cs.take 4)
  match cs.drop 4 with
  | '-' :: r =>
    let (month, r) ← twoDigits? r
    match r with
    | '-' :: r =>
      let (day, r) ← twoDigits? r
      if 1 ≤ month && month ≤ 12 && 1 ≤ day && day ≤ daysIn year month then some r else none
    | _ => none
  | _ => none

def afterTime? (cs : List Char) : Option (List Char) := do
  let (hour, r) ← twoDigits? cs
  match r with
  | ':' :: r =>
    let (minute, r) ← twoDigits? r
    if 23 < hour || 59 < minute then none
    else match r with
      | ':' :: r =>
        let (second, r) ← twoDigits? r
        if 60 < second then none
        else match r with
          | '.' :: d :: r => if isDigit d then some (r.dropWhile isDigit) else none
          | r => some r
      | r => some r
  | _ => none

/-- The text is the distance from universal time. -/
def isOffset : List Char → Bool
  | ['Z'] | ['z'] => true
  | s :: r =>
    (s == '+' || s == '-') &&
      match twoDigits? r with
      | some (hour, ':' :: m) =>
        match twoDigits? m with
        | some (minute, []) => hour ≤ 23 && minute ≤ 59
        | _ => false
      | _ => false
  | [] => false

def isMoment (cs : List Char) : Bool :=
  match afterDate? cs with
  | some [] => true
  | some (t :: r) =>
    (t == 'T' || t == 't' || t == ' ') &&
      match afterTime? r with
      | some [] => true
      | some z => isOffset z
      | none => false
  | none => afterTime? cs == some []

def ofWord? (cs : List Char) : Option Toml :=
  match String.ofList cs with
  | "true" => some (.boolean true)
  | "false" => some (.boolean false)
  | w =>
    if isMoment cs then some (.moment w) else integer? cs <|> float? cs

end Toml

end RubyLint
