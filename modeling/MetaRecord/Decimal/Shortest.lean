/-
# `MetaRecord.Decimal.Shortest` — the fewest digits that read back

Every finite double-precision number stands for an interval of real numbers:
those that are rounded to it.  Its shortest decimal is the one with the fewest
significant digits inside that interval, of several the nearest to the number
itself, and of two equally near the one with an even last digit.

The search is exact.  All ends of the interval are written over one
denominator, and for one digit, two digits and so on the two neighbours of the
number on that decimal grid are tested.  Seventeen digits always suffice.
-/
import MetaRecord.Decimal.Binary64

namespace MetaRecord.Decimal

/-- A positive decimal number `digits · 10 ^ exponent`. -/
structure Scientific where
  digits : Nat
  exponent : Int
deriving DecidableEq, Repr

/-- The real numbers that are rounded to a positive number: from `low / den`
to `high / den`, around `value / den`.  The ends belong to it or do not. -/
structure Rounding where
  low : Nat
  value : Nat
  high : Nat
  den : Nat
  closed : Bool

namespace Rounding

/-- The interval of a positive finite number.  Below a power of two the next
number is nearer, and so is the lower end. -/
def ofBinary64 (x : Binary64) : Rounding :=
  let m := x.significand
  let below := if x.fractionField = 0 ∧ 1 < x.exponentField then 1 else 2
  let scale := Nat.pow 2 (x.binade - 1077)
  { low := (4 * m - below) * scale
    value := 4 * m * scale
    high := (4 * m + 2) * scale
    den := Nat.pow 2 (1077 - x.binade)
    closed := m % 2 = 0 }

/-- The interval with every end multiplied by `10 ^ (-e)`. -/
def shift (r : Rounding) (e : Int) : Rounding :=
  let up := Nat.pow 10 (-e).toNat
  { r with
    low := r.low * up
    value := r.value * up
    high := r.high * up
    den := r.den * Nat.pow 10 e.toNat }

/-- The whole number `c` lies in the interval. -/
def holds (r : Rounding) (c : Nat) : Bool :=
  if r.closed then r.low ≤ c * r.den && c * r.den ≤ r.high
  else r.low < c * r.den && c * r.den < r.high

/-- The whole number in the interval that is nearest to its value, if one of
the two neighbours of the value lies in it. -/
def nearest? (r : Rounding) : Option Nat :=
  let c := r.value / r.den
  match r.holds c, r.holds (c + 1) with
  | false, false => none
  | true, false => some c
  | false, true => some (c + 1)
  | true, true =>
    let twice := 2 * (r.value % r.den)
    if twice < r.den then some c
    else if r.den < twice then some (c + 1)
    else some (if c % 2 = 0 then c else c + 1)

/-- The number of decimal digits of `n`. -/
def digitCount (n : Nat) : Nat := (Nat.toDigits 10 n).length

/-- Where the decimal point stands: the value is below `10 ^ point` and not
below a tenth of it. -/
def point (r : Rounding) : Int :=
  if r.den ≤ r.value then digitCount (r.value / r.den)
  else 1 - (digitCount ((r.den - 1) / r.value) : Int)

/-- The shortest decimal with at least `n` digits, in `tries` attempts. -/
def search (r : Rounding) (point : Int) : (tries n : Nat) → Option Scientific
  | 0, _ => none
  | tries + 1, n =>
    match (r.shift (point - n)).nearest? with
    | some digits => some ⟨digits, point - n⟩
    | none => r.search point tries (n + 1)

end Rounding

/-- The number without the zeros that end its digits; at most `fuel` of them. -/
def Scientific.trim : (fuel : Nat) → Scientific → Scientific
  | 0, s => s
  | fuel + 1, s =>
    if s.digits ≠ 0 ∧ s.digits % 10 = 0 then trim fuel ⟨s.digits / 10, s.exponent + 1⟩ else s

/-- The shortest decimal of a finite number's magnitude; zero has no digits. -/
def shortest (x : Binary64) : Scientific :=
  if x.significand = 0 then ⟨0, 0⟩
  else
    let r := Rounding.ofBinary64 x
    ((r.search r.point 17 1).getD ⟨0, 0⟩).trim 17

/-! ## As text -/

/-- How a decimal is laid out: it is positional when its point stands from
`first` to `last` digits after its first digit's left edge, and otherwise one
digit stands before the point and a power of ten after the digits. -/
structure Style where
  first : Int
  last : Int
deriving Repr

/-- An exponent as text, always with a sign. -/
def exponentText (e : Int) : List Char :=
  (if e < 0 then '-' else '+') :: Nat.toDigits 10 e.natAbs

def Style.positive (style : Style) (s : Scientific) : List Char :=
  let digits := Nat.toDigits 10 s.digits
  let point : Int := digits.length + s.exponent
  if style.first ≤ point ∧ point ≤ style.last then
    if 0 ≤ s.exponent then digits ++ List.replicate s.exponent.toNat '0' ++ ['.', '0']
    else if 0 < point then digits.take point.toNat ++ '.' :: digits.drop point.toNat
    else '0' :: '.' :: List.replicate (-point).toNat '0' ++ digits
  else
    match digits with
    | [d] => d :: 'e' :: exponentText (point - 1)
    | d :: rest => d :: '.' :: rest ++ 'e' :: exponentText (point - 1)
    | [] => []

/-- The text of a finite number.  Zero keeps its sign. -/
def Style.text (style : Style) (x : Binary64) : List Char :=
  let magnitude :=
    if x.significand = 0 then ['0', '.', '0'] else style.positive (shortest x)
  if x.isNegative then '-' :: magnitude else magnitude

end MetaRecord.Decimal
