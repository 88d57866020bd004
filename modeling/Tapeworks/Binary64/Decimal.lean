import Tapeworks.Binary64

/-! The shortest decimals of binary64 numbers: the fewest digits that round to the number, and of those the nearest
    to it. -/

namespace Tapeworks.Binary64

/-- The magnitude `digits * 10 ^ exponent`. -/
structure Decimal where
  digits : Nat
  exponent : Int
  deriving DecidableEq, Repr

namespace Decimal

/-- Leaves out zeros at the end of the digits. -/
def strip (d : Decimal) : Decimal :=
  if h : d.digits ≠ 0 ∧ d.digits % 10 = 0 then strip ⟨d.digits / 10, d.exponent + 1⟩ else d
termination_by d.digits
decreasing_by exact Nat.div_lt_self (Nat.pos_of_ne_zero h.1) (by decide)

end Decimal

/-- A magnitude and the ends of its rounding interval, over one denominator. -/
structure Interval where
  low : Nat
  value : Nat
  high : Nat
  denominator : Nat
  closed : Bool

/-- The reals that round to the magnitude of `x`. The ends belong to it when the rank is even. -/
def interval (x : Binary64) : Interval :=
  let m := x.significand
  let below := if m = perExponent ∧ x.exponent ≠ -1074 then 1 else 2
  let e := x.exponent - 2
  let unit := 1 <<< e.toNat
  { low := (4 * m - below) * unit, value := 4 * m * unit, high := (4 * m + 2) * unit,
    denominator := 1 <<< (-e).toNat, closed := m % 2 = 0 }

/-- Whether `c / d`, given over the interval's denominator, rounds to the interval's value. -/
def Interval.contains (i : Interval) (c d : Nat) : Bool :=
  let low := i.low * d
  let high := i.high * d
  (low < c && c < high) || (i.closed && (low == c || high == c))

def digitCount (n : Nat) : Nat :=
  (Nat.toDigits 10 n).length

/-- The `k` with `10 ^ (k - 1) ≤ a / b < 10 ^ k`, for positive `a` and `b`. -/
def decimalPoint (a b : Nat) : Int :=
  if b ≤ a then digitCount (a / b) else 1 - (digitCount ((b - 1) / a) : Int)

/-- The neighbour of the value with `n` digits that lies in the interval: of two the nearer one, of two equally near
    ones the even one. -/
def candidate? (i : Interval) (n : Nat) : Option Decimal :=
  let e := decimalPoint i.value i.denominator - n
  let up := Nat.pow 10 e.toNat
  let down := Nat.pow 10 (-e).toNat
  let scale := i.denominator * up
  let a := i.value * down
  let c := a / scale
  let twice := 2 * (a % scale)
  let inside := fun k => i.contains (k * scale) down
  let nearer := if twice < scale || (twice == scale && c % 2 == 0) then c else c + 1
  let farther := if nearer = c then c + 1 else c
  if inside nearer then some ⟨nearer, e⟩
  else if inside farther then some ⟨farther, e⟩
  else none

/-- Seventeen digits always suffice. -/
def mostDigits : Nat := 17

def shortest (x : Binary64) : Decimal :=
  if x.isZero then ⟨0, 0⟩
  else (((List.range' 1 mostDigits).findSome? (candidate? x.interval)).getD ⟨0, 0⟩).strip

end Tapeworks.Binary64
