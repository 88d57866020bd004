/-! Finite binary64 numbers. The finite magnitudes form a chain from zero upwards, and a number is a sign and the rank
    of its magnitude in that chain, so a neighbour is one rank away. Arithmetic rounds to the nearest number, ties to
    the even rank, and has no result past the largest one. -/

namespace Tapeworks

/-- Two to the 52nd: so many magnitudes share each exponent. -/
def Binary64.perExponent : Nat := 1 <<< 52

/-- How many magnitudes are finite. -/
def Binary64.magnitudes : Nat := 2047 * perExponent

structure Binary64 where
  negative : Bool
  rank : Fin Binary64.magnitudes
  deriving DecidableEq, Repr

namespace Binary64

def zero : Binary64 :=
  ⟨false, 0, by decide⟩

instance : Inhabited Binary64 := ⟨zero⟩

/-- The magnitude is `significand * 2 ^ exponent`. -/
def significand (x : Binary64) : Nat :=
  if x.rank.val < perExponent then x.rank.val else perExponent + x.rank.val % perExponent

def exponent (x : Binary64) : Int :=
  (max (x.rank.val / perExponent) 1 : Nat) - 1075

def isZero (x : Binary64) : Bool :=
  x.rank.val == 0

def negate (x : Binary64) : Binary64 :=
  { x with negative := !x.negative }

/-- Numerator and denominator of the magnitude. -/
def ratio (x : Binary64) : Nat × Nat :=
  if 0 ≤ x.exponent then (x.significand <<< x.exponent.toNat, 1)
  else (x.significand, 1 <<< (-x.exponent).toNat)

/-- The integer nearest to `a / b`, a half going to the even one. -/
def divideToNearest (a b : Nat) : Nat :=
  let q := a / b
  let twice := 2 * (a % b)
  if b < twice || (twice == b && q % 2 == 1) then q + 1 else q

/-- The largest `k` with `2 ^ k ≤ a / b`, for positive `a` and `b`. -/
def log2Ratio (a b : Nat) : Int :=
  let k : Int := (a.log2 : Int) - b.log2
  let reached := if 0 ≤ k then b <<< k.toNat ≤ a else b ≤ a <<< (-k).toNat
  if reached then k else k - 1

/-- The rank nearest to `a / b`, as if the chain went on past the largest number. -/
def nearestRank (a b : Nat) : Nat :=
  if a = 0 then 0
  else
    let e := max (log2Ratio a b - 52) (-1074)
    let m := if 0 ≤ e then divideToNearest a (b <<< e.toNat) else divideToNearest (a <<< (-e).toNat) b
    (e + 1074).toNat * perExponent + m

def ofRatio? (negative : Bool) (a b : Nat) : Option Binary64 :=
  if h : nearestRank a b < magnitudes then some ⟨negative, nearestRank a b, h⟩ else none

def ofNat? (n : Nat) : Option Binary64 :=
  ofRatio? false n 1

def mul? (x y : Binary64) : Option Binary64 :=
  ofRatio? (x.negative != y.negative) (x.ratio.1 * y.ratio.1) (x.ratio.2 * y.ratio.2)

/-- The quotient by a number other than zero. -/
def div? (x y : Binary64) : Option Binary64 :=
  ofRatio? (x.negative != y.negative) (x.ratio.1 * y.ratio.2) (x.ratio.2 * y.ratio.1)

/-! ### Scaling by powers of ten -/

/-- The largest power of ten in one scaling step. -/
def largestPower : Nat := 308

def scaleUp? (x : Binary64) (k : Nat) : Option Binary64 :=
  if k ≤ largestPower then do x.mul? (← ofNat? (Nat.pow 10 k))
  else if x.isZero then some x
  else none

/-- Divides by the largest power as often as it fits into `10 ^ k`, and by the rest of it last. -/
def scaleDown? (x : Binary64) (k : Nat) : Option Binary64 :=
  if k ≤ largestPower then do x.div? (← ofNat? (Nat.pow 10 k))
  else if x.isZero then some x
  else do scaleDown? (← x.div? (← ofNat? (Nat.pow 10 largestPower))) (k - largestPower)
termination_by k
decreasing_by simp only [largestPower] at *; omega

/-- The number read for `digits * 10 ^ exponent`: the digits are rounded first and scaled afterwards. -/
def scaled? (digits : Nat) (exponent : Int) : Option Binary64 := do
  let x ← ofNat? digits
  if 0 ≤ exponent then x.scaleUp? exponent.toNat else x.scaleDown? (-exponent).toNat

end Binary64

end Tapeworks
