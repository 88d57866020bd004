import Tapeworks.Text.Numeral
import Tapeworks.Binary64.Decimal

/-! JSON number literals. A literal keeps its digits as written, so that a reader decides whether it wants a word or a
    binary64 number. -/

namespace Tapeworks.Json

/-- The digits of a number literal. The exponent comes with its sign, `true` for a minus. -/
structure Number where
  negative : Bool
  whole : List Char
  fraction : Option (List Char)
  exponent : Option (Bool × List Char)
  deriving DecidableEq, Repr

namespace Number

/-! ### Words -/

def ofWord (n : Nat) : Number where
  negative := false
  whole := Nat.toDigits 10 n
  fraction := none
  exponent := none

/-- The value of a literal without sign, fraction and exponent, if it is a word. -/
def word? (n : Number) : Option Nat :=
  match n.negative, n.fraction, n.exponent with
  | false, none, none =>
    let value := Nat.ofDigitChars 10 n.whole 0
    if value < Text.wordLimit then some value else none
  | _, _, _ => none

/-! ### Binary64 numbers -/

/-- Appends digits to `n` as long as the result is a word, and leaves the others over. -/
def absorb (n : Nat) : List Char → Nat × List Char
  | [] => (n, [])
  | d :: ds =>
    let next := 10 * n + (d.toNat - '0'.toNat)
    if next < Text.wordLimit then absorb next ds else (n, d :: ds)

def exponentValue (n : Number) : Int :=
  match n.exponent with
  | none => 0
  | some (false, ds) => Nat.ofDigitChars 10 ds 0
  | some (true, ds) => -(Nat.ofDigitChars 10 ds 0 : Int)

/-- The number read from a literal: as many leading digits as form a word, scaled by the power of ten that the literal
    gives them. A literal past the largest number has none. -/
def binary64? (n : Number) : Option Binary64 := do
  let (digits, above) := absorb 0 n.whole
  let fraction := n.fraction.getD []
  let (digits, unused) := absorb digits fraction
  let below : Int := fraction.length - unused.length
  let x ← Binary64.scaled? digits (above.length - below + n.exponentValue)
  return { x with negative := n.negative }

/-- The position of the decimal point, counted from the first digit, from which and up to which a number is written
    without an exponent. -/
def leastPoint : Int := -4

def largestPoint : Int := 16

/-- The literal of `0.digits * 10 ^ point`. -/
def layOut (negative : Bool) (digits : List Char) (point : Int) : Number :=
  let count : Int := digits.length
  if count ≤ point ∧ point ≤ largestPoint then
    ⟨negative, digits ++ List.replicate (point - count).toNat '0', some ['0'], none⟩
  else if 0 < point ∧ point ≤ largestPoint then
    ⟨negative, digits.take point.toNat, some (digits.drop point.toNat), none⟩
  else if leastPoint ≤ point ∧ point ≤ 0 then
    ⟨negative, ['0'], some (List.replicate (-point).toNat '0' ++ digits), none⟩
  else
    let fraction := digits.drop 1
    let exponent := point - 1
    ⟨negative, digits.take 1, if fraction.isEmpty then none else some fraction,
      some (exponent < 0, Nat.toDigits 10 exponent.natAbs)⟩

def ofBinary64 (x : Binary64) : Number :=
  if x.isZero then ⟨x.negative, ['0'], some ['0'], none⟩
  else
    let d := x.shortest
    let digits := Nat.toDigits 10 d.digits
    layOut x.negative digits (d.exponent + digits.length)

/-! ### Text -/

def signText (negative : Bool) : List Char :=
  if negative then ['-'] else []

def fractionText : Option (List Char) → List Char
  | none => []
  | some ds => '.' :: ds

def exponentText : Option (Bool × List Char) → List Char
  | none => []
  | some (minus, ds) => 'e' :: (if minus then '-' else '+') :: ds

def text (n : Number) : List Char :=
  signText n.negative ++ n.whole ++ fractionText n.fraction ++ exponentText n.exponent

/-- The leading digits of a text and the rest. -/
def digits? (cs : List Char) : Option (List Char × List Char) :=
  let ds := cs.takeWhile Char.isDigit
  if ds.isEmpty then none else some (ds, cs.dropWhile Char.isDigit)

/-- Integer digits start with a zero only when they are a single zero. -/
def whole? (cs : List Char) : Option (List Char × List Char) := do
  let (ds, rest) ← digits? cs
  if ds.head? = some '0' && ds.length ≠ 1 then none else some (ds, rest)

def fraction? : List Char → Option (Option (List Char) × List Char)
  | '.' :: cs => do
    let (ds, rest) ← digits? cs
    return (some ds, rest)
  | cs => some (none, cs)

def exponentSign : List Char → Bool × List Char
  | '+' :: cs => (false, cs)
  | '-' :: cs => (true, cs)
  | cs => (false, cs)

def exponent? : List Char → Option (Option (Bool × List Char) × List Char)
  | c :: cs =>
    if c = 'e' ∨ c = 'E' then do
      let (minus, cs) := exponentSign cs
      let (ds, rest) ← digits? cs
      return (some (minus, ds), rest)
    else some (none, c :: cs)
  | [] => some (none, [])

def minusSign : List Char → Bool × List Char
  | '-' :: cs => (true, cs)
  | cs => (false, cs)

/-- The number literal at the front of a text and the rest of the text. -/
def read? (cs : List Char) : Option (Number × List Char) := do
  let (negative, cs) := minusSign cs
  let (whole, cs) ← whole? cs
  let (fraction, cs) ← fraction? cs
  let (exponent, cs) ← exponent? cs
  return (⟨negative, whole, fraction, exponent⟩, cs)

/-! ### Lengths -/

theorem digits?_shorter {cs ds rest : List Char} (h : digits? cs = some (ds, rest)) : rest.length < cs.length := by
  simp only [digits?] at h
  split at h
  · cases h
  · rename_i hne
    simp only [Option.some.injEq, Prod.mk.injEq] at h
    obtain ⟨-, rfl⟩ := h
    have hsplit := congrArg List.length (List.takeWhile_append_dropWhile (p := Char.isDigit) (l := cs))
    rw [List.length_append] at hsplit
    have : (cs.takeWhile Char.isDigit).length ≠ 0 := by
      intro h0
      exact hne (by simp [List.eq_nil_of_length_eq_zero h0])
    omega

theorem whole?_shorter {cs ds rest : List Char} (h : whole? cs = some (ds, rest)) : rest.length < cs.length := by
  simp only [whole?, Option.bind_eq_bind, Option.bind_eq_some_iff] at h
  obtain ⟨⟨ds', rest'⟩, hd, h⟩ := h
  split at h
  · cases h
  · simp only [Option.some.injEq, Prod.mk.injEq] at h
    exact h.2 ▸ digits?_shorter hd

theorem fraction?_le {cs rest : List Char} {o : Option (List Char)} (h : fraction? cs = some (o, rest)) :
    rest.length ≤ cs.length := by
  unfold fraction? at h
  split at h
  · simp only [Option.bind_eq_bind, Option.bind_eq_some_iff] at h
    obtain ⟨⟨ds, rest'⟩, hd, h⟩ := h
    simp only [Option.pure_def, Option.some.injEq, Prod.mk.injEq] at h
    have := digits?_shorter hd
    rw [List.length_cons, ← h.2]
    omega
  · simp only [Option.some.injEq, Prod.mk.injEq] at h
    exact h.2 ▸ Nat.le_refl _

theorem exponentSign_le (cs : List Char) : (exponentSign cs).2.length ≤ cs.length := by
  unfold exponentSign
  split <;> simp

theorem exponent?_le {cs rest : List Char} {o : Option (Bool × List Char)} (h : exponent? cs = some (o, rest)) :
    rest.length ≤ cs.length := by
  unfold exponent? at h
  split at h
  · rename_i c cs
    split at h
    · simp only [Option.bind_eq_bind, Option.bind_eq_some_iff] at h
      obtain ⟨⟨ds, rest'⟩, hd, h⟩ := h
      simp only [Option.pure_def, Option.some.injEq, Prod.mk.injEq] at h
      have := digits?_shorter hd
      have := exponentSign_le cs
      rw [List.length_cons, ← h.2]
      omega
    · simp only [Option.some.injEq, Prod.mk.injEq] at h
      exact h.2 ▸ Nat.le_refl _
  · simp only [Option.some.injEq, Prod.mk.injEq] at h
    exact h.2 ▸ Nat.zero_le _

theorem minusSign_le (cs : List Char) : (minusSign cs).2.length ≤ cs.length := by
  unfold minusSign
  split <;> simp

theorem read?_shorter {cs rest : List Char} {n : Number} (h : read? cs = some (n, rest)) :
    rest.length < cs.length := by
  simp only [read?, Option.bind_eq_bind, Option.bind_eq_some_iff] at h
  obtain ⟨⟨ds, r₁⟩, h₁, ⟨o₂, r₂⟩, h₂, ⟨o₃, r₃⟩, h₃, h⟩ := h
  simp only [Option.pure_def, Option.some.injEq, Prod.mk.injEq] at h
  have sign := minusSign_le cs
  have whole : r₁.length < (minusSign cs).2.length := whole?_shorter h₁
  have fraction : r₂.length ≤ r₁.length := fraction?_le h₂
  have exponent : r₃.length ≤ r₂.length := exponent?_le h₃
  rw [← h.2]
  omega

end Number

end Tapeworks.Json
