import Mathlib.Algebra.Order.Ring.Nat
import Tapeworks.Binary64.Decimal

/-! The digits of the shortest decimal of a number form a number without leading zeros: with the decimal point taken
    where the number begins, its first digit is not zero. -/

namespace Tapeworks.Binary64

/-! ### Digit counts -/

theorem digitCount_pos (n : Nat) : 0 < digitCount n :=
  Nat.length_toDigits_pos

theorem lt_pow_digitCount (n : Nat) : n < 10 ^ digitCount n :=
  (Nat.length_toDigits_le_iff (by decide) (digitCount_pos n)).mp (Nat.le_refl _)

theorem pow_digitCount_le {n k : Nat} (hn : 0 < n) (hk : k < digitCount n) : 10 ^ k ≤ n := by
  match k with
  | 0 => exact hn
  | k + 1 =>
    by_contra hlt
    have hle := (Nat.length_toDigits_le_iff (b := 10) (by decide) (Nat.succ_pos k)).mpr (Nat.lt_of_not_le hlt)
    exact absurd hk (Nat.not_lt.mpr hle)

/-! ### The decimal point -/

/-- Shifted by its decimal point, `a / b` is at least one before any digit is asked for. -/
theorem scale_le {a b n : Nat} (ha : 0 < a) (hb : 0 < b) (hn : 0 < n) :
    b * 10 ^ (decimalPoint a b - n).toNat ≤ a * 10 ^ (-(decimalPoint a b - n)).toNat := by
  unfold decimalPoint
  split
  · rename_i hle
    have hpos : 0 < 10 ^ (-((digitCount (a / b) : Int) - n)).toNat := Nat.pow_pos (by decide)
    have hquot : 10 ^ ((digitCount (a / b) : Int) - n).toNat ≤ a / b := by
      have := digitCount_pos (a / b)
      exact pow_digitCount_le (Nat.div_pos hle hb) (by omega)
    calc b * 10 ^ ((digitCount (a / b) : Int) - n).toNat
        ≤ b * (a / b) := Nat.mul_le_mul_left b hquot
      _ ≤ a := Nat.mul_div_le a b
      _ ≤ a * 10 ^ (-((digitCount (a / b) : Int) - n)).toNat := Nat.le_mul_of_pos_right a hpos
  · have hcount := digitCount_pos ((b - 1) / a)
    have hzero : ((1 : Int) - digitCount ((b - 1) / a) - n).toNat = 0 := by omega
    have hexp : digitCount ((b - 1) / a) ≤ (-((1 : Int) - digitCount ((b - 1) / a) - n)).toNat := by omega
    have hlt : (b - 1) / a < 10 ^ digitCount ((b - 1) / a) := lt_pow_digitCount _
    have hb' : b ≤ a * 10 ^ digitCount ((b - 1) / a) := by
      have := (Nat.div_lt_iff_lt_mul ha).mp hlt
      rw [Nat.mul_comm a]
      omega
    rw [hzero, Nat.pow_zero, Nat.mul_one]
    exact hb'.trans (Nat.mul_le_mul_left a (Nat.pow_le_pow_right (by decide) hexp))

/-! ### Digits other than zero -/

theorem digits_candidate?_ne_zero {i : Interval} {n : Nat} {d : Decimal} (hv : 0 < i.value) (hd : 0 < i.denominator)
    (hn : 0 < n) (h : candidate? i n = some d) : d.digits ≠ 0 := by
  have hone : 0 < i.value * 10 ^ (-(decimalPoint i.value i.denominator - n)).toNat /
      (i.denominator * 10 ^ (decimalPoint i.value i.denominator - n).toNat) :=
    Nat.div_pos (scale_le hv hd hn) (Nat.mul_pos hd (Nat.pow_pos (by decide)))
  simp only [candidate?, Nat.pow_eq] at h
  -- Either neighbour of the scaled value is at least its quotient.
  generalize i.value * 10 ^ (-(decimalPoint i.value i.denominator - n)).toNat /
    (i.denominator * 10 ^ (decimalPoint i.value i.denominator - n).toNat) = c at h hone
  grind

theorem Decimal.digits_strip_ne_zero {d : Decimal} (h : d.digits ≠ 0) : d.strip.digits ≠ 0 := by
  fun_induction strip d with
  | case1 d hd ih => exact ih (by dsimp only; omega)
  | case2 d hd => exact h

theorem significand_pos {x : Binary64} (h : x.isZero = false) : 0 < x.significand := by
  have hrank : x.rank.val ≠ 0 := by simpa [isZero] using h
  have hper : 0 < perExponent := by decide
  unfold significand
  split <;> omega

/-- A number other than zero is not written with zero digits, unless nothing short rounds to it. -/
theorem shortest_digits {x : Binary64} (h : x.isZero = false) : x.shortest.digits ≠ 0 ∨ x.shortest = ⟨0, 0⟩ := by
  have hunit : ∀ k, 0 < 1 <<< k := fun k => by
    rw [Nat.shiftLeft_eq, Nat.one_mul]
    exact Nat.two_pow_pos k
  unfold shortest
  rw [h, if_neg Bool.false_ne_true]
  cases hfind : (List.range' 1 mostDigits).findSome? (candidate? x.interval) with
  | none =>
    right
    rw [Option.getD_none, Decimal.strip]
    rfl
  | some d =>
    obtain ⟨n, hn, hd⟩ := List.exists_of_findSome?_eq_some hfind
    have hpos : 0 < n := (List.mem_range'_1.mp hn).1
    have hvalue : 0 < x.interval.value := by
      have := significand_pos h
      exact Nat.mul_pos (by omega) (hunit _)
    exact .inl (Decimal.digits_strip_ne_zero (digits_candidate?_ne_zero hvalue (hunit _) hpos hd))

end Tapeworks.Binary64
