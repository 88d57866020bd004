import Tapeworks.Pacing

/-! Delays in nanoseconds. A duration is told in seconds and the nanoseconds beyond them; to multiply and to divide it
    carries between the two, and comes to the same as to multiply and to divide the number of its nanoseconds. So a delay
    is the hundredfold of the base interval divided by the speed, cut off to whole nanoseconds, unless the seconds of the
    hundredfold are no word. -/

namespace Tapeworks

namespace Duration

variable {d : Duration} {n : Nat}

/-! ### Numbers of nanoseconds -/

def ofNanos (n : Nat) : Duration :=
  ⟨n / nanosPerSecond, n % nanosPerSecond⟩

/-- The seconds are a word, and the nanoseconds beyond them are less than a second. -/
structure Valid (d : Duration) : Prop where
  seconds : d.seconds < Text.wordLimit
  nanos : d.nanos < nanosPerSecond

theorem toNanos_ofNanos (n : Nat) : (ofNanos n).toNanos = n :=
  Nat.div_add_mod' n nanosPerSecond

theorem ofNanos_toNanos (h : d.nanos < nanosPerSecond) : ofNanos d.toNanos = d := by
  obtain ⟨seconds, nanos⟩ := d
  have hpos : 0 < nanosPerSecond := by decide
  refine (Duration.mk.injEq ..).mpr ⟨?_, ?_⟩
  · rw [toNanos, Nat.add_comm, Nat.add_mul_div_right _ _ hpos, Nat.div_eq_of_lt h, Nat.zero_add]
  · rw [toNanos, Nat.add_comm, Nat.add_mul_mod_self_right, Nat.mod_eq_of_lt h]

theorem valid_ofNanos (h : n / nanosPerSecond < Text.wordLimit) : (ofNanos n).Valid :=
  ⟨h, Nat.mod_lt n (by decide)⟩

theorem toNanos_ofMillis (n : Nat) : (ofMillis n).toNanos = n * nanosPerMilli := by
  unfold toNanos ofMillis nanosPerSecond nanosPerMilli
  dsimp only
  omega

theorem toMillis_eq (d : Duration) : d.toMillis = d.toNanos / nanosPerMilli := by
  unfold toMillis toNanos nanosPerSecond nanosPerMilli
  omega

/-! ### Products and quotients -/

theorem times?_eq (d : Duration) (n : Nat) : d.times? n =
    if d.toNanos * n / nanosPerSecond < Text.wordLimit then some (ofNanos (d.toNanos * n)) else none := by
  have hnanos : d.toNanos * n = d.nanos * n + d.seconds * n * nanosPerSecond := by
    rw [toNanos, Nat.add_mul, Nat.add_comm, Nat.mul_right_comm]
  have hseconds : d.toNanos * n / nanosPerSecond = d.seconds * n + d.nanos * n / nanosPerSecond := by
    rw [hnanos, Nat.add_mul_div_right _ _ (by decide : 0 < nanosPerSecond), Nat.add_comm]
  have hrest : d.toNanos * n % nanosPerSecond = d.nanos * n % nanosPerSecond := by
    rw [hnanos, Nat.add_mul_mod_self_right]
  rw [ofNanos, hseconds, hrest]
  rfl

/-- What is left of both parts after dividing them is divided once more. -/
theorem toNanos_dividedBy (d : Duration) (hn : 0 < n) : (d.dividedBy n).toNanos = d.toNanos / n := by
  obtain ⟨seconds, nanos⟩ := d
  have hparts : seconds * nanosPerSecond + nanos =
      seconds % n * nanosPerSecond + nanos % n + n * (seconds / n * nanosPerSecond + nanos / n) :=
    calc seconds * nanosPerSecond + nanos
      _ = (n * (seconds / n) + seconds % n) * nanosPerSecond + (n * (nanos / n) + nanos % n) := by
        rw [Nat.div_add_mod, Nat.div_add_mod]
      _ = _ := by
        rw [Nat.add_mul, Nat.mul_add, Nat.mul_assoc]
        omega
  change seconds / n * nanosPerSecond + (nanos / n + (seconds % n * nanosPerSecond + nanos % n) / n) =
    (seconds * nanosPerSecond + nanos) / n
  rw [hparts, Nat.add_mul_div_left _ _ hn]
  omega

theorem nanos_dividedBy_lt (h : d.nanos < nanosPerSecond) (hn : 0 < n) :
    (d.dividedBy n).nanos < nanosPerSecond := by
  obtain ⟨seconds, nanos⟩ := d
  -- The nanoseconds are those of what is left of the seconds, together with the ones beyond them.
  have hnanos : (dividedBy ⟨seconds, nanos⟩ n).nanos = (dividedBy ⟨seconds % n, nanos⟩ n).toNanos := by
    unfold dividedBy toNanos
    simp [Nat.div_eq_of_lt (Nat.mod_lt seconds hn)]
  rw [hnanos, toNanos_dividedBy _ hn]
  refine Nat.div_lt_of_lt_mul ?_
  have hleft : (seconds % n + 1) * nanosPerSecond ≤ n * nanosPerSecond :=
    Nat.mul_le_mul_right _ (Nat.mod_lt seconds hn)
  rw [Nat.add_mul] at hleft
  unfold toNanos
  exact Nat.lt_of_lt_of_le (by dsimp only at h ⊢; omega) hleft

theorem dividedBy_eq (h : d.nanos < nanosPerSecond) (hn : 0 < n) : d.dividedBy n = ofNanos (d.toNanos / n) := by
  rw [← toNanos_dividedBy d hn, ofNanos_toNanos (nanos_dividedBy_lt h hn)]

end Duration

/-! ### Delays -/

namespace Pacing

variable {base delay delay' : Duration} {speed speed' : Speed}

theorem delay?_eq (base : Duration) (speed : Speed) : delay? ⟨base, speed⟩ =
    if 100 * base.toNanos / nanosPerSecond < Text.wordLimit then
      some (.ofNanos (100 * base.toNanos / speed.percent))
    else none := by
  unfold delay?
  rw [Duration.times?_eq, Nat.mul_comm]
  split
  · rw [Option.map_some, Duration.dividedBy_eq (Nat.mod_lt _ (by decide)) speed.positive, Duration.toNanos_ofNanos]
  · rfl

theorem delay?_eq_some_iff : delay? ⟨base, speed⟩ = some delay ↔
    100 * base.toNanos / nanosPerSecond < Text.wordLimit ∧
      delay = .ofNanos (100 * base.toNanos / speed.percent) := by
  rw [delay?_eq]
  split
  · rename_i hlt
    rw [Option.some.injEq]
    exact ⟨fun h => ⟨hlt, h.symm⟩, fun h => h.2.symm⟩
  · rename_i hlt
    exact ⟨nofun, fun h => absurd h.1 hlt⟩

/-- The delays of a base interval at all speeds. There is one exactly where the seconds of the hundredfold are a word. It
    is never less than the base interval, the same at full speed, and no longer at a higher speed. -/
structure Exact (base : Duration) : Prop where
  delay : ∀ speed, delay? ⟨base, speed⟩ =
    if 100 * base.toNanos / nanosPerSecond < Text.wordLimit then
      some (.ofNanos (100 * base.toNanos / speed.percent))
    else none
  valid : ∀ speed delay, delay? ⟨base, speed⟩ = some delay → delay.Valid
  atLeast : ∀ speed delay, delay? ⟨base, speed⟩ = some delay → base.toNanos ≤ delay.toNanos
  full : ∀ delay, delay? ⟨base, Speed.full⟩ = some delay → delay = base
  antitone : ∀ speed speed' delay delay', speed.percent ≤ speed'.percent → delay? ⟨base, speed⟩ = some delay →
    delay? ⟨base, speed'⟩ = some delay' → delay'.toNanos ≤ delay.toNanos

theorem valid_of_delay? (h : delay? ⟨base, speed⟩ = some delay) : delay.Valid := by
  obtain ⟨hlt, rfl⟩ := delay?_eq_some_iff.mp h
  exact Duration.valid_ofNanos (Nat.lt_of_le_of_lt (Nat.div_le_div_right (Nat.div_le_self _ _)) hlt)

theorem toNanos_of_delay? (h : delay? ⟨base, speed⟩ = some delay) :
    delay.toNanos = 100 * base.toNanos / speed.percent := by
  obtain ⟨-, rfl⟩ := delay?_eq_some_iff.mp h
  exact Duration.toNanos_ofNanos _

theorem exact (h : base.Valid) : Exact base where
  delay := delay?_eq base
  valid _ _ := valid_of_delay?
  atLeast speed delay hdelay := by
    rw [toNanos_of_delay? hdelay, Nat.le_div_iff_mul_le speed.positive, Nat.mul_comm]
    exact Nat.mul_le_mul_right _ speed.atMostFull
  full delay hdelay := by
    have hnanos := toNanos_of_delay? hdelay
    rw [Speed.full, Nat.mul_div_cancel_left _ (by decide)] at hnanos
    rw [← Duration.ofNanos_toNanos (valid_of_delay? hdelay).nanos, hnanos, Duration.ofNanos_toNanos h.nanos]
  antitone speed speed' delay delay' hle hdelay hdelay' := by
    rw [toNanos_of_delay? hdelay, toNanos_of_delay? hdelay']
    exact Nat.div_le_div_left hle speed.positive

end Pacing
end Tapeworks
