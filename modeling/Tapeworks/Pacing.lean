import Tapeworks.Text.Numeral

/-! The pace of a run: a base interval, and a speed in percent that stretches it. -/

namespace Tapeworks

/-! ### Speeds -/

structure Speed where
  percent : Nat
  positive : 0 < percent
  atMostFull : percent ≤ 100
  deriving DecidableEq, Repr

namespace Speed

def ofPercent? (percent : Nat) : Option Speed :=
  if h : 0 < percent ∧ percent ≤ 100 then some ⟨percent, h.1, h.2⟩ else none

def full : Speed := ⟨100, by decide, by decide⟩

/-- The next preset below, in steps of 20 percent, and full speed after the lowest one. -/
def cycle (s : Speed) : Speed :=
  if h : s.percent ≤ 20 then full
  else ⟨s.percent - 20, by omega, Nat.le_trans (Nat.sub_le _ _) s.atMostFull⟩

def rangeMessage (percent : Nat) : String :=
  "speed must be between 1 and 100 percent, got " ++ toString percent

end Speed

/-! ### Durations -/

def nanosPerSecond : Nat := 1_000_000_000

def nanosPerMilli : Nat := 1_000_000

/-- Whole seconds, a word, and the nanoseconds beyond them. -/
structure Duration where
  seconds : Nat
  nanos : Nat
  deriving DecidableEq, Repr

namespace Duration

/-- The duration of any number of nanoseconds beyond the seconds. -/
def ofParts (seconds nanos : Nat) : Duration :=
  ⟨seconds + nanos / nanosPerSecond, nanos % nanosPerSecond⟩

def ofMillis (n : Nat) : Duration :=
  ⟨n / 1000, n % 1000 * nanosPerMilli⟩

def zero : Duration := ⟨0, 0⟩

def toNanos (d : Duration) : Nat :=
  d.seconds * nanosPerSecond + d.nanos

/-- Whole milliseconds. -/
def toMillis (d : Duration) : Nat :=
  d.seconds * 1000 + d.nanos / nanosPerMilli

/-- The product, unless its seconds are no word. -/
def times? (d : Duration) (n : Nat) : Option Duration :=
  let nanos := d.nanos * n
  let seconds := d.seconds * n + nanos / nanosPerSecond
  if seconds < Text.wordLimit then some ⟨seconds, nanos % nanosPerSecond⟩ else none

/-- The quotient by a positive number, cut off to whole nanoseconds. -/
def dividedBy (d : Duration) (n : Nat) : Duration :=
  let carried := d.seconds % n * nanosPerSecond + d.nanos % n
  ⟨d.seconds / n, d.nanos / n + carried / n⟩

end Duration

/-! ### Pacing -/

structure Pacing where
  baseInterval : Duration
  speed : Speed
  deriving DecidableEq, Repr

namespace Pacing

def immediate : Pacing := ⟨Duration.zero, Speed.full⟩

/-- The time after every step: the base interval at full speed, and longer in proportion at lower speeds. -/
def delay? (p : Pacing) : Option Duration :=
  (p.baseInterval.times? 100).map (·.dividedBy p.speed.percent)

def overflowMessage : String :=
  "overflow when multiplying duration by scalar"

end Pacing

end Tapeworks
