import Tapeworks.Code.Reader
import Tapeworks.Config
import Tapeworks.Proofs.Pacing

/-! Configurations that come from documents. An entry sets one field at most, and every number that it sets is a word. So
    the base interval of such a configuration is short enough to be paced at any speed. -/

namespace Tapeworks

open Code.Cursor

namespace Config

variable {c c' : Config} {entry : String × Toml.Value} {entries : Toml.Entries} {key text : String} {limit n : Nat}
  {v : Toml.Value}

/-! ### Entries -/

theorem natural_lt (h : natural key limit v = .ok n) : n < limit := by
  unfold natural at h
  split at h
  · split at h
    · cases h
      assumption
    · cases h
  · cases h

/-- All that an entry can do. -/
theorem setEntry_cases (h : c.setEntry entry = .ok c') :
    (∃ n < Text.wordLimit, c' = { c with tapeLength := n }) ∨
      (∃ n < Text.wordLimit, c' = { c with baseIntervalMs := n }) ∨ (∃ speed, c' = { c with speed }) ∨
        (∃ n < Text.wordLimit, c' = { c with maxSteps := n }) ∨
          (∃ n < Text.wordLimit, c' = { c with traceLimit := some n }) ∨ c' = c := by
  obtain ⟨key, v⟩ := entry
  unfold setEntry at h
  dsimp only at h
  split at h
  · obtain ⟨n, hn, h⟩ := except_bind_eq_ok h
    cases h
    exact Or.inl ⟨n, natural_lt hn, rfl⟩
  split at h
  · obtain ⟨n, hn, h⟩ := except_bind_eq_ok h
    cases h
    exact Or.inr (Or.inl ⟨n, natural_lt hn, rfl⟩)
  split at h
  · obtain ⟨percent, -, h⟩ := except_bind_eq_ok h
    split at h
    · cases h
      exact Or.inr (Or.inr (Or.inl ⟨_, rfl⟩))
    · cases h
  split at h
  · obtain ⟨n, hn, h⟩ := except_bind_eq_ok h
    cases h
    exact Or.inr (Or.inr (Or.inr (Or.inl ⟨n, natural_lt hn, rfl⟩)))
  split at h
  · obtain ⟨n, hn, h⟩ := except_bind_eq_ok h
    cases h
    exact Or.inr (Or.inr (Or.inr (Or.inr (Or.inl ⟨n, natural_lt hn, rfl⟩))))
  · cases h
    exact Or.inr (Or.inr (Or.inr (Or.inr (Or.inr rfl))))

/-- What the default has and every entry keeps is true of the configuration that the entries give. -/
theorem of_ofEntries {P : Config → Prop} (hdefault : P default)
    (hentry : ∀ c c' entry, P c → c.setEntry entry = .ok c' → P c') (h : ofEntries entries = .ok c) : P c := by
  unfold ofEntries at h
  generalize default = start at h hdefault
  induction entries generalizing start with
  | nil =>
    cases h
    exact hdefault
  | cons entry entries ih =>
    obtain ⟨next, hnext, h⟩ := except_bind_eq_ok h
    exact ih next h (hentry _ _ _ hdefault hnext)

/-! ### Base intervals -/

theorem baseInterval_lt_of_setEntry (hc : c.baseIntervalMs < Text.wordLimit) (h : c.setEntry entry = .ok c') :
    c'.baseIntervalMs < Text.wordLimit := by
  rcases setEntry_cases h with ⟨n, -, rfl⟩ | ⟨n, hn, rfl⟩ | ⟨speed, rfl⟩ | ⟨n, -, rfl⟩ | ⟨n, -, rfl⟩ | rfl
  · exact hc
  · exact hn
  · exact hc
  · exact hc
  · exact hc
  · exact hc

theorem baseInterval_lt_of_ofToml (h : ofToml text = .ok c) : c.baseIntervalMs < Text.wordLimit := by
  unfold ofToml at h
  split at h
  · cases h
  · split at h
    · cases h
    · rename_i hentries
      unfold validate at h
      split at h
      · cases h
      · cases h
        exact of_ofEntries (by decide) (fun _ _ _ => baseInterval_lt_of_setEntry) hentries

/-! ### Delays -/

/-- A word of milliseconds can be stretched a hundred times. -/
theorem delay?_pacing (h : c.baseIntervalMs < Text.wordLimit) :
    c.pacing.delay? = some (.ofNanos (100 * (c.baseIntervalMs * nanosPerMilli) / c.speed.percent)) := by
  refine Pacing.delay?_eq_some_iff.mpr ?_
  rw [Duration.toNanos_ofMillis]
  refine ⟨?_, rfl⟩
  rw [Text.wordLimit] at h ⊢
  unfold nanosPerMilli nanosPerSecond
  omega

theorem exists_delay (h : c.baseIntervalMs < Text.wordLimit) : ∃ delay, c.pacing.delay? = some delay :=
  ⟨_, delay?_pacing h⟩

theorem baseIntervalMs_withBaseInterval (c : Config) (interval : Duration) :
    (c.withBaseInterval interval).baseIntervalMs = min (interval.toNanos / nanosPerMilli) (Text.wordLimit - 1) :=
  congrArg (min · _) interval.toMillis_eq

/-- The configuration has a delay, and still has one when the base interval is replaced by any duration, of which it keeps
    the whole milliseconds, or the largest word where these are more. -/
structure Unfailing (c : Config) : Prop where
  delay : c.pacing.delay? = some (.ofNanos (100 * (c.baseIntervalMs * nanosPerMilli) / c.speed.percent))
  kept : ∀ interval, (c.withBaseInterval interval).baseIntervalMs =
    min (interval.toNanos / nanosPerMilli) (Text.wordLimit - 1)
  replaced : ∀ interval, ∃ delay, (c.withBaseInterval interval).pacing.delay? = some delay

theorem unfailing (h : c.baseIntervalMs < Text.wordLimit) : c.Unfailing where
  delay := delay?_pacing h
  kept := c.baseIntervalMs_withBaseInterval
  replaced interval := by
    refine exists_delay ?_
    have hpos : 0 < Text.wordLimit := by decide
    rw [baseIntervalMs_withBaseInterval]
    omega

/-- Delays are exact wherever they are defined, and no configuration is without one. -/
theorem exact_and_unfailing {base : Duration} (hbase : base.Valid) (hc : c.baseIntervalMs < Text.wordLimit) :
    Pacing.Exact base ∧ c.Unfailing :=
  ⟨Pacing.exact hbase, unfailing hc⟩

/-- A base whose hundredfold and whose seconds both leave a remainder at 7 percent, a base that is too long for its
    hundredfold, and a configuration with the longest base interval at 1 percent. -/
theorem exact_and_unfailing_thirds :
    Pacing.delay? ⟨⟨5, 333_333_334⟩, ⟨7, by decide, by decide⟩⟩ = some ⟨76, 190_476_200⟩ ∧
      Pacing.delay? ⟨⟨184_467_440_737_095_516, 160_000_000⟩, Speed.full⟩ = none ∧
        Pacing.Exact ⟨5, 333_333_334⟩ ∧
          Unfailing { baseIntervalMs := Text.wordLimit - 1, speed := ⟨1, by decide, by decide⟩ } :=
  have hbase : Duration.Valid ⟨5, 333_333_334⟩ := ⟨by decide, by decide⟩
  have h := exact_and_unfailing (c := { baseIntervalMs := Text.wordLimit - 1, speed := ⟨1, by decide, by decide⟩ })
    hbase (by decide)
  ⟨by decide, by decide, h.1, h.2⟩

end Config
end Tapeworks
