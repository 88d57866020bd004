import Mathlib.Algebra.Order.Floor.Div
import Tapeworks.Pacing
import Tapeworks.Proofs.Machine.Bound
import Tapeworks.Proofs.Machine.Resume

/-! Runs that are cancelled. A paced run is cancelled between two steps, so the machine that it leaves has made the
    first moves of the whole run and no part of another. Runs that are cancelled in turn, and one that is not,
    therefore come to what the whole run comes to. A clock tells after how many moves a run is cancelled. -/

namespace Tapeworks.Machine

variable {t : Table} {m m' : Machine} {halt : Halt} {seen : List Snapshot} {run : Paced}
  {turns delay cancelled now : Nat}

/-! ### The clock -/

/-- A paced run on the clock: a step takes no time and its snapshot is seen at once, and then the delay passes, in which
    the run may be cancelled. -/
inductive Timed (delay cancelled : Nat) : Nat → Machine → Paced → Prop
  | halted {now : Nat} {m n : Machine} {halt : Halt} :
      m.step = (.halted halt, n) → Timed delay cancelled now m ⟨some halt, [], n⟩
  | cancelled {now : Nat} {m n : Machine} :
      m.step = (.moved, n) → cancelled < now + delay → Timed delay cancelled now m ⟨none, [n.snapshot], n⟩
  | slept {now : Nat} {m n : Machine} {run : Paced} :
      m.step = (.moved, n) → now + delay ≤ cancelled → Timed delay cancelled (now + delay) n run →
        Timed delay cancelled now m ⟨run.halt, n.snapshot :: run.seen, run.machine⟩

/-- The turns that are left at a time, of which the first one is taken at once. -/
theorem Timed.eq_paced (h : Timed delay cancelled now m run) (hdelay : 0 < delay) (hnow : now ≤ cancelled) :
    run = m.paced ((cancelled - now) / delay + 1) := by
  induction h with
  | halted hs => rw [paced_of_halted hs]
  | cancelled hs hlate =>
    rw [paced_of_moved hs, Nat.div_eq_of_lt (by omega)]
    rfl
  | @slept now m n run hs hintime _ ih =>
    have hturns : (cancelled - now) / delay = (cancelled - (now + delay)) / delay + 1 := by
      rw [Nat.div_eq_sub_div hdelay (by omega), Nat.sub_sub]
    rw [paced_of_moved hs, hturns, ← ih hintime]

theorem timed_paced (hdelay : 0 < delay) (hnow : now ≤ cancelled) :
    Timed delay cancelled now m (m.paced ((cancelled - now) / delay + 1)) := by
  generalize hturns : (cancelled - now) / delay = turns
  induction turns generalizing now m with
  | zero =>
    have hlate : cancelled - now < delay := (Nat.div_eq_zero_iff_lt hdelay).mp hturns
    rcases halts_or_moves m with ⟨halt, n, hs⟩ | ⟨n, hs⟩
    · rw [paced_of_halted hs]
      exact .halted hs
    · rw [paced_of_moved hs]
      exact .cancelled hs (by omega)
  | succ turns ih =>
    have hintime : delay ≤ cancelled - now := by
      by_contra hlate
      rw [Nat.div_eq_of_lt (by omega)] at hturns
      cases hturns
    rcases halts_or_moves m with ⟨halt, n, hs⟩ | ⟨n, hs⟩
    · rw [paced_of_halted hs]
      exact .halted hs
    · rw [Nat.div_eq_sub_div hdelay hintime, Nat.sub_sub] at hturns
      rw [paced_of_moved hs]
      exact .slept hs (by omega) (ih (by omega) (Nat.succ.inj hturns))

theorem pacedUntil_of_pos (hdelay : 0 < delay) (m : Machine) (cancelled : Nat) :
    m.pacedUntil cancelled delay = m.paced (cancelled / delay + 1) := by
  rw [pacedUntil, turnsBefore, if_neg (Nat.ne_of_gt hdelay)]

/-- The clock cancels a run after as many turns as are counted. -/
theorem timed_iff (hdelay : 0 < delay) : Timed delay cancelled 0 m run ↔ run = m.pacedUntil cancelled delay := by
  rw [pacedUntil_of_pos hdelay, ← Nat.sub_zero cancelled]
  exact ⟨fun h => h.eq_paced hdelay (Nat.zero_le _), fun h => h ▸ timed_paced hdelay (Nat.zero_le _)⟩

/-! ### Runs one after another -/

/-- What two runs come to, the second from where the first has left the machine. -/
def Paced.andThen (first second : Paced) : Paced :=
  ⟨second.halt, first.seen ++ second.seen, second.machine⟩

/-- Runs that are cancelled at the times in turn, each counted from its own start, and the whole run after them. -/
def pacedThrough (delay : Nat) : List Nat → Machine → Paced
  | [], m => m.pacedToEnd
  | time :: times, m =>
    (m.pacedUntil time delay).andThen (pacedThrough delay times (m.pacedUntil time delay).machine)

theorem exists_pacedUntil_eq (m : Machine) (cancelled delay : Nat) :
    ∃ turns, m.pacedUntil cancelled delay = m.paced turns := by
  unfold pacedUntil
  cases turnsBefore cancelled delay with
  | none => exact ⟨_, rfl⟩
  | some turns => exact ⟨turns, rfl⟩

theorem Reachable.paced (h : Reachable t m) (turns : Nat) : Reachable t (m.paced turns).machine :=
  .performed (.paced turns) h

/-- Any number of turns leaves the rest of a run that ends. -/
theorem Ends.paced_rest (h : Ends m seen halt m') (turns : Nat) :
    ∃ rest, seen = (m.paced turns).seen ++ rest ∧ Ends (m.paced turns).machine rest halt m' := by
  rcases paced_cases m turns with ⟨seen', n, hmoves, -, hpaced⟩ | ⟨seen', halt', n, hends, -, hpaced⟩
  · rw [hpaced]
    exact hmoves.rest h
  · obtain ⟨rfl, rfl, rfl⟩ := h.unique hends
    rw [hpaced]
    exact ⟨[], (List.append_nil _).symm, h.again⟩

theorem Ends.stepCount (h : Ends m seen halt m') : m'.stepCount = m.stepCount + seen.length := by
  obtain ⟨n, hmoves, hs⟩ := h
  rw [step_snd_of_halted hs]
  exact hmoves.passage.stepCount

theorem exists_ends (h : (m.paced turns).halt = some halt) : ∃ seen m', Ends m seen halt m' := by
  rcases paced_cases m turns with ⟨seen, n, -, -, hpaced⟩ | ⟨seen, halt', m', hends, -, hpaced⟩
  · rw [hpaced] at h
    cases h
  · rw [hpaced] at h
    cases h
    exact ⟨seen, m', hends⟩

/-- After a number of turns a run that ends has made as many moves, or all of them and the halt. -/
theorem Ends.paced_cut (h : Ends m seen halt m') (turns : Nat) :
    (m.paced turns).machine.stepCount = m.stepCount + min seen.length turns ∧
      ((m.paced turns).halt = none ↔ turns ≤ seen.length) := by
  rcases paced_cases m turns with ⟨seen', n, hmoves, hlength, hpaced⟩ | ⟨seen', halt', n, hends, hlength, hpaced⟩
  · obtain ⟨rest, rfl, -⟩ := hmoves.rest h
    have hle : turns ≤ (seen' ++ rest).length := by
      rw [List.length_append]
      omega
    rw [hpaced, Nat.min_eq_right hle]
    exact ⟨hlength ▸ hmoves.passage.stepCount, iff_of_true rfl hle⟩
  · obtain ⟨rfl, rfl, rfl⟩ := h.unique hends
    rw [hpaced, Nat.min_eq_left (Nat.le_of_lt hlength)]
    exact ⟨h.stepCount, iff_of_false nofun (Nat.not_le_of_lt hlength)⟩

/-- The turns that are counted up to a time that is no multiple of the delay. -/
theorem ceilDiv_eq_add_one (hdelay : 0 < delay) (h : ¬delay ∣ cancelled) :
    cancelled ⌈/⌉ delay = cancelled / delay + 1 := by
  refine le_antisymm ?_ (Nat.succ_le_of_lt (Nat.lt_of_not_le fun hle => h ?_))
  · rw [ceilDiv_le_iff_le_smul hdelay]
    exact Nat.le_of_lt (Nat.lt_mul_div_succ cancelled hdelay)
  · rw [ceilDiv_le_iff_le_smul hdelay] at hle
    exact ⟨_, Nat.le_antisymm hle (Nat.mul_div_le cancelled delay)⟩

/-- The limit of the trace changes what a machine remembers, and nothing that a run shows. -/
theorem Settled.seen_setTraceLimit (h : m.Settled) (limit : Option Nat) :
    (m.setTraceLimit limit).pacedToEnd.seen = m.pacedToEnd.seen := by
  have habreast : Abreast (m.setTraceLimit limit) m := ⟨⟨rfl, rfl, rfl, h, h⟩, rfl⟩
  exact (lockstep_abreast.pacedFrom (fun _ _ h => h.snapshot) habreast [] _).2.1

/-! ### Whole runs -/

/-- A paced run that comes to the halt is the whole run, however often it is cancelled on the way. Times and delays are
    counted in nanoseconds. -/
structure Lossless (m : Machine) (p : Pacing) (halt : Halt) : Prop where
  halted : m.pacedToEnd.halt = some halt
  whole : ∀ turns, m.pacedToEnd.seen.length < turns → m.paced turns = m.pacedToEnd
  resumed : ∀ turns, (m.paced turns).andThen (m.paced turns).machine.pacedToEnd = m.pacedToEnd
  through : ∀ delay ∈ p.delay?, ∀ times, pacedThrough delay.toNanos times m = m.pacedToEnd
  timed : ∀ delay ∈ p.delay?, 0 < delay.toNanos → ∀ time run,
    Timed delay.toNanos time 0 m run ↔ run = m.pacedUntil time delay.toNanos
  taken : ∀ delay ∈ p.delay?, 0 < delay.toNanos → ∀ time, ¬delay.toNanos ∣ time →
    (m.pacedUntil time delay.toNanos).machine.stepCount =
      m.stepCount + min m.pacedToEnd.seen.length (time ⌈/⌉ delay.toNanos)
  cancelled : ∀ delay ∈ p.delay?, 0 < delay.toNanos → ∀ time, ¬delay.toNanos ∣ time →
    ((m.pacedUntil time delay.toNanos).halt = none ↔ time < m.pacedToEnd.seen.length * delay.toNanos)
  run : ∀ limit, m.pacedToEnd.seen.length < limit → m.run limit = (halt, m.pacedToEnd.machine)
  reported : ∃ c, c 0 = m.configuration ∧ m.table.Course c m.pacedToEnd.seen.length ∧
    m.pacedToEnd.seen = snapshots c m.stepCount m.pacedToEnd.seen.length ∧
      m.pacedToEnd.machine.configuration = c m.pacedToEnd.seen.length ∧
        m.pacedToEnd.machine.stepCount = m.stepCount + m.pacedToEnd.seen.length
  unlimited : ∀ limit, (m.setTraceLimit limit).pacedToEnd.seen = m.pacedToEnd.seen

section Ends

variable {d : Diagram} (hm : Reachable (compile d).table m) (hends : Ends m seen halt m')
include hm hends

theorem Reachable.length_lt_of_ends : seen.length < m.configurationBound := by
  have hclosed := Table.closed_compile d
  exact hends.length_lt (hm.of_lasting (lasting_placed hclosed)) (hm.of_lasting (lasting_settled _)) hclosed

/-- The run that is given as many turns as there are configurations is the whole run. -/
theorem Reachable.pacedToEnd_of_ends : m.pacedToEnd = ⟨some halt, seen, m'⟩ :=
  hends.paced (Nat.lt_succ_of_lt (hm.length_lt_of_ends hends))

theorem Reachable.paced_andThen_pacedToEnd (turns : Nat) :
    (m.paced turns).andThen (m.paced turns).machine.pacedToEnd = ⟨some halt, seen, m'⟩ := by
  obtain ⟨rest, rfl, hrest⟩ := hends.paced_rest turns
  rw [(hm.paced turns).pacedToEnd_of_ends hrest]
  rfl

theorem Reachable.pacedThrough_of_ends (delay : Nat) (times : List Nat) :
    pacedThrough delay times m = ⟨some halt, seen, m'⟩ := by
  induction times generalizing m seen with
  | nil => exact hm.pacedToEnd_of_ends hends
  | cons time times ih =>
    obtain ⟨turns, hturns⟩ := m.exists_pacedUntil_eq time delay
    obtain ⟨rest, rfl, hrest⟩ := hends.paced_rest turns
    rw [pacedThrough, hturns, ih (hm.paced turns) hrest]
    rfl

end Ends

/-- Cancelling a paced run loses and repeats nothing, if the run comes to a halt in any number of turns. -/
theorem Reachable.lossless {d : Diagram} (h : Reachable (compile d).table m) (hhalt : (m.paced turns).halt = some halt)
    (p : Pacing) : m.Lossless p halt := by
  obtain ⟨seen, m', hends⟩ := exists_ends hhalt
  have hwhole : m.pacedToEnd = ⟨some halt, seen, m'⟩ := h.pacedToEnd_of_ends hends
  have hsettled := h.of_lasting (lasting_settled _)
  have htable : m.table = (compile d).table := (h.of_lasting (lasting_placed (Table.closed_compile d))).table
  exact {
    halted := by rw [hwhole]
    whole := fun turns hturns => by
      rw [hwhole] at hturns ⊢
      exact hends.paced hturns
    resumed := fun turns => (h.paced_andThen_pacedToEnd hends turns).trans hwhole.symm
    through := fun delay _ times => (h.pacedThrough_of_ends hends delay.toNanos times).trans hwhole.symm
    timed := fun delay _ hdelay time run => timed_iff hdelay
    taken := fun delay _ hdelay time htime => by
      rw [pacedUntil_of_pos hdelay, ceilDiv_eq_add_one hdelay htime, hwhole]
      exact (hends.paced_cut _).1
    cancelled := fun delay _ hdelay time _ => by
      rw [pacedUntil_of_pos hdelay, (hends.paced_cut _).2, Nat.succ_le_iff, Nat.div_lt_iff_lt_mul hdelay, hwhole]
    run := fun limit hlimit => by
      rw [hwhole] at hlimit ⊢
      exact hends.run hlimit
    reported := by
      obtain ⟨n, hmoves, hs⟩ := hends
      have hpassage := hmoves.passage
      rw [hwhole, step_snd_of_halted hs]
      refine ⟨fun i => m.table.next^[i] m.configuration, rfl, ?_, hpassage.shown, hpassage.configuration,
        hpassage.stepCount⟩
      exact (Table.course_iff (htable ▸ Table.deterministic_compile d)).mpr hpassage.moves
    unlimited := hsettled.seen_setTraceLimit }

/-- Two and a half steps a second. -/
def leisurely : Pacing :=
  ⟨Duration.ofMillis 200, ⟨50, by decide, by decide⟩⟩

theorem Reachable.lossless_walker :
    leisurely.delay? = some ⟨0, 400_000_000⟩ ∧
      ((inState (compile walker).table ⟨[], 'a', ['a', '_', 'b']⟩ { id := "1", isStart := true }).after
        [.setTraceLimit (some 0), .run 1]).Lossless leisurely .accepted :=
  ⟨by decide, Reachable.lossless (d := walker) (.performed _ (.performed _ (.fresh (.new rfl))))
    (show (Machine.paced _ 3).halt = some .accepted by decide) leisurely⟩

end Tapeworks.Machine
