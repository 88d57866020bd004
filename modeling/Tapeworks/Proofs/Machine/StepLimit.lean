import Mathlib.Data.ENat.Lattice
import Mathlib.Order.CompletePartialOrder
import Tapeworks.Proofs.Machine.Textbook

/-! Runs up to a limit. What such a run comes to is told by the number of moves that the machine can make one after the
    other, which is infinite where it never halts. The limit is looked at before the halt, unless the state is final: a
    machine that gets stuck exactly at the limit has not halted yet, and one that is accepted there has. So a run that
    was given up goes on as if it had not been, and a higher limit changes nothing for a run that has halted. -/

namespace Tapeworks.Machine

variable {m m' n n' : Machine} {seen : List Snapshot} {halt : Halt} {limit k : Nat}

/-! ### How far a machine goes -/

/-- The machine comes to `n` in `k` moves. -/
def ReachesIn (m : Machine) (k : Nat) (n : Machine) : Prop :=
  ∃ seen, Moves m seen n ∧ seen.length = k

/-- The number of moves that the machine can make one after the other. -/
noncomputable def moveCount (m : Machine) : ℕ∞ :=
  ⨆ (k : Nat) (_ : ∃ n, m.ReachesIn k n), (k : ℕ∞)

theorem ReachesIn.unique (h : m.ReachesIn k n) (h' : m.ReachesIn k n') : n = n' := by
  obtain ⟨seen, hmoves, rfl⟩ := h
  obtain ⟨seen', hmoves', hlength⟩ := h'
  have hpaced := hmoves'.paced_add 0
  rw [hlength, hmoves.paced_add 0] at hpaced
  exact congrArg Paced.machine hpaced

theorem ReachesIn.le_moveCount (h : m.ReachesIn k n) : (k : ℕ∞) ≤ m.moveCount :=
  le_iSup₂_of_le k ⟨n, h⟩ le_rfl

theorem ReachesIn.isHalted_eq_false (h : m.ReachesIn k n) (hm : m.isHalted = false) : n.isHalted = false := by
  obtain ⟨seen, hmoves, -⟩ := h
  induction hmoves with
  | refl m => exact hm
  | move hs _ ih =>
    obtain ⟨c, -, rfl⟩ := exists_move hs
    exact ih rfl

/-- A run that ends makes all the moves that there are. -/
theorem Ends.moveCount_eq (h : Ends m seen halt m') : m.moveCount = seen.length := by
  obtain ⟨n, hmoves, hs⟩ := h
  refine le_antisymm (iSup₂_le fun k hk => ?_) (ReachesIn.le_moveCount ⟨seen, hmoves, rfl⟩)
  obtain ⟨n', seen', hmoves', rfl⟩ := hk
  obtain ⟨rest, hrest, -⟩ := hmoves'.rest ⟨n, hmoves, hs⟩
  rw [hrest, List.length_append]
  exact Nat.cast_le.mpr (Nat.le_add_right _ _)

/-! ### At the limit -/

theorem runWithin_zero_of_final (h : m.isHalted = false) (hfinal : m.state.isFinal) (limit : Nat) :
    m.step = (.halted .accepted, { m with status := .halted .accepted }) ∧
      runWithin limit 0 m = (.accepted, { m with status := .halted .accepted }) := by
  have hmove : m.table.move m.configuration = .error .accepted := Table.move_eq_error_iff.mpr (.accepted hfinal)
  have hs := (settled_of_isHalted h).step_of_error hmove
  refine ⟨hs, ?_⟩
  rw [runWithin, if_pos (Bool.or_eq_true_iff.mpr (Or.inr hfinal)), hs]

theorem runWithin_zero_of_not_final (h : m.isHalted = false) (hfinal : ¬m.state.isFinal) (limit : Nat) :
    runWithin limit 0 m = (.failed (.stepLimitExceeded limit), m) := by
  rw [runWithin, h, Bool.false_or, if_neg hfinal]

/-- All that a run up to a limit can come to. -/
theorem run_cases (h : m.isHalted = false) (limit : Nat) :
    (∃ seen n halt, Moves m seen n ∧ n.step = (.halted halt, { n with status := .halted halt }) ∧
        (seen.length < limit ∨ seen.length = limit ∧ n.state.isFinal) ∧
          m.run limit = (halt, { n with status := .halted halt })) ∨
      ∃ n, m.ReachesIn limit n ∧ ¬n.state.isFinal ∧ m.run limit = (.failed (.stepLimitExceeded limit), n) := by
  rcases paced_cases m limit with ⟨seen, n, hmoves, hlength, -⟩ | ⟨seen, halt, m', ⟨n, hmoves, hs⟩, hlength, -⟩
  · have hn : n.isHalted = false := ReachesIn.isHalted_eq_false ⟨seen, hmoves, hlength⟩ h
    have hrun : m.run limit = runWithin limit 0 n := by
      rw [run, ← hlength]
      exact hmoves.runWithin_add _ 0
    by_cases hfinal : n.state.isFinal
    · obtain ⟨hs, hzero⟩ := runWithin_zero_of_final hn hfinal limit
      exact Or.inl ⟨seen, n, .accepted, hmoves, hs, Or.inr ⟨hlength, hfinal⟩, hrun.trans hzero⟩
    · exact Or.inr ⟨n, ⟨seen, hmoves, hlength⟩, hfinal, hrun.trans (runWithin_zero_of_not_final hn hfinal limit)⟩
  · have hm' := step_snd_of_halted hs
    have hrun : m.run limit = (halt, m') := Ends.run ⟨n, hmoves, hs⟩ hlength
    rw [hm'] at hs hrun
    exact Or.inl ⟨seen, n, halt, hmoves, hs, Or.inl hlength, hrun⟩

/-- The limit of a run is only named when the run is given up. -/
theorem exists_runWithin_eq (budget : Nat) (m : Machine) : ∃ (outcome : Option Halt) (m' : Machine), ∀ limit,
    runWithin limit budget m = (outcome.getD (.failed (.stepLimitExceeded limit)), m') := by
  induction budget generalizing m with
  | zero =>
    by_cases hend : m.isHalted || m.state.isFinal
    · rcases halts_or_moves m with ⟨halt, n, hs⟩ | ⟨n, hs⟩
      · exact ⟨some halt, n, fun limit => by rw [runWithin, if_pos hend, hs, Option.getD_some]⟩
      · exact ⟨none, m, fun limit => by rw [runWithin, if_pos hend, hs, Option.getD_none]⟩
    · exact ⟨none, m, fun limit => by rw [runWithin, if_neg hend, Option.getD_none]⟩
  | succ budget ih =>
    rcases halts_or_moves m with ⟨halt, n, hs⟩ | ⟨n, hs⟩
    · exact ⟨some halt, n, fun limit => runWithin_of_halted hs limit budget⟩
    · obtain ⟨outcome, m', hn⟩ := ih n
      exact ⟨outcome, m', fun limit => (runWithin_of_moved hs limit budget).trans (hn limit)⟩

/-! ### Limits -/

/-- The moves are over before the limit, or they lead to a final state exactly at it. -/
def EndsWithin (m : Machine) (limit : Nat) : Prop :=
  m.moveCount < limit ∨ m.moveCount = limit ∧ ∃ n, m.ReachesIn limit n ∧ n.state.isFinal

/-- What limits do to the runs of a machine. A run that ends within its limit makes all the moves that there are and
    halts as the table has it; any other makes as many moves as the limit and is given up, which halts nothing. A run
    that was given up goes on to the very machine that one run up to the sum of the limits gives, with the same outcome
    but for the limit that it names; and a run that has halted is the same under any higher limit. -/
structure StepLimited (m : Machine) : Prop where
  ended : ∀ limit, m.EndsWithin limit → ∃ (k : Nat) (n : Machine) (halt : Halt), m.moveCount = k ∧ m.ReachesIn k n ∧
    m.table.Halts n.configuration halt ∧ m.run limit = (halt, { n with status := .halted halt })
  givenUp : ∀ limit, ¬m.EndsWithin limit → ∃ n, m.ReachesIn limit n ∧ n.isHalted = false ∧
    m.run limit = (.failed (.stepLimitExceeded limit), n)
  continued : ∀ i j k, (m.run i).1 = .failed (.stepLimitExceeded k) → ∃ (outcome : Option Halt) (m' : Machine),
    (m.run i).2.run j = (outcome.getD (.failed (.stepLimitExceeded j)), m') ∧
      m.run (i + j) = (outcome.getD (.failed (.stepLimitExceeded (i + j))), m')
  halted : ∀ i j, (m.run i).2.isHalted → m.run (i + j) = m.run i

theorem not_endsWithin (h : m.ReachesIn limit n) (hfinal : ¬n.state.isFinal) : ¬m.EndsWithin limit := by
  rintro (hlt | ⟨-, n', hn', hfinal'⟩)
  · exact absurd h.le_moveCount (not_le_of_gt hlt)
  · rw [← h.unique hn'] at hfinal'
    exact hfinal hfinal'

theorem halts_of_step (h : m.isHalted = false) (hs : m.step.1 = .halted halt) :
    m.table.Halts m.configuration halt :=
  Table.move_eq_error_iff.mp ((settled_of_isHalted h).step_eq_halted_iff.mp hs)

/-- Giving up leaves the machine where its run goes on. -/
theorem run_add_of_reachesIn (h : m.ReachesIn k n) (limit : Nat) :
    ∃ (outcome : Option Halt) (m' : Machine), n.run limit = (outcome.getD (.failed (.stepLimitExceeded limit)), m') ∧
      m.run (k + limit) = (outcome.getD (.failed (.stepLimitExceeded (k + limit))), m') := by
  obtain ⟨seen, hmoves, rfl⟩ := h
  obtain ⟨outcome, m', hn⟩ := exists_runWithin_eq limit n
  exact ⟨outcome, m', hn limit, (hmoves.runWithin_add _ limit).trans (hn _)⟩

theorem stepLimited_of_not_halted (h : m.isHalted = false) : m.StepLimited where
  ended limit hwithin := by
    rcases run_cases h limit with ⟨seen, n, halt, hmoves, hs, -, hrun⟩ | ⟨n, hn, hfinal, -⟩
    · have hn : n.isHalted = false := ReachesIn.isHalted_eq_false ⟨seen, hmoves, rfl⟩ h
      have hhalts := halts_of_step hn (congrArg Prod.fst hs)
      rw [hmoves.passage.table] at hhalts
      exact ⟨seen.length, n, halt, Ends.moveCount_eq ⟨n, hmoves, hs⟩, ⟨seen, hmoves, rfl⟩, hhalts, hrun⟩
    · exact absurd hwithin (not_endsWithin hn hfinal)
  givenUp limit hwithin := by
    rcases run_cases h limit with ⟨seen, n, halt, hmoves, hs, hlimit, -⟩ | ⟨n, hn, -, hrun⟩
    · have hcount := Ends.moveCount_eq ⟨n, hmoves, hs⟩
      refine absurd (hlimit.imp (fun hlt => ?_) fun hat => ?_) hwithin
      · rw [hcount]
        exact Nat.cast_lt.mpr hlt
      · exact ⟨by rw [hcount, hat.1], n, ⟨seen, hmoves, hat.1⟩, hat.2⟩
    · exact ⟨n, hn, hn.isHalted_eq_false h, hrun⟩
  continued i j k hgiven := by
    rcases run_cases h i with ⟨seen, n, halt, hmoves, hs, -, hrun⟩ | ⟨n, hn, -, hrun⟩
    · -- The table has no such halt.
      have hn : n.isHalted = false := ReachesIn.isHalted_eq_false ⟨seen, hmoves, rfl⟩ h
      rw [hrun] at hgiven
      obtain rfl : halt = _ := hgiven
      cases halts_of_step hn (congrArg Prod.fst hs)
    · rw [hrun]
      exact run_add_of_reachesIn hn j
  halted i j hhalted := by
    rcases run_cases h i with ⟨seen, n, halt, hmoves, hs, hlimit, hrun⟩ | ⟨n, hn, -, hrun⟩
    · rcases Nat.eq_zero_or_pos j with rfl | hj
      · rfl
      · have hlt : seen.length < i + j := by omega
        rw [hrun]
        exact Ends.run ⟨n, hmoves, hs⟩ hlt
    · rw [hrun] at hhalted
      exact absurd hhalted (by rw [hn.isHalted_eq_false h]; exact Bool.false_ne_true)

/-- The walker on an `a` and a blank is accepted exactly at the limit of two moves, and is given up one move before. -/
theorem stepLimited_of_not_halted_walker :
    (inState (compile walker).table ⟨[], 'a', ['_', '_']⟩ { id := "1", isStart := true }).isHalted = false ∧
      (inState (compile walker).table ⟨[], 'a', ['_', '_']⟩ { id := "1", isStart := true }).StepLimited ∧
      (inState (compile walker).table ⟨[], 'a', ['_', '_']⟩ { id := "1", isStart := true } |>.run 2).1 = .accepted ∧
      (inState (compile walker).table ⟨[], 'a', ['_', '_']⟩ { id := "1", isStart := true } |>.run 1).1 =
        .failed (.stepLimitExceeded 1) :=
  ⟨rfl, stepLimited_of_not_halted rfl, by decide, by decide⟩

end Tapeworks.Machine
