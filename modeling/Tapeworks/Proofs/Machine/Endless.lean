import Tapeworks.Proofs.Machine.Pace

/-! When a run can never end. The configurations that a machine can pass through are counted by the states of its table,
    the cells of its tape and the symbols that these can hold. A run that has not ended after as many moves goes round
    for ever, so that one run up to this limit tells whether any run halts. -/

namespace Tapeworks

/-! ### The number of configurations -/

namespace Table

/-- The symbols that are on the tape or are written by a rule of the table. -/
def alphabet (t : Table) (tape : Tape) : Finset Char :=
  tape.cells.toFinset ∪ (t.rules.filterMap (·.2.write)).toFinset

/-- A state of the table, a cell for the head, and one of the symbols for every cell. -/
def bound (t : Table) (tape : Tape) : Nat :=
  t.states.length * tape.cells.length * (t.alphabet tape).card ^ tape.cells.length

end Table

namespace Machine

variable {t : Table} {tape : Tape} {d : Diagram} {m m' : Machine} {halt : Halt} {seen : List Snapshot}

theorem length_symbols (m : Machine) : m.symbols.length = (m.table.alphabet m.tape).card := by
  have hsymbols : m.symbols.toFinset = m.table.alphabet m.tape := by
    ext c
    simp [symbols, Table.alphabet]
  have hnodup : m.symbols.Nodup := nodup_eraseDups _
  rw [← hsymbols, List.toFinset_card_of_nodup hnodup]

theorem configurationBound_eq (m : Machine) : m.configurationBound = m.table.bound m.tape := by
  rw [configurationBound, Table.bound, length_symbols, Tape.length_cells, Table.states, List.length_map]
  rfl

/-! ### Runs without an end -/

/-- The machine never halts. Every limit is exceeded, and a paced run moves in every turn. -/
structure Endless (m : Machine) : Prop where
  run : ∀ limit, (m.run limit).1 = .failed (.stepLimitExceeded limit)
  paced : ∀ turns, (m.paced turns).halt = none ∧ (m.paced turns).seen.length = turns

theorem endless_of_not_ends (h : ∀ seen halt m', ¬Ends m seen halt m') : m.Endless := by
  constructor
  · intro limit
    by_contra hhalt
    obtain ⟨seen, hends⟩ := exists_ends_of_runWithin (Prod.eta (m.run limit)).symm hhalt
    exact h _ _ _ hends
  · intro turns
    rcases paced_cases m turns with ⟨seen, n, -, hlength, hpaced⟩ | ⟨seen, halt, m', hends, -, -⟩
    · rw [hpaced]
      exact ⟨rfl, hlength⟩
    · exact absurd hends (h _ _ _)

/-- A run that ends has one of the halts that the table knows, and giving up is none of them. -/
theorem Ends.ne_stepLimitExceeded (h : Ends m seen halt m') (hm : m.Settled) (limit : Nat) :
    halt ≠ .failed (.stepLimitExceeded limit) := by
  obtain ⟨n, hmoves, hs⟩ := h
  have hn : n.Settled := hmoves.keeps (fun _ hk => hk.step) hm
  have hmove : n.table.move n.configuration = .error halt := hn.step_eq_halted_iff.mp (congrArg Prod.fst hs)
  rintro rfl
  cases Table.move_eq_error_iff.mp hmove

/-! ### Runs up to the bound -/

/-- A run of as many moves as the bound decides about all runs of the machine: it is given up exactly when the machine
    never halts, and every run that halts does so in fewer moves, as the run up to the bound does. -/
structure DecidedBy (m : Machine) (bound : Nat) : Prop where
  endless : (m.run bound).1 = .failed (.stepLimitExceeded bound) ↔ m.Endless
  run : ∀ limit, (m.run limit).1 ≠ .failed (.stepLimitExceeded limit) →
    m.run bound = m.run limit ∧ (m.run limit).2.stepCount < m.stepCount + bound
  paced : ∀ turns halt, (m.paced turns).halt = some halt →
    m.run bound = (halt, (m.paced turns).machine) ∧ (m.paced turns).seen.length < bound

section Reachable

variable (h : Reachable (compile d).table m)
include h

theorem Reachable.decidedBy : m.DecidedBy m.configurationBound := by
  have hsettled := h.of_lasting (lasting_settled _)
  refine ⟨⟨fun hgiven => ?_, fun hendless => hendless.run _⟩, fun limit hhalt => ?_, fun turns halt hhalt => ?_⟩
  · refine endless_of_not_ends fun seen halt m' hends => hends.ne_stepLimitExceeded hsettled m.configurationBound ?_
    rw [hends.run (h.length_lt_of_ends hends)] at hgiven
    exact hgiven
  · obtain ⟨seen, hends⟩ := exists_ends_of_runWithin (Prod.eta (m.run limit)).symm hhalt
    have hlength := h.length_lt_of_ends hends
    refine ⟨hends.run hlength, ?_⟩
    rw [hends.stepCount]
    exact Nat.add_lt_add_left hlength _
  · rcases paced_cases m turns with ⟨seen, n, -, -, hpaced⟩ | ⟨seen, halt', m', hends, -, hpaced⟩
    · rw [hpaced] at hhalt
      cases hhalt
    · rw [hpaced] at hhalt ⊢
      cases hhalt
      have hlength := h.length_lt_of_ends hends
      exact ⟨hends.run hlength, hlength⟩

/-- The whole paced run has no halt exactly when there is none. -/
theorem Reachable.pacedToEnd_halt_eq_none_iff : m.pacedToEnd.halt = none ↔ m.Endless := by
  refine ⟨fun hnone => endless_of_not_ends fun seen halt m' hends => ?_, fun hendless => (hendless.paced _).1⟩
  rw [h.pacedToEnd_of_ends hends] at hnone
  cases hnone

end Reachable

/-- A fresh machine halts within as many moves as its table and its tape have configurations, or never. -/
theorem Fresh.decidedBy_bound (h : Fresh (compile d).table tape m) : m.DecidedBy ((compile d).table.bound tape) := by
  have hdecided := (Reachable.fresh h).decidedBy
  rw [configurationBound_eq] at hdecided
  obtain ⟨s, -, rfl⟩ := h.exists_state
  exact hdecided

/-- Goes to and fro on two blanks. -/
def pendulum : Diagram where
  states := [{ id := "1", isStart := true }, { id := "2" }]
  edges := [Edge.between "1" "2" "_,>", Edge.between "2" "1" "_,<"]

theorem Fresh.decidedBy_bound_pendulum :
    (compile pendulum).table.bound (.blank 2) = 4 ∧
      (inState (compile pendulum).table (.blank 2) { id := "1", isStart := true }).Endless :=
  ⟨by decide, (Fresh.decidedBy_bound (d := pendulum) (.new rfl)).endless.mp (by decide)⟩

end Machine
end Tapeworks
