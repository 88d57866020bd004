import Tapeworks.Proofs.Machine.Session

/-! Steps and the runs made of them. A step repeats the halt of a machine that has halted, and else does what the table
    does to the configuration. A machine is settled when its halt, if it has one, is what the table finds anew; for
    such a machine a step depends on the configuration alone. Runs up to a limit and paced runs are moves followed by
    a halt, so that the moves and the halt decide what either kind of run comes to. -/

namespace Tapeworks.Machine

variable {m m' n : Machine} {halt halt' : Halt} {seen seen' : List Snapshot} {limit turns budget : Nat}

/-! ### One step -/

theorem step_of_halted (h : m.status = .halted halt) : m.step = (.halted halt, m) := by
  rw [step, h]

theorem isHalted_eq_false (h : ∀ halt, m.status ≠ .halted halt) : m.isHalted = false := by
  unfold isHalted
  split
  · rename_i halt hstatus
    exact absurd hstatus (h halt)
  · rfl

/-- All that a step can do. -/
theorem step_cases (m : Machine) :
    (∃ halt, m.status = .halted halt ∧ m.step = (.halted halt, m)) ∨
      (m.isHalted = false ∧ ∃ halt, m.table.move m.configuration = .error halt ∧
        m.step = (.halted halt, { m with status := .halted halt })) ∨
      (m.isHalted = false ∧ ∃ c, m.table.move m.configuration = .ok c ∧ m.step = (.moved, m.moveTo c)) := by
  by_cases hhalted : ∃ halt, m.status = .halted halt
  · obtain ⟨halt, h⟩ := hhalted
    exact Or.inl ⟨halt, h, step_of_halted h⟩
  · have hstatus : ∀ halt, m.status ≠ .halted halt := fun halt h => hhalted ⟨halt, h⟩
    have hfalse := isHalted_eq_false hstatus
    refine Or.inr ?_
    unfold step
    split
    · rename_i halt h
      exact absurd h (hstatus halt)
    · cases hmove : m.table.move m.configuration with
      | error halt => exact Or.inl ⟨hfalse, halt, rfl, rfl⟩
      | ok c => exact Or.inr ⟨hfalse, c, rfl, rfl⟩

theorem halts_or_moves (m : Machine) : (∃ halt n, m.step = (.halted halt, n)) ∨ ∃ n, m.step = (.moved, n) := by
  rcases step_cases m with ⟨halt, -, hstep⟩ | ⟨-, halt, -, hstep⟩ | ⟨-, c, -, hstep⟩
  · exact Or.inl ⟨halt, _, hstep⟩
  · exact Or.inl ⟨halt, _, hstep⟩
  · exact Or.inr ⟨_, hstep⟩

theorem step_snd_of_halted (h : m.step = (.halted halt, n)) : n = { m with status := .halted halt } := by
  rcases step_cases m with ⟨halt', hstatus, hstep⟩ | ⟨-, halt', -, hstep⟩ | ⟨-, c, -, hstep⟩
  · rw [hstep] at h
    cases h
    rw [← hstatus]
  · rw [hstep] at h
    cases h
    rfl
  · rw [hstep] at h
    cases h

theorem exists_move (h : m.step = (.moved, n)) : ∃ c, m.table.move m.configuration = .ok c ∧ n = m.moveTo c := by
  rcases step_cases m with ⟨halt, -, hstep⟩ | ⟨-, halt, -, hstep⟩ | ⟨-, c, hmove, hstep⟩
  · rw [hstep] at h
    cases h
  · rw [hstep] at h
    cases h
  · rw [hstep] at h
    cases h
    exact ⟨c, hmove, rfl⟩

theorem trace_moveTo (h : m.traceLimit = none) (c : Configuration) :
    (m.moveTo c).trace = m.trace ++ [(m.moveTo c).snapshot] := by
  unfold trace moveTo
  rw [h]
  exact List.reverse_cons

/-! ### Settled machines -/

/-- A halt is the one that the table finds in the configuration. -/
def Settled (m : Machine) : Prop :=
  ∀ halt, m.status = .halted halt → m.table.move m.configuration = .error halt

theorem settled_of_idle (h : m.status = .idle) : m.Settled := fun halt hhalted => by
  rw [h] at hhalted
  cases hhalted

theorem settled_of_isHalted (h : m.isHalted = false) : m.Settled := fun halt hhalted => by
  unfold isHalted at h
  rw [hhalted] at h
  cases h

namespace Settled

theorem step_cases (h : m.Settled) :
    (∃ halt, m.table.move m.configuration = .error halt ∧
        m.step = (.halted halt, { m with status := .halted halt })) ∨
      (m.isHalted = false ∧ ∃ c, m.table.move m.configuration = .ok c ∧ m.step = (.moved, m.moveTo c)) := by
  rcases m.step_cases with ⟨halt, hstatus, hstep⟩ | ⟨-, hhalt⟩ | hmoved
  · refine Or.inl ⟨halt, h halt hstatus, hstep.trans ?_⟩
    rw [← hstatus]
  · exact Or.inl hhalt
  · exact Or.inr hmoved

theorem step_of_error (h : m.Settled) (hmove : m.table.move m.configuration = .error halt) :
    m.step = (.halted halt, { m with status := .halted halt }) := by
  rcases h.step_cases with ⟨halt', hmove', hs⟩ | ⟨-, c, hmove', -⟩
  · rw [hmove] at hmove'
    cases hmove'
    exact hs
  · rw [hmove] at hmove'
    cases hmove'

theorem step_of_ok {c : Configuration} (h : m.Settled) (hmove : m.table.move m.configuration = .ok c) :
    m.step = (.moved, m.moveTo c) := by
  rcases h.step_cases with ⟨halt, hmove', -⟩ | ⟨-, c', hmove', hs⟩
  · rw [hmove] at hmove'
    cases hmove'
  · rw [hmove] at hmove'
    cases hmove'
    exact hs

theorem step (h : m.Settled) : m.step.2.Settled := by
  rcases h.step_cases with ⟨halt, hmove, hstep⟩ | ⟨-, c, -, hstep⟩
  · rw [hstep]
    intro halt' hhalted
    cases hhalted
    exact hmove
  · rw [hstep]
    intro halt' hhalted
    cases hhalted

theorem step_eq_halted_iff (h : m.Settled) :
    m.step.1 = .halted halt ↔ m.table.move m.configuration = .error halt := by
  rcases h.step_cases with ⟨halt', hmove, hstep⟩ | ⟨-, c, hmove, hstep⟩
  · rw [hmove, hstep, Step.halted.injEq, Except.error.injEq]
  · rw [hmove, hstep]
    exact ⟨nofun, nofun⟩

theorem step_eq_moved_iff (h : m.Settled) : m.step.1 = .moved ↔ ∃ c, m.table.move m.configuration = .ok c := by
  rcases h.step_cases with ⟨halt, hmove, hstep⟩ | ⟨-, c, hmove, hstep⟩
  · rw [hmove, hstep]
    exact ⟨nofun, nofun⟩
  · rw [hmove, hstep]
    exact ⟨fun _ => ⟨c, rfl⟩, fun _ => rfl⟩

end Settled

/-! ### One turn of a run -/

theorem runWithin_of_halted (h : m.step = (.halted halt, n)) (limit budget : Nat) :
    runWithin limit (budget + 1) m = (halt, n) := by
  rw [runWithin, h]

theorem runWithin_of_moved (h : m.step = (.moved, n)) (limit budget : Nat) :
    runWithin limit (budget + 1) m = runWithin limit budget n := by
  rw [runWithin, h]

theorem pacedFrom_of_halted (h : m.step = (.halted halt, n)) (seen : List Snapshot) (turns : Nat) :
    pacedFrom seen (turns + 1) m = ⟨some halt, seen.reverse, n⟩ := by
  rw [pacedFrom, h]

theorem pacedFrom_of_moved (h : m.step = (.moved, n)) (seen : List Snapshot) (turns : Nat) :
    pacedFrom seen (turns + 1) m = pacedFrom (n.snapshot :: seen) turns n := by
  rw [pacedFrom, h]

/-! ### What a run keeps -/

section Keeps

variable {P : Machine → Prop} (hstep : ∀ n, P n → P n.step.2)
include hstep

theorem step_keeps {step : Step} (h : m.step = (step, n)) (hm : P m) : P n := by
  have hnext := hstep m hm
  rwa [h] at hnext

theorem runWithin_keeps (limit budget : Nat) (hm : P m) : P (runWithin limit budget m).2 := by
  induction budget generalizing m with
  | zero =>
    unfold runWithin
    split
    · rcases halts_or_moves m with ⟨halt, n, hs⟩ | ⟨n, hs⟩
      · rw [hs]
        exact step_keeps hstep hs hm
      · rw [hs]
        exact hm
    · exact hm
  | succ budget ih =>
    rcases halts_or_moves m with ⟨halt, n, hs⟩ | ⟨n, hs⟩
    · rw [runWithin_of_halted hs]
      exact step_keeps hstep hs hm
    · rw [runWithin_of_moved hs]
      exact ih (step_keeps hstep hs hm)

theorem pacedFrom_keeps (seen : List Snapshot) (turns : Nat) (hm : P m) : P (pacedFrom seen turns m).machine := by
  induction turns generalizing m seen with
  | zero => exact hm
  | succ turns ih =>
    rcases halts_or_moves m with ⟨halt, n, hs⟩ | ⟨n, hs⟩
    · rw [pacedFrom_of_halted hs]
      exact step_keeps hstep hs hm
    · rw [pacedFrom_of_moved hs]
      exact ih _ (step_keeps hstep hs hm)

end Keeps

/-! ### Moves and the end of a run -/

/-- Moves alone lead from one machine to another, with a snapshot after each of them. -/
inductive Moves : Machine → List Snapshot → Machine → Prop
  | refl (m : Machine) : Moves m [] m
  | move {m n m' : Machine} {seen : List Snapshot} :
      m.step = (.moved, n) → Moves n seen m' → Moves m (n.snapshot :: seen) m'

/-- Moves and a halt after them lead from one machine to another. -/
def Ends (m : Machine) (seen : List Snapshot) (halt : Halt) (m' : Machine) : Prop :=
  ∃ n, Moves m seen n ∧ n.step = (.halted halt, m')

theorem Moves.keeps {P : Machine → Prop} (hstep : ∀ n, P n → P n.step.2) (h : Moves m seen n) (hm : P m) : P n := by
  induction h with
  | refl m => exact hm
  | move hs _ ih => exact ih (step_keeps hstep hs hm)

/-- A machine that keeps every snapshot keeps those of the moves. -/
theorem Moves.trace (h : Moves m seen n) (hlimit : m.traceLimit = none) : n.trace = m.trace ++ seen := by
  induction h with
  | refl m => rw [List.append_nil]
  | @move m n m' seen hs _ ih =>
    obtain ⟨c, -, rfl⟩ := exists_move hs
    rw [ih hlimit, trace_moveTo hlimit, List.append_assoc, List.singleton_append]

/-- A run that ends still has to make the moves that are left after some of them. -/
theorem Moves.rest (h : Moves m seen n) (h' : Ends m seen' halt m') :
    ∃ rest, seen' = seen ++ rest ∧ Ends n rest halt m' := by
  induction h generalizing seen' with
  | refl m => exact ⟨seen', rfl, h'⟩
  | @move m n m' seen hstep _ ih =>
    obtain ⟨k, hmoves, hlast⟩ := h'
    cases hmoves with
    | refl =>
      rw [hstep] at hlast
      cases hlast
    | move hfirst hmoves =>
      rw [hstep] at hfirst
      cases hfirst
      obtain ⟨rest, hrest, hends⟩ := ih ⟨k, hmoves, hlast⟩
      exact ⟨rest, by rw [hrest, List.cons_append], hends⟩

/-- A machine whose run has ended halts again at once. -/
theorem Ends.again (h : Ends m seen halt m') : Ends m' [] halt m' := by
  obtain ⟨n, -, hstep⟩ := h
  refine ⟨m', .refl m', step_of_halted ?_⟩
  rw [step_snd_of_halted hstep]

/-! ### Paced runs -/

/-- What has been seen before a paced run only stands before what it shows. -/
theorem pacedFrom_eq (seen : List Snapshot) (turns : Nat) (m : Machine) :
    pacedFrom seen turns m =
      ⟨(m.paced turns).halt, seen.reverse ++ (m.paced turns).seen, (m.paced turns).machine⟩ := by
  unfold paced
  induction turns generalizing m seen with
  | zero => simp [pacedFrom]
  | succ turns ih =>
    rcases halts_or_moves m with ⟨halt, n, hs⟩ | ⟨n, hs⟩
    · simp [pacedFrom_of_halted hs]
    · rw [pacedFrom_of_moved hs, pacedFrom_of_moved hs, ih, ih [n.snapshot]]
      simp

theorem paced_of_halted (h : m.step = (.halted halt, n)) (turns : Nat) : m.paced (turns + 1) = ⟨some halt, [], n⟩ :=
  pacedFrom_of_halted h [] turns

theorem paced_of_moved (h : m.step = (.moved, n)) (turns : Nat) : m.paced (turns + 1) =
    ⟨(n.paced turns).halt, n.snapshot :: (n.paced turns).seen, (n.paced turns).machine⟩ :=
  (pacedFrom_of_moved h [] turns).trans (pacedFrom_eq [n.snapshot] turns n)

theorem Moves.paced_add (h : Moves m seen n) (turns : Nat) : m.paced (seen.length + turns) =
    ⟨(n.paced turns).halt, seen ++ (n.paced turns).seen, (n.paced turns).machine⟩ := by
  induction h with
  | refl m =>
    rw [List.length_nil, Nat.zero_add]
    rfl
  | move hs _ ih =>
    rw [List.length_cons, Nat.add_right_comm, paced_of_moved hs, ih]
    rfl

theorem Ends.paced (h : Ends m seen halt m') (hturns : seen.length < turns) :
    m.paced turns = ⟨some halt, seen, m'⟩ := by
  obtain ⟨n, hmoves, hs⟩ := h
  obtain ⟨extra, rfl⟩ := Nat.exists_eq_add_of_lt hturns
  rw [Nat.add_assoc, hmoves.paced_add, paced_of_halted hs, List.append_nil]

/-- A paced run makes a move in each turn, unless it ends. -/
theorem paced_cases (m : Machine) (turns : Nat) :
    (∃ seen n, Moves m seen n ∧ seen.length = turns ∧ m.paced turns = ⟨none, seen, n⟩) ∨
      ∃ seen halt m', Ends m seen halt m' ∧ seen.length < turns ∧ m.paced turns = ⟨some halt, seen, m'⟩ := by
  induction turns generalizing m with
  | zero => exact Or.inl ⟨[], m, .refl m, rfl, rfl⟩
  | succ turns ih =>
    rcases halts_or_moves m with ⟨halt, n, hs⟩ | ⟨n, hs⟩
    · exact Or.inr ⟨[], halt, n, ⟨m, .refl m, hs⟩, Nat.succ_pos _, paced_of_halted hs turns⟩
    · rw [paced_of_moved hs]
      rcases ih n with ⟨seen, k, hmoves, hlength, hpaced⟩ | ⟨seen, halt, m', ⟨k, hmoves, hk⟩, hlength, hpaced⟩
      · rw [hpaced]
        exact Or.inl ⟨_, k, .move hs hmoves, congrArg (· + 1) hlength, rfl⟩
      · rw [hpaced]
        exact Or.inr ⟨_, halt, m', ⟨k, .move hs hmoves, hk⟩, Nat.succ_lt_succ hlength, rfl⟩

theorem Ends.unique (h : Ends m seen halt m') (h' : Ends m seen' halt' n) : seen = seen' ∧ halt = halt' ∧ m' = n := by
  have hpaced : m.paced (seen.length + seen'.length + 1) = ⟨some halt, seen, m'⟩ := h.paced (by omega)
  rw [h'.paced (by omega)] at hpaced
  cases hpaced
  exact ⟨rfl, rfl, rfl⟩

/-! ### Runs up to a limit -/

theorem Moves.runWithin_add (h : Moves m seen n) (limit budget : Nat) :
    runWithin limit (seen.length + budget) m = runWithin limit budget n := by
  induction h with
  | refl m => rw [List.length_nil, Nat.zero_add]
  | move hs _ ih => rw [List.length_cons, Nat.add_right_comm, runWithin_of_moved hs, ih]

theorem Ends.run (h : Ends m seen halt m') (hlimit : seen.length < limit) : m.run limit = (halt, m') := by
  obtain ⟨n, hmoves, hs⟩ := h
  obtain ⟨extra, rfl⟩ := Nat.exists_eq_add_of_lt hlimit
  rw [Machine.run, Nat.add_assoc, hmoves.runWithin_add, runWithin_of_halted hs]

/-- A run that does not give up comes to the end of the moves. -/
theorem exists_ends_of_runWithin (h : runWithin limit budget m = (halt, m'))
    (hlimit : halt ≠ .failed (.stepLimitExceeded limit)) : ∃ seen, Ends m seen halt m' := by
  induction budget generalizing m with
  | zero =>
    unfold runWithin at h
    rcases halts_or_moves m with ⟨halt', n, hs⟩ | ⟨n, hs⟩
    · rw [hs] at h
      split at h
      · cases h
        exact ⟨[], m, .refl m, hs⟩
      · cases h
        exact absurd rfl hlimit
    · rw [hs] at h
      split at h <;> cases h <;> exact absurd rfl hlimit
  | succ budget ih =>
    rcases halts_or_moves m with ⟨halt', n, hs⟩ | ⟨n, hs⟩
    · rw [runWithin_of_halted hs] at h
      cases h
      exact ⟨[], m, .refl m, hs⟩
    · rw [runWithin_of_moved hs] at h
      obtain ⟨seen, k, hmoves, hk⟩ := ih h
      exact ⟨_, k, .move hs hmoves, hk⟩

/-! ### Machines in lockstep -/

/-- Related machines do the same in a step and become machines that are related again. -/
def Lockstep (R : Machine → Machine → Prop) : Prop :=
  ∀ m m', R m m' →
    (∃ halt n n', m.step = (.halted halt, n) ∧ m'.step = (.halted halt, n') ∧ R n n') ∨
      ∃ n n', m.step = (.moved, n) ∧ m'.step = (.moved, n') ∧ R n n'

namespace Lockstep

variable {R : Machine → Machine → Prop} (hR : Lockstep R)
include hR

/-- Related machines run alike to a limit, if it is seen alike in both whether their run is over. -/
theorem runWithin
    (hover : ∀ m m', R m m' → (m.isHalted || m.state.isFinal) = (m'.isHalted || m'.state.isFinal))
    (h : R m m') (limit budget : Nat) : (runWithin limit budget m).1 = (runWithin limit budget m').1 ∧
      R (runWithin limit budget m).2 (runWithin limit budget m').2 := by
  induction budget generalizing m m' with
  | zero =>
    unfold Machine.runWithin
    rw [← hover m m' h]
    split
    · rcases hR m m' h with ⟨halt, n, n', hs, hs', hn⟩ | ⟨n, n', hs, hs', -⟩
      · rw [hs, hs']
        exact ⟨rfl, hn⟩
      · rw [hs, hs']
        exact ⟨rfl, h⟩
    · exact ⟨rfl, h⟩
  | succ budget ih =>
    rcases hR m m' h with ⟨halt, n, n', hs, hs', hn⟩ | ⟨n, n', hs, hs', hn⟩
    · rw [runWithin_of_halted hs, runWithin_of_halted hs']
      exact ⟨rfl, hn⟩
    · rw [runWithin_of_moved hs, runWithin_of_moved hs']
      exact ih hn

/-- Related machines show the same in paced runs, if they look alike. -/
theorem pacedFrom (hlook : ∀ m m', R m m' → m.snapshot = m'.snapshot) (h : R m m') (seen : List Snapshot)
    (turns : Nat) : (pacedFrom seen turns m).halt = (pacedFrom seen turns m').halt ∧
      (pacedFrom seen turns m).seen = (pacedFrom seen turns m').seen ∧
        R (pacedFrom seen turns m).machine (pacedFrom seen turns m').machine := by
  induction turns generalizing m m' seen with
  | zero => exact ⟨rfl, rfl, h⟩
  | succ turns ih =>
    rcases hR m m' h with ⟨halt, n, n', hs, hs', hn⟩ | ⟨n, n', hs, hs', hn⟩
    · rw [pacedFrom_of_halted hs, pacedFrom_of_halted hs']
      exact ⟨rfl, rfl, hn⟩
    · rw [pacedFrom_of_moved hs, pacedFrom_of_moved hs', hlook n n' hn]
      exact ih hn _

end Lockstep

/-! ### Operations on machines in lockstep -/

/-- Related machines look alike in all that an operation reads but the table, and putting the same tape in keeps them
    related. -/
structure Concord (R : Machine → Machine → Prop) : Prop where
  lockstep : Lockstep R
  ended : ∀ m m', R m m' → (m.isHalted || m.state.isFinal) = (m'.isHalted || m'.state.isFinal)
  snapshot : ∀ m m', R m m' → m.snapshot = m'.snapshot
  tape : ∀ m m', R m m' → m.tape = m'.tape
  setTape : ∀ m m', R m m' → ∀ tape, R (m.setTape tape) (m'.setTape tape)

namespace Concord

variable {R : Machine → Machine → Prop} (hR : Concord R)
include hR

/-- An edit of the tape is refused by both machines or done by both. -/
theorem edited (h : R m m') (result : Except RunError Tape) :
    (m.edited (do return (m.withTape (← result)).idle)).1 = (m'.edited (do return (m'.withTape (← result)).idle)).1 ∧
      R (m.edited (do return (m.withTape (← result)).idle)).2
        (m'.edited (do return (m'.withTape (← result)).idle)).2 := by
  cases result with
  | error e => exact ⟨rfl, h⟩
  | ok tape => exact ⟨rfl, hR.setTape m m' h tape⟩

/-- Related machines get one reply to an operation that neither reads the table by itself nor sets the limit. -/
theorem perform (h : R m m') {op : Operation} (hplaces : ¬op.placesState) (hlimits : ¬op.limitsTrace) :
    (m.perform op).1 = (m'.perform op).1 ∧ R (m.perform op).2 (m'.perform op).2 := by
  have htape := hR.tape m m' h
  cases op with
  | step =>
    unfold Machine.perform
    rcases hR.lockstep m m' h with ⟨halt, n, n', hs, hs', hn⟩ | ⟨n, n', hs, hs', hn⟩
    · rw [hs, hs']
      exact ⟨rfl, hn⟩
    · rw [hs, hs']
      exact ⟨rfl, hn⟩
  | run limit =>
    obtain ⟨hhalt, hnext⟩ := hR.lockstep.runWithin hR.ended h limit limit
    exact ⟨congrArg Reply.ran hhalt, hnext⟩
  | paced turns =>
    obtain ⟨hhalt, hseen, hnext⟩ := hR.lockstep.pacedFrom hR.snapshot h [] turns
    have hreply : Reply.paced (m.paced turns).halt (m.paced turns).seen =
        .paced (m'.paced turns).halt (m'.paced turns).seen := by
      unfold Machine.paced
      rw [hhalt, hseen]
    exact ⟨hreply, hnext⟩
  | reset => exact absurd rfl hplaces
  | setTape tape => exact ⟨rfl, hR.setTape m m' h tape⟩
  | setSymbol index symbol =>
    unfold Machine.perform Machine.setSymbol
    rw [← htape]
    exact hR.edited h _
  | setHead index =>
    unfold Machine.perform Machine.setHead
    rw [← htape]
    exact hR.edited h _
  | setState id => exact absurd rfl hplaces
  | setTraceLimit limit => exact absurd rfl hlimits

end Concord

end Tapeworks.Machine
