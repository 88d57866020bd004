import Mathlib.Data.Option.Basic
import Tapeworks.Proofs.Machine.Steps

/-! Machines that mirror each other. Two tables are related by a relation between their states when related states look
    alike and their rules for a symbol do the same and lead to related states again. Machines with such tables that
    agree on all else cannot be told apart by operations, except by those that place a state. -/

namespace Tapeworks

variable {R : State → State → Prop}

/-! ### Tables -/

/-- The rules do the same on the symbol `c` and lead to related states. -/
structure Matching (R : State → State → Prop) (c : Char) (r r' : Transition) : Prop where
  write : r.write.getD c = r'.write.getD c
  direction : r.direction = r'.direction
  target : R r.target r'.target

structure Bisimulation (R : State → State → Prop) (t t' : Table) : Prop where
  id : ∀ s s', R s s' → s.id = s'.id
  isFinal : ∀ s s', R s s' → s.isFinal = s'.isFinal
  rules : ∀ s s', R s s' → ∀ c, Option.Rel (Matching R c) (t.find? s.id c) (t'.find? s'.id c)

theorem option_rel_cases {α β : Type} {r : α → β → Prop} {a : Option α} {b : Option β} (h : Option.Rel r a b) :
    (a = none ∧ b = none) ∨ ∃ x y, a = some x ∧ b = some y ∧ r x y := by
  cases h with
  | some hxy => exact Or.inr ⟨_, _, rfl, rfl, hxy⟩
  | none => exact Or.inl ⟨rfl, rfl⟩

theorem Tape.apply_congr {t : Tape} {w w' : Option Char} (h : w.getD t.current = w'.getD t.current) (d : Direction) :
    t.apply w d = t.apply w' d := by
  unfold apply
  rw [h]

structure Configuration.Mirrors (R : State → State → Prop) (c c' : Configuration) : Prop where
  state : R c.state c'.state
  tape : c.tape = c'.tape

/-- Both tables end a run for one reason, or both go on. -/
theorem Bisimulation.move {t t' : Table} (B : Bisimulation R t t') {c c' : Configuration} (h : c.Mirrors R c') :
    (∃ halt, t.move c = .error halt ∧ t'.move c' = .error halt) ∨
      ∃ n n', t.move c = .ok n ∧ t'.move c' = .ok n' ∧ n.Mirrors R n' := by
  obtain ⟨s, tape⟩ := c
  obtain ⟨s', tape'⟩ := c'
  obtain ⟨hs, rfl⟩ : R s s' ∧ tape = tape' := ⟨h.state, h.tape⟩
  unfold Table.move
  rw [← B.isFinal s s' hs]
  by_cases hfinal : s.isFinal
  · exact Or.inl ⟨.accepted, if_pos hfinal, if_pos hfinal⟩
  · rw [if_neg hfinal, if_neg hfinal]
    rcases option_rel_cases (B.rules s s' hs tape.current) with ⟨hfind, hfind'⟩ | ⟨r, r', hfind, hfind', hr⟩
    · rw [hfind, hfind', B.id s s' hs]
      exact Or.inl ⟨_, rfl, rfl⟩
    · have happly : tape.apply r'.write r'.direction = tape.apply r.write r.direction := by
        rw [← hr.direction, Tape.apply_congr hr.write]
      rw [hfind, hfind']
      dsimp only
      rw [happly]
      cases tape.apply r.write r.direction with
      | error e => exact Or.inl ⟨_, rfl, rfl⟩
      | ok next => exact Or.inr ⟨_, _, rfl, rfl, hr.target, rfl⟩

/-! ### Machines -/

namespace Machine

variable {m m' : Machine}

/-- The machines have related tables, are in related states and agree on all else. -/
structure Mirrors (R : State → State → Prop) (m m' : Machine) : Prop where
  table : Bisimulation R m.table m'.table
  configuration : m.configuration.Mirrors R m'.configuration
  status : m.status = m'.status
  stepCount : m.stepCount = m'.stepCount
  history : m.history = m'.history
  traceLimit : m.traceLimit = m'.traceLimit

namespace Mirrors

theorem tape (h : Mirrors R m m') : m.tape = m'.tape :=
  h.configuration.tape

theorem isFinal (h : Mirrors R m m') : m.state.isFinal = m'.state.isFinal :=
  h.table.isFinal _ _ h.configuration.state

theorem snapshot (h : Mirrors R m m') : m.snapshot = m'.snapshot := by
  unfold Machine.snapshot
  rw [h.stepCount, h.tape, show m.state.id = m'.state.id from h.table.id _ _ h.configuration.state]

theorem view (h : Mirrors R m m') : m.view = m'.view := by
  unfold Machine.view Machine.trace
  rw [h.isFinal, h.tape, h.stepCount, h.status, h.history,
    show m.state.id = m'.state.id from h.table.id _ _ h.configuration.state]

theorem withStatus (h : Mirrors R m m') (status : Status) : Mirrors R { m with status } { m' with status } :=
  ⟨h.table, h.configuration, rfl, h.stepCount, h.history, h.traceLimit⟩

theorem moveTo (h : Mirrors R m m') {c c' : Configuration} (hc : c.Mirrors R c') :
    Mirrors R (m.moveTo c) (m'.moveTo c') := by
  have hmoved : Mirrors R { m with configuration := c, status := .running, stepCount := m.stepCount + 1 }
      { m' with configuration := c', status := .running, stepCount := m'.stepCount + 1 } :=
    ⟨h.table, hc, rfl, congrArg (· + 1) h.stepCount, h.history, h.traceLimit⟩
  refine ⟨h.table, hc, rfl, hmoved.stepCount, ?_, h.traceLimit⟩
  dsimp only [Machine.moveTo]
  rw [hmoved.snapshot, h.history, h.traceLimit]

theorem step (h : Mirrors R m m') : m.step.1 = m'.step.1 ∧ Mirrors R m.step.2 m'.step.2 := by
  have hmove := h.table.move h.configuration
  unfold Machine.step
  rw [← h.status]
  split
  · exact ⟨rfl, h⟩
  · rcases hmove with ⟨halt, h₁, h₂⟩ | ⟨n, n', h₁, h₂, hn⟩
    · rw [h₁, h₂]
      exact ⟨rfl, h.withStatus _⟩
    · rw [h₁, h₂]
      exact ⟨rfl, h.moveTo hn⟩

theorem lockstep : Lockstep (Mirrors R) := fun m m' h => by
  obtain ⟨hstep, hnext⟩ := h.step
  rcases hm : m.step with ⟨step, n⟩
  rcases hm' : m'.step with ⟨step', n'⟩
  rw [hm, hm'] at hstep hnext
  obtain rfl : step = step' := hstep
  cases step with
  | moved => exact Or.inr ⟨n, n', rfl, rfl, hnext⟩
  | halted halt => exact Or.inl ⟨halt, n, n', rfl, rfl, hnext⟩

/-! ### Operations -/

theorem isHalted (h : Mirrors R m m') : m.isHalted = m'.isHalted := by
  unfold Machine.isHalted
  rw [h.status]

theorem withTape (h : Mirrors R m m') (tape : Tape) : Mirrors R (m.withTape tape) (m'.withTape tape) :=
  ⟨h.table, ⟨h.configuration.state, rfl⟩, h.status, h.stepCount, h.history, h.traceLimit⟩

theorem setTape (h : Mirrors R m m') (tape : Tape) : Mirrors R (m.setTape tape) (m'.setTape tape) :=
  (h.withTape tape).withStatus _

theorem setTraceLimit (h : Mirrors R m m') (limit : Option Nat) :
    Mirrors R (m.setTraceLimit limit) (m'.setTraceLimit limit) :=
  ⟨h.table, h.configuration, h.status, h.stepCount, congrArg (kept limit) h.history, rfl⟩

theorem concord : Concord (Mirrors R) where
  lockstep := lockstep
  ended _ _ h := by rw [h.isHalted, h.isFinal]
  snapshot _ _ h := h.snapshot
  tape _ _ h := h.tape
  setTape _ _ h tape := h.setTape tape

theorem perform (h : Mirrors R m m') {op : Operation} (hop : ¬op.placesState) :
    (m.perform op).1 = (m'.perform op).1 ∧ Mirrors R (m.perform op).2 (m'.perform op).2 := by
  by_cases hlimits : op.limitsTrace
  · cases op with
    | setTraceLimit limit => exact ⟨rfl, h.setTraceLimit limit⟩
    | _ => cases hlimits
  · exact concord.perform h hop hlimits

/-- Machines that find related states under an id are put in these states. -/
theorem setState (h : Mirrors R m m') {id : String} (hstate : Option.Rel R (m.table.state? id) (m'.table.state? id)) :
    (m.edited (m.setState id)).1 = (m'.edited (m'.setState id)).1 ∧
      Mirrors R (m.edited (m.setState id)).2 (m'.edited (m'.setState id)).2 := by
  unfold Machine.setState stateNamed
  rcases option_rel_cases hstate with ⟨hs, hs'⟩ | ⟨s, s', hs, hs', hrel⟩
  · rw [hs, hs']
    exact ⟨rfl, h⟩
  · rw [hs, hs']
    exact ⟨rfl, h.table, ⟨hrel, h.tape⟩, rfl, h.stepCount, h.history, h.traceLimit⟩

theorem session (h : Mirrors R m m') {ops : List Operation} (hops : ∀ op ∈ ops, ¬op.placesState) :
    m.session ops = m'.session ops := by
  induction ops generalizing m m' with
  | nil => rfl
  | cons op ops ih =>
    obtain ⟨hreply, hnext⟩ := h.perform (hops op List.mem_cons_self)
    unfold Machine.session
    rw [hreply, hnext.view, ih hnext fun op' hop' => hops op' (List.mem_cons_of_mem _ hop')]

end Mirrors
end Machine
end Tapeworks
