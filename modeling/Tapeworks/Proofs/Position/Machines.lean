import Tapeworks.Proofs.Machine.Exchange
import Tapeworks.Proofs.Position.Unplaced

/-! Machines without positions. A machine carries the position of its state along and never looks at it. So a machine
    without positions answers every operation as the machine itself does, and becomes what that one becomes, without
    positions. -/

namespace Tapeworks

def Configuration.unplaced (c : Configuration) : Configuration :=
  { c with state := c.state.unplaced }

def Machine.unplaced (m : Machine) : Machine :=
  { m with table := m.table.unplaced, configuration := m.configuration.unplaced }

/-! ### Steps -/

theorem Table.move_unplaced (t : Table) (c : Configuration) :
    t.unplaced.move c.unplaced = (t.move c).map Configuration.unplaced := by
  have hstate : c.unplaced.state.id = c.state.id ∧ c.unplaced.state.isFinal = c.state.isFinal := ⟨rfl, rfl⟩
  have htape : c.unplaced.tape = c.tape := rfl
  unfold move
  rw [hstate.1, hstate.2, htape, find?_unplaced]
  split
  · rfl
  · cases t.find? c.state.id c.tape.current with
    | none => rfl
    | some r =>
      have hrule : r.unplaced.write = r.write ∧ r.unplaced.direction = r.direction := ⟨rfl, rfl⟩
      dsimp only [Option.map]
      rw [hrule.1, hrule.2]
      cases c.tape.apply r.write r.direction <;> rfl

namespace Machine

theorem step_unplaced (m : Machine) : m.unplaced.step = (m.step.1, m.step.2.unplaced) := by
  have hstatus : m.unplaced.status = m.status := rfl
  have hmove : m.unplaced.table.move m.unplaced.configuration =
      (m.table.move m.configuration).map Configuration.unplaced := m.table.move_unplaced m.configuration
  unfold step
  rw [hstatus, hmove]
  split
  · rfl
  · cases m.table.move m.configuration <;> rfl

theorem concord_unplaced : Concord fun m n => n = m.unplaced where
  lockstep := by
    rintro m _ rfl
    rcases m.halts_or_moves with ⟨halt, n, hs⟩ | ⟨n, hs⟩
    · exact Or.inl ⟨halt, n, n.unplaced, hs, by rw [step_unplaced, hs], rfl⟩
    · exact Or.inr ⟨n, n.unplaced, hs, by rw [step_unplaced, hs], rfl⟩
  ended := by
    rintro m _ rfl
    rfl
  snapshot := by
    rintro m _ rfl
    rfl
  tape := by
    rintro m _ rfl
    rfl
  setTape := by
    rintro m _ rfl tape
    rfl

/-! ### Operations -/

theorem edited_unplaced (m : Machine) (result : Except RunError Machine) :
    m.unplaced.edited (result.map unplaced) = ((m.edited result).1, (m.edited result).2.unplaced) := by
  cases result <;> rfl

theorem reset_unplaced (m : Machine) : m.unplaced.reset = m.reset.map unplaced := by
  have hstart : m.unplaced.table.start = m.table.start.map State.unplaced := m.table.start_unplaced
  unfold reset
  rw [hstart]
  cases m.table.start <;> rfl

theorem stateNamed_unplaced (t : Table) (id : String) :
    stateNamed t.unplaced id = (stateNamed t id).map State.unplaced := by
  unfold stateNamed
  rw [Table.state?_unplaced]
  cases t.state? id <;> rfl

theorem setState_unplaced (m : Machine) (id : String) : m.unplaced.setState id = (m.setState id).map unplaced := by
  have hnamed : stateNamed m.unplaced.table id = (stateNamed m.table id).map State.unplaced :=
    stateNamed_unplaced m.table id
  unfold setState
  rw [hnamed]
  cases stateNamed m.table id <;> rfl

theorem perform_unplaced (m : Machine) (op : Operation) :
    m.unplaced.perform op = ((m.perform op).1, (m.perform op).2.unplaced) := by
  by_cases hplaces : op.placesState
  · cases op with
    | reset => exact (congrArg m.unplaced.edited m.reset_unplaced).trans (m.edited_unplaced m.reset)
    | setState id =>
      exact (congrArg m.unplaced.edited (m.setState_unplaced id)).trans (m.edited_unplaced (m.setState id))
    | _ => cases hplaces
  · by_cases hlimits : op.limitsTrace
    · cases op with
      | setTraceLimit limit => rfl
      | _ => cases hlimits
    · obtain ⟨hreply, hnext⟩ := concord_unplaced.perform rfl hplaces hlimits
      exact Prod.ext hreply.symm hnext

theorem session_unplaced (m : Machine) (ops : List Operation) : m.unplaced.session ops = m.session ops := by
  induction ops generalizing m with
  | nil => rfl
  | cons op ops ih =>
    rw [session, session, perform_unplaced, ih]
    rfl

theorem after_unplaced (m : Machine) (ops : List Operation) : m.unplaced.after ops = (m.after ops).unplaced := by
  induction ops generalizing m with
  | nil => rfl
  | cons op ops ih =>
    have hnext : (m.unplaced.perform op).2 = (m.perform op).2.unplaced := congrArg Prod.snd (m.perform_unplaced op)
    calc m.unplaced.after (op :: ops)
      _ = (m.unplaced.perform op).2.after ops := rfl
      _ = ((m.perform op).2.after ops).unplaced := by rw [hnext, ih]

/-! ### Setting up -/

/-- A way to set up a machine with a table. -/
inductive Setup
  | new (tape : Tape)
  | startingAt (tape : Tape) (id : String)
  | resume (snapshot : Snapshot)

def Setup.machine (t : Table) : Setup → Except RunError Machine
  | .new tape => Machine.new t tape
  | .startingAt tape id => Machine.startingAt t tape id
  | .resume snapshot => Machine.resume t snapshot

theorem startingAt_unplaced (t : Table) (tape : Tape) (id : String) :
    startingAt t.unplaced tape id = (startingAt t tape id).map unplaced := by
  unfold startingAt
  rw [stateNamed_unplaced]
  cases stateNamed t id <;> rfl

theorem new_unplaced (t : Table) (tape : Tape) : Machine.new t.unplaced tape = (Machine.new t tape).map unplaced := by
  unfold Machine.new
  rw [Table.start_unplaced]
  cases t.start <;> rfl

theorem resume_unplaced (t : Table) (snapshot : Snapshot) :
    resume t.unplaced snapshot = (resume t snapshot).map unplaced := by
  unfold resume
  cases (Tape.ofCells snapshot.tape.toList).setHead snapshot.head with
  | error e => rfl
  | ok tape =>
    dsimp only [bind, Except.bind]
    rw [startingAt_unplaced]
    cases startingAt t tape snapshot.state <;> rfl

theorem Setup.machine_unplaced (setup : Setup) (t : Table) :
    setup.machine t.unplaced = (setup.machine t).map unplaced := by
  cases setup with
  | new tape => exact new_unplaced t tape
  | startingAt tape id => exact startingAt_unplaced t tape id
  | resume snapshot => exact resume_unplaced t snapshot

theorem Setup.after_unplaced (setup : Setup) (t : Table) (ops : List Operation) :
    (setup.machine t.unplaced).map (·.after ops) = (setup.machine t).map fun m => (m.after ops).unplaced := by
  rw [Setup.machine_unplaced]
  cases setup.machine t with
  | error e => rfl
  | ok m => exact congrArg Except.ok (m.after_unplaced ops)

theorem showing_unplaced (setup : Setup) (t : Table) (ops : List Operation) :
    showing ops (setup.machine t.unplaced) = showing ops (setup.machine t) := by
  rw [Setup.machine_unplaced]
  cases setup.machine t with
  | error e => rfl
  | ok m => exact congrArg Except.ok (m.session_unplaced ops)

end Machine
end Tapeworks
