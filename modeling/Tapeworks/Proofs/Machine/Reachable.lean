import Tapeworks.Proofs.Machine.Steps
import Tapeworks.Proofs.Table

/-! Machines that can arise. A fresh machine has been set up on a tape in a state of its table; a reachable one has been
    set up so, or from a snapshot, and has then been through any operations, done or refused. -/

namespace Tapeworks.Machine

variable {t : Table} {tape : Tape} {m : Machine} {id : String} {snapshot : Snapshot} {ops : List Operation}

/-! ### Setting up -/

/-- A machine that has just been set up on a tape. -/
inductive Fresh (t : Table) (tape : Tape) : Machine → Prop
  | new {m : Machine} : Machine.new t tape = .ok m → Fresh t tape m
  | startingAt {m : Machine} (id : String) : Machine.startingAt t tape id = .ok m → Fresh t tape m

theorem new_eq_ok_iff : Machine.new t tape = .ok m ↔ ∃ s, t.start = .ok s ∧ m = inState t tape s := by
  unfold Machine.new
  cases t.start with
  | error e => exact ⟨nofun, fun ⟨_, h, _⟩ => nomatch h⟩
  | ok s => exact ⟨fun h => ⟨s, rfl, (Except.ok.inj h).symm⟩, fun ⟨_, h, hm⟩ => by cases h; rw [hm]; rfl⟩

theorem new_of_start {s : State} (h : t.start = .ok s) (tape : Tape) : Machine.new t tape = .ok (inState t tape s) :=
  new_eq_ok_iff.mpr ⟨s, h, rfl⟩

theorem new_eq_error_iff {e : RunError} : Machine.new t tape = .error e ↔ t.start = .error e := by
  unfold Machine.new
  cases t.start with
  | error e' =>
    constructor
    · intro h
      cases h
      rfl
    · intro h
      cases h
      rfl
  | ok s => exact ⟨nofun, nofun⟩

theorem startingAt_eq_ok_iff : startingAt t tape id = .ok m ↔ ∃ s, t.state? id = some s ∧ m = inState t tape s := by
  unfold startingAt stateNamed
  cases t.state? id with
  | none => exact ⟨nofun, fun ⟨_, h, _⟩ => nomatch h⟩
  | some s => exact ⟨fun h => ⟨s, rfl, (Except.ok.inj h).symm⟩, fun ⟨_, h, hm⟩ => by cases h; rw [hm]; rfl⟩

theorem resume_eq_ok_iff : resume t snapshot = .ok m ↔
    ∃ tape s, (Tape.ofCells snapshot.tape.toList).setHead snapshot.head = .ok tape ∧
      t.state? snapshot.state = some s ∧ m = { inState t tape s with stepCount := snapshot.step } := by
  unfold resume
  cases (Tape.ofCells snapshot.tape.toList).setHead snapshot.head with
  | error e => exact ⟨nofun, fun ⟨_, _, h, _⟩ => nomatch h⟩
  | ok tape =>
    unfold startingAt stateNamed
    cases t.state? snapshot.state with
    | none => exact ⟨nofun, fun ⟨_, _, _, h, _⟩ => nomatch h⟩
    | some s =>
      exact ⟨fun h => ⟨tape, s, rfl, rfl, (Except.ok.inj h).symm⟩, fun ⟨_, _, h, h', hm⟩ => by
        cases h
        cases h'
        rw [hm]
        rfl⟩

theorem mem_states_of_start {s : State} (h : t.start = .ok s) : s ∈ t.states := by
  unfold Table.start at h
  split at h
  · rename_i s' hs
    cases h
    exact List.mem_of_mem_filter (hs ▸ List.mem_singleton_self s)
  · cases h

theorem Fresh.exists_state (h : Fresh t tape m) : ∃ s ∈ t.states, m = inState t tape s := by
  cases h with
  | new h =>
    obtain ⟨s, hs, rfl⟩ := new_eq_ok_iff.mp h
    exact ⟨s, mem_states_of_start hs, rfl⟩
  | startingAt id h =>
    obtain ⟨s, hs, rfl⟩ := startingAt_eq_ok_iff.mp h
    exact ⟨s, (Table.state?_eq_some hs).1, rfl⟩

/-! ### Operations in turn -/

/-- The machine after some operations. -/
def after (m : Machine) (ops : List Operation) : Machine :=
  ops.foldl (fun m op => (m.perform op).2) m

/-- The operation steps, or runs in either way. -/
def Operation.runs : Operation → Bool
  | .step | .run _ | .paced _ => true
  | _ => false

section Keeps

variable {P : Machine → Prop} (hstep : ∀ n, P n → P n.step.2)
include hstep

theorem perform_keeps {op : Operation} (hop : op.runs) (hm : P m) : P (m.perform op).2 := by
  cases op with
  | step => exact hstep m hm
  | run limit => exact runWithin_keeps hstep limit limit hm
  | paced turns => exact pacedFrom_keeps hstep [] turns hm
  | _ => cases hop

theorem after_keeps (hops : ∀ op ∈ ops, op.runs) (hm : P m) : P (m.after ops) := by
  induction ops generalizing m with
  | nil => exact hm
  | cons op ops ih =>
    have hnext : P (m.perform op).2 := perform_keeps hstep (hops op List.mem_cons_self) hm
    exact ih (fun op' hop' => hops op' (List.mem_cons_of_mem _ hop')) hnext

end Keeps

/-! ### All machines -/

/-- A machine that can arise with the table. -/
inductive Reachable (t : Table) : Machine → Prop
  | fresh {tape : Tape} {m : Machine} : Fresh t tape m → Reachable t m
  | resumed {snapshot : Snapshot} {m : Machine} : resume t snapshot = .ok m → Reachable t m
  | performed {m : Machine} (op : Operation) : Reachable t m → Reachable t (m.perform op).2

/-- An edit of the tape is refused, or it puts another tape in. -/
theorem edited_withTape (m : Machine) (result : Except RunError Tape) :
    (m.edited (do return (m.withTape (← result)).idle)).2 = m ∨
      ∃ tape, (m.edited (do return (m.withTape (← result)).idle)).2 = m.setTape tape := by
  cases result with
  | error e => exact Or.inl rfl
  | ok tape => exact Or.inr ⟨tape, rfl⟩

/-- What an operation does that neither steps nor runs: nothing where it is refused; or it places the machine in another
    configuration, perhaps from the start; or it sets the limit of the trace. -/
theorem perform_cases (m : Machine) (op : Operation) :
    op.runs ∨ (m.perform op).2 = m ∨
      (∃ c : Configuration, (c.state = m.state ∨ c.state ∈ m.table.states) ∧
        (m.perform op).2 = { m with configuration := c, status := .idle }) ∨
      (∃ c : Configuration, c.state ∈ m.table.states ∧
        (m.perform op).2 = { m with configuration := c, status := .idle, stepCount := 0, history := [] }) ∨
      ∃ limit, (m.perform op).2 = m.setTraceLimit limit := by
  have htape : ∀ tape, ∃ c : Configuration, (c.state = m.state ∨ c.state ∈ m.table.states) ∧
      m.setTape tape = { m with configuration := c, status := .idle } := fun tape =>
    ⟨⟨m.state, tape⟩, Or.inl rfl, rfl⟩
  cases op with
  | step | run | paced => exact Or.inl rfl
  | reset =>
    unfold perform reset
    cases hstart : m.table.start with
    | error e => exact Or.inr (Or.inl rfl)
    | ok s => exact Or.inr (Or.inr (Or.inr (Or.inl ⟨⟨s, _⟩, mem_states_of_start hstart, rfl⟩)))
  | setTape tape => exact Or.inr (Or.inr (Or.inl (htape tape)))
  | setSymbol index symbol =>
    rcases m.edited_withTape (m.tape.setSymbol index symbol) with hm | ⟨tape, hm⟩
    · exact Or.inr (Or.inl hm)
    · obtain ⟨c, hc, hset⟩ := htape tape
      exact Or.inr (Or.inr (Or.inl ⟨c, hc, hm.trans hset⟩))
  | setHead index =>
    rcases m.edited_withTape (m.tape.setHead index) with hm | ⟨tape, hm⟩
    · exact Or.inr (Or.inl hm)
    · obtain ⟨c, hc, hset⟩ := htape tape
      exact Or.inr (Or.inr (Or.inl ⟨c, hc, hm.trans hset⟩))
  | setState id =>
    have hset : (m.perform (.setState id)).2 = (m.edited (m.setState id)).2 := rfl
    rw [hset]
    unfold setState stateNamed
    cases hs : m.table.state? id with
    | none => exact Or.inr (Or.inl rfl)
    | some s => exact Or.inr (Or.inr (Or.inl ⟨⟨s, m.tape⟩, Or.inr (Table.state?_eq_some hs).1, rfl⟩))
  | setTraceLimit limit => exact Or.inr (Or.inr (Or.inr (Or.inr ⟨limit, rfl⟩)))

/-- What every operation keeps: it is enough to look at setting up, at a step and at the edits. -/
structure Lasting (t : Table) (P : Machine → Prop) : Prop where
  set : ∀ tape, ∀ s ∈ t.states, ∀ count, P { inState t tape s with stepCount := count }
  step : ∀ m, P m → P m.step.2
  edit : ∀ m c, P m → (c.state = m.state ∨ c.state ∈ m.table.states) →
    P { m with configuration := c, status := .idle }
  reset : ∀ m c, P m → c.state ∈ m.table.states →
    P { m with configuration := c, status := .idle, stepCount := 0, history := [] }
  setTraceLimit : ∀ m limit, P m → P (m.setTraceLimit limit)

theorem Lasting.perform {P : Machine → Prop} (h : Lasting t P) (hm : P m) (op : Operation) : P (m.perform op).2 := by
  rcases perform_cases m op with hop | hm' | ⟨c, hc, hm'⟩ | ⟨c, hc, hm'⟩ | ⟨limit, hm'⟩
  · exact perform_keeps h.step hop hm
  · exact hm'.symm ▸ hm
  · exact hm'.symm ▸ h.edit m c hm hc
  · exact hm'.symm ▸ h.reset m c hm hc
  · exact hm'.symm ▸ h.setTraceLimit m limit hm

theorem Lasting.after {P : Machine → Prop} (h : Lasting t P) (hm : P m) (ops : List Operation) : P (m.after ops) := by
  induction ops generalizing m with
  | nil => exact hm
  | cons op ops ih => exact ih (h.perform hm op)

theorem Reachable.of_lasting {P : Machine → Prop} (hm : Reachable t m) (h : Lasting t P) : P m := by
  induction hm with
  | fresh hfresh =>
    obtain ⟨s, hs, rfl⟩ := hfresh.exists_state
    exact h.set _ s hs 0
  | resumed hresume =>
    obtain ⟨tape, s, -, hs, rfl⟩ := resume_eq_ok_iff.mp hresume
    exact h.set tape s (Table.state?_eq_some hs).1 _
  | performed op _ ih => exact h.perform ih op

end Tapeworks.Machine
