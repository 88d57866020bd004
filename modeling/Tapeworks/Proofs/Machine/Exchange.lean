import Tapeworks.Proofs.Machine.Reachable
import Tapeworks.Proofs.Machine.Simulation

/-! Tables that can be exchanged. A machine looks into its table for its states, and for the rule of a state and a
    symbol, but never for the order of the rules of a state. So machines with tables that agree this far mirror each
    other even through the operations that place a state. -/

namespace Tapeworks

/-- The tables have the same states, and the same rule for every state and symbol. -/
structure Table.Agrees (t t' : Table) : Prop where
  states : t'.states = t.states
  rule : ∀ id c, t'.find? id c = t.find? id c

namespace Table

variable {t t' : Table}

theorem state?_eq_find? (t : Table) (id : String) : t.state? id = t.states.find? (·.id = id) := by
  rw [states, List.find?_map]
  rfl

namespace Agrees

theorem state? (h : t.Agrees t') (id : String) : t'.state? id = t.state? id := by
  rw [state?_eq_find?, state?_eq_find?, h.states]

theorem start (h : t.Agrees t') : t'.start = t.start := by
  unfold Table.start startStates
  rw [h.states]

theorem bisimulation (h : t.Agrees t') : Bisimulation Eq t t' where
  id s s' hs := congrArg State.id hs
  isFinal s s' hs := congrArg State.isFinal hs
  rules := by
    rintro s s' rfl c
    rw [h.rule]
    cases t.find? s.id c with
    | none => exact .none
    | some r => exact .some ⟨rfl, rfl, rfl⟩

end Agrees
end Table

namespace Machine

variable {t t' : Table} {tape : Tape} {m m' : Machine}

theorem lasting_table (t : Table) : Lasting t (·.table = t) where
  set _ _ _ _ := rfl
  step m hm := by
    rcases m.step_cases with ⟨halt, -, hs⟩ | ⟨-, halt, -, hs⟩ | ⟨-, c, -, hs⟩ <;> rw [hs] <;> exact hm
  edit _ _ hm _ := hm
  reset _ _ hm _ := hm
  setTraceLimit _ _ hm := hm

/-- The machines agree in all but their tables, and their tables agree on what machines look for. -/
structure Exchanged (t t' : Table) (m m' : Machine) : Prop where
  agrees : t.Agrees t'
  table : m.table = t
  table' : m'.table = t'
  mirrors : Mirrors Eq m m'

theorem exchanged_withTable (h : t.Agrees t') (m : Machine) :
    Exchanged t t' { m with table := t } { m with table := t' } :=
  ⟨h, rfl, rfl, ⟨h.bisimulation, ⟨rfl, rfl⟩, rfl, rfl, rfl, rfl⟩⟩

namespace Exchanged

/-- The machines mirror each other after an operation that places a state, which both look up alike. -/
theorem mirrors_placed (h : Exchanged t t' m m') {op : Operation} (hop : op.placesState) :
    (m.perform op).1 = (m'.perform op).1 ∧ Mirrors Eq (m.perform op).2 (m'.perform op).2 := by
  have hm := h.mirrors
  cases op with
  | reset =>
    unfold Machine.perform Machine.reset
    rw [h.table, h.table', h.agrees.start, hm.tape]
    cases t.start with
    | error e => exact ⟨rfl, hm⟩
    | ok s => exact ⟨rfl, h.agrees.bisimulation, ⟨rfl, rfl⟩, rfl, rfl, rfl, hm.traceLimit⟩
  | setState id =>
    have hstate : Option.Rel Eq (m.table.state? id) (m'.table.state? id) := by
      rw [h.table, h.table', h.agrees.state?]
      cases t.state? id with
      | none => exact .none
      | some s => exact .some rfl
    exact hm.setState hstate
  | _ => cases hop

theorem perform (h : Exchanged t t' m m') (op : Operation) :
    (m.perform op).1 = (m'.perform op).1 ∧ Exchanged t t' (m.perform op).2 (m'.perform op).2 := by
  have hboth : (m.perform op).1 = (m'.perform op).1 ∧ Mirrors Eq (m.perform op).2 (m'.perform op).2 := by
    by_cases hop : op.placesState
    · exact h.mirrors_placed hop
    · exact h.mirrors.perform hop
  obtain ⟨hreply, hnext⟩ := hboth
  exact ⟨hreply, h.agrees, (lasting_table t).perform h.table op, (lasting_table t').perform h.table' op, hnext⟩

theorem session (h : Exchanged t t' m m') (ops : List Operation) : m'.session ops = m.session ops := by
  induction ops generalizing m m' with
  | nil => rfl
  | cons op ops ih =>
    obtain ⟨hreply, hnext⟩ := h.perform op
    unfold Machine.session
    rw [hreply, hnext.mirrors.view, ih hnext]

end Exchanged

/-! ### Machines of both tables -/

/-- What is seen of a machine that is set up and then goes through the operations; the error if it cannot be set up. -/
def showing (ops : List Operation) (m : Except RunError Machine) : Except RunError (List (Reply × View)) :=
  m.map (·.session ops)

theorem showing_new (h : t.Agrees t') (tape : Tape) (ops : List Operation) :
    showing ops (Machine.new t' tape) = showing ops (Machine.new t tape) := by
  unfold Machine.new
  rw [h.start]
  cases t.start with
  | error e => rfl
  | ok s => exact congrArg Except.ok ((exchanged_withTable h (inState t tape s)).session ops)

theorem showing_startingAt (h : t.Agrees t') (tape : Tape) (id : String) (ops : List Operation) :
    showing ops (startingAt t' tape id) = showing ops (startingAt t tape id) := by
  unfold startingAt stateNamed
  rw [h.state?]
  cases t.state? id with
  | none => rfl
  | some s => exact congrArg Except.ok ((exchanged_withTable h (inState t tape s)).session ops)

theorem showing_resume (h : t.Agrees t') (snapshot : Snapshot) (ops : List Operation) :
    showing ops (resume t' snapshot) = showing ops (resume t snapshot) := by
  unfold resume startingAt stateNamed
  rw [h.state?]
  cases (Tape.ofCells snapshot.tape.toList).setHead snapshot.head with
  | error e => rfl
  | ok tape =>
    cases t.state? snapshot.state with
    | none => rfl
    | some s =>
      have hresumed := exchanged_withTable h { inState t tape s with stepCount := snapshot.step }
      exact congrArg Except.ok (hresumed.session ops)

end Machine
end Tapeworks
