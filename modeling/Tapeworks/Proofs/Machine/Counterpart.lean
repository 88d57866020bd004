import Tapeworks.Proofs.Machine.Exchange

/-! Machines in states of one id. Tables with related states under every id have machines that cannot be told apart when
    they are put in the states of one id, neither by what they do there nor after they are put in the states of another.
    Only a reset tells them apart: it goes to the start state, and that may have another id in the other table. -/

namespace Tapeworks

variable {R : State → State → Prop}

/-- What a run looks at in a state. -/
structure State.Resembles (s s' : State) : Prop where
  id : s.id = s'.id
  isFinal : s.isFinal = s'.isFinal

/-- The tables are related, and have related states under every id. -/
structure Table.Corresponds (R : State → State → Prop) (t t' : Table) : Prop where
  bisimulation : Bisimulation R t t'
  state? : ∀ id, Option.Rel R (t.state? id) (t'.state? id)

namespace Machine

variable {t t' : Table} {m m' : Machine} {ops : List Operation}

/-- The machines mirror each other, and their tables have related states under every id. -/
structure Counterparts (R : State → State → Prop) (m m' : Machine) : Prop where
  mirrors : Mirrors R m m'
  state? : ∀ id, Option.Rel R (m.table.state? id) (m'.table.state? id)

namespace Counterparts

theorem perform (h : Counterparts R m m') {op : Operation} (hop : op ≠ .reset) :
    (m.perform op).1 = (m'.perform op).1 ∧ Counterparts R (m.perform op).2 (m'.perform op).2 := by
  have hboth : (m.perform op).1 = (m'.perform op).1 ∧ Mirrors R (m.perform op).2 (m'.perform op).2 := by
    -- Setting the state is the only step here that looks up an id.
    by_cases hplaces : op.placesState
    · cases op with
      | reset => exact absurd rfl hop
      | setState id => exact h.mirrors.setState (h.state? id)
      | _ => cases hplaces
    · exact h.mirrors.perform hplaces
  have htable : ∀ n : Machine, (n.perform op).2.table = n.table := fun n => (lasting_table n.table).perform rfl op
  refine ⟨hboth.1, hboth.2, fun id => ?_⟩
  rw [htable, htable]
  exact h.state? id

theorem session (h : Counterparts R m m') (hops : .reset ∉ ops) : m'.session ops = m.session ops := by
  induction ops generalizing m m' with
  | nil => rfl
  | cons op ops ih =>
    have hfirst : op ≠ .reset := fun hop => hops (hop ▸ List.mem_cons_self)
    have hrest : .reset ∉ ops := fun hmem => hops (List.mem_cons_of_mem op hmem)
    obtain ⟨hreply, hnext⟩ := h.perform hfirst
    unfold Machine.session
    rw [hreply, hnext.mirrors.view, ih hnext hrest]

end Counterparts

/-! ### Setting up -/

theorem counterparts_inState (h : t.Corresponds R t') {s s' : State} (hs : R s s') (tape : Tape) (count : Nat) :
    Counterparts R { inState t tape s with stepCount := count } { inState t' tape s' with stepCount := count } :=
  ⟨⟨h.bisimulation, ⟨hs, rfl⟩, rfl, rfl, rfl, rfl⟩, h.state?⟩

theorem showing_startingAt_counterpart (h : t.Corresponds R t') (tape : Tape) (id : String) (hops : .reset ∉ ops) :
    showing ops (startingAt t' tape id) = showing ops (startingAt t tape id) := by
  unfold startingAt stateNamed
  rcases option_rel_cases (h.state? id) with ⟨hs, hs'⟩ | ⟨s, s', hs, hs', hrel⟩
  · rw [hs, hs']
    rfl
  · rw [hs, hs']
    exact congrArg Except.ok ((counterparts_inState h hrel tape 0).session hops)

theorem showing_resume_counterpart (h : t.Corresponds R t') (snapshot : Snapshot) (hops : .reset ∉ ops) :
    showing ops (resume t' snapshot) = showing ops (resume t snapshot) := by
  unfold resume startingAt stateNamed
  cases (Tape.ofCells snapshot.tape.toList).setHead snapshot.head with
  | error e => rfl
  | ok tape =>
    rcases option_rel_cases (h.state? snapshot.state) with ⟨hs, hs'⟩ | ⟨s, s', hs, hs', hrel⟩
    · rw [hs, hs']
      rfl
    · rw [hs, hs']
      exact congrArg Except.ok ((counterparts_inState h hrel tape snapshot.step).session hops)

end Machine
end Tapeworks
