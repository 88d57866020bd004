import Tapeworks.Proofs.Analysis
import Tapeworks.Proofs.Machine.Coherent

/-! What the checks of a table say of its machines. A machine that starts in the start state and is never put in a state
    from outside only enters states that a path of rules leads to, however it is run and whatever is done to its tape;
    so it never enters a state that was found unreachable, and it never accepts where no final state can be reached. -/

namespace Tapeworks.Machine

variable {t : Table} {tape : Tape} {start : State} {m : Machine} {op : Operation} {ops : List Operation}

/-! ### Halts in replies -/

/-- The halt that an operation comes to, if it comes to one. -/
def Reply.halt? : Reply → Option Halt
  | .stepped (.halted halt) => some halt
  | .ran halt => some halt
  | .paced halt _ => halt
  | _ => none

theorem halt?_edited (m : Machine) (result : Except RunError Machine) : (m.edited result).1.halt? = none := by
  cases result <;> rfl

/-- What a reply calls accepted has come to the end of the moves. -/
theorem exists_ends_of_accepted (h : (m.perform op).1.halt? = some .accepted) :
    ∃ seen, Ends m seen .accepted (m.perform op).2 := by
  cases op with
  | step =>
    unfold perform at h ⊢
    rcases halts_or_moves m with ⟨halt, n, hs⟩ | ⟨n, hs⟩
    · rw [hs] at h ⊢
      cases h
      exact ⟨[], m, .refl m, hs⟩
    · rw [hs] at h
      cases h
  | run limit =>
    have hhalt : (m.run limit).1 = .accepted := Option.some.inj h
    exact exists_ends_of_runWithin (Prod.ext hhalt rfl) nofun
  | paced turns =>
    have hhalt : (m.paced turns).halt = some .accepted := h
    rcases paced_cases m turns with ⟨seen, n, -, -, hpaced⟩ | ⟨seen, halt, n, hends, -, hpaced⟩
    · rw [hpaced] at hhalt
      cases hhalt
    · rw [hpaced] at hhalt
      cases hhalt
      have hmachine : (m.perform (.paced turns)).2 = n := congrArg Paced.machine hpaced
      exact ⟨seen, hmachine ▸ hends⟩
  | setTape | setTraceLimit => cases h
  | reset => cases (halt?_edited m m.reset).symm.trans h
  | setSymbol index symbol => cases (halt?_edited m (m.setSymbol index symbol)).symm.trans h
  | setHead index => cases (halt?_edited m (m.setHead index)).symm.trans h
  | setState id => cases (halt?_edited m (m.setState id)).symm.trans h

/-- A settled machine accepts in final states only. -/
theorem Settled.isFinal_of_accepted (hm : m.Settled) (h : (m.perform op).1.halt? = some .accepted) :
    (m.perform op).2.state.isFinal := by
  obtain ⟨seen, n, hmoves, hstep⟩ := exists_ends_of_accepted h
  have hn : n.Settled := hmoves.keeps (fun _ hk => hk.step) hm
  have hhalts : n.table.Halts n.configuration .accepted :=
    Table.move_eq_error_iff.mp (hn.step_eq_halted_iff.mp (congrArg Prod.fst hstep))
  rw [step_snd_of_halted hstep]
  cases hhalts with
  | accepted hfinal => exact hfinal

/-! ### Machines that stay on paths -/

/-- The machine stands in a state that a path from the start leads to, and so it does in its record. -/
structure OnPaths (t : Table) (start : State) (m : Machine) : Prop extends Placed t m where
  reaches : t.Reaches start.id m.state.id
  recorded : ∀ s ∈ m.history, t.Reaches start.id s.state

theorem onPaths_inState (hstart : t.start = .ok start) (tape : Tape) : OnPaths t start (inState t tape start) where
  table := rfl
  state := mem_states_of_start hstart
  reaches := .refl
  recorded := nofun

namespace OnPaths

theorem setTape (h : OnPaths t start m) (tape : Tape) : OnPaths t start (m.setTape tape) :=
  ⟨⟨h.table, h.state⟩, h.reaches, h.recorded⟩

theorem withStatus (h : OnPaths t start m) (status : Status) : OnPaths t start { m with status } :=
  ⟨⟨h.table, h.state⟩, h.reaches, h.recorded⟩

theorem setTraceLimit (h : OnPaths t start m) (limit : Option Nat) : OnPaths t start (m.setTraceLimit limit) := by
  have hkept : (m.setTraceLimit limit).history <+: m.history := kept_prefix limit m.history
  exact ⟨⟨h.table, h.state⟩, h.reaches, fun s hs => h.recorded s (hkept.subset hs)⟩

theorem reset (hstart : t.start = .ok start) (h : OnPaths t start m) : OnPaths t start (m.edited m.reset).2 := by
  have hm : m.table.start = .ok start := h.table ▸ hstart
  unfold Machine.reset
  rw [hm]
  exact ⟨⟨h.table, mem_states_of_start hstart⟩, .refl, nofun⟩

theorem step (ht : t.Closed) (h : OnPaths t start m) : OnPaths t start m.step.2 := by
  rcases m.step_cases with ⟨halt, -, hs⟩ | ⟨-, halt, -, hs⟩ | ⟨-, c, hmove, hs⟩
  · rw [hs]
    exact h
  · rw [hs]
    exact h.withStatus _
  · rw [hs]
    rw [h.table] at hmove
    obtain ⟨-, r, hfind, -, htarget⟩ := Table.move_eq_ok_iff.mp hmove
    have hreaches : t.Reaches start.id c.state.id := by
      rw [htarget]
      exact h.reaches.rule (List.mem_of_find?_eq_some hfind)
    have hkept : (m.moveTo c).history <+: (m.moveTo c).snapshot :: m.history := kept_prefix _ _
    refine ⟨⟨h.table, ht.move hmove⟩, hreaches, fun s hs => ?_⟩
    rcases List.mem_cons.mp (hkept.subset hs) with rfl | hold
    · exact hreaches
    · exact h.recorded s hold

theorem perform (ht : t.Closed) (hstart : t.start = .ok start) (h : OnPaths t start m) (hop : ¬op.setsState) :
    OnPaths t start (m.perform op).2 := by
  cases op with
  | step | run | paced => exact perform_keeps (fun n hn => hn.step ht) rfl h
  | reset => exact h.reset hstart
  | setTape tape => exact h.setTape tape
  | setSymbol index symbol =>
    rcases m.edited_withTape (m.tape.setSymbol index symbol) with hm | ⟨tape, hm⟩
    · exact (congrArg (OnPaths t start) hm).mpr h
    · exact (congrArg (OnPaths t start) hm).mpr (h.setTape tape)
  | setHead index =>
    rcases m.edited_withTape (m.tape.setHead index) with hm | ⟨tape, hm⟩
    · exact (congrArg (OnPaths t start) hm).mpr h
    · exact (congrArg (OnPaths t start) hm).mpr (h.setTape tape)
  | setState id => exact absurd rfl hop
  | setTraceLimit limit => exact h.setTraceLimit limit

theorem after (ht : t.Closed) (hstart : t.start = .ok start) (h : OnPaths t start m)
    (hops : ∀ op ∈ ops, ¬op.setsState) : OnPaths t start (m.after ops) := by
  induction ops generalizing m with
  | nil => exact h
  | cons op ops ih =>
    have hnext : OnPaths t start (m.perform op).2 := h.perform ht hstart (hops op List.mem_cons_self)
    exact ih hnext fun op' hop' => hops op' (List.mem_cons_of_mem _ hop')

end OnPaths

/-! ### Problems and runs -/

/-- What the problems of a table say of the machines that start in its start state on a tape, when they are stepped, run
    in either way, reset and given other tapes, symbols and heads, but not put in a state from outside. -/
structure Foretold (t : Table) (tape : Tape) : Prop where
  /-- A state that is reported as unreachable is not entered, and is in no record. -/
  unreachable : ∀ ids, .unreachableStates ids ∈ t.problems → ∃ m, new t tape = .ok m ∧
    ∀ ops : List Operation, (∀ op ∈ ops, ¬op.setsState) →
      (m.after ops).state.id ∉ ids ∧ ∀ s ∈ (m.after ops).trace, s.state ∉ ids
  /-- Without a final state, or without a path to one, no reply says that the machine accepts. -/
  accepting : .noFinalState ∈ t.problems ∨ .finalUnreachable ∈ t.problems →
    ∀ m, new t tape = .ok m → ∀ ops : List Operation, (∀ op ∈ ops, ¬op.setsState) → ∀ op : Operation, ¬op.setsState →
      ((m.after ops).perform op).1.halt? ≠ some .accepted
  start : ∀ n, .startState n ∈ t.problems ↔ new t tape = .error (.noUniqueStart n)
  clean : t.problems = [] → ∃ m start final, new t tape = .ok m ∧ t.start = .ok start ∧ m.state = start ∧
    final ∈ t.states ∧ final.isFinal ∧ t.Reaches start.id final.id

/-- A machine that accepts after paths from the start has got to a final state of the table. -/
theorem OnPaths.exists_final (ht : t.Closed) (hstart : t.start = .ok start) (h : OnPaths t start m)
    (hm : m.Settled) (hop : ¬op.setsState) (haccepted : (m.perform op).1.halt? = some .accepted) :
    ∃ final ∈ t.states, final.isFinal ∧ t.Reaches start.id final.id := by
  have hnext : OnPaths t start (m.perform op).2 := h.perform ht hstart hop
  exact ⟨_, hnext.state, hm.isFinal_of_accepted haccepted, hnext.reaches⟩

theorem foretold_compile (d : Diagram) (tape : Tape) : Foretold (compile d).table tape := by
  have ht := ascending_compile d
  have hclosed := Table.closed_compile d
  refine ⟨?_, ?_, ?_, ?_⟩
  · intro ids hids
    obtain ⟨start, hstart, -, -⟩ := (Table.mem_problems_iff ht _).mp hids
    have hnot : ∀ id, (compile d).table.Reaches start.id id → id ∉ ids := fun id hreaches hid =>
      ((Table.mem_unreachableStates_iff ht hids hstart).mp hid).2 hreaches
    refine ⟨_, new_of_start hstart tape, fun ops hops => ?_⟩
    have hm := (onPaths_inState hstart tape).after hclosed hstart hops
    exact ⟨hnot _ hm.reaches, fun s hs => hnot _ (hm.recorded s (List.mem_reverse.mp hs))⟩
  · intro hproblem m hnew ops hops op hop haccepted
    obtain ⟨start, hstart, rfl⟩ := new_eq_ok_iff.mp hnew
    have hm := (onPaths_inState hstart tape).after hclosed hstart hops
    have hsettled : ((inState (compile d).table tape start).after ops).Settled :=
      (lasting_settled (compile d).table).after (settled_of_idle rfl) ops
    obtain ⟨final, hfinal, hf, hreaches⟩ := hm.exists_final hclosed hstart hsettled hop haccepted
    rcases hproblem with hnone | hmissed
    · exact (Table.mem_problems_iff ht _).mp hnone final hfinal hf
    · obtain ⟨start', hstart', -, hno⟩ := (Table.mem_problems_iff ht _).mp hmissed
      cases hstart.symm.trans hstart'
      exact hno final hfinal hf hreaches
  · intro n
    exact (Table.mem_problems_iff ht _).trans new_eq_error_iff.symm
  · intro hnil
    obtain ⟨start, hstart, hall, final, hfinal, hf⟩ := (Table.problems_eq_nil_iff ht).mp hnil
    exact ⟨_, start, final, new_of_start hstart tape, hstart, rfl, hfinal, hf, hall final hfinal⟩

/-- The only rule leads from the final state back to the start. -/
example : (compile ⟨[{ id := "1", isStart := true }, { id := "2", isFinal := true }],
    [Edge.between "2" "1" "_,>"]⟩).table.problems = [.unreachableStates ["2"], .finalUnreachable] := by cbv

end Tapeworks.Machine
