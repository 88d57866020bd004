import Tapeworks.Proofs.Machine.InPlace

/-! Operations that fail. An edit of a machine is done as a whole or refused with nothing changed, also when the machine
    is kept in place and its parts are assigned one after another. A step that halts changes the status alone, and the
    halt stays until the machine is reset or edited. -/

namespace Tapeworks

/-- Done, the work leaves the parts of the edited machine; refused, it leaves every part as it was. -/
structure Work.AllOrNothing (work : Work Unit) (m : Machine) (edit : Except RunError Machine) : Prop where
  done : ∀ m', edit = .ok m' → work m.parts = .ok () m'.parts
  refused : ∀ e, edit = .error e → work m.parts = .error e m.parts

theorem Work.allOrNothing {work : Work Unit} {m : Machine} {edit : Except RunError Machine}
    (h : work m.parts = m.outcome edit) : work.AllOrNothing m edit where
  done m' hm' := by
    rw [h, hm']
    rfl
  refused e he := by
    rw [h, he]
    rfl

namespace Machine

variable {m n : Machine} {t : Table} {halt : Halt} {op : Operation} {ops : List Operation}

/-! ### Halts that stay -/

/-- The operations, one after another, step or run, set the limit of the trace, or are refused: none of them resets or
    edits the machine. -/
def Undisturbed : Machine → List Operation → Prop
  | _, [] => True
  | m, op :: ops => (op.runs ∨ op.limitsTrace ∨ ∃ e, (m.perform op).1 = .refused e) ∧
      Undisturbed (m.perform op).2 ops

theorem perform_of_refused {e : RunError} (h : (m.perform op).1 = .refused e) : (m.perform op).2 = m := by
  have hedited : ∀ result : Except RunError Machine, (m.edited result).1 = .refused e → (m.edited result).2 = m := by
    intro result hresult
    cases result with
    | error e' => rfl
    | ok m' => cases hresult
  cases op with
  | step | run | paced | setTape | setTraceLimit => cases h
  | reset => exact hedited _ h
  | setSymbol index symbol => exact hedited _ h
  | setHead index => exact hedited _ h
  | setState id => exact hedited _ h

theorem perform_of_runs (h : m.status = .halted halt) (hop : op.runs) : (m.perform op).2 = m := by
  refine perform_keeps (P := fun k => k = m) (fun k hk => ?_) hop rfl
  rw [hk, step_of_halted h]

/-- Nothing but a reset or an edit touches a halt, or what the machine halted in. -/
structure Preserves (m n : Machine) : Prop where
  table : n.table = m.table
  configuration : n.configuration = m.configuration
  status : n.status = m.status
  stepCount : n.stepCount = m.stepCount

theorem preserves_after (h : m.status = .halted halt) (hops : m.Undisturbed ops) : Preserves m (m.after ops) := by
  induction ops generalizing m with
  | nil => exact ⟨rfl, rfl, rfl, rfl⟩
  | cons op ops ih =>
    obtain ⟨hop, hrest⟩ := hops
    have hnext : Preserves m (m.perform op).2 := by
      rcases hop with hruns | hlimits | ⟨e, hrefused⟩
      · rw [perform_of_runs h hruns]
        exact ⟨rfl, rfl, rfl, rfl⟩
      · cases op with
        | setTraceLimit limit => exact ⟨rfl, rfl, rfl, rfl⟩
        | _ => cases hlimits
      · rw [perform_of_refused hrefused]
        exact ⟨rfl, rfl, rfl, rfl⟩
    have hafter := ih (hnext.status.trans h) hrest
    exact ⟨hafter.table.trans hnext.table, hafter.configuration.trans hnext.configuration,
      hafter.status.trans hnext.status, hafter.stepCount.trans hnext.stepCount⟩

theorem after_eq_self (h : m.status = .halted halt) (hops : m.Undisturbed ops)
    (hlimits : ∀ op ∈ ops, ¬op.limitsTrace) : m.after ops = m := by
  induction ops with
  | nil => rfl
  | cons op ops ih =>
    obtain ⟨hop, hrest⟩ := hops
    have hnext : (m.perform op).2 = m := by
      rcases hop with hruns | hlimit | ⟨e, hrefused⟩
      · exact perform_of_runs h hruns
      · exact absurd hlimit (hlimits op List.mem_cons_self)
      · exact perform_of_refused hrefused
    have hafter : m.after (op :: ops) = (m.perform op).2.after ops := rfl
    rw [hnext] at hrest
    rw [hafter, hnext]
    exact ih hrest fun op' hop' => hlimits op' (List.mem_cons_of_mem _ hop')

/-! ### Resets -/

theorem reset_eq_ok_iff : m.reset = .ok n ↔ ∃ s, m.table.start = .ok s ∧
    n = { m with configuration := ⟨s, .ofCells m.tape.cells⟩, status := .idle, stepCount := 0, history := [] } := by
  unfold reset
  cases m.table.start with
  | error e => exact ⟨nofun, fun ⟨_, h, _⟩ => nomatch h⟩
  | ok s => exact ⟨fun h => ⟨s, rfl, (Except.ok.inj h).symm⟩, fun ⟨_, h, hn⟩ => by cases h; rw [hn]; rfl⟩

theorem exists_start_iff : (∃ s, t.start = .ok s) ↔ ∃ s, t.startStates = [s] := by
  unfold Table.start
  split
  · rename_i s hs
    exact ⟨fun _ => ⟨s, hs⟩, fun _ => ⟨s, rfl⟩⟩
  · rename_i hnot
    exact ⟨nofun, fun ⟨s, hs⟩ => absurd hs (hnot s)⟩

/-! ### All of it -/

/-- What a halt of the step from `m` leaves, and for how long. -/
structure HaltsWhole (m : Machine) (halt : Halt) : Prop where
  status : m.step.2 = { m with status := .halted halt }
  inPlace : Work.step m.table m.parts = .ok (.halted halt) { m with status := .halted halt }.parts
  again : ∀ ops, m.step.2.Undisturbed ops → (m.step.2.after ops).step = (.halted halt, m.step.2.after ops)
  preserved : ∀ ops, m.step.2.Undisturbed ops → Preserves m.step.2 (m.step.2.after ops)
  unchanged : ∀ ops, m.step.2.Undisturbed ops → (∀ op ∈ ops, ¬op.limitsTrace) → m.step.2.after ops = m.step.2

/-- No operation that fails leaves the machine between what it was and what the operation would have made it. -/
structure Atomic (m : Machine) : Prop where
  setHead : ∀ index, (Work.setHead index).AllOrNothing m (m.setHead index)
  setSymbol : ∀ index symbol, (Work.setSymbol index symbol).AllOrNothing m (m.setSymbol index symbol)
  setState : ∀ id, (Work.setState m.table id).AllOrNothing m (m.setState id)
  reset : (Work.reset m.table).AllOrNothing m m.reset
  apply : ∀ write direction, (Work.apply write direction).AllOrNothing m
    (do return m.withTape (← m.tape.apply write direction))
  refused : ∀ op e, (m.perform op).1 = .refused e → (m.perform op).2 = m
  halted : ∀ halt, m.step.1 = .halted halt → m.HaltsWhole halt
  /-- A reset or an edit that is done takes the halt away. -/
  cleared : ∀ op, (m.perform op).1 = .done → ¬op.limitsTrace → (m.perform op).2.status = .idle
  resets : (∃ m', m.reset = .ok m') ↔ ∃ s, m.table.startStates = [s]
  kept : ∀ m', m.reset = .ok m' → m.table.start = .ok m'.state ∧ m'.tape.cells = m.tape.cells ∧ m'.tape.head = 0 ∧
    m'.traceLimit = m.traceLimit

theorem Recorded.haltsWhole (hm : m.Recorded) (h : m.step.1 = .halted halt) : m.HaltsWhole halt := by
  have hstep : m.step.2 = { m with status := .halted halt } := step_snd_of_halted (Prod.ext h rfl)
  have hstatus : m.step.2.status = .halted halt := by rw [hstep]
  refine ⟨hstep, ?_, fun ops hops => ?_, fun ops hops => ?_, fun ops hops hlimits => ?_⟩
  · rw [step_parts hm, h, hstep]
  · exact step_of_halted ((preserves_after hstatus hops).status.trans hstatus)
  · exact preserves_after hstatus hops
  · exact after_eq_self hstatus hops hlimits

theorem status_of_idle {α : Type} (result : Except RunError α) (f : α → Machine)
    (h : (do return (f (← result)).idle) = Except.ok n) : n.status = .idle := by
  cases result with
  | error e => cases h
  | ok a =>
    cases h
    rfl

theorem status_of_done (h : (m.perform op).1 = .done) (hlimits : ¬op.limitsTrace) :
    (m.perform op).2.status = .idle := by
  have hedited : ∀ result : Except RunError Machine, (∀ m', result = .ok m' → m'.status = .idle) →
      (m.edited result).1 = .done → (m.edited result).2.status = .idle := by
    intro result hidle hdone
    cases result with
    | error e => cases hdone
    | ok m' => exact hidle m' rfl
  cases op with
  | step | run | paced => cases h
  | setTape tape => rfl
  | setTraceLimit limit => exact absurd rfl hlimits
  | reset =>
    refine hedited _ (fun m' hm' => ?_) h
    obtain ⟨s, -, rfl⟩ := reset_eq_ok_iff.mp hm'
    rfl
  | setSymbol index symbol => exact hedited _ (fun _ => status_of_idle _ _) h
  | setHead index => exact hedited _ (fun _ => status_of_idle _ _) h
  | setState id => exact hedited _ (fun _ => status_of_idle _ _) h

/-- Failing operations are atomic on every machine that can arise. -/
theorem Reachable.atomic (h : Reachable t m) : m.Atomic := by
  have hrecorded := h.of_lasting (lasting_recorded t)
  exact {
    setHead := fun index => Work.allOrNothing (m.setHead_parts index)
    setSymbol := fun index symbol => Work.allOrNothing (m.setSymbol_parts index symbol)
    setState := fun id => Work.allOrNothing (m.setState_parts id)
    reset := Work.allOrNothing m.reset_parts
    apply := fun write direction => Work.allOrNothing (m.apply_parts write direction)
    refused := fun op e he => perform_of_refused he
    halted := fun halt hhalt => hrecorded.haltsWhole hhalt
    cleared := fun op hdone hlimits => status_of_done hdone hlimits
    resets := by
      rw [← exists_start_iff]
      simp [reset_eq_ok_iff]
    kept := fun m' hm' => by
      obtain ⟨s, hs, rfl⟩ := reset_eq_ok_iff.mp hm'
      exact ⟨hs, m.tape.cells_ofCells_cells, Tape.head_ofCells _, rfl⟩ }

/-- The walker with a trace of one snapshot, halted at the `b` that it cannot step back from, and refused another
    head. -/
theorem Reachable.atomic_walker : Atomic
    ((inState (compile walker).table ⟨[], 'b', ['a', '_']⟩ { id := "1", isStart := true }).after
      [.setTraceLimit (some 1), .run 9, .setHead 3]) :=
  Reachable.atomic (t := (compile walker).table) (.performed _ (.performed _ (.performed _ (.fresh (.new rfl)))))

end Machine
end Tapeworks
