import Tapeworks.Proofs.Machine.Coherent

/-! Machines in place. The parts of a machine can be kept apart and assigned one after another; work that is refused
    half-way then leaves behind what it has assigned so far. For a machine that can arise such work comes to what the
    operation on the whole machine comes to, and where it is refused all parts are as they were: what can be refused is
    checked before the first assignment, and what is assigned before a check cannot be refused any more. -/

namespace Tapeworks

/-! ### Parts -/

/-- The parts of a machine besides its table. Nothing keeps the head on one of the cells. -/
structure Parts where
  state : State
  cells : List Char
  head : Nat
  status : Status
  stepCount : Nat
  /-- The snapshots that are kept, in the order of the steps. -/
  trace : List Snapshot
  traceLimit : Option Nat

namespace Parts

/-- The symbol under the head. -/
def symbol (p : Parts) : Char :=
  p.cells.getD p.head blank

def snapshot (p : Parts) : Snapshot :=
  ⟨p.stepCount, p.state.id, String.ofList p.cells, p.head⟩

end Parts

def Machine.parts (m : Machine) : Parts :=
  ⟨m.state, m.tape.cells, m.tape.head, m.status, m.stepCount, m.trace, m.traceLimit⟩

/-- Work on parts. When an error is raised they stay as they are at this point. -/
abbrev Work (α : Type) := EStateM RunError Parts α

/-- What work comes to that does to the parts of `m` what an edit does to `m`. -/
def Machine.outcome (m : Machine) : Except RunError Machine → EStateM.Result RunError Parts Unit
  | .ok m' => .ok () m'.parts
  | .error e => .error e m.parts

namespace Work

/-! ### Work on the tape -/

def check (index : Nat) : Work Unit := do
  let p ← get
  unless index < p.cells.length do
    throw (.tapeOverflow p.cells.length)

def placeHead (index : Nat) : Work Unit := do
  check index
  modify fun p => { p with head := index }

def overwrite (index : Nat) (symbol : Char) : Work Unit := do
  check index
  modify fun p => { p with cells := p.cells.set index symbol }

/-- Where the head goes from a place, as long as this is not before the first cell. -/
def neighbour : Direction → Nat → Except RunError Nat
  | .left, 0 => .error .tapeUnderflow
  | .left, index + 1 => .ok index
  | .right, index => .ok (index + 1)

/-- The move is checked before anything is written. -/
def apply (write : Option Char) (direction : Direction) : Work Unit := do
  let p ← get
  let next ← MonadExcept.ofExcept (neighbour direction p.head)
  check next
  modify fun p => match write with
    | some symbol => { p with cells := p.cells.set p.head symbol }
    | none => p
  modify fun p => { p with head := next }

/-! ### Steps -/

def halt (halt : Halt) : Work Step := do
  modify fun p => { p with status := .halted halt }
  return .halted halt

/-- The trace with a further snapshot. A full trace loses its oldest. -/
def extended (limit : Option Nat) (trace : List Snapshot) (snapshot : Snapshot) : List Snapshot :=
  match limit with
  | some 0 => trace
  | some (n + 1) => if n + 1 ≤ trace.length then trace.tail ++ [snapshot] else trace ++ [snapshot]
  | none => trace ++ [snapshot]

def enter (target : State) : Work Step := do
  modify fun p => { p with state := target }
  modify fun p => { p with stepCount := p.stepCount + 1 }
  modify fun p => { p with status := .running }
  modify fun p => { p with trace := extended p.traceLimit p.trace p.snapshot }
  return .moved

/-- What a step does to a machine that has not halted. -/
def advance (t : Table) : Work Step := do
  let p ← get
  if p.state.isFinal then halt .accepted
  else match t.find? p.state.id p.symbol with
    | none => halt (.failed (.noMatchingRule p.state.id p.symbol))
    | some rule =>
      tryCatch (do apply rule.write rule.direction; enter rule.target) fun e => halt (.failed e)

def step (t : Table) : Work Step := do
  let p ← get
  match p.status with
  | .halted halt => return .halted halt
  | _ => advance t

/-! ### Edits -/

def rewind : Work Unit :=
  modify fun p => { p with status := .idle }

/-- The state is assigned before the head is placed, which is refused when there is no cell. -/
def reset (t : Table) : Work Unit := do
  let start ← MonadExcept.ofExcept t.start
  modify fun p => { p with state := start }
  placeHead 0
  rewind
  modify fun p => { p with trace := [] }
  modify fun p => { p with stepCount := 0 }

def setSymbol (index : Nat) (symbol : Char) : Work Unit := do
  overwrite index symbol
  rewind

def setHead (index : Nat) : Work Unit := do
  placeHead index
  rewind

def setState (t : Table) (id : String) : Work Unit := do
  let state ← MonadExcept.ofExcept (Machine.stateNamed t id)
  modify fun p => { p with state }
  rewind

/-! ### Work in turn -/

variable {α β : Type} {x : Work α} {f : α → Work β} {p p' : Parts} {a : α} {e : RunError} {i : Nat}

theorem bind_of_ok (h : x p = .ok a p') : (x >>= f) p = f a p' := by
  simp [bind, EStateM.bind, h]

theorem bind_of_error (h : x p = .error e p') : (x >>= f) p = .error e p' := by
  simp [bind, EStateM.bind, h]

theorem tryCatch_of_ok {handle : RunError → Work α} (h : x p = .ok a p') : tryCatch x handle p = .ok a p' := by
  simp [tryCatch, tryCatchThe, MonadExceptOf.tryCatch, EStateM.tryCatch, h]

theorem tryCatch_of_error {handle : RunError → Work α} (h : x p = .error e p') :
    tryCatch x handle p = handle e p' := by
  simp [tryCatch, tryCatchThe, MonadExceptOf.tryCatch, EStateM.tryCatch, h, EStateM.Backtrackable.restore,
    EStateM.dummyRestore]

theorem get_eq (p : Parts) : (get : Work Parts) p = .ok p p := rfl

theorem ofExcept_eq (result : Except RunError α) (p : Parts) : (MonadExcept.ofExcept result : Work α) p =
    match result with
    | .ok a => .ok a p
    | .error e => .error e p := by
  cases result <;> rfl

theorem check_of_lt (h : i < p.cells.length) : check i p = .ok () p := by
  rw [check, bind_of_ok (get_eq p), if_pos h]
  rfl

theorem check_of_le (h : p.cells.length ≤ i) : check i p = .error (.tapeOverflow p.cells.length) p := by
  rw [check, bind_of_ok (get_eq p), if_neg (Nat.not_lt.mpr h)]
  rfl

theorem placeHead_of_lt (h : i < p.cells.length) : placeHead i p = .ok () { p with head := i } :=
  bind_of_ok (check_of_lt h)

theorem placeHead_of_le (h : p.cells.length ≤ i) : placeHead i p = .error (.tapeOverflow p.cells.length) p :=
  bind_of_error (check_of_le h)

theorem overwrite_of_lt (h : i < p.cells.length) (c : Char) :
    overwrite i c p = .ok () { p with cells := p.cells.set i c } :=
  bind_of_ok (check_of_lt h)

theorem overwrite_of_le (h : p.cells.length ≤ i) (c : Char) :
    overwrite i c p = .error (.tapeOverflow p.cells.length) p :=
  bind_of_error (check_of_le h)

variable {t : Table}

theorem advance_of_final (h : p.state.isFinal) :
    advance t p = .ok (.halted .accepted) { p with status := .halted .accepted } := by
  rw [advance, bind_of_ok (get_eq p), if_pos h]
  rfl

theorem advance_of_none (h : ¬p.state.isFinal) (hfind : t.find? p.state.id p.symbol = none) :
    advance t p = .ok (.halted (.failed (.noMatchingRule p.state.id p.symbol)))
      { p with status := .halted (.failed (.noMatchingRule p.state.id p.symbol)) } := by
  rw [advance, bind_of_ok (get_eq p), if_neg h, hfind]
  rfl

theorem advance_of_some {rule : Transition} (h : ¬p.state.isFinal) (hfind : t.find? p.state.id p.symbol = some rule) :
    advance t p =
      tryCatch (do apply rule.write rule.direction; enter rule.target) (fun e => halt (.failed e)) p := by
  rw [advance, bind_of_ok (get_eq p), if_neg h, hfind]

theorem step_of_halted {halt : Halt} (h : p.status = .halted halt) : step t p = .ok (.halted halt) p := by
  rw [step, bind_of_ok (get_eq p), h]
  rfl

theorem step_of_running (h : ∀ halt, p.status ≠ .halted halt) : step t p = advance t p := by
  rw [step, bind_of_ok (get_eq p)]
  cases hstatus : p.status with
  | halted halt => exact absurd hstatus (h halt)
  | idle | running => rfl

end Work

/-! ### Whole machines and their parts -/

namespace Machine

variable {m : Machine} {tape : Tape}

theorem symbol_parts (m : Machine) : m.parts.symbol = m.tape.current := by
  have hsymbol : m.tape.cells.getD m.tape.head blank = m.tape.current := by
    rw [List.getD_eq_getElem?_getD, m.tape.getElem?_head, Option.getD_some]
  exact hsymbol

theorem parts_withTape (m : Machine) (tape : Tape) :
    (m.withTape tape).parts = { m.parts with cells := tape.cells, head := tape.head } :=
  rfl

theorem setHead_parts (m : Machine) (i : Nat) : Work.setHead i m.parts = m.outcome (m.setHead i) := by
  unfold Machine.setHead
  by_cases hi : i < m.tape.cells.length
  · obtain ⟨tape, hset, hcells, hhead⟩ := Tape.setHead_of_lt hi
    have hplace : Work.placeHead i m.parts = .ok () (m.withTape tape).parts := by
      rw [Work.placeHead_of_lt hi, parts_withTape, hcells, hhead]
      rfl
    rw [hset]
    exact Work.bind_of_ok hplace
  · have hle := Nat.not_lt.mp hi
    rw [Tape.setHead_of_le hle]
    exact Work.bind_of_error (Work.placeHead_of_le hle)

theorem setSymbol_parts (m : Machine) (i : Nat) (c : Char) :
    Work.setSymbol i c m.parts = m.outcome (m.setSymbol i c) := by
  unfold Machine.setSymbol
  by_cases hi : i < m.tape.cells.length
  · obtain ⟨tape, hset, hcells, hhead⟩ := Tape.setSymbol_of_lt hi c
    have hwrite : Work.overwrite i c m.parts = .ok () (m.withTape tape).parts := by
      rw [Work.overwrite_of_lt hi, parts_withTape, hcells, hhead]
      rfl
    rw [hset]
    exact Work.bind_of_ok hwrite
  · have hle := Nat.not_lt.mp hi
    rw [Tape.setSymbol_of_le hle]
    exact Work.bind_of_error (Work.overwrite_of_le hle c)

theorem setState_parts (m : Machine) (id : String) :
    Work.setState m.table id m.parts = m.outcome (m.setState id) := by
  unfold Machine.setState Work.setState
  cases stateNamed m.table id with
  | error e => rfl
  | ok s => rfl

/-- After the state has been assigned, the head can still be placed on the first cell, since every tape has one. -/
theorem reset_parts (m : Machine) : Work.reset m.table m.parts = m.outcome m.reset := by
  unfold Machine.reset Work.reset
  cases m.table.start with
  | error e => rfl
  | ok start =>
    have hplace : Work.placeHead 0 { m.parts with state := start } =
        .ok () { m.parts with state := start, head := 0 } :=
      Work.placeHead_of_lt (Nat.zero_lt_of_lt m.tape.head_lt)
    refine (Work.bind_of_ok hplace).trans (congrArg (EStateM.Result.ok ()) ((Parts.mk.injEq ..).mpr ?_))
    exact ⟨rfl, m.tape.cells_ofCells_cells.symm, (Tape.head_ofCells _).symm, rfl, rfl, rfl, rfl⟩

/-- Without a cell the head has no place, and a refused reset leaves the state assigned. -/
example : Work.reset (compile walker).table ⟨{ id := "2", isFinal := true }, [], 0, .idle, 0, [], none⟩ =
    .error (.tapeOverflow 0) ⟨{ id := "1", isStart := true }, [], 0, .idle, 0, [], none⟩ := rfl

/-! ### Steps -/

theorem neighbour_eq_ok_iff {d : Direction} {i j : Nat} : Work.neighbour d i = .ok j ↔ d.Shifts i j := by
  cases d with
  | left => cases i <;> simp [Work.neighbour, Direction.Shifts, eq_comm]
  | right => simp [Work.neighbour, Direction.Shifts, eq_comm]

theorem apply_parts (m : Machine) (w : Option Char) (d : Direction) :
    Work.apply w d m.parts = m.outcome (do return m.withTape (← m.tape.apply w d)) := by
  rw [Work.apply, Work.bind_of_ok (Work.get_eq _)]
  cases happly : m.tape.apply w d with
  | error e =>
    rcases Tape.apply_eq_error_iff.mp happly with ⟨rfl, hfirst, rfl⟩ | ⟨rfl, hlast, rfl⟩
    · rw [show m.parts.head = 0 from hfirst, Work.neighbour]
      rfl
    · rw [Work.neighbour, Work.bind_of_ok (Work.ofExcept_eq _ _)]
      exact Work.bind_of_error (Work.check_of_le (Nat.le_of_eq hlast.symm))
  | ok tape =>
    obtain ⟨hcells, hshift⟩ := Tape.apply_spec happly
    have hinside : tape.head < m.parts.cells.length := by
      have hlength : tape.cells.length = m.tape.cells.length := by rw [hcells, List.length_set]
      exact hlength ▸ tape.head_lt
    rw [show Work.neighbour d m.parts.head = .ok tape.head from neighbour_eq_ok_iff.mpr hshift,
      Work.bind_of_ok (Work.ofExcept_eq _ _), Work.bind_of_ok (Work.check_of_lt hinside)]
    have hparts : (m.withTape tape).parts =
        { m.parts with cells := m.tape.cells.set m.tape.head (w.getD m.tape.current), head := tape.head } := by
      rw [parts_withTape, hcells]
    refine Eq.trans ?_ (congrArg (EStateM.Result.ok ()) hparts.symm)
    cases w with
    | none =>
      rw [Option.getD_none, Tape.set_head_current]
      rfl
    | some c => rfl

/-- A trace within its limit loses at most its oldest snapshot to a further one. -/
theorem extended_reverse {limit : Option Nat} {history : List Snapshot}
    (h : ∀ n, limit = some n → history.length ≤ n) (snapshot : Snapshot) :
    Work.extended limit history.reverse snapshot = (kept limit (snapshot :: history)).reverse := by
  cases limit with
  | none => simp [Work.extended, kept]
  | some n =>
    have hlength := h n rfl
    cases n with
    | zero => simp [Work.extended, kept, List.length_eq_zero_iff.mp (Nat.le_zero.mp hlength)]
    | succ n =>
      rw [Work.extended, kept, List.take_succ_cons, List.reverse_cons, List.length_reverse]
      split
      · rename_i hfull
        have hn : n = history.length - 1 := by omega
        rw [List.tail_reverse, List.dropLast_eq_take, ← hn]
      · rename_i hroom
        rw [List.take_of_length_le (by omega)]

theorem enter_parts (h : m.Recorded) (c : Configuration) :
    Work.enter c.state (m.withTape c.tape).parts = .ok .moved (m.moveTo c).parts := by
  have htrace := extended_reverse h.limit (m.moveTo c).snapshot
  refine congrArg (EStateM.Result.ok _) ((Parts.mk.injEq ..).mpr ?_)
  exact ⟨rfl, rfl, rfl, rfl, rfl, htrace, rfl⟩

/-- Where a machine moves or halts, so do its parts. -/
theorem advance_parts (h : m.Recorded) :
    Work.advance m.table m.parts = match m.table.move m.configuration with
      | .error halt => .ok (.halted halt) { m with status := .halted halt }.parts
      | .ok c => .ok .moved (m.moveTo c).parts := by
  by_cases hfinal : m.state.isFinal
  · have hmove : m.table.move m.configuration = .error .accepted := if_pos hfinal
    rw [hmove, Work.advance_of_final hfinal]
    rfl
  · cases hfind : m.table.find? m.state.id m.tape.current with
    | none =>
      have hmove : m.table.move m.configuration = .error (.failed (.noMatchingRule m.state.id m.tape.current)) :=
        Table.move_eq_error_iff.mpr (.noMatchingRule hfinal hfind)
      rw [hmove, Work.advance_of_none hfinal (m.symbol_parts.symm ▸ hfind), symbol_parts]
      rfl
    | some rule =>
      have happly := m.apply_parts rule.write rule.direction
      rw [Work.advance_of_some hfinal (m.symbol_parts.symm ▸ hfind)]
      cases htape : m.tape.apply rule.write rule.direction with
      | error e =>
        have hmove : m.table.move m.configuration = .error (.failed e) := Table.move_of_error hfinal hfind htape
        rw [htape] at happly
        rw [hmove]
        exact Work.tryCatch_of_error (Work.bind_of_error happly)
      | ok tape =>
        have hmove : m.table.move m.configuration = .ok ⟨rule.target, tape⟩ :=
          Table.move_eq_ok_iff.mpr ⟨hfinal, rule, hfind, htape, rfl⟩
        rw [htape] at happly
        rw [hmove]
        exact Work.tryCatch_of_ok ((Work.bind_of_ok happly).trans (enter_parts h ⟨rule.target, tape⟩))

theorem status_ne_of_isHalted (h : m.isHalted = false) (halt : Halt) : m.status ≠ .halted halt := by
  intro hstatus
  rw [isHalted, hstatus] at h
  cases h

theorem step_parts (h : m.Recorded) : Work.step m.table m.parts = .ok m.step.1 m.step.2.parts := by
  rcases m.step_cases with ⟨halt, hstatus, hs⟩ | ⟨hrunning, halt, hmove, hs⟩ | ⟨hrunning, c, hmove, hs⟩
  · rw [hs]
    exact Work.step_of_halted hstatus
  · rw [hs, Work.step_of_running (status_ne_of_isHalted hrunning), advance_parts h, hmove]
  · rw [hs, Work.step_of_running (status_ne_of_isHalted hrunning), advance_parts h, hmove]

end Machine
end Tapeworks
