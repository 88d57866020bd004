import Tapeworks.Proofs.Machine.Coherent

/-! Continuing from a snapshot. A machine that is resumed from a snapshot lacks the status and the trace of the one that
    the snapshot was taken of. Both are settled and in one configuration, so that steps and runs cannot tell them
    apart; only a run of no steps at all still sees that the one has halted. -/

namespace Tapeworks.Machine

variable {m m' : Machine} {d : Diagram}

/-- What the first `k` steps answer, each with what is shown after it. -/
def steps : Nat → Machine → List (Step × Snapshot)
  | 0, _ => []
  | k + 1, m => (m.step.1, m.step.2.snapshot) :: steps k m.step.2

/-- The machine `m'` goes on where `m` is, without its status and its trace. -/
structure Continues (m m' : Machine) : Prop where
  state : m'.state = m.state
  tape : m'.tape = m.tape
  stepCount : m'.stepCount = m.stepCount
  status : m'.status = .idle
  trace : m'.trace = []
  steps : ∀ k, steps k m' = steps k m
  reply : ∀ limit, 0 < limit → (m'.run limit).1 = (m.run limit).1
  left : ∀ limit, 0 < limit → (m'.run limit).2.state = (m.run limit).2.state ∧
    (m'.run limit).2.tape = (m.run limit).2.tape ∧ (m'.run limit).2.stepCount = (m.run limit).2.stepCount

/-! ### Machines alike -/

/-- Settled machines that agree on all but their statuses, traces and limits. -/
structure Alike (m m' : Machine) : Prop where
  table : m.table = m'.table
  configuration : m.configuration = m'.configuration
  stepCount : m.stepCount = m'.stepCount
  settled : m.Settled
  settled' : m'.Settled

/-- Both machines have halted, or neither has. -/
structure Abreast (m m' : Machine) : Prop extends Alike m m' where
  halted : m.isHalted = m'.isHalted

namespace Alike

theorem isFinal (h : Alike m m') : m.state.isFinal = m'.state.isFinal := by
  unfold Machine.state
  rw [h.configuration]

theorem snapshot (h : Alike m m') : m.snapshot = m'.snapshot := by
  unfold Machine.snapshot Machine.state Machine.tape
  rw [h.stepCount, h.configuration]

theorem withStatus (h : Alike m m') {halt : Halt} (hmove : m.table.move m.configuration = .error halt) :
    Abreast { m with status := .halted halt } { m' with status := .halted halt } where
  table := h.table
  configuration := h.configuration
  stepCount := h.stepCount
  settled halt' hhalted := by
    cases hhalted
    exact hmove
  settled' halt' hhalted := by
    cases hhalted
    rw [← h.table, ← h.configuration]
    exact hmove
  halted := rfl

theorem moveTo (h : Alike m m') (c : Configuration) : Abreast (m.moveTo c) (m'.moveTo c) where
  table := h.table
  configuration := rfl
  stepCount := congrArg (· + 1) h.stepCount
  settled := nofun
  settled' := nofun
  halted := rfl

/-- A step brings machines abreast that differ in no more than what they remember. -/
theorem step_cases (h : Alike m m') :
    (∃ halt n n', m.step = (.halted halt, n) ∧ m'.step = (.halted halt, n') ∧ Abreast n n') ∨
      ∃ n n', m.step = (.moved, n) ∧ m'.step = (.moved, n') ∧ Abreast n n' := by
  have hmoves : m'.table.move m'.configuration = m.table.move m.configuration := by
    rw [h.table, h.configuration]
  rcases h.settled.step_cases with ⟨halt, hmove, hs⟩ | ⟨-, c, hmove, hs⟩
  · exact Or.inl ⟨halt, _, _, hs, h.settled'.step_of_error (hmoves.trans hmove), h.withStatus hmove⟩
  · exact Or.inr ⟨_, _, hs, h.settled'.step_of_ok (hmoves.trans hmove), h.moveTo c⟩

theorem steps (h : Alike m m') (k : Nat) : steps k m = steps k m' := by
  induction k generalizing m m' with
  | zero => rfl
  | succ k ih =>
    unfold Machine.steps
    rcases h.step_cases with ⟨halt, n, n', hs, hs', hn⟩ | ⟨n, n', hs, hs', hn⟩
    · rw [hs, hs', hn.snapshot, ih hn.toAlike]
    · rw [hs, hs', hn.snapshot, ih hn.toAlike]

end Alike

theorem lockstep_abreast : Lockstep Abreast := fun _ _ h => h.step_cases

theorem Abreast.runWithin (h : Abreast m m') (limit budget : Nat) :
    (runWithin limit budget m).1 = (runWithin limit budget m').1 ∧
      Abreast (runWithin limit budget m).2 (runWithin limit budget m').2 :=
  lockstep_abreast.runWithin (fun _ _ h => by rw [h.halted, h.isFinal]) h limit budget

/-- A run of at least one step does not see what the machines remember. -/
theorem Alike.run (h : Alike m m') {limit : Nat} (hlimit : 0 < limit) :
    (m.run limit).1 = (m'.run limit).1 ∧ Abreast (m.run limit).2 (m'.run limit).2 := by
  obtain ⟨budget, rfl⟩ := Nat.exists_eq_add_one_of_ne_zero (Nat.ne_of_gt hlimit)
  unfold Machine.run
  rcases h.step_cases with ⟨halt, n, n', hs, hs', hn⟩ | ⟨n, n', hs, hs', hn⟩
  · rw [runWithin_of_halted hs, runWithin_of_halted hs']
    exact ⟨rfl, hn⟩
  · rw [runWithin_of_moved hs, runWithin_of_moved hs']
    exact hn.runWithin _ budget

/-! ### Resuming -/

/-- The machine that a snapshot of `m` brings back. -/
def restored (m : Machine) : Machine :=
  { inState m.table m.tape m.state with stepCount := m.stepCount }

/-- A snapshot holds the whole configuration, as long as the table has the state under its id. -/
theorem resume_snapshot (h : m.table.state? m.state.id = some m.state) :
    resume m.table m.snapshot = .ok m.restored := by
  refine resume_eq_ok_iff.mpr ⟨m.tape, m.state, ?_, h, rfl⟩
  rw [snapshot, Tape.text, String.toList_ofList]
  exact m.tape.setHead_ofCells_cells

theorem Settled.alike_restored (h : m.Settled) : Alike m.restored m :=
  ⟨rfl, rfl, rfl, settled_of_idle rfl, h⟩

/-- A machine that is resumed from a snapshot of another continues its run. -/
theorem exists_resume_snapshot (h : Reachable (compile d).table m) :
    ∃ m', resume m.table m.snapshot = .ok m' ∧ m.Continues m' := by
  have halike : Alike m.restored m := (h.of_lasting (lasting_settled _)).alike_restored
  refine ⟨m.restored, resume_snapshot h.coherent.state, ?_⟩
  exact {
    state := rfl
    tape := rfl
    stepCount := rfl
    status := rfl
    trace := rfl
    steps := halike.steps
    reply := fun limit hlimit => (halike.run hlimit).1
    left := fun limit hlimit => by
      obtain ⟨-, hleft⟩ := halike.run hlimit
      exact ⟨congrArg Configuration.state hleft.configuration, congrArg Configuration.tape hleft.configuration,
        hleft.stepCount⟩ }

/-- The walker after it has met a `b`, turned back and halted, without a trace. -/
def haltedWalker : Machine :=
  (inState (compile walker).table ⟨[], 'a', ['b', '_']⟩ { id := "1", isStart := true }).after
    [.setTraceLimit (some 0), .run 9]

theorem exists_resume_snapshot_haltedWalker :
    haltedWalker.snapshot = ⟨2, "1", "xb_", 0⟩ ∧
      ∃ m', resume haltedWalker.table haltedWalker.snapshot = .ok m' ∧ haltedWalker.Continues m' :=
  ⟨by decide, exists_resume_snapshot (d := walker) (.performed _ (.performed _ (.fresh (.new rfl))))⟩

end Tapeworks.Machine
