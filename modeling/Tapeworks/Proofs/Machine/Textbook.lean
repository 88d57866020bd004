import Mathlib.Data.List.Range
import Mathlib.Logic.Function.Iterate
import Tapeworks.Proofs.Compile
import Tapeworks.Proofs.Machine.Reachable
import Tapeworks.Proofs.Tape

/-! The textbook machine. A rule leads from one configuration to the next, told cell by cell, and a configuration halts
    for one reason; a table moves exactly so. A machine that has only stepped and run stands at the end of such a run,
    and its trace shows every configuration on the way. -/

namespace Tapeworks

/-! ### Rules and halts -/

/-- The rule is the only one of the state for the symbol under the head, and it leads from `c` to `c'`. -/
structure Table.Applies (t : Table) (r : Transition) (c c' : Configuration) : Prop where
  found : t.find? c.state.id c.tape.current = some r
  only : ∀ r' ∈ t.transitions c.state.id, r'.read = c.tape.current → r' = r
  written : c'.tape.cells[c.tape.head]? = some (r.write.getD c.tape.current)
  others : ∀ i, i ≠ c.tape.head → c'.tape.cells[i]? = c.tape.cells[i]?
  shifted : r.direction.Shifts c.tape.head c'.tape.head
  inside : c'.tape.head < c.tape.cells.length
  target : c'.state = r.target

/-- Why a configuration has no next one. -/
inductive Table.Halts (t : Table) (c : Configuration) : Halt → Prop
  | accepted : c.state.isFinal → Halts t c .accepted
  | noMatchingRule : ¬c.state.isFinal → t.find? c.state.id c.tape.current = none →
      Halts t c (.failed (.noMatchingRule c.state.id c.tape.current))
  | tapeUnderflow {r : Transition} : ¬c.state.isFinal → t.find? c.state.id c.tape.current = some r →
      r.direction = .left → c.tape.head = 0 → Halts t c (.failed .tapeUnderflow)
  | tapeOverflow {r : Transition} : ¬c.state.isFinal → t.find? c.state.id c.tape.current = some r →
      r.direction = .right → c.tape.head + 1 = c.tape.cells.length →
      Halts t c (.failed (.tapeOverflow c.tape.cells.length))

/-- A run of `k` moves through the configurations, none of which is final before the last. -/
def Table.Course (t : Table) (c : Nat → Configuration) (k : Nat) : Prop :=
  ∀ i < k, ¬(c i).state.isFinal ∧ ∃ r, t.Applies r (c i) (c (i + 1))

/-- The configuration as it is shown after a number of steps. -/
def Configuration.snapshot (c : Configuration) (step : Nat) : Snapshot :=
  ⟨step, c.state.id, c.tape.text, c.tape.head⟩

/-- The snapshots of the configurations after the first, which comes after `before` steps. -/
def snapshots (c : Nat → Configuration) (before k : Nat) : List Snapshot :=
  (List.range k).map fun i => (c (i + 1)).snapshot (before + i + 1)

namespace Table

variable {t : Table} {c c' : Configuration} {r : Transition} {halt : Halt} {k : Nat}

/-- No state has two rules for one symbol. -/
def Deterministic (t : Table) : Prop :=
  ∀ id, ((t.transitions id).map (·.read)).Nodup

theorem deterministic_compile (d : Diagram) : (compile d).table.Deterministic :=
  nodup_reads_compile d

/-! ### The moves of a table -/

theorem move_eq_error_iff : t.move c = .error halt ↔ t.Halts c halt := by
  constructor
  · intro h
    unfold move at h
    split at h
    · rename_i hfinal
      cases h
      exact .accepted hfinal
    · rename_i hfinal
      split at h
      · rename_i hfind
        cases h
        exact .noMatchingRule hfinal hfind
      · rename_i r hfind
        split at h
        · rename_i e happly
          cases h
          rcases Tape.apply_eq_error_iff.mp happly with ⟨hleft, hhead, rfl⟩ | ⟨hright, hhead, rfl⟩
          · exact .tapeUnderflow hfinal hfind hleft hhead
          · exact .tapeOverflow hfinal hfind hright hhead
        · cases h
  · intro h
    unfold move
    cases h with
    | accepted hfinal => rw [if_pos hfinal]
    | noMatchingRule hfinal hfind => rw [if_neg hfinal, hfind]
    | tapeUnderflow hfinal hfind hleft hhead =>
      rw [if_neg hfinal, hfind]
      dsimp only
      rw [Tape.apply_eq_error_iff.mpr (Or.inl ⟨hleft, hhead, rfl⟩)]
    | tapeOverflow hfinal hfind hright hhead =>
      rw [if_neg hfinal, hfind]
      dsimp only
      rw [Tape.apply_eq_error_iff.mpr (Or.inr ⟨hright, hhead, rfl⟩)]

theorem move_eq_ok_iff : t.move c = .ok c' ↔ ¬c.state.isFinal ∧ ∃ r, t.find? c.state.id c.tape.current = some r ∧
    c.tape.apply r.write r.direction = .ok c'.tape ∧ c'.state = r.target := by
  constructor
  · intro h
    unfold move at h
    split at h
    · cases h
    · rename_i hfinal
      split at h
      · cases h
      · rename_i r hfind
        split at h
        · cases h
        · rename_i tape happly
          cases h
          exact ⟨hfinal, r, hfind, happly, rfl⟩
  · rintro ⟨hfinal, r, hfind, happly, htarget⟩
    rw [move, if_neg hfinal, hfind]
    dsimp only
    rw [happly, ← htarget]

theorem move_of_error {e : RunError} (hfinal : ¬c.state.isFinal) (hfind : t.find? c.state.id c.tape.current = some r)
    (happly : c.tape.apply r.write r.direction = .error e) : t.move c = .error (.failed e) := by
  rw [move, if_neg hfinal, hfind]
  dsimp only
  rw [happly]

theorem Applies.apply (h : t.Applies r c c') : c.tape.apply r.write r.direction = .ok c'.tape := by
  refine Tape.apply_eq_ok_iff.mpr ⟨List.ext_getElem? fun i => ?_, h.shifted⟩
  by_cases hi : i = c.tape.head
  · rw [hi, h.written, List.getElem?_set_self c.tape.head_lt]
  · rw [h.others i hi, List.getElem?_set_ne (Ne.symm hi)]

theorem Applies.of_apply (ht : t.Deterministic) (hfind : t.find? c.state.id c.tape.current = some r)
    (happly : c.tape.apply r.write r.direction = .ok c'.tape) (htarget : c'.state = r.target) : t.Applies r c c' := by
  obtain ⟨hcells, hshift⟩ := Tape.apply_eq_ok_iff.mp happly
  have hlength : c'.tape.cells.length = c.tape.cells.length := by rw [hcells, List.length_set]
  obtain ⟨hr, hread⟩ := (find?_key_eq_some_iff (ht c.state.id)).mp hfind
  exact {
    found := hfind
    only := fun r' hr' hread' => List.inj_on_of_nodup_map (ht c.state.id) hr' hr (hread'.trans hread.symm)
    written := by rw [hcells, List.getElem?_set_self c.tape.head_lt]
    others := fun i hi => by rw [hcells, List.getElem?_set_ne (Ne.symm hi)]
    shifted := hshift
    inside := hlength ▸ c'.tape.head_lt
    target := htarget }

/-- A table moves by the one rule that applies, unless the state is final. -/
theorem move_eq_ok_iff_applies (ht : t.Deterministic) :
    t.move c = .ok c' ↔ ¬c.state.isFinal ∧ ∃ r, t.Applies r c c' := by
  rw [move_eq_ok_iff]
  constructor
  · rintro ⟨hfinal, r, hfind, happly, htarget⟩
    exact ⟨hfinal, r, .of_apply ht hfind happly htarget⟩
  · rintro ⟨hfinal, r, h⟩
    exact ⟨hfinal, r, h.found, h.apply, h.target⟩

/-! ### Courses -/

/-- The configuration after a move, and the same one where there is none. -/
def next (t : Table) (c : Configuration) : Configuration :=
  match t.move c with
  | .ok c' => c'
  | .error _ => c

theorem next_of_move (h : t.move c = .ok c') : t.next c = c' := by
  rw [next, h]

theorem course_iff (ht : t.Deterministic) {c : Nat → Configuration} :
    t.Course c k ↔ ∀ i < k, t.move (c i) = .ok (c (i + 1)) :=
  forall₂_congr fun _ _ => (move_eq_ok_iff_applies ht).symm

end Table

theorem length_snapshots (c : Nat → Configuration) (before k : Nat) : (snapshots c before k).length = k := by
  rw [snapshots, List.length_map, List.length_range]

theorem snapshots_succ (c : Nat → Configuration) (before k : Nat) :
    snapshots c before (k + 1) = snapshots c before k ++ [(c (k + 1)).snapshot (before + k + 1)] := by
  rw [snapshots, List.range_succ, List.map_append]
  rfl

theorem snapshots_succ_left (c : Nat → Configuration) (before k : Nat) : snapshots c before (k + 1) =
    (c 1).snapshot (before + 1) :: snapshots (fun i => c (i + 1)) (before + 1) k := by
  rw [snapshots, List.range_succ_eq_map, List.map_cons, List.map_map]
  refine congrArg _ (List.map_congr_left fun i _ => ?_)
  rw [Function.comp_apply, Nat.add_right_comm before 1 i]
  rfl

/-! ### Machines that step and run -/

namespace Machine

variable {m : Machine} {t : Table} {tape : Tape} {start : Configuration}

/-- What a run up to a limit answers to: the halt of the configuration that it leaves, which it reaches within the
    limit, or else that as many steps as the limit have led to no end. -/
theorem Settled.runWithin (h : m.Settled) (limit budget : Nat) :
    (m.table.Halts (runWithin limit budget m).2.configuration (runWithin limit budget m).1 ∧
        (runWithin limit budget m).2.stepCount ≤ m.stepCount + budget) ∨
      ((runWithin limit budget m).1 = .failed (.stepLimitExceeded limit) ∧
        (runWithin limit budget m).2.stepCount = m.stepCount + budget ∧
          ¬(runWithin limit budget m).2.state.isFinal) := by
  induction budget generalizing m with
  | zero =>
    unfold Machine.runWithin
    split
    · rename_i hend
      rcases h.step_cases with ⟨halt, hmove, hs⟩ | ⟨hrunning, c, hmove, hs⟩
      · rw [hs]
        exact Or.inl ⟨Table.move_eq_error_iff.mp hmove, Nat.le_refl _⟩
      · -- A machine that can move has neither halted nor reached a final state.
        have hfinal : m.state.isFinal := by simpa [hrunning] using hend
        exact absurd hfinal (Table.move_eq_ok_iff.mp hmove).1
    · rename_i hend
      exact Or.inr ⟨rfl, rfl, fun hfinal => hend (Bool.or_eq_true_iff.mpr (Or.inr hfinal))⟩
  | succ budget ih =>
    rcases h.step_cases with ⟨halt, hmove, hs⟩ | ⟨-, c, hmove, hs⟩
    · rw [runWithin_of_halted hs]
      exact Or.inl ⟨Table.move_eq_error_iff.mp hmove, Nat.le_add_right _ _⟩
    · have hnext : (m.moveTo c).Settled := step_keeps (fun _ hn => hn.step) hs h
      have hcount : (m.moveTo c).stepCount + budget = m.stepCount + (budget + 1) := by
        rw [Nat.add_comm budget, ← Nat.add_assoc]
        rfl
      rw [runWithin_of_moved hs, ← hcount]
      exact ih hnext

/-- The moves from `m` to `n` go through the configurations that the table leads to. -/
structure Passage (m : Machine) (seen : List Snapshot) (n : Machine) : Prop where
  table : n.table = m.table
  moves : ∀ i < seen.length,
    m.table.move (m.table.next^[i] m.configuration) = .ok (m.table.next^[i + 1] m.configuration)
  configuration : n.configuration = m.table.next^[seen.length] m.configuration
  shown : seen = snapshots (fun i => m.table.next^[i] m.configuration) m.stepCount seen.length
  stepCount : n.stepCount = m.stepCount + seen.length

theorem Moves.passage {seen : List Snapshot} {n : Machine} (h : Moves m seen n) : Passage m seen n := by
  induction h with
  | refl m => exact ⟨rfl, fun i hi => absurd hi (Nat.not_lt_zero i), rfl, rfl, rfl⟩
  | @move m n m' seen hs _ ih =>
    obtain ⟨c, hmove, rfl⟩ := exists_move hs
    have hnext : m.table.next m.configuration = c := Table.next_of_move hmove
    -- The configurations after the first move are those of the moves that are left.
    have hshift : ∀ i, m.table.next^[i + 1] m.configuration = m.table.next^[i] c := fun i => by
      rw [Function.iterate_succ_apply, hnext]
    refine ⟨ih.table, fun i hi => ?_, ?_, ?_, ?_⟩
    · cases i with
      | zero =>
        rw [hshift]
        exact hmove
      | succ i =>
        rw [hshift, hshift]
        exact ih.moves i (Nat.lt_of_succ_lt_succ hi)
    · rw [List.length_cons, hshift]
      exact ih.configuration
    · rw [List.length_cons, snapshots_succ_left]
      simp only [hshift]
      exact congrArg _ ih.shown
    · rw [ih.stepCount, List.length_cons, Nat.add_comm seen.length, ← Nat.add_assoc]
      rfl

/-- A run that ends tells a run of the table, from the configuration of the machine to the one that halts. -/
theorem Ends.exists_course {m' : Machine} {seen : List Snapshot} {halt : Halt} (h : Ends m seen halt m')
    (ht : m.table.Deterministic) : ∃ c, c 0 = m.configuration ∧ m.table.Course c seen.length ∧
      seen = snapshots c m.stepCount seen.length ∧ m'.configuration = c seen.length ∧
        m'.stepCount = m.stepCount + seen.length := by
  obtain ⟨n, hmoves, hs⟩ := h
  have hpassage := hmoves.passage
  rw [step_snd_of_halted hs]
  exact ⟨fun i => m.table.next^[i] m.configuration, rfl, (Table.course_iff ht).mpr hpassage.moves, hpassage.shown,
    hpassage.configuration, hpassage.stepCount⟩

/-- The machine has come from `start` by moves of the table and has kept a snapshot of every one. -/
structure Traced (t : Table) (start : Configuration) (m : Machine) : Prop where
  table : m.table = t
  traceLimit : m.traceLimit = none
  settled : m.Settled
  moves : ∀ i < m.stepCount, t.move (t.next^[i] start) = .ok (t.next^[i + 1] start)
  configuration : m.configuration = t.next^[m.stepCount] start
  trace : m.trace = snapshots (fun i => t.next^[i] start) 0 m.stepCount

theorem Fresh.traced (h : Fresh t tape m) : Traced t m.configuration m := by
  obtain ⟨s, -, rfl⟩ := h.exists_state
  exact ⟨rfl, rfl, settled_of_idle rfl, fun i hi => absurd hi (Nat.not_lt_zero i), rfl, rfl⟩

/-- A step adds one configuration to those that a machine has come through, or changes the status alone. -/
theorem Traced.step (h : Traced t start m) : Traced t start m.step.2 := by
  have hsettled := h.settled.step
  rcases h.settled.step_cases with ⟨halt, -, hs⟩ | ⟨-, c, hmove, hs⟩
  · rw [hs] at hsettled ⊢
    exact ⟨h.table, h.traceLimit, hsettled, h.moves, h.configuration, h.trace⟩
  · rw [hs] at hsettled ⊢
    rw [h.table] at hmove
    have hnext : c = t.next^[m.stepCount + 1] start := by
      rw [Function.iterate_succ_apply', ← h.configuration, Table.next_of_move hmove]
    have hkept : (m.moveTo c).trace = m.trace ++ [c.snapshot (m.stepCount + 1)] := trace_moveTo h.traceLimit c
    refine ⟨h.table, h.traceLimit, hsettled, fun i hi => ?_, hnext, ?_⟩
    · rcases Nat.lt_succ_iff_lt_or_eq.mp hi with hi | rfl
      · exact h.moves i hi
      · rw [← hnext, ← h.configuration, hmove]
    · refine hkept.trans ?_
      have hshown := snapshots_succ (fun i => t.next^[i] start) 0 m.stepCount
      rw [← h.trace, ← hnext, Nat.zero_add] at hshown
      exact hshown.symm

/-- The machine stands at the end of the run of the table through the configurations, and its trace shows all of them
    but the first. A step is a move, or a halt that changes the status alone, as the table has it. A run up to a limit
    answers with the halt that it has come to, or gives up after that many moves. -/
structure Retraces (t : Table) (c : Nat → Configuration) (m : Machine) : Prop where
  table : m.table = t
  course : t.Course c m.stepCount
  configuration : m.configuration = c m.stepCount
  trace : m.trace = snapshots c 0 m.stepCount
  length : m.trace.length = m.stepCount
  moved : m.step.1 = .moved ↔ ¬m.state.isFinal ∧ ∃ r c', t.Applies r m.configuration c'
  halted : ∀ halt, m.step.1 = .halted halt ↔ t.Halts m.configuration halt
  unchanged : ∀ halt, m.step.1 = .halted halt → m.step.2 = { m with status := .halted halt }
  ran : ∀ limit,
    (t.Halts (m.run limit).2.configuration (m.run limit).1 ∧ (m.run limit).2.stepCount ≤ m.stepCount + limit) ∨
      ((m.run limit).1 = .failed (.stepLimitExceeded limit) ∧ (m.run limit).2.stepCount = m.stepCount + limit ∧
        ¬(m.run limit).2.state.isFinal)

theorem Traced.retraces (h : Traced t start m) (ht : t.Deterministic) :
    Retraces t (fun i => t.next^[i] start) m where
  table := h.table
  course := (Table.course_iff ht).mpr h.moves
  configuration := h.configuration
  trace := h.trace
  length := by rw [h.trace, length_snapshots]
  moved := by
    rw [h.settled.step_eq_moved_iff, h.table]
    simp only [Table.move_eq_ok_iff_applies ht]
    exact ⟨fun ⟨c', hfinal, r, hr⟩ => ⟨hfinal, r, c', hr⟩, fun ⟨hfinal, r, c', hr⟩ => ⟨c', hfinal, r, hr⟩⟩
  halted halt := by rw [h.settled.step_eq_halted_iff, h.table, Table.move_eq_error_iff]
  unchanged halt hhalt := step_snd_of_halted (Prod.ext hhalt rfl)
  ran limit := h.table ▸ h.settled.runWithin limit limit

/-- A fresh machine that steps and runs in any order retraces the textbook run from where it was set up. -/
theorem exists_retraces_after {d : Diagram} {ops : List Operation} (h : Fresh (compile d).table tape m)
    (hops : ∀ op ∈ ops, op.runs) : ∃ c, c 0 = m.configuration ∧ Retraces (compile d).table c (m.after ops) := by
  have htraced : Traced (compile d).table m.configuration (m.after ops) :=
    after_keeps (fun _ hn => hn.step) hops h.traced
  exact ⟨_, rfl, htraced.retraces (Table.deterministic_compile d)⟩

/-- Walks right over every `a`, writes `x` in its place, and accepts behind the first blank. -/
def walker : Diagram where
  states := [{ id := "1", isStart := true }, { id := "2", isFinal := true }]
  edges := [Edge.between "1" "1" "a,x,>;b,<", Edge.between "1" "2" "_,>"]

theorem exists_retraces_after_walker : ∃ c,
    c 0 = ⟨{ id := "1", isStart := true }, ⟨[], 'a', ['a', '_', 'b']⟩⟩ ∧ Retraces (compile walker).table c
      ((inState (compile walker).table ⟨[], 'a', ['a', '_', 'b']⟩ { id := "1", isStart := true }).after
        [.step, .run 1, .run 5, .step]) :=
  exists_retraces_after (d := walker) (.new rfl) (by decide)

end Machine
end Tapeworks
