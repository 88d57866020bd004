import Mathlib.Logic.Function.Iterate
import Tapeworks.Proofs.Machine.Textbook

/-! The cells that a run visits. A step reads the cell under the head, may write that cell, and moves the head by one. So
    two machines on tapes that agree on the cells which the first one visits do the same in every step, errors included,
    and come to tapes that agree there again; the cells that are not visited stay as they were on either tape. -/

namespace Tapeworks

variable {V : Nat → Prop}

/-! ### Tapes -/

/-- The tapes are equally long with their heads in one place, and show the same symbols in the cells `V`. -/
structure Tape.AgreesOn (V : Nat → Prop) (t t' : Tape) : Prop where
  head : t'.head = t.head
  length : t'.cells.length = t.cells.length
  symbol : ∀ i, V i → t'.cells[i]? = t.cells[i]?

namespace Tape

variable {t t' : Tape} {w : Option Char} {d : Direction}

theorem AgreesOn.current (h : AgreesOn V t t') (hhead : V t.head) : t'.current = t.current := by
  have hsymbol := h.symbol t.head hhead
  rw [← h.head, t'.getElem?_head, h.head, t.getElem?_head] at hsymbol
  exact Option.some.inj hsymbol

theorem AgreesOn.error_iff (h : AgreesOn V t t') {e : RunError} : t'.apply w d = .error e ↔ t.apply w d = .error e := by
  rw [apply_eq_error_iff, apply_eq_error_iff, h.head, h.length]

/-- A rule fails on both tapes, or writes the same symbol in the same cell and moves both heads alike. -/
theorem AgreesOn.apply (h : AgreesOn V t t') (hhead : V t.head) (w : Option Char) (d : Direction) :
    (∃ e, t.apply w d = .error e ∧ t'.apply w d = .error e) ∨
      ∃ n n', t.apply w d = .ok n ∧ t'.apply w d = .ok n' ∧ AgreesOn V n n' := by
  cases hn : t.apply w d with
  | error e => exact Or.inl ⟨e, rfl, h.error_iff.mpr hn⟩
  | ok n =>
    cases hn' : t'.apply w d with
    | error e =>
      rw [h.error_iff.mp hn'] at hn
      cases hn
    | ok n' =>
      obtain ⟨hcells, hshift⟩ := apply_spec hn
      obtain ⟨hcells', hshift'⟩ := apply_spec hn'
      rw [h.head] at hcells' hshift'
      rw [h.current hhead] at hcells'
      refine Or.inr ⟨n, n', rfl, rfl, hshift'.unique hshift, ?_, fun i hi => ?_⟩
      · rw [hcells, hcells', List.length_set, List.length_set, h.length]
      · rw [hcells, hcells', List.getElem?_set, List.getElem?_set, h.length, h.symbol i hi]

end Tape

/-! ### Moves -/

/-- The configurations have one state, and tapes that agree on the cells `V`. -/
structure Configuration.AgreesOn (V : Nat → Prop) (c c' : Configuration) : Prop where
  state : c'.state = c.state
  tape : c.tape.AgreesOn V c'.tape

/-- A table ends a run on both tapes for one reason, or moves on both. -/
theorem Configuration.AgreesOn.move {c c' : Configuration} (h : c.AgreesOn V c') (hhead : V c.tape.head) (t : Table) :
    (∃ halt, t.move c = .error halt ∧ t.move c' = .error halt) ∨
      ∃ n n', t.move c = .ok n ∧ t.move c' = .ok n' ∧ n.AgreesOn V n' := by
  have hcurrent := h.tape.current hhead
  unfold Table.move
  rw [h.state, hcurrent]
  by_cases hfinal : c.state.isFinal
  · exact Or.inl ⟨.accepted, if_pos hfinal, if_pos hfinal⟩
  · rw [if_neg hfinal, if_neg hfinal]
    cases t.find? c.state.id c.tape.current with
    | none => exact Or.inl ⟨_, rfl, rfl⟩
    | some r =>
      dsimp only
      rcases h.tape.apply hhead r.write r.direction with ⟨e, hn, hn'⟩ | ⟨n, n', hn, hn', hagree⟩
      · rw [hn, hn']
        exact Or.inl ⟨_, rfl, rfl⟩
      · rw [hn, hn']
        exact Or.inr ⟨_, _, rfl, rfl, rfl, hagree⟩

namespace Machine

variable {m m' : Machine} {n k : Nat}

/-! ### One step -/

/-- The machines differ in nothing that a step reads but the cells outside `V`. -/
structure AgreesOn (V : Nat → Prop) (m m' : Machine) : Prop where
  table : m'.table = m.table
  configuration : m.configuration.AgreesOn V m'.configuration
  status : m'.status = m.status
  stepCount : m'.stepCount = m.stepCount

theorem AgreesOn.state (h : AgreesOn V m m') : m'.state = m.state :=
  h.configuration.state

theorem AgreesOn.isHalted (h : AgreesOn V m m') : m'.isHalted = m.isHalted := by
  unfold Machine.isHalted
  rw [h.status]

/-- Both machines halt for one reason, or both move. -/
theorem AgreesOn.step_cases (h : AgreesOn V m m') (hhead : V m.tape.head) :
    (∃ halt n n', m.step = (.halted halt, n) ∧ m'.step = (.halted halt, n') ∧ AgreesOn V n n') ∨
      ∃ n n', m.step = (.moved, n) ∧ m'.step = (.moved, n') ∧ AgreesOn V n n' := by
  have hmove := h.configuration.move hhead m.table
  unfold Machine.step
  rw [h.status, h.table]
  split
  · rename_i halt _
    exact Or.inl ⟨halt, m, m', rfl, rfl, h⟩
  · rcases hmove with ⟨halt, hn, hn'⟩ | ⟨c, c', hn, hn', hagree⟩
    · rw [hn, hn']
      exact Or.inl ⟨halt, _, _, rfl, rfl, rfl, h.configuration, rfl, h.stepCount⟩
    · rw [hn, hn']
      exact Or.inr ⟨_, _, rfl, rfl, h.table, hagree, rfl, congrArg (· + 1) h.stepCount⟩

theorem AgreesOn.step (h : AgreesOn V m m') (hhead : V m.tape.head) :
    m'.step.1 = m.step.1 ∧ AgreesOn V m.step.2 m'.step.2 := by
  rcases h.step_cases hhead with ⟨halt, n, n', hs, hs', hnext⟩ | ⟨n, n', hs, hs', hnext⟩
  · rw [hs, hs']
    exact ⟨rfl, hnext⟩
  · rw [hs, hs']
    exact ⟨rfl, hnext⟩

/-- What a step does to the tape: nothing where it halts, and else it writes at most the cell under the head and moves
    the head by one. -/
theorem step_tape (m : Machine) : (m.step.1 ≠ .moved ∧ m.step.2.tape = m.tape) ∨
    (m.step.1 = .moved ∧ (∀ i, i ≠ m.tape.head → m.step.2.tape.cells[i]? = m.tape.cells[i]?) ∧
      ∃ d : Direction, d.Shifts m.tape.head m.step.2.tape.head) := by
  rcases m.step_cases with ⟨halt, -, hs⟩ | ⟨-, halt, -, hs⟩ | ⟨-, c, hmove, hs⟩
  · rw [hs]
    exact Or.inl ⟨nofun, rfl⟩
  · rw [hs]
    exact Or.inl ⟨nofun, rfl⟩
  · rw [hs]
    obtain ⟨-, r, -, happly, -⟩ := Table.move_eq_ok_iff.mp hmove
    obtain ⟨hcells, hshift⟩ := Tape.apply_spec happly
    refine Or.inr ⟨rfl, fun i hi => ?_, r.direction, hshift⟩
    exact (congrArg (·[i]?) hcells).trans (List.getElem?_set_ne (Ne.symm hi))

/-! ### Steps in turn -/

/-- The machine after `k` steps. -/
def stepped (m : Machine) (k : Nat) : Machine :=
  (fun m => m.step.2)^[k] m

theorem stepped_succ (m : Machine) (k : Nat) : m.stepped (k + 1) = (m.stepped k).step.2 :=
  Function.iterate_succ_apply' ..

theorem step_stepped (m : Machine) (k : Nat) : m.step.2.stepped k = m.stepped (k + 1) :=
  (Function.iterate_succ_apply ..).symm

/-- The cells under the head before each of `n` steps and after the last one. -/
def visits (m : Machine) (n : Nat) : List Nat :=
  (List.range (n + 1)).map fun k => (m.stepped k).tape.head

/-- How many of `n` steps are moves. -/
def moves (m : Machine) (n : Nat) : Nat :=
  (List.range n).countP fun k => (m.stepped k).step.1 = .moved

theorem head_mem_visits (m : Machine) (h : k ≤ n) : (m.stepped k).tape.head ∈ m.visits n :=
  List.mem_map.mpr ⟨k, List.mem_range.mpr (Nat.lt_succ_of_le h), rfl⟩

theorem moves_succ (m : Machine) (n : Nat) :
    m.moves (n + 1) = m.moves n + if (m.stepped n).step.1 = .moved then 1 else 0 := by
  rw [moves, List.range_succ, List.countP_append, List.countP_singleton]
  simp only [decide_eq_true_eq]
  rfl

theorem AgreesOn.stepped (h : AgreesOn V m m') (hV : ∀ i < k, V (m.stepped i).tape.head) :
    AgreesOn V (m.stepped k) (m'.stepped k) := by
  induction k with
  | zero => exact h
  | succ k ih =>
    have hbefore := ih fun i hi => hV i (Nat.lt_succ_of_lt hi)
    rw [stepped_succ, stepped_succ]
    exact (hbefore.step (hV k (Nat.lt_succ_self k))).2

/-- A run up to a limit comes to one end on both tapes. -/
theorem AgreesOn.runWithin (h : AgreesOn V m m') (limit : Nat) {budget : Nat}
    (hV : ∀ i ≤ budget, V (m.stepped i).tape.head) :
    (runWithin limit budget m').1 = (runWithin limit budget m).1 ∧
      AgreesOn V (runWithin limit budget m).2 (runWithin limit budget m').2 := by
  induction budget generalizing m m' with
  | zero =>
    unfold Machine.runWithin
    rw [h.isHalted, h.state]
    split
    · rcases h.step_cases (hV 0 (Nat.le_refl 0)) with ⟨halt, n, n', hs, hs', hnext⟩ | ⟨n, n', hs, hs', -⟩
      · rw [hs, hs']
        exact ⟨rfl, hnext⟩
      · rw [hs, hs']
        exact ⟨rfl, h⟩
    · exact ⟨rfl, h⟩
  | succ budget ih =>
    rcases h.step_cases (hV 0 (Nat.zero_le _)) with ⟨halt, n, n', hs, hs', hnext⟩ | ⟨n, n', hs, hs', hnext⟩
    · rw [runWithin_of_halted hs, runWithin_of_halted hs']
      exact ⟨rfl, hnext⟩
    · rw [runWithin_of_moved hs, runWithin_of_moved hs']
      refine ih hnext fun i hi => ?_
      have hlater := hV (i + 1) (Nat.succ_le_succ hi)
      rwa [← step_stepped, hs] at hlater

/-- A cell that is not visited keeps its symbol. -/
theorem getElem?_stepped (h : ∀ k < n, i ≠ (m.stepped k).tape.head) :
    (m.stepped n).tape.cells[i]? = m.tape.cells[i]? := by
  induction n with
  | zero => rfl
  | succ n ih =>
    rw [stepped_succ]
    refine Eq.trans ?_ (ih fun k hk => h k (Nat.lt_succ_of_lt hk))
    rcases (m.stepped n).step_tape with ⟨-, htape⟩ | ⟨-, hcells, -⟩
    · rw [htape]
    · exact hcells i (h n (Nat.lt_succ_self n))

/-- The head is no further from where it was than there have been moves. -/
theorem head_stepped (m : Machine) (n : Nat) : (m.stepped n).tape.head ≤ m.tape.head + m.moves n ∧
    m.tape.head ≤ (m.stepped n).tape.head + m.moves n := by
  induction n with
  | zero => exact ⟨Nat.le_refl _, Nat.le_refl _⟩
  | succ n ih =>
    rw [stepped_succ, moves_succ]
    rcases (m.stepped n).step_tape with ⟨hhalt, htape⟩ | ⟨hmoved, -, d, hshift⟩
    · rw [if_neg hhalt, htape]
      exact ih
    · rw [if_pos hmoved]
      cases d with
      | left =>
        have hleft : (m.stepped n).step.2.tape.head + 1 = (m.stepped n).tape.head := hshift
        omega
      | right =>
        have hright : (m.stepped n).step.2.tape.head = (m.stepped n).tape.head + 1 := hshift
        omega

/-! ### Runs on two tapes -/

/-- How `n` steps of `m'` compare with those of `m`, which visits some cells: each of them does the same and they lead
    through the same states, places of the head and halts, as does a run up to that limit. The visited cells come to
    hold the same symbols and all others keep their own on either tape. The head ends no further from where it was than
    there have been moves. -/
structure Confined (n : Nat) (m m' : Machine) : Prop where
  step : ∀ k < n, (m'.stepped k).step.1 = (m.stepped k).step.1
  state : ∀ k ≤ n, (m'.stepped k).state = (m.stepped k).state
  head : ∀ k ≤ n, (m'.stepped k).tape.head = (m.stepped k).tape.head
  status : ∀ k ≤ n, (m'.stepped k).status = (m.stepped k).status
  stepCount : ∀ k ≤ n, (m'.stepped k).stepCount = (m.stepped k).stepCount
  run : ∀ limit ≤ n, (m'.run limit).1 = (m.run limit).1
  visited : ∀ i ∈ m.visits n, (m'.stepped n).tape.cells[i]? = (m.stepped n).tape.cells[i]?
  unvisited : ∀ i ∉ m.visits n, (m.stepped n).tape.cells[i]? = m.tape.cells[i]? ∧
    (m'.stepped n).tape.cells[i]? = m'.tape.cells[i]?
  near : (m.stepped n).tape.head ≤ m.tape.head + m.moves n ∧ m.tape.head ≤ (m.stepped n).tape.head + m.moves n

theorem AgreesOn.confined (h : AgreesOn (· ∈ m.visits n) m m') : Confined n m m' := by
  have hstepped : ∀ k ≤ n, AgreesOn (· ∈ m.visits n) (m.stepped k) (m'.stepped k) := fun k hk =>
    h.stepped fun i hi => m.head_mem_visits (Nat.le_trans (Nat.le_of_lt hi) hk)
  have hhead : ∀ k ≤ n, (m'.stepped k).tape.head = (m.stepped k).tape.head := fun k hk =>
    (hstepped k hk).configuration.tape.head
  exact {
    step := fun k hk => ((hstepped k (Nat.le_of_lt hk)).step (m.head_mem_visits (Nat.le_of_lt hk))).1
    state := fun k hk => (hstepped k hk).state
    head := hhead
    status := fun k hk => (hstepped k hk).status
    stepCount := fun k hk => (hstepped k hk).stepCount
    run := fun limit hlimit => (h.runWithin limit fun i hi => m.head_mem_visits (Nat.le_trans hi hlimit)).1
    visited := (hstepped n (Nat.le_refl n)).configuration.tape.symbol
    unvisited := fun i hi => by
      have hne : ∀ k < n, i ≠ (m.stepped k).tape.head := fun k hk heq =>
        hi (heq ▸ m.head_mem_visits (Nat.le_of_lt hk))
      exact ⟨getElem?_stepped hne, getElem?_stepped fun k hk => hhead k (Nat.le_of_lt hk) ▸ hne k hk⟩
    near := m.head_stepped n }

/-- A run depends only on the cells that it visits. -/
theorem exists_confined {t : Table} {tape tape' : Tape} {id : String} (h : startingAt t tape id = .ok m)
    (hhead : tape'.head = tape.head) (hlength : tape'.cells.length = tape.cells.length)
    (hagree : ∀ i ∈ m.visits n, tape'.cells[i]? = tape.cells[i]?) :
    ∃ m', startingAt t tape' id = .ok m' ∧ Confined n m m' := by
  obtain ⟨s, hs, rfl⟩ := startingAt_eq_ok_iff.mp h
  have hagrees : AgreesOn (· ∈ (inState t tape s).visits n) (inState t tape s) (inState t tape' s) :=
    ⟨rfl, ⟨rfl, hhead, hlength, hagree⟩, rfl, rfl⟩
  exact ⟨inState t tape' s, startingAt_eq_ok_iff.mpr ⟨s, hs, rfl⟩, hagrees.confined⟩

/-- The walker takes two moves over `aa` and gets stuck on `y`, whatever stands in the cells on either side. -/
theorem exists_confined_walker : ∃ m m',
    startingAt (compile walker).table ⟨['p'], 'a', ['a', 'y', 'q']⟩ "1" = .ok m ∧
      m.visits 4 = [1, 2, 3, 3, 3] ∧ (m.stepped 2).step.1 = .halted (.failed (.noMatchingRule "1" 'y')) ∧
        startingAt (compile walker).table ⟨['r'], 'a', ['a', 'y', 's']⟩ "1" = .ok m' ∧ Confined 4 m m' := by
  have hm : startingAt (compile walker).table ⟨['p'], 'a', ['a', 'y', 'q']⟩ "1" = .ok
      (inState (compile walker).table ⟨['p'], 'a', ['a', 'y', 'q']⟩ { id := "1", isStart := true }) := rfl
  obtain ⟨m', hm', hconfined⟩ :=
    exists_confined (n := 4) hm (rfl : Tape.head ⟨['r'], 'a', ['a', 'y', 's']⟩ = 1) rfl (by decide)
  exact ⟨_, m', hm, by decide, by decide, hm', hconfined⟩

end Machine
end Tapeworks
