import Tapeworks.Proofs.Machine.Textbook

/-! Sweeps. While the head passes over cells in one direction, a machine works like a finite automaton that writes: its
    state goes from rule to rule, and every cell is left as the rule for it writes it. A run is put together from
    sweeps and turns, and its number of moves is the sum of theirs. -/

namespace Tapeworks

/-! ### Tapes seen in a direction -/

def Direction.opposite : Direction → Direction
  | .left => .right
  | .right => .left

/-- The tape with the head on the first of the cells ahead, as they are met in the direction, and with the cells
    behind, the nearest first. Without cells ahead the head is on a blank. -/
def Tape.facing (d : Direction) (behind ahead : List Char) : Tape :=
  match d with
  | .left => ⟨ahead.tail, ahead.headD Tapeworks.blank, behind⟩
  | .right => ⟨behind, ahead.headD Tapeworks.blank, ahead.tail⟩

namespace Tape

variable {d : Direction} {w : Option Char} {c : Char} {behind ahead : List Char}

theorem ofCells_eq_facing (cs : List Char) : ofCells cs = facing .right [] cs := by
  cases cs <;> rfl

@[simp] theorem current_facing : (facing d behind (c :: ahead)).current = c := by
  cases d <;> rfl

theorem cells_facing_left (hahead : ahead ≠ []) : (facing .left behind ahead).cells = ahead.reverse ++ behind := by
  cases ahead with
  | nil => exact absurd rfl hahead
  | cons c ahead =>
    rw [List.reverse_cons, List.append_assoc]
    rfl

theorem cells_facing_right (hahead : ahead ≠ []) : (facing .right behind ahead).cells = behind.reverse ++ ahead := by
  cases ahead with
  | nil => exact absurd rfl hahead
  | cons c ahead => rfl

theorem apply_facing (hahead : ahead ≠ []) :
    (facing d behind (c :: ahead)).apply w d = .ok (facing d (w.getD c :: behind) ahead) := by
  cases ahead with
  | nil => exact absurd rfl hahead
  | cons c' ahead => cases d <;> rfl

theorem apply_opposite (hbehind : behind ≠ []) : (facing d behind (c :: ahead)).apply w d.opposite =
    .ok (facing d.opposite (w.getD c :: ahead) behind) := by
  cases behind with
  | nil => exact absurd rfl hbehind
  | cons c' behind => cases d <;> rfl

theorem apply_facing_last :
    (facing .right behind [c]).apply w .right = .error (.tapeOverflow (behind.length + 1)) := rfl

end Tape

/-! ### Moves of a table -/

/-- The table makes `k` moves from one configuration to the other. -/
inductive Table.Leads (t : Table) : Configuration → Nat → Configuration → Prop
  | refl (c : Configuration) : Leads t c 0 c
  | move {c c' c'' : Configuration} {k : Nat} : t.move c = .ok c' → Leads t c' k c'' → Leads t c (k + 1) c''

/-- Passing over cells in the direction, the table goes from state to state and writes other cells. -/
inductive Table.Scans (t : Table) (d : Direction) : State → List Char → List Char → State → Prop
  | nil (s : State) : Scans t d s [] [] s
  | cons {s s' s'' : State} {c : Char} {w : Option Char} {cs ws : List Char} : ¬s.isFinal →
      t.find? s.id c = some ⟨c, w, d, s'⟩ → Scans t d s' cs ws s'' → Scans t d s (c :: cs) (w.getD c :: ws) s''

namespace Table

variable {t : Table} {c c' c'' : Configuration} {s s' : State} {j k : Nat} {x : Char} {w : Option Char}
  {d : Direction} {behind ahead cs ws : List Char} {tape : Tape}

theorem move_of_find (hfinal : ¬s.isFinal) (hfind : t.find? s.id tape.current = some ⟨x, w, d, s'⟩) {tape' : Tape}
    (happly : tape.apply w d = .ok tape') : t.move ⟨s, tape⟩ = .ok ⟨s', tape'⟩ :=
  move_eq_ok_iff.mpr ⟨hfinal, _, hfind, happly, rfl⟩

theorem move_of_find_none (hfinal : ¬s.isFinal) (hfind : t.find? s.id tape.current = none) :
    t.move ⟨s, tape⟩ = .error (.failed (.noMatchingRule s.id tape.current)) :=
  move_eq_error_iff.mpr (.noMatchingRule hfinal hfind)

theorem move_of_overflow (hfinal : ¬s.isFinal) (hfind : t.find? s.id x = some ⟨x, w, .right, s'⟩) :
    t.move ⟨s, .facing .right behind [x]⟩ = .error (.failed (.tapeOverflow (behind.length + 1))) :=
  move_of_error hfinal hfind Tape.apply_facing_last

namespace Leads

theorem trans (h : t.Leads c j c') (h' : t.Leads c' k c'') : t.Leads c (j + k) c'' := by
  induction h with
  | refl c => rwa [Nat.zero_add]
  | move hmove _ ih =>
    rw [Nat.add_right_comm]
    exact .move hmove (ih h')

theorem concat (h : t.Leads c k c') (hmove : t.move c' = .ok c'') : t.Leads c (k + 1) c'' :=
  h.trans (.move hmove (.refl c''))

end Leads

namespace Scans

/-- A sweep moves once for every cell and leaves what it has written behind the head. -/
theorem leads (h : t.Scans d s cs ws s') (behind : List Char) (hahead : ahead ≠ []) :
    t.Leads ⟨s, .facing d behind (cs ++ ahead)⟩ cs.length ⟨s', .facing d (ws.reverse ++ behind) ahead⟩ := by
  induction h generalizing behind with
  | nil s => exact .refl _
  | @cons s s' s'' c w cs ws hfinal hfind _ ih =>
    have hmove : t.move ⟨s, .facing d behind (c :: (cs ++ ahead))⟩ =
        .ok ⟨s', .facing d (w.getD c :: behind) (cs ++ ahead)⟩ :=
      move_of_find hfinal (by rwa [Tape.current_facing]) (Tape.apply_facing (by simp [hahead]))
    rw [List.reverse_cons, List.append_assoc]
    exact .move hmove (ih (w.getD c :: behind))

theorem exists_last (h : t.Scans d s (cs ++ [x]) ws s') : ∃ ws' s₁ w, t.Scans d s cs ws' s₁ ∧ ¬s₁.isFinal ∧
    t.find? s₁.id x = some ⟨x, w, d, s'⟩ ∧ ws = ws' ++ [w.getD x] := by
  induction cs generalizing s ws with
  | nil =>
    cases h with
    | cons hfinal hfind hrest =>
      cases hrest
      exact ⟨[], s, _, .nil s, hfinal, hfind, rfl⟩
  | cons c cs ih =>
    cases h with
    | cons hfinal hfind hrest =>
      obtain ⟨ws', s₁, w, hscans, hlast⟩ := ih hrest
      exact ⟨_, s₁, w, .cons hfinal hfind hscans, hlast.1, hlast.2.1, congrArg _ hlast.2.2⟩

/-- A sweep to the right over all cells of a tape, which leaves them as they are, runs into the end of the tape. -/
theorem overflows (h : t.Scans .right s cs cs s') (hne : cs ≠ []) : ∃ c, t.Leads ⟨s, .ofCells cs⟩ (cs.length - 1) c ∧
    t.move c = .error (.failed (.tapeOverflow cs.length)) ∧ c.tape.cells = cs := by
  obtain ⟨front, x, rfl⟩ := (List.eq_nil_or_concat cs).resolve_left hne
  rw [List.concat_eq_append] at h ⊢
  obtain ⟨ws, s₁, w, hscans, hfinal, hfind, hws⟩ := h.exists_last
  obtain ⟨rfl, -⟩ := List.append_inj' hws rfl
  have hleads := hscans.leads [] (List.cons_ne_nil x [])
  have hoverflow : t.move ⟨s₁, .facing .right front.reverse [x]⟩ =
      .error (.failed (.tapeOverflow (front.reverse.length + 1))) := move_of_overflow hfinal hfind
  rw [List.append_nil] at hleads
  rw [List.length_reverse] at hoverflow
  refine ⟨⟨s₁, .facing .right front.reverse [x]⟩, ?_, ?_, ?_⟩
  · rw [Tape.ofCells_eq_facing, List.length_append, List.length_singleton, Nat.add_sub_cancel]
    exact hleads
  · rw [List.length_append]
    exact hoverflow
  · rw [Tape.cells_facing_right (List.cons_ne_nil x []), List.reverse_reverse]

end Scans
end Table

/-! ### Runs -/

namespace Machine

variable {t : Table} {m : Machine} {c c' : Configuration} {s : State} {halt : Halt} {k limit : Nat}

/-- The run up to the limit moves `k` times, to the configuration, and comes to the halt there. -/
structure RunsTo (m : Machine) (limit : Nat) (halt : Halt) (k : Nat) (c : Configuration) : Prop where
  halt : (m.run limit).1 = halt
  stepCount : (m.run limit).2.stepCount = m.stepCount + k
  configuration : (m.run limit).2.configuration = c

theorem RunsTo.tape (h : m.RunsTo limit halt k c) : (m.run limit).2.tape = c.tape :=
  congrArg Configuration.tape h.configuration

theorem exists_moves_of_leads (h : t.Leads c k c') (htable : m.table = t) (hc : m.configuration = c)
    (hm : m.isHalted = false) : ∃ seen n, Moves m seen n ∧ seen.length = k ∧ n.configuration = c' ∧
      n.isHalted = false := by
  induction h generalizing m with
  | refl c => exact ⟨[], m, .refl m, rfl, hc, hm⟩
  | @move c c₁ c' k hmove _ ih =>
    have hstep : m.step = (.moved, m.moveTo c₁) :=
      (settled_of_isHalted hm).step_of_ok (by rw [htable, hc, hmove])
    obtain ⟨seen, n, hmoves, hlength, hn⟩ := ih (m := m.moveTo c₁) htable rfl rfl
    exact ⟨_, n, .move hstep hmoves, congrArg (· + 1) hlength, hn⟩

/-- A run makes the moves of the table and comes to their end within the limit. At the limit itself it still sees that
    a state is final, but no other halt. -/
theorem runsTo_of_leads (hm : m.isHalted = false) (h : m.table.Leads m.configuration k c)
    (hhalt : m.table.move c = .error halt) (hlimit : k < limit ∨ k = limit ∧ c.state.isFinal) :
    m.RunsTo limit halt k c := by
  obtain ⟨seen, n, hmoves, rfl, rfl, hn⟩ := exists_moves_of_leads h rfl rfl hm
  have hpassage := hmoves.passage
  have hstep : n.step = (.halted halt, { n with status := .halted halt }) :=
    (settled_of_isHalted hn).step_of_error (by rw [hpassage.table, hhalt])
  have hrun : m.run limit = (halt, { n with status := .halted halt }) := by
    rcases hlimit with hlt | ⟨rfl, hfinal⟩
    · exact Ends.run ⟨n, hmoves, hstep⟩ hlt
    · have hend : (n.isHalted || n.state.isFinal) = true := Bool.or_eq_true_iff.mpr (Or.inr hfinal)
      have hrest := hmoves.runWithin_add seen.length 0
      rw [Nat.add_zero] at hrest
      rw [Machine.run, hrest, Machine.runWithin, if_pos hend, hstep]
  exact ⟨congrArg Prod.fst hrun, by rw [hrun]; exact hpassage.stepCount, by rw [hrun]⟩

theorem runsTo_accepted {tape : Tape} (h : t.Leads ⟨s, tape⟩ k c) (hfinal : c.state.isFinal) (hlimit : k ≤ limit) :
    (inState t tape s).RunsTo limit .accepted k c := by
  have hhalt : t.move c = .error .accepted := Table.move_eq_error_iff.mpr (.accepted hfinal)
  refine runsTo_of_leads rfl h hhalt ?_
  rcases Nat.lt_or_eq_of_le hlimit with hlt | heq
  · exact Or.inl hlt
  · exact Or.inr ⟨heq, hfinal⟩

end Machine
end Tapeworks
