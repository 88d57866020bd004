import Tapeworks.Proofs.Machine.Textbook

/-! Longer tapes. A machine on a tape with further cells at the right end does what it does without them, as long as it
    is not at the end that it would step over without them. So a run that does not come to this end is the same on both
    tapes, and one that does leaves the machine on the longer tape in the same place, from where it can go on. -/

namespace Tapeworks

/-! ### Further cells -/

namespace Tape

variable {t t' : Tape} {extra : List Char} {w : Option Char} {d : Direction}

/-- The tape with further cells at the right end. -/
def extend (t : Tape) (extra : List Char) : Tape :=
  { t with after := t.after ++ extra }

theorem cells_extend (t : Tape) (extra : List Char) : (t.extend extra).cells = t.cells ++ extra := by
  simp [Tape.cells, extend]

theorem text_extend (t : Tape) (extra : List Char) : (t.extend extra).text = t.text ++ String.ofList extra := by
  rw [text, cells_extend, String.ofList_append, text]

theorem eq_extend (hcells : t'.cells = t.cells ++ extra) (hhead : t'.head = t.head) : t' = t.extend extra :=
  eq_of_cells (hcells.trans (t.cells_extend extra).symm) hhead

theorem apply_extend (h : t.apply w d = .ok t') : (t.extend extra).apply w d = .ok (t'.extend extra) := by
  obtain ⟨before, current, after⟩ := t
  cases d with
  | left =>
    cases before with
    | nil => cases h
    | cons c before =>
      cases h
      rfl
  | right =>
    cases after with
    | nil => cases h
    | cons c after =>
      cases h
      rfl

end Tape

def Configuration.extend (c : Configuration) (extra : List Char) : Configuration :=
  ⟨c.state, c.tape.extend extra⟩

/-- The snapshot as it shows the tape with the further cells. -/
def Snapshot.extend (s : Snapshot) (extra : List Char) : Snapshot :=
  { s with tape := s.tape ++ String.ofList extra }

/-- The halt is that the head would leave the right end of the tape. -/
def Halt.isOverflow : Halt → Bool
  | .failed (.tapeOverflow _) => true
  | _ => false

namespace Table

variable {t : Table} {c c' : Configuration} {halt : Halt} {extra : List Char}

theorem move_extend (h : t.move c = .ok c') : t.move (c.extend extra) = .ok (c'.extend extra) := by
  obtain ⟨hfinal, r, hfind, happly, htarget⟩ := move_eq_ok_iff.mp h
  exact move_eq_ok_iff.mpr ⟨hfinal, r, hfind, Tape.apply_extend happly, htarget⟩

/-- The only halt that depends on the right end is the one there. -/
theorem move_extend_of_error (h : t.move c = .error halt) (hhalt : ¬halt.isOverflow) :
    t.move (c.extend extra) = .error halt := by
  rw [move_eq_error_iff] at h ⊢
  cases h with
  | accepted hfinal => exact .accepted hfinal
  | noMatchingRule hfinal hfind => exact .noMatchingRule (c := c.extend extra) hfinal hfind
  | tapeUnderflow hfinal hfind hleft hhead => exact .tapeUnderflow (c := c.extend extra) hfinal hfind hleft hhead
  | tapeOverflow hfinal hfind hright hhead => exact absurd rfl hhalt

theorem length_cells_move (h : t.move c = .ok c') : c'.tape.cells.length = c.tape.cells.length := by
  obtain ⟨-, r, -, happly, -⟩ := move_eq_ok_iff.mp h
  rw [(Tape.apply_spec happly).1, List.length_set]

end Table

namespace Machine

variable {t : Table} {tape tape' : Tape} {id : String} {extra : List Char} {m m' n : Machine} {halt : Halt}
  {seen : List Snapshot} {limit budget : Nat}

/-! ### Steps on the longer tape -/

def extend (m : Machine) (extra : List Char) : Machine :=
  { m with configuration := m.configuration.extend extra, history := m.history.map (·.extend extra) }

theorem snapshot_extend (m : Machine) (extra : List Char) : (m.extend extra).snapshot = m.snapshot.extend extra :=
  congrArg (Snapshot.mk m.stepCount m.state.id · m.tape.head) (m.tape.text_extend extra)

theorem kept_map (limit : Option Nat) (f : Snapshot → Snapshot) (history : List Snapshot) :
    kept limit (history.map f) = (kept limit history).map f := by
  cases limit with
  | none => rfl
  | some n => exact List.map_take.symm

theorem moveTo_extend (m : Machine) (c : Configuration) (extra : List Char) :
    (m.extend extra).moveTo (c.extend extra) = (m.moveTo c).extend extra := by
  have hshown := snapshot_extend { m with configuration := c, status := .running, stepCount := m.stepCount + 1 } extra
  have hkept : ∀ s : Snapshot, kept m.traceLimit (s.extend extra :: m.history.map (·.extend extra)) =
      (kept m.traceLimit (s :: m.history)).map (·.extend extra) := fun s => by
    rw [← kept_map, List.map_cons]
  refine (Machine.mk.injEq ..).mpr ⟨rfl, rfl, rfl, rfl, ?_, rfl⟩
  exact (congrArg (fun s : Snapshot => kept m.traceLimit (s :: m.history.map (·.extend extra))) hshown).trans (hkept _)

theorem step_extend_of_moved (h : m.step = (.moved, n)) : (m.extend extra).step = (.moved, n.extend extra) := by
  rcases m.step_cases with ⟨halt, -, hs⟩ | ⟨-, halt, -, hs⟩ | ⟨hrunning, c, hmove, hs⟩
  · rw [hs] at h
    cases h
  · rw [hs] at h
    cases h
  · rw [hs] at h
    cases h
    have hsettled : (m.extend extra).Settled := settled_of_isHalted hrunning
    rw [hsettled.step_of_ok (Table.move_extend hmove), moveTo_extend]

theorem step_extend_of_halted (h : m.step = (.halted halt, n)) (hhalt : ¬halt.isOverflow) :
    (m.extend extra).step = (.halted halt, n.extend extra) := by
  rcases m.step_cases with ⟨halt', hstatus, hs⟩ | ⟨hrunning, halt', hmove, hs⟩ | ⟨-, c, -, hs⟩
  · rw [hs] at h
    cases h
    exact step_of_halted hstatus
  · rw [hs] at h
    cases h
    have hsettled : (m.extend extra).Settled := settled_of_isHalted hrunning
    exact hsettled.step_of_error (Table.move_extend_of_error hmove hhalt)
  · rw [hs] at h
    cases h

/-! ### Runs on the longer tape -/

theorem Moves.extend (h : Moves m seen n) (extra : List Char) :
    Moves (m.extend extra) (seen.map (·.extend extra)) (n.extend extra) := by
  induction h with
  | refl m => exact .refl _
  | @move m n m' seen hs _ ih =>
    rw [List.map_cons, ← snapshot_extend]
    exact .move (step_extend_of_moved hs) ih

/-- A run that does not come to the right end is the same run with further cells there. -/
theorem runWithin_extend (h : runWithin limit budget m = (halt, n)) (hhalt : ¬halt.isOverflow) :
    runWithin limit budget (m.extend extra) = (halt, n.extend extra) := by
  induction budget generalizing m with
  | zero =>
    have hover : ((m.extend extra).isHalted || (m.extend extra).state.isFinal) = (m.isHalted || m.state.isFinal) := rfl
    unfold runWithin at h ⊢
    rw [hover]
    split at h
    · rename_i hend
      rw [if_pos hend]
      rcases halts_or_moves m with ⟨halt', n', hs⟩ | ⟨n', hs⟩
      · rw [hs] at h
        cases h
        rw [step_extend_of_halted hs hhalt]
      · rw [hs] at h
        cases h
        rw [step_extend_of_moved hs]
    · rename_i hend
      rw [if_neg hend]
      cases h
      rfl
  | succ budget ih =>
    rcases halts_or_moves m with ⟨halt', n', hs⟩ | ⟨n', hs⟩
    · rw [runWithin_of_halted hs] at h
      cases h
      exact runWithin_of_halted (step_extend_of_halted hs hhalt) limit budget
    · rw [runWithin_of_moved hs] at h
      rw [runWithin_of_moved (step_extend_of_moved hs)]
      exact ih h

theorem Moves.after_steps (h : Moves m seen n) : m.after (List.replicate seen.length .step) = n := by
  induction h with
  | refl m => rfl
  | @move m n m' seen hs _ ih =>
    have hfirst : (m.perform .step).2 = n := congrArg Prod.snd hs
    rw [List.length_cons, List.replicate_succ, Machine.after, List.foldl_cons, hfirst]
    exact ih

theorem Moves.length_cells (h : Moves m seen n) : n.tape.cells.length = m.tape.cells.length := by
  induction h with
  | refl m => rfl
  | move hs _ ih =>
    obtain ⟨c, hmove, rfl⟩ := exists_move hs
    exact ih.trans (Table.length_cells_move hmove)

/-- Where a run comes to the right end, the head is on the last cell. -/
theorem Settled.head_of_overflow {capacity : Nat} (h : n.Settled)
    (hs : n.step = (.halted (.failed (.tapeOverflow capacity)), m')) :
    n.tape.head + 1 = n.tape.cells.length ∧ capacity = n.tape.cells.length := by
  have hmove := Table.move_eq_error_iff.mp (h.step_eq_halted_iff.mp (congrArg Prod.fst hs))
  cases hmove with
  | tapeOverflow hfinal hfind hright hhead => exact ⟨hhead, rfl⟩

/-! ### One run on both tapes -/

/-- The machine `m'` is where `m` is and has come there by the same steps, on a tape with further cells at the end. -/
structure Overhangs (extra : List Char) (m m' : Machine) : Prop where
  state : m'.state = m.state
  head : m'.tape.head = m.tape.head
  cells : m'.tape.cells = m.tape.cells ++ extra
  stepCount : m'.stepCount = m.stepCount
  trace : m'.trace = m.trace.map (·.extend extra)

theorem overhangs_extend (m : Machine) (extra : List Char) : Overhangs extra m (m.extend extra) where
  state := rfl
  head := rfl
  cells := m.tape.cells_extend extra
  stepCount := rfl
  trace := List.map_reverse.symm

/-- A halt moves nothing. -/
theorem Overhangs.withStatus (h : Overhangs extra m m') (status : Status) : Overhangs extra { m with status } m' :=
  ⟨h.state, h.head, h.cells, h.stepCount, h.trace⟩

theorem Moves.overhangs_after (h : Moves m seen n) (extra : List Char) :
    Overhangs extra n ((m.extend extra).after (List.replicate seen.length .step)) := by
  have hsteps := (h.extend extra).after_steps
  rw [List.length_map] at hsteps
  rw [hsteps]
  exact overhangs_extend n extra

/-- How `m'` runs compared with `m`, which is on a shorter tape: alike, unless `m` comes to the right end. Then the same
    number of steps takes `m'` to the same place, with the head on the last cell of the shorter tape. -/
structure Prolongs (extra : List Char) (limit : Nat) (m m' : Machine) : Prop where
  alike : ¬(m.run limit).1.isOverflow → (m'.run limit).1 = (m.run limit).1 ∧
    (m'.run limit).2.status = (m.run limit).2.status ∧ Overhangs extra (m.run limit).2 (m'.run limit).2
  beyond : ∀ capacity, (m.run limit).1 = .failed (.tapeOverflow capacity) → capacity = m.tape.cells.length ∧
    Overhangs extra (m.run limit).2 (m'.after (List.replicate (m.run limit).2.stepCount .step)) ∧
      (m'.after (List.replicate (m.run limit).2.stepCount .step)).tape.head + 1 = m.tape.cells.length

theorem run_extend (m : Machine) (extra : List Char) (h : ¬(m.run limit).1.isOverflow) :
    (m.extend extra).run limit = ((m.run limit).1, (m.run limit).2.extend extra) :=
  runWithin_extend rfl h

theorem prolongs_extend (hstatus : m.status = .idle) (hcount : m.stepCount = 0) (extra : List Char) (limit : Nat) :
    Prolongs extra limit m (m.extend extra) where
  alike h := by
    rw [m.run_extend extra h]
    exact ⟨rfl, rfl, overhangs_extend _ extra⟩
  beyond capacity h := by
    have hrun : m.run limit = (.failed (.tapeOverflow capacity), (m.run limit).2) := Prod.ext h rfl
    obtain ⟨seen, n, hmoves, hs⟩ := exists_ends_of_runWithin hrun nofun
    have hsettled : n.Settled := hmoves.keeps (fun _ hn => hn.step) (settled_of_idle hstatus)
    obtain ⟨hhead, hcapacity⟩ := hsettled.head_of_overflow hs
    have hleft : (m.run limit).2 = { n with status := .halted (.failed (.tapeOverflow capacity)) } :=
      step_snd_of_halted hs
    have hsteps : (m.run limit).2.stepCount = seen.length := by
      rw [hleft, ← Nat.zero_add seen.length, ← hcount]
      exact hmoves.passage.stepCount
    have hthere := hmoves.overhangs_after extra
    rw [hsteps, hleft]
    refine ⟨hcapacity.trans hmoves.length_cells, hthere.withStatus _, ?_⟩
    rw [hthere.head]
    exact hhead.trans hmoves.length_cells

/-- More tape changes no run that does not come to the right end. -/
theorem exists_prolongs (h : startingAt t tape id = .ok m) (hcells : tape'.cells = tape.cells ++ extra)
    (hhead : tape'.head = tape.head) :
    ∃ m', startingAt t tape' id = .ok m' ∧ ∀ limit, Prolongs extra limit m m' := by
  obtain ⟨s, hs, rfl⟩ := startingAt_eq_ok_iff.mp h
  obtain rfl := Tape.eq_extend hcells hhead
  exact ⟨inState t (tape.extend extra) s, startingAt_eq_ok_iff.mpr ⟨s, hs, rfl⟩, fun limit =>
    (prolongs_extend rfl rfl extra limit : Prolongs extra limit (inState t tape s) _)⟩

/-- The walker on two cells, which it leaves at the right end unless it gives up before, and with room for two more. -/
theorem exists_prolongs_walker : ∃ m m',
    startingAt (compile walker).table (.ofInput ['a', 'a'] 2) "1" = .ok m ∧
      (m.run 1).1 = .failed (.stepLimitExceeded 1) ∧ (m.run 9).1 = .failed (.tapeOverflow 2) ∧
        startingAt (compile walker).table (.ofInput ['a', 'a'] 4) "1" = .ok m' ∧
          ∀ limit, Prolongs ['_', '_'] limit m m' := by
  have hm : startingAt (compile walker).table (.ofInput ['a', 'a'] 2) "1" =
      .ok (inState (compile walker).table ⟨[], 'a', ['a']⟩ { id := "1", isStart := true }) := rfl
  have hlonger : ∃ m', startingAt (compile walker).table (.ofInput ['a', 'a'] 4) "1" = .ok m' ∧
      ∀ limit, Prolongs ['_', '_'] limit (inState (compile walker).table ⟨[], 'a', ['a']⟩ _) m' :=
    exists_prolongs hm rfl rfl
  obtain ⟨m', hm', hruns⟩ := hlonger
  exact ⟨_, m', hm, by decide, by decide, hm', hruns⟩

end Machine
end Tapeworks
