import Tapeworks.Tape

/-! Tapes as rows of cells. A tape is its cells together with the place of its head, which is always one of them.
    Placing the head changes no cell. A rule that is applied changes the cell under the head alone and moves the head by
    one; it fails exactly where that would take the head off the row. -/

namespace Tapeworks

/-- Moving in the direction takes a head from the cell `i` to the cell `j`. -/
def Direction.Shifts : Direction → Nat → Nat → Prop
  | .left, i, j => j + 1 = i
  | .right, i, j => j = i + 1

theorem Direction.Shifts.unique {d : Direction} {i j j' : Nat} (h : d.Shifts i j) (h' : d.Shifts i j') : j = j' := by
  cases d with
  | left => exact Nat.succ.inj (h.trans h'.symm)
  | right => exact h.trans h'.symm

namespace Tape

variable {t t' : Tape} {i : Nat} {w : Option Char} {d : Direction} {e : RunError}

/-! ### Cells -/

theorem length_cells (t : Tape) : t.cells.length = t.length := by
  simp only [cells, length, List.length_append, List.length_reverse, List.length_cons]
  omega

theorem head_lt (t : Tape) : t.head < t.cells.length := by
  rw [length_cells, head, length]
  omega

theorem getElem?_head (t : Tape) : t.cells[t.head]? = some t.current := by
  rw [cells, head, List.getElem?_append_right (by simp), List.length_reverse, Nat.sub_self]
  rfl

/-- A tape is known from its cells and its head. -/
theorem eq_of_cells (hcells : t.cells = t'.cells) (hhead : t.head = t'.head) : t = t' := by
  have hlength : t.before.reverse.length = t'.before.reverse.length := by
    rw [List.length_reverse, List.length_reverse]
    exact hhead
  obtain ⟨hbefore, hrest⟩ := List.append_inj hcells hlength
  obtain ⟨hcurrent, hafter⟩ := List.cons.inj hrest
  exact (Tape.mk.injEq ..).mpr ⟨List.reverse_inj.mp hbefore, hcurrent, hafter⟩

theorem cells_ofCells {cs : List Char} (h : cs ≠ []) : (ofCells cs).cells = cs := by
  cases cs with
  | nil => exact absurd rfl h
  | cons c cs => rfl

theorem head_ofCells (cs : List Char) : (ofCells cs).head = 0 := by
  cases cs <;> rfl

theorem cells_ofCells_cells (t : Tape) : (ofCells t.cells).cells = t.cells :=
  cells_ofCells (List.ne_nil_of_length_pos (Nat.zero_lt_of_lt t.head_lt))

theorem ofInput_of_le {input : List Char} {capacity : Nat} (h : capacity ≤ input.length) :
    ofInput input capacity = ofCells input := by
  rw [ofInput, Nat.sub_eq_zero_of_le h, List.replicate_zero, List.append_nil]

/-- To write what is under the head changes nothing. -/
theorem set_head_current (t : Tape) : t.cells.set t.head t.current = t.cells := by
  simp [cells, head]

/-! ### Placing the head -/

theorem setHead_of_lt (h : i < t.cells.length) : ∃ t', t.setHead i = .ok t' ∧ t'.cells = t.cells ∧ t'.head = i := by
  cases hdrop : t.cells.drop i with
  | nil => exact absurd (List.drop_eq_nil_iff.mp hdrop) (Nat.not_le.mpr h)
  | cons c after =>
    refine ⟨⟨(t.cells.take i).reverse, c, after⟩, ?_, ?_, ?_⟩
    · rw [setHead, hdrop]
    · rw [cells, List.reverse_reverse, ← hdrop, List.take_append_drop]
    · rw [head, List.length_reverse, List.length_take, Nat.min_eq_left (Nat.le_of_lt h)]

theorem setHead_of_le (h : t.cells.length ≤ i) : t.setHead i = .error (.tapeOverflow t.cells.length) := by
  rw [setHead, List.drop_eq_nil_of_le h, length_cells]

/-- Every tape is a row of cells with the head placed on one of them. -/
theorem setHead_ofCells_cells (t : Tape) : (ofCells t.cells).setHead t.head = .ok t := by
  have hinside : t.head < (ofCells t.cells).cells.length := t.cells_ofCells_cells.symm ▸ t.head_lt
  obtain ⟨t', hset, hcells, hhead⟩ := setHead_of_lt hinside
  rw [hset, eq_of_cells (hcells.trans t.cells_ofCells_cells) hhead]

/-! ### Writing cells -/

theorem reverse_set {α : Type} {l : List α} (h : i < l.length) (a : α) :
    (l.set (l.length - 1 - i) a).reverse = l.reverse.set i a := by
  refine List.ext_getElem (by simp) fun j hj hj' => ?_
  have hplace : l.length - 1 - i = l.length - 1 - j ↔ i = j := by
    rw [List.length_reverse, List.length_set] at hj
    omega
  simp only [List.getElem_reverse, List.getElem_set, List.length_set, hplace]

theorem setSymbol_of_lt (h : i < t.cells.length) (c : Char) :
    ∃ t', t.setSymbol i c = .ok t' ∧ t'.cells = t.cells.set i c ∧ t'.head = t.head := by
  obtain ⟨before, current, after⟩ := t
  rw [length_cells] at h
  unfold setSymbol
  rcases Nat.lt_trichotomy i before.length with hlt | rfl | hgt
  · refine ⟨⟨before.set (before.length - 1 - i) c, current, after⟩, if_pos hlt, ?_, List.length_set⟩
    rw [cells, cells, List.set_append_left i c (by rwa [List.length_reverse]), reverse_set hlt]
  · refine ⟨⟨before, c, after⟩, ?_, by simp [cells], rfl⟩
    exact (if_neg (Nat.lt_irrefl _)).trans (if_pos rfl)
  · refine ⟨⟨before, current, after.set (i - before.length - 1) c⟩, ?_, ?_, rfl⟩
    · exact (if_neg (Nat.not_lt_of_lt hgt)).trans ((if_neg (Nat.ne_of_gt hgt)).trans (if_pos h))
    · obtain ⟨k, rfl⟩ := Nat.exists_eq_add_of_lt hgt
      simp [cells, Nat.add_assoc]

theorem setSymbol_of_le (h : t.cells.length ≤ i) (c : Char) :
    t.setSymbol i c = .error (.tapeOverflow t.cells.length) := by
  have hhead := t.head_lt
  rw [length_cells] at h hhead ⊢
  rw [setSymbol, if_neg (by omega), if_neg (by omega), if_neg (by omega)]

/-! ### Applying rules -/

theorem apply_eq_error_iff : t.apply w d = .error e ↔
    (d = .left ∧ t.head = 0 ∧ e = .tapeUnderflow) ∨
      (d = .right ∧ t.head + 1 = t.cells.length ∧ e = .tapeOverflow t.cells.length) := by
  rw [length_cells]
  obtain ⟨before, current, after⟩ := t
  cases d with
  | left => cases before <;> simp [apply, head, eq_comm]
  | right => cases after <;> simp [apply, head, length, eq_comm]

theorem apply_spec (h : t.apply w d = .ok t') :
    t'.cells = t.cells.set t.head (w.getD t.current) ∧ d.Shifts t.head t'.head := by
  obtain ⟨before, current, after⟩ := t
  cases d with
  | left =>
    cases before with
    | nil => cases h
    | cons c before =>
      cases h
      exact ⟨by simp [cells, head], rfl⟩
  | right =>
    cases after with
    | nil => cases h
    | cons c after =>
      cases h
      exact ⟨by simp [cells, head], rfl⟩

/-- The cell under the head takes the symbol, if there is one, no other cell changes and the head moves by one. -/
theorem apply_eq_ok_iff : t.apply w d = .ok t' ↔
    t'.cells = t.cells.set t.head (w.getD t.current) ∧ d.Shifts t.head t'.head := by
  refine ⟨apply_spec, fun ⟨hcells, hshift⟩ => ?_⟩
  have hlt : t'.head < t.cells.length := by
    have hlength : t'.cells.length = t.cells.length := by rw [hcells, List.length_set]
    exact hlength ▸ t'.head_lt
  cases happly : t.apply w d with
  | error e =>
    -- Both failures would need the head to leave the row, where the head of `t'` stands.
    rcases apply_eq_error_iff.mp happly with ⟨rfl, hfirst, -⟩ | ⟨rfl, hlast, -⟩
    · exact absurd (hshift.trans hfirst) (Nat.succ_ne_zero _)
    · rw [show t'.head = t.head + 1 from hshift, hlast] at hlt
      exact absurd hlt (Nat.lt_irrefl _)
  | ok t'' =>
    obtain ⟨hcells'', hshift''⟩ := apply_spec happly
    rw [eq_of_cells (hcells''.trans hcells.symm) (hshift''.unique hshift)]

end Tape
end Tapeworks
