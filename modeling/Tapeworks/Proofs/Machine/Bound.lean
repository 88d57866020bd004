import Mathlib.Data.Fintype.BigOperators
import Mathlib.Data.Fintype.Pi
import Mathlib.Data.List.GetD
import Tapeworks.Proofs.Machine.Coherent

/-! How long a run can be. A run that ends passes through no configuration twice, and along a run the length of the tape
    and the symbols that it can hold stay the same. So a run that ends makes fewer moves than there are such
    configurations, and the run that is given that many turns is the whole run. -/

namespace Tapeworks

namespace Table

variable {t : Table} {c c' : Configuration} {halt : Halt} {k length : Nat} {symbols : List Char}

/-! ### No configuration twice -/

theorem injOn_of_halts {c : Nat → Configuration} (hmoves : ∀ i < k, t.move (c i) = .ok (c (i + 1)))
    (hhalt : t.move (c k) = .error halt) : Set.InjOn c (Finset.range (k + 1)) := by
  -- From a configuration that comes twice the run would go on as it did, past the one that halts.
  have hne : ∀ i j, i < j → j ≤ k → c i ≠ c j := by
    intro i j hij hj heq
    have hshift : ∀ n, j + n ≤ k → c (i + n) = c (j + n) := by
      intro n
      induction n with
      | zero => exact fun _ => heq
      | succ n ih =>
        intro hn
        have hi := hmoves (i + n) (by omega)
        rw [ih (by omega), hmoves (j + n) (by omega)] at hi
        exact (Except.ok.inj hi).symm
    have hlast := hmoves (i + (k - j)) (by omega)
    rw [hshift (k - j) (by omega), Nat.add_sub_cancel' hj, hhalt] at hlast
    cases hlast
  intro i hi j hj heq
  rw [Finset.coe_range, Set.mem_Iio] at hi hj
  rcases Nat.lt_trichotomy i j with hij | hij | hij
  · exact absurd heq (hne i j hij (Nat.le_of_lt_succ hj))
  · exact hij
  · exact absurd heq.symm (hne j i hij (Nat.le_of_lt_succ hi))

/-! ### Configurations that can come -/

/-- The configuration is in a state of the table, on a tape of the length that holds some of the symbols. -/
structure Confined (t : Table) (length : Nat) (symbols : List Char) (c : Configuration) : Prop where
  state : c.state ∈ t.states
  length : c.tape.cells.length = length
  symbols : ∀ x ∈ c.tape.cells, x ∈ symbols

/-- Every symbol that a rule writes is one of the symbols. -/
def WritesIn (t : Table) (symbols : List Char) : Prop :=
  ∀ id, ∀ r ∈ t.transitions id, ∀ w, r.write = some w → w ∈ symbols

theorem Confined.move (h : t.Confined length symbols c) (ht : t.Closed) (hwrites : t.WritesIn symbols)
    (hmove : t.move c = .ok c') : t.Confined length symbols c' := by
  obtain ⟨-, r, hfind, happly, htarget⟩ := move_eq_ok_iff.mp hmove
  obtain ⟨hcells, -⟩ := Tape.apply_spec happly
  refine ⟨ht.move hmove, ?_, fun x hx => ?_⟩
  · rw [hcells, List.length_set]
    exact h.length
  · rw [hcells] at hx
    rcases List.mem_or_eq_of_mem_set hx with hx | rfl
    · exact h.symbols x hx
    · cases hwrite : r.write with
      | some w => exact hwrites c.state.id r (List.mem_of_find?_eq_some hfind) w hwrite
      | none => exact h.symbols _ (List.mem_of_getElem? c.tape.getElem?_head)

theorem confined_of_moves {c : Nat → Configuration} (h : t.Confined length symbols (c 0)) (ht : t.Closed)
    (hwrites : t.WritesIn symbols) (hmoves : ∀ i < k, t.move (c i) = .ok (c (i + 1))) :
    ∀ i ≤ k, t.Confined length symbols (c i) := by
  intro i
  induction i with
  | zero => exact fun _ => h
  | succ i ih => exact fun hi => (ih (Nat.le_of_succ_le hi)).move ht hwrites (hmoves i hi)

/-- The state, the head and the cells of a configuration. -/
def signature (length : Nat) (c : Configuration) : State × Nat × (Fin length → Char) :=
  (c.state, c.tape.head, fun i => c.tape.cells.getD i blank)

theorem Confined.eq_of_signature (h : t.Confined length symbols c) (h' : t.Confined length symbols c')
    (heq : signature length c = signature length c') : c = c' := by
  obtain ⟨hstate, hhead, hcells⟩ : c.state = c'.state ∧ c.tape.head = c'.tape.head ∧
      (fun i : Fin length => c.tape.cells.getD i blank) = fun i : Fin length => c'.tape.cells.getD i blank := by
    simpa only [signature, Prod.mk.injEq] using heq
  have htape : c.tape = c'.tape := by
    refine Tape.eq_of_cells (List.ext_getElem (h.length.trans h'.length.symm) fun i hi hi' => ?_) hhead
    have hcell := congrFun hcells ⟨i, h.length ▸ hi⟩
    rwa [List.getD_eq_getElem _ _ hi, List.getD_eq_getElem _ _ hi'] at hcell
  cases c
  cases c'
  cases hstate
  cases htape
  rfl

/-- All signatures: a state, a place of the head and a way to fill the cells. -/
def signatures (t : Table) (length : Nat) (symbols : List Char) : Finset (State × Nat × (Fin length → Char)) :=
  t.states.toFinset ×ˢ Finset.range length ×ˢ Fintype.piFinset fun _ => symbols.toFinset

theorem Confined.signature_mem (h : t.Confined length symbols c) :
    signature length c ∈ t.signatures length symbols := by
  refine Finset.mem_product.mpr ⟨List.mem_toFinset.mpr h.state, Finset.mem_product.mpr ⟨?_, ?_⟩⟩
  · exact Finset.mem_range.mpr (h.length ▸ c.tape.head_lt)
  · refine Fintype.mem_piFinset.mpr fun i => List.mem_toFinset.mpr (h.symbols _ ?_)
    have hi : i < c.tape.cells.length := h.length.symm ▸ i.isLt
    have hcell : c.tape.cells.getD i blank = c.tape.cells[i.val] := List.getD_eq_getElem _ blank hi
    exact (congrArg (· ∈ c.tape.cells) hcell).mpr (List.getElem_mem hi)

theorem card_signatures_le (t : Table) (length : Nat) (symbols : List Char) :
    (t.signatures length symbols).card ≤ t.rows.length * length * symbols.length ^ length := by
  have hstates : t.states.toFinset.card ≤ t.rows.length := (List.toFinset_card_le _).trans_eq (List.length_map _)
  have hsymbols : symbols.toFinset.card ^ length ≤ symbols.length ^ length :=
    Nat.pow_le_pow_left (List.toFinset_card_le _) length
  calc (t.signatures length symbols).card
    _ = t.states.toFinset.card * (length * symbols.toFinset.card ^ length) := by
      rw [signatures, Finset.card_product, Finset.card_product, Finset.card_range, Fintype.card_piFinset_const]
    _ ≤ t.rows.length * (length * symbols.length ^ length) := Nat.mul_le_mul hstates (Nat.mul_le_mul_left _ hsymbols)
    _ = t.rows.length * length * symbols.length ^ length := (Nat.mul_assoc _ _ _).symm

/-- A run that ends passes through fewer configurations than there are signatures, as no two have the same. -/
theorem lt_of_halts {c : Nat → Configuration} (h : t.Confined length symbols (c 0)) (ht : t.Closed)
    (hwrites : t.WritesIn symbols) (hmoves : ∀ i < k, t.move (c i) = .ok (c (i + 1)))
    (hhalt : t.move (c k) = .error halt) : k < t.rows.length * length * symbols.length ^ length := by
  have hconfined : ∀ i ∈ Finset.range (k + 1), t.Confined length symbols (c i) := fun i hi =>
    confined_of_moves h ht hwrites hmoves i (Nat.le_of_lt_succ (Finset.mem_range.mp hi))
  have hmaps : Set.MapsTo (fun i => signature length (c i)) (Finset.range (k + 1)) (t.signatures length symbols) :=
    fun i hi => (hconfined i hi).signature_mem
  have hinj : Set.InjOn (fun i => signature length (c i)) (Finset.range (k + 1)) := fun i hi j hj heq =>
    injOn_of_halts hmoves hhalt hi hj ((hconfined i hi).eq_of_signature (hconfined j hj) heq)
  have hcard := (Finset.card_le_card_of_injOn _ hmaps hinj).trans (t.card_signatures_le length symbols)
  rwa [Finset.card_range] at hcard

end Table

/-! ### Whole runs -/

namespace Machine

variable {t : Table} {m m' n : Machine} {halt : Halt} {seen : List Snapshot} {turns : Nat}

theorem writesIn_symbols (m : Machine) : m.table.WritesIn m.symbols := by
  intro id r hr w hw
  obtain ⟨s, hrule, -⟩ := Table.exists_state_of_mem_transitions hr
  refine List.mem_eraseDups.mpr (List.mem_append_right _ ?_)
  exact List.mem_filterMap.mpr ⟨(s, r), hrule, hw⟩

theorem Placed.confined (h : Placed t m) : m.table.Confined m.tape.length m.symbols m.configuration where
  state := h.table ▸ h.state
  length := m.tape.length_cells
  symbols _ hx := List.mem_eraseDups.mpr (List.mem_append_left _ hx)

/-- A run that ends makes fewer moves than the machine has configurations to pass through. -/
theorem Ends.length_lt (h : Ends m seen halt m') (hplaced : Placed t m) (hsettled : m.Settled) (ht : t.Closed) :
    seen.length < m.configurationBound := by
  obtain ⟨n, hmoves, hs⟩ := h
  have hpassage := hmoves.passage
  have hnsettled : n.Settled := hmoves.keeps (fun _ hn => hn.step) hsettled
  have hhalt : m.table.move (m.table.next^[seen.length] m.configuration) = .error halt := by
    rw [← hpassage.configuration, ← hpassage.table]
    exact hnsettled.step_eq_halted_iff.mp (congrArg Prod.fst hs)
  exact Table.lt_of_halts (c := fun i => m.table.next^[i] m.configuration) hplaced.confined (hplaced.table ▸ ht)
    m.writesIn_symbols hpassage.moves hhalt

end Machine
end Tapeworks
