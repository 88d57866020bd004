import Mathlib.Algebra.Group.Nat.Even
import Mathlib.Data.List.TakeWhile
import Tapeworks.Proofs.Library
import Tapeworks.Proofs.Machine.Sweep

/-! The built-in machine `even-a` on every tape. It passes over the `a`s at the front with a state for each parity,
    changes no cell, and looks at one cell more: it accepts when their number is even, this cell is a blank, and there
    is another cell to move to. -/

namespace Tapeworks.Library.EvenA

open Machine

/-! ### What the machine is to do -/

/-- The number of `a`s that the cells begin with. -/
def leading (cells : List Char) : Nat :=
  (cells.takeWhile (· = 'a')).length

/-- The cells begin with an even number of `a`s and then a blank that is not the last cell. -/
def Accepted (cells : List Char) : Prop :=
  ∃ n c rest, Even n ∧ cells = List.replicate n 'a' ++ '_' :: c :: rest

/-- What a run on the cells comes to, from the first of them and in the start state. -/
structure Decides (cells : List Char) (result : Halt × Machine) : Prop where
  full : leading cells = cells.length → result.1 = .failed (.tapeOverflow cells.length)
  accepted : cells[leading cells]? = some '_' → Even (leading cells) → leading cells + 1 < cells.length →
    result.1 = .accepted ∧ result.2.stepCount = leading cells + 1 ∧ result.2.tape.head = leading cells + 1
  cramped : cells[leading cells]? = some '_' → Even (leading cells) → leading cells + 1 = cells.length →
    result.1 = .failed (.tapeOverflow cells.length)
  odd : cells[leading cells]? = some '_' → ¬Even (leading cells) → result.1 = .failed (.noMatchingRule "2" '_')
  other : ∀ c, cells[leading cells]? = some c → c ≠ '_' →
    result.1 = .failed (.noMatchingRule (if Even (leading cells) then "1" else "2") c)
  kept : result.2.tape.cells = cells
  accepts : result.1 = .accepted ↔ Accepted cells

variable {n limit : Nat} {c : Char} {rest : List Char}

theorem leading_append (h : rest.head? ≠ some 'a') : leading (List.replicate n 'a' ++ rest) = n := by
  have hrest : rest.takeWhile (· = 'a') = [] := by
    cases rest with
    | nil => rfl
    | cons c rest => exact List.takeWhile_cons_of_neg (by simpa using h)
  rw [leading, List.takeWhile_append_of_pos (by simp), hrest, List.append_nil, List.length_replicate]

theorem exists_eq_append (cells : List Char) :
    ∃ n rest, cells = List.replicate n 'a' ++ rest ∧ rest.head? ≠ some 'a' := by
  refine ⟨leading cells, cells.dropWhile (· = 'a'), ?_, fun h => ?_⟩
  · have hfront : cells.takeWhile (· = 'a') = List.replicate (leading cells) 'a' :=
      List.eq_replicate_of_mem fun c hc => by simpa using List.mem_takeWhile_imp hc
    rw [← hfront, List.takeWhile_append_dropWhile]
  · have hfirst := List.head?_dropWhile_not (fun c => decide (c = 'a')) cells
    rw [h] at hfirst
    cases hfirst

/-! ### The table -/

def even : State := { id := "1", isStart := true, position := place 0 0 }

def odd : State := { id := "2", position := place 200 0 }

def final : State := { id := "3", isFinal := true, position := place 0 200 }

def table : Table :=
  (compile evenA).table

theorem start_table : table.start = .ok even := rfl

theorem transitions_even :
    table.transitions even.id = [⟨'a', none, .right, odd⟩, ⟨'_', some '_', .right, final⟩] := rfl

theorem transitions_odd : table.transitions odd.id = [⟨'a', none, .right, even⟩] := rfl

/-- The state behind as many `a`s. -/
def counted (n : Nat) : State :=
  if Even n then even else odd

theorem counted_not_final (n : Nat) : ¬(counted n).isFinal := by
  unfold counted
  split <;> exact Bool.false_ne_true

theorem id_counted (n : Nat) : (counted n).id = if Even n then "1" else "2" := by
  unfold counted
  split <;> rfl

theorem find?_counted (n : Nat) : table.find? (counted n).id 'a' = some ⟨'a', none, .right, counted (n + 1)⟩ := by
  unfold counted Table.find?
  by_cases hn : Even n
  · rw [if_pos hn, if_neg (by simpa [Nat.even_add_one] using hn), transitions_even]
    rfl
  · rw [if_neg hn, if_pos (Nat.even_add_one.mpr hn), transitions_odd]
    rfl

theorem find?_counted_blank (hn : Even n) : table.find? (counted n).id '_' = some ⟨'_', some '_', .right, final⟩ := by
  rw [counted, if_pos hn, Table.find?, transitions_even]
  rfl

theorem find?_counted_eq_none (hc : c ≠ 'a') (hother : c = '_' → ¬Even n) :
    table.find? (counted n).id c = none := by
  unfold counted Table.find?
  by_cases hn : Even n
  · have hblank : c ≠ '_' := fun h => hother h hn
    rw [if_pos hn, transitions_even]
    simp [Ne.symm hc, Ne.symm hblank]
  · rw [if_neg hn, transitions_odd]
    simp [Ne.symm hc]

/-! ### Runs -/

theorem scans_counted (n k : Nat) : table.Scans .right (counted k) (List.replicate n 'a') (List.replicate n 'a')
    (counted (k + n)) := by
  induction n generalizing k with
  | zero => exact .nil _
  | succ n ih =>
    rw [← Nat.add_assoc, Nat.add_right_comm]
    exact .cons (counted_not_final k) (find?_counted k) (ih (k + 1))

theorem scans_even (n : Nat) : table.Scans .right even (List.replicate n 'a') (List.replicate n 'a') (counted n) := by
  have hscans := scans_counted n 0
  rwa [Nat.zero_add] at hscans

/-- The machine comes to the first cell that is no `a`. -/
theorem leads_rest (n : Nat) (c : Char) (rest : List Char) :
    table.Leads ⟨even, .ofCells (List.replicate n 'a' ++ c :: rest)⟩ n
      ⟨counted n, .facing .right (List.replicate n 'a') (c :: rest)⟩ := by
  have hleads := (scans_even n).leads [] (List.cons_ne_nil c rest)
  rwa [List.length_replicate, List.reverse_replicate, List.append_nil, ← Tape.ofCells_eq_facing] at hleads

theorem runsTo_of_full (hn : n ≠ 0) (hlimit : n < limit) : ∃ c,
    (inState table (.ofCells (List.replicate n 'a')) even).RunsTo limit (.failed (.tapeOverflow n)) (n - 1) c ∧
      c.tape.cells = List.replicate n 'a' := by
  have hne : List.replicate n 'a' ≠ [] := by simpa using hn
  obtain ⟨c, hleads, hoverflow, hcells⟩ := (scans_even n).overflows hne
  rw [List.length_replicate] at hleads hoverflow
  exact ⟨c, runsTo_of_leads rfl hleads hoverflow (Or.inl (by omega)), hcells⟩

theorem runsTo_of_accepted (hn : Even n) (x : Char) (rest : List Char) (hlimit : n < limit) :
    (inState table (.ofCells (List.replicate n 'a' ++ '_' :: x :: rest)) even).RunsTo limit .accepted (n + 1)
      ⟨final, .facing .right ('_' :: List.replicate n 'a') (x :: rest)⟩ := by
  have hmove : table.move ⟨counted n, .facing .right (List.replicate n 'a') ('_' :: x :: rest)⟩ =
      .ok ⟨final, .facing .right ('_' :: List.replicate n 'a') (x :: rest)⟩ :=
    Table.move_of_find (counted_not_final n) (find?_counted_blank hn) (Tape.apply_facing (List.cons_ne_nil x rest))
  exact runsTo_accepted ((leads_rest n '_' (x :: rest)).concat hmove) rfl hlimit

theorem runsTo_of_cramped (hn : Even n) (hlimit : n < limit) :
    (inState table (.ofCells (List.replicate n 'a' ++ ['_'])) even).RunsTo limit (.failed (.tapeOverflow (n + 1))) n
      ⟨counted n, .facing .right (List.replicate n 'a') ['_']⟩ := by
  have hoverflow : table.move ⟨counted n, .facing .right (List.replicate n 'a') ['_']⟩ =
      .error (.failed (.tapeOverflow ((List.replicate n 'a').length + 1))) :=
    Table.move_of_overflow (counted_not_final n) (find?_counted_blank hn)
  rw [List.length_replicate] at hoverflow
  exact runsTo_of_leads rfl (leads_rest n '_' []) hoverflow (Or.inl hlimit)

theorem runsTo_of_stuck (hc : c ≠ 'a') (hother : c = '_' → ¬Even n) (rest : List Char) (hlimit : n < limit) :
    (inState table (.ofCells (List.replicate n 'a' ++ c :: rest)) even).RunsTo limit
      (.failed (.noMatchingRule (counted n).id c)) n
      ⟨counted n, .facing .right (List.replicate n 'a') (c :: rest)⟩ := by
  have hstuck : table.move ⟨counted n, .facing .right (List.replicate n 'a') (c :: rest)⟩ =
      .error (.failed (.noMatchingRule (counted n).id c)) :=
    Table.move_of_find_none (counted_not_final n) (find?_counted_eq_none hc hother)
  exact runsTo_of_leads rfl (leads_rest n c rest) hstuck (Or.inl hlimit)

/-! ### Verdicts -/

/-- What a run comes to behind `n` times `a`, with the cells that are left. -/
def verdict (n : Nat) : List Char → Halt
  | [] => .failed (.tapeOverflow n)
  | c :: rest =>
    if c = '_' ∧ Even n then if rest = [] then .failed (.tapeOverflow (n + 1)) else .accepted
    else .failed (.noMatchingRule (counted n).id c)

theorem verdict_eq_accepted_iff : verdict n rest = .accepted ↔ Even n ∧ ∃ c cs, rest = '_' :: c :: cs := by
  match rest with
  | [] => simp [verdict]
  | [c] => by_cases hend : c = '_' ∧ Even n <;> simp [verdict, hend]
  | c :: x :: rest => by_cases hc : c = '_' <;> by_cases hn : Even n <;> simp [verdict, hc, hn]

theorem exists_runsTo_verdict (hrest : rest.head? ≠ some 'a') (hne : List.replicate n 'a' ++ rest ≠ [])
    (hlimit : n < limit) : ∃ k c,
      (inState table (.ofCells (List.replicate n 'a' ++ rest)) even).RunsTo limit (verdict n rest) k c ∧
        c.tape.cells = List.replicate n 'a' ++ rest ∧
        (verdict n rest = .accepted → k = n + 1 ∧ c.tape.head = n + 1) := by
  have hcells : ∀ c rest, (Tape.facing .right (List.replicate n 'a') (c :: rest)).cells =
      List.replicate n 'a' ++ c :: rest := fun c rest => by
    rw [Tape.cells_facing_right (List.cons_ne_nil c rest), List.reverse_replicate]
  cases rest with
  | nil =>
    rw [List.append_nil] at hne ⊢
    obtain ⟨c, hrun, hkept⟩ := runsTo_of_full (fun hn => hne (by rw [hn]; rfl)) hlimit
    exact ⟨n - 1, c, hrun, hkept, nofun⟩
  | cons c rest =>
    by_cases hend : c = '_' ∧ Even n
    · have hverdict : verdict n (c :: rest) = if rest = [] then .failed (.tapeOverflow (n + 1)) else .accepted :=
        if_pos hend
      obtain ⟨rfl, hn⟩ := hend
      cases rest with
      | nil =>
        rw [hverdict, if_pos rfl]
        exact ⟨n, _, runsTo_of_cramped hn hlimit, hcells '_' [], nofun⟩
      | cons x rest =>
        rw [hverdict, if_neg (List.cons_ne_nil x rest)]
        refine ⟨n + 1, _, runsTo_of_accepted hn x rest hlimit, ?_, fun _ => ⟨rfl, ?_⟩⟩
        · rw [Tape.cells_facing_right (List.cons_ne_nil x rest)]
          simp
        · exact congrArg (· + 1) List.length_replicate
    · have hverdict : verdict n (c :: rest) = .failed (.noMatchingRule (counted n).id c) := if_neg hend
      have hc : c ≠ 'a' := by simpa using hrest
      rw [hverdict]
      exact ⟨n, _, runsTo_of_stuck hc (fun hblank hn => hend ⟨hblank, hn⟩) rest hlimit, hcells c rest, nofun⟩

theorem accepted_append_iff (h : rest.head? ≠ some 'a') :
    Accepted (List.replicate n 'a' ++ rest) ↔ Even n ∧ ∃ c cs, rest = '_' :: c :: cs := by
  constructor
  · rintro ⟨k, c, cs, hk, heq⟩
    have hleading := congrArg leading heq
    rw [leading_append h, leading_append (by simp)] at hleading
    subst hleading
    exact ⟨hk, c, cs, List.append_cancel_left heq⟩
  · rintro ⟨hn, c, cs, rfl⟩
    exact ⟨n, c, cs, hn, rfl⟩

theorem decides_append (hrest : rest.head? ≠ some 'a') (hne : List.replicate n 'a' ++ rest ≠ []) (hlimit : n < limit) :
    Decides (List.replicate n 'a' ++ rest)
      ((inState table (.ofCells (List.replicate n 'a' ++ rest)) even).run limit) := by
  obtain ⟨k, c, hrun, hkept, hmoves⟩ := exists_runsTo_verdict hrest hne hlimit
  have hleading := leading_append (n := n) hrest
  have hget : (List.replicate n 'a' ++ rest)[n]? = rest.head? := by
    rw [List.getElem?_append_right (by simp), List.length_replicate, Nat.sub_self, List.head?_eq_getElem?]
  have hlength : (List.replicate n 'a' ++ rest).length = n + rest.length := by
    rw [List.length_append, List.length_replicate]
  constructor
  case full =>
    rw [hleading, hlength, hrun.halt]
    intro hfull
    obtain rfl : rest = [] := List.length_eq_zero_iff.mp (by omega)
    rfl
  case accepted =>
    rw [hleading, hlength, hget]
    intro hblank hn hlt
    obtain ⟨cs, rfl⟩ := List.head?_eq_some_iff.mp hblank
    have haccepted : verdict n ('_' :: cs) = .accepted := by
      have hcs : cs ≠ [] := fun h => by simp [h] at hlt
      simp [verdict, hn, hcs]
    obtain ⟨hk, hhead⟩ := hmoves haccepted
    refine ⟨hrun.halt.trans haccepted, ?_, ?_⟩
    · rw [hrun.stepCount, hk]
      exact Nat.zero_add _
    · rw [hrun.tape, hhead]
  case cramped =>
    rw [hleading, hlength, hget, hrun.halt]
    intro hblank hn hlast
    obtain ⟨cs, rfl⟩ := List.head?_eq_some_iff.mp hblank
    rw [List.length_cons] at hlast
    obtain rfl : cs = [] := List.length_eq_zero_iff.mp (by omega)
    simp [verdict, hn]
  case odd =>
    rw [hleading, hget, hrun.halt]
    intro hblank hn
    obtain ⟨cs, rfl⟩ := List.head?_eq_some_iff.mp hblank
    simp [verdict, hn, counted, odd]
  case other =>
    rw [hleading, hget, hrun.halt]
    intro c hc hblank
    obtain ⟨cs, rfl⟩ := List.head?_eq_some_iff.mp hc
    simp [verdict, hblank, id_counted]
  case kept => rw [hrun.tape, hkept]
  case accepts => rw [hrun.halt, verdict_eq_accepted_iff, accepted_append_iff hrest]

/-- A run of the built-in machine, on any tape with the head on the first cell and with a limit above the number of
    `a`s that the cells begin with. -/
theorem exists_decides (tape : Tape) (hhead : tape.head = 0) : ∃ r m, named "even-a" = .ok r ∧
    Machine.new (compile r.diagram).table tape = .ok m ∧
      ∀ limit, leading tape.cells + 1 ≤ limit → Decides tape.cells (m.run limit) := by
  refine ⟨⟨"even-a", evenA⟩, inState table tape even, named_evenA, new_of_start start_table tape, ?_⟩
  intro limit hlimit
  have htape : tape = .ofCells tape.cells := by
    refine Tape.eq_of_cells tape.cells_ofCells_cells.symm ?_
    rw [hhead, Tape.head_ofCells]
  obtain ⟨n, rest, hcells, hrest⟩ := exists_eq_append tape.cells
  have hne : tape.cells ≠ [] := List.ne_nil_of_length_pos (Nat.zero_lt_of_lt tape.head_lt)
  rw [hcells] at htape hne hlimit ⊢
  rw [leading_append hrest] at hlimit
  rw [htape]
  exact decides_append hrest hne hlimit

theorem exists_decides_aa_blank : ∃ r m, named "even-a" = .ok r ∧
    Machine.new (compile r.diagram).table ⟨[], 'a', ['a', '_', 'b']⟩ = .ok m ∧ (m.run 3).1 = .accepted := by
  obtain ⟨r, m, hr, hm, hdecides⟩ := exists_decides ⟨[], 'a', ['a', '_', 'b']⟩ rfl
  have hrun := hdecides 3 (by decide)
  exact ⟨r, m, hr, hm, (hrun.accepted rfl (by decide) (by decide)).1⟩

end Tapeworks.Library.EvenA
