import Mathlib.Data.List.TakeWhile
import Tapeworks.Proofs.Library
import Tapeworks.Proofs.Machine.Sweep

/-! The built-in machine `binary-increment` on every binary number. It goes right over the number to the first blank and
    then left over the ones at its end, which become zeros, up to the digit that takes the carry. This is a zero of the
    number, or else the blank before it. The machine needs one cell behind the number. -/

namespace Tapeworks.Library.BinaryIncrement

open Machine

/-! ### Binary numbers -/

def digit (b : Bool) : Char :=
  if b then '1' else '0'

def digits (w : List Bool) : List Char :=
  w.map digit

/-- The value of a word of binary digits, the highest first. -/
def value (w : List Bool) : Nat :=
  w.foldl (fun n b => 2 * n + b.toNat) 0

/-- The last `k` binary digits of a number. -/
def binary : Nat → Nat → List Bool
  | 0, _ => []
  | k + 1, n => binary k (n / 2) ++ [decide (n % 2 = 1)]

def trailingOnes (w : List Bool) : Nat :=
  (w.reverse.takeWhile id).length

variable {w : List Bool}

theorem value_concat (w : List Bool) (b : Bool) : value (w ++ [b]) = 2 * value w + b.toNat := by
  rw [value, List.foldl_append]
  rfl

theorem binary_value (w : List Bool) : binary w.length (value w) = w := by
  induction w using List.reverseRecOn with
  | nil => rfl
  | append_singleton w b ih =>
    have hhalf : value (w ++ [b]) / 2 = value w := by
      rw [value_concat]
      cases b
      · exact Nat.mul_div_cancel_left _ Nat.two_pos
      · simp only [Bool.toNat_true]
        omega
    have hlast : decide (value (w ++ [b]) % 2 = 1) = b := by
      rw [value_concat]
      cases b <;> simp
    rw [List.length_append, List.length_singleton, binary, hhalf, ih, hlast]

/-- Adding one makes ones at the end zeros and the zero before them a one. -/
theorem value_carry (u : List Bool) (k : Nat) :
    value (u ++ true :: List.replicate k false) = value (u ++ false :: List.replicate k true) + 1 := by
  induction k with
  | zero => simp [value_concat]
  | succ k ih =>
    have hfalse : u ++ true :: List.replicate (k + 1) false = (u ++ true :: List.replicate k false) ++ [false] := by
      rw [List.replicate_succ', List.append_assoc, List.cons_append]
    have htrue : u ++ false :: List.replicate (k + 1) true = (u ++ false :: List.replicate k true) ++ [true] := by
      rw [List.replicate_succ', List.append_assoc, List.cons_append]
    rw [hfalse, htrue, value_concat, value_concat, ih]
    simp [Nat.mul_add, Nat.add_assoc]

theorem binary_carry (u : List Bool) (k : Nat) :
    binary (u ++ false :: List.replicate k true).length (value (u ++ false :: List.replicate k true) + 1) =
      u ++ true :: List.replicate k false := by
  have hlength : (u ++ false :: List.replicate k true).length = (u ++ true :: List.replicate k false).length := by
    simp
  rw [hlength, ← value_carry, binary_value]

/-- A word is made up of ones, or they follow its last zero. -/
theorem eq_ones_or_carry (w : List Bool) : w = List.replicate (trailingOnes w) true ∨
    ∃ u, w = u ++ false :: List.replicate (trailingOnes w) true := by
  have hones : w.reverse.takeWhile id = List.replicate (trailingOnes w) true :=
    List.eq_replicate_of_mem fun b hb => List.mem_takeWhile_imp hb
  have hsplit : w = (w.reverse.dropWhile id).reverse ++ List.replicate (trailingOnes w) true := by
    rw [← List.reverse_replicate, ← List.reverse_append, ← hones, List.takeWhile_append_dropWhile, List.reverse_reverse]
  cases hrest : w.reverse.dropWhile id with
  | nil =>
    rw [hrest] at hsplit
    exact Or.inl hsplit
  | cons b rest =>
    have hfirst := List.head?_dropWhile_not id w.reverse
    rw [hrest] at hfirst
    obtain rfl : b = false := by simpa using hfirst
    rw [hrest, List.reverse_cons, List.append_assoc] at hsplit
    exact Or.inr ⟨rest.reverse, hsplit⟩

/-! ### What the machine is to do -/

/-- The cells of the word and the blank before it, with the number one above that of the word. -/
def incremented (w : List Bool) : List Char :=
  if w.all id then '1' :: List.replicate w.length '0' else '_' :: digits (binary w.length (value w + 1))

/-- What runs on a word behind a blank come to. The next number has as many digits, unless all of them are ones. -/
structure Increments (t : Table) (w : List Bool) : Prop where
  next : ¬w.all id → value (binary w.length (value w + 1)) = value w + 1
  accepted : ∀ capacity limit, w.length + 2 ≤ capacity → w.length + trailingOnes w + 3 ≤ limit →
    ∃ m, Machine.new t (.ofInput ('_' :: digits w) capacity) = .ok m ∧ (m.run limit).1 = .accepted ∧
      (m.run limit).2.stepCount = w.length + trailingOnes w + 3 ∧
      (m.run limit).2.tape.cells = incremented w ++ List.replicate (capacity - (w.length + 1)) '_'
  overflow : ∀ capacity limit, capacity ≤ w.length + 1 → w.length + 1 ≤ limit →
    ∃ m, Machine.new t (.ofInput ('_' :: digits w) capacity) = .ok m ∧
      (m.run limit).1 = .failed (.tapeOverflow (w.length + 1))

/-! ### The table -/

def one : State := { id := "1", isStart := true, position := place 0 0 }

def two : State := { id := "2", position := place 200 0 }

def three : State := { id := "3", position := place 400 0 }

def four : State := { id := "4", isFinal := true, position := place 600 0 }

def table : Table :=
  (compile binaryIncrement).table

theorem start_table : table.start = .ok one := rfl

theorem transitions_one : table.transitions one.id = [⟨'_', none, .right, two⟩] := rfl

theorem transitions_two : table.transitions two.id =
    [⟨'0', none, .right, two⟩, ⟨'1', none, .right, two⟩, ⟨'_', none, .left, three⟩] := rfl

theorem transitions_three : table.transitions three.id =
    [⟨'1', some '0', .left, three⟩, ⟨'0', some '1', .left, four⟩, ⟨'_', some '1', .right, four⟩] := rfl

theorem find?_one : table.find? one.id '_' = some ⟨'_', none, .right, two⟩ := by
  simp [Table.find?, transitions_one]

theorem find?_two_digit (b : Bool) : table.find? two.id (digit b) = some ⟨digit b, none, .right, two⟩ := by
  cases b <;> simp [Table.find?, transitions_two, digit]

theorem find?_two_blank : table.find? two.id '_' = some ⟨'_', none, .left, three⟩ := by
  simp [Table.find?, transitions_two]

theorem find?_three_one : table.find? three.id '1' = some ⟨'1', some '0', .left, three⟩ := by
  simp [Table.find?, transitions_three]

theorem find?_three_zero : table.find? three.id '0' = some ⟨'0', some '1', .left, four⟩ := by
  simp [Table.find?, transitions_three]

theorem find?_three_blank : table.find? three.id '_' = some ⟨'_', some '1', .right, four⟩ := by
  simp [Table.find?, transitions_three]

/-! ### Sweeps and turns -/

theorem length_number (w : List Bool) : ('_' :: digits w).length = w.length + 1 := by
  rw [List.length_cons, digits, List.length_map]

theorem reverse_number_ne_nil (w : List Bool) : (digits w).reverse ++ ['_'] ≠ [] :=
  List.append_ne_nil_of_right_ne_nil _ (List.cons_ne_nil '_' [])

theorem scans_digits (w : List Bool) : table.Scans .right two (digits w) (digits w) two := by
  induction w with
  | nil => exact .nil two
  | cons b w ih => exact .cons Bool.false_ne_true (find?_two_digit b) ih

theorem scans_number (w : List Bool) : table.Scans .right one ('_' :: digits w) ('_' :: digits w) two :=
  .cons Bool.false_ne_true find?_one (scans_digits w)

theorem scans_ones (k : Nat) : table.Scans .left three (List.replicate k '1') (List.replicate k '0') three := by
  induction k with
  | zero => exact .nil three
  | succ k ih => exact .cons Bool.false_ne_true find?_three_one ih

/-- The machine goes over the number to the blank behind it and turns back. -/
theorem leads_turned (w : List Bool) (k : Nat) :
    table.Leads ⟨one, .ofCells ('_' :: digits w ++ List.replicate (k + 1) '_')⟩ (w.length + 2)
      ⟨three, .facing .left (List.replicate (k + 1) '_') ((digits w).reverse ++ ['_'])⟩ := by
  have hsweep := (scans_number w).leads [] (List.cons_ne_nil '_' (List.replicate k '_'))
  have hmove : table.move ⟨two, .facing .right ((digits w).reverse ++ ['_']) ('_' :: List.replicate k '_')⟩ =
      .ok ⟨three, .facing .left ('_' :: List.replicate k '_') ((digits w).reverse ++ ['_'])⟩ :=
    Table.move_of_find Bool.false_ne_true find?_two_blank (Tape.apply_opposite (reverse_number_ne_nil w))
  rw [List.append_nil, List.reverse_cons, length_number] at hsweep
  rw [Tape.ofCells_eq_facing, List.replicate_succ]
  exact hsweep.concat hmove

/-- Over the ones at the end of the number the machine comes to the cell that takes the carry. -/
theorem leads_carry {c : Char} {ahead : List Char} {n : Nat}
    (h : (digits w).reverse ++ ['_'] = List.replicate n '1' ++ c :: ahead) (k : Nat) :
    table.Leads ⟨one, .ofCells ('_' :: digits w ++ List.replicate (k + 1) '_')⟩ (w.length + n + 2)
      ⟨three, .facing .left (List.replicate n '0' ++ List.replicate (k + 1) '_') (c :: ahead)⟩ := by
  have hturned := leads_turned w k
  have hsweep := (scans_ones n).leads (List.replicate (k + 1) '_') (List.cons_ne_nil c ahead)
  rw [h] at hturned
  rw [List.length_replicate, List.reverse_replicate] at hsweep
  rw [Nat.add_right_comm]
  exact hturned.trans hsweep

theorem digits_ones (n : Nat) : digits (List.replicate n true) = List.replicate n '1' :=
  List.map_replicate

theorem digits_append (u w : List Bool) : digits (u ++ w) = digits u ++ digits w :=
  List.map_append

theorem incremented_ones (n : Nat) : incremented (List.replicate n true) = '1' :: List.replicate n '0' := by
  simp [incremented]

theorem incremented_carry (u : List Bool) (n : Nat) : incremented (u ++ false :: List.replicate n true) =
    '_' :: digits (u ++ true :: List.replicate n false) := by
  have hzero : ¬(u ++ false :: List.replicate n true).all id := by simp
  rw [incremented, if_neg hzero, binary_carry]

/-- The machine accepts, and has written the next number. -/
theorem exists_leads (w : List Bool) (k : Nat) : ∃ c,
    table.Leads ⟨one, .ofCells ('_' :: digits w ++ List.replicate (k + 1) '_')⟩ (w.length + trailingOnes w + 3) c ∧
      c.state.isFinal ∧ c.tape.cells = incremented w ++ List.replicate (k + 1) '_' := by
  have hsplit := eq_ones_or_carry w
  generalize trailingOnes w = n at hsplit ⊢
  rcases hsplit with rfl | ⟨u, rfl⟩
  · -- The carry goes into the blank before the number, on the first cell, so that the machine turns back once more.
    have hcells : (digits (List.replicate n true)).reverse ++ ['_'] = List.replicate n '1' ++ ['_'] := by
      rw [digits_ones, List.reverse_replicate]
    have hbehind : List.replicate n '0' ++ List.replicate (k + 1) '_' ≠ [] :=
      List.append_ne_nil_of_right_ne_nil _ (List.cons_ne_nil '_' _)
    have hmove : table.move ⟨three, .facing .left (List.replicate n '0' ++ List.replicate (k + 1) '_') ['_']⟩ =
        .ok ⟨four, .facing .right ['1'] (List.replicate n '0' ++ List.replicate (k + 1) '_')⟩ :=
      Table.move_of_find Bool.false_ne_true find?_three_blank (Tape.apply_opposite hbehind)
    refine ⟨_, (leads_carry hcells k).concat hmove, rfl, ?_⟩
    rw [Tape.cells_facing_right hbehind, incremented_ones]
    rfl
  · have hcells : (digits (u ++ false :: List.replicate n true)).reverse ++ ['_'] =
        List.replicate n '1' ++ '0' :: ((digits u).reverse ++ ['_']) := by
      rw [digits_append]
      simp [digits, digit]
    have hahead := reverse_number_ne_nil u
    have hmove : table.move ⟨three, .facing .left (List.replicate n '0' ++ List.replicate (k + 1) '_')
          ('0' :: ((digits u).reverse ++ ['_']))⟩ =
        .ok ⟨four, .facing .left ('1' :: (List.replicate n '0' ++ List.replicate (k + 1) '_'))
          ((digits u).reverse ++ ['_'])⟩ :=
      Table.move_of_find Bool.false_ne_true find?_three_zero (Tape.apply_facing hahead)
    refine ⟨_, (leads_carry hcells k).concat hmove, rfl, ?_⟩
    rw [Tape.cells_facing_left hahead, incremented_carry, digits_append]
    simp [digits, digit]

/-! ### Runs -/

theorem increments_table (w : List Bool) : Increments table w where
  next hzero := by
    rcases eq_ones_or_carry w with hones | ⟨u, hcarry⟩
    · rw [hones] at hzero
      exact absurd (by simp) hzero
    · rw [hcarry, binary_carry, value_carry]
  accepted capacity limit hcapacity hlimit := by
    obtain ⟨k, rfl⟩ := Nat.exists_eq_add_of_le hcapacity
    have hroom : w.length + 2 + k - (w.length + 1) = k + 1 := by omega
    have htape : Tape.ofInput ('_' :: digits w) (w.length + 2 + k) =
        .ofCells ('_' :: digits w ++ List.replicate (k + 1) '_') := by
      rw [Tape.ofInput, length_number, hroom]
      rfl
    obtain ⟨c, hleads, hfinal, hcells⟩ := exists_leads w k
    have hrun := runsTo_accepted hleads hfinal hlimit
    refine ⟨_, new_of_start start_table _, ?_⟩
    rw [htape, hroom]
    exact ⟨hrun.halt, hrun.stepCount.trans (Nat.zero_add _), by rw [hrun.tape, hcells]⟩
  overflow capacity limit hcapacity hlimit := by
    obtain ⟨c, hleads, hoverflow, -⟩ := (scans_number w).overflows (List.cons_ne_nil '_' (digits w))
    rw [length_number] at hleads hoverflow
    refine ⟨_, new_of_start start_table _, ?_⟩
    rw [Tape.ofInput_of_le (length_number w ▸ hcapacity)]
    exact (runsTo_of_leads rfl hleads hoverflow (Or.inl hlimit)).halt

/-- The built-in machine adds one to every binary number. -/
theorem exists_increments : ∃ r, named "binary-increment" = .ok r ∧ ∀ w, Increments (compile r.diagram).table w :=
  ⟨⟨"binary-increment", binaryIncrement⟩, named_binaryIncrement, increments_table⟩

theorem exists_increments_eleven : ∃ r m, named "binary-increment" = .ok r ∧
    Machine.new (compile r.diagram).table (.ofInput "_1011".toList 8) = .ok m ∧ (m.run 9).1 = .accepted ∧
      (m.run 9).2.tape.cells = "_1100___".toList := by
  obtain ⟨r, hr, hincrements⟩ := exists_increments
  obtain ⟨m, hm, hhalt, -, hcells⟩ := (hincrements [true, false, true, true]).accepted 8 9 (by decide) (by decide)
  exact ⟨r, m, hr, hm, hhalt, hcells⟩

end Tapeworks.Library.BinaryIncrement
