import Tapeworks.Proofs.Gather
import Tapeworks.Table

/-! Tables as maps. The rows of a table are in ascending order of the ids of their states, so that a look-up of an id
    finds the only row with it. A new table has the first state of every id, and adding a rule changes nothing but the
    rules of one state. -/

namespace Tapeworks
namespace Table

variable {t : Table} {s : State} {rows : List Row} {row : Row} {id : String} {rule : Transition}

/-! ### Ascending rows -/

/-- Every id comes before the ids of the rows further down. -/
def Ascending (rows : List Row) : Prop :=
  rows.Pairwise fun a b => a.state.id < b.state.id

theorem mem_insertRow (h : row ∈ insertRow s rows) : row = ⟨s, []⟩ ∨ row ∈ rows := by
  induction rows with
  | nil => exact Or.inl (List.mem_singleton.mp h)
  | cons head rows ih =>
    unfold insertRow at h
    split at h
    · exact List.mem_cons.mp h
    · split at h
      · exact Or.inr h
      · rcases List.mem_cons.mp h with rfl | h
        · exact Or.inr List.mem_cons_self
        · exact (ih h).imp id (List.mem_cons_of_mem _)

theorem Ascending.insertRow (h : Ascending rows) (s : State) : Ascending (insertRow s rows) := by
  induction rows with
  | nil => exact List.pairwise_singleton _ _
  | cons head rows ih =>
    obtain ⟨hhead, hrows⟩ := List.pairwise_cons.mp h
    unfold Table.insertRow
    split
    · rename_i hlt
      refine List.pairwise_cons.mpr ⟨fun row hrow => ?_, h⟩
      rcases List.mem_cons.mp hrow with rfl | hrow
      · exact hlt
      · exact String.lt_trans hlt (hhead row hrow)
    · split
      · exact h
      · rename_i hnlt hne
        refine List.pairwise_cons.mpr ⟨fun row hrow => ?_, ih hrows⟩
        rcases mem_insertRow hrow with rfl | hrow
        · exact String.not_le.mp fun hle => hne (String.le_antisymm hle (String.not_lt.mp hnlt))
        · exact hhead row hrow

theorem find?_insertRow (h : Ascending rows) (s : State) (id : String) :
    (insertRow s rows).find? (·.state.id = id) =
      (rows.find? (·.state.id = id)).or (if s.id = id then some ⟨s, []⟩ else none) := by
  induction rows with
  | nil => by_cases hid : s.id = id <;> simp [insertRow, hid]
  | cons head rows ih =>
    obtain ⟨hhead, hrows⟩ := List.pairwise_cons.mp h
    unfold insertRow
    split
    · rename_i hlt
      by_cases hid : s.id = id
      · -- All rows come after the new state, so that none of them has its id.
        have hnone : (head :: rows).find? (·.state.id = id) = none := by
          refine List.find?_eq_none.mpr fun row hrow he => ?_
          rw [decide_eq_true_eq, ← hid] at he
          rcases List.mem_cons.mp hrow with rfl | hrow
          · exact String.ne_of_lt hlt he.symm
          · exact String.ne_of_lt (String.lt_trans hlt (hhead row hrow)) he.symm
        rw [hnone]
        simp [hid]
      · rw [List.find?_cons_of_neg (by simpa using hid), if_neg hid, Option.or_none]
    · split
      · rename_i heq
        by_cases hid : s.id = id
        · rw [List.find?_cons_of_pos (by simp [← heq, hid]), Option.some_or]
        · rw [if_neg hid, Option.or_none]
      · by_cases hid : head.state.id = id
        · simp [hid]
        · rw [List.find?_cons_of_neg (by simpa using hid), List.find?_cons_of_neg (by simpa using hid), ih hrows]

theorem ascending_ofStates (states : List State) : Ascending (ofStates states).rows := by
  induction states using List.reverseRecOn with
  | nil => exact .nil
  | append_singleton states s ih =>
    rw [ofStates, List.foldl_append]
    exact ih.insertRow s

/-! ### Look-ups by id -/

theorem row?_eq_some (h : t.row? id = some row) : row ∈ t.rows ∧ row.state.id = id :=
  ⟨List.mem_of_find?_eq_some h, by simpa using List.find?_some h⟩

theorem state?_eq_some (h : t.state? id = some s) : s ∈ t.states ∧ s.id = id := by
  obtain ⟨row, hrow, rfl⟩ := Option.map_eq_some_iff.mp h
  exact ⟨List.mem_map_of_mem (row?_eq_some hrow).1, (row?_eq_some hrow).2⟩

theorem Ascending.nodup (h : Ascending rows) : (rows.map (·.state.id)).Nodup :=
  List.pairwise_map.mpr (h.imp String.ne_of_lt)

theorem row?_of_mem (h : Ascending t.rows) (hrow : row ∈ t.rows) : t.row? row.state.id = some row :=
  (find?_key_eq_some_iff h.nodup).mpr ⟨hrow, rfl⟩

theorem state?_of_mem (h : Ascending t.rows) (hs : s ∈ t.states) : t.state? s.id = some s := by
  obtain ⟨row, hrow, rfl⟩ := List.mem_map.mp hs
  rw [state?, row?_of_mem h hrow, Option.map_some]

/-- The states of a new table are the first of every id. -/
theorem state?_ofStates (states : List State) (id : String) :
    (ofStates states).state? id = states.find? (·.id = id) := by
  induction states using List.reverseRecOn with
  | nil => rfl
  | append_singleton states s ih =>
    have hrow : (ofStates (states ++ [s])).row? id =
        ((ofStates states).row? id).or (if s.id = id then some ⟨s, []⟩ else none) := by
      rw [row?, ofStates, List.foldl_append]
      exact find?_insertRow (ascending_ofStates states) s id
    rw [state?, hrow, Option.map_or, List.find?_append, ← ih, state?]
    congr 1
    by_cases hid : s.id = id <;> simp [hid]

theorem transitions_ofStates (states : List State) (id : String) : (ofStates states).transitions id = [] := by
  have hrows : ∀ row ∈ (ofStates states).rows, row.transitions = [] := by
    induction states using List.reverseRecOn with
    | nil => exact fun _ hrow => absurd hrow List.not_mem_nil
    | append_singleton states s ih =>
      intro row hrow
      rw [ofStates, List.foldl_append] at hrow
      rcases mem_insertRow hrow with rfl | hrow
      · rfl
      · exact ih row hrow
  unfold transitions
  cases hrow : (ofStates states).row? id with
  | none => rfl
  | some row => exact hrows row (row?_eq_some hrow).1

/-! ### Adding rules -/

theorem ite_state (row : Row) (id : String) (rules : List Transition) :
    (if row.state.id = id then { row with transitions := rules } else row).state = row.state := by
  split <;> rfl

theorem ascending_push (h : Ascending t.rows) (id : String) (rule : Transition) : Ascending (t.push id rule).rows := by
  refine List.pairwise_map.mpr (h.imp fun {a b} hab => ?_)
  rwa [ite_state, ite_state]

theorem row?_push (t : Table) (id id' : String) (rule : Transition) :
    (t.push id rule).row? id' =
      (t.row? id').map fun row =>
        if row.state.id = id then { row with transitions := row.transitions ++ [rule] } else row := by
  unfold row? push
  rw [List.find?_map]
  congr 2
  funext row
  rw [Function.comp_apply, ite_state]

theorem state?_push (t : Table) (id id' : String) (rule : Transition) :
    (t.push id rule).state? id' = t.state? id' := by
  rw [state?, row?_push, Option.map_map, state?]
  congr 1
  funext row
  exact ite_state row id _

theorem transitions_push_of_ne {id' : String} (h : id' ≠ id) :
    (t.push id rule).transitions id' = t.transitions id' := by
  unfold transitions
  rw [row?_push]
  cases hrow : t.row? id' with
  | none => rfl
  | some row =>
    have hne : row.state.id ≠ id := fun he => h ((row?_eq_some hrow).2.symm.trans he)
    simp [hne]

theorem transitions_push_self (h : (t.state? id).isSome) :
    (t.push id rule).transitions id = t.transitions id ++ [rule] := by
  unfold transitions
  rw [row?_push]
  cases hrow : t.row? id with
  | none => rw [state?, hrow] at h; cases h
  | some row => simp [(row?_eq_some hrow).2]

/-! ### Rules -/

theorem transitions_of_mem (h : Ascending t.rows) (hrow : row ∈ t.rows) :
    t.transitions row.state.id = row.transitions := by
  rw [transitions, row?_of_mem h hrow]
  rfl

theorem mem_rules (h : Ascending t.rows) : (s, rule) ∈ t.rules ↔ s ∈ t.states ∧ rule ∈ t.transitions s.id := by
  simp only [rules, states, List.mem_flatMap, List.mem_map]
  constructor
  · rintro ⟨row, hrow, r, hr, he⟩
    cases he
    exact ⟨⟨row, hrow, rfl⟩, by rwa [transitions_of_mem h hrow]⟩
  · rintro ⟨⟨row, hrow, rfl⟩, hr⟩
    rw [transitions_of_mem h hrow] at hr
    exact ⟨row, hrow, rule, hr, rfl⟩

theorem rules_eq (h : Ascending t.rows) :
    t.rules = t.states.flatMap fun s => (t.transitions s.id).map fun rule => (s, rule) := by
  rw [rules, states, List.flatMap_map]
  refine List.flatMap_congr fun row hrow => ?_
  rw [transitions_of_mem h hrow]

/-- A table is made up of its states and their rules. -/
theorem rows_eq (h : Ascending t.rows) : t.rows = t.states.map fun s => ⟨s, t.transitions s.id⟩ := by
  rw [states, List.map_map]
  refine (List.map_id _).symm.trans (List.map_congr_left fun row hrow => ?_)
  rw [Function.comp_apply, transitions_of_mem h hrow]
  rfl

theorem transitionCount_eq (t : Table) : t.transitionCount = t.rules.length := by
  have hfold : ∀ (rows : List Row) (n : Nat), rows.foldl (fun n row => n + row.transitions.length) n =
      n + (rows.flatMap fun row => row.transitions.map fun rule => (row.state, rule)).length := by
    intro rows
    induction rows with
    | nil => exact fun n => rfl
    | cons row rows ih =>
      intro n
      rw [List.foldl_cons, ih, List.flatMap_cons, List.length_append, List.length_map, Nat.add_assoc]
  rw [transitionCount, hfold, Nat.zero_add, rules]

theorem exists_row_of_mem_transitions (h : rule ∈ t.transitions id) :
    ∃ row ∈ t.rows, row.state.id = id ∧ rule ∈ row.transitions := by
  unfold transitions at h
  cases hrow : t.row? id with
  | none => rw [hrow] at h; exact absurd h List.not_mem_nil
  | some row =>
    rw [hrow] at h
    exact ⟨row, (row?_eq_some hrow).1, (row?_eq_some hrow).2, h⟩

theorem exists_state_of_mem_transitions (h : rule ∈ t.transitions id) : ∃ s, (s, rule) ∈ t.rules ∧ s.id = id := by
  obtain ⟨row, hrow, hid, hrule⟩ := exists_row_of_mem_transitions h
  exact ⟨row.state, List.mem_flatMap.mpr ⟨row, hrow, List.mem_map_of_mem hrule⟩, hid⟩

/-! ### Ends -/

/-- The ids at the ends of the rules. -/
def ends (t : Table) : List String :=
  t.rules.flatMap fun x => [x.1.id, x.2.target.id]

theorem mem_ends : id ∈ t.ends ↔ ∃ x ∈ t.rules, id = x.1.id ∨ id = x.2.target.id := by
  simp [ends]

theorem source_mem_ends (h : (s, rule) ∈ t.rules) : s.id ∈ t.ends :=
  mem_ends.mpr ⟨_, h, Or.inl rfl⟩

theorem target_mem_ends (h : (s, rule) ∈ t.rules) : rule.target.id ∈ t.ends :=
  mem_ends.mpr ⟨_, h, Or.inr rfl⟩

end Table
end Tapeworks
