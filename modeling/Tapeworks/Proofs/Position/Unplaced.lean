import Tapeworks.Code.Encode
import Tapeworks.Proofs.Analysis
import Tapeworks.Table.Export

/-! Positions taken away. A table holds whole states, positions included, but nothing that is made of a diagram or found
    in a table looks at a position: it makes no difference whether the positions are taken away before or after, and
    where none is left in what comes out, none at all. -/

namespace Tapeworks

/-! ### Without positions -/

def State.unplaced (s : State) : State :=
  { s with position := default }

def Diagram.unplaced (d : Diagram) : Diagram :=
  { d with states := d.states.map State.unplaced }

def Transition.unplaced (r : Transition) : Transition :=
  { r with target := r.target.unplaced }

def Row.unplaced (row : Row) : Row :=
  ⟨row.state.unplaced, row.transitions.map Transition.unplaced⟩

def Table.unplaced (t : Table) : Table :=
  ⟨t.rows.map Row.unplaced⟩

def Compilation.unplaced (c : Compilation) : Compilation :=
  { c with table := c.table.unplaced }

namespace Table

/-! ### Building -/

theorem insertRow_unplaced (s : State) (rows : List Row) :
    insertRow s.unplaced (rows.map Row.unplaced) = (insertRow s rows).map Row.unplaced := by
  induction rows with
  | nil => rfl
  | cons row rows ih =>
    have hids : s.unplaced.id = s.id ∧ row.unplaced.state.id = row.state.id := ⟨rfl, rfl⟩
    rw [List.map_cons, insertRow, insertRow, hids.1, hids.2, ih]
    split
    · rfl
    · split <;> rfl

/-- Of states with one id the first is kept, whatever their positions. -/
theorem ofStates_unplaced (states : List State) : ofStates (states.map State.unplaced) = (ofStates states).unplaced := by
  induction states using List.reverseRecOn with
  | nil => rfl
  | append_singleton states s ih =>
    have hrows : (ofStates (states.map State.unplaced)).rows = (ofStates states).rows.map Row.unplaced :=
      congrArg (·.rows) ih
    rw [List.map_append, List.map_singleton, ofStates, ofStates, List.foldl_append, List.foldl_append]
    refine congrArg Table.mk ((congrArg (insertRow s.unplaced) hrows).trans ?_)
    exact insertRow_unplaced s (ofStates states).rows

theorem push_unplaced (t : Table) (id : String) (r : Transition) :
    t.unplaced.push id r.unplaced = (t.push id r).unplaced := by
  simp only [push, unplaced, List.map_map, Table.mk.injEq]
  refine List.map_congr_left fun row _ => ?_
  have hid : row.unplaced.state.id = row.state.id := rfl
  rw [Function.comp_apply, Function.comp_apply, hid]
  split
  · simp [Row.unplaced]
  · rfl

/-! ### Looking up -/

theorem find?_row_unplaced (rows : List Row) (id : String) :
    (rows.map Row.unplaced).find? (·.state.id = id) = (rows.find? (·.state.id = id)).map Row.unplaced :=
  List.find?_map

@[simp] theorem row?_unplaced (t : Table) (id : String) : t.unplaced.row? id = (t.row? id).map Row.unplaced :=
  find?_row_unplaced t.rows id

@[simp] theorem state?_unplaced (t : Table) (id : String) :
    t.unplaced.state? id = (t.state? id).map State.unplaced := by
  rw [state?, state?, row?_unplaced, Option.map_map, Option.map_map]
  rfl

@[simp] theorem transitions_unplaced (t : Table) (id : String) :
    t.unplaced.transitions id = (t.transitions id).map Transition.unplaced := by
  rw [transitions, transitions, row?_unplaced]
  cases t.row? id <;> rfl

@[simp] theorem find?_unplaced (t : Table) (id : String) (c : Char) :
    t.unplaced.find? id c = (t.find? id c).map Transition.unplaced := by
  rw [find?, transitions_unplaced]
  exact List.find?_map

@[simp] theorem reads_unplaced (t : Table) (id : String) (c : Char) : t.unplaced.reads id c = t.reads id c := by
  rw [reads, find?_unplaced, Option.isSome_map]
  rfl

@[simp] theorem states_unplaced (t : Table) : t.unplaced.states = t.states.map State.unplaced := by
  simp only [states, unplaced, List.map_map]
  rfl

@[simp] theorem startStates_unplaced (t : Table) : t.unplaced.startStates = t.startStates.map State.unplaced := by
  rw [startStates, states_unplaced, List.filter_map]
  rfl

@[simp] theorem start_unplaced (t : Table) : t.unplaced.start = t.start.map State.unplaced := by
  rw [start, start, startStates_unplaced]
  match t.startStates with
  | [] => rfl
  | [_] => rfl
  | _ :: _ :: _ => simp [Except.map]

theorem rules_unplaced (t : Table) :
    t.unplaced.rules = t.rules.map fun x => (x.1.unplaced, x.2.unplaced) := by
  simp only [rules, unplaced, Row.unplaced, List.flatMap_map, List.map_flatMap, List.map_map]
  rfl

/-! ### What is made of a table -/

theorem exported_unplaced (t : Table) : t.unplaced.exported = t.exported := by
  have hrules : ∀ row : Row, row.unplaced.transitions.map ExportedTransition.ofTransition =
      row.transitions.map ExportedTransition.ofTransition := by
    intro row
    rw [Row.unplaced, List.map_map]
    rfl
  simp only [exported, unplaced, List.map_map]
  refine List.map_congr_left fun row _ => ?_
  rw [Function.comp_apply, hrules]
  rfl

theorem withoutRow_unplaced (id : String) (rows : List Row) :
    withoutRow id (rows.map Row.unplaced) = (withoutRow id rows).map Row.unplaced :=
  List.filter_map

/-- The search looks at ids alone, so that it takes the same rows away. -/
theorem unreached_unplaced (rows : List Row) (waiting : List String) :
    unreached (rows.map Row.unplaced) waiting = (unreached rows waiting).map Row.unplaced := by
  induction rows, waiting using unreached.induct with
  | case1 rows =>
    rw [unreached, unreached]
  | case2 rows id waiting hnone ih =>
    have hnone' : (rows.map Row.unplaced).find? (·.state.id = id) = none := by
      rw [find?_row_unplaced, hnone, Option.map_none]
    rw [unreached_of_none hnone, unreached_of_none hnone', ih]
  | case3 rows id waiting found hfound _ ih =>
    have hfound' : (rows.map Row.unplaced).find? (·.state.id = id) = some found.unplaced := by
      rw [find?_row_unplaced, hfound, Option.map_some]
    have htargets : found.unplaced.transitions.map (·.target.id) = found.transitions.map (·.target.id) :=
      List.map_map
    rw [unreached_of_some hfound, unreached_of_some hfound', htargets, withoutRow_unplaced, ih]

theorem unreachable_unplaced (t : Table) (start : State) :
    t.unplaced.unreachable start.unplaced = (t.unreachable start).map State.unplaced := by
  have hrows := unreached_unplaced t.rows [start.id]
  rw [unreachable, unreachable, List.map_map]
  refine (congrArg (List.map (·.state)) hrows).trans ?_
  rw [List.map_map]
  rfl

theorem checkStart_unplaced (t : Table) : t.unplaced.checkStart = t.checkStart := by
  rw [checkStart, checkStart, start_unplaced, startStates_unplaced, List.length_map]
  cases t.start <;> rfl

theorem checkFinal_unplaced (t : Table) : t.unplaced.checkFinal = t.checkFinal := by
  rw [checkFinal, checkFinal, states_unplaced, List.any_map]
  rfl

theorem checkUnreachable_unplaced (t : Table) : t.unplaced.checkUnreachable = t.checkUnreachable := by
  rw [checkUnreachable, checkUnreachable, start_unplaced]
  cases t.start with
  | error e => rfl
  | ok start =>
    have hids : (t.unplaced.unreachable start.unplaced).map (·.id) = (t.unreachable start).map (·.id) := by
      rw [unreachable_unplaced, List.map_map]
      rfl
    simp only [Except.map, hids]

theorem checkFinalReachable_unplaced (t : Table) : t.unplaced.checkFinalReachable = t.checkFinalReachable := by
  rw [checkFinalReachable, checkFinalReachable, start_unplaced]
  cases t.start with
  | error e => rfl
  | ok start =>
    have hfinal : t.unplaced.states.filter (·.isFinal) = (t.states.filter (·.isFinal)).map State.unplaced := by
      rw [states_unplaced, List.filter_map]
      rfl
    simp only [Except.map, hfinal, unreachable_unplaced, List.isEmpty_map, List.all_map, List.any_map]
    rfl

theorem problems_unplaced (t : Table) : t.unplaced.problems = t.problems := by
  rw [problems, problems, checkStart_unplaced, checkFinal_unplaced, checkUnreachable_unplaced,
    checkFinalReachable_unplaced]

end Table

/-! ### Codes -/

namespace Code

theorem entersFinal_unplaced (t : Table) : NumberedRule.entersFinal t.unplaced = NumberedRule.entersFinal t := by
  funext r
  rw [NumberedRule.entersFinal, NumberedRule.entersFinal, Table.state?_unplaced, Option.any_map]
  rfl

theorem rulesOf_unplaced (t : Table) : rulesOf t.unplaced = rulesOf t := by
  rw [rulesOf, rulesOf, Table.rules_unplaced, List.mapM_map, entersFinal_unplaced]
  rfl

end Code

/-! ### Compiling -/

namespace Compilation

theorem addRule_unplaced (e : Edge) (target : State) (c : Compilation) (rule : Label.Rule) :
    addRule e target.unplaced c.unplaced rule = (addRule e target c rule).unplaced := by
  have hpush := c.table.push_unplaced e.source ⟨rule.read, rule.write, rule.direction, target⟩
  have hreads := c.table.reads_unplaced e.source rule.read
  unfold addRule
  rw [unplaced, hreads]
  split
  · rfl
  · exact congrArg (Compilation.mk · c.warnings) hpush

theorem addEdge_unplaced (c : Compilation) (e : Edge) : c.unplaced.addEdge e = (c.addEdge e).unplaced := by
  have hstate : ∀ id, c.unplaced.table.state? id = (c.table.state? id).map State.unplaced := c.table.state?_unplaced
  unfold addEdge
  rw [hstate, hstate]
  cases c.table.state? e.source with
  | none => rfl
  | some s =>
    cases c.table.state? e.target with
    | none => rfl
    | some target =>
      -- The target goes into every rule of the edge, and its position with it.
      have hrules : ∀ c : Compilation, e.rules.foldl (addRule e target.unplaced) c.unplaced =
          (e.rules.foldl (addRule e target) c).unplaced := fun c =>
        List.foldl_hom unplaced fun c rule => addRule_unplaced e target c rule
      exact hrules { c with warnings := c.warnings ++ e.rejections }

end Compilation

/-- A diagram without positions compiles to the table without positions, with the same warnings. -/
theorem compile_unplaced (d : Diagram) : compile d.unplaced = (compile d).unplaced := by
  have hstart : (⟨.ofStates d.unplaced.states, #[]⟩ : Compilation) = Compilation.unplaced ⟨.ofStates d.states, #[]⟩ :=
    congrArg (Compilation.mk · #[]) (Table.ofStates_unplaced d.states)
  rw [compile, compile, hstart]
  exact List.foldl_hom Compilation.unplaced Compilation.addEdge_unplaced

theorem encode_unplaced (d : Diagram) : encode d.unplaced = encode d := by
  have htable : (compile d.unplaced).table = (compile d).table.unplaced := congrArg (·.table) (compile_unplaced d)
  rw [encode, encode, htable, Code.rulesOf_unplaced]

end Tapeworks
