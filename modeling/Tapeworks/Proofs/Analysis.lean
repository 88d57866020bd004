import Mathlib.Logic.Relation
import Tapeworks.Analysis
import Tapeworks.Proofs.Table

/-! What the checks of a table find. The search leaves exactly the rows that no path of rules from the start state
    enters: it takes away no row but those on such paths, and when nothing is waiting any more, no rule of a row that
    has been taken away leads to one that is left. -/

namespace Tapeworks
namespace Table

variable {t : Table} {s start : State} {rows : List Row} {row gone : Row} {id : String} {waiting : List String}

/-! ### Paths -/

/-- A rule of one state leads to the other. -/
def Enters (t : Table) (a b : String) : Prop :=
  ∃ r ∈ t.transitions a, r.target.id = b

/-- Rules, each from the state that the one before it leads to, lead from one state to the other. -/
def Reaches (t : Table) : String → String → Prop :=
  Relation.ReflTransGen t.Enters

theorem Reaches.rule {a : String} (h : t.Reaches a id) {r : Transition} (hr : r ∈ t.transitions id) :
    t.Reaches a r.target.id :=
  Relation.ReflTransGen.tail h ⟨r, hr, rfl⟩

/-! ### The search -/

theorem mem_withoutRow : row ∈ withoutRow id rows ↔ row ∈ rows ∧ row.state.id ≠ id := by
  simp [withoutRow]

theorem Ascending.withoutRow (h : Ascending rows) (id : String) : Ascending (withoutRow id rows) :=
  List.Pairwise.filter _ h

theorem unreached_of_none (h : rows.find? (·.state.id = id) = none) :
    unreached rows (id :: waiting) = unreached rows waiting := by
  rw [unreached]
  split
  · rfl
  · rename_i row hrow
    rw [h] at hrow
    cases hrow

theorem unreached_of_some (h : rows.find? (·.state.id = id) = some row) :
    unreached rows (id :: waiting) =
      unreached (withoutRow id rows) (row.transitions.map (·.target.id) ++ waiting) := by
  rw [unreached]
  split
  · rename_i hrow
    rw [h] at hrow
    cases hrow
  · rename_i row' hrow
    rw [h] at hrow
    cases hrow
    rfl

/-- Only rows are left, in their order. -/
theorem unreached_sublist (rows : List Row) (waiting : List String) : (unreached rows waiting).Sublist rows := by
  induction rows, waiting using unreached.induct with
  | case1 rows => rw [unreached]
  | case2 rows id waiting hnone ih =>
    rw [unreached_of_none hnone]
    exact ih
  | case3 rows id waiting found hfound _ ih =>
    rw [unreached_of_some hfound]
    exact ih.trans List.filter_sublist

theorem mem_of_mem_unreached (h : row ∈ unreached rows waiting) : row ∈ rows :=
  (unreached_sublist rows waiting).mem h

/-- No row is left for a state that is waiting. -/
theorem not_waiting_of_mem_unreached (h : row ∈ unreached rows waiting) : row.state.id ∉ waiting := by
  induction rows, waiting using unreached.induct with
  | case1 rows => exact List.not_mem_nil
  | case2 rows id waiting hnone ih =>
    rw [unreached_of_none hnone] at h
    have hne : row.state.id ≠ id := by
      simpa using List.find?_eq_none.mp hnone row (mem_of_mem_unreached h)
    exact List.not_mem_cons_of_ne_of_not_mem hne (ih h)
  | case3 rows id waiting found hfound _ ih =>
    rw [unreached_of_some hfound] at h
    have hne : row.state.id ≠ id := (mem_withoutRow.mp (mem_of_mem_unreached h)).2
    exact List.not_mem_cons_of_ne_of_not_mem hne fun hwaiting => ih h (List.mem_append_right _ hwaiting)

/-- No rule of a row that has been taken away leads to a row that is left. -/
theorem target_ne_of_mem_unreached (hrows : Ascending rows) (h : row ∈ unreached rows waiting) (hgone : gone ∈ rows)
    (hleft : gone ∉ unreached rows waiting) {r : Transition} (hr : r ∈ gone.transitions) :
    r.target.id ≠ row.state.id := by
  induction rows, waiting using unreached.induct with
  | case1 rows =>
    rw [unreached] at hleft
    exact absurd hgone hleft
  | case2 rows id waiting hnone ih =>
    rw [unreached_of_none hnone] at h hleft
    exact ih hrows h hgone hleft
  | case3 rows id waiting found hfound _ ih =>
    rw [unreached_of_some hfound] at h hleft
    by_cases hid : gone.state.id = id
    · -- The row is the one found now, so that what its rules lead to is waiting.
      have hsame : rows.find? (·.state.id = id) = some gone := (find?_key_eq_some_iff hrows.nodup).mpr ⟨hgone, hid⟩
      rw [hfound] at hsame
      cases hsame
      intro htarget
      have hwaiting := List.mem_append_left waiting (List.mem_map_of_mem (f := (·.target.id)) hr)
      exact not_waiting_of_mem_unreached h (htarget ▸ hwaiting)
    · exact ih (hrows.withoutRow id) h (mem_withoutRow.mpr ⟨hgone, hid⟩) hleft

/-- A row that has been taken away is on a path: what is waiting is, and so is what a rule from there leads to. -/
theorem reaches_of_not_mem_unreached {a : String} (ht : Ascending t.rows) (hrows : ∀ row ∈ rows, row ∈ t.rows)
    (hwaiting : ∀ id ∈ waiting, t.Reaches a id) (hgone : gone ∈ rows) (hleft : gone ∉ unreached rows waiting) :
    t.Reaches a gone.state.id := by
  induction rows, waiting using unreached.induct with
  | case1 rows =>
    rw [unreached] at hleft
    exact absurd hgone hleft
  | case2 rows id waiting hnone ih =>
    rw [unreached_of_none hnone] at hleft
    exact ih hrows (fun id' hid' => hwaiting id' (List.mem_cons_of_mem _ hid')) hgone hleft
  | case3 rows id waiting found hfound _ ih =>
    rw [unreached_of_some hfound] at hleft
    have hid : t.Reaches a id := hwaiting id List.mem_cons_self
    by_cases hsame : gone.state.id = id
    · exact hsame ▸ hid
    · refine ih (fun row hrow => hrows row (mem_withoutRow.mp hrow).1) ?_ (mem_withoutRow.mpr ⟨hgone, hsame⟩) hleft
      intro id' hid'
      rcases List.mem_append.mp hid' with htarget | hold
      · obtain ⟨r, hr, rfl⟩ := List.mem_map.mp htarget
        have hfoundId : found.state.id = id := by simpa using List.find?_some hfound
        refine hid.rule ?_
        rw [← hfoundId, transitions_of_mem ht (hrows found (List.mem_of_find?_eq_some hfound))]
        exact hr
      · exact hwaiting id' (List.mem_cons_of_mem _ hold)

/-- No row is left for a state on a path from one that is waiting. -/
theorem ne_of_reaches {a : String} (ht : Ascending t.rows) (ha : a ∈ waiting) (h : t.Reaches a id)
    (hrow : row ∈ unreached t.rows waiting) : row.state.id ≠ id := by
  induction h generalizing row with
  | refl =>
    intro he
    exact not_waiting_of_mem_unreached hrow (he ▸ ha)
  | @tail b c _ henters ih =>
    obtain ⟨r, hr, rfl⟩ := henters
    obtain ⟨gone, hgone, hid, hr⟩ := exists_row_of_mem_transitions hr
    have hleft : gone ∉ unreached t.rows waiting := fun hleft => ih hleft hid
    exact (target_ne_of_mem_unreached ht hrow hgone hleft hr).symm

/-- The unreachable states are those that no path from the start state enters. -/
theorem mem_unreachable_iff (ht : Ascending t.rows) :
    s ∈ t.unreachable start ↔ s ∈ t.states ∧ ¬t.Reaches start.id s.id := by
  constructor
  · intro h
    obtain ⟨row, hrow, rfl⟩ := List.mem_map.mp h
    refine ⟨List.mem_map_of_mem (mem_of_mem_unreached hrow), fun hreaches => ?_⟩
    exact ne_of_reaches ht List.mem_cons_self hreaches hrow rfl
  · rintro ⟨hs, hreaches⟩
    obtain ⟨row, hrow, rfl⟩ := List.mem_map.mp hs
    refine List.mem_map_of_mem (Classical.byContradiction fun hleft => hreaches ?_)
    refine reaches_of_not_mem_unreached ht (fun _ h => h) (fun id hid => ?_) hrow hleft
    obtain rfl := List.mem_singleton.mp hid
    exact Relation.ReflTransGen.refl

theorem mem_unreachable_ids_iff (ht : Ascending t.rows) :
    id ∈ (t.unreachable start).map (·.id) ↔ (∃ s ∈ t.states, s.id = id) ∧ ¬t.Reaches start.id id := by
  rw [List.mem_map]
  constructor
  · rintro ⟨s, hs, rfl⟩
    obtain ⟨hmem, hreaches⟩ := (mem_unreachable_iff ht).mp hs
    exact ⟨⟨s, hmem, rfl⟩, hreaches⟩
  · rintro ⟨⟨s, hs, rfl⟩, hreaches⟩
    exact ⟨s, (mem_unreachable_iff ht).mpr ⟨hs, hreaches⟩, rfl⟩

/-! ### The checks -/

/-- What each problem says of the table. -/
def Holds (t : Table) : Problem → Prop
  | .startState n => t.start = .error (.noUniqueStart n)
  | .noFinalState => ∀ s ∈ t.states, ¬s.isFinal
  | .unreachableStates ids => ∃ start, t.start = .ok start ∧ t.unreachable start ≠ [] ∧
      ids = ((t.unreachable start).map (·.id)).mergeSort idBefore
  | .finalUnreachable => ∃ start, t.start = .ok start ∧ (∃ s ∈ t.states, s.isFinal) ∧
      ∀ s ∈ t.states, s.isFinal → ¬t.Reaches start.id s.id

theorem start_cases (t : Table) : (∃ s, t.start = .ok s) ∨ t.start = .error (.noUniqueStart t.startStates.length) := by
  unfold Table.start
  split
  · exact Or.inl ⟨_, rfl⟩
  · exact Or.inr rfl

theorem checkStart_eq_some_iff {p : Problem} : t.checkStart = some p ↔ ∃ n, p = .startState n ∧ t.Holds p := by
  unfold checkStart
  rcases t.start_cases with ⟨s, hs⟩ | hs
  · rw [hs]
    refine ⟨nofun, ?_⟩
    rintro ⟨n, rfl, hn⟩
    cases hs.symm.trans hn
  · rw [hs]
    constructor
    · intro h
      cases h
      exact ⟨_, rfl, hs⟩
    · rintro ⟨n, rfl, hn⟩
      cases hs.symm.trans hn
      rfl

theorem checkFinal_eq_some_iff {p : Problem} : t.checkFinal = some p ↔ p = .noFinalState ∧ t.Holds p := by
  unfold checkFinal
  split
  · rename_i hfinal
    obtain ⟨s, hs, hf⟩ := List.any_eq_true.mp hfinal
    refine ⟨nofun, ?_⟩
    rintro ⟨rfl, hnone⟩
    exact absurd hf (hnone s hs)
  · rename_i hfinal
    constructor
    · intro h
      cases h
      exact ⟨rfl, fun s hs hf => hfinal (List.any_eq_true.mpr ⟨s, hs, hf⟩)⟩
    · rintro ⟨rfl, -⟩
      rfl

theorem checkUnreachable_eq_some_iff {p : Problem} :
    t.checkUnreachable = some p ↔ ∃ ids, p = .unreachableStates ids ∧ t.Holds p := by
  unfold checkUnreachable
  rcases t.start_cases with ⟨start, hs⟩ | hs
  · simp only [hs]
    split
    · rename_i hnil
      refine ⟨nofun, ?_⟩
      rintro ⟨ids, rfl, start', hstart, hne, -⟩
      cases hs.symm.trans hstart
      exact absurd (List.map_eq_nil_iff.mp hnil) hne
    · rename_i hnil
      constructor
      · intro h
        cases h
        exact ⟨_, rfl, start, hs, fun h => hnil (List.map_eq_nil_iff.mpr h), rfl⟩
      · rintro ⟨ids, rfl, start', hstart, -, rfl⟩
        cases hs.symm.trans hstart
        rfl
  · simp only [hs]
    refine ⟨nofun, ?_⟩
    rintro ⟨ids, rfl, start, hstart, -⟩
    cases hs.symm.trans hstart

/-- A state is found among the unreachable ones by its id. -/
theorem any_unreachable_iff (ht : Ascending t.rows) (hs : s ∈ t.states) :
    (t.unreachable start).any (·.id = s.id) ↔ ¬t.Reaches start.id s.id := by
  rw [List.any_eq_true]
  constructor
  · rintro ⟨s', hs', hid⟩
    have hid : s'.id = s.id := by simpa using hid
    exact hid ▸ ((mem_unreachable_iff ht).mp hs').2
  · intro h
    exact ⟨s, (mem_unreachable_iff ht).mpr ⟨hs, h⟩, by simp⟩

theorem checkFinalReachable_eq_some_iff (ht : Ascending t.rows) {p : Problem} :
    t.checkFinalReachable = some p ↔ p = .finalUnreachable ∧ t.Holds p := by
  unfold checkFinalReachable
  rcases t.start_cases with ⟨start, hstart⟩ | hstart
  · simp only [hstart]
    have hcheck : (!(t.states.filter (·.isFinal)).isEmpty &&
        (t.states.filter (·.isFinal)).all fun s => (t.unreachable start).any (·.id = s.id)) = true ↔
          (∃ s ∈ t.states, s.isFinal) ∧ ∀ s ∈ t.states, s.isFinal → ¬t.Reaches start.id s.id := by
      rw [Bool.and_eq_true, List.all_eq_true]
      refine and_congr (by simp) ?_
      constructor
      · intro h s hs hfinal
        exact (any_unreachable_iff ht hs).mp (h s (List.mem_filter.mpr ⟨hs, hfinal⟩))
      · intro h s hs
        obtain ⟨hs, hfinal⟩ := List.mem_filter.mp hs
        exact (any_unreachable_iff ht hs).mpr (h s hs hfinal)
    split
    · rename_i h
      constructor
      · intro hp
        cases hp
        exact ⟨rfl, start, hstart, hcheck.mp h⟩
      · rintro ⟨rfl, -⟩
        rfl
    · rename_i h
      refine ⟨nofun, ?_⟩
      rintro ⟨rfl, start', hstart', hfound⟩
      cases hstart.symm.trans hstart'
      exact absurd (hcheck.mpr hfound) h
  · simp only [hstart]
    refine ⟨nofun, ?_⟩
    rintro ⟨rfl, start, hstart', -⟩
    cases hstart.symm.trans hstart'

/-- The problems that are found are those that the table has. -/
theorem mem_problems_iff (ht : Ascending t.rows) (p : Problem) : p ∈ t.problems ↔ t.Holds p := by
  have hmem : p ∈ t.problems ↔ t.checkStart = some p ∨ t.checkFinal = some p ∨ t.checkUnreachable = some p ∨
      t.checkFinalReachable = some p := by
    simp [problems, eq_comm]
  rw [hmem, checkStart_eq_some_iff, checkFinal_eq_some_iff, checkUnreachable_eq_some_iff,
    checkFinalReachable_eq_some_iff ht]
  cases p <;> simp

/-- The ids that are reported are those of the states that no path from the start state enters. -/
theorem mem_unreachableStates_iff (ht : Ascending t.rows) {ids : List String}
    (h : .unreachableStates ids ∈ t.problems) (hstart : t.start = .ok start) :
    id ∈ ids ↔ (∃ s ∈ t.states, s.id = id) ∧ ¬t.Reaches start.id id := by
  obtain ⟨start', hstart', -, rfl⟩ := (mem_problems_iff ht _).mp h
  cases hstart.symm.trans hstart'
  rw [List.mem_mergeSort, mem_unreachable_ids_iff ht]

/-- Nothing is found just where paths lead from the only start state to all states and one of them is final. -/
theorem problems_eq_nil_iff (ht : Ascending t.rows) : t.problems = [] ↔
    ∃ start, t.start = .ok start ∧ (∀ s ∈ t.states, t.Reaches start.id s.id) ∧ ∃ s ∈ t.states, s.isFinal := by
  rw [List.eq_nil_iff_forall_not_mem]
  constructor
  · intro h
    have hnot : ∀ p, ¬t.Holds p := fun p hp => h p ((mem_problems_iff ht p).mpr hp)
    rcases t.start_cases with ⟨start, hstart⟩ | hstart
    · have hall : t.unreachable start = [] :=
        Classical.byContradiction fun hne => hnot (.unreachableStates _) ⟨start, hstart, hne, rfl⟩
      have hfinal : ∃ s ∈ t.states, s.isFinal :=
        Classical.byContradiction fun hno => hnot .noFinalState fun s hs hf => hno ⟨s, hs, hf⟩
      refine ⟨start, hstart, fun s hs => Classical.byContradiction fun hreaches => ?_, hfinal⟩
      exact absurd ((mem_unreachable_iff ht).mpr ⟨hs, hreaches⟩) (hall ▸ List.not_mem_nil)
    · exact absurd hstart (hnot (.startState _))
  · rintro ⟨start, hstart, hall, final, hfinal, hf⟩ p hp
    have hholds := (mem_problems_iff ht p).mp hp
    cases p with
    | startState n => cases hstart.symm.trans hholds
    | noFinalState => exact hholds final hfinal hf
    | unreachableStates ids =>
      obtain ⟨start', hstart', hne, -⟩ := hholds
      cases hstart.symm.trans hstart'
      refine hne (List.eq_nil_iff_forall_not_mem.mpr fun s hs => ?_)
      obtain ⟨hmem, hreaches⟩ := (mem_unreachable_iff ht).mp hs
      exact hreaches (hall s hmem)
    | finalUnreachable =>
      obtain ⟨start', hstart', -, hnone⟩ := hholds
      cases hstart.symm.trans hstart'
      exact hnone final hfinal hf (hall final hfinal)

end Table
end Tapeworks
