import Tapeworks.Proofs.Analysis

/-! The search for reachable states, one step at a time, with a stack of ids that wait to be visited. An id may wait more
    than once and rules may lead in circles, but a state puts its rules on the stack only once, so that the search ends
    after one step for the start state and at most one for each rule. What it has then visited are the reachable states,
    and the states that `Table.unreachable` gives are the others. -/

namespace Tapeworks

/-- A search under way: the ids that have been visited, and those that wait, the last one added first. -/
structure Search where
  visited : List String
  waiting : List String
  deriving DecidableEq, Repr

namespace Search

/-- The ids that the rules of a state lead to and that have not been visited. -/
def found (t : Table) (visited : List String) (id : String) : List String :=
  ((t.transitions id).map (·.target.id)).filter (· ∉ visited)

/-- Takes the id that was added last. If it is new, it is visited, and what its rules lead to has to wait. -/
def next? (t : Table) : Search → Option Search
  | ⟨_, []⟩ => none
  | ⟨visited, id :: waiting⟩ =>
    if id ∈ visited then some ⟨visited, waiting⟩
    else some ⟨id :: visited, (found t (id :: visited) id).reverse ++ waiting⟩

/-- The search `n` steps later, or when nothing waits any more. -/
def after (t : Table) : Nat → Search → Search
  | 0, s => s
  | n + 1, s =>
    match s.next? t with
    | none => s
    | some s' => after t n s'

def startingAt (id : String) : Search := ⟨[], [id]⟩

/-- What holds all along a search from `a`: nothing is visited twice, all that has been seen is reachable, and the rules
    of a visited state lead to what has been seen. -/
structure Sound (t : Table) (a : String) (s : Search) : Prop where
  nodup : s.visited.Nodup
  reached : ∀ id ∈ s.visited ++ s.waiting, t.Reaches a id
  closed : ∀ id ∈ s.visited, ∀ r ∈ t.transitions id, r.target.id ∈ s.visited ++ s.waiting
  first : a ∈ s.visited ++ s.waiting

/-- The rules of the states that have not been visited. -/
def pending (t : Table) (visited : List String) : List Transition :=
  (t.rows.filter (·.state.id ∉ visited)).flatMap (·.transitions)

/-- How many steps there can be: one for what waits, and one for each rule of a state that has not been visited. -/
def budget (t : Table) (s : Search) : Nat :=
  s.waiting.length + (pending t s.visited).length

variable {t : Table} {s s' : Search} {a id : String} {visited waiting : List String} {n : Nat}

/-! ### One step -/

/-- All that a step can do. -/
theorem next?_cases (h : s.next? t = some s') : ∃ id waiting, s.waiting = id :: waiting ∧
    (id ∈ s.visited ∧ s' = ⟨s.visited, waiting⟩ ∨
      id ∉ s.visited ∧ s' = ⟨id :: s.visited, (found t (id :: s.visited) id).reverse ++ waiting⟩) := by
  obtain ⟨visited, waiting⟩ := s
  cases waiting with
  | nil => cases h
  | cons id waiting =>
    refine ⟨id, waiting, rfl, ?_⟩
    rw [next?] at h
    split at h
    · rename_i hid
      exact Or.inl ⟨hid, (Option.some.inj h).symm⟩
    · rename_i hid
      exact Or.inr ⟨hid, (Option.some.inj h).symm⟩

theorem next?_eq_none_iff : s.next? t = none ↔ s.waiting = [] := by
  obtain ⟨visited, waiting⟩ := s
  cases waiting with
  | nil => exact ⟨fun _ => rfl, fun _ => rfl⟩
  | cons id waiting =>
    rw [next?]
    split
    · exact ⟨nofun, nofun⟩
    · exact ⟨nofun, nofun⟩

theorem mem_found : id ∈ found t visited a ↔ (∃ r ∈ t.transitions a, r.target.id = id) ∧ id ∉ visited := by
  simp [found]

theorem Sound.next (h : Sound t a s) (hnext : s.next? t = some s') : Sound t a s' := by
  obtain ⟨id, waiting, hwaiting, ⟨hid, rfl⟩ | ⟨hid, rfl⟩⟩ := next?_cases hnext
  · have hseen : ∀ id', id' ∈ s.visited ++ s.waiting ↔ id' ∈ s.visited ++ waiting := fun id' => by
      rw [hwaiting, List.mem_append, List.mem_append, List.mem_cons]
      exact ⟨fun h => h.elim Or.inl fun h => h.elim (fun he => Or.inl (he ▸ hid)) Or.inr, fun h => h.imp_right Or.inr⟩
    exact
      { nodup := h.nodup
        reached := fun id' hid' => h.reached id' ((hseen id').mpr hid')
        closed := fun id' hid' r hr => (hseen _).mp (h.closed id' hid' r hr)
        first := (hseen a).mp h.first }
  · have hreaches : t.Reaches a id := h.reached id (by simp [hwaiting])
    have hseen : ∀ id' ∈ s.visited ++ s.waiting,
        id' ∈ id :: s.visited ++ ((found t (id :: s.visited) id).reverse ++ waiting) := fun id' hid' => by
      rw [hwaiting] at hid'
      simp only [List.mem_append, List.mem_cons] at hid' ⊢
      tauto
    refine
      { nodup := List.nodup_cons.mpr ⟨hid, h.nodup⟩
        reached := fun id' hid' => ?_
        closed := fun id' hid' r hr => ?_
        first := hseen a h.first }
    · rcases List.mem_append.mp hid' with hid' | hid'
      · rcases List.mem_cons.mp hid' with rfl | hid'
        · exact hreaches
        · exact h.reached id' (List.mem_append_left _ hid')
      · rcases List.mem_append.mp hid' with hid' | hid'
        · obtain ⟨⟨r, hr, rfl⟩, -⟩ := mem_found.mp (List.mem_reverse.mp hid')
          exact hreaches.rule hr
        · exact h.reached id' (by simp [hwaiting, hid'])
    · rcases List.mem_cons.mp hid' with rfl | hid'
      · by_cases hold : r.target.id ∈ id' :: s.visited
        · exact List.mem_append_left _ hold
        · have hfound := mem_found.mpr ⟨⟨r, hr, rfl⟩, hold⟩
          exact List.mem_append_right _ (List.mem_append_left _ (List.mem_reverse.mpr hfound))
      · exact hseen _ (h.closed id' hid' r hr)

/-- Visiting a state leaves all pending rules but its own. -/
theorem length_pending_cons (hid : id ∉ visited) :
    (pending t (id :: visited)).length + (t.transitions id).length ≤ (pending t visited).length := by
  have hrest : (t.rows.filter (·.state.id ∉ visited)).filter (·.state.id ≠ id) =
      t.rows.filter (·.state.id ∉ id :: visited) := by
    rw [List.filter_filter]
    refine List.filter_congr fun row _ => ?_
    simp
  have hperm := (List.filter_append_perm (·.state.id ≠ id) (t.rows.filter (·.state.id ∉ visited))).flatMap_right
    (f := Row.transitions)
  rw [hrest, List.flatMap_append] at hperm
  have hlength := hperm.length_eq
  rw [List.length_append] at hlength
  refine Nat.le_trans (Nat.add_le_add_left ?_ _) (Nat.le_of_eq hlength)
  cases hrow : t.row? id with
  | none =>
    rw [Table.transitions, hrow]
    exact Nat.zero_le _
  | some row =>
    obtain ⟨hmem, rfl⟩ := Table.row?_eq_some hrow
    rw [Table.transitions, hrow]
    refine (List.sublist_flatten_of_mem (List.mem_map_of_mem (f := Row.transitions) ?_)).length_le
    simp [hmem, hid]

/-- Every step uses up some of the budget. -/
theorem budget_next? (h : s.next? t = some s') : s'.budget t < s.budget t := by
  obtain ⟨id, waiting, hwaiting, ⟨hid, rfl⟩ | ⟨hid, rfl⟩⟩ := next?_cases h
  · rw [budget, budget, hwaiting, List.length_cons]
    exact Nat.add_lt_add_right (Nat.lt_succ_self _) _
  · have hpending := length_pending_cons (t := t) hid
    have hfound : (found t (id :: s.visited) id).length ≤ (t.transitions id).length :=
      Nat.le_trans (List.length_filter_le _ _) (Nat.le_of_eq (List.length_map _))
    simp only [budget, hwaiting, List.length_append, List.length_reverse, List.length_cons]
    omega

/-! ### All steps -/

theorem Sound.after (h : Sound t a s) (n : Nat) : Sound t a (s.after t n) := by
  induction n generalizing s with
  | zero => exact h
  | succ n ih =>
    rw [Search.after]
    split
    · exact h
    · rename_i s' hnext
      exact ih (h.next hnext)

/-- The search is over when its budget is used up. -/
theorem waiting_after (h : s.budget t ≤ n) : (s.after t n).waiting = [] := by
  induction n generalizing s with
  | zero => exact List.eq_nil_of_length_eq_zero (Nat.le_zero.mp (Nat.le_trans (Nat.le_add_right _ _) h))
  | succ n ih =>
    rw [Search.after]
    split
    · rename_i hnone
      exact next?_eq_none_iff.mp hnone
    · rename_i s' hnext
      exact ih (Nat.le_of_lt_succ (Nat.lt_of_lt_of_le (budget_next? hnext) h))

theorem sound_startingAt (t : Table) (a : String) : Sound t a (startingAt a) where
  nodup := .nil
  reached := fun id hid => by
    obtain rfl := List.mem_singleton.mp hid
    exact Relation.ReflTransGen.refl
  closed := fun _ hid => absurd hid List.not_mem_nil
  first := List.mem_singleton_self a

theorem budget_startingAt (t : Table) (a : String) : (startingAt a).budget t = t.transitionCount + 1 := by
  have hpending : pending t [] = t.rules.map (·.2) := by
    rw [pending, Table.rules, List.map_flatMap]
    simp [Function.comp_def]
  rw [budget, startingAt, hpending, List.length_map, Table.transitionCount_eq, Nat.add_comm]
  rfl

/-- When nothing waits any more, the reachable ids have been visited. -/
theorem Sound.mem_visited_iff (h : Sound t a s) (hwaiting : s.waiting = []) : id ∈ s.visited ↔ t.Reaches a id := by
  have hseen : s.visited ++ s.waiting = s.visited := by rw [hwaiting, List.append_nil]
  constructor
  · exact fun hid => h.reached id (List.mem_append_left _ hid)
  · intro hreaches
    induction hreaches with
    | refl => exact hseen ▸ h.first
    | tail _ henters ih =>
      obtain ⟨r, hr, rfl⟩ := henters
      exact hseen ▸ h.closed _ ih r hr

/-- The search from a state, when it is over. -/
def exhausted (t : Table) (a : String) : Search :=
  (startingAt a).after t (t.transitionCount + 1)

theorem waiting_exhausted (t : Table) (a : String) : (exhausted t a).waiting = [] :=
  waiting_after (Nat.le_of_eq (budget_startingAt t a))

/-- The search ends, and has then visited the reachable ids, each once. -/
theorem mem_visited_exhausted_iff : id ∈ (exhausted t a).visited ↔ t.Reaches a id :=
  ((sound_startingAt t a).after _).mem_visited_iff (waiting_exhausted t a)

/-- Taking rows away leaves the states that the search does not visit. -/
theorem unreachable_eq (ht : Table.Ascending t.rows) (start : State) :
    t.unreachable start = t.states.filter (·.id ∉ (exhausted t start.id).visited) := by
  have hstates : t.states.Pairwise fun s s' => s.id < s'.id := List.pairwise_map.mpr ht
  have hsublist : (t.unreachable start).Sublist t.states := (Table.unreached_sublist _ _).map _
  have hmem : ∀ s, s ∈ t.unreachable start ↔ s ∈ t.states.filter (·.id ∉ (exhausted t start.id).visited) := fun s => by
    rw [Table.mem_unreachable_iff ht, List.mem_filter, decide_eq_true_eq, mem_visited_exhausted_iff]
  exact eq_of_mem_iff (fun _ _ => String.lt_asymm) (hstates.sublist hsublist) (hstates.filter _) hmem

end Search
end Tapeworks
