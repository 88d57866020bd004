import Tapeworks.Proofs.Analysis.Search
import Tapeworks.Proofs.Compile

/-! What is found in a compiled table, and in which order. The problems come in the order of the checks, each at most
    once, and each just when the graph of the rules has it. The unreachable ids are listed once each: by the numbers that
    they stand for, and where these are the same by their texts. -/

namespace Tapeworks

/-! ### The order of ids -/

/-- The number that an id is ordered by. -/
def idWord (id : String) : Nat :=
  (Text.word? id).getD (Text.wordLimit - 1)

/-- Ids come in the order of their numbers, and those of one number in the order of their texts. -/
def IdPrecedes (a b : String) : Prop :=
  idWord a < idWord b ∨ idWord a = idWord b ∧ a < b

variable {a b c id : String}

theorem IdPrecedes.trans (hab : IdPrecedes a b) (hbc : IdPrecedes b c) : IdPrecedes a c := by
  rcases hab with hab | ⟨hab, hab'⟩ <;> rcases hbc with hbc | ⟨hbc, hbc'⟩
  · exact Or.inl (Nat.lt_trans hab hbc)
  · exact Or.inl (hbc ▸ hab)
  · exact Or.inl (hab ▸ hbc)
  · exact Or.inr ⟨hab.trans hbc, String.lt_trans hab' hbc'⟩

theorem IdPrecedes.irrefl (a : String) : ¬IdPrecedes a a := fun h =>
  h.elim (Nat.lt_irrefl _) fun h => String.lt_irrefl a h.2

theorem IdPrecedes.ne (h : IdPrecedes a b) : a ≠ b := by
  rintro rfl
  exact IdPrecedes.irrefl a h

theorem idPrecedes_total (a b : String) : IdPrecedes a b ∨ a = b ∨ IdPrecedes b a := by
  rcases Nat.lt_trichotomy (idWord a) (idWord b) with h | h | h
  · exact Or.inl (Or.inl h)
  · by_cases hab : a < b
    · exact Or.inl (Or.inr ⟨h, hab⟩)
    · by_cases he : a = b
      · exact Or.inr (Or.inl he)
      · have hba : b < a := String.not_le.mp fun hle => he (String.le_antisymm hle (String.not_lt.mp hab))
        exact Or.inr (Or.inr (Or.inr ⟨h.symm, hba⟩))
  · exact Or.inr (Or.inr (Or.inl h))

theorem idBefore_iff : Table.idBefore a b ↔ IdPrecedes a b ∨ a = b := by
  have hle : a ≤ b ↔ a < b ∨ a = b := by
    constructor
    · intro h
      by_cases he : a = b
      · exact Or.inr he
      · exact Or.inl (String.not_le.mp fun hba => he (String.le_antisymm h hba))
    · rintro (h | rfl)
      · exact String.not_lt.mp fun hba => String.lt_irrefl a (String.lt_trans h hba)
      · exact String.not_lt.mp (String.lt_irrefl a)
  have hbefore : Table.idBefore a b ↔ idWord a < idWord b ∨ idWord a = idWord b ∧ a ≤ b := by
    simp [Table.idBefore, idWord]
  rw [hbefore, hle, IdPrecedes]
  constructor
  · rintro (h | ⟨h, h' | rfl⟩)
    · exact Or.inl (Or.inl h)
    · exact Or.inl (Or.inr ⟨h, h'⟩)
    · exact Or.inr rfl
  · rintro ((h | ⟨h, h'⟩) | rfl)
    · exact Or.inl h
    · exact Or.inr ⟨h, Or.inl h'⟩
    · exact Or.inr ⟨rfl, Or.inr rfl⟩

/-- Distinct ids are sorted strictly. -/
theorem pairwise_mergeSort_idBefore {ids : List String} (h : ids.Nodup) :
    (ids.mergeSort Table.idBefore).Pairwise IdPrecedes := by
  have hsorted : (ids.mergeSort Table.idBefore).Pairwise fun a b => Table.idBefore a b := by
    refine List.pairwise_mergeSort (fun a b c hab hbc => ?_) (fun a b => ?_) ids
    · rw [idBefore_iff] at *
      rcases hab with hab | rfl
      · rcases hbc with hbc | rfl
        · exact Or.inl (hab.trans hbc)
        · exact Or.inl hab
      · exact hbc
    · rw [Bool.or_eq_true, idBefore_iff, idBefore_iff]
      rcases idPrecedes_total a b with h | h | h
      · exact Or.inl (Or.inl h)
      · exact Or.inl (Or.inr h)
      · exact Or.inr (Or.inl h)
  have hnodup : (ids.mergeSort Table.idBefore).Nodup := (List.mergeSort_perm ids _).nodup_iff.mpr h
  exact (hsorted.and hnodup).imp fun ⟨hab, hne⟩ => (idBefore_iff.mp hab).resolve_right hne

/-! ### Findings -/

/-- The place of the check that finds the problem. -/
def Problem.rank : Problem → Nat
  | startState _ => 0
  | noFinalState => 1
  | unreachableStates _ => 2
  | finalUnreachable => 3

/-- The search ends, and the problems are those of the graph that the rules of the table make up. -/
structure Diagnosed (t : Table) (problems : List Problem) : Prop where
  search : ∀ start, t.startStates = [start] → (Search.exhausted t start.id).next? t = none ∧
    (Search.exhausted t start.id).visited.Nodup ∧
    (∀ id, id ∈ (Search.exhausted t start.id).visited ↔ t.Reaches start.id id) ∧
    t.unreachable start = t.states.filter (·.id ∉ (Search.exhausted t start.id).visited)
  order : problems.Pairwise fun p q => p.rank < q.rank
  startState : ∀ n, .startState n ∈ problems ↔ n = t.startStates.length ∧ n ≠ 1
  noFinalState : .noFinalState ∈ problems ↔ ∀ s ∈ t.states, ¬s.isFinal
  unreachableStates : ∀ ids, .unreachableStates ids ∈ problems ↔ ∃ start, t.startStates = [start] ∧ ids ≠ [] ∧
    ids.Pairwise IdPrecedes ∧ ∀ id, id ∈ ids ↔ (∃ s ∈ t.states, s.id = id) ∧ ¬t.Reaches start.id id
  finalUnreachable : .finalUnreachable ∈ problems ↔ ∃ start, t.startStates = [start] ∧ (∃ s ∈ t.states, s.isFinal) ∧
    ∀ s ∈ t.states, s.isFinal → ¬t.Reaches start.id s.id

namespace Table

variable {t : Table} {start : State} {ids : List String}

theorem start_eq_ok_iff : t.start = .ok start ↔ t.startStates = [start] := by
  unfold Table.start
  split
  · rename_i s hs
    rw [hs]
    simp
  · rename_i hs
    exact iff_of_false nofun (hs start)

theorem start_eq_error_iff {n : Nat} : t.start = .error (.noUniqueStart n) ↔ n = t.startStates.length ∧ n ≠ 1 := by
  unfold Table.start
  split
  · rename_i s hs
    rw [hs]
    exact iff_of_false nofun fun h => h.2 h.1
  · rename_i hs
    constructor
    · intro h
      cases h
      exact ⟨rfl, fun h => (List.length_eq_one_iff.mp h).elim hs⟩
    · rintro ⟨rfl, -⟩
      rfl

/-- Each check finds its own problem, at most once. -/
theorem pairwise_problems (ht : Ascending t.rows) : t.problems.Pairwise fun p q => p.rank < q.rank := by
  have hstart : ∀ p, t.checkStart = some p → p.rank = 0 := fun p hp => by
    obtain ⟨n, rfl, -⟩ := checkStart_eq_some_iff.mp hp
    rfl
  have hfinal : ∀ p, t.checkFinal = some p → p.rank = 1 := fun p hp => by
    rw [(checkFinal_eq_some_iff.mp hp).1]
    rfl
  have hunreachable : ∀ p, t.checkUnreachable = some p → p.rank = 2 := fun p hp => by
    obtain ⟨ids, rfl, -⟩ := checkUnreachable_eq_some_iff.mp hp
    rfl
  have hfinalReachable : ∀ p, t.checkFinalReachable = some p → p.rank = 3 := fun p hp => by
    rw [((checkFinalReachable_eq_some_iff ht).mp hp).1]
    rfl
  rw [problems, List.pairwise_filterMap]
  simp only [List.pairwise_cons, List.forall_mem_cons, id]
  grind

/-- The ids that are reported are settled by which states are unreachable. -/
theorem unreachable_ids_eq_iff (ht : Ascending t.rows) :
    (t.unreachable start ≠ [] ∧ ids = ((t.unreachable start).map (·.id)).mergeSort idBefore) ↔
      ids ≠ [] ∧ ids.Pairwise IdPrecedes ∧
        ∀ id, id ∈ ids ↔ (∃ s ∈ t.states, s.id = id) ∧ ¬t.Reaches start.id id := by
  have hnodup : ((t.unreachable start).map (·.id)).Nodup := by
    have hsublist := (unreached_sublist t.rows [start.id]).map (·.state.id)
    rw [unreachable, List.map_map]
    exact ht.nodup.sublist hsublist
  have hsorted := pairwise_mergeSort_idBefore hnodup
  have hmem : ∀ id, id ∈ ((t.unreachable start).map (·.id)).mergeSort idBefore ↔
      (∃ s ∈ t.states, s.id = id) ∧ ¬t.Reaches start.id id := fun id => by
    rw [List.mem_mergeSort, mem_unreachable_ids_iff ht]
  constructor
  · rintro ⟨hne, rfl⟩
    refine ⟨fun hnil => hne ?_, hsorted, hmem⟩
    have hlength := (List.mergeSort_perm ((t.unreachable start).map (·.id)) idBefore).length_eq
    rw [hnil, List.length_map] at hlength
    exact List.eq_nil_of_length_eq_zero hlength.symm
  · rintro ⟨hne, hpairwise, hids⟩
    obtain ⟨id, hid⟩ := List.exists_mem_of_ne_nil ids hne
    constructor
    · intro hnil
      have hin := (hmem id).mpr ((hids id).mp hid)
      rw [hnil, List.mem_mergeSort] at hin
      exact absurd hin List.not_mem_nil
    · have hperm := (List.perm_ext_iff_of_nodup (hpairwise.imp IdPrecedes.ne) (hsorted.imp IdPrecedes.ne)).mpr
        fun id => (hids id).trans (hmem id).symm
      exact hperm.eq_of_pairwise (fun a _ _ _ h h' => absurd (h.trans h') (IdPrecedes.irrefl a)) hpairwise hsorted

end Table

/-- The analysis of a compiled table reports what its graph is like, and nothing else. -/
theorem diagnosed_compile (d : Diagram) : Diagnosed (compile d).table (compile d).table.problems := by
  have ht := ascending_compile d
  refine
    { search := fun start _ => ⟨Search.next?_eq_none_iff.mpr (Search.waiting_exhausted _ _),
        ((Search.sound_startingAt _ _).after _).nodup, fun _ => Search.mem_visited_exhausted_iff,
        Search.unreachable_eq ht start⟩
      order := Table.pairwise_problems ht
      startState := fun n => (Table.mem_problems_iff ht _).trans Table.start_eq_error_iff
      noFinalState := Table.mem_problems_iff ht _
      unreachableStates := fun ids => (Table.mem_problems_iff ht _).trans (exists_congr fun start => ?_)
      finalUnreachable := (Table.mem_problems_iff ht _).trans (exists_congr fun start => ?_) }
  · rw [Table.start_eq_ok_iff, Table.unreachable_ids_eq_iff ht]
  · rw [Table.start_eq_ok_iff]

end Tapeworks
