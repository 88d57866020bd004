import Tapeworks.Proofs.Diagram.Editing
import Tapeworks.Proofs.Diagram.LocalEffect

/-! Edits that undo each other. What is added comes last and has an id of its own, so that removing what has this id takes
    away what was added and nothing else. A state that is removed takes along all edges that mention it, and no edge is
    left to come back to life when a later state gets its id. -/

namespace Tapeworks
namespace Diagram

/-- The diagram without the state `s`, which alone had the id, and without the edges that started or ended at it. -/
structure Removed (d : Diagram) (id : String) (s : State) (d' : Diagram) : Prop where
  sole : d.states.filter (·.id = id) = [s]
  states : d'.states = d.states.filter (·.id ≠ id)
  edges : d'.edges = d.edges.filter fun e => e.source ≠ id ∧ e.target ≠ id
  detached : ∀ e ∈ d'.edges, e.source ≠ id ∧ e.target ≠ id
  wellFormed : d'.WellFormed
  nextId : ∀ n, id = Text.numeral n → d'.nextId = Text.numeral (min n (freeNumber d.nodes))

/-- A state that gets the next id is the only one that has it, no edge mentions it, and no rule becomes its own. -/
structure NextIdSafe (d : Diagram) (position : Position) : Prop where
  wellFormed : (d.addState position).WellFormed
  detached : ∀ e ∈ (d.addState position).edges, e.source ≠ d.nextId ∧ e.target ≠ d.nextId
  table : Table.GainsState (d.newState position) (compile d).table (compile (d.addState position)).table

structure Undoable (d : Diagram) : Prop where
  addState : d.Storable → ∀ position,
    (d.addState position).removeState (d.newState position).id = .ok (d.newState position, d)
  connect : ∀ source target e d', d.connect source target = .ok (e, d') → d'.removeEdge e.id = .ok (e, d)
  removeState : ∀ id, (∃ s d', d.removeState id = .ok (s, d')) ↔ id ∈ d.nodes
  refused : ∀ id, id ∉ d.nodes → d.removeState id = .error (.unknownState id)
  removed : ∀ id s d', d.removeState id = .ok (s, d') → d.Removed id s d'
  reused : d.Storable → ∀ id s d', d.removeState id = .ok (s, d') → ∀ position, d'.NextIdSafe position

variable {d d' : Diagram} {s : State} {id : String}

/-! ### The only one with an id -/

section Sole

variable {α : Type} {k : α → String} {front back l : List α} {a : α} (h : FirstAt k l front a back)
  (hnodup : (l.map k).Nodup)
include h hnodup

theorem FirstAt.ne_of_mem {b : α} (hb : b ∈ front ++ back) : k b ≠ k a := by
  intro hk
  rw [h.parts, List.map_append, List.map_cons] at hnodup
  refine (List.nodup_middle.mp hnodup).notMem ?_
  rw [← List.map_append, ← hk]
  exact List.mem_map_of_mem hb

theorem FirstAt.filter_ne : l.filter (k · ≠ k a) = front ++ back := by
  rw [h.filter_of_neg (by simp)]
  exact List.filter_eq_self.mpr fun b hb => decide_eq_true (h.ne_of_mem hnodup hb)

theorem FirstAt.filter_eq : l.filter (k · = k a) = [a] := by
  have hrest : (front ++ back).filter (k · = k a) = [] :=
    List.filter_eq_nil_iff.mpr fun b hb => by simpa using h.ne_of_mem hnodup hb
  rw [List.filter_append, List.append_eq_nil_iff] at hrest
  rw [h.parts, List.filter_append, hrest.1, List.filter_cons_of_pos (by simp), hrest.2, List.nil_append]

end Sole

theorem removeState_eq_ok (h : d.removeState id = .ok (s, d')) : ∃ front back, FirstAt State.id d.states front s back ∧
    s.id = id ∧ d' = ⟨front ++ back, d.edges.filter fun e => e.source ≠ id ∧ e.target ≠ id⟩ := by
  rcases exists_firstAt State.id d.states id with hnone | ⟨front, s', back, hfirst, rfl⟩
  · cases h.symm.trans (removeState_of_not_mem hnone)
  · cases h.symm.trans (removeState_of_firstAt hfirst)
    exact ⟨front, back, hfirst, rfl, rfl⟩

theorem exists_removeState_iff : (∃ s d', d.removeState id = .ok (s, d')) ↔ id ∈ d.nodes := by
  constructor
  · rintro ⟨s, d', h⟩
    by_contra hid
    cases h.symm.trans (removeState_of_not_mem hid)
  · intro hid
    rcases exists_firstAt State.id d.states id with hnone | ⟨front, s, back, hfirst, rfl⟩
    · exact absurd hid hnone
    · exact ⟨_, _, removeState_of_firstAt hfirst⟩

theorem Removed.storable (h : d.Removed id s d') (hroom : d.Storable) : d'.Storable := by
  have hlength := List.length_filter_le (fun s => decide (s.id ≠ id)) d.states
  rw [← h.states] at hlength
  exact Nat.lt_of_le_of_lt hlength hroom

namespace WellFormed

variable (h : d.WellFormed)
include h

/-! ### What is added is removed -/

theorem detached_nextId (hroom : d.Storable) : ∀ e ∈ d.edges, e.source ≠ d.nextId ∧ e.target ≠ d.nextId := by
  intro e he
  obtain ⟨hs, ht⟩ := h.attached e he
  exact ⟨fun heq => hroom.nextId_not_mem (heq ▸ hs), fun heq => hroom.nextId_not_mem (heq ▸ ht)⟩

theorem removeState_addState (hroom : d.Storable) (position : Position) :
    (d.addState position).removeState (d.newState position).id = .ok (d.newState position, d) := by
  have hlast : FirstAt State.id (d.addState position).states d.states (d.newState position) [] := by
    refine ⟨rfl, fun s hs hid => hroom.nextId_not_mem ?_⟩
    exact List.mem_map.mpr ⟨s, hs, hid⟩
  have hedges : d.edges.filter (fun e => e.source ≠ d.nextId ∧ e.target ≠ d.nextId) = d.edges :=
    List.filter_eq_self.mpr fun e he => decide_eq_true (h.detached_nextId hroom e he)
  refine (removeState_of_firstAt hlast).trans ?_
  rw [List.append_nil]
  exact congrArg (fun edges => Except.ok (_, Diagram.mk d.states edges)) hedges

theorem removeEdge_connect {source target : String} {e : Edge} (hconnect : d.connect source target = .ok (e, d')) :
    d'.removeEdge e.id = .ok (e, d) := by
  obtain ⟨hs, ht, hlink, rfl, rfl⟩ := connect_eq_ok hconnect
  have hids := (h.connect Edge.defaultLabel hs ht hlink).nodup_edge_ids
  have hlast : FirstAt Edge.id (d.edges ++ [Edge.between source target Edge.defaultLabel]) d.edges
      (Edge.between source target Edge.defaultLabel) [] := by
    refine ⟨rfl, fun e he hid => ?_⟩
    rw [List.map_append, List.nodup_append] at hids
    exact hids.2.2 e.id (List.mem_map_of_mem he) _ (List.mem_singleton_self _) hid
  refine (removeEdge_of_firstAt (d := ⟨d.states, _⟩) hlast).trans ?_
  rw [List.append_nil]

/-! ### States that are removed -/

/-- The smaller one of the number that has become free and of the one that was free before. -/
theorem freeNumber_removed {n : Nat} (hid : Text.numeral n ∈ d.nodes) {ids : List String}
    (hids : ∀ id, id ∈ ids ↔ id ∈ d.nodes ∧ id ≠ Text.numeral n) : freeNumber ids = min n (freeNumber d.nodes) := by
  obtain ⟨hpos, hfree, htaken⟩ := freeNumber_eq_iff.mp (rfl : freeNumber d.nodes = _)
  have hn : 0 < n := by
    obtain ⟨m, hm, heq⟩ := h.numerals _ hid
    exact Text.numeral_injective heq ▸ hm
  refine freeNumber_eq_iff.mpr ⟨Nat.lt_min.mpr ⟨hn, hpos⟩, fun id hmem hword => ?_, fun m hm hlt => ?_⟩
  · obtain ⟨hold, hne⟩ := (hids id).mp hmem
    rcases Nat.le_total n (freeNumber d.nodes) with hle | hle
    · rw [Nat.min_eq_left hle] at hword
      obtain ⟨m, -, rfl⟩ := h.numerals id hold
      exact hne (congrArg Text.numeral (Text.word?_numeral_eq_some hword).symm)
    · rw [Nat.min_eq_right hle] at hword
      exact hfree id hold hword
  · obtain ⟨hltn, hltfree⟩ := Nat.lt_min.mp hlt
    obtain ⟨id, hold, hword⟩ := htaken m hm hltfree
    refine ⟨id, (hids id).mpr ⟨hold, ?_⟩, hword⟩
    rintro rfl
    exact Nat.ne_of_lt hltn (Text.word?_numeral_eq_some hword)

theorem removed (hremove : d.removeState id = .ok (s, d')) : d.Removed id s d' := by
  obtain ⟨front, back, hfirst, rfl, rfl⟩ := removeState_eq_ok hremove
  have hstates : front ++ back = d.states.filter (·.id ≠ s.id) := (hfirst.filter_ne h.distinct).symm
  have hnodes : ∀ id, id ∈ (front ++ back).map (·.id) ↔ id ∈ d.nodes ∧ id ≠ s.id := by
    intro id
    rw [hstates, nodes, List.mem_map, List.mem_map]
    simp only [List.mem_filter, decide_eq_true_eq]
    constructor
    · rintro ⟨s', ⟨hs', hne⟩, rfl⟩
      exact ⟨⟨s', hs', rfl⟩, hne⟩
    · rintro ⟨⟨s', hs', rfl⟩, hne⟩
      exact ⟨s', ⟨hs', hne⟩, rfl⟩
  refine ⟨hfirst.filter_eq h.distinct, hstates, rfl, fun e he => of_decide_eq_true (List.mem_filter.mp he).2,
    h.removeState hfirst.parts, fun n hn => ?_⟩
  have hid : Text.numeral n ∈ d.nodes := hn ▸ exists_removeState_iff.mp ⟨_, _, hremove⟩
  exact congrArg Text.numeral (h.freeNumber_removed hid (hn ▸ hnodes))

theorem nextIdSafe (hroom : d.Storable) (position : Position) : d.NextIdSafe position where
  wellFormed := h.addState hroom position
  detached := h.detached_nextId hroom
  table := gainsState_addState position h.attached hroom

/-- What is added to a well-formed diagram can be taken away again, and what is removed leaves nothing behind. -/
theorem undoable : d.Undoable where
  addState := h.removeState_addState
  connect _ _ _ _ := h.removeEdge_connect
  removeState _ := exists_removeState_iff
  refused _ := removeState_of_not_mem
  removed _ _ _ := h.removed
  reused hroom _ _ _ hremove :=
    (h.removed hremove).wellFormed.nextIdSafe ((h.removed hremove).storable hroom)

end WellFormed

theorem undoable_starter : starter.WellFormed ∧ starter.Storable ∧
    (starter.addState default).removeState (starter.newState default).id = .ok (starter.newState default, starter) ∧
    (starter.edited (.connect "2" "2")).removeEdge "e2-2" = .ok (Edge.between "2" "2" "_,_,>", starter) ∧
    starter.Removed "2" { id := "2" } (starter.edited (.removeState "2")) ∧
    starter.removeState "9" = .error (.unknownState "9") ∧
    (starter.edited (.removeState "2")).NextIdSafe default ∧ (starter.edited (.removeState "2")).nextId = "2" := by
  have hroom : starter.Storable := by decide
  have hundo := wellFormed_starter.undoable
  have hremove : starter.removeState "2" = .ok ({ id := "2" }, starter.edited (.removeState "2")) := rfl
  have hremoved := hundo.removed "2" _ _ hremove
  have hpos := freeNumber_pos starter.nodes
  have hone : freeNumber starter.nodes ≠ 1 := fun heq =>
    word?_ne_freeNumber (List.mem_cons_self : "1" ∈ starter.nodes) (congrArg some heq.symm)
  have hmin : min 2 (freeNumber starter.nodes) = 2 := Nat.min_eq_left (by omega)
  refine ⟨wellFormed_starter, hroom, hundo.addState hroom default, hundo.connect "2" "2" _ _ rfl, hremoved,
    hundo.refused "9" (by decide), hundo.reused hroom "2" _ _ hremove default, ?_⟩
  rw [hremoved.nextId 2 rfl, hmin]
  rfl

end Diagram
end Tapeworks
