import Tapeworks.Proofs.Compile

/-! The table that a diagram declares. It has one row for every id, with the first state that has it, and a state keeps
    of the rules on its edges, taken in order, the first for every symbol. The table that is compiled rule by rule is
    that table. -/

namespace Tapeworks

variable {d : Diagram} {id : String}

/-- Both ends of the edge are in the diagram. -/
def Diagram.Attached (d : Diagram) (e : Edge) : Prop :=
  e.source ∈ d.nodes ∧ e.target ∈ d.nodes

instance (e : Edge) : Decidable (d.Attached e) :=
  inferInstanceAs (Decidable (_ ∧ _))

/-- The rules on the attached edges in the order of the edges and of the specs in a label, each with its edge. -/
def Diagram.declared (d : Diagram) : List (Edge × Label.Rule) :=
  (d.edges.filter fun e => d.Attached e).flatMap fun e => e.rules.map fun rule => (e, rule)

/-- A rule of the table for a rule on an edge: it leads to the state that the table has for the target of the edge. -/
structure Resolved (t : Table) (x : Edge × Label.Rule) (r : Transition) : Prop where
  read : r.read = x.2.read
  write : r.write = x.2.write
  direction : r.direction = x.2.direction
  target : t.state? x.1.target = some r.target

structure Declared (d : Diagram) (t : Table) : Prop where
  rows : t.rows.Pairwise fun a b => a.state.id < b.state.id
  ids : ∀ id, id ∈ t.rows.map (·.state.id) ↔ id ∈ d.nodes
  states : ∀ id, t.state? id = d.states.find? (·.id = id)
  transitions : ∀ id, List.Forall₂ (Resolved t)
    (firsts (·.2.read) (d.declared.filter (·.1.source = id))) (t.transitions id)
  distinct : ∀ id, ((t.transitions id).map (·.read)).Nodup
  targets : ∀ id, ∀ r ∈ t.transitions id, t.state? r.target.id = some r.target
  find : ∀ id c, Option.Rel (Resolved t) (d.declared.find? fun x => x.1.source = id ∧ x.2.read = c) (t.find? id c)

/-! ### Offers and rules on edges -/

/-- The rule that is offered, with its edge. -/
def Offer.origin (o : Offer) : Edge × Label.Rule :=
  (o.edge, ⟨o.rule.read, o.rule.write, o.rule.direction⟩)

theorem Diagram.attached_iff {e : Edge} :
    d.Attached e ↔ ∃ s target, d.state? e.source = some s ∧ d.state? e.target = some target := by
  simp only [Attached, ← state?_isSome_iff, Option.isSome_iff_exists, exists_and_left, exists_and_right]

theorem Diagram.offersOf_of_not_attached {e : Edge} (h : ¬d.Attached e) : d.offersOf e = [] := by
  unfold offersOf
  split
  · rename_i hs ht
    exact absurd (attached_iff.mpr ⟨_, _, hs, ht⟩) h
  · rfl

theorem Diagram.origin_offersOf {e : Edge} (h : d.Attached e) :
    (d.offersOf e).map Offer.origin = e.rules.map fun rule => (e, rule) := by
  obtain ⟨s, target, hs, ht⟩ := attached_iff.mp h
  rw [offersOf, hs, ht, List.map_map]
  rfl

theorem Diagram.declared_eq (d : Diagram) : d.declared = d.offers.map Offer.origin := by
  have hedges : ∀ edges : List Edge, ((edges.filter fun e => d.Attached e).flatMap fun e =>
      e.rules.map fun rule => (e, rule)) = (edges.flatMap d.offersOf).map Offer.origin := by
    intro edges
    induction edges with
    | nil => rfl
    | cons e edges ih =>
      rw [List.flatMap_cons, List.map_append, ← ih]
      by_cases he : d.Attached e
      · rw [List.filter_cons_of_pos (by simpa using he), List.flatMap_cons, origin_offersOf he]
      · rw [List.filter_cons_of_neg (by simpa using he), offersOf_of_not_attached he]
        rfl
  exact hedges d.edges

theorem resolved_origin {o : Offer} (ho : o ∈ d.offers) : Resolved (compile d).table o.origin o.rule := by
  obtain ⟨e, -, ho⟩ := List.mem_flatMap.mp ho
  refine ⟨rfl, rfl, rfl, ?_⟩
  rw [state?_compile, Offer.origin, (Diagram.offersOf_source ho).1]
  exact Diagram.offersOf_target ho

/-! ### The compiled table -/

theorem mem_rows_compile : id ∈ (compile d).table.rows.map (·.state.id) ↔ id ∈ d.nodes := by
  rw [← Diagram.state?_isSome_iff, ← state?_compile, Table.state?, Option.isSome_map, Table.row?, List.find?_isSome]
  simp

theorem forall₂_transitions_compile (d : Diagram) (id : String) : List.Forall₂ (Resolved (compile d).table)
    (firsts (·.2.read) (d.declared.filter (·.1.source = id))) ((compile d).table.transitions id) := by
  rw [transitions_compile, Diagram.declared_eq, List.filter_map, firsts_map, firsts_map]
  refine List.forall₂_map_left_iff.mpr (List.forall₂_map_right_iff.mpr (List.forall₂_same.mpr fun o ho => ?_))
  exact resolved_origin (List.mem_of_mem_filter ((firsts_sublist _ _).mem ho))

theorem find?_compile (d : Diagram) (id : String) (c : Char) : (compile d).table.find? id c =
    (d.offers.find? fun o => o.edge.source = id ∧ o.rule.read = c).map (·.rule) := by
  rw [Table.find?, transitions_compile, find?_firsts, List.find?_map, List.find?_filter]
  congr 2
  funext o
  simp [Bool.and_comm]

theorem find?_declared (d : Diagram) (id : String) (c : Char) :
    (d.declared.find? fun x => x.1.source = id ∧ x.2.read = c) =
      (d.offers.find? fun o => o.edge.source = id ∧ o.rule.read = c).map Offer.origin := by
  rw [Diagram.declared_eq, List.find?_map]
  rfl

/-- The table of a diagram is the one that the diagram declares. -/
theorem declared_compile (d : Diagram) : Declared d (compile d).table where
  rows := ascending_compile d
  ids _ := mem_rows_compile
  states id := state?_compile d id
  transitions := forall₂_transitions_compile d
  distinct := nodup_reads_compile d
  targets id r hr := by
    rw [state?_compile]
    exact state?_target hr
  find id c := by
    rw [find?_compile, find?_declared]
    cases ho : d.offers.find? fun o => o.edge.source = id ∧ o.rule.read = c with
    | none => exact .none
    | some o => exact .some (resolved_origin (List.mem_of_find?_eq_some ho))

end Tapeworks
