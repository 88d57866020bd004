import Tapeworks.Proofs.Compile.Order
import Tapeworks.Proofs.Diagram.WellFormed

/-! How far an edit reaches into the table. An edge offers its rules to its source only, so that the rules of all other
    states stay when it is labelled anew or removed. A new edge is the last to offer its rule, which is added unless its
    source reads a blank already. A new state has an id that no edge mentions: it gets a row without rules. -/

namespace Tapeworks

/-- The tables have the same states, and for all of them but one the same rules. -/
structure Table.SameBut (id : String) (t t' : Table) : Prop where
  states : t'.states = t.states
  transitions : ∀ id', id' ≠ id → t'.transitions id' = t.transitions id'

/-- The table has one state more, a plain one that has no rules. -/
structure Table.GainsState (s : State) (t t' : Table) : Prop where
  plain : s.isStart = false ∧ s.isFinal = false
  new : s.id ∉ t.states.map (·.id)
  rows : ∃ front back, t.rows = front ++ back ∧ t'.rows = front ++ ⟨s, []⟩ :: back

/-- The rule of a new edge: move right over a blank. -/
def blankRule (target : State) : Transition :=
  ⟨blank, some blank, .right, target⟩

/-- The compilation has been offered the rule of a new edge, and has taken it if the source had no rule for a blank. -/
structure Compilation.OffersBlank (edge source : String) (target : State) (c c' : Compilation) : Prop where
  free : (∀ r ∈ c.table.transitions source, r.read ≠ blank) → c'.table = c.table.push source (blankRule target) ∧
    c'.table.transitions source = c.table.transitions source ++ [blankRule target] ∧ c'.warnings = c.warnings
  taken : (∃ r ∈ c.table.transitions source, r.read = blank) →
    c'.table = c.table ∧ c'.warnings = c.warnings.push (.duplicateSymbol edge source blank)

/-- What edits of a diagram change in the compilation. -/
structure LocallyEdited (d : Diagram) : Prop where
  setLabel : ∀ id label d', d.setLabel id label = .ok d' →
    ∃ e, d.edge? id = some e ∧ Table.SameBut e.source (compile d).table (compile d').table
  removeEdge : ∀ id e d', d.removeEdge id = .ok (e, d') →
    d.edge? id = some e ∧ Table.SameBut e.source (compile d).table (compile d').table
  connect : ∀ source target e d', d.connect source target = .ok (e, d') →
    ∃ s, d.state? target = some s ∧ Compilation.OffersBlank e.id source s (compile d) (compile d')
  addState : (∀ e ∈ d.edges, d.Attached e) → d.Storable → ∀ position,
    Table.GainsState (d.newState position) (compile d).table (compile (d.addState position)).table ∧
    (compile (d.addState position)).warnings = (compile d).warnings

namespace Diagram

variable {d d' : Diagram} {e : Edge} {id source target : String} {position : Position}

/-! ### Edges that change -/

/-- Edges of one source may come, go and change. -/
theorem sameBut_of_edges (hstates : d'.states = d.states)
    (hedges : ∀ id, id ≠ source → d'.edges.filter (·.source = id) = d.edges.filter (·.source = id)) :
    Table.SameBut source (compile d).table (compile d').table := by
  have hstate : ∀ id, d'.state? id = d.state? id := fun id => by rw [state?, state?, hstates]
  exact ⟨states_compile_congr hstate, fun id hid => transitions_compile_congr hstate (hedges id hid)⟩

theorem exists_sameBut_setLabel {label : String} (h : d.setLabel id label = .ok d') :
    ∃ e, d.edge? id = some e ∧ Table.SameBut e.source (compile d).table (compile d').table := by
  rcases exists_firstAt Edge.id d.edges id with hnone | ⟨front, e, back, hfirst, rfl⟩
  · cases h.symm.trans (setLabel_of_not_mem hnone label)
  · cases h.symm.trans (setLabel_of_firstAt hfirst label)
    refine ⟨e, hfirst.find?, sameBut_of_edges rfl fun id hid => ?_⟩
    rw [hfirst.filter_of_neg (by simpa using hid.symm)]
    simp [hid.symm]

theorem sameBut_removeEdge (h : d.removeEdge id = .ok (e, d')) :
    d.edge? id = some e ∧ Table.SameBut e.source (compile d).table (compile d').table := by
  rcases exists_firstAt Edge.id d.edges id with hnone | ⟨front, e', back, hfirst, rfl⟩
  · cases h.symm.trans (removeEdge_of_not_mem hnone)
  · cases h.symm.trans (removeEdge_of_firstAt hfirst)
    refine ⟨hfirst.find?, sameBut_of_edges rfl fun id hid => ?_⟩
    exact (hfirst.filter_of_neg (by simpa using hid.symm)).symm

/-! ### Edges that are added -/

/-- An edge at the end is compiled into what the others have been compiled to. -/
theorem compile_concat (d : Diagram) (e : Edge) : compile ⟨d.states, d.edges ++ [e]⟩ = (compile d).addEdge e :=
  d.compileEdges_concat d.edges e

theorem specs_default : Label.specs Edge.defaultLabel = [⟨"_,_,>", ["_", "_", ">"]⟩] := rfl

theorem rules_default (source target : String) :
    (Edge.between source target Edge.defaultLabel).rules = [⟨blank, some blank, .right⟩] := by
  rw [Edge.rules, Edge.between, specs_default]
  rfl

theorem rejections_default (source target : String) :
    (Edge.between source target Edge.defaultLabel).rejections = [] := by
  rw [Edge.rejections, Edge.between, specs_default]
  rfl

/-- What a successful connection has found and done. -/
theorem connect_eq_ok (h : d.connect source target = .ok (e, d')) :
    source ∈ d.nodes ∧ target ∈ d.nodes ∧ (source, target) ∉ d.links ∧
      e = Edge.between source target Edge.defaultLabel ∧ d' = ⟨d.states, d.edges ++ [e]⟩ := by
  by_cases hs : source ∈ d.nodes
  · by_cases ht : target ∈ d.nodes
    · by_cases hlink : (source, target) ∈ d.links
      · cases h.symm.trans (connect_of_link hs ht hlink)
      · cases h.symm.trans (connect_of_no_link hs ht hlink)
        exact ⟨hs, ht, hlink, rfl, rfl⟩
    · cases h.symm.trans (connect_of_target hs ht)
  · cases h.symm.trans (connect_of_source hs)

theorem addEdge_default {s : State} (hs : source ∈ d.nodes) (ht : d.state? target = some s) :
    (compile d).addEdge (Edge.between source target Edge.defaultLabel) =
      Compilation.addRule (Edge.between source target Edge.defaultLabel) s (compile d) ⟨blank, some blank, .right⟩ := by
  obtain ⟨s', hs'⟩ := Option.isSome_iff_exists.mp (state?_isSome_iff.mpr hs)
  have hsource : (compile d).table.state? (Edge.between source target Edge.defaultLabel).source = some s' :=
    (state?_compile d source).trans hs'
  have htarget : (compile d).table.state? (Edge.between source target Edge.defaultLabel).target = some s :=
    (state?_compile d target).trans ht
  rw [Compilation.addEdge, hsource, htarget]
  simp only [rules_default, rejections_default, List.foldl_cons, List.foldl_nil]
  rfl

theorem offersBlank_connect (h : d.connect source target = .ok (e, d')) :
    ∃ s, d.state? target = some s ∧ Compilation.OffersBlank e.id source s (compile d) (compile d') := by
  obtain ⟨hs, ht, -, rfl, rfl⟩ := connect_eq_ok h
  obtain ⟨s, hs'⟩ := Option.isSome_iff_exists.mp (state?_isSome_iff.mpr ht)
  have hreads : (compile d).table.reads (Edge.between source target Edge.defaultLabel).source
      (Label.Rule.mk blank (some blank) .right).read ↔ ∃ r ∈ (compile d).table.transitions source, r.read = blank := by
    rw [Table.reads_iff, List.mem_map]
    rfl
  refine ⟨s, hs', ?_⟩
  rw [compile_concat, addEdge_default hs hs', Compilation.addRule]
  refine ⟨fun hfree => ?_, fun htaken => ?_⟩
  · rw [if_neg fun hr => (hreads.mp hr).elim fun r hr => hfree r hr.1 hr.2]
    refine ⟨rfl, Table.transitions_push_self ?_, rfl⟩
    rw [state?_compile]
    exact state?_isSome_iff.mpr hs
  · rw [if_pos (hreads.mpr htaken)]
    exact ⟨rfl, rfl⟩

/-! ### States that are added -/

theorem transitions_compile_of_not_mem (h : id ∉ d.nodes) : (compile d).table.transitions id = [] := by
  refine List.eq_nil_iff_forall_not_mem.mpr fun r hr => ?_
  obtain ⟨o, ho, rfl, -⟩ := exists_offer_of_mem_transitions hr
  exact h (state?_isSome_iff.mp (source_isSome_of_mem ho))

theorem state?_addState (d : Diagram) (position : Position) (id : String) : (d.addState position).state? id =
    (d.state? id).or (if d.nextId = id then some (d.newState position) else none) := by
  rw [state?, addState, List.find?_append, state?]
  congr 1
  by_cases hid : d.nextId = id <;> simp [newState, hid]

theorem state?_addState_of_mem (h : id ∈ d.nodes) : (d.addState position).state? id = d.state? id := by
  obtain ⟨s, hs⟩ := Option.isSome_iff_exists.mp (state?_isSome_iff.mpr h)
  rw [state?_addState, hs, Option.some_or]

theorem mem_states_compile_addState {s : State} (h : d.nextId ∉ d.nodes) :
    s ∈ (compile (d.addState position)).table.states ↔
      s = d.newState position ∨ s ∈ (compile d).table.states := by
  rw [mem_states_compile, mem_states_compile]
  by_cases hid : s.id ∈ d.nodes
  · have hne : s ≠ d.newState position := by
      rintro rfl
      exact h hid
    rw [state?_addState_of_mem hid, or_iff_right hne]
  · rw [state?_addState, state?_eq_none_iff.mpr hid, Option.none_or, or_iff_left (by simp)]
    by_cases hnext : d.nextId = s.id
    · rw [if_pos hnext, Option.some.injEq, eq_comm]
    · rw [if_neg hnext]
      refine iff_of_false (by simp) ?_
      rintro rfl
      exact hnext rfl

/-- The states of the table are the old ones and the new one, which is put at its place. -/
theorem states_compile_addState (h : d.nextId ∉ d.nodes) (position : Position) : ∃ front back,
    (compile d).table.states = front ++ back ∧
    (compile (d.addState position)).table.states = front ++ d.newState position :: back := by
  refine exists_eq_append_cons (fun _ _ => String.lt_asymm) (pairwise_states_compile d) (pairwise_states_compile _)
    (fun hmem => ?_) fun s => mem_states_compile_addState h
  exact h (state?_isSome_iff.mp (Option.isSome_iff_exists.mpr ⟨_, mem_states_compile.mp hmem⟩))

section Attached

variable (h : ∀ e ∈ d.edges, d.Attached e) (position)
include h

theorem offersOf_addState (he : e ∈ d.edges) : (d.addState position).offersOf e = d.offersOf e := by
  obtain ⟨hs, ht⟩ := h e he
  rw [offersOf, offersOf, state?_addState_of_mem hs, state?_addState_of_mem ht]

theorem warningsOf_addState (taken : List (String × Char)) (he : e ∈ d.edges) :
    (d.addState position).warningsOf taken e = d.warningsOf taken e := by
  obtain ⟨hs, ht⟩ := h e he
  rw [warningsOf, warningsOf, offersOf_addState position h he, state?_addState_of_mem hs, state?_addState_of_mem ht]

theorem transitions_compile_addState (id : String) :
    (compile (d.addState position)).table.transitions id = (compile d).table.transitions id := by
  have hoffers : (d.addState position).offers = d.offers :=
    List.flatMap_congr fun e he => offersOf_addState position h he
  rw [transitions_compile, transitions_compile, hoffers]

theorem warnings_compile_addState : (compile (d.addState position)).warnings = (compile d).warnings := by
  suffices hsuffix : ∀ edges rest, d.edges = edges ++ rest →
      ((d.addState position).compileEdges edges).warnings.toList = (d.compileEdges edges).warnings.toList from
    Array.toList_inj.mp (hsuffix d.edges [] (List.append_nil _).symm)
  intro edges
  induction edges using List.reverseRecOn with
  | nil => exact fun _ _ => rfl
  | append_singleton edges e ih =>
    intro rest hedges
    have hmem : ∀ e' ∈ edges ++ [e], e' ∈ d.edges := fun e' he' => hedges ▸ List.mem_append_left rest he'
    have hoffers : edges.flatMap (d.addState position).offersOf = edges.flatMap d.offersOf :=
      List.flatMap_congr fun e' he' => offersOf_addState position h (hmem e' (List.mem_append_left _ he'))
    rw [compileEdges_warnings_concat, compileEdges_warnings_concat, hoffers,
      ih (e :: rest) (by rw [hedges, List.append_assoc]; rfl),
      warningsOf_addState position h _ (hmem e (List.mem_append_right _ (List.mem_singleton_self e)))]

theorem gainsState_addState (hroom : d.Storable) :
    Table.GainsState (d.newState position) (compile d).table (compile (d.addState position)).table where
  plain := ⟨rfl, rfl⟩
  new hmem := by
    obtain ⟨s, hs, hid⟩ := List.mem_map.mp hmem
    refine hroom.nextId_not_mem (state?_isSome_iff.mp ?_)
    have hid : s.id = d.nextId := hid
    rw [← hid, mem_states_compile.mp hs]
    rfl
  rows := by
    obtain ⟨front, back, hold, hnew⟩ := states_compile_addState hroom.nextId_not_mem position
    refine ⟨front.map fun s => ⟨s, (compile d).table.transitions s.id⟩,
      back.map fun s => ⟨s, (compile d).table.transitions s.id⟩, ?_, ?_⟩
    · rw [Table.rows_eq (ascending_compile d), hold, List.map_append]
    · rw [Table.rows_eq (ascending_compile _), hnew, List.map_append, List.map_cons]
      simp only [transitions_compile_addState position h]
      rw [newState, transitions_compile_of_not_mem hroom.nextId_not_mem]

end Attached

end Diagram

/-- No edit of an edge reaches the rules of a state other than its source, and no new state reaches any rules. -/
theorem locallyEdited_compile (d : Diagram) : LocallyEdited d where
  setLabel _ _ _ := Diagram.exists_sameBut_setLabel
  removeEdge _ _ _ := Diagram.sameBut_removeEdge
  connect _ _ _ _ := Diagram.offersBlank_connect
  addState hattached hroom position :=
    ⟨Diagram.gainsState_addState position hattached hroom, Diagram.warnings_compile_addState position hattached⟩

/-- The first edge hides a rule of the second one. -/
def shadowed : Diagram where
  states := [{ id := "1", isStart := true }, { id := "2" }, { id := "3", isFinal := true }]
  edges := [Edge.between "1" "2" "a,>", Edge.between "1" "3" "a,<;_,>", Edge.between "2" "2" "a,>"]

theorem locallyEdited_compile_shadowed :
    (∃ e, shadowed.edge? "e1-2" = some e ∧ Table.SameBut e.source (compile shadowed).table
      (compile (shadowed.edited (.setLabel "e1-2" "b,>"))).table) ∧
    Table.SameBut "1" (compile shadowed).table (compile (shadowed.edited (.removeEdge "e1-2"))).table ∧
    (∃ s, shadowed.state? "3" = some s ∧ (compile (shadowed.edited (.connect "2" "3"))).table.transitions "2" =
      (compile shadowed).table.transitions "2" ++ [blankRule s]) ∧
    (compile (shadowed.edited (.connect "1" "1"))).table = (compile shadowed).table ∧
    (compile (shadowed.edited (.connect "1" "1"))).warnings =
      #[.duplicateSymbol "e1-3" "1" 'a', .duplicateSymbol "e1-1" "1" '_'] ∧
    (∀ e ∈ shadowed.edges, shadowed.Attached e) ∧ shadowed.Storable ∧
    Table.GainsState (shadowed.newState default) (compile shadowed).table
      (compile (shadowed.addState default)).table := by
  obtain ⟨hlabel, hremove, hconnect, hadd⟩ := locallyEdited_compile shadowed
  obtain ⟨s, hs, hfree, -⟩ := hconnect "2" "3" _ _ rfl
  obtain ⟨-, -, -, htaken⟩ := hconnect "1" "1" _ _ rfl
  have hrules : ∀ r ∈ (compile shadowed).table.transitions "2", r.read ≠ blank := by decide
  obtain ⟨htable, hwarnings⟩ := htaken (by decide)
  have hattached : ∀ e ∈ shadowed.edges, shadowed.Attached e := by decide
  have hroom : shadowed.Storable := by decide
  exact ⟨hlabel "e1-2" "b,>" _ rfl, (hremove "e1-2" _ _ rfl).2, ⟨s, hs, (hfree hrules).2.1⟩, htable, hwarnings,
    hattached, hroom, (hadd hattached hroom default).1⟩

end Tapeworks
