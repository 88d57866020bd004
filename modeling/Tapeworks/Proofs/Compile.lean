import Mathlib.Data.List.Nodup
import Tapeworks.Compile
import Tapeworks.Proofs.Gather
import Tapeworks.Proofs.Table

/-! What compiling a diagram gives. Every edge with both ends in the diagram offers its rules to the table, in order; of
    the rules that a state is offered, the table takes the first for every symbol. Every dropped part of the diagram
    leaves one warning: an edge without one of its ends, a spec that is no rule, a rule for a symbol that is taken. -/

namespace Tapeworks

/-! ### Offers -/

/-- A rule that an edge offers to the table, with its target looked up. -/
structure Offer where
  edge : Edge
  rule : Transition

namespace Offer

def key (o : Offer) : String × Char :=
  (o.edge.source, o.rule.read)

/-- The offer of a rule in the label of an edge to `target`. -/
def ofRule (e : Edge) (target : State) (rule : Label.Rule) : Offer where
  edge := e
  rule := ⟨rule.read, rule.write, rule.direction, target⟩

/-- The offers whose key is one of `taken` or that of an earlier offer. -/
def repeated (taken : List (String × Char)) : List Offer → List Offer
  | [] => []
  | o :: os => (if o.key ∈ taken then [o] else []) ++ repeated (taken ++ [o.key]) os

theorem repeated_eq_nil_iff {taken : List (String × Char)} {os : List Offer} (h : taken.Nodup) :
    repeated taken os = [] ↔ (taken ++ os.map key).Nodup := by
  induction os generalizing taken with
  | nil => simp [repeated, h]
  | cons o os ih =>
    rw [repeated, List.append_eq_nil_iff, List.map_cons, List.append_cons taken o.key (os.map key)]
    by_cases ho : o.key ∈ taken
    · have hdup : ¬(taken ++ [o.key] ++ os.map key).Nodup := fun hn =>
        (List.nodup_append.mp (List.nodup_append.mp hn).1).2.2 _ ho _ (List.mem_singleton_self _) rfl
      exact iff_of_false (fun h' => by simp [ho] at h') hdup
    · have hn : (taken ++ [o.key]).Nodup := List.nodup_append.mpr ⟨h, by simp, fun k hk k' hk' he =>
        ho (List.mem_singleton.mp hk' ▸ he ▸ hk)⟩
      rw [ih hn, if_neg ho]
      exact and_iff_right rfl

end Offer

/-- Adds an offered rule, unless its state reads its symbol already. -/
def Table.offer (t : Table) (o : Offer) : Table :=
  if t.reads o.edge.source o.rule.read then t else t.push o.edge.source o.rule

namespace Diagram

/-- The rules that an edge offers: none, unless both of its ends are in the diagram. -/
def offersOf (d : Diagram) (e : Edge) : List Offer :=
  match d.state? e.source, d.state? e.target with
  | some _, some target => e.rules.map (Offer.ofRule e target)
  | _, _ => []

/-- All offered rules, in the order of the edges and of the specs in their labels. -/
def offers (d : Diagram) : List Offer :=
  d.edges.flatMap d.offersOf

/-- The warnings that an edge leaves when the keys `taken` have been offered before it. -/
def warningsOf (d : Diagram) (taken : List (String × Char)) (e : Edge) : List Warning :=
  match d.state? e.source, d.state? e.target with
  | some _, some _ =>
    e.rejections ++ (Offer.repeated taken (d.offersOf e)).map fun o => .duplicateSymbol e.id e.source o.rule.read
  | none, _ => [.danglingEdge e.id e.source]
  | some _, none => [.danglingEdge e.id e.target]

def compileEdges (d : Diagram) (edges : List Edge) : Compilation :=
  edges.foldl Compilation.addEdge ⟨.ofStates d.states, #[]⟩

end Diagram

/-! ### What a table becomes by offers -/

namespace Table

variable {t : Table} {o : Offer} {os : List Offer} {id : String} {c : Char}

theorem reads_iff : t.reads id c ↔ c ∈ (t.transitions id).map (·.read) := by
  simp [reads, find?]

theorem ascending_offers (h : Ascending t.rows) (os : List Offer) : Ascending (os.foldl offer t).rows := by
  induction os generalizing t with
  | nil => exact h
  | cons o os ih =>
    refine ih ?_
    unfold offer
    split
    · exact h
    · exact ascending_push h _ _

theorem state?_offer (t : Table) (o : Offer) (id : String) : (t.offer o).state? id = t.state? id := by
  unfold offer
  split
  · rfl
  · exact state?_push t _ _ _

theorem state?_offers (t : Table) (os : List Offer) (id : String) : (os.foldl offer t).state? id = t.state? id := by
  induction os generalizing t with
  | nil => rfl
  | cons o os ih => exact (ih _).trans (state?_offer t o id)

theorem transitions_offer_of_ne (h : id ≠ o.edge.source) : (t.offer o).transitions id = t.transitions id := by
  unfold offer
  split
  · rfl
  · exact transitions_push_of_ne h

theorem transitions_offer_self (h : (t.state? o.edge.source).isSome) :
    (t.offer o).transitions o.edge.source =
      if o.rule.read ∈ (t.transitions o.edge.source).map (·.read) then t.transitions o.edge.source
      else t.transitions o.edge.source ++ [o.rule] := by
  unfold offer
  by_cases hr : t.reads o.edge.source o.rule.read
  · rw [if_pos hr, if_pos (reads_iff.mp hr)]
  · rw [if_neg hr, if_neg fun hm => hr (reads_iff.mpr hm), transitions_push_self h]

/-- A state takes the first offered rule for every symbol. -/
theorem transitions_offers (hnew : ∀ id, t.transitions id = []) (h : ∀ o ∈ os, (t.state? o.edge.source).isSome)
    (id : String) : (os.foldl offer t).transitions id =
      firsts (·.read) ((os.filter (·.edge.source = id)).map (·.rule)) := by
  induction os using List.reverseRecOn with
  | nil => exact hnew id
  | append_singleton os o ih =>
    have ih := ih fun o ho => h o (List.mem_append_left _ ho)
    rw [List.foldl_append, List.foldl_cons, List.foldl_nil, List.filter_append, List.map_append]
    by_cases hid : o.edge.source = id
    · subst hid
      have hstate : ((os.foldl offer t).state? o.edge.source).isSome := by
        rw [state?_offers]
        exact h o (by simp)
      rw [transitions_offer_self hstate, List.filter_singleton, decide_eq_true rfl, cond_true, List.map_singleton,
        firsts_concat, ih]
      simp only [mem_map_firsts]
    · rw [transitions_offer_of_ne (Ne.symm hid), ih]
      simp [hid]

theorem reads_offer (h : (t.state? o.edge.source).isSome) :
    (t.offer o).reads id c ↔ t.reads id c ∨ (id, c) = o.key := by
  rw [reads_iff, reads_iff, Offer.key, Prod.mk.injEq]
  by_cases hid : id = o.edge.source
  · subst hid
    rw [transitions_offer_self h]
    split
    · rename_i hr
      exact ⟨Or.inl, fun h' => h'.elim id fun he => he.2 ▸ hr⟩
    · simp [and_comm]
  · rw [transitions_offer_of_ne hid]
    simp [hid]

theorem reads_offers (hnew : ∀ id, t.transitions id = []) (h : ∀ o ∈ os, (t.state? o.edge.source).isSome) :
    (os.foldl offer t).reads id c ↔ (id, c) ∈ os.map Offer.key := by
  induction os using List.reverseRecOn with
  | nil => simp [reads_iff, hnew]
  | append_singleton os o ih =>
    have hstate : ((os.foldl offer t).state? o.edge.source).isSome := by
      rw [state?_offers]
      exact h o (by simp)
    rw [List.foldl_append, List.foldl_cons, List.foldl_nil, reads_offer hstate,
      ih fun o ho => h o (List.mem_append_left _ ho), List.map_append, List.mem_append, List.map_singleton,
      List.mem_singleton]

end Table

/-! ### What the edges do -/

open Table

namespace Compilation

variable {e : Edge} {target : State} {c : Compilation} {taken : List (String × Char)}

theorem addRule_table (e : Edge) (target : State) (c : Compilation) (rule : Label.Rule) :
    (addRule e target c rule).table = c.table.offer (.ofRule e target rule) := by
  by_cases hr : c.table.reads e.source rule.read <;> simp [addRule, offer, Offer.ofRule, hr]

theorem addRule_warnings (htaken : ∀ id r, c.table.reads id r ↔ (id, r) ∈ taken) (rule : Label.Rule) :
    (addRule e target c rule).warnings.toList = c.warnings.toList ++
      (if (Offer.ofRule e target rule).key ∈ taken then [.duplicateSymbol e.id e.source rule.read] else []) := by
  have hkey : (Offer.ofRule e target rule).key ∈ taken ↔ c.table.reads e.source rule.read := (htaken _ _).symm
  by_cases hr : c.table.reads e.source rule.read <;> simp [addRule, hkey, hr]

theorem foldl_addRule (e : Edge) (target : State) (rules : List Label.Rule)
    (htaken : ∀ id r, c.table.reads id r ↔ (id, r) ∈ taken) (hstate : (c.table.state? e.source).isSome) :
    (rules.foldl (addRule e target) c).table = (rules.map (Offer.ofRule e target)).foldl offer c.table ∧
      (rules.foldl (addRule e target) c).warnings.toList = c.warnings.toList ++
        (Offer.repeated taken (rules.map (Offer.ofRule e target))).map fun o =>
          .duplicateSymbol e.id e.source o.rule.read := by
  induction rules generalizing c taken with
  | nil => simp [Offer.repeated]
  | cons rule rules ih =>
    have htaken' : ∀ id r, (addRule e target c rule).table.reads id r ↔
        (id, r) ∈ taken ++ [(Offer.ofRule e target rule).key] := fun id r => by
      rw [addRule_table, reads_offer hstate, htaken, List.mem_append, List.mem_singleton]
    have hstate' : ((addRule e target c rule).table.state? e.source).isSome := by
      rw [addRule_table, state?_offer]
      exact hstate
    obtain ⟨htable, hwarnings⟩ := ih htaken' hstate'
    rw [List.foldl_cons, List.map_cons, List.foldl_cons, Offer.repeated]
    refine ⟨htable.trans (by rw [addRule_table]), hwarnings.trans ?_⟩
    rw [addRule_warnings htaken, List.map_append, List.append_assoc]
    split <;> rfl

end Compilation

namespace Diagram

variable {d : Diagram} {e : Edge} {o : Offer}

theorem offersOf_source (ho : o ∈ d.offersOf e) : o.edge = e ∧ (d.state? e.source).isSome := by
  unfold offersOf at ho
  split at ho
  · rename_i hs _
    obtain ⟨rule, -, rfl⟩ := List.mem_map.mp ho
    exact ⟨rfl, by rw [hs]; rfl⟩
  · cases ho

theorem state?_eq_some {id : String} {s : State} (h : d.state? id = some s) : s ∈ d.states ∧ s.id = id :=
  ⟨List.mem_of_find?_eq_some h, by simpa using List.find?_some h⟩

theorem state?_isSome_iff {id : String} : (d.state? id).isSome ↔ id ∈ d.nodes := by
  simp [state?, nodes]

theorem state?_eq_none_iff {id : String} : d.state? id = none ↔ id ∉ d.nodes := by
  rw [← state?_isSome_iff, Option.not_isSome_iff_eq_none]

theorem offersOf_target (ho : o ∈ d.offersOf e) : d.state? e.target = some o.rule.target := by
  unfold offersOf at ho
  split at ho
  · rename_i ht
    obtain ⟨rule, -, rfl⟩ := List.mem_map.mp ho
    exact ht
  · cases ho

theorem offersOf_of_isSome {target : State} (hs : (d.state? e.source).isSome) (ht : d.state? e.target = some target) :
    d.offersOf e = e.rules.map (Offer.ofRule e target) := by
  obtain ⟨s, hs⟩ := Option.isSome_iff_exists.mp hs
  rw [offersOf, hs, ht]

theorem compileEdges_concat (d : Diagram) (edges : List Edge) (e : Edge) :
    d.compileEdges (edges ++ [e]) = (d.compileEdges edges).addEdge e := by
  rw [compileEdges, List.foldl_append]
  rfl

theorem state?_ofStates (d : Diagram) (id : String) : (Table.ofStates d.states).state? id = d.state? id :=
  Table.state?_ofStates d.states id

theorem addEdge_eq {c : Compilation} {taken : List (String × Char)} (hstate : ∀ id, c.table.state? id = d.state? id)
    (htaken : ∀ id r, c.table.reads id r ↔ (id, r) ∈ taken) (e : Edge) :
    (c.addEdge e).table = (d.offersOf e).foldl offer c.table ∧
      (c.addEdge e).warnings.toList = c.warnings.toList ++ d.warningsOf taken e := by
  unfold Compilation.addEdge offersOf warningsOf
  rw [hstate, hstate]
  cases hs : d.state? e.source with
  | none => exact ⟨rfl, by simp⟩
  | some s =>
    cases ht : d.state? e.target with
    | none => exact ⟨rfl, by simp⟩
    | some target =>
      have hsome : (c.table.state? e.source).isSome := by
        rw [hstate, hs]
        rfl
      obtain ⟨htable, hwarnings⟩ := Compilation.foldl_addRule (c := { c with warnings := c.warnings ++ e.rejections })
        e target e.rules htaken hsome
      refine ⟨htable, hwarnings.trans ?_⟩
      simp [offersOf, hs, ht]

theorem state?_foldl_offer (d : Diagram) (os : List Offer) (id : String) :
    (os.foldl offer (.ofStates d.states)).state? id = d.state? id := by
  rw [state?_offers, state?_ofStates]

theorem source_isSome_of_mem {edges : List Edge} (ho : o ∈ edges.flatMap d.offersOf) :
    (d.state? o.edge.source).isSome := by
  obtain ⟨e, -, ho⟩ := List.mem_flatMap.mp ho
  obtain ⟨rfl, hs⟩ := offersOf_source ho
  exact hs

theorem reads_foldl_offer (d : Diagram) (edges : List Edge) (id : String) (r : Char) :
    ((edges.flatMap d.offersOf).foldl offer (.ofStates d.states)).reads id r ↔
      (id, r) ∈ (edges.flatMap d.offersOf).map Offer.key :=
  reads_offers (transitions_ofStates d.states) fun o ho => by
    rw [state?_ofStates]
    exact source_isSome_of_mem ho

/-- The table after some edges is what their offers make of the table without rules. -/
theorem compileEdges_table (d : Diagram) (edges : List Edge) :
    (d.compileEdges edges).table = (edges.flatMap d.offersOf).foldl offer (.ofStates d.states) := by
  induction edges using List.reverseRecOn with
  | nil => rfl
  | append_singleton edges e ih =>
    have hadd := addEdge_eq (d := d) (c := d.compileEdges edges) (fun id => by rw [ih, state?_foldl_offer])
      (fun id r => by rw [ih, reads_foldl_offer]) e
    rw [compileEdges_concat, hadd.1, ih, List.flatMap_append, List.foldl_append, List.flatMap_singleton]

theorem compileEdges_warnings_concat (d : Diagram) (edges : List Edge) (e : Edge) :
    (d.compileEdges (edges ++ [e])).warnings.toList = (d.compileEdges edges).warnings.toList ++
      d.warningsOf ((edges.flatMap d.offersOf).map Offer.key) e := by
  have htable := compileEdges_table d edges
  rw [compileEdges_concat]
  exact (addEdge_eq (fun id => by rw [htable, state?_foldl_offer]) (fun id r => by rw [htable, reads_foldl_offer]) e).2

theorem warningsOf_eq_nil_iff {taken : List (String × Char)} : d.warningsOf taken e = [] ↔
    ((d.state? e.source).isSome ∧ (d.state? e.target).isSome ∧ e.rejections = []) ∧
      Offer.repeated taken (d.offersOf e) = [] := by
  unfold warningsOf
  cases d.state? e.source <;> cases d.state? e.target <;> simp

theorem compileEdges_clean_iff (d : Diagram) (edges : List Edge) :
    (d.compileEdges edges).warnings.toList = [] ↔
      (∀ e ∈ edges, (d.state? e.source).isSome ∧ (d.state? e.target).isSome ∧ e.rejections = []) ∧
        ((edges.flatMap d.offersOf).map Offer.key).Nodup := by
  induction edges using List.reverseRecOn with
  | nil => simp [compileEdges]
  | append_singleton edges e ih =>
    rw [compileEdges_warnings_concat, List.append_eq_nil_iff, ih, warningsOf_eq_nil_iff, List.flatMap_append,
      List.map_append, List.flatMap_singleton]
    simp only [List.mem_append, List.mem_singleton]
    constructor
    · rintro ⟨⟨hall, hnodup⟩, he, hrep⟩
      exact ⟨fun e' he' => he'.elim (hall e') fun heq => heq ▸ he, (Offer.repeated_eq_nil_iff hnodup).mp hrep⟩
    · rintro ⟨hall, hnodup⟩
      have hold := (List.nodup_append.mp hnodup).1
      exact ⟨⟨fun e' he' => hall e' (Or.inl he'), hold⟩, hall e (Or.inr rfl),
        (Offer.repeated_eq_nil_iff hold).mpr hnodup⟩

end Diagram

/-! ### Compiled tables -/

section Compiled

variable {d : Diagram} {id : String} {c : Char} {s : State} {r : Transition}

theorem compile_table (d : Diagram) : (compile d).table = d.offers.foldl offer (.ofStates d.states) :=
  d.compileEdges_table d.edges

/-- Nothing is dropped exactly when all ends and specs are sound and no state is offered two rules for a symbol. -/
theorem warnings_eq_empty_iff : (compile d).warnings = #[] ↔
    (∀ e ∈ d.edges, (d.state? e.source).isSome ∧ (d.state? e.target).isSome ∧ e.rejections = []) ∧
      (d.offers.map Offer.key).Nodup :=
  Array.toList_eq_nil_iff.symm.trans (d.compileEdges_clean_iff d.edges)

theorem ascending_compile (d : Diagram) : Ascending (compile d).table.rows := by
  rw [compile_table]
  exact ascending_offers (ascending_ofStates d.states) _

theorem pairwise_states_compile (d : Diagram) : (compile d).table.states.Pairwise fun s s' => s.id < s'.id :=
  List.pairwise_map.mpr (ascending_compile d)

theorem nodup_states_compile (d : Diagram) : (compile d).table.states.Nodup :=
  (pairwise_states_compile d).imp fun hlt he => String.ne_of_lt hlt (congrArg State.id he)

theorem state?_compile (d : Diagram) (id : String) : (compile d).table.state? id = d.state? id := by
  rw [compile_table, d.state?_foldl_offer]

theorem mem_states_compile : s ∈ (compile d).table.states ↔ d.state? s.id = some s := by
  rw [← state?_compile]
  exact ⟨state?_of_mem (ascending_compile d), fun h => (state?_eq_some h).1⟩

/-- Of the rules that a state is offered, the table has the first for every symbol. -/
theorem transitions_compile (d : Diagram) (id : String) : (compile d).table.transitions id =
    firsts (·.read) ((d.offers.filter (·.edge.source = id)).map (·.rule)) := by
  rw [compile_table]
  refine transitions_offers (transitions_ofStates d.states) (fun o ho => ?_) id
  rw [d.state?_ofStates]
  exact Diagram.source_isSome_of_mem ho

theorem nodup_reads_compile (d : Diagram) (id : String) : (((compile d).table.transitions id).map (·.read)).Nodup := by
  rw [transitions_compile]
  exact nodup_firsts _ _

theorem find?_compile_eq_some_iff :
    (compile d).table.find? id c = some r ↔ r ∈ (compile d).table.transitions id ∧ r.read = c :=
  find?_key_eq_some_iff (nodup_reads_compile d id)

theorem nodup_rules_compile (d : Diagram) : ((compile d).table.rules.map fun x => (x.1.id, x.2.read)).Nodup := by
  have hids := (pairwise_states_compile d).imp String.ne_of_lt
  rw [rules_eq (ascending_compile d), List.map_flatMap, List.nodup_flatMap]
  refine ⟨fun s _ => ?_, hids.imp fun {s s'} hne => ?_⟩
  · have hreads := List.pairwise_map.mp (nodup_reads_compile d s.id)
    rw [List.map_map]
    exact List.pairwise_map.mpr (hreads.imp fun hr he => hr (congrArg Prod.snd he))
  · intro k hk hk'
    obtain ⟨x, hx, rfl⟩ := List.mem_map.mp hk
    obtain ⟨y, hy, he⟩ := List.mem_map.mp hk'
    obtain ⟨_, -, rfl⟩ := List.mem_map.mp hx
    obtain ⟨_, -, rfl⟩ := List.mem_map.mp hy
    exact hne (congrArg Prod.fst he).symm

theorem exists_offer_of_mem_transitions (h : r ∈ (compile d).table.transitions id) :
    ∃ o ∈ d.offers, o.edge.source = id ∧ o.rule = r := by
  rw [transitions_compile] at h
  obtain ⟨o, ho, rfl⟩ := List.mem_map.mp ((firsts_sublist _ _).mem h)
  obtain ⟨ho, hid⟩ := List.mem_filter.mp ho
  exact ⟨o, ho, by simpa using hid, rfl⟩

/-- The target of a rule is the state that the table has under its id. -/
theorem state?_target (h : r ∈ (compile d).table.transitions id) : d.state? r.target.id = some r.target := by
  obtain ⟨o, ho, -, rfl⟩ := exists_offer_of_mem_transitions h
  obtain ⟨e, -, ho⟩ := List.mem_flatMap.mp ho
  have htarget := Diagram.offersOf_target ho
  rwa [(Diagram.state?_eq_some htarget).2]

theorem mem_rules_compile :
    (s, r) ∈ (compile d).table.rules ↔ d.state? s.id = some s ∧ r ∈ (compile d).table.transitions s.id := by
  rw [mem_rules (ascending_compile d), mem_states_compile]

theorem exists_state_of_mem_ends (h : id ∈ (compile d).table.ends) : ∃ s, d.state? s.id = some s ∧ s.id = id := by
  obtain ⟨x, hx, rfl | rfl⟩ := Table.mem_ends.mp h
  · exact ⟨x.1, (mem_rules_compile.mp hx).1, rfl⟩
  · exact ⟨x.2.target, state?_target (mem_rules_compile.mp hx).2, rfl⟩

theorem exists_state_of_mem_nodes (h : id ∈ d.nodes) : ∃ s, d.state? s.id = some s ∧ s.id = id := by
  obtain ⟨s, hs⟩ := Option.isSome_iff_exists.mp (Diagram.state?_isSome_iff.mpr h)
  obtain rfl := (Diagram.state?_eq_some hs).2
  exact ⟨s, hs, rfl⟩

end Compiled

end Tapeworks
