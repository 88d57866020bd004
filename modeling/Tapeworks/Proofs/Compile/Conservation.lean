import Tapeworks.Proofs.Compile.Declared
import Tapeworks.Proofs.Label
import Tapeworks.Proofs.Label.Grammar

/-! Nothing disappears in compiling. An edge without one of its ends leaves one warning; every spec on another edge
    becomes one rule of the table or leaves one warning, and which of them is settled by the spec and by the specs
    before it. -/

namespace Tapeworks

/-! ### Specs and their fates -/

/-- A spec on an edge with both ends in the diagram, and the state that the edge leads to. -/
structure Item where
  edge : Edge
  target : State
  spec : Label.Spec

/-- What becomes of a spec. -/
inductive Fate
  | entered (source : String) (rule : Transition)
  | dropped (warning : Warning)

namespace Fate

def rule? : Fate → Option (String × Transition)
  | entered source rule => some (source, rule)
  | dropped _ => none

def warning? : Fate → Option Warning
  | entered _ _ => none
  | dropped warning => some warning

end Fate

namespace Item

def offer? (x : Item) : Option Offer :=
  x.spec.rule.toOption.map (Offer.ofRule x.edge x.target)

/-- The state and the symbol that a sound spec has a rule for. -/
def key? (x : Item) : Option (String × Char) :=
  x.spec.rule.toOption.map fun rule => (x.edge.source, rule.read)

/-- A flawed spec is dropped, and so is a rule for a state and a symbol that a spec before it has a rule for. -/
def fate (before : List Item) (x : Item) : Fate :=
  match x.spec.rule with
  | .error flaw => .dropped (.ofFlaw x.edge.id x.spec flaw)
  | .ok rule =>
    if some (x.edge.source, rule.read) ∈ before.map key? then
      .dropped (.duplicateSymbol x.edge.id x.edge.source rule.read)
    else .entered x.edge.source ⟨rule.read, rule.write, rule.direction, x.target⟩

/-- The fate of every spec in a list that comes after others. -/
def fates (before : List Item) : List Item → List Fate
  | [] => []
  | x :: xs => x.fate before :: fates (before ++ [x]) xs

end Item

namespace Diagram

def itemsOf (d : Diagram) (e : Edge) : List Item :=
  match d.state? e.source, d.state? e.target with
  | some _, some target => (Label.specs e.label).map (Item.mk e target)
  | _, _ => []

/-- All specs on edges with both ends in the diagram, in order. -/
def items (d : Diagram) : List Item :=
  d.edges.flatMap d.itemsOf

def fates (d : Diagram) : List Fate :=
  Item.fates [] d.items

/-- The warning for an edge without one of its ends. It names the source if that is missing. -/
def dangling? (d : Diagram) (e : Edge) : Option Warning :=
  if e.source ∉ d.nodes then some (.danglingEdge e.id e.source)
  else if e.target ∉ d.nodes then some (.danglingEdge e.id e.target)
  else none

end Diagram

def Warning.isDangling : Warning → Bool
  | danglingEdge _ _ => true
  | _ => false

/-- The warning is about a rule for a state and a symbol that have one already. -/
def Warning.isRepeat : Warning → Bool
  | duplicateSymbol _ _ _ => true
  | _ => false

variable {d : Diagram} {before xs : List Item} {x : Item} {rule : Label.Rule} {flaw : Label.Flaw}

/-! ### Fates -/

namespace Item

theorem offer?_of_ok (h : x.spec.rule = .ok rule) : x.offer? = some (.ofRule x.edge x.target rule) := by
  rw [offer?, h]
  rfl

theorem offer?_of_error (h : x.spec.rule = .error flaw) : x.offer? = none := by
  rw [offer?, h]
  rfl

theorem key?_of_ok (h : x.spec.rule = .ok rule) : x.key? = some (x.edge.source, rule.read) := by
  rw [key?, h]
  rfl

theorem key?_of_error (h : x.spec.rule = .error flaw) : x.key? = none := by
  rw [key?, h]
  rfl

theorem fate_of_error (h : x.spec.rule = .error flaw) : x.fate before = .dropped (.ofFlaw x.edge.id x.spec flaw) := by
  simp only [fate, h]

theorem fate_of_mem (h : x.spec.rule = .ok rule) (hmem : some (x.edge.source, rule.read) ∈ before.map key?) :
    x.fate before = .dropped (.duplicateSymbol x.edge.id x.edge.source rule.read) := by
  simp only [fate, h]
  rw [if_pos hmem]

theorem fate_of_not_mem (h : x.spec.rule = .ok rule) (hmem : some (x.edge.source, rule.read) ∉ before.map key?) :
    x.fate before = .entered x.edge.source ⟨rule.read, rule.write, rule.direction, x.target⟩ := by
  simp only [fate, h]
  rw [if_neg hmem]

theorem fates_concat (before xs : List Item) (x : Item) :
    fates before (xs ++ [x]) = fates before xs ++ [x.fate (before ++ xs)] := by
  induction xs generalizing before with
  | nil => simp [fates]
  | cons y xs ih => simp [fates, ih]

theorem fates_append (before xs ys : List Item) :
    fates before (xs ++ ys) = fates before xs ++ fates (before ++ xs) ys := by
  induction xs generalizing before with
  | nil => simp [fates]
  | cons x xs ih => simp [fates, ih]

theorem length_fates (before xs : List Item) : (fates before xs).length = xs.length := by
  induction xs generalizing before with
  | nil => rfl
  | cons x xs ih => simp [fates, ih]

theorem exists_of_mem_fates {f : Fate} (h : f ∈ fates before xs) :
    ∃ (before : List Item) (x : Item), f = x.fate before := by
  induction xs generalizing before with
  | nil => exact absurd h List.not_mem_nil
  | cons x xs ih =>
    rcases List.mem_cons.mp h with rfl | h
    · exact ⟨before, x, rfl⟩
    · exact ih h

theorem key?_eq (x : Item) : x.key? = x.offer?.map Offer.key := by
  rw [key?, offer?, Option.map_map]
  rfl

theorem mem_keys {k : String × Char} : some k ∈ xs.map key? ↔ k ∈ (xs.filterMap offer?).map Offer.key := by
  rw [funext key?_eq, List.map_filterMap, List.mem_filterMap, List.mem_map]

/-- Each fate is a rule of the table or a warning. -/
theorem length_rules_add_warnings (fs : List Fate) :
    (fs.filterMap Fate.rule?).length + (fs.filterMap Fate.warning?).length = fs.length := by
  induction fs with
  | nil => rfl
  | cons fate fs ih =>
    cases fate with
    | entered source rule =>
      have hrule : (Fate.entered source rule).rule? = some (source, rule) := rfl
      have hwarning : (Fate.entered source rule).warning? = none := rfl
      rw [List.filterMap_cons_some hrule, List.filterMap_cons_none hwarning, List.length_cons, List.length_cons, ← ih]
      omega
    | dropped w =>
      have hrule : (Fate.dropped w).rule? = none := rfl
      have hwarning : (Fate.dropped w).warning? = some w := rfl
      rw [List.filterMap_cons_none hrule, List.filterMap_cons_some hwarning, List.length_cons, List.length_cons, ← ih]
      omega

theorem isDangling_of_fate {w : Warning} (h : x.fate before = .dropped w) : w.isDangling = false := by
  cases hrule : x.spec.rule with
  | error flaw =>
    rw [fate_of_error hrule] at h
    cases h
    cases flaw <;> rfl
  | ok rule =>
    by_cases hmem : some (x.edge.source, rule.read) ∈ before.map key?
    · rw [fate_of_mem hrule hmem] at h
      cases h
      rfl
    · rw [fate_of_not_mem hrule hmem] at h
      cases h

end Item

/-! ### Warnings -/

/-- Of the warnings for a label, those that are about no repeated rule are about flawed specs. -/
theorem filter_warning?_fates (e : Edge) (target : State) (specs : List Label.Spec)
    {taken : List (String × Char)} (htaken : ∀ k, some k ∈ before.map Item.key? ↔ k ∈ taken) :
    (((Item.fates before (specs.map (Item.mk e target))).filterMap Fate.warning?).filter (!·.isRepeat) =
      specs.filterMap fun spec => match spec.rule with
        | .ok _ => none
        | .error flaw => some (.ofFlaw e.id spec flaw)) ∧
    ((Item.fates before (specs.map (Item.mk e target))).filterMap Fate.warning?).filter (·.isRepeat) =
      (Offer.repeated taken ((specs.filterMap fun spec => spec.rule.toOption).map (Offer.ofRule e target))).map fun o =>
        .duplicateSymbol e.id e.source o.rule.read := by
  induction specs generalizing before taken with
  | nil => exact ⟨rfl, rfl⟩
  | cons spec specs ih =>
    rw [List.map_cons, Item.fates]
    cases hrule : spec.rule with
    | error flaw =>
      have hrule' : (Item.mk e target spec).spec.rule = .error flaw := hrule
      have hflaw : (Warning.ofFlaw e.id spec flaw).isRepeat = false := by cases flaw <;> rfl
      have htaken' : ∀ k, some k ∈ (before ++ [Item.mk e target spec]).map Item.key? ↔ k ∈ taken := fun k => by
        rw [← htaken, List.map_append, List.mem_append, List.map_singleton, Item.key?_of_error hrule']
        simp
      simpa [Item.fate_of_error hrule', Fate.warning?, hrule, hflaw, Except.toOption] using ih htaken'
    | ok rule =>
      have hrule' : (Item.mk e target spec).spec.rule = .ok rule := hrule
      have hkey : (Offer.ofRule e target rule).key = (e.source, rule.read) := rfl
      have hread : (Offer.ofRule e target rule).rule.read = rule.read := rfl
      have htaken' : ∀ k, some k ∈ (before ++ [Item.mk e target spec]).map Item.key? ↔
          k ∈ taken ++ [(Offer.ofRule e target rule).key] := fun k => by
        rw [List.map_append, List.mem_append, List.mem_append, htaken, List.map_singleton, Item.key?_of_ok hrule', hkey]
        simp
      have ih := ih htaken'
      by_cases hrepeated : (e.source, rule.read) ∈ taken
      · have hfate := Item.fate_of_mem hrule' ((htaken _).mpr hrepeated)
        simpa [hfate, Fate.warning?, hrule, Except.toOption, Offer.repeated, hkey, hrepeated, hread,
          Warning.isRepeat] using ih
      · have hfate := Item.fate_of_not_mem hrule' fun h => hrepeated ((htaken _).mp h)
        simpa [hfate, Fate.warning?, hrule, Except.toOption, Offer.repeated, hkey, hrepeated,
          List.filterMap_cons] using ih

/-- Up to their order, the warnings for the specs of a label are those for flawed specs and those for repeated rules. -/
theorem filterMap_warning?_fates (e : Edge) (target : State) (specs : List Label.Spec)
    {taken : List (String × Char)} (htaken : ∀ k, some k ∈ before.map Item.key? ↔ k ∈ taken) :
    ((Item.fates before (specs.map (Item.mk e target))).filterMap Fate.warning?).Perm
      ((specs.filterMap fun spec => match spec.rule with
        | .ok _ => none
        | .error flaw => some (.ofFlaw e.id spec flaw)) ++
      (Offer.repeated taken ((specs.filterMap fun spec => spec.rule.toOption).map (Offer.ofRule e target))).map fun o =>
          .duplicateSymbol e.id e.source o.rule.read) := by
  obtain ⟨hflawed, hrepeated⟩ := filter_warning?_fates e target specs htaken
  rw [← hflawed, ← hrepeated]
  exact (List.perm_append_comm.trans (List.filter_append_perm _ _)).symm

namespace Diagram

theorem itemsOf_of_attached {e : Edge} (h : d.Attached e) : ∃ s target, d.state? e.source = some s ∧
    d.state? e.target = some target ∧ d.itemsOf e = (Label.specs e.label).map (Item.mk e target) := by
  obtain ⟨s, target, hs, ht⟩ := attached_iff.mp h
  exact ⟨s, target, hs, ht, by rw [itemsOf, hs, ht]⟩

theorem itemsOf_of_not_attached {e : Edge} (h : ¬d.Attached e) : d.itemsOf e = [] := by
  unfold itemsOf
  split
  · rename_i hs ht
    exact absurd (attached_iff.mpr ⟨_, _, hs, ht⟩) h
  · rfl

theorem filterMap_offer?_itemsOf (d : Diagram) (e : Edge) : (d.itemsOf e).filterMap Item.offer? = d.offersOf e := by
  by_cases he : d.Attached e
  · obtain ⟨s, target, hs, ht, hitems⟩ := itemsOf_of_attached he
    have hoffers : d.offersOf e = e.rules.map (Offer.ofRule e target) := by rw [offersOf, hs, ht]
    rw [hitems, hoffers, List.filterMap_map, Edge.rules, List.map_filterMap]
    rfl
  · rw [itemsOf_of_not_attached he, offersOf_of_not_attached he, List.filterMap_nil]

theorem filterMap_offer?_items (d : Diagram) (edges : List Edge) :
    (edges.flatMap d.itemsOf).filterMap Item.offer? = edges.flatMap d.offersOf := by
  rw [List.filterMap_flatMap]
  exact List.flatMap_congr fun e _ => filterMap_offer?_itemsOf d e

theorem length_items (d : Diagram) (edges : List Edge) : (edges.flatMap d.itemsOf).length =
    ((edges.filter fun e => d.Attached e).flatMap fun e => Label.specs e.label).length := by
  induction edges with
  | nil => rfl
  | cons e edges ih =>
    rw [List.flatMap_cons, List.length_append, ih]
    by_cases he : d.Attached e
    · obtain ⟨s, target, -, -, hitems⟩ := itemsOf_of_attached he
      rw [List.filter_cons_of_pos (by simpa using he), List.flatMap_cons, List.length_append, hitems, List.length_map]
    · rw [List.filter_cons_of_neg (by simpa using he), itemsOf_of_not_attached he, List.length_nil, Nat.zero_add]

theorem dangling?_eq_none_iff {e : Edge} : d.dangling? e = none ↔ d.Attached e := by
  unfold dangling? Attached
  by_cases hs : e.source ∈ d.nodes <;> by_cases ht : e.target ∈ d.nodes <;> simp [hs, ht]

theorem warningsOf_of_not_attached {e : Edge} (h : ¬d.Attached e) (taken : List (String × Char)) :
    ∃ w, d.dangling? e = some w ∧ d.warningsOf taken e = [w] := by
  unfold dangling? warningsOf
  by_cases hs : e.source ∈ d.nodes
  · have ht : e.target ∉ d.nodes := fun ht => h ⟨hs, ht⟩
    obtain ⟨s, hs'⟩ := Option.isSome_iff_exists.mp (state?_isSome_iff.mpr hs)
    rw [hs', state?_eq_none_iff.mpr ht]
    exact ⟨_, by simp [hs, ht], rfl⟩
  · rw [state?_eq_none_iff.mpr hs]
    exact ⟨_, by simp [hs], rfl⟩

/-- What an edge adds to the warnings: one where an end is missing, and otherwise those for its specs. -/
theorem warningsOf_perm (d : Diagram) (before : List Item) (e : Edge) {taken : List (String × Char)}
    (htaken : ∀ k, some k ∈ before.map Item.key? ↔ k ∈ taken) : (d.warningsOf taken e).Perm
      ((d.dangling? e).toList ++ (Item.fates before (d.itemsOf e)).filterMap Fate.warning?) := by
  by_cases he : d.Attached e
  · obtain ⟨s, target, hs, ht, hitems⟩ := itemsOf_of_attached he
    rw [dangling?_eq_none_iff.mpr he, hitems, warningsOf, offersOf, hs, ht]
    exact (filterMap_warning?_fates e target (Label.specs e.label) htaken).symm
  · obtain ⟨w, hdangling, hwarnings⟩ := warningsOf_of_not_attached he taken
    rw [hdangling, hwarnings, itemsOf_of_not_attached he]
    exact .refl _

theorem warnings_perm (d : Diagram) (edges : List Edge) : (d.compileEdges edges).warnings.toList.Perm
    (edges.filterMap d.dangling? ++ (Item.fates [] (edges.flatMap d.itemsOf)).filterMap Fate.warning?) := by
  induction edges using List.reverseRecOn with
  | nil => exact .refl _
  | append_singleton edges e ih =>
    have hedge := d.warningsOf_perm (edges.flatMap d.itemsOf) e fun k => by
      rw [Item.mem_keys, filterMap_offer?_items]
    have hone : [e].filterMap d.dangling? = (d.dangling? e).toList := by
      cases hdangling : d.dangling? e <;> simp [hdangling]
    rw [compileEdges_warnings_concat, List.filterMap_append, List.flatMap_append, List.flatMap_singleton,
      Item.fates_append, List.filterMap_append, hone, List.append_assoc]
    refine (ih.append hedge).trans ?_
    rw [List.append_assoc]
    exact (List.perm_append_comm_assoc _ _ _).append_left _

end Diagram

/-! ### Rules -/

theorem filterMap_rule?_fates (xs : List Item) : (Item.fates [] xs).filterMap Fate.rule? =
    (firsts Offer.key (xs.filterMap Item.offer?)).map fun o => (o.edge.source, o.rule) := by
  induction xs using List.reverseRecOn with
  | nil => rfl
  | append_singleton xs x ih =>
    rw [Item.fates_concat, List.nil_append, List.filterMap_append, List.filterMap_append, ih]
    cases hrule : x.spec.rule with
    | error flaw => simp [Item.offer?_of_error hrule, Item.fate_of_error hrule, Fate.rule?]
    | ok rule =>
      have hkey : (Offer.ofRule x.edge x.target rule).key = (x.edge.source, rule.read) := rfl
      have hone : [x].filterMap Item.offer? = [Offer.ofRule x.edge x.target rule] := by
        simp [Item.offer?_of_ok hrule]
      rw [hone, firsts_concat, hkey]
      by_cases hrepeated : some (x.edge.source, rule.read) ∈ xs.map Item.key?
      · rw [if_pos (Item.mem_keys.mp hrepeated), Item.fate_of_mem hrule hrepeated]
        simp [Fate.rule?]
      · rw [if_neg fun h => hrepeated (Item.mem_keys.mpr h), Item.fate_of_not_mem hrule hrepeated, List.map_append]
        rfl

theorem Diagram.isDangling_of_dangling? {e : Edge} {w : Warning} (h : d.dangling? e = some w) : w.isDangling := by
  unfold dangling? at h
  split at h
  · cases h
    rfl
  · split at h
    · cases h
      rfl
    · cases h

theorem isDangling_of_mem_fates {w : Warning} (h : w ∈ d.fates.filterMap Fate.warning?) : w.isDangling = false := by
  obtain ⟨fate, hfate, hw⟩ := List.mem_filterMap.mp h
  obtain ⟨before, x, rfl⟩ := Item.exists_of_mem_fates hfate
  cases hfate : x.fate before with
  | entered source rule => rw [hfate] at hw; cases hw
  | dropped w' =>
    rw [hfate] at hw
    cases hw
    exact Item.isDangling_of_fate hfate

/-- Only an edge without one of its ends dangles. -/
theorem isDangling_of_attached {w : Warning} (h : ∀ e ∈ d.edges, d.Attached e) (hw : w ∈ (compile d).warnings) :
    w.isDangling = false := by
  have hedges : d.edges.filterMap d.dangling? = [] :=
    List.filterMap_eq_nil_iff.mpr fun e he => Diagram.dangling?_eq_none_iff.mpr (h e he)
  have hperm := Diagram.warnings_perm d d.edges
  rw [hedges, List.nil_append] at hperm
  exact isDangling_of_mem_fates (hperm.mem_iff.mp (Array.mem_toList_iff.mpr hw))

end Tapeworks
