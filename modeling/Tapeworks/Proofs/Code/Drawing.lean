import Tapeworks.Code.Decode
import Tapeworks.Proofs.Compile
import Tapeworks.Proofs.Label
import Tapeworks.Proofs.Text.Numeral

/-! The diagram that is drawn for the rules of a code: which states and edges it has, and what it compiles to. Its edges
    offer the rules group by group, one group for all rules with the same ends, so that nothing is dropped unless two
    rules of one source read the same symbol. -/

namespace Tapeworks.Code

/-! ### Signs -/

theorem Sign.plain_symbol (s : Sign) : Label.Plain s.symbol := by
  cases s <;> decide

theorem Sign.symbol_injective {s s' : Sign} (h : s.symbol = s'.symbol) : s = s' := by
  cases s <;> cases s' <;> first | rfl | exact absurd h (by decide)

/-! ### Bundles -/

@[ext] structure Ends where
  source : Nat
  target : Nat
  deriving DecidableEq, Repr

def Rule.ends (r : Rule) : Ends :=
  ⟨r.source, r.target⟩

def Bundle.of (rules : List Rule) (ends : Ends) : Bundle where
  source := ends.source
  target := ends.target
  specs := ((rules.filter (·.ends = ends)).map Rule.spec).reverse

namespace Bundle

variable {rules : List Rule} {r : Rule}

theorem of_concat_self (rules : List Rule) (r : Rule) :
    of (rules ++ [r]) r.ends = { of rules r.ends with specs := r.spec :: (of rules r.ends).specs } := by
  simp [of]

theorem of_concat_of_ne {ends : Ends} (h : ends ≠ r.ends) : of (rules ++ [r]) ends = of rules ends := by
  simp [of, h.symm]

theorem add_of (ends : List (Ends)) (hnodup : ends.Nodup)
    (hnew : r.ends ∉ ends → ∀ r' ∈ rules, r'.ends ≠ r.ends) :
    add r (ends.map (of rules)) = (if r.ends ∈ ends then ends else ends ++ [r.ends]).map (of (rules ++ [r])) := by
  induction ends with
  | nil =>
    have hnone : rules.filter (·.ends = r.ends) = [] :=
      List.filter_eq_nil_iff.mpr fun r' hr' => by simpa using hnew List.not_mem_nil r' hr'
    rw [List.map_nil, add, if_neg List.not_mem_nil, List.nil_append, List.map_singleton, of_concat_self, of, hnone]
    rfl
  | cons e ends ih =>
    obtain ⟨he, hnodup⟩ := List.nodup_cons.mp hnodup
    rw [List.map_cons, add]
    by_cases hr : e = r.ends
    · subst hr
      have hrest : ends.map (of rules) = ends.map (of (rules ++ [r])) :=
        List.map_congr_left fun e' he' => (of_concat_of_ne fun h => he (h ▸ he')).symm
      rw [if_pos ⟨rfl, rfl⟩, if_pos List.mem_cons_self, List.map_cons, of_concat_self, hrest]
    · have hne : ¬((of rules e).source = r.source ∧ (of rules e).target = r.target) := fun h => hr (Ends.ext h.1 h.2)
      have hmem : r.ends ∈ e :: ends ↔ r.ends ∈ ends :=
        ⟨fun h => (List.mem_cons.mp h).resolve_left (Ne.symm hr), List.mem_cons_of_mem _⟩
      rw [if_neg hne, ih hnodup fun h => hnew fun h' => h (hmem.mp h'), ← of_concat_of_ne hr]
      simp only [hmem]
      split <;> rfl

end Bundle

/-! ### States and edges -/

/-- The numbers that the rules mention, in the order in which they are met. -/
def numbers (rules : List Rule) : List Nat :=
  (rules.flatMap fun r => [r.source, r.target]).eraseDups

def drawnState (final n : Nat) : State where
  id := Text.numeral n
  isFinal := decide (n = final)

def drawnEdge (rules : List Rule) (ends : Ends) : Edge :=
  (Bundle.of rules ends).edge

variable {rules : List Rule} {last r : Rule} {n : Nat}

theorem meet_reverse (n : Nat) (ns : List Nat) :
    Sketch.meet n ns.eraseDups.reverse = (ns ++ [n]).eraseDups.reverse := by
  rw [Sketch.meet, eraseDups_concat]
  by_cases hn : n ∈ ns <;> simp [hn]

theorem sketch_eq (rules : List Rule) : rules.foldl Sketch.add ⟨[], []⟩ =
    ⟨(numbers rules).reverse, (rules.map Rule.ends).eraseDups.map (Bundle.of rules)⟩ := by
  induction rules using List.reverseRecOn with
  | nil => rfl
  | append_singleton rules r ih =>
    rw [List.foldl_append, ih, List.foldl_cons, List.foldl_nil, Sketch.add, Sketch.mk.injEq]
    constructor
    · simp only [numbers]
      rw [meet_reverse, meet_reverse]
      simp
    · dsimp only
      rw [Bundle.add_of _ (nodup_eraseDups _), List.map_append, List.map_singleton, eraseDups_concat]
      · simp only [List.mem_eraseDups]
      · exact fun h r' hr' he => h (List.mem_eraseDups.mpr (he ▸ List.mem_map_of_mem hr'))

theorem draw_states (rules : List Rule) (last : Rule) :
    (draw rules last).states = (numbers rules).map (drawnState last.target) := by
  rw [draw, sketch_eq, Sketch.diagram, List.reverse_reverse]
  rfl

theorem draw_edges (rules : List Rule) (last : Rule) :
    (draw rules last).edges = (rules.map Rule.ends).eraseDups.map (drawnEdge rules) := by
  rw [draw, sketch_eq, Sketch.diagram, List.map_map]
  rfl

theorem exists_of_mem_draw_edges {e : Edge} (h : e ∈ (draw rules last).edges) :
    ∃ r ∈ rules, e = drawnEdge rules r.ends := by
  rw [draw_edges] at h
  obtain ⟨ends, hends, rfl⟩ := List.mem_map.mp h
  obtain ⟨r, hr, rfl⟩ := List.mem_map.mp (List.mem_eraseDups.mp hends)
  exact ⟨r, hr, rfl⟩

theorem nodup_numbers (rules : List Rule) : (numbers rules).Nodup :=
  nodup_eraseDups _

theorem mem_numbers : n ∈ numbers rules ↔ ∃ r ∈ rules, n = r.source ∨ n = r.target := by
  simp [numbers]

theorem source_mem_numbers (h : r ∈ rules) : r.source ∈ numbers rules :=
  mem_numbers.mpr ⟨r, h, Or.inl rfl⟩

theorem target_mem_numbers (h : r ∈ rules) : r.target ∈ numbers rules :=
  mem_numbers.mpr ⟨r, h, Or.inr rfl⟩

theorem draw_nodes (rules : List Rule) (last : Rule) : (draw rules last).nodes = (numbers rules).map Text.numeral := by
  rw [Diagram.nodes, draw_states, List.map_map]
  rfl

theorem nodup_draw_nodes (rules : List Rule) (last : Rule) : (draw rules last).nodes.Nodup := by
  rw [draw_nodes]
  exact List.Nodup.map (fun _ _ => Text.numeral_injective) (nodup_numbers rules)

theorem state?_draw_eq_some {s : State} {id : String} : (draw rules last).state? id = some s ↔
    ∃ n ∈ numbers rules, id = Text.numeral n ∧ s = drawnState last.target n := by
  rw [Diagram.state?, find?_key_eq_some_iff (nodup_draw_nodes rules last), draw_states, List.mem_map]
  constructor
  · rintro ⟨⟨n, hn, rfl⟩, rfl⟩
    exact ⟨n, hn, rfl, rfl⟩
  · rintro ⟨n, hn, rfl, rfl⟩
    exact ⟨⟨n, hn, rfl⟩, rfl⟩

theorem state?_draw (h : n ∈ numbers rules) :
    (draw rules last).state? (Text.numeral n) = some (drawnState last.target n) :=
  state?_draw_eq_some.mpr ⟨n, h, rfl, rfl⟩

/-- The target of the last rule is the only final state. -/
theorem draw_final (h : last ∈ rules) :
    (draw rules last).states.filter (·.isFinal) = [drawnState last.target last.target] := by
  have hfinal : (numbers rules).filter (fun n => (drawnState last.target n).isFinal) = [last.target] := by
    have hcount : (numbers rules).count last.target = 1 :=
      List.count_eq_one_of_mem (nodup_numbers rules) (target_mem_numbers h)
    rw [← List.replicate_one, ← hcount]
    exact List.filter_eq _
  rw [draw_states, List.filter_map]
  exact congrArg (List.map _) hfinal

/-! ### Labels -/

/-- The rule as a label states it. -/
def Rule.labelRule (r : Rule) : Label.Rule where
  read := r.read.symbol
  write := some r.write.symbol
  direction := r.direction

theorem toList_spec (r : Rule) :
    r.spec.toList = [r.read.symbol, ',', r.write.symbol, ',', r.direction.symbol] :=
  String.toList_ofList

theorem drawnEdge_specs (h : r ∈ rules) : Label.specs (drawnEdge rules r.ends).label =
    (rules.filter (·.ends = r.ends)).map fun r => Label.Spec.ofText r.spec.toList := by
  have hlabel : (drawnEdge rules r.ends).label =
      String.intercalate ";" ((rules.filter (·.ends = r.ends)).map Rule.spec) := by
    rw [drawnEdge, Bundle.edge, Edge.between, Bundle.of, List.reverse_reverse]
  have hne : (rules.filter (·.ends = r.ends)).map Rule.spec ≠ [] := by
    rw [Ne, List.map_eq_nil_iff, List.filter_eq_nil_iff]
    exact fun hnone => hnone r h (by simp)
  rw [hlabel, Label.specs_intercalate hne, List.map_map]
  · rfl
  · intro text htext
    obtain ⟨r, -, rfl⟩ := List.mem_map.mp htext
    rw [toList_spec]
    simp [r.read.plain_symbol.2.1.symm, r.write.plain_symbol.2.1.symm, (Label.plain_symbol r.direction).2.1.symm]

theorem rule_ofText_spec (r : Rule) : (Label.Spec.ofText r.spec.toList).rule = .ok r.labelRule := by
  rw [toList_spec]
  exact Label.rule_ofText r.read.plain_symbol r.write.plain_symbol r.direction

theorem drawnEdge_rules (h : r ∈ rules) :
    (drawnEdge rules r.ends).rules = (rules.filter (·.ends = r.ends)).map Rule.labelRule := by
  rw [Edge.rules, drawnEdge_specs h, List.filterMap_map]
  simp [Function.comp_def, rule_ofText_spec, Except.toOption]

theorem drawnEdge_rejections (h : r ∈ rules) : (drawnEdge rules r.ends).rejections = [] := by
  rw [Edge.rejections, drawnEdge_specs h, List.filterMap_map]
  simp [rule_ofText_spec]

/-! ### The compiled table -/

def Rule.transition (final : Nat) (r : Rule) : Transition where
  read := r.read.symbol
  write := some r.write.symbol
  direction := r.direction
  target := drawnState final r.target

def drawnOffer (rules : List Rule) (final : Nat) (r : Rule) : Offer where
  edge := drawnEdge rules r.ends
  rule := r.transition final

theorem draw_offers (rules : List Rule) (last : Rule) :
    (draw rules last).offers = (group Rule.ends rules).map (drawnOffer rules last.target) := by
  rw [Diagram.offers, draw_edges, List.flatMap_map, group, gather, List.map_flatMap]
  refine List.flatMap_congr fun ends hends => ?_
  obtain ⟨r, hr, rfl⟩ := List.mem_map.mp (List.mem_eraseDups.mp hends)
  have hs : ((draw rules last).state? (drawnEdge rules r.ends).source).isSome :=
    Option.isSome_iff_exists.mpr ⟨_, state?_draw (source_mem_numbers hr)⟩
  rw [Diagram.offersOf_of_isSome hs (state?_draw (target_mem_numbers hr)), drawnEdge_rules hr, List.map_map]
  refine List.map_congr_left fun r' hr' => ?_
  have hends : r'.ends = r.ends := by simpa using (List.mem_filter.mp hr').2
  have htarget : r'.target = r.target := congrArg Ends.target hends
  rw [drawnOffer, hends, Rule.transition, htarget]
  rfl

theorem draw_offer_keys (rules : List Rule) (last : Rule) : (draw rules last).offers.map Offer.key =
    ((group Rule.ends rules).map fun r => (r.source, r.read)).map fun k => (Text.numeral k.1, k.2.symbol) := by
  rw [draw_offers, List.map_map, List.map_map]
  rfl

theorem numeral_symbol_injective : Function.Injective fun k : Nat × Sign => (Text.numeral k.1, k.2.symbol) :=
  fun _ _ h => Prod.ext (Text.numeral_injective (congrArg Prod.fst h)) (Sign.symbol_injective (congrArg Prod.snd h))

/-- Nothing is dropped exactly when no two rules have one source and one symbol to read. -/
theorem draw_warnings_eq_empty_iff : (compile (draw rules last)).warnings = #[] ↔
    (rules.map fun r => (r.source, r.read)).Nodup := by
  have hedges : ∀ e ∈ (draw rules last).edges, ((draw rules last).state? e.source).isSome ∧
      ((draw rules last).state? e.target).isSome ∧ e.rejections = [] := by
    intro e he
    obtain ⟨r, hr, rfl⟩ := exists_of_mem_draw_edges he
    exact ⟨Option.isSome_iff_exists.mpr ⟨_, state?_draw (source_mem_numbers hr)⟩,
      Option.isSome_iff_exists.mpr ⟨_, state?_draw (target_mem_numbers hr)⟩, drawnEdge_rejections hr⟩
  rw [warnings_eq_empty_iff, and_iff_right hedges, draw_offer_keys, List.nodup_map_iff numeral_symbol_injective]
  exact ((group_perm Rule.ends rules).map _).nodup_iff

theorem draw_transitions (rules : List Rule) (last : Rule) (id : String) :
    (compile (draw rules last)).table.transitions id = firsts (·.read)
      (((group Rule.ends rules).filter (Text.numeral ·.source = id)).map (Rule.transition last.target)) := by
  rw [transitions_compile, draw_offers, List.filter_map, List.map_map]
  rfl

/-- Where no two rules have one source and one symbol to read, a state has all of its rules. -/
theorem draw_transitions_of_nodup (h : (rules.map fun r => (r.source, r.read)).Nodup) (last : Rule) (id : String) :
    (compile (draw rules last)).table.transitions id =
      ((group Rule.ends rules).filter (Text.numeral ·.source = id)).map (Rule.transition last.target) := by
  rw [draw_transitions]
  refine firsts_eq_self ?_
  have hgroup : (group Rule.ends rules).Pairwise fun r r' => (r.source, r.read) ≠ (r'.source, r'.read) :=
    List.pairwise_map.mp (((group_perm Rule.ends rules).map _).nodup_iff.mpr h)
  rw [List.map_map]
  refine List.pairwise_map.mpr ((hgroup.filter _).imp_of_mem fun {r r'} hr hr' hne he => hne (Prod.ext ?_ ?_))
  · have hid := (List.mem_filter.mp hr).2
    have hid' := (List.mem_filter.mp hr').2
    exact Text.numeral_injective ((decide_eq_true_eq.mp hid).trans (decide_eq_true_eq.mp hid').symm)
  · exact Sign.symbol_injective he

theorem mem_draw_transitions (h : (rules.map fun r => (r.source, r.read)).Nodup) {id : String} {t : Transition} :
    t ∈ (compile (draw rules last)).table.transitions id ↔
      ∃ r ∈ rules, Text.numeral r.source = id ∧ r.transition last.target = t := by
  rw [draw_transitions_of_nodup h]
  simp only [List.mem_map, List.mem_filter, (group_perm Rule.ends rules).mem_iff, decide_eq_true_eq, and_assoc]

end Tapeworks.Code
