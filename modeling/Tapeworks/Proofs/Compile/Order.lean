import Tapeworks.Proofs.Compile.Declared
import Tapeworks.Proofs.Label.Grammar
import Tapeworks.Proofs.Machine.Exchange

/-! Where order matters in a diagram. The first rule for a state and a symbol wins, so that the order of the edges with
    one source matters, but never how they are interleaved with others. Where nothing is dropped there is no second
    rule, and then no order matters: not that of the states, nor that of the edges, nor that of the specs in a label. -/

namespace Tapeworks

variable {d d' : Diagram} {e e' : Edge} {id : String}

/-- The edge has the same specs in its label, in any order. -/
structure Edge.Shuffled (e e' : Edge) : Prop where
  id : e'.id = e.id
  source : e'.source = e.source
  target : e'.target = e.target
  label : ∃ parts, parts.Perm (e.label.toList.splitOn ';') ∧ e'.label.toList = [';'].intercalate parts

/-- The diagram has the same states and edges, and the same specs in every label, in any order. -/
structure Diagram.Shuffled (d d' : Diagram) : Prop where
  states : d'.states.Perm d.states
  edges : ∃ edges, edges.Perm d.edges ∧ List.Forall₂ Edge.Shuffled edges d'.edges

/-- The diagram `d'` compiles without a loss as well, and machines of both tables cannot be told apart. -/
structure CompilesAlike (d d' : Diagram) : Prop where
  clean : (compile d').isClean
  states : (compile d').table.states = (compile d).table.states
  rule : ∀ id c, (compile d').table.find? id c = (compile d).table.find? id c
  new : ∀ tape ops, Machine.showing ops (Machine.new (compile d').table tape) =
    Machine.showing ops (Machine.new (compile d).table tape)
  startingAt : ∀ tape id ops, Machine.showing ops (Machine.startingAt (compile d').table tape id) =
    Machine.showing ops (Machine.startingAt (compile d).table tape id)
  resume : ∀ snapshot ops, Machine.showing ops (Machine.resume (compile d').table snapshot) =
    Machine.showing ops (Machine.resume (compile d).table snapshot)

structure OrderFree (d d' : Diagram) : Prop where
  interleaved : d'.states = d.states →
    (∀ id, d'.edges.filter (·.source = id) = d.edges.filter (·.source = id)) → (compile d').table = (compile d).table
  shuffled : d.nodes.Nodup → (compile d).isClean → d.Shuffled d' → CompilesAlike d d'

/-! ### Edges of one source -/

theorem Diagram.offersOf_congr (h : ∀ id, d'.state? id = d.state? id) (e : Edge) : d'.offersOf e = d.offersOf e := by
  unfold offersOf
  rw [h, h]

theorem Diagram.filter_offers (d : Diagram) (id : String) :
    d.offers.filter (·.edge.source = id) = (d.edges.filter (·.source = id)).flatMap d.offersOf := by
  have hedge : ∀ e, (d.offersOf e).filter (·.edge.source = id) = if e.source = id then d.offersOf e else [] := by
    intro e
    by_cases he : e.source = id
    · rw [if_pos he, List.filter_eq_self]
      intro o ho
      simpa [(offersOf_source ho).1] using he
    · rw [if_neg he, List.filter_eq_nil_iff]
      intro o ho
      simpa [(offersOf_source ho).1] using he
  unfold offers
  induction d.edges with
  | nil => rfl
  | cons e edges ih =>
    rw [List.flatMap_cons, List.filter_append, ih, hedge]
    by_cases he : e.source = id <;> simp [he]

/-- The states of the table are settled by what is found under each id. -/
theorem states_compile_congr (h : ∀ id, d'.state? id = d.state? id) :
    (compile d').table.states = (compile d).table.states := by
  have hmem : ∀ s, s ∈ (compile d').table.states ↔ s ∈ (compile d).table.states := fun s => by
    rw [mem_states_compile, mem_states_compile, h]
  exact eq_of_mem_iff (fun _ _ => String.lt_asymm) (pairwise_states_compile d') (pairwise_states_compile d) hmem

/-- The rules of a state are settled by what is found under each id and by the sequence of its edges. -/
theorem transitions_compile_congr (hstate : ∀ id, d'.state? id = d.state? id)
    (hedges : d'.edges.filter (·.source = id) = d.edges.filter (·.source = id)) :
    (compile d').table.transitions id = (compile d).table.transitions id := by
  have hoffers : ∀ e, d'.offersOf e = d.offersOf e := Diagram.offersOf_congr hstate
  rw [transitions_compile, transitions_compile, Diagram.filter_offers, Diagram.filter_offers, hedges, funext hoffers]

/-- The table is settled by the states and by the sequence of edges of each source. -/
theorem table_compile_congr (hstates : d'.states = d.states)
    (hedges : ∀ id, d'.edges.filter (·.source = id) = d.edges.filter (·.source = id)) :
    (compile d').table = (compile d).table := by
  have hstate : ∀ id, d'.state? id = d.state? id := fun id => by rw [Diagram.state?, Diagram.state?, hstates]
  have hrules : ∀ id, (compile d').table.transitions id = (compile d).table.transitions id := fun id =>
    transitions_compile_congr hstate (hedges id)
  have hrows : (compile d').table.rows = (compile d).table.rows := by
    rw [Table.rows_eq (ascending_compile d'), Table.rows_eq (ascending_compile d), states_compile_congr hstate]
    exact List.map_congr_left fun s _ => by rw [hrules]
  calc (compile d').table = ⟨(compile d').table.rows⟩ := rfl
    _ = ⟨(compile d).table.rows⟩ := by rw [hrows]

/-! ### Shuffled diagrams -/

/-- A rule with the state that it is offered to. -/
def Offer.placed (o : Offer) : String × Transition :=
  (o.edge.source, o.rule)

theorem find?_placed (d : Diagram) (id : String) (c : Char) : (compile d).table.find? id c =
    ((d.offers.map Offer.placed).find? fun x => (x.1, x.2.read) = (id, c)).map (·.2) := by
  rw [find?_compile, List.find?_map, Option.map_map]
  simp only [Prod.mk.injEq]
  rfl

namespace Edge.Shuffled

theorem refl (e : Edge) : e.Shuffled e :=
  ⟨rfl, rfl, rfl, e.label.toList.splitOn ';', .refl _, (List.intercalate_splitOn ';').symm⟩

theorem specs_perm (h : e.Shuffled e') : (Label.specs e'.label).Perm (Label.specs e.label) := by
  obtain ⟨parts, hparts, hlabel⟩ := h.label
  have hsplit : e'.label.toList.splitOn ';' = parts := by
    rw [hlabel]
    refine List.splitOn_intercalate ';' (fun part hpart hmem => ?_) fun hnil => ?_
    · exact (Label.mem_of_mem_splitOn (hparts.mem_iff.mp hpart) hmem).2 rfl
    · rw [hnil] at hparts
      exact List.splitOn_ne_nil ';' _ (List.nil_perm.mp hparts)
  rw [Label.specs, Label.specs, hsplit]
  exact hparts.map _

theorem rejections_perm (h : e.Shuffled e') : e'.rejections.Perm e.rejections := by
  unfold rejections
  rw [h.id]
  exact h.specs_perm.filterMap _

theorem placed_perm (h : e.Shuffled e') (hstate : ∀ id, d'.state? id = d.state? id) :
    ((d'.offersOf e').map Offer.placed).Perm ((d.offersOf e).map Offer.placed) := by
  have hrules : e'.rules.Perm e.rules := h.specs_perm.filterMap _
  unfold Diagram.offersOf
  rw [hstate, hstate, h.source, h.target]
  split
  · rename_i target _ _
    have hplaced : Offer.placed ∘ Offer.ofRule e' target = Offer.placed ∘ Offer.ofRule e target := by
      funext rule
      simp [Offer.placed, Offer.ofRule, h.source]
    rw [List.map_map, List.map_map, hplaced]
    exact hrules.map _
  · exact .refl _

end Edge.Shuffled

namespace Diagram.Shuffled

theorem state?_eq (h : d.Shuffled d') (hnodup : d.nodes.Nodup) (id : String) : d'.state? id = d.state? id :=
  find?_perm h.states.symm hnodup id

theorem exists_edge (h : d.Shuffled d') (he' : e' ∈ d'.edges) : ∃ e ∈ d.edges, e.Shuffled e' := by
  obtain ⟨edges, hperm, hshuffled⟩ := h.edges
  obtain ⟨e, he, hshuffled⟩ := exists_rel_of_mem hshuffled.flip he'
  exact ⟨e, hperm.mem_iff.mp he, hshuffled⟩

theorem placed_perm (h : d.Shuffled d') (hnodup : d.nodes.Nodup) :
    (d'.offers.map Offer.placed).Perm (d.offers.map Offer.placed) := by
  obtain ⟨edges, hperm, hshuffled⟩ := h.edges
  rw [offers, offers, List.map_flatMap, List.map_flatMap]
  refine List.Perm.trans ?_ (hperm.flatMap_right _)
  refine List.Perm.flatten_congr (List.forall₂_map_left_iff.mpr (List.forall₂_map_right_iff.mpr ?_))
  exact hshuffled.flip.imp fun e' e he => he.placed_perm (h.state?_eq hnodup)

theorem keys_perm (h : d.Shuffled d') (hnodup : d.nodes.Nodup) :
    (d'.offers.map Offer.key).Perm (d.offers.map Offer.key) := by
  have hkey : Offer.key = (fun x => (x.1, x.2.read)) ∘ Offer.placed := rfl
  rw [hkey, ← List.map_map, ← List.map_map]
  exact (h.placed_perm hnodup).map _

theorem clean (h : d.Shuffled d') (hnodup : d.nodes.Nodup) (hclean : (compile d).warnings = #[]) :
    (compile d').warnings = #[] := by
  obtain ⟨hedges, hkeys⟩ := warnings_eq_empty_iff.mp hclean
  refine warnings_eq_empty_iff.mpr ⟨fun e' he' => ?_, (h.keys_perm hnodup).nodup_iff.mpr hkeys⟩
  obtain ⟨e, he, hshuffled⟩ := h.exists_edge he'
  obtain ⟨hsource, htarget, hnone⟩ := hedges e he
  rw [h.state?_eq hnodup, h.state?_eq hnodup, hshuffled.source, hshuffled.target]
  exact ⟨hsource, htarget, List.perm_nil.mp (hnone ▸ hshuffled.rejections_perm)⟩

theorem agrees (h : d.Shuffled d') (hnodup : d.nodes.Nodup) (hclean : (compile d).warnings = #[]) :
    (compile d).table.Agrees (compile d').table where
  states := states_compile_congr (h.state?_eq hnodup)
  rule id c := by
    have hkeys : ((d.offers.map Offer.placed).map fun x => (x.1, x.2.read)).Nodup := by
      rw [List.map_map]
      exact (warnings_eq_empty_iff.mp hclean).2
    rw [find?_placed, find?_placed, find?_perm (h.placed_perm hnodup).symm hkeys]

end Diagram.Shuffled

/-- Compiling looks at the order within a source only, and not even at that where nothing is dropped. -/
theorem orderFree_compile (d d' : Diagram) : OrderFree d d' where
  interleaved := table_compile_congr
  shuffled hnodup hclean h := by
    have hempty : (compile d).warnings = #[] := Array.isEmpty_iff.mp hclean
    have hagrees := h.agrees hnodup hempty
    exact {
      clean := Array.isEmpty_iff.mpr (h.clean hnodup hempty)
      states := hagrees.states
      rule := hagrees.rule
      new := Machine.showing_new hagrees
      startingAt := Machine.showing_startingAt hagrees
      resume := Machine.showing_resume hagrees }

def zigzag : Diagram where
  states := [{ id := "1", isStart := true }, { id := "2" }, { id := "3", isFinal := true }]
  edges := [Edge.between "1" "2" "a,>;b,_,>", Edge.between "2" "1" "a,<", Edge.between "1" "3" "_,>"]

/-- The edges of the state 1 are still in their order. -/
def zigzagInterleaved : Diagram where
  states := zigzag.states
  edges := [Edge.between "1" "2" "a,>;b,_,>", Edge.between "1" "3" "_,>", Edge.between "2" "1" "a,<"]

def zigzagShuffled : Diagram where
  states := [{ id := "3", isFinal := true }, { id := "2" }, { id := "1", isStart := true }]
  edges := [Edge.between "1" "3" "_,>", Edge.between "1" "2" "b,_,>;a,>", Edge.between "2" "1" "a,<"]

theorem zigzag_shuffled : zigzag.Shuffled zigzagShuffled where
  states := by decide
  edges := by
    have hswapped : (Edge.between "1" "2" "a,>;b,_,>").Shuffled (Edge.between "1" "2" "b,_,>;a,>") :=
      ⟨rfl, rfl, rfl, ["b,_,>".toList, "a,>".toList], by decide, rfl⟩
    exact ⟨[Edge.between "1" "3" "_,>", Edge.between "1" "2" "a,>;b,_,>", Edge.between "2" "1" "a,<"], by decide,
      .cons (.refl _) (.cons hswapped (.cons (.refl _) .nil))⟩

theorem orderFree_compile_zigzag : (compile zigzagInterleaved).table = (compile zigzag).table ∧
    zigzag.nodes.Nodup ∧ (compile zigzag).isClean ∧ CompilesAlike zigzag zigzagShuffled := by
  have hdistinct : zigzag.nodes.Nodup := by decide
  have hclean : (compile zigzag).isClean := rfl
  refine ⟨(orderFree_compile zigzag zigzagInterleaved).interleaved rfl fun id => ?_, hdistinct, hclean,
    (orderFree_compile zigzag zigzagShuffled).shuffled hdistinct hclean zigzag_shuffled⟩
  by_cases hone : id = "1"
  · rw [hone]
    decide
  · simp [zigzag, zigzagInterleaved, Edge.between, List.filter_cons, Ne.symm hone]

end Tapeworks
