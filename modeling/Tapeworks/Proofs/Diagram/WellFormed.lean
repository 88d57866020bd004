import Mathlib.Data.List.Basic
import Tapeworks.Proofs.Compile.Declared
import Tapeworks.Proofs.Diagram.Edits
import Tapeworks.Proofs.Diagram.FreeId

/-! Well-formed diagrams: the ids of states are distinct numerals, edges are attached, two states have one edge at most
    in each direction, and its ends give an edge its id. The numerals make the ids of edges distinct too. Every edit
    keeps a diagram well formed: a new state has a new numeral, and a state that goes takes its edges with it. -/

namespace Tapeworks

variable {d d' : Diagram} {e : Edit} {id : String}

/-! ### Edge ids -/

/-- An edge without its label, which no other part of the diagram depends on. -/
def Edge.unlabelled (e : Edge) : Edge :=
  { e with label := "" }

theorem dash_not_mem_numeral (n : Nat) : '-' ∉ (Text.numeral n).toList := by
  rw [Text.toList_numeral]
  intro h
  cases Nat.isDigit_of_mem_toDigits (by decide) (by decide) h

/-- The dash ends the numeral of the source. -/
theorem idBetween_numerals_injective {k m n l : Nat}
    (h : Edge.idBetween (Text.numeral k) (Text.numeral m) = Edge.idBetween (Text.numeral n) (Text.numeral l)) :
    k = n ∧ m = l := by
  have hid : ∀ source target : String,
      (Edge.idBetween source target).toList = 'e' :: (source.toList ++ '-' :: target.toList) := by
    intro source target
    simp [Edge.idBetween]
  have hlist := congrArg String.toList h
  rw [hid, hid] at hlist
  obtain ⟨hsource, -, htarget⟩ :=
    (List.append_cons_inj_of_notMem (dash_not_mem_numeral k) (dash_not_mem_numeral m)).mp (List.cons.inj hlist).2
  have hinj : ∀ {i j : Nat}, (Text.numeral i).toList = (Text.numeral j).toList → i = j := fun he =>
    Text.numeral_injective (String.toList_inj.mp he)
  exact ⟨hinj hsource, hinj htarget⟩

namespace Diagram

/-! ### Well-formed diagrams -/

structure WellFormed (d : Diagram) : Prop where
  distinct : d.nodes.Nodup
  numerals : ∀ id ∈ d.nodes, ∃ n, 0 < n ∧ id = Text.numeral n
  attached : ∀ e ∈ d.edges, d.Attached e
  single : d.links.Nodup
  named : ∀ e ∈ d.edges, e.id = Edge.idBetween e.source e.target

/-- The number of states is a word, as it is of all states that fit in a memory. -/
def Storable (d : Diagram) : Prop :=
  d.states.length < Text.wordLimit

instance (d : Diagram) : Decidable d.Storable :=
  inferInstanceAs (Decidable (_ < _))

theorem Storable.nextId_not_mem (h : d.Storable) : d.nextId ∉ d.nodes :=
  Tapeworks.nextId_not_mem (by rw [nodes, List.length_map]; exact h)

namespace WellFormed

theorem nodup_edge_ids (h : d.WellFormed) : (d.edges.map (·.id)).Nodup := by
  have hlinks : d.edges.Pairwise fun e e' => (e.source, e.target) ≠ (e'.source, e'.target) :=
    List.pairwise_map.mp h.single
  refine List.pairwise_map.mpr (hlinks.imp_of_mem fun {e e'} he he' hne hid => hne ?_)
  rw [h.named e he, h.named e' he'] at hid
  obtain ⟨k, -, hk⟩ := h.numerals _ (h.attached e he).1
  obtain ⟨m, -, hm⟩ := h.numerals _ (h.attached e he).2
  obtain ⟨n, -, hn⟩ := h.numerals _ (h.attached e' he').1
  obtain ⟨l, -, hl⟩ := h.numerals _ (h.attached e' he').2
  rw [hk, hm, hn, hl] at hid
  obtain ⟨rfl, rfl⟩ := idBetween_numerals_injective hid
  rw [hk, hm, hn, hl]

/-! ### Edits -/

/-- States may go, and edges may go and be labelled anew, as long as the edges that stay are attached. -/
theorem of_sublist (h : d.WellFormed) (hnodes : d'.nodes.Sublist d.nodes)
    (hedges : (d'.edges.map Edge.unlabelled).Sublist (d.edges.map Edge.unlabelled))
    (hattached : ∀ e ∈ d'.edges, d'.Attached e) : d'.WellFormed where
  distinct := h.distinct.sublist hnodes
  numerals id hid := h.numerals id (hnodes.subset hid)
  attached := hattached
  single := by
    have hlinks : ∀ d : Diagram, d.links = (d.edges.map Edge.unlabelled).map fun e => (e.source, e.target) := by
      intro d
      rw [List.map_map]
      rfl
    have hsingle := h.single
    rw [hlinks] at hsingle ⊢
    exact hsingle.sublist (hedges.map _)
  named e he := by
    obtain ⟨e', he', hsame⟩ := List.mem_map.mp (hedges.subset (List.mem_map_of_mem he))
    have hnamed : e'.unlabelled.id = Edge.idBetween e'.unlabelled.source e'.unlabelled.target := h.named e' he'
    rw [hsame] at hnamed
    exact hnamed

theorem of_nodes_eq (h : d.WellFormed) (hnodes : d'.nodes = d.nodes)
    (hedges : (d'.edges.map Edge.unlabelled).Sublist (d.edges.map Edge.unlabelled)) : d'.WellFormed := by
  refine h.of_sublist (hnodes ▸ List.Sublist.refl _) hedges fun e he => ?_
  obtain ⟨e', he', hsame⟩ := List.mem_map.mp (hedges.subset (List.mem_map_of_mem he))
  have hattached : d.Attached e'.unlabelled := h.attached e' he'
  rw [hsame] at hattached
  unfold Attached
  rw [hnodes]
  exact hattached

theorem addState (h : d.WellFormed) (hroom : d.Storable) (position : Position) : (d.addState position).WellFormed := by
  have hnodes : (d.addState position).nodes = d.nodes ++ [d.nextId] := List.map_append
  refine ⟨?_, fun id hid => ?_, fun e he => ?_, h.single, h.named⟩
  · rw [hnodes, ← List.concat_eq_append]
    exact h.distinct.concat hroom.nextId_not_mem
  · rw [hnodes] at hid
    rcases List.mem_append.mp hid with hold | hnextId
    · exact h.numerals id hold
    · exact ⟨_, freeNumber_pos d.nodes, List.mem_singleton.mp hnextId⟩
  · obtain ⟨hs, ht⟩ := h.attached e he
    unfold Attached
    rw [hnodes]
    exact ⟨List.mem_append_left _ hs, List.mem_append_left _ ht⟩

theorem removeState {front back : List State} {s : State} (h : d.WellFormed) (hstates : d.states = front ++ s :: back) :
    WellFormed ⟨front ++ back, d.edges.filter fun e => e.source ≠ s.id ∧ e.target ≠ s.id⟩ := by
  have hnodes : ∀ id, id ∈ d.nodes → id ≠ s.id → id ∈ (front ++ back).map (·.id) := by
    intro id hid hne
    rw [nodes, hstates, List.map_append, List.map_cons] at hid
    rw [List.map_append]
    simpa [hne] using hid
  refine h.of_sublist ?_ (List.filter_sublist.map _) fun e he => ?_
  · rw [nodes, nodes, hstates]
    exact ((List.sublist_cons_self s back).append_left front).map _
  · obtain ⟨he, hends⟩ := List.mem_filter.mp he
    obtain ⟨hs, ht⟩ := of_decide_eq_true hends
    exact ⟨hnodes _ (h.attached e he).1 hs, hnodes _ (h.attached e he).2 ht⟩

theorem connect {source target : String} (label : String) (h : d.WellFormed) (hs : source ∈ d.nodes)
    (ht : target ∈ d.nodes) (hlink : (source, target) ∉ d.links) :
    WellFormed ⟨d.states, d.edges ++ [Edge.between source target label]⟩ := by
  have hlinks : links ⟨d.states, d.edges ++ [Edge.between source target label]⟩ = d.links ++ [(source, target)] :=
    List.map_append
  refine ⟨h.distinct, h.numerals, fun e he => ?_, ?_, fun e he => ?_⟩
  · rcases List.mem_append.mp he with hold | hnew
    · exact h.attached e hold
    · obtain rfl := List.mem_singleton.mp hnew
      exact ⟨hs, ht⟩
  · rw [hlinks, ← List.concat_eq_append]
    exact h.single.concat hlink
  · rcases List.mem_append.mp he with hold | hnew
    · exact h.named e hold
    · obtain rfl := List.mem_singleton.mp hnew
      rfl

/-- Every edit that is done keeps the diagram well formed. -/
theorem done (h : d.WellFormed) (hdone : Done d e d') (hroom : e.addsState → d.Storable) : d'.WellFormed := by
  cases hdone with
  | addState position => exact h.addState (hroom rfl) position
  | removeState hfirst => exact h.removeState hfirst.parts
  | connect hs ht hlink => exact h.connect _ hs ht hlink
  | setLabel label hfirst =>
    refine h.of_nodes_eq rfl ?_
    rw [hfirst.parts, List.map_append, List.map_append]
    exact List.Sublist.refl _
  | setStart isStart hfirst | setFinal isFinal hfirst =>
    refine h.of_nodes_eq ?_ (List.Sublist.refl _)
    rw [nodes, nodes, hfirst.parts, List.map_append, List.map_append]
    rfl
  | makeSoleStart _ =>
    refine h.of_nodes_eq ?_ (List.Sublist.refl _)
    rw [nodes, nodes, startedAt, List.map_map]
    rfl
  | removeEdge hfirst =>
    refine h.of_nodes_eq rfl ?_
    rw [hfirst.parts]
    exact ((List.sublist_cons_self _ _).append_left _).map _

theorem edited (h : d.WellFormed) (hroom : e.addsState → d.Storable) : (d.edited e).WellFormed := by
  unfold Diagram.edited
  rcases d.edit_cases e with ⟨d', hd', hdone⟩ | ⟨err, herr, -⟩
  · rw [hd']
    exact h.done hdone hroom
  · rw [herr]
    exact h

end WellFormed

end Diagram
end Tapeworks
