import Tapeworks.Proofs.Code.Drawing
import Tapeworks.Proofs.Code.Language
import Tapeworks.Proofs.Code.RoundTrip
import Tapeworks.Proofs.Diagram.WellFormed

/-! What a decoded diagram looks like. Its states are the numbers of the code and its edges the ends of the rules, both in
    the order in which they are met, and a label holds the specs of its rules in order. Drawing rule after rule and
    looking states and edges up by their ids gives this diagram, since numerals and the ids that are made of them tell
    numbers and ends apart. A code that is continued by another is drawn as before, with more behind its states, its
    edges and its labels. -/

namespace Tapeworks

/-! ### Drawing by ids -/

namespace Diagram

/-- The diagram with a state of the id, which is added unless there is one. -/
def mention (d : Diagram) (final id : String) : Diagram :=
  if (d.state? id).isSome then d else { d with states := d.states ++ [{ id, isFinal := decide (id = final) }] }

/-- The diagram with the spec on the edge with the id that its ends give, which is added unless there is one. -/
def inscribe (d : Diagram) (source target spec : String) : Diagram :=
  match updateFirst? (·.id = Edge.idBetween source target) (fun e => { e with label := e.label ++ ";" ++ spec })
      d.edges with
  | some edges => { d with edges }
  | none => { d with edges := d.edges ++ [Edge.between source target spec] }

/-- The diagram with one more rule of a code whose final state is given. -/
def enter (final : String) (d : Diagram) (r : Code.Rule) : Diagram :=
  ((d.mention final (Text.numeral r.source)).mention final (Text.numeral r.target)).inscribe
    (Text.numeral r.source) (Text.numeral r.target) r.spec

variable {d : Diagram} {front back : List Edge} {e : Edge} {source target : String}

theorem inscribe_of_firstAt (h : FirstAt Edge.id d.edges front e back) (hid : e.id = Edge.idBetween source target)
    (spec : String) : d.inscribe source target spec =
      ⟨d.states, front ++ { e with label := e.label ++ ";" ++ spec } :: back⟩ := by
  rw [inscribe, ← hid, h.updateFirst?]

theorem inscribe_of_not_mem (h : Edge.idBetween source target ∉ d.edges.map (·.id)) (spec : String) :
    d.inscribe source target spec = ⟨d.states, d.edges ++ [Edge.between source target spec]⟩ := by
  rw [inscribe, updateFirst?_of_not_mem h]

end Diagram

namespace Code

variable {rules rules' : List Rule} {last r : Rule} {ends ends' : Ends} {d d₁ d₂ : Diagram} {text s₁ s₂ : String}

/-! ### Labels -/

theorem intercalate_append (sep text : String) (texts rest : List String) :
    String.intercalate sep (text :: texts ++ rest) =
      String.intercalate sep (String.intercalate sep (text :: texts) :: rest) := by
  induction texts generalizing text with
  | nil => rfl
  | cons next texts ih => exact ih (text ++ sep ++ next)

theorem label_drawnEdge (rules : List Rule) (ends : Ends) : (drawnEdge rules ends).label =
    String.intercalate ";" ((rules.filter (·.ends = ends)).map Rule.spec) := by
  rw [drawnEdge, Bundle.edge, Edge.between, Bundle.of, List.reverse_reverse]

/-- More rules continue the label of an edge that has one already. -/
theorem label_drawnEdge_append (h : ends ∈ rules.map Rule.ends) (rules' : List Rule) :
    (drawnEdge (rules ++ rules') ends).label = String.intercalate ";"
      ((drawnEdge rules ends).label :: (rules'.filter (·.ends = ends)).map Rule.spec) := by
  obtain ⟨r, hr, rfl⟩ := List.mem_map.mp h
  obtain ⟨first, more, hmore⟩ := List.exists_cons_of_ne_nil
    (List.ne_nil_of_mem (List.mem_filter.mpr ⟨hr, by simp⟩ : r ∈ rules.filter (·.ends = r.ends)))
  rw [label_drawnEdge, label_drawnEdge, List.filter_append, List.map_append, hmore, List.map_cons]
  exact intercalate_append _ _ _ _

/-! ### States and edges after one more rule -/

def drawnStates (final : Nat) (ns : List Nat) : List State :=
  ns.eraseDups.map (drawnState final)

def drawnEdges (rules : List Rule) : List Edge :=
  (rules.map Rule.ends).eraseDups.map (drawnEdge rules)

theorem mention_drawnStates (final n : Nat) (ns : List Nat) (edges : List Edge) :
    Diagram.mention ⟨drawnStates final ns, edges⟩ (Text.numeral final) (Text.numeral n) =
      ⟨drawnStates final (ns ++ [n]), edges⟩ := by
  have hmentioned : (Diagram.state? ⟨drawnStates final ns, edges⟩ (Text.numeral n)).isSome ↔ n ∈ ns := by
    rw [Diagram.state?_isSome_iff, Diagram.nodes, drawnStates, List.map_map]
    refine Iff.trans ⟨fun h => ?_, fun h => List.mem_map.mpr ⟨n, h, rfl⟩⟩ List.mem_eraseDups
    obtain ⟨m, hm, he⟩ := List.mem_map.mp h
    rwa [← Text.numeral_injective he]
  have hfinal : decide (Text.numeral n = Text.numeral final) = decide (n = final) :=
    decide_eq_decide.mpr ⟨Text.numeral_injective, congrArg _⟩
  rw [Diagram.mention, hfinal]
  by_cases hn : n ∈ ns
  · rw [if_pos (hmentioned.mpr hn), drawnStates, drawnStates, eraseDups_concat, if_pos hn]
  · rw [if_neg fun h => hn (hmentioned.mp h), drawnStates, drawnStates, eraseDups_concat, if_neg hn, List.map_append]
    rfl

theorem ends_eq_of_id (h : (drawnEdge rules ends).id = (drawnEdge rules' ends').id) : ends = ends' :=
  Ends.ext (idBetween_numerals_injective h).1 (idBetween_numerals_injective h).2

theorem drawnEdge_concat_of_ne (h : ends ≠ r.ends) : drawnEdge (rules ++ [r]) ends = drawnEdge rules ends :=
  congrArg Bundle.edge (Bundle.of_concat_of_ne h)

theorem drawnEdge_concat_self (h : r.ends ∈ rules.map Rule.ends) : drawnEdge (rules ++ [r]) r.ends =
    { drawnEdge rules r.ends with label := (drawnEdge rules r.ends).label ++ ";" ++ r.spec } := by
  have hone : [r].filter (·.ends = r.ends) = [r] := by simp
  have hlabel := label_drawnEdge_append h [r]
  rw [hone] at hlabel
  exact congrArg (fun label => Edge.mk _ _ _ label) hlabel

theorem drawnEdges_concat_of_mem (h : r.ends ∈ rules.map Rule.ends) : ∃ front back,
    Diagram.FirstAt Edge.id (drawnEdges rules) front (drawnEdge rules r.ends) back ∧
      drawnEdges (rules ++ [r]) = front ++ drawnEdge (rules ++ [r]) r.ends :: back := by
  obtain ⟨front, back, hks⟩ := List.append_of_mem (List.mem_eraseDups.mpr h)
  have hnodup : (front ++ r.ends :: back).Nodup := hks ▸ nodup_eraseDups _
  have hfront : ∀ ends ∈ front, ends ≠ r.ends := fun ends hends =>
    (List.nodup_append.mp hnodup).2.2 ends hends r.ends List.mem_cons_self
  have hback : ∀ ends ∈ back, ends ≠ r.ends := fun ends hends he =>
    (List.nodup_cons.mp (List.nodup_append.mp hnodup).2.1).1 (he ▸ hends)
  refine ⟨front.map (drawnEdge rules), back.map (drawnEdge rules), ⟨?_, fun e he hid => ?_⟩, ?_⟩
  · rw [drawnEdges, hks, List.map_append, List.map_cons]
  · obtain ⟨ends, hends, rfl⟩ := List.mem_map.mp he
    exact hfront ends hends (ends_eq_of_id hid)
  · rw [drawnEdges, List.map_append, List.map_singleton, eraseDups_concat, if_pos h, hks, List.map_append,
      List.map_cons, List.map_congr_left fun ends hends => drawnEdge_concat_of_ne (hfront ends hends),
      List.map_congr_left fun ends hends => drawnEdge_concat_of_ne (hback ends hends)]

theorem drawnEdges_concat_of_not_mem (h : r.ends ∉ rules.map Rule.ends) : drawnEdges (rules ++ [r]) =
    drawnEdges rules ++ [Edge.between (Text.numeral r.source) (Text.numeral r.target) r.spec] := by
  have hnone : rules.filter (·.ends = r.ends) = [] := List.filter_eq_nil_iff.mpr fun r' hr' he =>
    h (List.mem_map.mpr ⟨r', hr', by simpa using he⟩)
  have hnew : drawnEdge (rules ++ [r]) r.ends =
      Edge.between (Text.numeral r.source) (Text.numeral r.target) r.spec := by
    rw [drawnEdge, Bundle.of_concat_self, Bundle.of, hnone]
    rfl
  have hold : ∀ ends ∈ (rules.map Rule.ends).eraseDups, drawnEdge (rules ++ [r]) ends = drawnEdge rules ends :=
    fun ends hends => drawnEdge_concat_of_ne fun he => h (he ▸ List.mem_eraseDups.mp hends)
  rw [drawnEdges, List.map_append, List.map_singleton, eraseDups_concat, if_neg h, List.map_append,
    List.map_congr_left hold, List.map_singleton, hnew]
  rfl

theorem inscribe_drawnEdges (states : List State) (rules : List Rule) (r : Rule) :
    Diagram.inscribe ⟨states, drawnEdges rules⟩ (Text.numeral r.source) (Text.numeral r.target) r.spec =
      ⟨states, drawnEdges (rules ++ [r])⟩ := by
  by_cases h : r.ends ∈ rules.map Rule.ends
  · obtain ⟨front, back, hfirst, hedges⟩ := drawnEdges_concat_of_mem h
    rw [hedges, drawnEdge_concat_self h]
    exact Diagram.inscribe_of_firstAt hfirst rfl r.spec
  · have hid : Edge.idBetween (Text.numeral r.source) (Text.numeral r.target) ∉ (drawnEdges rules).map (·.id) := by
      intro hid
      obtain ⟨e, he, hid⟩ := List.mem_map.mp hid
      obtain ⟨ends, hends, rfl⟩ := List.mem_map.mp he
      have hsame : (drawnEdge rules ends).id = (drawnEdge rules r.ends).id := hid
      exact h (ends_eq_of_id hsame ▸ List.mem_eraseDups.mp hends)
    rw [drawnEdges_concat_of_not_mem h]
    exact Diagram.inscribe_of_not_mem hid r.spec

/-! ### All rules -/

/-- Drawing by ids gives the states and the edges of all rules. -/
theorem foldl_enter (final : Nat) (rules : List Rule) :
    rules.foldl (Diagram.enter (Text.numeral final)) .empty =
      ⟨drawnStates final (rules.flatMap fun r => [r.source, r.target]), drawnEdges rules⟩ := by
  induction rules using List.reverseRecOn with
  | nil => rfl
  | append_singleton rules r ih =>
    rw [List.foldl_append, ih, List.foldl_cons, List.foldl_nil, Diagram.enter, mention_drawnStates, mention_drawnStates,
      inscribe_drawnEdges, List.flatMap_append, List.append_assoc]
    rfl

theorem draw_eq (rules : List Rule) (last : Rule) : draw rules last =
    ⟨drawnStates last.target (rules.flatMap fun r => [r.source, r.target]), drawnEdges rules⟩ :=
  congrArg₂ Diagram.mk (draw_states rules last) (draw_edges rules last)

/-! ### Decoded diagrams -/

/-- The diagram is the picture of the rules, of which `last` is the last. -/
structure Depicts (rules : List Rule) (last : Rule) (d : Diagram) : Prop where
  nodes : d.nodes = (rules.flatMap fun r => [r.source, r.target]).eraseDups.map Text.numeral
  start : ∀ s ∈ d.states, ¬s.isStart
  final : ∀ s ∈ d.states, s.isFinal ↔ s.id = Text.numeral last.target
  target : Text.numeral last.target ∈ d.nodes
  edges : d.edges = (rules.map Rule.ends).eraseDups.map fun ends =>
    { id := "e" ++ Text.numeral ends.source ++ "-" ++ Text.numeral ends.target
      source := Text.numeral ends.source
      target := Text.numeral ends.target
      label := String.intercalate ";" ((rules.filter (·.ends = ends)).map fun r =>
        String.ofList [r.read.symbol, ',', r.write.symbol, ',', r.direction.symbol]) }
  entered : d = rules.foldl (Diagram.enter (Text.numeral last.target)) .empty

theorem depicts_draw (h : last ∈ rules) : Depicts rules last (draw rules last) where
  nodes := draw_nodes rules last
  start s hs := by
    rw [draw_states] at hs
    obtain ⟨n, -, rfl⟩ := List.mem_map.mp hs
    exact Bool.false_ne_true
  final s hs := by
    rw [draw_states] at hs
    obtain ⟨n, -, rfl⟩ := List.mem_map.mp hs
    exact decide_eq_true_iff.trans ⟨congrArg Text.numeral, Text.numeral_injective⟩
  target := by
    rw [draw_nodes]
    exact List.mem_map_of_mem (target_mem_numbers h)
  edges := by
    rw [draw_edges]
    exact List.map_congr_left fun ends _ => congrArg (fun label => Edge.mk _ _ _ label) (label_drawnEdge rules ends)
  entered := by rw [foldl_enter, draw_eq]

/-- The second edge is the first with the specs of some rules behind its label, of those that have its ends. -/
structure Continues (rules : List Rule) (e e' : Edge) : Prop where
  id : e'.id = e.id
  source : e'.source = e.source
  target : e'.target = e.target
  label : e'.label = String.intercalate ";" (e.label :: (rules.filter fun r =>
    Text.numeral r.source = e.source ∧ Text.numeral r.target = e.target).map fun r =>
      String.ofList [r.read.symbol, ',', r.write.symbol, ',', r.direction.symbol])

theorem continues_drawnEdge (h : ends ∈ rules.map Rule.ends) (rules' : List Rule) :
    Continues rules' (drawnEdge rules ends) (drawnEdge (rules ++ rules') ends) where
  id := rfl
  source := rfl
  target := rfl
  label := by
    have hends : ∀ r : Rule, r.ends = ends ↔
        Text.numeral r.source = (drawnEdge rules ends).source ∧ Text.numeral r.target = (drawnEdge rules ends).target :=
      fun r => ⟨fun he => he ▸ ⟨rfl, rfl⟩,
        fun he => Ends.ext (Text.numeral_injective he.1) (Text.numeral_injective he.2)⟩
    have hlabel := label_drawnEdge_append h rules'
    simp only [hends] at hlabel
    exact hlabel

theorem write_append (rules rules' : List Rule) : write (rules ++ rules') = write rules ++ write rules' := by
  rw [write, List.map_append, String.join_append]
  rfl

theorem Printed.append {cs cs' : List Char} (h : Printed rules cs) (h' : Printed rules' cs') :
    Printed (rules ++ rules') (cs ++ cs') where
  nonempty := List.append_ne_nil_of_left_ne_nil h.nonempty rules'
  positive r hr := (List.mem_append.mp hr).elim (h.positive r) (h'.positive r)
  letters := by rw [write_append, String.toList_append, ← h.letters, ← h'.letters]

theorem Printed.trim {cs : List Char} (h : Printed rules cs) : Text.trim cs = cs :=
  Text.trim_eq_self fun c hc => isSpace_of_isLetter (h.isLetter c hc)

/-- A decoded diagram is the picture of the rules of its code. Two codes without white space around them make up a code,
    and its diagram has the states and the edges of the first in front, with the labels continued by the second. -/
theorem depicts_decode :
    (∀ text d, decode text = .ok d → ∃ rules last, Printed rules (Text.trim text.toList) ∧
      rules.getLast? = some last ∧ Depicts rules last d) ∧
    ∀ s₁ s₂ d₁ d₂, Text.trimmed s₁ = s₁ → Text.trimmed s₂ = s₂ → decode s₁ = .ok d₁ → decode s₂ = .ok d₂ →
      ∃ d rules₂, decode (s₁ ++ s₂) = .ok d ∧ Printed rules₂ s₂.toList ∧ d₁.nodes <+: d.nodes ∧
        ∃ front back, d.edges = front ++ back ∧ List.Forall₂ (Continues rules₂) d₁.edges front := by
  constructor
  · intro text d h
    obtain ⟨rules, last, hprinted, hlast, rfl⟩ := exists_printed_of_decode h
    exact ⟨rules, last, hprinted, hlast, depicts_draw (List.mem_of_getLast? hlast)⟩
  · intro s₁ s₂ d₁ d₂ htrim₁ htrim₂ h₁ h₂
    obtain ⟨rules₁, last₁, hprinted₁, -, rfl⟩ := exists_printed_of_decode h₁
    obtain ⟨rules₂, last₂, hprinted₂, -, -⟩ := exists_printed_of_decode h₂
    rw [← Text.toList_trimmed, htrim₁] at hprinted₁
    rw [← Text.toList_trimmed, htrim₂] at hprinted₂
    have hprinted := hprinted₁.append hprinted₂
    rw [← String.toList_append] at hprinted
    have hread : readTrimmed (Text.trim (s₁ ++ s₂).toList) = .ok (rules₁ ++ rules₂) := by
      rw [hprinted.trim, hprinted.readTrimmed]
    obtain ⟨last, hlast, hdecode⟩ := decode_of_ok hread
    refine ⟨_, rules₂, hdecode, hprinted₂, ?_, ?_⟩
    · rw [draw_nodes, draw_nodes, numbers, numbers, List.flatMap_append, List.eraseDups_append, List.map_append]
      exact List.prefix_append _ _
    · rw [draw_edges, draw_edges, List.map_append, List.eraseDups_append, List.map_append]
      refine ⟨_, _, rfl, List.forall₂_map_left_iff.mpr (List.forall₂_map_right_iff.mpr (List.forall₂_same.mpr ?_))⟩
      exact fun ends hends => continues_drawnEdge (List.mem_eraseDups.mp hends) rules₂

def opening : List Rule :=
  [⟨1, 2, .a, .b, .right⟩, ⟨2, 2, .a, .a, .left⟩]

def sequel : List Rule :=
  [⟨1, 2, .b, .b, .right⟩, ⟨2, 3, .b, .a, .right⟩, ⟨1, 2, .blank, .hash, .left⟩]

theorem depicts_decode_sequel :
    (∃ rules last, Printed rules (Text.trim (write opening).toList) ∧ rules.getLast? = some last ∧
      Depicts rules last (draw opening ⟨2, 2, .a, .a, .left⟩)) ∧
    (draw opening ⟨2, 2, .a, .a, .left⟩).edges = [⟨"e1-2", "1", "2", "a,b,>"⟩, ⟨"e2-2", "2", "2", "a,a,<"⟩] ∧
    ∃ d rules₂, decode (write opening ++ write sequel) = .ok d ∧ Printed rules₂ (write sequel).toList ∧
      (draw opening ⟨2, 2, .a, .a, .left⟩).nodes <+: d.nodes ∧ d.edges =
        [⟨"e1-2", "1", "2", "a,b,>;b,b,>;_,#,<"⟩, ⟨"e2-2", "2", "2", "a,a,<"⟩, ⟨"e2-3", "2", "3", "b,a,>"⟩] ∧
      ∃ front back, d.edges = front ++ back ∧
        List.Forall₂ (Continues rules₂) (draw opening ⟨2, 2, .a, .a, .left⟩).edges front := by
  have hopening : decode (write opening) = .ok (draw opening ⟨2, 2, .a, .a, .left⟩) :=
    decode_write (by simp [opening, Rule.Positive]) rfl
  have hsequel : decode (write sequel) = .ok (draw sequel ⟨1, 2, .blank, .hash, .left⟩) :=
    decode_write (by simp [sequel, Rule.Positive]) rfl
  have hpositive : ∀ r ∈ opening ++ sequel, r.Positive := by simp [opening, sequel, Rule.Positive]
  have hboth : decode (write opening ++ write sequel) =
      .ok (draw (opening ++ sequel) ⟨1, 2, .blank, .hash, .left⟩) := by
    rw [← write_append]
    exact decode_write hpositive rfl
  obtain ⟨d, rules₂, hd, hprinted, hnodes, hedges⟩ :=
    depicts_decode.2 _ _ _ _ (by decide) (by decide) hopening hsequel
  obtain rfl := Except.ok.inj (hboth.symm.trans hd)
  exact ⟨depicts_decode.1 _ _ hopening, by decide +kernel, _, rules₂, hd, hprinted, hnodes, by decide +kernel, hedges⟩

end Code
end Tapeworks
