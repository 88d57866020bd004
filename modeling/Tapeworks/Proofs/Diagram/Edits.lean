import Tapeworks.Diagram.Edit
import Tapeworks.Proofs.Compile

/-! What edits do. An edit is either done, in the one way that its arguments allow, or refused for a reason that is true
    of the diagram, and then the diagram stays as it is. -/

namespace Tapeworks

inductive Edit
  | addState (position : Position)
  | removeState (id : String)
  | connect (source target : String)
  | setLabel (id label : String)
  | setStart (id : String) (isStart : Bool)
  | setFinal (id : String) (isFinal : Bool)
  | makeSoleStart (id : String)
  | removeEdge (id : String)
  deriving DecidableEq, Repr

def Edit.addsState : Edit → Bool
  | .addState _ => true
  | _ => false

namespace Diagram

/-- The diagram after an edit, or why it is refused. -/
def edit (d : Diagram) : Edit → Except EditError Diagram
  | .addState position => .ok (d.addState position)
  | .removeState id => (d.removeState id).map (·.2)
  | .connect source target => (d.connect source target).map (·.2)
  | .setLabel id label => d.setLabel id label
  | .setStart id isStart => d.setStart id isStart
  | .setFinal id isFinal => d.setFinal id isFinal
  | .makeSoleStart id => d.makeSoleStart id
  | .removeEdge id => (d.removeEdge id).map (·.2)

/-- What is drawn after an edit has been tried. -/
def edited (d : Diagram) (e : Edit) : Diagram :=
  match d.edit e with
  | .ok d' => d'
  | .error _ => d

/-- The element is the first with its id, and parts the list. -/
structure FirstAt {α : Type} (k : α → String) (l front : List α) (a : α) (back : List α) : Prop where
  parts : l = front ++ a :: back
  first : ∀ b ∈ front, k b ≠ k a

/-- Everything that an edit can do. Where ids are not distinct, it is done to the first state or edge with the id. -/
inductive Done (d : Diagram) : Edit → Diagram → Prop
  | addState (position : Position) : Done d (.addState position) (d.addState position)
  | removeState {front back : List State} {s : State} : FirstAt State.id d.states front s back →
      Done d (.removeState s.id) ⟨front ++ back, d.edges.filter fun e => e.source ≠ s.id ∧ e.target ≠ s.id⟩
  | connect {source target : String} : source ∈ d.nodes → target ∈ d.nodes → (source, target) ∉ d.links →
      Done d (.connect source target) ⟨d.states, d.edges ++ [Edge.between source target Edge.defaultLabel]⟩
  | setLabel {front back : List Edge} {e : Edge} (label : String) : FirstAt Edge.id d.edges front e back →
      Done d (.setLabel e.id label) ⟨d.states, front ++ { e with label } :: back⟩
  | setStart {front back : List State} {s : State} (isStart : Bool) : FirstAt State.id d.states front s back →
      Done d (.setStart s.id isStart) ⟨front ++ { s with isStart } :: back, d.edges⟩
  | setFinal {front back : List State} {s : State} (isFinal : Bool) : FirstAt State.id d.states front s back →
      Done d (.setFinal s.id isFinal) ⟨front ++ { s with isFinal } :: back, d.edges⟩
  | makeSoleStart {id : String} : id ∈ d.nodes → Done d (.makeSoleStart id) (d.startedAt id)
  | removeEdge {front back : List Edge} {e : Edge} : FirstAt Edge.id d.edges front e back →
      Done d (.removeEdge e.id) ⟨d.states, front ++ back⟩

/-- Every reason to refuse an edit. -/
inductive Refused (d : Diagram) : Edit → EditError → Prop
  | removeState {id : String} : id ∉ d.nodes → Refused d (.removeState id) (.unknownState id)
  | source {source target : String} : source ∉ d.nodes → Refused d (.connect source target) (.unknownState source)
  | target {source target : String} : source ∈ d.nodes → target ∉ d.nodes →
      Refused d (.connect source target) (.unknownState target)
  | connected {source target : String} : source ∈ d.nodes → target ∈ d.nodes → (source, target) ∈ d.links →
      Refused d (.connect source target) (.duplicateEdge source target)
  | setLabel {id label : String} : id ∉ d.edges.map (·.id) → Refused d (.setLabel id label) (.unknownEdge id)
  | setStart {id : String} {isStart : Bool} : id ∉ d.nodes → Refused d (.setStart id isStart) (.unknownState id)
  | setFinal {id : String} {isFinal : Bool} : id ∉ d.nodes → Refused d (.setFinal id isFinal) (.unknownState id)
  | makeSoleStart {id : String} : id ∉ d.nodes → Refused d (.makeSoleStart id) (.unknownState id)
  | removeEdge {id : String} : id ∉ d.edges.map (·.id) → Refused d (.removeEdge id) (.unknownEdge id)

variable {d d' : Diagram} {e : Edit} {err : EditError} {id : String}

/-! ### The first with an id -/

section First

variable {α : Type} {k : α → String} {front back l : List α} {a : α}

/-- No element has the id, or there is a first one. -/
theorem exists_firstAt (k : α → String) (l : List α) (id : String) : id ∉ l.map k ∨
    ∃ front a back, FirstAt k l front a back ∧ k a = id := by
  cases hfind : l.find? (k · = id) with
  | none =>
    refine Or.inl fun hid => ?_
    obtain ⟨a, ha, rfl⟩ := List.mem_map.mp hid
    simpa using List.find?_eq_none.mp hfind a ha
  | some a =>
    obtain ⟨ha, front, back, rfl, hfront⟩ := List.find?_eq_some_iff_append.mp hfind
    obtain rfl := of_decide_eq_true ha
    exact Or.inr ⟨front, a, back, ⟨rfl, by simpa using hfront⟩, rfl⟩

theorem updateFirst?_of_not_mem (h : id ∉ l.map k) (f : α → α) : updateFirst? (k · = id) f l = none := by
  induction l with
  | nil => rfl
  | cons a l ih =>
    rw [updateFirst?, ih (List.not_mem_of_not_mem_cons h)]
    simp [(List.ne_of_not_mem_cons h).symm]

theorem find?_of_not_mem (h : id ∉ l.map k) : l.find? (k · = id) = none :=
  List.find?_eq_none.mpr fun a ha hid => h (List.mem_map.mpr ⟨a, ha, of_decide_eq_true hid⟩)

namespace FirstAt

variable (h : FirstAt k l front a back)
include h

theorem updateFirst? (f : α → α) : updateFirst? (k · = k a) f l = some (front ++ f a :: back) := by
  obtain ⟨rfl, hfront⟩ := h
  induction front with
  | nil => simp [Diagram.updateFirst?]
  | cons b front ih =>
    have hb : k b ≠ k a := hfront b List.mem_cons_self
    rw [List.cons_append, Diagram.updateFirst?, ih fun x hx => hfront x (List.mem_cons_of_mem _ hx)]
    simp [hb]

theorem eraseP : l.eraseP (k · = k a) = front ++ back := by
  rw [h.parts, List.eraseP_append_right _ (by simpa using h.first)]
  simp

theorem find? : l.find? (k · = k a) = some a :=
  List.find?_eq_some_iff_append.mpr ⟨by simp, front, back, h.parts, by simpa using h.first⟩

/-- A filter that drops the element cannot tell whether it is there. -/
theorem filter_of_neg {p : α → Bool} (hp : ¬p a = true) : l.filter p = (front ++ back).filter p := by
  rw [h.parts, List.filter_append, List.filter_cons_of_neg hp, List.filter_append]

end FirstAt

end First

/-! ### States -/

theorem isNone_state?_iff : (d.state? id).isNone ↔ id ∉ d.nodes := by
  rw [Option.isNone_iff_eq_none, state?_eq_none_iff]

theorem makeSoleStart_of_not_mem (h : id ∉ d.nodes) : d.makeSoleStart id = .error (.unknownState id) := by
  rw [makeSoleStart, if_pos (isNone_state?_iff.mpr h)]

theorem makeSoleStart_of_mem (h : id ∈ d.nodes) : d.makeSoleStart id = .ok (d.startedAt id) := by
  rw [makeSoleStart, if_neg (isNone_state?_iff.not_left.mpr h)]

theorem updateState_of_not_mem (h : id ∉ d.nodes) (f : State → State) :
    d.updateState id f = .error (.unknownState id) := by
  rw [updateState, updateFirst?_of_not_mem (k := State.id) h]

theorem removeState_of_not_mem (h : id ∉ d.nodes) : d.removeState id = .error (.unknownState id) := by
  rw [removeState, state?_eq_none_iff.mpr h]

section States

variable {front back : List State} {s : State} (h : FirstAt State.id d.states front s back)
include h

theorem updateState_of_firstAt (f : State → State) :
    d.updateState s.id f = .ok ⟨front ++ f s :: back, d.edges⟩ := by
  rw [updateState, h.updateFirst?]

theorem removeState_of_firstAt : d.removeState s.id =
    .ok (s, ⟨front ++ back, d.edges.filter fun e => e.source ≠ s.id ∧ e.target ≠ s.id⟩) := by
  simp only [removeState, state?, h.find?, h.eraseP]

end States

/-! ### Edges -/

theorem edgeBetween?_isSome_iff {source target : String} :
    (d.edgeBetween? source target).isSome ↔ (source, target) ∈ d.links := by
  rw [edgeBetween?, List.find?_isSome, links, List.mem_map]
  simp

section Connect

variable {source target : String}

theorem connect_of_source (hs : source ∉ d.nodes) : d.connect source target = .error (.unknownState source) := by
  rw [connect, if_pos (isNone_state?_iff.mpr hs)]

theorem connect_of_target (hs : source ∈ d.nodes) (ht : target ∉ d.nodes) :
    d.connect source target = .error (.unknownState target) := by
  rw [connect, if_neg (isNone_state?_iff.not_left.mpr hs), if_pos (isNone_state?_iff.mpr ht)]

variable (hs : source ∈ d.nodes) (ht : target ∈ d.nodes)
include hs ht

theorem connect_of_link (hlink : (source, target) ∈ d.links) :
    d.connect source target = .error (.duplicateEdge source target) := by
  rw [connect, if_neg (isNone_state?_iff.not_left.mpr hs), if_neg (isNone_state?_iff.not_left.mpr ht),
    if_pos (edgeBetween?_isSome_iff.mpr hlink)]

theorem connect_of_no_link (hlink : (source, target) ∉ d.links) : d.connect source target =
    .ok (Edge.between source target Edge.defaultLabel,
      ⟨d.states, d.edges ++ [Edge.between source target Edge.defaultLabel]⟩) := by
  rw [connect, if_neg (isNone_state?_iff.not_left.mpr hs), if_neg (isNone_state?_iff.not_left.mpr ht),
    if_neg (edgeBetween?_isSome_iff.not.mpr hlink)]

end Connect

theorem setLabel_of_not_mem (h : id ∉ d.edges.map (·.id)) (label : String) :
    d.setLabel id label = .error (.unknownEdge id) := by
  rw [setLabel, updateFirst?_of_not_mem (k := Edge.id) h]

theorem removeEdge_of_not_mem (h : id ∉ d.edges.map (·.id)) : d.removeEdge id = .error (.unknownEdge id) := by
  rw [removeEdge, edge?, find?_of_not_mem (k := Edge.id) h]

section Edges

variable {front back : List Edge} {e : Edge} (h : FirstAt Edge.id d.edges front e back)
include h

theorem setLabel_of_firstAt (label : String) :
    d.setLabel e.id label = .ok ⟨d.states, front ++ { e with label } :: back⟩ := by
  rw [setLabel, h.updateFirst?]

theorem removeEdge_of_firstAt : d.removeEdge e.id = .ok (e, ⟨d.states, front ++ back⟩) := by
  simp only [removeEdge, edge?, h.find?, h.eraseP]

end Edges

/-! ### Done or refused -/

/-- An edit is done or refused. -/
theorem edit_cases (d : Diagram) (e : Edit) :
    (∃ d', d.edit e = .ok d' ∧ Done d e d') ∨ ∃ err, d.edit e = .error err ∧ Refused d e err := by
  cases e with
  | addState position => exact Or.inl ⟨_, rfl, .addState position⟩
  | removeState id =>
    rcases exists_firstAt State.id d.states id with hnone | ⟨front, s, back, h, rfl⟩
    · exact Or.inr ⟨_, congrArg (Except.map Prod.snd) (removeState_of_not_mem hnone), .removeState hnone⟩
    · exact Or.inl ⟨_, congrArg (Except.map Prod.snd) (removeState_of_firstAt h), .removeState h⟩
  | connect source target =>
    by_cases hs : source ∈ d.nodes
    · by_cases ht : target ∈ d.nodes
      · by_cases hlink : (source, target) ∈ d.links
        · exact Or.inr ⟨_, congrArg (Except.map Prod.snd) (connect_of_link hs ht hlink), .connected hs ht hlink⟩
        · exact Or.inl ⟨_, congrArg (Except.map Prod.snd) (connect_of_no_link hs ht hlink), .connect hs ht hlink⟩
      · exact Or.inr ⟨_, congrArg (Except.map Prod.snd) (connect_of_target hs ht), .target hs ht⟩
    · exact Or.inr ⟨_, congrArg (Except.map Prod.snd) (connect_of_source hs), .source hs⟩
  | setLabel id label =>
    rcases exists_firstAt Edge.id d.edges id with hnone | ⟨front, e, back, h, rfl⟩
    · exact Or.inr ⟨_, setLabel_of_not_mem hnone label, .setLabel hnone⟩
    · exact Or.inl ⟨_, setLabel_of_firstAt h label, .setLabel label h⟩
  | setStart id isStart =>
    rcases exists_firstAt State.id d.states id with hnone | ⟨front, s, back, h, rfl⟩
    · exact Or.inr ⟨_, updateState_of_not_mem hnone _, .setStart hnone⟩
    · exact Or.inl ⟨_, updateState_of_firstAt h _, .setStart isStart h⟩
  | setFinal id isFinal =>
    rcases exists_firstAt State.id d.states id with hnone | ⟨front, s, back, h, rfl⟩
    · exact Or.inr ⟨_, updateState_of_not_mem hnone _, .setFinal hnone⟩
    · exact Or.inl ⟨_, updateState_of_firstAt h _, .setFinal isFinal h⟩
  | makeSoleStart id =>
    by_cases hid : id ∈ d.nodes
    · exact Or.inl ⟨_, makeSoleStart_of_mem hid, .makeSoleStart hid⟩
    · exact Or.inr ⟨_, makeSoleStart_of_not_mem hid, .makeSoleStart hid⟩
  | removeEdge id =>
    rcases exists_firstAt Edge.id d.edges id with hnone | ⟨front, e, back, h, rfl⟩
    · exact Or.inr ⟨_, congrArg (Except.map Prod.snd) (removeEdge_of_not_mem hnone), .removeEdge hnone⟩
    · exact Or.inl ⟨_, congrArg (Except.map Prod.snd) (removeEdge_of_firstAt h), .removeEdge h⟩

end Diagram
end Tapeworks
