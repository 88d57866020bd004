import Tapeworks.Proofs.Json.Fields
import Tapeworks.Proofs.Json.RoundTrip
import Tapeworks.Proofs.Position.Unplaced
import Tapeworks.Record

/-! Records read back from their JSON texts, up to the coordinates of the positions: a coordinate is written with its
    shortest digits and read by scaling them, and the number read may be another one than the number written. All else
    about a record is kept as it is. -/

namespace Tapeworks

@[simp] theorem isSome_bind_some {α β : Type} (f : α → β) (o : Option α) :
    (o.bind fun a => some (f a)).isSome = o.isSome := by
  cases o <;> rfl

/-! ### Coordinates -/

namespace Binary64

/-- The number that the text of a number is read as. -/
def reread? (x : Binary64) : Option Binary64 :=
  (Json.readWhole? (Json.Value.binary64 x).compactText).bind Json.Value.binary64?

/-- The number survives being written and read. -/
def ReadsBack (x : Binary64) : Prop :=
  x.reread? = some x

theorem reread?_eq (x : Binary64) : x.reread? = (Json.Number.ofBinary64 x).binary64? := by
  have hspelled : (Json.Value.binary64 x).IsSpelled (Json.Value.binary64 x).compactText :=
    Json.Value.isSpelled_compactText (Json.Value.fits_binary64.mpr (Json.Number.wellFormed_ofBinary64 x))
  unfold reread?
  cases hread : (Json.Number.ofBinary64 x).binary64? with
  | none =>
    have hinfinite : ¬(Json.Value.binary64 x).IsFinite := by simp [Json.Value.IsFinite, hread]
    rw [Json.Value.readWhole?_of_not_isFinite hspelled hinfinite, Option.bind_none]
  | some y =>
    have hfinite : (Json.Value.binary64 x).IsFinite := by simp [Json.Value.IsFinite, hread]
    rw [Json.Value.readWhole?_of_isSpelled hspelled (Nat.zero_le _) hfinite, Option.bind_some]
    exact hread

theorem readsBack_zero : zero.ReadsBack := by
  rw [ReadsBack, reread?_eq]
  decide +kernel

/-- The number nearest to 0.38120423768821243 is read as one of its neighbours. -/
example : ¬(⟨false, 4600538784969124670, by decide⟩ : Binary64).ReadsBack := by
  rw [ReadsBack, reread?_eq]
  decide +kernel

end Binary64

section Parts

open Json.Value

variable {q : Json.Number → Prop}

/-! ### Positions, states and edges -/

def Position.reread? (p : Position) : Option Position := do
  return ⟨← p.x.reread?, ← p.y.reread?⟩

def State.reread? (s : State) : Option State := do
  return { s with position := ← s.position.reread? }

theorem Position.ofJson?_toJson (p : Position) : Position.ofJson? p.toJson = p.reread? := by
  simp [Position.ofJson?, Position.toJson, Position.reread?, Binary64.reread?_eq, Json.Value.record,
    Json.Value.fields?, Json.Value.members?, Json.Value.member?, Json.Value.binary64?, Json.Value.binary64]

theorem State.ofJson?_toJson (s : State) : State.ofJson? s.toJson = s.reread? := by
  simp [State.ofJson?, State.toJson, State.reread?, Position.ofJson?_toJson, Json.Value.record,
    Json.Value.fields?, Json.Value.members?, Json.Value.member?, Json.Value.string?, Json.Value.text, Json.Value.bool?,
    Json.Value.withDefault?]

theorem Edge.ofJson?_toJson (e : Edge) : Edge.ofJson? e.toJson = some e := by
  simp [Edge.ofJson?, Edge.toJson, Json.Value.record, Json.Value.fields?, Json.Value.members?, Json.Value.member?,
    Json.Value.string?, Json.Value.text]

theorem Position.fits_toJson {p : Position} :
    p.toJson.Fits q ↔ q (Json.Number.ofBinary64 p.x) ∧ q (Json.Number.ofBinary64 p.y) := by
  simp [Position.toJson]

theorem Position.isSome_reread? {p : Position} : p.reread?.isSome ↔ p.toJson.IsFinite := by
  rw [IsFinite, Position.fits_toJson, ← Binary64.reread?_eq, ← Binary64.reread?_eq, Position.reread?]
  cases p.x.reread? <;> cases p.y.reread? <;> simp

theorem State.fits_toJson {s : State} : s.toJson.Fits q ↔ s.position.toJson.Fits q := by
  simp [State.toJson]

theorem State.isSome_reread? {s : State} : s.reread?.isSome ↔ s.toJson.IsFinite := by
  rw [IsFinite, State.fits_toJson, ← IsFinite, ← Position.isSome_reread?]
  simp [State.reread?]

theorem Edge.fits_toJson (e : Edge) : e.toJson.Fits q := by
  simp [Edge.toJson]

theorem Position.depth_toJson_le (p : Position) : p.toJson.depth ≤ 1 := by
  simp [Position.toJson]

theorem State.depth_toJson_le (s : State) : s.toJson.depth ≤ 2 := by
  simp [State.toJson, s.position.depth_toJson_le]

theorem Edge.depth_toJson_le (e : Edge) : e.toJson.depth ≤ 2 := by
  simp [Edge.toJson]

/-! ### Diagrams -/

namespace Diagram

/-- The diagram with its positions as their texts are read, if all of these are finite. -/
def reread? (d : Diagram) : Option Diagram := do
  return { d with states := ← d.states.mapM State.reread? }

/-- Every coordinate survives being written and read. -/
def ReadsBack (d : Diagram) : Prop :=
  ∀ s ∈ d.states, s.position.x.ReadsBack ∧ s.position.y.ReadsBack

theorem readsBack_iff {d : Diagram} : d.ReadsBack ↔ ∀ s ∈ d.states,
    (Json.Number.ofBinary64 s.position.x).binary64? = some s.position.x ∧
      (Json.Number.ofBinary64 s.position.y).binary64? = some s.position.y := by
  simp only [ReadsBack, Binary64.ReadsBack, Binary64.reread?_eq]

/-- The starter loses no coordinate. -/
example : Diagram.starter.ReadsBack :=
  readsBack_iff.mpr (by decide +kernel)

theorem reread?_eq_some_self {d : Diagram} : d.reread? = some d ↔ d.ReadsBack := by
  have hstate : ∀ s : State, s.reread? = some s ↔ s.position.x.ReadsBack ∧ s.position.y.ReadsBack := by
    rintro ⟨id, isStart, isFinal, x, y⟩
    simp [State.reread?, Position.reread?, Binary64.ReadsBack, Option.bind_eq_some_iff]
  rw [ReadsBack, ← forall₂_congr fun s _ => hstate s, ← mapM_eq_some_self]
  cases d
  simp [reread?, Option.bind_eq_some_iff]

/-- Nothing but the positions is at stake. -/
theorem unplaced_of_reread? {d d' : Diagram} (h : d.reread? = some d') : d'.unplaced = d.unplaced := by
  have hstate : ∀ s s' : State, s.reread? = some s' → s'.unplaced = s.unplaced := by
    intro s s' hs
    simp only [State.reread?, Option.bind_eq_bind, Option.bind_eq_some_iff, Option.pure_def, Option.some.injEq] at hs
    obtain ⟨p, -, rfl⟩ := hs
    rfl
  simp only [reread?, Option.bind_eq_bind, Option.bind_eq_some_iff, Option.pure_def, Option.some.injEq] at h
  obtain ⟨states, hstates, rfl⟩ := h
  exact congrArg (Diagram.mk · d.edges) (map_eq_of_mapM hstate hstates)

theorem ofFields?_members (d : Diagram) :
    ofFields? (some (.array (d.states.map State.toJson))) (some (.array (d.edges.map Edge.toJson))) = d.reread? := by
  have hedges : list? Edge.ofJson? (.array (d.edges.map Edge.toJson)) = some d.edges :=
    list?_array_map fun e _ => e.ofJson?_toJson
  have hstates : list? State.ofJson? (.array (d.states.map State.toJson)) = d.states.mapM State.reread? := by
    rw [list?, List.mapM_map]
    exact congrArg (fun f => d.states.mapM f) (funext State.ofJson?_toJson)
  simp [ofFields?, Json.Value.withDefault?, hedges, hstates, reread?]

theorem fits_toJson {d : Diagram} : d.toJson.Fits q ↔ ∀ s ∈ d.states, s.toJson.Fits q := by
  simp [toJson, members, Edge.fits_toJson]

theorem depth_toJson_le (d : Diagram) : d.toJson.depth ≤ 4 := by
  simp [toJson, members, State.depth_toJson_le, Edge.depth_toJson_le]

theorem isPrintable_toJson (d : Diagram) : d.toJson.IsPrintable :=
  fits_toJson.mpr fun s _ => State.fits_toJson.mpr <| Position.fits_toJson.mpr
    ⟨Json.Number.wellFormed_ofBinary64 s.position.x, Json.Number.wellFormed_ofBinary64 s.position.y⟩

theorem isSome_reread? {d : Diagram} : d.reread?.isSome ↔ d.toJson.IsFinite := by
  simp [reread?, isSome_mapM, State.isSome_reread?, IsFinite, fits_toJson]

end Diagram

/-! ### Records -/

namespace MachineRecord

theorem ofJson?_toJson (r : MachineRecord) :
    ofJson? r.toJson = do return ⟨r.id, ← r.diagram.reread?⟩ := by
  simp [ofJson?, toJson, Diagram.members, Json.Value.record, Json.Value.members?, Json.Value.member?,
    Json.Value.withDefault?, Json.Value.string?, Json.Value.text, Diagram.ofFields?_members]

/-- A diagram is a record without an id. -/
theorem ofJson?_diagram (d : Diagram) : ofJson? d.toJson = do return ⟨"", ← d.reread?⟩ := by
  simp [ofJson?, Diagram.toJson, Diagram.members, Json.Value.record, Json.Value.members?, Json.Value.member?,
    Json.Value.withDefault?, Diagram.ofFields?_members]

/-- A text is read as the record that its value stands for, unless a number is too large for either. -/
theorem read?_of_isSpelled {v : Json.Value} {text : String} (h : v.IsSpelled text) (hd : v.depth ≤ Json.deepestWhole)
    (hf : (ofJson? v).isSome → v.IsFinite) : read? text = ofJson? v := by
  by_cases hfinite : v.IsFinite
  · rw [read?, readWhole?_of_isSpelled h hd hfinite, Option.bind_eq_bind, Option.bind_some]
  · rw [read?, readWhole?_of_not_isFinite h hfinite, Option.bind_eq_bind, Option.bind_none]
    exact (Option.not_isSome_iff_eq_none.mp (mt hf hfinite)).symm

theorem fits_toJson {r : MachineRecord} : r.toJson.Fits q ↔ r.diagram.toJson.Fits q := by
  simp [toJson, Diagram.toJson, Diagram.members, Edge.fits_toJson]

theorem isPrintable_toJson (r : MachineRecord) : r.toJson.IsPrintable :=
  fits_toJson.mpr r.diagram.isPrintable_toJson

theorem depth_toJson_le (r : MachineRecord) : r.toJson.depth ≤ 4 := by
  simp [toJson, Diagram.members, State.depth_toJson_le, Edge.depth_toJson_le]

theorem read?_toJson {r : MachineRecord} {text : String} (h : r.toJson.IsSpelled text) :
    read? text = do return ⟨r.id, ← r.diagram.reread?⟩ := by
  rw [← ofJson?_toJson]
  refine read?_of_isSpelled h (r.depth_toJson_le.trans (by decide)) fun hsome => ?_
  rw [ofJson?_toJson] at hsome
  rw [IsFinite, fits_toJson, ← IsFinite, ← Diagram.isSome_reread?]
  simpa using hsome

theorem read?_diagram {d : Diagram} {text : String} (h : d.toJson.IsSpelled text) :
    read? text = do return ⟨"", ← d.reread?⟩ := by
  rw [← ofJson?_diagram]
  refine read?_of_isSpelled h (d.depth_toJson_le.trans (by decide)) fun hsome => ?_
  rw [ofJson?_diagram] at hsome
  rw [← Diagram.isSome_reread?]
  simpa using hsome

end MachineRecord

end Parts

end Tapeworks
