import Tapeworks.Proofs.Code.NormalForm
import Tapeworks.Proofs.Position.Machines

/-! Positions are never interpreted. Diagrams that differ in nothing but positions have the same code, warnings, export
    and problems, and their machines cannot be told apart. A layout in turn changes nothing but positions; when a code is
    decoded with one, the layout is asked for the numbers and the links of the code and decides about nothing else. -/

namespace Tapeworks

variable {d d' : Diagram}

/-! ### Diagrams that differ in positions -/

/-- The diagrams have the same code, and what they compile to is the same but for positions: it has the same warnings,
    is exported alike and has the same problems. Its machines give the same replies and views, and become the same but
    for positions, through all operations. -/
structure Diagram.Indistinct (d d' : Diagram) : Prop where
  encode : Tapeworks.encode d' = Tapeworks.encode d
  table : (compile d').table.unplaced = (compile d).table.unplaced
  warnings : (compile d').warnings = (compile d).warnings
  exported : (compile d').table.exported = (compile d).table.exported
  problems : (compile d').table.problems = (compile d).table.problems
  session : ∀ (setup : Machine.Setup) ops,
    Machine.showing ops (setup.machine (compile d').table) = Machine.showing ops (setup.machine (compile d).table)
  after : ∀ (setup : Machine.Setup) ops, (setup.machine (compile d').table).map (fun m => (m.after ops).unplaced) =
    (setup.machine (compile d).table).map fun m => (m.after ops).unplaced

theorem eq_of_unplaced {α : Type} (f : Diagram → α) (hf : ∀ d, f d.unplaced = f d) (h : d'.unplaced = d.unplaced) :
    f d' = f d := by
  rw [← hf d', h, hf]

@[simp] theorem table_compile_unplaced (d : Diagram) : (compile d.unplaced).table = (compile d).table.unplaced :=
  congrArg (·.table) (compile_unplaced d)

@[simp] theorem warnings_compile_unplaced (d : Diagram) : (compile d.unplaced).warnings = (compile d).warnings :=
  congrArg (·.warnings) (compile_unplaced d)

theorem indistinct_of_unplaced (h : d'.unplaced = d.unplaced) : d.Indistinct d' where
  encode := eq_of_unplaced encode encode_unplaced h
  table := by rw [← table_compile_unplaced, h, table_compile_unplaced]
  warnings := eq_of_unplaced (fun d => (compile d).warnings) warnings_compile_unplaced h
  exported := by
    refine eq_of_unplaced (fun d => (compile d).table.exported) (fun d => ?_) h
    rw [table_compile_unplaced, Table.exported_unplaced]
  problems := by
    refine eq_of_unplaced (fun d => (compile d).table.problems) (fun d => ?_) h
    rw [table_compile_unplaced, Table.problems_unplaced]
  session setup ops := by
    refine eq_of_unplaced (fun d => Machine.showing ops (setup.machine (compile d).table)) (fun d => ?_) h
    rw [table_compile_unplaced, Machine.showing_unplaced]
  after setup ops := by
    rw [← Machine.Setup.after_unplaced, ← Machine.Setup.after_unplaced, ← table_compile_unplaced,
      ← table_compile_unplaced, h]

/-! ### Layouts -/

/-- The state has the place that its id was given, or its own if none was given. -/
structure State.PlacedBy (place : String → Option Position) (s s' : State) : Prop where
  unplaced : s'.unplaced = s.unplaced
  given : ∀ p, place s.id = some p → s'.position = p
  kept : place s.id = none → s'.position = s.position

structure Diagram.PlacedBy (place : String → Option Position) (d d' : Diagram) : Prop where
  edges : d'.edges = d.edges
  states : List.Forall₂ (State.PlacedBy place) d.states d'.states

theorem State.placedBy_getD (place : String → Option Position) (s : State) :
    s.PlacedBy place { s with position := (place s.id).getD s.position } where
  unplaced := rfl
  given p hp := by rw [hp, Option.getD_some]
  kept hnone := by rw [hnone, Option.getD_none]

theorem Diagram.placedBy_arrange (d : Diagram) (layout : Layout) :
    d.PlacedBy (layout d.nodes d.links) (d.arrange layout) where
  edges := rfl
  states := List.forall₂_map_right_iff.mpr (List.forall₂_same.mpr fun s _ => State.placedBy_getD _ s)

/-! ### Decoding with a layout -/

namespace Code

/-- The ids of the states of a code, each once. -/
def nodes (rules : List Rule) : List String :=
  (rules.flatMap fun r => [Text.numeral r.source, Text.numeral r.target]).eraseDups

/-- The sources and targets of the rules of a code, each pair once. -/
def links (rules : List Rule) : List (String × String) :=
  (rules.map fun r => (Text.numeral r.source, Text.numeral r.target)).eraseDups

theorem draw_nodes_eq (rules : List Rule) (last : Rule) : (draw rules last).nodes = nodes rules := by
  have hflat : (rules.flatMap fun r => [Text.numeral r.source, Text.numeral r.target]) =
      (rules.flatMap fun r => [r.source, r.target]).map Text.numeral := by
    rw [List.map_flatMap]
    rfl
  rw [draw_nodes, nodes, hflat, eraseDups_map fun _ _ => Text.numeral_injective, numbers]

theorem draw_links_eq (rules : List Rule) (last : Rule) : (draw rules last).links = links rules := by
  have hinjective : Function.Injective Ends.link := fun _ _ => Ends.link_injective
  have hmap : (rules.map fun r => (Text.numeral r.source, Text.numeral r.target)) =
      (rules.map Rule.ends).map Ends.link := by
    rw [List.map_map]
    rfl
  rw [links, hmap, eraseDups_map hinjective, Diagram.links, draw_edges, List.map_map]
  rfl

end Code

/-- A text is decoded with a layout as it is without one. The layout is asked for the states and the links of the code,
    each once and in the order in which they are met, and its answer decides about positions alone. -/
structure DecodedWith (text : String) (layout : Layout) : Prop where
  error : ∀ e, decode text = .error e → decodeWith text layout = .error e
  ok : ∀ d, decode text = .ok d → ∃ rules d', Code.read text = .ok rules ∧ decodeWith text layout = .ok d' ∧
    d.PlacedBy (layout (Code.nodes rules) (Code.links rules)) d' ∧
      ∀ other : Layout, other (Code.nodes rules) (Code.links rules) = layout (Code.nodes rules) (Code.links rules) →
        decodeWith text other = .ok d'

theorem decodeWith_of_ok {text : String} (h : decode text = .ok d) (layout : Layout) :
    decodeWith text layout = .ok (d.arrange layout) := by
  rw [decodeWith, h]
  rfl

theorem decodedWith (text : String) (layout : Layout) : DecodedWith text layout where
  error e h := by
    rw [decodeWith, h]
    rfl
  ok d h := by
    obtain ⟨rules, last, hread, -, rfl⟩ := Code.exists_draw_of_decode h
    have hnodes := Code.draw_nodes_eq rules last
    have hlinks := Code.draw_links_eq rules last
    have hplaced := (Code.draw rules last).placedBy_arrange layout
    rw [hnodes, hlinks] at hplaced
    refine ⟨rules, _, hread, decodeWith_of_ok h layout, hplaced, fun other hother => ?_⟩
    rw [decodeWith_of_ok h, Diagram.arrange, Diagram.arrange, hnodes, hlinks, hother]

/-! ### Positions -/

/-- Positions are carried along and changed by layouts, and nothing else depends on them. -/
theorem positions_inert :
    (∀ d d' : Diagram, d'.unplaced = d.unplaced → d.Indistinct d') ∧
      (∀ (d : Diagram) (layout : Layout), d.PlacedBy (layout d.nodes d.links) (d.arrange layout)) ∧
        ∀ (text : String) (layout : Layout), DecodedWith text layout :=
  ⟨fun _ _ => indistinct_of_unplaced, Diagram.placedBy_arrange, decodedWith⟩

theorem positions_inert_starter : Diagram.starter.unplaced ≠ Diagram.starter ∧
    Diagram.starter.Indistinct Diagram.starter.unplaced :=
  ⟨by decide, positions_inert.1 _ _ rfl⟩

end Tapeworks
