import Tapeworks.Proofs.Json.Fields
import Tapeworks.Proofs.Json.RoundTrip
import Tapeworks.Proofs.Table
import Tapeworks.Table.Export

/-! Exported tables and their texts. The text of a table reads back as the exported table, which has the rules of every
    state under its id. So two tables have one text just when they have the same ids and under each id the same rules in
    the same order, up to what else there is to the states that the rules lead to. -/

namespace Tapeworks

/-- The value is an object with a member of the name. -/
def Json.Value.HasMember (v : Value) (name : String) : Prop :=
  ∃ members, v = .object members ∧ some name ∈ members.map (·.1)

/-- The value is an object for the rule. It has a member for the write symbol just when the rule has one. -/
structure Json.Value.Shows (v : Value) (r : Transition) : Prop where
  readLetter : v.HasMember "readLetter"
  writeLetter : v.HasMember "writeLetter" ↔ r.write.isSome

/-! ### Exported rules -/

/-- The rules read and write alike, move in one direction and lead to states with one id. -/
structure Transition.Alike (r r' : Transition) : Prop where
  read : r'.read = r.read
  write : r'.write = r.write
  direction : r'.direction = r.direction
  target : r'.target.id = r.target.id

theorem Direction.symbol_injective {a b : Direction} (h : a.symbol = b.symbol) : a = b := by
  cases a <;> cases b <;> first | rfl | exact absurd h (by decide)

namespace ExportedTransition

/-- The exported rule says what the rule does. It has no write symbol just when the rule has none. -/
structure Describes (x : ExportedTransition) (r : Transition) : Prop where
  read : x.readLetter = r.read
  write : x.writeLetter = r.write
  direction : x.direction = r.direction.symbol
  target : x.targetStateId = r.target.id

theorem describes_ofTransition (r : Transition) : (ofTransition r).Describes r :=
  ⟨rfl, rfl, rfl, rfl⟩

theorem ofTransition_eq_iff {r r' : Transition} : ofTransition r = ofTransition r' ↔ r.Alike r' := by
  constructor
  · intro h
    obtain ⟨hread, hwrite, hdirection, htarget⟩ := ExportedTransition.mk.inj h
    exact ⟨hread.symm, hwrite.symm, Direction.symbol_injective hdirection.symm, htarget.symm⟩
  · intro h
    unfold ofTransition
    rw [h.read, h.write, h.direction, h.target]

theorem ofJson?_toJson (x : ExportedTransition) : ofJson? x.toJson = some x := by
  obtain ⟨read, write, direction, target⟩ := x
  cases write <;>
    simp [ofJson?, toJson, Json.Value.record, Json.Value.fields?, Json.Value.members?, Json.Value.member?,
      Json.Value.optional?, Json.Value.symbol?, Json.Value.string?, Json.Value.symbol, Json.Value.text]

theorem fits_toJson {q : Json.Number → Prop} (x : ExportedTransition) : x.toJson.Fits q := by
  cases hwrite : x.writeLetter <;> simp [toJson, hwrite]

theorem Describes.shows {x : ExportedTransition} {r : Transition} (h : x.Describes r) : x.toJson.Shows r := by
  constructor
  · simp [toJson, Json.Value.HasMember, Json.Value.record]
  · rw [← h.write]
    cases hwrite : x.writeLetter <;> simp [toJson, hwrite, Json.Value.HasMember, Json.Value.record]

end ExportedTransition

namespace Table

variable {t t' : Table} {id : String}

/-! ### Exported tables -/

def ids (t : Table) : List String :=
  t.states.map (·.id)

theorem map_fst_exported (t : Table) : t.exported.map (·.1) = t.ids := by
  simp [exported, ids, states]

/-- The rules of an id are exported in order. -/
theorem map_ofTransition (t : Table) (id : String) : (t.transitions id).map ExportedTransition.ofTransition =
    ((t.exported.find? (·.1 = id)).map (·.2)).getD [] := by
  unfold transitions row? exported
  rw [List.find?_map]
  have hkey : (fun x : String × List ExportedTransition => decide (x.1 = id)) ∘ (fun row : Row =>
      (row.state.id, row.transitions.map ExportedTransition.ofTransition)) = fun row => decide (row.state.id = id) := rfl
  rw [hkey]
  cases t.rows.find? (·.state.id = id) <;> rfl

theorem pairwise_exported (h : Ascending t.rows) : t.exported.Pairwise fun x y => x.1 < y.1 :=
  List.pairwise_map.mpr h

theorem pairwise_ids (h : Ascending t.rows) : t.ids.Pairwise (· < ·) := by
  rw [← map_fst_exported]
  exact List.pairwise_map.mpr (pairwise_exported h)

theorem exported_eq (h : Ascending t.rows) :
    t.exported = t.ids.map fun id => (id, (t.transitions id).map ExportedTransition.ofTransition) := by
  rw [exported, rows_eq h, ids, List.map_map, List.map_map]
  rfl

section Entries

variable {x : String × List ExportedTransition} (h : Ascending t.rows) (hx : x ∈ t.exported)
include h hx

theorem rules_of_mem_exported : x.2 = (t.transitions x.1).map ExportedTransition.ofTransition := by
  rw [exported_eq h] at hx
  obtain ⟨id, -, rfl⟩ := List.mem_map.mp hx
  rfl

theorem describes_of_mem_exported : List.Forall₂ ExportedTransition.Describes x.2 (t.transitions x.1) := by
  rw [rules_of_mem_exported h hx, List.forall₂_map_left_iff, List.forall₂_same]
  exact fun r _ => ExportedTransition.describes_ofTransition r

theorem shows_of_mem_exported :
    List.Forall₂ Json.Value.Shows (x.2.map ExportedTransition.toJson) (t.transitions x.1) := by
  rw [List.forall₂_map_left_iff]
  exact (describes_of_mem_exported h hx).imp fun _ _ hr => hr.shows

end Entries

/-! ### Tables with the same rules -/

/-- The tables have the same ids, and under each id rules that are alike, in the same order. -/
structure Coincides (t t' : Table) : Prop where
  ids : ∀ id, id ∈ t'.ids ↔ id ∈ t.ids
  rules : ∀ id, List.Forall₂ Transition.Alike (t.transitions id) (t'.transitions id)

theorem forall₂_alike_iff {rules rules' : List Transition} : List.Forall₂ Transition.Alike rules rules' ↔
    rules.map ExportedTransition.ofTransition = rules'.map ExportedTransition.ofTransition := by
  rw [← List.forall₂_eq_eq_eq, List.forall₂_map_left_iff, List.forall₂_map_right_iff]
  simp only [ExportedTransition.ofTransition_eq_iff]

theorem exported_eq_iff (h : Ascending t.rows) (h' : Ascending t'.rows) :
    t'.exported = t.exported ↔ t.Coincides t' := by
  constructor
  · intro hexported
    refine ⟨fun id => ?_, fun id => ?_⟩
    · rw [← map_fst_exported, ← map_fst_exported, hexported]
    · rw [forall₂_alike_iff, map_ofTransition, map_ofTransition, hexported]
  · intro hcoincides
    -- The ids ascend in both tables, so that the same ids stand in the same order.
    have hids : t'.ids = t.ids :=
      eq_of_mem_iff (fun _ _ => String.lt_asymm) (pairwise_ids h') (pairwise_ids h) hcoincides.ids
    rw [exported_eq h, exported_eq h', hids]
    refine List.map_congr_left fun id _ => ?_
    rw [forall₂_alike_iff.mp (hcoincides.rules id)]

/-! ### Texts -/

theorem toJson_eq (t : Table) : t.toJson =
    .record (t.exported.map fun x => (x.1, .array (x.2.map ExportedTransition.toJson))) :=
  rfl

theorem isPrintable_toJson (t : Table) : t.toJson.IsPrintable := by
  rw [toJson_eq]
  refine Json.Value.fits_record.mpr (List.forall_mem_map.mpr fun x _ => ?_)
  exact Json.Value.fits_array.mpr (List.forall_mem_map.mpr fun rule _ => rule.fits_toJson)

theorem read?_jsonText (t : Table) : Json.read? t.jsonText = some t.toJson :=
  Json.Value.read?_of_isSpelled (Json.Value.isSpelled_prettyText t.isPrintable_toJson)

theorem readExported?_jsonText (h : Ascending t.rows) : readExported? t.jsonText = some t.exported := by
  have hrules : ∀ x ∈ t.exported, Json.Value.list? ExportedTransition.ofJson?
      (.array (x.2.map ExportedTransition.toJson)) = some x.2 := fun x _ =>
    Json.Value.list?_array_map fun rule _ => rule.ofJson?_toJson
  rw [readExported?, read?_jsonText, Option.bind_eq_bind, Option.bind_some]
  exact Json.Value.map?_record (fun rules => .array (rules.map ExportedTransition.toJson)) hrules (pairwise_exported h)

/-- The text of a table determines its exported form. -/
theorem jsonText_eq_iff (h : Ascending t.rows) (h' : Ascending t'.rows) :
    t'.jsonText = t.jsonText ↔ t'.exported = t.exported := by
  constructor
  · intro htext
    have hread := readExported?_jsonText h'
    rw [htext, readExported?_jsonText h] at hread
    exact (Option.some.inj hread).symm
  · intro hexported
    rw [jsonText, jsonText, toJson, toJson, hexported]

end Table
end Tapeworks
