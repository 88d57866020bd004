import Tapeworks.CommandLine.Perform
import Tapeworks.MachineFile
import Tapeworks.Proofs.CommandLine.Modes
import Tapeworks.Proofs.Position.Inert
import Tapeworks.Proofs.Record

/-! Saved machines load back. What a record or a diagram is written as, in either layout, is loaded as the same machine,
    if its coordinates survive being written and read. Ids and labels need no such condition: they may be any Unicode
    text. The diagram of a code has all of its states at the origin, so it always loads back. -/

namespace Tapeworks

/-- The texts that a value is written as: compact, pretty, and pretty as a line of output. -/
def Json.Value.writtenTexts (v : Value) : List String :=
  [v.compactText, v.prettyText, v.prettyText ++ "\n"]

theorem Json.Value.isSpelled_of_mem_writtenTexts {v : Value} {text : String} (hv : v.IsPrintable)
    (h : text ∈ v.writtenTexts) : v.IsSpelled text := by
  simp only [writtenTexts, List.mem_cons, List.not_mem_nil, or_false] at h
  rcases h with rfl | rfl | rfl
  · exact isSpelled_compactText hv
  · exact isSpelled_prettyText hv
  · exact (isSpelled_prettyText hv).line

/-- The record as it is loaded under a name, which replaces an empty id. -/
def MachineRecord.named (r : MachineRecord) (name : String) : MachineRecord :=
  if r.id = "" then { r with id := name } else r

@[simp] theorem MachineRecord.diagram_named (r : MachineRecord) (name : String) :
    (r.named name).diagram = r.diagram := by
  unfold named
  split <;> rfl

theorem MachineRecord.id_named (r : MachineRecord) (name : String) :
    (r.named name).id = if r.id = "" then name else r.id := by
  unfold named
  split <;> rfl

theorem MachineRecord.named_eq_named_iff {id name : String} {d d' : Diagram} :
    named ⟨id, d⟩ name = named ⟨id, d'⟩ name ↔ d = d' :=
  ⟨fun h => by simpa using congrArg diagram h, fun h => h ▸ rfl⟩

namespace MachineFile

variable {r m : MachineRecord} {d : Diagram} {text name : String}

/-! ### Loading a record whose positions are reread -/

theorem ofText_eq_ok_iff (h : MachineRecord.read? text = do return ⟨r.id, ← r.diagram.reread?⟩) :
    ofText .json text name = .ok m ↔ ∃ d, r.diagram.reread? = some d ∧ m = MachineRecord.named ⟨r.id, d⟩ name := by
  cases hd : r.diagram.reread? with
  | none => simp [ofText, h, hd]
  | some d =>
    have hload : ofText .json text name = .ok (MachineRecord.named ⟨r.id, d⟩ name) := by
      simp [ofText, h, hd, MachineRecord.named]
    rw [hload, Except.ok.injEq]
    constructor
    · rintro rfl
      exact ⟨d, rfl, rfl⟩
    · rintro ⟨d', hd', rfl⟩
      cases hd'
      rfl

/-- Such a text gives the record itself just when its positions read back. -/
theorem ofText_eq_named_iff (h : MachineRecord.read? text = do return ⟨r.id, ← r.diagram.reread?⟩) :
    ofText .json text name = .ok (r.named name) ↔ r.diagram.ReadsBack := by
  rw [ofText_eq_ok_iff h, ← Diagram.reread?_eq_some_self]
  constructor
  · rintro ⟨d, hd, hnamed⟩
    rw [hd, MachineRecord.named_eq_named_iff.mp hnamed]
  · exact fun hd => ⟨r.diagram, hd, rfl⟩

theorem unplaced_of_ofText (h : MachineRecord.read? text = do return ⟨r.id, ← r.diagram.reread?⟩)
    (hm : ofText .json text name = .ok m) :
    m.id = (r.named name).id ∧ m.diagram.unplaced = r.diagram.unplaced := by
  obtain ⟨d, hd, rfl⟩ := (ofText_eq_ok_iff h).mp hm
  rw [MachineRecord.id_named, MachineRecord.id_named, MachineRecord.diagram_named]
  exact ⟨rfl, Diagram.unplaced_of_reread? hd⟩

/-! ### Written texts -/

theorem read?_of_mem_writtenTexts (h : text ∈ r.toJson.writtenTexts) :
    MachineRecord.read? text = do return ⟨r.id, ← r.diagram.reread?⟩ :=
  MachineRecord.read?_toJson (Json.Value.isSpelled_of_mem_writtenTexts r.isPrintable_toJson h)

/-- The texts of a diagram are those of a record without an id. -/
theorem read?_of_mem_writtenTexts_diagram (h : text ∈ d.toJson.writtenTexts) :
    MachineRecord.read? text = do return ⟨"", ← d.reread?⟩ :=
  MachineRecord.read?_diagram (Json.Value.isSpelled_of_mem_writtenTexts d.isPrintable_toJson h)

/-- What is loaded under a name from the texts of a record and from those of its diagram. It is the record, or the
    diagram with the name as its id, just when the coordinates read back; and where they do not, the positions are all
    that differs, so that it still compiles, encodes and is analyzed as before. -/
structure LoadsBack (r : MachineRecord) (name : String) : Prop where
  record : ∀ text ∈ r.toJson.writtenTexts, ofText .json text name = .ok (r.named name) ↔ r.diagram.ReadsBack
  diagram : ∀ text ∈ r.diagram.toJson.writtenTexts,
    ofText .json text name = .ok ⟨name, r.diagram⟩ ↔ r.diagram.ReadsBack
  recordId : ∀ text ∈ r.toJson.writtenTexts, ∀ m, ofText .json text name = .ok m → m.id = (r.named name).id
  diagramId : ∀ text ∈ r.diagram.toJson.writtenTexts, ∀ m, ofText .json text name = .ok m → m.id = name
  same : ∀ text ∈ r.toJson.writtenTexts ++ r.diagram.toJson.writtenTexts, ∀ m, ofText .json text name = .ok m →
    m.diagram.unplaced = r.diagram.unplaced ∧ r.diagram.Indistinct m.diagram

theorem loadsBack (r : MachineRecord) (name : String) : LoadsBack r name where
  record _ ht := ofText_eq_named_iff (read?_of_mem_writtenTexts ht)
  diagram _ ht := ofText_eq_named_iff (r := ⟨"", r.diagram⟩) (read?_of_mem_writtenTexts_diagram ht)
  recordId _ ht _ hm := (unplaced_of_ofText (read?_of_mem_writtenTexts ht) hm).1
  diagramId _ ht _ hm := (unplaced_of_ofText (r := ⟨"", r.diagram⟩) (read?_of_mem_writtenTexts_diagram ht) hm).1
  same _ ht m hm := by
    have hunplaced : m.diagram.unplaced = r.diagram.unplaced := by
      rcases List.mem_append.mp ht with hr | hd
      · exact (unplaced_of_ofText (read?_of_mem_writtenTexts hr) hm).2
      · exact (unplaced_of_ofText (r := ⟨"", r.diagram⟩) (read?_of_mem_writtenTexts_diagram hd) hm).2
    exact ⟨hunplaced, indistinct_of_unplaced hunplaced⟩

/-- A machine with quotes, backslashes and control characters in its ids and its label. -/
def marked : MachineRecord where
  id := "\"\\"
  diagram :=
    { states :=
        [{ id := "\n\"", isStart := true, position := ⟨(Binary64.ofNat? 200).getD Binary64.zero, Binary64.zero⟩ },
         { id := "\x01\\", isFinal := true }]
      edges := [Edge.between "\n\"" "\x01\\" "\",\t,>"] }

theorem loadsBack_marked : LoadsBack marked "m" ∧
    (∀ text ∈ marked.toJson.writtenTexts, ofText .json text "m" = .ok marked) ∧
    ∀ text ∈ marked.diagram.toJson.writtenTexts, ofText .json text "m" = .ok ⟨"m", marked.diagram⟩ := by
  have hloads := loadsBack marked "m"
  have hreads : marked.diagram.ReadsBack := Diagram.readsBack_iff.mpr (by decide +kernel)
  have hnamed : marked.named "m" = marked := if_neg (by decide)
  refine ⟨hloads, fun text htext => ?_, fun text htext => (hloads.diagram text htext).mpr hreads⟩
  exact hnamed ▸ (hloads.record text htext).mpr hreads

/-! ### Diagrams of codes -/

theorem readsBack_decode {code : String} (h : decode code = .ok d) : d.ReadsBack := by
  obtain ⟨rules, last, -, -, rfl⟩ := Code.exists_draw_of_decode h
  intro s hs
  rw [Code.draw_states] at hs
  obtain ⟨n, -, rfl⟩ := List.mem_map.mp hs
  exact ⟨Binary64.readsBack_zero, Binary64.readsBack_zero⟩

theorem readsBack_startedAt (h : d.ReadsBack) (id : String) : (d.startedAt id).ReadsBack := by
  intro s hs
  obtain ⟨before, hbefore, rfl⟩ := List.mem_map.mp hs
  exact h before hbefore

/-- What is printed for a code is loaded as the diagram that was printed. -/
theorem ofText_decodeText {code : String} {start : Option String} (h : CommandLine.decodeText code start = .ok text)
    (name : String) : ∃ d, text = d.toJson.prettyText ++ "\n" ∧ ofText .json text name = .ok ⟨name, d⟩ := by
  have hload : ∀ d : Diagram, d.ReadsBack →
      ofText .json (d.toJson.prettyText ++ "\n") name = .ok ⟨name, d⟩ := fun d hd =>
    (ofText_eq_named_iff (r := ⟨"", d⟩) (read?_of_mem_writtenTexts_diagram (by simp [Json.Value.writtenTexts]))).mpr hd
  obtain ⟨d, hd, h⟩ := Code.Cursor.except_bind_eq_ok h
  have hdecoded : d.ReadsBack := readsBack_decode (CommandLine.mapError_eq_ok hd)
  cases start with
  | none =>
    cases h
    exact ⟨d, rfl, hload d hdecoded⟩
  | some id =>
    obtain ⟨started, hstarted, h⟩ := Code.Cursor.except_bind_eq_ok h
    have hsole : d.makeSoleStart id = .ok started := CommandLine.mapError_eq_ok hstarted
    rw [Diagram.makeSoleStart] at hsole
    split at hsole
    · cases hsole
    · cases hsole
      cases h
      exact ⟨_, rfl, hload _ (readsBack_startedAt hdecoded id)⟩

end MachineFile

end Tapeworks
