import Tapeworks.Library
import Tapeworks.Proofs.Code.Diagnosis
import Tapeworks.Proofs.Code.Loading
import Tapeworks.Proofs.Code.RoundTrip
import Tapeworks.Proofs.Gather

/-! The built-in machines as they are loaded. Every machine file of the library is loaded, under its own name, and gives
    the diagram that is told here. A name finds the machine with this id and no other. -/

namespace Tapeworks.Library

/-! ### The diagrams of the files -/

def place (x y : Nat) : Position :=
  ⟨(Binary64.ofNat? x).getD Binary64.zero, (Binary64.ofNat? y).getD Binary64.zero⟩

def binaryIncrement : Diagram where
  states :=
    [{ id := "1", isStart := true, position := place 0 0 },
     { id := "2", position := place 200 0 },
     { id := "3", position := place 400 0 },
     { id := "4", isFinal := true, position := place 600 0 }]
  edges :=
    [Edge.between "1" "2" "_,>",
     Edge.between "2" "2" "0,>;1,>",
     Edge.between "2" "3" "_,<",
     Edge.between "3" "3" "1,0,<",
     Edge.between "3" "4" "0,1,<;_,1,>"]

def evenA : Diagram where
  states :=
    [{ id := "1", isStart := true, position := place 0 0 },
     { id := "2", position := place 200 0 },
     { id := "3", isFinal := true, position := place 0 200 }]
  edges :=
    [Edge.between "1" "2" "a,>",
     Edge.between "2" "1" "a,>",
     Edge.between "1" "3" "_,_,>"]

/-- The rules of the code: an `a` or a `b`, then a `b`, and then a blank. -/
def exampleRules : List Code.Rule :=
  [⟨1, 3, .a, .a, .right⟩, ⟨1, 3, .b, .b, .right⟩, ⟨3, 4, .b, .b, .right⟩, ⟨4, 2, .blank, .blank, .right⟩]

def encodedExample : Diagram :=
  (Code.draw exampleRules ⟨4, 2, .blank, .blank, .right⟩).startedAt "1"

/-! ### Loading -/

variable (name : String)

section Records

-- Taking the characters out of a long literal one by one is slow, so they are given to the reader as a list.
set_option maxRecDepth 8000

theorem read?_binaryIncrementText :
    MachineRecord.read? binaryIncrementText = some ⟨"binary-increment", binaryIncrement⟩ := by
  have htext : binaryIncrementText.toList = _ := String.toList_ofList
  rw [MachineRecord.read?, Json.readWhole?, htext]
  decide +kernel

theorem read?_evenAText : MachineRecord.read? evenAText = some ⟨"even-a", evenA⟩ := by
  have htext : evenAText.toList = _ := String.toList_ofList
  rw [MachineRecord.read?, Json.readWhole?, htext]
  decide +kernel

end Records

/-- A record that has an id of its own keeps it. -/
theorem ofText_of_read? {text : String} {r : MachineRecord} (h : MachineRecord.read? text = some r) (hid : r.id ≠ "") :
    MachineFile.ofText .json text name = .ok r := by
  rw [MachineFile.ofText, h]
  exact congrArg Except.ok (if_neg hid)

theorem ofText_encodedExampleText : MachineFile.ofText .code encodedExampleText name = .ok ⟨name, encodedExample⟩ := by
  have htext : encodedExampleText = Code.write exampleRules ++ "\n" := by decide
  have hdecode : decode encodedExampleText = .ok (Code.draw exampleRules ⟨4, 2, .blank, .blank, .right⟩) := by
    have hbreak : ∀ c ∈ "\n".toList, Text.isSpace c := List.forall_mem_singleton.mpr rfl
    rw [htext, Code.decode_append_space _ hbreak]
    exact Code.decode_write (by simp [exampleRules, Code.Rule.Positive]) rfl
  obtain ⟨states, hstates⟩ := Code.draw_states_cons ⟨1, 3, .a, .a, .right⟩ _ _
  exact MachineFile.ofText_code_of_ok hdecode hstates
    (Diagram.makeSoleStart_of_mem (Code.first_mem_draw_nodes _ _ _)) name

theorem filterMap_of_forall₂ {α β : Type} {f : α → Option β} {l : List α} {l' : List β}
    (h : List.Forall₂ (fun a b => f a = some b) l l') : l.filterMap f = l' := by
  induction h with
  | nil => rfl
  | cons ha _ ih => rw [List.filterMap_cons_some ha, ih]

theorem machines_eq : machines =
    [⟨"binary-increment", binaryIncrement⟩, ⟨"even-a", evenA⟩, ⟨"encoded-example", encodedExample⟩] :=
  filterMap_of_forall₂ (.cons (congrArg Except.toOption (ofText_of_read? _ read?_binaryIncrementText (by decide)))
    (.cons (congrArg Except.toOption (ofText_of_read? _ read?_evenAText (by decide)))
      (.cons (congrArg Except.toOption (ofText_encodedExampleText _)) .nil)))

/-- Every file of the library is loaded, under its own name. -/
theorem names_eq : names = files.map (·.name) := by
  rw [names, machines_eq]
  rfl

/-! ### Look-up -/

theorem nodup_names : (machines.map (·.id)).Nodup := by
  rw [← names, names_eq]
  decide

theorem orNotFound_eq_ok_iff {found : Option MachineRecord} {what : String} {r : MachineRecord} :
    orNotFound found what = .ok r ↔ found = some r := by
  cases found <;> simp [orNotFound]

/-- A name finds the machine with this id and no other. -/
theorem named_eq_ok_iff {name : String} {r : MachineRecord} : named name = .ok r ↔ r ∈ machines ∧ r.id = name := by
  rw [named, orNotFound_eq_ok_iff, find?_key_eq_some_iff nodup_names]

theorem named_binaryIncrement : named "binary-increment" = .ok ⟨"binary-increment", binaryIncrement⟩ :=
  named_eq_ok_iff.mpr ⟨by simp [machines_eq], rfl⟩

theorem named_evenA : named "even-a" = .ok ⟨"even-a", evenA⟩ :=
  named_eq_ok_iff.mpr ⟨by simp [machines_eq], rfl⟩

end Tapeworks.Library
