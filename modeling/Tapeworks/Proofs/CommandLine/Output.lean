import Mathlib.Data.List.Forall2
import Tapeworks.CommandLine.Perform
import Tapeworks.Proofs.Machine.Textbook

/-! What a run prints. Every configuration that it passes through has a line of its own: the number of steps and the id
    of the state, each at the right end of a column, and the tape with the cell under the head in brackets. Behind the
    lines stands the final state of a run that is accepted. A run that fails leaves its error instead. -/

namespace Tapeworks.CommandLine

open Machine

variable {m done : Machine} {halt : Halt} {c : Nat → Configuration}

/-! ### Lines -/

/-- The column has the text at its right end, behind spaces. It is as wide as told, or else as wide as the text. -/
structure Column (width : Nat) (text column : String) : Prop where
  length : column.length = max width text.length
  aligned : ∃ n, column = String.ofList (List.replicate n ' ') ++ text

theorem column_padLeft (width : Nat) (text : String) : Column width text (padLeft width text) where
  length := by
    rw [padLeft, String.length_append, String.length_ofList, List.length_replicate]
    omega
  aligned := ⟨_, rfl⟩

/-- The line shows the configuration behind a number of steps, the cell under its head in brackets. -/
def IsLine (step : Nat) (c : Configuration) (line : String) : Prop :=
  ∃ number id, Column 5 (toString step) number ∧ Column 4 c.state.id id ∧
    line = number ++ "  " ++ id ++ "  " ++
      String.ofList (c.tape.before.reverse ++ '[' :: c.tape.current :: ']' :: c.tape.after) ++ "\n"

theorem bracketed_cells (t : Tape) :
    bracketed t.cells t.head = t.before.reverse ++ '[' :: t.current :: ']' :: t.after := by
  have hhead : t.head = t.before.reverse.length := List.length_reverse.symm
  rw [bracketed, Tape.cells, hhead, List.drop_left, List.take_left]

theorem isLine_snapshotLine (step : Nat) (c : Configuration) : IsLine step c (snapshotLine (c.snapshot step)) := by
  refine ⟨_, _, column_padLeft 5 _, column_padLeft 4 _, ?_⟩
  rw [snapshotLine, ← bracketed_cells, Configuration.snapshot, Tape.text, String.toList_ofList]

/-! ### Reports -/

/-- What is left of a run of `n` moves through the configurations and of the halt that it comes to. -/
structure Shown (c : Nat → Configuration) (n : Nat) (halt : Halt) (lines : List String) (r : Report) : Prop where
  shown : List.Forall₂ (fun i => IsLine i (c i)) (List.range (n + 1)) lines
  accepted : halt = .accepted → r.stdout = String.join lines ++
    ("\nAccepted in state " ++ (c n).state.id ++ " after " ++ toString n ++ " steps.\n") ∧ r.stderr = none
  failed : ∀ e, halt = .failed e → r.stdout = String.join lines ∧
    r.stderr = some ("Error: machine halted after " ++ toString n ++ " steps: " ++ e.message)
  exitCode : r.exitCode = if halt = .accepted then 0 else 1

/-- A line for the machine as it stands and one for every snapshot, and what the halt comes to. -/
def told (m : Machine) (seen : List Snapshot) (halt : Halt) (done : Machine) : Report :=
  (closing done halt).after (String.join ((m.snapshot :: seen).map snapshotLine))

theorem text_ofMessage (message : String) : (Failure.ofMessage message).text = "Error: " ++ message :=
  String.append_empty

theorem lines_eq (hfirst : m.configuration = c 0) (hcount : m.stepCount = 0) (n : Nat) :
    (m.snapshot :: snapshots c 0 n).map snapshotLine =
      (List.range (n + 1)).map fun i => snapshotLine ((c i).snapshot i) := by
  have hstart : m.snapshot = (c 0).snapshot 0 := by
    rw [← hfirst, ← hcount]
    rfl
  rw [hstart, snapshots, List.range_succ_eq_map, List.map_cons, List.map_cons, List.map_map, List.map_map]
  refine congrArg _ (List.map_congr_left fun i _ => ?_)
  rw [Function.comp_apply, Function.comp_apply, Nat.zero_add]

theorem shown_told (hfirst : m.configuration = c 0) (hcount : m.stepCount = 0)
    (hlast : done.configuration = c done.stepCount) (halt : Halt) : ∃ lines, Shown c done.stepCount halt lines
      (told m (snapshots c 0 done.stepCount) halt done) := by
  refine ⟨(m.snapshot :: snapshots c 0 done.stepCount).map snapshotLine, ?_, ?_, ?_, ?_⟩
  · rw [lines_eq hfirst hcount, List.forall₂_map_right_iff, List.forall₂_same]
    exact fun i _ => isLine_snapshotLine i (c i)
  · rintro rfl
    rw [← hlast]
    exact ⟨rfl, rfl⟩
  · rintro e rfl
    refine ⟨String.append_empty, ?_⟩
    have hstderr : (told m (snapshots c 0 done.stepCount) (.failed e) done).stderr = some (Failure.ofMessage
      ("machine halted after " ++ toString done.stepCount ++ " steps: " ++ e.message)).text := rfl
    rw [hstderr, text_ofMessage, ← String.append_assoc, ← String.append_assoc, ← String.append_assoc]
    rfl
  · cases halt <;> rfl

end Tapeworks.CommandLine
