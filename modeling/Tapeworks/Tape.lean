import Tapeworks.RunError
import Tapeworks.Symbol

/-! Tapes: a row of at least one cell with a head on one of them. A tape is the cell under the head and the cells on
    either side, so the head cannot leave it. It never grows. -/

namespace Tapeworks

structure Tape where
  /-- The cells left of the head, the nearest first. -/
  before : List Char
  current : Char
  after : List Char
  deriving DecidableEq, Repr

namespace Tape

/-! ### Cells -/

def cells (t : Tape) : List Char :=
  t.before.reverse ++ t.current :: t.after

def head (t : Tape) : Nat :=
  t.before.length

def length (t : Tape) : Nat :=
  t.before.length + t.after.length + 1

def text (t : Tape) : String :=
  String.ofList t.cells

/-! ### Making tapes -/

/-- The cells with the head on the first of them; without cells, a single blank. -/
def ofCells : List Char → Tape
  | [] => ⟨[], Tapeworks.blank, []⟩
  | c :: cs => ⟨[], c, cs⟩

def blank (length : Nat) : Tape :=
  ofCells (List.replicate length Tapeworks.blank)

/-- The input, filled up with blanks to the capacity. -/
def ofInput (input : List Char) (capacity : Nat) : Tape :=
  ofCells (input ++ List.replicate (capacity - input.length) Tapeworks.blank)

def defaultLength : Nat := 50

def default : Tape :=
  blank defaultLength

instance : Inhabited Tape := ⟨default⟩

/-! ### Operations -/

def setHead (t : Tape) (index : Nat) : Except RunError Tape :=
  match t.cells.drop index with
  | [] => .error (.tapeOverflow t.length)
  | c :: after => .ok ⟨(t.cells.take index).reverse, c, after⟩

def setSymbol (t : Tape) (index : Nat) (symbol : Char) : Except RunError Tape :=
  if index < t.head then .ok { t with before := t.before.set (t.head - 1 - index) symbol }
  else if index = t.head then .ok { t with current := symbol }
  else if index < t.length then .ok { t with after := t.after.set (index - t.head - 1) symbol }
  else .error (.tapeOverflow t.length)

/-- Writes under the head and moves it. When there is no cell to move to, nothing is written either. -/
def apply (t : Tape) (write : Option Char) (direction : Direction) : Except RunError Tape :=
  let symbol := write.getD t.current
  match direction, t.before, t.after with
  | .left, c :: before, after => .ok ⟨before, c, symbol :: after⟩
  | .left, [], _ => .error .tapeUnderflow
  | .right, before, c :: after => .ok ⟨symbol :: before, c, after⟩
  | .right, _, [] => .error (.tapeOverflow t.length)

end Tape

end Tapeworks
