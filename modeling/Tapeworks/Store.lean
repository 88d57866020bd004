import Tapeworks.Record

/-! A store of machine and tape records. A record can be added but not replaced: within its kind, an id is taken by the
    first record that has it. -/

namespace Tapeworks

inductive RecordKind
  | machine
  | tape
  deriving DecidableEq, Repr

namespace RecordKind

def name : RecordKind → String
  | machine => "machine"
  | tape => "tape"

/-- Machines come before tapes. -/
def precedes : RecordKind → RecordKind → Bool
  | machine, tape => true
  | _, _ => false

end RecordKind

inductive StoreError
  | duplicate (kind : RecordKind) (id : String)
  deriving DecidableEq, Repr

def StoreError.message : StoreError → String
  | duplicate kind id => "a " ++ kind.name ++ " with id '" ++ id ++ "' already exists"

/-- Any record of a store. -/
inductive Record
  | machine (r : MachineRecord)
  | tape (r : TapeRecord)
  deriving DecidableEq, Repr

/-- What a record is kept under. -/
structure RecordKey where
  kind : RecordKind
  id : String
  deriving DecidableEq, Repr

/-- Keys come in the order of their kinds, and those of one kind in the order of their ids. -/
def RecordKey.precedes (a b : RecordKey) : Bool :=
  a.kind.precedes b.kind || (a.kind = b.kind && a.id < b.id)

namespace Record

def kind : Record → RecordKind
  | machine _ => .machine
  | tape _ => .tape

def id : Record → String
  | machine r => r.id
  | tape r => r.id

def key (r : Record) : RecordKey :=
  ⟨r.kind, r.id⟩

def machine? : Record → Option MachineRecord
  | machine r => some r
  | tape _ => none

def tape? : Record → Option TapeRecord
  | tape r => some r
  | machine _ => none

end Record

/-- Records under their keys, by ascending key. -/
structure Store where
  entries : List (RecordKey × Record)
  deriving DecidableEq, Repr

namespace Store

def empty : Store := ⟨[]⟩

def size (s : Store) : Nat :=
  s.entries.length

def isEmpty (s : Store) : Bool :=
  s.entries.isEmpty

/-! ### Adding -/

def contains (s : Store) (key : RecordKey) : Bool :=
  s.entries.any (·.1 = key)

/-- Puts an entry at its place. It takes the place of an entry with its key. -/
def insertEntry (entry : RecordKey × Record) : List (RecordKey × Record) → List (RecordKey × Record)
  | [] => [entry]
  | head :: entries =>
    if entry.1.precedes head.1 then entry :: head :: entries
    else if entry.1 = head.1 then entry :: entries
    else head :: insertEntry entry entries

def put (s : Store) (r : Record) : Except StoreError Store :=
  if s.contains r.key then .error (.duplicate r.kind r.id) else .ok ⟨insertEntry (r.key, r) s.entries⟩

def saveMachine (s : Store) (r : MachineRecord) : Except StoreError Store :=
  s.put (.machine r)

def saveTape (s : Store) (r : TapeRecord) : Except StoreError Store :=
  s.put (.tape r)

/-! ### Listing -/

/-- Every record that is kept under a key of the kind, in order. -/
def list (s : Store) (kind : RecordKind) : List Record :=
  (s.entries.filter (·.1.kind = kind)).map (·.2)

def machines (s : Store) : List MachineRecord :=
  (s.list .machine).filterMap Record.machine?

def tapes (s : Store) : List TapeRecord :=
  (s.list .tape).filterMap Record.tape?

end Store

end Tapeworks
