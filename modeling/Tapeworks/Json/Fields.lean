import Tapeworks.Json.Value

/-! Reading values of the domain out of JSON values. A structure is an object that names its fields or an array that
    lists them in order. Unknown names are passed over; a known name that occurs again makes the object invalid. A map
    is an object whose names are its keys. -/

namespace Tapeworks.Json.Value

def bool? : Value → Option Bool
  | bool b => some b
  | _ => none

def string? : Value → Option String
  | string s => s
  | _ => none

/-- The character of a string with exactly one. -/
def symbol? (v : Value) : Option Char := do
  match (← v.string?).toList with
  | [c] => some c
  | _ => none

def word? : Value → Option Nat
  | number n => n.word?
  | _ => none

def binary64? : Value → Option Binary64
  | number n => n.binary64?
  | _ => none

def list? (item? : Value → Option α) : Value → Option (List α)
  | array items => items.mapM item?
  | _ => none

/-- Puts an entry at its place. It takes the place of an entry with its name. -/
def insertEntry (entry : String × α) : List (String × α) → List (String × α)
  | [] => [entry]
  | head :: entries =>
    if entry.1 < head.1 then entry :: head :: entries
    else if entry.1 = head.1 then entry :: entries
    else head :: insertEntry entry entries

/-- The entries of an object, by ascending name. Of members with one name the last counts. -/
def map? (item? : Value → Option α) : Value → Option (List (String × α))
  | object members => do
    let entries ← members.mapM fun (name, v) => do return (← name, ← item? v)
    return entries.foldl (fun entries entry => insertEntry entry entries) []
  | _ => none

/-- A value that may be missing or `null`. -/
def optional? (inner? : Value → Option α) : Option Value → Option (Option α)
  | none => some none
  | some null => some none
  | some v => (inner? v).map some

/-- A value that has a default when it is missing. -/
def withDefault? (default : α) (inner? : Value → Option α) : Option Value → Option α
  | none => some default
  | some v => inner? v

/-- The value of the member `name`, which may be missing but not occur twice. -/
def member? (members : List (Text × Value)) (name : String) : Option (Option Value) :=
  match members.filter fun (key, _) => key = some name with
  | [] => some none
  | [(_, v)] => some (some v)
  | _ => none

def members? (members : List (Text × Value)) (names : List String) : Option (List (Option Value)) :=
  if members.all fun (key, _) => key.isSome then names.mapM (member? members) else none

/-- The values given for the fields `names`, in that order. -/
def fields? (names : List String) : Value → Option (List (Option Value))
  | object members => members? members names
  | array items =>
    if items.length ≤ names.length then
      some (items.map some ++ List.replicate (names.length - items.length) none)
    else none
  | _ => none

end Tapeworks.Json.Value
