/-! Paths of files: parts between slashes, where empty parts and single dots stand for nothing. -/

namespace Tapeworks.Path

def parts (path : String) : List String :=
  (path.toList.splitOn '/').map String.ofList

/-- Whether a path starts at the outermost folder and not at a working folder. -/
def isAbsolute (path : String) : Bool :=
  path.toList.head? = some '/'

/-- The last part that stands for something, unless that is two dots. -/
def fileName? (path : String) : Option String :=
  match (parts path).reverse.find? fun part => part ≠ "" ∧ part ≠ "." with
  | some ".." => none
  | name => name

/-- The text before the last dot of a name and the text after it. A dot that starts the name does not count. -/
def splitName (name : String) : String × Option String :=
  let back := name.toList.reverse
  match back.dropWhile (· ≠ '.') with
  | [] => (name, none)
  | [_] => (name, none)
  | _ :: before => (String.ofList before.reverse, some (String.ofList (back.takeWhile (· ≠ '.')).reverse))

def extension? (path : String) : Option String := do
  (splitName (← fileName? path)).2

def stem? (path : String) : Option String := do
  return (splitName (← fileName? path)).1

/-- The path of an entry of a folder. -/
def entry (folder name : String) : String :=
  if folder = "" ∨ folder.toList.getLast? = some '/' then folder ++ name else folder ++ "/" ++ name

end Tapeworks.Path
