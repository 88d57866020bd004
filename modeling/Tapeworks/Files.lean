import Tapeworks.Path

/-! Files as a program sees them: what is found at a path, or why nothing is. A file tree is such a view that is known
    as a whole. -/

namespace Tapeworks

inductive FileError
  | notFound
  | notFolder
  | isFolder
  | notText
  | nameTooLong
  | nulInName
  deriving DecidableEq, Repr

def FileError.message : FileError → String
  | notFound => "No such file or directory (os error 2)"
  | notFolder => "Not a directory (os error 20)"
  | isFolder => "Is a directory (os error 21)"
  | notText => "stream did not contain valid UTF-8"
  | nameTooLong => "File name too long (os error 36)"
  | nulInName => "file name contained an unexpected NUL byte"

inductive Found
  | folder (names : List String)
  | file (bytes : ByteArray)

abbrev Files := (path : String) → Except FileError Found

namespace Files

def exists? (files : Files) (path : String) : Bool :=
  match files path with
  | .ok _ => true
  | .error _ => false

def isFolder (files : Files) (path : String) : Bool :=
  match files path with
  | .ok (.folder _) => true
  | _ => false

def decodeText (bytes : ByteArray) : Except FileError String :=
  match String.fromUTF8? bytes with
  | some text => .ok text
  | none => .error .notText

/-- The text of a file. -/
def text (files : Files) (path : String) : Except FileError String :=
  match files path with
  | .error e => .error e
  | .ok (.folder _) => .error .isFolder
  | .ok (.file bytes) => decodeText bytes

/-- The names in a folder, in no particular order. -/
def names (files : Files) (path : String) : Except FileError (List String) :=
  match files path with
  | .error e => .error e
  | .ok (.folder names) => .ok names
  | .ok (.file _) => .error .notFolder

end Files

/-! ### Trees -/

inductive FileTree
  | file (bytes : ByteArray)
  | folder (entries : List (String × FileTree))

namespace FileTree

def empty : FileTree := folder []

/-- Puts a tree at a path below folders that it makes where they are missing. -/
def put (tree : FileTree) : (path : List String) → FileTree → FileTree
  | [], _ => tree
  | name :: path, folder entries =>
    let child := put tree path ((entries.lookup name).getD empty)
    folder (entries.filter (·.1 ≠ name) ++ [(name, child)])
  | _, file bytes => file bytes

/-- The most bytes that the name of an entry has. -/
def longestName : Nat := 255

/-- The most bytes that a path has. -/
def longestPath : Nat := 4095

/-- Goes along the parts of a path from a tree whose outer folders are given, innermost first. The outermost folder is
    its own outer folder. -/
def walk (outer : List FileTree) : FileTree → (parts : List String) → Except FileError FileTree
  | tree, [] => .ok tree
  | file _, _ :: _ => .error .notFolder
  | folder entries, part :: parts =>
    if part = "" ∨ part = "." then walk outer (folder entries) parts
    else if part = ".." then
      match outer with
      | [] => walk [] (folder entries) parts
      | tree :: outer => walk outer tree parts
    else if longestName < part.utf8ByteSize then .error .nameTooLong
    else
      match entries.lookup part with
      | none => .error .notFound
      | some tree => walk (folder entries :: outer) tree parts

/-- The view of a tree from a working folder in it, whose own path is given by its parts. -/
def files (tree : FileTree) (working : List String) : Files := fun path =>
  let parts := if Path.isAbsolute path then Path.parts path else working ++ Path.parts path
  if path = "" then .error .notFound
  else if path.toList.contains '\x00' then .error .nulInName
  else if longestPath < path.utf8ByteSize then .error .nameTooLong
  else
    match walk [] tree parts with
    | .error e => .error e
    | .ok (file bytes) => .ok (.file bytes)
    | .ok (folder entries) => .ok (.folder (entries.map (·.1)))

end FileTree

end Tapeworks
