import SeriesFile.Bytes.Reader

/-!
# Files on a disk

A `Disk` is a directory of files by name, and nothing else: there are no directories in it. A path
is followed as far as it stays in the directory (`Disk.name?`).
-/

namespace SeriesFile

/-- A directory of files by name. -/
structure Disk where
  files : List (String × Bytes)
  deriving DecidableEq

namespace Disk

def empty : Disk := ⟨[]⟩

def read? (d : Disk) (name : String) : Option Bytes :=
  d.files.lookup name

/-- Gives a file new bytes, whether it was there before or not. -/
def set (d : Disk) (name : String) (bytes : Bytes) : Disk :=
  ⟨(name, bytes) :: d.files.filter fun file => file.1 ≠ name⟩

/-- Whether a file can have a name: it has at most 255 bytes, none of them zero. -/
def isName (name : String) : Bool :=
  name ≠ "" && name ≠ "." && name ≠ ".." && name.utf8ByteSize ≤ 255 &&
    name.toList.all (· ≠ '\x00')

/-- The parts of a path, which slashes set apart. -/
def parts : List Char → List (List Char)
  | [] => [[]]
  | c :: path =>
    if c = '/' then [] :: parts path
    else
      match parts path with
      | [] => [[c]]
      | part :: rest => (c :: part) :: rest

/-- The file that parts of a path lead to. The directory has no directories in it: but for the name
they are empty or a dot, which both stay in it. -/
def lastName? : List (List Char) → Option String
  | [] => none
  | [part] =>
    let name := String.ofList part
    if isName name then some name else none
  | part :: rest => if part = [] ∨ part = ['.'] then lastName? rest else none

/-- The name of the file that a path leads to. There is none if the path starts with a slash: it
then leads out of the directory, and what is there, or can be created there, the disk does not
know. -/
def name? (path : String) : Option String :=
  match path.toList with
  | '/' :: _ => none
  | path => lastName? (parts path)

/-- Bytes laid over others from a position on; what is missing before it is zero. -/
def overlay (old : Bytes) (position : Nat) (bytes : Bytes) : Bytes :=
  old.take position ++ List.replicate (position - old.length) 0 ++ bytes ++
    old.drop (position + bytes.length)

/-- Writes bytes into a file from a position on. -/
def writeAt (d : Disk) (name : String) (position : Nat) (bytes : Bytes) : Disk :=
  if bytes.isEmpty then d
  else d.set name (overlay ((d.read? name).getD []) position bytes)

end Disk

end SeriesFile
