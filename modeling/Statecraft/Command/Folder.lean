/-! The files that a command finds. Paths are followed name by name from the working
directory or from the root; of directories above the working directory no file is
known. -/
namespace Statecraft.Command

inductive Folder.Entry where
  | file (text : String)
  | directory
deriving DecidableEq, Repr

/-- The entries of the working directory, and those known by their path from the
root. The directories on the way to an entry exist too. -/
structure Folder where
  here : List (List String × Folder.Entry)
  system : List (List String × Folder.Entry) := []
deriving DecidableEq, Repr

namespace Folder

inductive Anchor where
  | here | above | root
deriving DecidableEq, Repr

/-- The end of a path without detours. -/
structure Place where
  anchor : Anchor
  path : List String
deriving DecidableEq, Repr

inductive Refusal where
  | missing | notDirectory | nameTooLong | invalid
deriving DecidableEq, Repr

def Refusal.message : Refusal → String
  | missing => "no such file or directory"
  | notDirectory => "not a directory"
  | nameTooLong => "file name too long"
  | invalid => "invalid argument"

def ofFiles (files : List (String × String)) : Folder :=
  { here := files.map fun (name, text) => (name.splitOn "/", .file text) }

def entries (f : Folder) : Anchor → List (List String × Entry)
  | .here => f.here
  | .above => []
  | .root => f.system

def entry? (f : Folder) (p : Place) : Option Entry :=
  if p.path.isEmpty then some .directory
  else
    match (f.entries p.anchor).lookup p.path with
    | some entry => some entry
    | none =>
        if (f.entries p.anchor).any (p.path.isPrefixOf ·.1) then some .directory else none

/-- The directory that a place is in; the root is in itself. -/
def parent (p : Place) : Place :=
  if !p.path.isEmpty then { p with path := p.path.dropLast }
  else if p.anchor = .root then p
  else ⟨.above, []⟩

/-- How many bytes a name may have. -/
def nameLimit : Nat := 255

/-- How many bytes a path has to stay below. -/
def pathLimit : Nat := 4096

/-- Follows names. Whatever is not the end of the path has to be a directory. -/
def walk (f : Folder) (p : Place) : List String → Except Refusal Place
  | [] => .ok p
  | name :: rest =>
      match f.entry? p with
      | none => .error .missing
      | some (.file _) => .error .notDirectory
      | some .directory =>
          if name = "" ∨ name = "." then walk f p rest
          else if name = ".." then walk f (parent p) rest
          else if nameLimit < name.utf8ByteSize then .error .nameTooLong
          else walk f ⟨p.anchor, p.path ++ [name]⟩ rest

def locate (f : Folder) (path : String) : Except Refusal Place :=
  if path.toList.contains '\x00' then .error .invalid
  else if path = "" then .error .missing
  else if pathLimit ≤ path.utf8ByteSize then .error .nameTooLong
  else walk f ⟨if path.toList.head? = some '/' then .root else .here, []⟩ (path.splitOn "/")

def read (f : Folder) (path : String) : Except String String :=
  let refused (r : Refusal) : String := "open " ++ path ++ ": " ++ r.message
  match f.locate path with
  | .error r => .error (refused r)
  | .ok place =>
      match f.entry? place with
      | none => .error (refused .missing)
      | some (.file text) => .ok text
      | some .directory => .error ("read " ++ path ++ ": is a directory")

/-- Replaces the text of a file or makes a new one, if that is possible in the working
directory. -/
def write (f : Folder) (path text : String) : Folder :=
  match f.locate path with
  | .ok ⟨.here, names⟩ =>
      if f.entry? ⟨.here, names⟩ = some .directory then f
      else { f with here := (names, .file text) :: f.here.filter (·.1 ≠ names) }
  | _ => f

/-- Both paths lead to the same place. -/
def same (f : Folder) (a b : String) : Bool :=
  match f.locate a, f.locate b with
  | .ok x, .ok y => x = y
  | _, _ => false

end Folder
end Statecraft.Command
