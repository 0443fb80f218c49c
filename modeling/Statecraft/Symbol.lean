import Statecraft.Value
import Statecraft.Position

/-! The names of a program. States, variables and constants share one flat
namespace, in which every name is declared once. -/
namespace Statecraft

inductive SymbolKind where
  | state | mutable | constant
  | unlisted (code : Int)
deriving DecidableEq, Repr, Inhabited

namespace SymbolKind

def all : List SymbolKind := [state, mutable, constant]

def ofCode : Int → SymbolKind
  | 0 => state
  | 1 => mutable
  | 2 => constant
  | code => unlisted code

def name : SymbolKind → String
  | state => "state"
  | mutable => "variable"
  | constant => "constant"
  | unlisted _ => "unknown"

def canAssign (k : SymbolKind) : Bool := k = mutable

def hasValue (k : SymbolKind) : Bool := k = mutable || k = constant

end SymbolKind

structure Symbol where
  name : String
  kind : SymbolKind
  /-- The type of its values; invalid for states and after a bad initializer. -/
  type : Ty
  span : Selection
  /-- Whether the name was looked up. -/
  used : Bool := false
deriving DecidableEq, Repr

/-- Kind, name, type and place; a state has no type. -/
def Symbol.text (s : Symbol) : String :=
  if s.kind = .state then s.kind.name ++ " " ++ s.name ++ " at " ++ s.span.text
  else s.kind.name ++ " " ++ s.name ++ ": " ++ s.type.name ++ " at " ++ s.span.text

structure Symbols where
  entries : List Symbol
deriving DecidableEq, Repr

/-- A name is taken by the symbol given. -/
structure Redeclared where
  taken : Symbol

def Redeclared.message (e : Redeclared) : String :=
  "symbol already declared: " ++ e.taken.kind.name ++ " " ++ e.taken.name ++ " at " ++
    e.taken.span.text

namespace Symbols

def empty : Symbols := ⟨[]⟩

def find? (t : Symbols) (name : String) : Option Symbol := t.entries.find? (·.name = name)

def index? (t : Symbols) (name : String) : Option Nat := t.entries.findIdx? (·.name = name)

def contains (t : Symbols) (name : String) : Bool := (t.find? name).isSome

/-- Adds a symbol at the end unless its name is taken. -/
def define (t : Symbols) (s : Symbol) : Except Redeclared Symbols :=
  match t.find? s.name with
  | some taken => .error ⟨taken⟩
  | none => .ok ⟨t.entries ++ [{ s with used := false }]⟩

def use (t : Symbols) (name : String) : Symbols :=
  ⟨t.entries.map fun s => if s.name = name then { s with used := true } else s⟩

def useAll (t : Symbols) (names : List String) : Symbols := names.foldl use t

def ofKind (t : Symbols) (kind : SymbolKind) : List Symbol := t.entries.filter (·.kind = kind)

/-- The variables and constants that were never looked up. -/
def unused (t : Symbols) : List Symbol := t.entries.filter fun s => s.kind.hasValue && !s.used

def text (t : Symbols) : String := String.join (t.entries.map fun s => s.text ++ "\n")

end Symbols
end Statecraft
