import Statecraft.Report

/-! Reports shown with the source line they are about and a mark below the
selected part of it. -/
namespace Statecraft.Report

def lines (source : String) : List String := source.splitOn "\n"

def trimReturns (line : String) : String :=
  String.ofList (line.toList.reverse.dropWhile (· = '\r')).reverse

def repeated (c : Char) (n : Nat) : String := String.ofList (List.replicate n c)

/-- How many characters of the line are marked. A selection that goes on below
marks the rest of the line. -/
def markWidth (selection : Selection) (line : String) : Nat :=
  let start := selection.start
  let stop := selection.stop
  let width : Int :=
    if stop.line = start.line ∧ start.column < stop.column then stop.column - start.column + 1
    else if start.line < stop.line then (line.length : Int) - start.column + 1
    else 1
  max width.toNat 1

/-- The line and the mark, or nothing when the selection starts outside the source. -/
def excerpt (sourceLines : List String) (selection : Selection) : String :=
  let start := selection.start
  if start.line < 1 ∨ start.column < 1 then ""
  else
    match sourceLines[start.line.toNat - 1]? with
    | none => ""
    | some raw =>
        let line := trimReturns raw
        let number := toString start.line
        let gutter := repeated ' ' number.length
        gutter ++ " |\n" ++ number ++ " | " ++ line ++ "\n" ++ gutter ++ " | " ++
          repeated ' ' (start.column.toNat - 1) ++ "^" ++
          repeated '~' (markWidth selection line - 1) ++ "\n"

def entry (descriptor : String) (sourceLines : List String) (r : Report) : String :=
  r.severity.label ++ "[" ++ r.kind.name ++ "]: " ++ r.message ++ "\n--> " ++ descriptor ++ ":" ++
    r.location.text ++ "\n" ++ excerpt sourceLines r.selection ++ "\n"

def listing (descriptor source : String) (reports : List Report) : String :=
  String.join (reports.map (entry descriptor (lines source)))

inductive ListingError where
  /-- A mark or the blanks before it take more room than there is. -/
  | tooWide
deriving DecidableEq, Repr

def ListingError.message : ListingError → String
  | tooWide => "runtime error: makeslice: len out of range"

/-- No part of an excerpt can have more characters. -/
def widthLimit : Nat := 281474976710656

/-- The excerpt of the selection can be laid out. -/
def fits (sourceLines : List String) (selection : Selection) : Bool :=
  let start := selection.start
  start.line < 1 || start.column < 1 ||
    match sourceLines[start.line.toNat - 1]? with
    | none => true
    | some raw =>
        start.column.toNat - 1 ≤ widthLimit &&
          markWidth selection (trimReturns raw) - 1 ≤ widthLimit

/-- All reports on a source, which may have selections that were not taken from it. -/
def listing? (descriptor source : String) (reports : List Report) :
    Except ListingError String :=
  if reports.all fun r => fits (lines source) r.selection then
    .ok (listing descriptor source reports)
  else .error .tooWide

end Statecraft.Report
