import Statecraft.Command.History

/-! Lines as they are typed into the debugger. A line is taken up in pieces of a
bounded number of bytes, and each piece is a command of its own. -/
namespace Statecraft.Command.Typed

open Text (Glyph)

/-- How many bytes are taken up at once. -/
def room : Nat := 4096

/-- The first piece of a long line, and the rest. A carriage return at the end of
the piece is left for the next one, because a newline might follow. -/
def piece (line : List Glyph) : List Glyph × List Glyph :=
  let (front, back) := Glyph.cut room line
  if front.getLast? = some (.char '\r') then (front.dropLast, .char '\r' :: back)
  else (front, back)

/-- The pieces of a line; there are no more than `fuel`. -/
def piecesOf : Nat → List Glyph → List (List Glyph)
  | 0, _ => []
  | fuel + 1, line =>
      if Glyph.sizeAll line < room then [line]
      else
        let (front, back) := piece line
        front :: piecesOf fuel back

/-- The pieces of a line. Each takes at least one byte. -/
def pieces (line : String) : List (List Glyph) :=
  piecesOf (line.utf8ByteSize + 1) (Glyph.ofString line)

def lines (input : String) : List (List Glyph) := (History.linesOf input).flatMap pieces

end Statecraft.Command.Typed
