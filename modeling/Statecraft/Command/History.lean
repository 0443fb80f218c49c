import Statecraft.Text.Glyph

/-! The commands entered in earlier sessions, kept in a text of one command a line.
Only the latest ones are kept. -/
namespace Statecraft.Command

open Text (Glyph)

/-- The commands, the oldest first. -/
structure History where
  entries : List (List Glyph)
deriving DecidableEq, Repr

namespace History

def empty : History := ⟨[]⟩

def limit : Nat := 1000

/-- A line with this many bytes or more is not read, nor is any line after it. -/
def lineLimit : Nat := 4096

/-- Keeps the latest commands. -/
def keepLatest (entries : List (List Glyph)) : History := ⟨entries.drop (entries.length - limit)⟩

/-- Adds a command unless it repeats the last one. -/
def append (h : History) (command : List Glyph) : History :=
  if h.entries.getLast? = some command then h else keepLatest (h.entries ++ [command])

def linesOf (text : String) : List String :=
  let pieces := text.splitOn "\n"
  if pieces.getLast? = some "" then pieces.dropLast else pieces

def withoutReturn (line : String) : String :=
  match line.toList.reverse with
  | '\r' :: rest => String.ofList rest.reverse
  | _ => line

/-- Reads a kept text. A carriage return counts as part of a newline only before one. -/
def read (text : String) : History :=
  let lines := (linesOf text).takeWhile (·.utf8ByteSize < lineLimit)
  let closed := text.toList.getLast? = some '\n' || lines.length < (linesOf text).length
  let entries :=
    if closed then lines.map withoutReturn
    else lines.dropLast.map withoutReturn ++ lines.getLast?.toList
  keepLatest (entries.map Glyph.ofString)

def glyphs (h : History) : List Glyph := h.entries.flatMap (· ++ [.char '\n'])

def bytes (h : History) : List UInt8 := h.glyphs.flatMap Glyph.bytes

def text (h : History) : String := Glyph.shown h.glyphs

end History
end Statecraft.Command
