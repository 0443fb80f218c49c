import Statecraft.Text.Blank
import Statecraft.Text.Quoted

/-! Text that may have been cut inside a character. Such a text holds characters,
and the bytes of those characters that it does not hold as a whole. -/
namespace Statecraft.Text

/-- A character or a byte that is left of one. -/
inductive Glyph where
  | char (c : Char)
  | byte (b : UInt8)
deriving DecidableEq, Repr

namespace Glyph

def ofString (text : String) : List Glyph := text.toList.map char

def text? (glyphs : List Glyph) : Option String :=
  (glyphs.mapM fun
    | char c => some c
    | byte _ => none).map String.ofList

def size : Glyph → Nat
  | char c => c.utf8Size
  | byte _ => 1

def sizeAll (glyphs : List Glyph) : Nat := glyphs.foldl (fun n g => n + g.size) 0

def bytes : Glyph → List UInt8
  | char c => String.utf8EncodeChar c
  | byte b => [b]

def isSpace : Glyph → Bool
  | char c => Text.isSpace c
  | byte _ => false

/-- The characters that stand for the glyph between quotes. -/
def escape : Glyph → List Char
  | char c => Text.escape c
  | byte b => '\\' :: 'x' :: hex 2 b.toNat

def quoted (glyphs : List Glyph) : String :=
  String.ofList ('"' :: glyphs.flatMap escape ++ ['"'])

/-- The glyphs as a text, in which the replacement character stands for each byte. -/
def shown (glyphs : List Glyph) : String :=
  String.ofList (glyphs.map fun
    | char c => c
    | byte _ => '\uFFFD')

/-- The glyphs that fit into `room` bytes, and the rest. A character that fits only
in part falls into its bytes. -/
def cut (room : Nat) : List Glyph → List Glyph × List Glyph
  | [] => ([], [])
  | g :: rest =>
      if g.size ≤ room then
        let (front, back) := cut (room - g.size) rest
        (g :: front, back)
      else if room = 0 then ([], g :: rest)
      else ((g.bytes.take room).map byte, (g.bytes.drop room).map byte ++ rest)

end Glyph
end Statecraft.Text
