/-! Points and inclusive ranges of a source text. Lines and columns count from
one and columns count code points. Coordinates are integers, so a point shifted
out of the text keeps its value and is recognised as not valid. Every point of a
text fits 64-bit words; the moves that start anywhere wrap around in them. -/
namespace Statecraft

structure Location where
  line : Int
  column : Int
deriving DecidableEq, Repr, Inhabited

namespace Location

/-- Where the first character of every text stands. -/
def first : Location := ⟨1, 1⟩

/-- Both coordinates count from one. -/
def isValid (l : Location) : Bool := 1 ≤ l.line && 1 ≤ l.column

/-- Reading order: by line, then by column. -/
instance : LT Location :=
  ⟨fun a b => a.line < b.line ∨ (a.line = b.line ∧ a.column < b.column)⟩

instance : LE Location :=
  ⟨fun a b => a.line < b.line ∨ (a.line = b.line ∧ a.column ≤ b.column)⟩

theorem lt_def {a b : Location} :
    a < b ↔ a.line < b.line ∨ (a.line = b.line ∧ a.column < b.column) := Iff.rfl

theorem le_def {a b : Location} :
    a ≤ b ↔ a.line < b.line ∨ (a.line = b.line ∧ a.column ≤ b.column) := Iff.rfl

instance (a b : Location) : Decidable (a < b) :=
  inferInstanceAs (Decidable (_ ∨ _))

instance (a b : Location) : Decidable (a ≤ b) :=
  inferInstanceAs (Decidable (_ ∨ _))

theorem not_lt {a b : Location} : ¬ a < b ↔ b ≤ a := by
  simp only [lt_def, le_def]
  omega

def order (a b : Location) : Ordering :=
  if a < b then .lt else if b < a then .gt else .eq

/-- Moves by lines and columns, without looking at any text. -/
def shift (l : Location) (lines columns : Int) : Location :=
  ⟨l.line + lines, l.column + columns⟩

/-- The location as two 64-bit words hold it. A coordinate they have room for
stays as it is; any other one wraps around. -/
def wrap (l : Location) : Location :=
  ⟨l.line.bmod 18446744073709551616, l.column.bmod 18446744073709551616⟩

/-- Where the next character stands after reading `c` here. A newline leads to
column one of the next line. -/
def step (l : Location) (c : Char) : Location :=
  if c = '\n' then ⟨l.line + 1, 1⟩ else ⟨l.line, l.column + 1⟩

/-- Where the next character stands after reading all of `text` from here. -/
def after (l : Location) (text : List Char) : Location := text.foldl step l

@[simp] theorem after_nil (l : Location) : l.after [] = l := rfl

@[simp] theorem after_cons (l : Location) (c : Char) (text : List Char) :
    l.after (c :: text) = (l.step c).after text := rfl

theorem after_append (l : Location) (a b : List Char) :
    l.after (a ++ b) = (l.after a).after b := List.foldl_append

/-- Moves by lines and columns within 64-bit words. -/
def shifted (l : Location) (lines columns : Int) : Location := (l.shift lines columns).wrap

/-- Where the next character stands after reading all of `text` from here, within
64-bit words. Wrapping at the end is wrapping at every step, since a step adds one
or starts over. -/
def moved (l : Location) (text : List Char) : Location := (l.after text).wrap

def text (l : Location) : String := toString l.line ++ ":" ++ toString l.column

end Location

/-- A range of the source text that includes both of its ends. -/
structure Selection where
  start : Location
  stop : Location
deriving DecidableEq, Repr, Inhabited

namespace Selection

/-- The selection of a thing that has no source. -/
def absent : Selection := ⟨⟨0, 0⟩, ⟨0, 0⟩⟩

def char (l : Location) : Selection := ⟨l, l⟩

def first : Selection := char .first

def Ordered (s : Selection) : Prop := s.start ≤ s.stop

instance (s : Selection) : Decidable s.Ordered := inferInstanceAs (Decidable (_ ≤ _))

def between (a b : Location) : Selection := if b < a then ⟨b, a⟩ else ⟨a, b⟩

theorem between_ordered (a b : Location) : (between a b).Ordered := by
  unfold between Ordered
  split
  · exact Location.not_lt.mp (by simp only [Location.lt_def] at *; omega)
  · exact Location.not_lt.mp ‹_›

def contains (s : Selection) (l : Location) : Bool := !(l < s.start) && !(s.stop < l)

def hull (a b : Selection) : Selection where
  start := if b.start < a.start then b.start else a.start
  stop := if a.stop < b.stop then b.stop else a.stop

/-- The smallest range that covers all; the first character when there is none. -/
def hullAll : List Selection → Selection
  | [] => first
  | s :: rest => rest.foldl hull s

/-- Covers those of the given ranges that have a place in the source. -/
def cover (ranges : List Selection) : Selection :=
  hullAll (ranges.filter fun s => s.start.isValid)

/-- Written `l:c` for one character, `l:c-c2` on one line, else `l:c-l2:c2`. -/
def text (s : Selection) : String :=
  if s.start = s.stop then s.start.text
  else if s.start.line = s.stop.line then s.start.text ++ "-" ++ toString s.stop.column
  else s.start.text ++ "-" ++ s.stop.text

end Selection
end Statecraft
