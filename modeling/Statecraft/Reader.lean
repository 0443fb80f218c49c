import Statecraft.Token.Scan

/-! Reading tokens one at a time, with bookmarks to return to. Tokens are pulled
from the lexemes only when the cursor reaches them, and a stray character is
handed out at that moment. The window keeps the pulled tokens from the oldest
live bookmark or the cursor on. -/
namespace Statecraft

structure Bookmark where
  /-- The reader it was taken from. -/
  owner : Nat
  /-- Distinguishes the bookmarks of one reader. -/
  serial : Nat
  /-- The index of the token the cursor stood at. -/
  index : Nat
deriving DecidableEq, Repr

inductive BookmarkError where
  | foreign
  | discarded
deriving DecidableEq, Repr

def BookmarkError.message : BookmarkError → String
  | .foreign => "lexer: bookmark belongs to another reader"
  | .discarded => "lexer: backtrack to discarded bookmark"

/-- A cursor into the significant tokens of one source text. -/
structure Reader where
  /-- Tells readers apart. -/
  id : Nat
  /-- What has not been pulled yet. -/
  pending : List Lexeme
  /-- Where the first character not pulled yet stands. -/
  frontier : Location
  /-- The pulled tokens that can still be read. -/
  window : List Token
  /-- The index of the first token of the window. -/
  base : Nat
  /-- The index of the current token. -/
  cursor : Nat
  /-- The live bookmarks, oldest first. -/
  marks : List Bookmark
  /-- How many bookmarks were taken so far. -/
  issued : Nat

namespace Reader

def atEnd (r : Reader) : Bool := r.base + r.window.length ≤ r.cursor

def current? (r : Reader) : Option Token :=
  if r.cursor < r.base then none else r.window[r.cursor - r.base]?

/-- The range of the current token, or the character just past the source. -/
def selection (r : Reader) : Selection :=
  match r.current? with
  | some t => t.span
  | none => .char r.frontier

def location (r : Reader) : Location := r.selection.start

/-- What lies between the pulled text and the next significant token. -/
structure Pull where
  /-- The characters passed that belong to no token. -/
  strays : List Stray
  /-- The token found, unless the source ended. -/
  token? : Option Token
  /-- What remains after it. -/
  pending : List Lexeme
  /-- Where that remainder starts. -/
  frontier : Location

/-- Pulls lexemes up to and including the next significant token. -/
def pull (frontier : Location) : List Lexeme → Pull
  | [] => ⟨[], none, [], frontier⟩
  | x :: rest =>
      match x.significant? with
      | some t => ⟨[], some t, rest, x.next⟩
      | none =>
          let found := pull x.next rest
          { found with strays := x.stray?.toList ++ found.strays }

/-- Makes sure the token at the cursor is in the window, if there is one. -/
def fill (r : Reader) : Reader × List Stray :=
  if r.atEnd then
    let found := pull r.frontier r.pending
    ({ r with
        pending := found.pending, frontier := found.frontier
        window := r.window ++ found.token?.toList }, found.strays)
  else (r, [])

/-- The smallest index that the cursor or a live bookmark can still reach. -/
def oldest (r : Reader) : Nat := (r.marks.map Bookmark.index).foldl min r.cursor

def prune (r : Reader) : Reader :=
  let dropped := min (r.oldest - r.base) r.window.length
  { r with window := r.window.drop dropped, base := r.base + dropped }

/-- A reader at the first token of the lexemes, and the strays before it. -/
def start (id : Nat) (lexemes : List Lexeme) : Reader × List Stray :=
  fill ⟨id, lexemes, .first, [], 0, 0, [], 0⟩

/-- Moves to the next token and hands out the strays on the way. At the end of
the source there is nothing to move to. -/
def advance? (r : Reader) : Option (Reader × List Stray) :=
  if r.atEnd then none
  else
    let (filled, strays) := fill { r with cursor := r.cursor + 1 }
    some (filled.prune, strays)

def advanceMany : Nat → Reader → Nat × Reader × List Stray
  | 0, r => (0, r, [])
  | n + 1, r =>
      match r.advance? with
      | none => (0, r, [])
      | some (next, strays) =>
          let (moved, last, more) := advanceMany n next
          (moved + 1, last, strays ++ more)

/-- Reads whatever is left. Each move takes a token of the window or at least
one pending lexeme, so their number bounds the moves. -/
def drain (r : Reader) : Reader × List Stray :=
  (advanceMany (r.window.length + r.pending.length) r).2

def bookmark (r : Reader) : Bookmark × Reader :=
  let mark : Bookmark := ⟨r.id, r.issued, r.cursor⟩
  (mark, { r with marks := r.marks ++ [mark], issued := r.issued + 1 })

/-- Returns to a live bookmark of this reader, which stays live. -/
def backtrack (r : Reader) (mark : Bookmark) : Except BookmarkError Reader :=
  if mark.owner ≠ r.id then .error .foreign
  else if mark ∉ r.marks then .error .discarded
  else .ok { r with cursor := mark.index }

/-- Releases a bookmark. Releasing it again changes nothing. -/
def discard (r : Reader) (mark : Bookmark) : Reader :=
  if mark ∈ r.marks then prune { r with marks := r.marks.erase mark } else r

def locate (r : Reader) (mark : Bookmark) : Location :=
  if r.base ≤ mark.index then
    match r.window[mark.index - r.base]? with
    | some t => t.span.start
    | none => r.frontier
  else r.frontier

end Reader
end Statecraft
