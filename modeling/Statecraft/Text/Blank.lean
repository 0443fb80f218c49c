/-! White space in the sense of Unicode, and cutting texts at it. The cutting works
on lists of anything that can be told to be white space. -/
namespace Statecraft.Text

/-- The characters with the property White_Space. -/
def isSpace (c : Char) : Bool :=
  let n := c.toNat
  (9 ≤ n && n ≤ 13) || n = 0x20 || n = 0x85 || n = 0xa0 || n = 0x1680 ||
    (0x2000 ≤ n && n ≤ 0x200a) || n = 0x2028 || n = 0x2029 || n = 0x202f || n = 0x205f ||
    n = 0x3000

variable {α : Type}

def trim (isSpace : α → Bool) (xs : List α) : List α :=
  ((xs.dropWhile isSpace).reverse.dropWhile isSpace).reverse

def trimmed (text : String) : String := String.ofList (trim isSpace text.toList)

/-- Adds an element to the first word, or starts one. -/
def grow (x : α) : Bool → List (List α) → List (List α)
  | true, word :: rest => (x :: word) :: rest
  | _, words => [x] :: words

/-- The words between white space; the flag tells whether the list starts inside
a word. -/
def wordsOf (isSpace : α → Bool) : List α → Bool × List (List α)
  | [] => (false, [])
  | x :: rest =>
      let (inside, words) := wordsOf isSpace rest
      if isSpace x then (false, words) else (true, grow x inside words)

def words (isSpace : α → Bool) (xs : List α) : List (List α) := (wordsOf isSpace xs).2

end Statecraft.Text
