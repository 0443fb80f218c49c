import Statecraft.Text.Printable

/-! Text in double quotes. Quotes and backslashes are escaped, well-known control
characters have short escapes, and any other character that cannot be shown is
written by its code in hexadecimal. -/
namespace Statecraft.Text

/-- Hexadecimal digits in small letters, at least `width` of them. -/
def hex (width n : Nat) : List Char :=
  let digits := Nat.toDigits 16 n
  List.replicate (width - digits.length) '0' ++ digits

/-- The escapes that have a letter of their own. -/
def shortEscape? (c : Char) : Option Char :=
  match c.toNat with
  | 7 => some 'a'
  | 8 => some 'b'
  | 12 => some 'f'
  | 10 => some 'n'
  | 13 => some 'r'
  | 9 => some 't'
  | 11 => some 'v'
  | _ => none

/-- The characters that stand for `c` between quotes. -/
def escape (c : Char) : List Char :=
  if c = '"' ∨ c = '\\' then ['\\', c]
  else if isPrintable c then [c]
  else
    match shortEscape? c with
    | some letter => ['\\', letter]
    | none =>
        if c.toNat < 0x80 then '\\' :: 'x' :: hex 2 c.toNat
        else if c.toNat < 0x10000 then '\\' :: 'u' :: hex 4 c.toNat
        else '\\' :: 'U' :: hex 8 c.toNat

def quoted (text : String) : String :=
  String.ofList ('"' :: text.toList.flatMap escape ++ ['"'])

end Statecraft.Text
