import Chomsky.Text.Printable

/-!
# Quoted texts

The form in which a message quotes a text: between quotation marks on one line, with every
character that could not be read back from its shape written as an escape.
-/

namespace Chomsky.Text

/-- The lower-case hexadecimal digit of a value below sixteen. -/
def hexDigit (value : Nat) : Char :=
  if value < 10 then Char.ofNat (48 + value) else Char.ofNat (87 + value)

/-- The last `width` hexadecimal digits of a number, the most significant first. -/
def hexDigits : Nat → Nat → List Char
  | 0, _ => []
  | width + 1, number => hexDigits width (number / 16) ++ [hexDigit (number % 16)]

/-- A character written by its code point, with two, four or eight digits. -/
def codePointEscape (c : Char) : List Char :=
  if c.toNat < 0x100 then '\x5c' :: 'x' :: hexDigits 2 c.toNat
  else if c.toNat < 0x10000 then '\x5c' :: 'u' :: hexDigits 4 c.toNat
  else '\x5c' :: 'U' :: hexDigits 8 c.toNat

/-- One character inside a quoted text. The backslash and the quotation mark in use are preceded
by a backslash, the usual blanks have letters, other hidden characters are escaped. -/
def quotedChar (mark c : Char) : List Char :=
  if c = '\x5c' ∨ c = mark then ['\x5c', c]
  else if c = '\t' then ['\x5c', 't']
  else if c = '\n' then ['\x5c', 'n']
  else if c = '\r' then ['\x5c', 'r']
  else if isPrintable c then [c]
  else codePointEscape c

/-- The quotation mark in use: a single mark, unless the text holds single marks and no double
one. -/
def quotationMark (chars : List Char) : Char :=
  if '\x27' ∈ chars ∧ '\x22' ∉ chars then '\x22' else '\x27'

/-- A text between quotation marks. -/
def quoted (text : String) : String :=
  let mark := quotationMark text.toList
  String.ofList (mark :: text.toList.flatMap (quotedChar mark) ++ [mark])

end Chomsky.Text
