/-
  Quoted text in messages: a string between double quotes or a character
  between single ones. The delimiter, the backslash, line end, carriage return,
  tab and NUL are written as escapes of two characters, and any other character
  that does not print by its number; all else stands for itself.
-/
import PatternAutomata.Text.Printing

namespace PatternAutomata

namespace Quoted

/-- What stands behind the backslash for a character with an escape of two characters. -/
def shorthand? (delimiter c : Char) : Option Char :=
  if c = delimiter ∨ c = '\\' then some c
  else match c with
    | '\n' => some 'n'
    | '\r' => some 'r'
    | '\t' => some 't'
    | '\x00' => some '0'
    | _ => none

/-- A character by its code point, in hexadecimal. -/
def byNumber (c : Char) : List Char := ['\\', 'u', '{'] ++ Nat.toDigits 16 c.toNat ++ ['}']

/-- A character as it stands between two delimiters. -/
def escape [Printing] (delimiter c : Char) : List Char :=
  match shorthand? delimiter c with
  | some letter => ['\\', letter]
  | none => if Printing.prints c then [c] else byNumber c

/-- Characters between two delimiters. -/
def between [Printing] (delimiter : Char) (cs : List Char) : String :=
  String.ofList (delimiter :: cs.flatMap (escape delimiter) ++ [delimiter])

end Quoted

/-- A string between double quotes. -/
def quoteString [Printing] (s : String) : String := Quoted.between '"' s.toList

/-- A character between single quotes. -/
def quoteChar [Printing] (c : Char) : String := Quoted.between '\'' [c]

end PatternAutomata
