/-
  Characters that cannot be seen, and how any character is named by number.
-/
namespace PatternAutomata

/-- Whether a character is one of the 65 control characters: those below the blank, and those from
delete to just below the no-break space. -/
def isControl (c : Char) : Bool := c.toNat < 0x20 || (0x7f ≤ c.toNat && c.toNat < 0xa0)

/-- A character by its code point: at least four hexadecimal digits, in capitals. -/
def codePoint (c : Char) : String :=
  "U+" ++ String.ofList (((Nat.toDigits 16 c.toNat).map Char.toUpper).leftpad 4 '0')

end PatternAutomata
