/-
  The units of a pattern: a character that stands for itself, one of three
  operators, or a group mark. `ofChar` says which character is which; every
  character but the four reserved ones is an operand.
-/
namespace PatternAutomata

/-- What joins two patterns or repeats one. -/
inductive Operator where
  | alternation
  | concatenation
  | closure
deriving DecidableEq

namespace Operator

/-- Binding strength: alternation binds less tightly than concatenation, and that than closure. -/
def precedence : Operator → Nat
  | alternation => 102
  | concatenation => 204
  | closure => 255

/-- How many operands the operator takes. -/
def arity : Operator → Nat
  | alternation | concatenation => 2
  | closure => 1

/-- The sign shown for the operator. Concatenation, unwritten in patterns, is shown as a dot. -/
def sign : Operator → Char
  | alternation => '|'
  | concatenation => '·'
  | closure => '*'

/-- The operator's name in messages. -/
def describe : Operator → String
  | alternation => "alternation '|'"
  | concatenation => "concatenation"
  | closure => "closure '*'"

end Operator

/-- A unit of a pattern. -/
inductive Token where
  | operand (c : Char)
  | operator (op : Operator)
  | leftGroup
  | rightGroup
deriving DecidableEq

namespace Token

/-- The token that a character of a pattern stands for. -/
def ofChar : Char → Token
  | '(' => leftGroup
  | ')' => rightGroup
  | '|' => operator .alternation
  | '*' => operator .closure
  | c => operand c

/-- The character shown for a token. -/
def char : Token → Char
  | operand c => c
  | operator op => op.sign
  | leftGroup => '('
  | rightGroup => ')'

/-- A token as text: its one character. -/
def text (t : Token) : String := String.singleton t.char

/-- The binding strength of an operator; operands and group marks have none. -/
def precedence? : Token → Option Nat
  | operator op => some op.precedence
  | _ => none

/-- Whether the token is one of the three operators. -/
def isOperator (t : Token) : Bool := t.precedence?.isSome

/-- Whether the token is a group mark. -/
def isGroup : Token → Bool
  | leftGroup | rightGroup => true
  | _ => false

/-- The token's name in messages. -/
def describe : Token → String
  | operand _ => "operand"
  | operator op => op.describe
  | leftGroup => "'('"
  | rightGroup => "')'"

/-- Whether an atom can end with the token: a symbol, a repeated atom or a closed group. -/
def endsAtom : Token → Bool
  | operand _ | operator .closure | rightGroup => true
  | _ => false

/-- Whether an atom starts with the token. -/
def startsAtom : Token → Bool
  | operand _ | leftGroup => true
  | _ => false

end Token

/-- The four characters that never stand for themselves. -/
def Reserved (c : Char) : Prop := c = '(' ∨ c = ')' ∨ c = '|' ∨ c = '*'

instance : DecidablePred Reserved := fun c =>
  inferInstanceAs (Decidable (c = '(' ∨ c = ')' ∨ c = '|' ∨ c = '*'))

namespace Token

theorem ofChar_of_not_reserved {c : Char} (h : ¬ Reserved c) : ofChar c = operand c := by
  simp only [Reserved, not_or] at h
  unfold ofChar
  split <;> simp_all

/-- Each character of a pattern is shown as itself. -/
theorem char_ofChar (c : Char) : (ofChar c).char = c := by
  unfold ofChar
  split <;> simp [char, Operator.sign, *]

end Token

end PatternAutomata
