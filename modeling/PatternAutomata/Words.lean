/-
  Enumerating words: all words over an alphabet up to a length, round by round.
-/
namespace PatternAutomata

/-- Every word extended by every letter, in the order of the words. -/
def extendWords (alphabet : List String) (words : List String) : List String :=
  words.flatMap fun w => alphabet.map (w ++ ·)

/-- The words of at most `n` letters that extend the given ones, shorter words first. -/
def wordsFrom (alphabet : List String) : Nat → List String → List String
  | 0, words => words
  | n + 1, words => words ++ wordsFrom alphabet n (extendWords alphabet words)

/-- The words of at most `n` letters over an alphabet, shorter words first. -/
def wordsUpTo (alphabet : List String) (n : Nat) : List String := wordsFrom alphabet n [""]

end PatternAutomata
