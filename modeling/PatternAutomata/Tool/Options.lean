/-
  Command line options. Arguments are read from left to right: `--` ends the
  flags, other arguments that start with a dash are flags, all else is
  positional. The first positional argument is the pattern. A flag may be given
  once, in its short or its long form; there must be a pattern.
-/
import PatternAutomata.Output

namespace PatternAutomata

namespace Tool

/-- The switches of the tool. -/
inductive Flag where
  | nfa
  | dfa
  | minDfa
  | dumpTokens
  | dumpPostfix
  | dumpAutomaton
deriving DecidableEq

namespace Flag

/-- The flag with a one-letter name. -/
def ofLetter? : Char → Option Flag
  | 'N' => some nfa
  | 'D' => some dfa
  | 'd' => some minDfa
  | _ => none

/-- The flag with a long name. -/
def ofWord? : String → Option Flag
  | "nfa" => some nfa
  | "dfa" => some dfa
  | "minidfa" => some minDfa
  | "dump-tokens" => some dumpTokens
  | "dump-postfix" => some dumpPostfix
  | "dump-automaton" => some dumpAutomaton
  | _ => none

end Flag

/-- What the command line asks for. -/
structure Options where
  pattern : String
  inputs : List String := []
  flags : List Flag := []

/-- The most processed automaton that a flag asks for; the fragment if none does. -/
def Options.output (o : Options) : Output :=
  if .minDfa ∈ o.flags then .minDfa else if .dfa ∈ o.flags then .dfa else .nfa

/-- Arguments sorted into flags and positionals, both in order. -/
structure Arguments where
  flags : List Flag := []
  positionals : List String := []

/-- The flags that one argument with a leading dash stands for, if all are known.
After two dashes or more comes a long name, of which what follows an equals sign is ignored. -/
def flagsOf? (arg : List Char) : Option (List Flag) :=
  match arg with
  | '-' :: '-' :: rest =>
    (Flag.ofWord? (String.ofList ((rest.dropWhile (· = '-')).takeWhile (· ≠ '=')))).map ([·])
  | _ :: letters => letters.mapM Flag.ofLetter?
  | [] => none

/-- Sort arguments; none if a flag is unknown. -/
def Arguments.read? : List String → Option Arguments
  | [] => some {}
  | arg :: args =>
    if arg = "--" then some { positionals := args }
    else if arg.startsWith "-" && arg ≠ "-" then do
      let flags ← flagsOf? arg.toList
      let later ← read? args
      return { later with flags := flags ++ later.flags }
    else do
      let later ← read? args
      return { later with positionals := arg :: later.positionals }

/-- The options that arguments stand for; none if they are not usable. -/
def Options.ofArguments? (args : List String) : Option Options := do
  let { flags, positionals } ← Arguments.read? args
  match positionals with
  | pattern :: inputs => if flags.Nodup then some { pattern, inputs, flags } else none
  | [] => none

end Tool

end PatternAutomata
