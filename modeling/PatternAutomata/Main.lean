/-
  The command line: reads the options, runs the tool and writes its report.
-/
import PatternAutomata.Tool.Report

open PatternAutomata

def main (args : List String) : IO UInt32 := do
  match Tool.Options.ofArguments? args with
  | none =>
    IO.eprintln "usage: [-N] [-D] [-d] [--dump-tokens] [--dump-postfix] [--dump-automaton] PATTERN [INPUT]"
    return 1
  | some options =>
    let report := options.run
    IO.eprint report.stderr
    IO.print report.stdout
    return report.status.toUInt32
