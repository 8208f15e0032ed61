import PatternAutomata.Token
import PatternAutomata.Token.Lexer
import PatternAutomata.Token.Stream
import PatternAutomata.Error
import PatternAutomata.Postfix
import PatternAutomata.Postfix.Yard
import PatternAutomata.Postfix.OperatorStack
import PatternAutomata.Postfix.Evaluation
import PatternAutomata.Expr
import PatternAutomata.Expr.Language
import PatternAutomata.Expr.Grammar
import PatternAutomata.Text.CodePoint
import PatternAutomata.Text.Printing
import PatternAutomata.Text.Quoted
import PatternAutomata.Automaton
import PatternAutomata.Automaton.Roster
import PatternAutomata.Automaton.Numbering
import PatternAutomata.Automaton.Path
import PatternAutomata.Automaton.Consistent
import PatternAutomata.Automaton.Simulation
import PatternAutomata.Automaton.Dump
import PatternAutomata.Nfa
import PatternAutomata.Nfa.OnePass
import PatternAutomata.Nfa.Workbench
import PatternAutomata.Compact
import PatternAutomata.Compact.Nfa
import PatternAutomata.Dfa
import PatternAutomata.Dfa.Worklist
import PatternAutomata.Dfa.Closures
import PatternAutomata.Dfa.Construction
import PatternAutomata.Renaming
import PatternAutomata.Graph
import PatternAutomata.Graph.Dot
import PatternAutomata.Output
import PatternAutomata.Regex
import PatternAutomata.Trace
import PatternAutomata.Words
import PatternAutomata.Tool.Options
import PatternAutomata.Tool.Report
import PatternAutomata.Main
import PatternAutomata.Proofs.Conversion
import PatternAutomata.Proofs.Parsing
import PatternAutomata.Proofs.Evaluation
import PatternAutomata.Proofs.Nesting
import PatternAutomata.Proofs.Compilation
import PatternAutomata.Proofs.Paths
import PatternAutomata.Proofs.Simulation
import PatternAutomata.Proofs.Building
import PatternAutomata.Proofs.Consistency
import PatternAutomata.Proofs.Absorption
import PatternAutomata.Proofs.Fragments
import PatternAutomata.Proofs.Layout
import PatternAutomata.Proofs.Operands
import PatternAutomata.Proofs.Matching
import PatternAutomata.Proofs.Determinization
import PatternAutomata.Proofs.Shape
import PatternAutomata.Proofs.SubsetAutomaton
import PatternAutomata.Proofs.Trim
import PatternAutomata.Proofs.Incidence
import PatternAutomata.Proofs.Drawing
import PatternAutomata.Proofs.Renaming
import PatternAutomata.Proofs.Reporting
import PatternAutomata.Proofs.Entries
import PatternAutomata.Proofs.Worklist
import PatternAutomata.Proofs.StateCount
import PatternAutomata.Proofs.Scopes
import PatternAutomata.Proofs.BreadthFirst
import PatternAutomata.Proofs.CanonicalOrder
import PatternAutomata.Proofs.Decoding
import PatternAutomata.Proofs.Lexing
import PatternAutomata.Proofs.Alphabets
import PatternAutomata.Proofs.Sizes
import PatternAutomata.Proofs.Compact
import PatternAutomata.Proofs.Overflow
import PatternAutomata.Proofs.Codes
import PatternAutomata.Proofs.DotText
import PatternAutomata.Proofs.Listing
import PatternAutomata.Proofs.Closures
import PatternAutomata.Proofs.OperatorStack
import PatternAutomata.Proofs.Quoting
import PatternAutomata.Proofs.Construction
