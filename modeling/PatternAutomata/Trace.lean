/-
  What is reported while a pattern is compiled and drawn. Each finished stage
  leaves an event or several; a stage that fails leaves none.
-/
import PatternAutomata.Regex
import PatternAutomata.Text.Quoted

namespace PatternAutomata

/-- How much detail an event belongs to. -/
inductive Verbosity where
  | debug
  | trace
deriving DecidableEq

/-- The name of a verbosity in records. -/
def Verbosity.name : Verbosity → String
  | debug => "DEBUG"
  | trace => "TRACE"

/-- What is reported of a finished stage. -/
inductive Event where
  /-- The tokens are in postfix order. -/
  | ordered (tokens : Nat)
  /-- The pattern has this postfix order. -/
  | parsed (pattern : String) (order : Postfix)
  /-- The fragment is built. -/
  | built (states moves symbols : Nat)
  /-- A state of the deterministic automaton is made for a key. -/
  | discovered (handle : Nat) (key : List Nat)
  /-- The deterministic automaton is complete. -/
  | determinized (states moves accepting : Nat)
  /-- The description is complete. -/
  | described (statements : Nat)
deriving DecidableEq

namespace Event

/-- The verbosity of an event. -/
def verbosity : Event → Verbosity
  | ordered _ | discovered _ _ | described _ => .trace
  | parsed _ _ | built _ _ _ | determinized _ _ _ => .debug

/-- The wording of an event. -/
def message [Printing] : Event → String
  | ordered tokens => "postfix: " ++ toString tokens ++ " tokens"
  | parsed pattern order => "postfix of " ++ quoteString pattern ++ ": " ++ order.text
  | built states moves symbols =>
    "NFA: " ++ toString states ++ " states, " ++ toString moves ++ " moves, alphabet of " ++
      toString symbols
  | discovered handle key =>
    "DFA state " ++ toString handle ++ " = NFA [" ++ ", ".intercalate (key.map toString) ++ "]"
  | determinized states moves accepting =>
    "DFA: " ++ toString states ++ " states, " ++ toString moves ++ " moves, " ++
      toString accepting ++ " accepting"
  | described statements => "graph: " ++ toString statements ++ " statements"

end Event

/-- The event of a fragment. -/
def Nfa.events (n : Nfa) : List Event := [.built n.states.size n.moves.size n.alphabet.length]

/-- The events of a deterministic automaton: one per state but the start, then one for the whole. -/
def Dfa.events (d : Dfa) : List Event :=
  (List.range' 1 (d.states.size - 1)).map (fun h => .discovered h (d.key h)) ++
    [.determinized d.states.size d.moves.size d.accepting.length]

/-- The event of a description. -/
def Graph.events (g : Graph) : List Event := [.described g.statements.length]

/-- An outcome with the events that led to it. -/
structure Traced (α : Type) where
  events : List Event
  result : Except Error α

namespace Traced

/-- A stage that leaves events if it succeeds. -/
def ofStage {α : Type} (result : Except Error α) (events : α → List Event) : Traced α :=
  match result with
  | .ok a => { events := events a, result }
  | .error _ => { events := [], result }

/-- A stage and, if it succeeds, the next one. -/
def andThen {α β : Type} (t : Traced α) (next : α → Traced β) : Traced β :=
  match t.result with
  | .ok a => { events := t.events ++ (next a).events, result := (next a).result }
  | .error e => { events := t.events, result := .error e }

theorem ofStage_result {α : Type} (result : Except Error α) (events : α → List Event) :
    (ofStage result events).result = result := by
  cases result <;> rfl

theorem andThen_result {α β : Type} (t : Traced α) (next : α → Traced β) :
    (t.andThen next).result = t.result.bind fun a => (next a).result := by
  unfold andThen
  cases t.result <;> rfl

end Traced

namespace Regex

/-- Compile a pattern and report on it. -/
def traceOfPattern (pattern : String) : Traced Regex :=
  (Traced.ofStage (Postfix.ofPattern pattern) fun p => [.ordered p.size, .parsed pattern p]).andThen
    fun p => Traced.ofStage ((Nfa.ofPostfix p).map Regex.mk) fun r => r.nfa.events

/-- Describe the automaton asked for and report on it. -/
def traceGraph (r : Regex) (output : Output) : Traced Graph :=
  Traced.ofStage (r.graph output) fun g => (if output = .dfa then r.dfa.events else []) ++ g.events

/-- Compile a pattern and describe the automaton that is asked for by name. -/
def traceRequest (pattern outputName : String) : Traced Graph :=
  (traceOfPattern pattern).andThen fun r =>
    (Traced.ofStage (Output.ofName outputName) fun _ => []).andThen r.traceGraph

/-- Reporting changes nothing: the outcome is that of compiling alone. -/
theorem traceOfPattern_result (pattern : String) :
    (traceOfPattern pattern).result = ofPattern pattern := by
  unfold traceOfPattern ofPattern
  rw [Traced.andThen_result, Traced.ofStage_result]
  cases Postfix.ofPattern pattern with
  | error e => rfl
  | ok p =>
    cases h : Nfa.ofPostfix p <;>
      simp [Except.bind, Except.map, bind, pure, Except.pure, Traced.ofStage, h]

end Regex

end PatternAutomata
