/-
  Subset construction. A state of the deterministic automaton stands for a
  configuration, a set of fragment states closed under epsilon moves; it is
  known by its key, the ascending identifiers of those states. States are made
  and expanded in one order, from that of the start on, symbol by symbol.
-/
import Std.Data.HashMap
import PatternAutomata.Nfa
import PatternAutomata.Automaton.Numbering
import PatternAutomata.Automaton.Simulation

namespace PatternAutomata

/-- A set of fragment states: its members in order of discovery, and their identifiers ascending. -/
structure Configuration where
  members : List Nat
  key : List Nat
deriving DecidableEq

/-- The configuration of the states that epsilon moves lead to from `seeds`. -/
def Diagram.configuration (d : Diagram) (numbering : Numbering) (seeds : List Nat) :
    Configuration :=
  let r := d.enterClosure (Roster.blank d.states.size) seeds
  { members := r.order.toList
    key := (List.range' 1 numbering.size).filter fun i => (numbering.handle? i).any r.contains }

/-- A deterministic automaton with the configuration of each of its states. -/
structure Dfa extends Automaton where
  configurations : Array Configuration := #[]
deriving DecidableEq

/-- The identifiers of the fragment states that a state stands for. -/
def Dfa.key (d : Dfa) (h : Nat) : List Nat := (d.configurations[h]?.map Configuration.key).getD []

/-- A subset construction under way: what is made so far, and which state is made for which key. -/
structure Subsets where
  dfa : Dfa := {}
  made : Std.HashMap (List Nat) Nat := {}

namespace Subsets

/-- Make a state for a configuration, marked as its members are; accepting states are listed. -/
def make (n : Nfa) (s : Subsets) (k : Configuration) : Subsets :=
  let h := s.dfa.states.size
  let isStart := k.members.any fun q => (n.state q).isStart
  let isAccept := k.members.any fun q => (n.state q).isAccept
  { dfa := { s.dfa with
      toDiagram := s.dfa.toDiagram.addState { isStart, isAccept }
      accepting := if isAccept then s.dfa.accepting ++ [h] else s.dfa.accepting
      configurations := s.dfa.configurations.push k }
    made := s.made.insert k.key h }

/-- Add a move between states. -/
def link (s : Subsets) (source target : Nat) (c : Char) : Subsets :=
  { s with dfa.toDiagram := s.dfa.toDiagram.addMove source target (.symbol c) }

/-- Give state `h` its move on symbol `c`, if its members have one; make the target if need be. -/
def extend (n : Nfa) (numbering : Numbering) (h : Nat) (members : List Nat)
    (s : Subsets) (c : Char) : Subsets :=
  match n.followAll members (.symbol c) with
  | [] => s
  | seeds =>
    let k := n.configuration numbering seeds
    match s.made[k.key]? with
    | some target => s.link h target c
    | none =>
      let target := s.dfa.states.size
      (s.make n k).link h target c

/-- Give state `h` all its moves. -/
def expand (n : Nfa) (numbering : Numbering) (s : Subsets) (h : Nat) : Subsets :=
  match s.dfa.configurations[h]? with
  | some k => n.alphabet.foldl (extend n numbering h k.members) s
  | none => s

/-- Expand states from `h` on, those made on the way included; at most `fuel` of them. -/
def expandFrom (n : Nfa) (numbering : Numbering) : Nat → Nat → Subsets → Subsets
  | 0, _, s => s
  | fuel + 1, h, s =>
    if h < s.dfa.states.size then expandFrom n numbering fuel (h + 1) (expand n numbering s h)
    else s

/-- Expanding the states from `h` on, each once and in order, comes to an end with `t`. -/
inductive Expands (n : Nfa) (numbering : Numbering) : Nat → Subsets → Subsets → Prop where
  | done {h : Nat} {s : Subsets} : h = s.dfa.states.size → Expands n numbering h s s
  | more {h : Nat} {s t : Subsets} :
    h < s.dfa.states.size → Expands n numbering (h + 1) (expand n numbering s h) t →
      Expands n numbering h s t

/-- The construction with only the start made. -/
def initial (n : Nfa) (numbering : Numbering) : Subsets :=
  make n {} (n.configuration numbering [n.start])

end Subsets

/-- The deterministic automaton of a fragment. `k` states have at most `2 ^ k` configurations. -/
def Dfa.ofNfa (n : Nfa) : Dfa :=
  let numbering := n.automaton.numbering
  (Subsets.expandFrom n numbering (Nat.pow 2 n.states.size) 0 (Subsets.initial n numbering)).dfa

end PatternAutomata
