/-
  Subset construction with a queue in a queue. The states of the automaton wait
  to be expanded, and while one is expanded, the states that a symbol leads to
  are closed by a queue of their own (`Visit`), whether there are any or not. An
  empty closure gives no move.
-/
import PatternAutomata.Dfa.Closures
import PatternAutomata.Dfa.Worklist

namespace PatternAutomata

namespace Worklist

/-- Give state `h` a move on symbol `c` to the state for a closure, unless the closure is empty. If the
target is to be made, it waits behind all others. -/
def join (n : Nfa) (h : Nat) (w : Worklist) (c : Char) (k : Configuration) : Worklist :=
  if k.members.isEmpty then w
  else match w.made[k.key]? with
    | some target => { w with toSubsets := w.link h target c }
    | none =>
      let target := w.dfa.states.size
      { toSubsets := (w.make n k).link h target c
        waiting := w.waiting ++ [(k.members, target)] }

/-- Giving state `h` its moves on symbols, each closure taken from its queue, ends with `v`. -/
inductive Joins (n : Nfa) (numbering : Numbering) (h : Nat) (members : List Nat) :
    Worklist → List Char → Worklist → Prop where
  | done {w : Worklist} : Joins n numbering h members w [] w
  | more {w v : Worklist} {c : Char} {cs : List Char} {k : Configuration} :
    n.Visits numbering (n.followAll members (.symbol c)) k →
      Joins n numbering h members (w.join n h c k) cs v → Joins n numbering h members w (c :: cs) v

/-- Expanding the first state that waits, again and again until none does, ends with `s`. -/
inductive Runs (n : Nfa) (numbering : Numbering) : Worklist → Subsets → Prop where
  | done {w : Worklist} : w.waiting = [] → Runs n numbering w w.toSubsets
  | more {w v : Worklist} {s : Subsets} {h : Nat} {members : List Nat}
      {waiting : List (List Nat × Nat)} :
    w.waiting = (members, h) :: waiting →
      Joins n numbering h members { w with waiting } n.alphabet v → Runs n numbering v s →
        Runs n numbering w s

/-- Only a state for a configuration is made, and it waits. -/
def start (n : Nfa) (k : Configuration) : Worklist where
  toSubsets := Subsets.make n {} k
  waiting := [(k.members, 0)]

end Worklist

/-- Closing the start and expanding what waits, from there on, ends with the automaton. -/
def Nfa.Determinizes (n : Nfa) (d : Dfa) : Prop :=
  ∃ k s, n.Visits n.automaton.numbering [n.start] k ∧
    Worklist.Runs n n.automaton.numbering (Worklist.start n k) s ∧ s.dfa = d

end PatternAutomata
