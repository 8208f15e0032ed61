/-
  Reports over all options. A report is an answer with dumps put before its messages
  (`run_eq_answer`), and the answer depends on the pattern, the inputs and the output
  asked for: not on the flags for dumps, and not on the automaton that the inputs are
  matched with. An error is the same wherever it comes up first, since the postfix
  order that is dumped is the one that is compiled.
-/
import PatternAutomata.Tool.Report
import PatternAutomata.Proofs.Compilation
import PatternAutomata.Proofs.Determinization
import PatternAutomata.Proofs.Quoting

namespace PatternAutomata

/-! ## Matching with either automaton -/

theorem Nfa.Fragment.accepts_dfa {n : Nfa} (hn : n.Fragment) (w : List Char) :
    (Dfa.ofNfa n).accepts w = n.automaton.accepts w := by
  obtain ⟨s, heq, hp⟩ := Subsets.progress_ofNfa hn
  rw [heq]
  exact hp.accepts_eq hn w

/-- A compiled pattern is what its postfix order builds. -/
theorem Regex.fragment_of_ofPattern {p : String} {r : Regex} (h : ofPattern p = .ok r) :
    r.nfa.Fragment := by
  cases hp : Postfix.ofTokens (tokenize p) with
  | error e =>
    rw [ofPattern_of_postfix_error hp] at h
    cases h
  | ok post =>
    rw [ofPattern_of_postfix_ok hp] at h
    cases hn : Nfa.ofPostfix post with
    | error e =>
      rw [hn] at h
      cases h
    | ok n =>
      rw [hn] at h
      cases h
      exact (Nfa.Built.ofPostfix hn).fragment

namespace Tool

/-- The automaton that is examined matches what the pattern does. -/
theorem accepts_examined {p : String} {r : Regex} (h : Regex.ofPattern p = .ok r) (output : Output)
    (t : String) : (examined r output).2.accepts t.toList = r.isMatch t := by
  cases output with
  | dfa => exact (Regex.fragment_of_ofPattern h).accepts_dfa t.toList
  | _ => rfl

/-! ## Lines -/

/-- The text is one line, line end included. -/
def IsLine (s : String) : Prop := ∃ t, s = t ++ "\n" ∧ '\n' ∉ t.toList

/-- The text ends with a line, and begins with it or has it after a line end. -/
def EndsInLine (s line : String) : Prop :=
  IsLine line ∧ ∃ before, s = before ++ line ∧ (before = "" ∨ ∃ t, before = t ++ "\n")

theorem newline_notMem_append {s t : String} (hs : '\n' ∉ s.toList) (ht : '\n' ∉ t.toList) :
    '\n' ∉ (s ++ t).toList := by
  rw [String.toList_append, List.mem_append]
  exact not_or.mpr ⟨hs, ht⟩

theorem newline_notMem_quoteString [Printing] (s : String) : '\n' ∉ (quoteString s).toList := by
  intro h
  have hcontrol := not_isControl_of_mem_quoteString h
  revert hcontrol
  decide

theorem newline_notMem_name (k : ErrorKind) : '\n' ∉ k.name.toList := by
  cases k <;> decide

section Lines

variable [Printing]

/-- The line on an input: whether it matches, and the input quoted. -/
def verdictLine (matched : Bool) (input : String) : String :=
  (if matched then "Match: " else "No match: ") ++ quoteString input ++ "\n"

/-- The line on an error: its kind and, quoted, its wording. -/
def failureLine (e : Error) : String :=
  "Error: Error \x7b kind: " ++ e.kind.name ++ ", text: " ++ quoteString e.message ++ " \x7d" ++ "\n"

theorem isLine_verdictLine (matched : Bool) (input : String) : IsLine (verdictLine matched input) := by
  refine ⟨_, rfl, newline_notMem_append ?_ (newline_notMem_quoteString input)⟩
  cases matched <;> decide

/-- A line says on which input it is, and how that went. -/
theorem verdictLine_inj {matched matched' : Bool} {input input' : String}
    (h : verdictLine matched input = verdictLine matched' input') :
    matched = matched' ∧ input = input' := by
  have htext := congrArg String.toList h
  cases matched <;> cases matched'
  case false.true | true.false => simp [verdictLine] at htext
  all_goals
    simp only [verdictLine, String.toList_append, List.append_assoc, List.append_cancel_left_eq]
      at htext
    exact ⟨rfl, (prefixFree_quoteString htext).1⟩

theorem isLine_failureLine (e : Error) : IsLine (failureLine e) := by
  have hkind := newline_notMem_append (s := "Error: Error \x7b kind: ") (by decide)
    (newline_notMem_name e.kind)
  have htext := newline_notMem_append hkind (t := ", text: ") (by decide)
  have hquoted := newline_notMem_append htext (newline_notMem_quoteString e.message)
  have hclosed := newline_notMem_append hquoted (t := " \x7d") (by decide)
  exact ⟨_, rfl, hclosed⟩

end Lines

namespace Message

/-- Whether a message is a dump. -/
def isDump : Message → Bool
  | tokens _ | order _ | automaton _ _ => true
  | verdict _ _ | failure _ => false

/-- Whether a message is a verdict on an input. -/
def isVerdict : Message → Bool
  | verdict _ _ => true
  | _ => false

theorem isDump_of_isVerdict {m : Message} (h : m.isVerdict = true) : m.isDump = false := by
  cases m with
  | verdict matched input => rfl
  | _ => cases h

section Text

variable [Printing]

theorem exists_text_eq (m : Message) : ∃ t, m.text = t ++ "\n" := by
  cases m <;> exact ⟨_, rfl⟩

theorem text_verdict (matched : Bool) (input : String) :
    (verdict matched input).text = verdictLine matched input := rfl

theorem text_failure (e : Error) : (failure e).text = failureLine e := by
  have hbegin : "Error: Error \x7b kind: " = "Error: " ++ "Error \x7b kind: " := rfl
  unfold text Error.named failureLine
  rw [hbegin]
  simp only [String.append_assoc]

theorem isLine_text_of_isVerdict {m : Message} (h : m.isVerdict = true) : IsLine m.text := by
  cases m with
  | verdict matched input => exact isLine_verdictLine matched input
  | _ => cases h

end Text

end Message

/-- What stands behind messages begins on a line of its own. -/
theorem endsInLine_join_append [Printing] (ms : List Message) {line : String} (h : IsLine line) :
    EndsInLine (String.join (ms.map Message.text) ++ line) line := by
  refine ⟨h, _, rfl, ?_⟩
  rcases List.eq_nil_or_concat ms with rfl | ⟨ms, m, rfl⟩
  · exact Or.inl rfl
  · obtain ⟨t, ht⟩ := m.exists_text_eq
    refine Or.inr ⟨String.join (ms.map Message.text) ++ t, ?_⟩
    rw [List.concat_eq_append, List.map_append, String.join_append, String.append_assoc, ← ht]
    simp

/-! ## Reports -/

/-- Whether a flag asks for a dump. -/
def Flag.isDump : Flag → Bool
  | dumpTokens | dumpPostfix | dumpAutomaton => true
  | nfa | dfa | minDfa => false

theorem output_congr {o o' : Options}
    (h : ∀ g : Flag, g.isDump = false → (g ∈ o'.flags ↔ g ∈ o.flags)) : o'.output = o.output := by
  unfold Options.output
  simp only [h .minDfa rfl, h .dfa rfl]

namespace Report

/-- The verdicts in a report. -/
def verdicts (r : Report) : List Message := r.messages.filter Message.isVerdict

/-- The report without its dumps. -/
def undumped (r : Report) : Report := { r with messages := r.messages.filter fun m => !m.isDump }

/-- A failure with its cause: nothing is drawn, and the last line is that on the cause. -/
structure FailsWith [Printing] (r : Report) (e : Error) : Prop where
  status : r.status = 1
  stdout : r.stdout = ""
  last : r.messages.getLast? = some (.failure e)
  stderr : EndsInLine r.stderr (failureLine e)

/-- The report with messages put before its own. -/
def after (ms : List Message) (r : Report) : Report := { r with messages := ms ++ r.messages }

section After

variable {dumps : List Message} (hd : ∀ m ∈ dumps, m.isDump = true) (r : Report)
include hd

theorem undumped_after : (r.after dumps).undumped = r.undumped := by
  have hnil : dumps.filter (fun m => !m.isDump) = [] := by
    rw [List.filter_eq_nil_iff]
    intro m hm
    simp [hd m hm]
  unfold undumped after
  rw [List.filter_append, hnil, List.nil_append]

theorem verdicts_after : (r.after dumps).verdicts = r.verdicts := by
  have hnil : dumps.filter Message.isVerdict = [] := by
    rw [List.filter_eq_nil_iff]
    intro m hm hverdict
    have hdump := hd m hm
    rw [Message.isDump_of_isVerdict hverdict] at hdump
    cases hdump
  unfold verdicts after
  rw [List.filter_append, hnil, List.nil_append]

end After

end Report

theorem report_append (ms ms' : List Message) (g : Except Error Graph) :
    report (ms ++ ms') g = (report ms' g).after ms := by
  cases g with
  | ok g => rfl
  | error e => simp [report, Report.after]

section Text

variable [Printing]

theorem stderr_after (ms : List Message) (r : Report) :
    (r.after ms).stderr = String.join (ms.map Message.text) ++ r.stderr := by
  unfold Report.stderr Report.after
  rw [List.map_append, String.join_append]

theorem stderr_report_ok (ms : List Message) (g : Graph) :
    (report ms (.ok g)).stderr = String.join (ms.map Message.text) := rfl

theorem stderr_report_error (ms : List Message) (e : Error) :
    (report ms (.error e)).stderr = String.join (ms.map Message.text) ++ failureLine e := by
  unfold Report.stderr report
  rw [List.map_append, String.join_append]
  simp [Message.text_failure]

theorem failsWith_report (ms : List Message) (e : Error) :
    (report ms (.error e)).FailsWith e where
  status := rfl
  stdout := rfl
  last := List.getLast?_concat
  stderr := by
    rw [stderr_report_error]
    exact endsInLine_join_append ms (isLine_failureLine e)

end Text

/-! ## Answers -/

/-- The verdicts on inputs. -/
def verdictsOn (r : Regex) (inputs : List String) : List Message :=
  inputs.map fun t => .verdict (r.isMatch t) t

/-- What there is to answer when nothing is dumped. -/
def answer (pattern : String) (inputs : List String) (output : Output) : Report :=
  match Regex.ofPattern pattern with
  | .error e => report [] (.error e)
  | .ok r => report (verdictsOn r inputs) (r.graph output)

section Answer

variable {pattern : String} {inputs : List String}

theorem answer_of_error {e : Error} (h : Regex.ofPattern pattern = .error e) (output : Output) :
    answer pattern inputs output = report [] (.error e) := by
  unfold answer
  rw [h]

theorem answer_of_ok {r : Regex} (h : Regex.ofPattern pattern = .ok r) (output : Output) :
    answer pattern inputs output = report (verdictsOn r inputs) (r.graph output) := by
  unfold answer
  rw [h]

theorem verdicts_answer {r : Regex} (h : Regex.ofPattern pattern = .ok r) (output : Output) :
    (answer pattern inputs output).verdicts = verdictsOn r inputs := by
  have hkept : (verdictsOn r inputs).filter Message.isVerdict = verdictsOn r inputs := by
    rw [List.filter_eq_self]
    intro m hm
    obtain ⟨t, -, rfl⟩ := List.mem_map.mp hm
    rfl
  rw [answer_of_ok h]
  cases r.graph output with
  | ok g => exact hkept
  | error e =>
    unfold report Report.verdicts
    rw [List.filter_append, hkept]
    exact List.append_nil _

/-- The text of an answer: a line on each input, and one on what keeps it from being drawn. -/
theorem stderr_answer_of_ok [Printing] {r : Regex} (h : Regex.ofPattern pattern = .ok r)
    (output : Output) : (answer pattern inputs output).stderr =
      String.join (inputs.map fun t => verdictLine (r.isMatch t) t) ++
        (if output = .minDfa then failureLine .noMinimization else "") := by
  have hlines : String.join ((verdictsOn r inputs).map Message.text) =
      String.join (inputs.map fun t => verdictLine (r.isMatch t) t) := by
    simp only [verdictsOn, List.map_map, Function.comp_def, Message.text_verdict]
  rw [answer_of_ok h, ← hlines]
  cases output with
  | nfa => exact (stderr_report_ok _ _).trans String.append_empty.symm
  | dfa => exact (stderr_report_ok _ _).trans String.append_empty.symm
  | minDfa => exact stderr_report_error _ _

/-- A pattern that is refused has no verdicts, and one that compiles has the same for all outputs. -/
theorem verdicts_answer_congr (output output' : Output) :
    (answer pattern inputs output').verdicts = (answer pattern inputs output).verdicts := by
  cases h : Regex.ofPattern pattern with
  | error e => rw [answer_of_error h, answer_of_error h]
  | ok r => rw [verdicts_answer h, verdicts_answer h]

end Answer

/-! ## Runs -/

namespace Options

variable (o : Options)

/-- The dumps that flags ask for: of the tokens, of the postfix order, if there is one, and, if the
pattern compiles, of the automaton that inputs are matched with. -/
inductive Asks : Message → Prop where
  | tokens : Flag.dumpTokens ∈ o.flags → Asks (.tokens (tokenize o.pattern))
  | order {p : Postfix} : Flag.dumpPostfix ∈ o.flags → Postfix.ofPattern o.pattern = .ok p →
    Asks (.order p)
  | automaton {r : Regex} : Flag.dumpAutomaton ∈ o.flags → Regex.ofPattern o.pattern = .ok r →
    Asks (.automaton (examined r o.output).1 (examined r o.output).2.readable)

variable {o} in
theorem Asks.isDump {m : Message} (h : o.Asks m) : m.isDump = true := by
  cases h <;> rfl

/-- Without flags for dumps, none is asked for. -/
theorem not_asks (h : ∀ g ∈ o.flags, g.isDump = false) (m : Message) : ¬ o.Asks m := by
  intro hm
  cases hm with
  | tokens hflag => cases h _ hflag
  | order hflag _ => cases h _ hflag
  | automaton hflag _ => cases h _ hflag

theorem asks_previewTokens : ∀ m ∈ o.previewTokens, o.Asks m := by
  unfold previewTokens
  split
  · simpa using Asks.tokens ‹_›
  · simp

theorem asks_previewOrder {ms : List Message} (h : o.previewOrder = .ok ms) :
    ∀ m ∈ ms, o.Asks m := by
  unfold previewOrder at h
  split at h
  · cases hp : Postfix.ofPattern o.pattern with
    | error e => rw [hp] at h; cases h
    | ok post => rw [hp] at h; cases h; simpa using Asks.order ‹_› hp
  · cases h
    simp

/-- The postfix order is refused for the cause for which the pattern is. -/
theorem ofPattern_of_previewOrder {e : Error} (h : o.previewOrder = .error e) :
    Regex.ofPattern o.pattern = .error e := by
  unfold previewOrder at h
  split at h
  · cases hp : Postfix.ofPattern o.pattern with
    | error e' =>
      rw [hp] at h
      cases h
      exact Regex.ofPattern_of_postfix_error hp
    | ok post => rw [hp] at h; cases h
  · cases h

theorem examine_eq {r : Regex} (h : Regex.ofPattern o.pattern = .ok r) :
    ∃ dumps : List Message, (∀ m ∈ dumps, o.Asks m) ∧
      o.examine r = dumps ++ verdictsOn r o.inputs := by
  unfold examine verdictsOn
  simp only [accepts_examined h]
  refine ⟨_, ?_, rfl⟩
  split
  · simpa using Asks.automaton ‹_› h
  · simp

/-- Every run answers, and puts nothing but dumps that are asked for before its answer. -/
theorem run_eq_answer : ∃ dumps : List Message, (∀ m ∈ dumps, o.Asks m) ∧
    o.run = (answer o.pattern o.inputs o.output).after dumps := by
  have htokens := o.asks_previewTokens
  unfold run
  cases horder : o.previewOrder with
  | error e =>
    refine ⟨o.previewTokens, htokens, ?_⟩
    rw [answer_of_error (o.ofPattern_of_previewOrder horder), ← report_append, List.append_nil]
  | ok order =>
    have hpreview : ∀ m ∈ o.previewTokens ++ order, o.Asks m :=
      List.forall_mem_append.mpr ⟨htokens, o.asks_previewOrder horder⟩
    cases hp : Regex.ofPattern o.pattern with
    | error e =>
      refine ⟨o.previewTokens ++ order, hpreview, ?_⟩
      rw [answer_of_error hp, ← report_append, List.append_nil]
    | ok r =>
      obtain ⟨dumps, hdumps, hexamine⟩ := o.examine_eq hp
      refine ⟨o.previewTokens ++ order ++ dumps, List.forall_mem_append.mpr ⟨hpreview, hdumps⟩, ?_⟩
      dsimp only
      rw [answer_of_ok hp, ← report_append, hexamine, List.append_assoc _ dumps]

theorem verdicts_run : o.run.verdicts = (answer o.pattern o.inputs o.output).verdicts := by
  obtain ⟨dumps, hdumps, hrun⟩ := o.run_eq_answer
  rw [hrun, Report.verdicts_after fun m hm => (hdumps m hm).isDump]

theorem undumped_run : o.run.undumped = (answer o.pattern o.inputs o.output).undumped := by
  obtain ⟨dumps, hdumps, hrun⟩ := o.run_eq_answer
  rw [hrun, Report.undumped_after fun m hm => (hdumps m hm).isDump]

section Text

variable [Printing]

/-- If the answer is a failure, so is the run. -/
theorem failsWith_run {ms : List Message} {e : Error}
    (h : answer o.pattern o.inputs o.output = report ms (.error e)) : o.run.FailsWith e := by
  obtain ⟨dumps, -, hrun⟩ := o.run_eq_answer
  rw [hrun, h, ← report_append]
  exact failsWith_report _ e

/-- The text stands on the error stream, with nothing but dumps that are asked for before it. -/
def Writes (text : String) : Prop :=
  ∃ dumps : List Message, (∀ m ∈ dumps, o.Asks m) ∧
    o.run.stderr = String.join (dumps.map Message.text) ++ text

theorem writes_stderr_answer : o.Writes (answer o.pattern o.inputs o.output).stderr := by
  obtain ⟨dumps, hdumps, hrun⟩ := o.run_eq_answer
  exact ⟨dumps, hdumps, by rw [hrun, stderr_after]⟩

/-- Without flags for dumps it is all that stands there. -/
theorem Writes.stderr_eq {text : String} (h : o.Writes text)
    (hflags : ∀ g ∈ o.flags, g.isDump = false) : o.run.stderr = text := by
  obtain ⟨dumps, hdumps, hstderr⟩ := h
  obtain rfl : dumps = [] :=
    List.eq_nil_iff_forall_not_mem.mpr fun m hm => o.not_asks hflags m (hdumps m hm)
  rw [hstderr, List.map_nil, String.join_nil, String.empty_append]

end Text

end Options

/-- What runs report, over all options. The most processed output that a flag asks for is taken. If the
pattern compiles and its fragment or deterministic automaton is asked for, that one is drawn; else the
run fails, for the cause for which the pattern is refused or, if that is none, for want of minimization,
and its last line is that on the cause. A compiled pattern has a verdict on each input, one line each and
in order, which is whether it matches, whatever is drawn. Flags for dumps change nothing but dumps. -/
theorem run_answers [Printing] (o : Options) :
    ((Flag.minDfa ∈ o.flags → o.output = .minDfa) ∧
      (Flag.minDfa ∉ o.flags → Flag.dfa ∈ o.flags → o.output = .dfa) ∧
      (Flag.minDfa ∉ o.flags → Flag.dfa ∉ o.flags → o.output = .nfa)) ∧
    (∀ r, Regex.ofPattern o.pattern = .ok r →
      (o.output ≠ .minDfa →
        ∃ s, r.dot o.output = .ok s ∧ o.run.status = 0 ∧ o.run.stdout = s ++ "\n") ∧
      (o.output = .minDfa → ∃ e, r.graph .minDfa = .error e ∧ e.kind = .unsupported ∧
        e.message = "Minimized DFA output is not implemented" ∧ o.run.FailsWith e) ∧
      (o.run.verdicts = o.inputs.map fun t => .verdict (r.isMatch t) t) ∧
      o.Writes (String.join (o.inputs.map fun t =>
          (if r.isMatch t then "Match: " else "No match: ") ++ quoteString t ++ "\n") ++
        if o.output = .minDfa then failureLine .noMinimization else "")) ∧
    (∀ e, Regex.ofPattern o.pattern = .error e → o.run.FailsWith e ∧ o.Writes (failureLine e)) ∧
    (∀ m ∈ o.run.verdicts, IsLine m.text) ∧
    (∀ o' : Options, o'.pattern = o.pattern → o'.inputs = o.inputs →
      o'.run.verdicts = o.run.verdicts) ∧
    ∀ o' : Options, o'.pattern = o.pattern → o'.inputs = o.inputs →
      (∀ g : Flag, g.isDump = false → (g ∈ o'.flags ↔ g ∈ o.flags)) →
      o'.run.undumped = o.run.undumped := by
  obtain ⟨dumps, -, hrun⟩ := o.run_eq_answer
  refine ⟨?output, fun r hr => ⟨?drawn, ?undrawn, ?verdicts, ?text⟩, ?refused, ?lines, ?outputs, ?flags⟩
  case output =>
    unfold Options.output
    refine ⟨fun h => if_pos h, fun h h' => ?_, fun h h' => ?_⟩
    · rw [if_neg h, if_pos h']
    · rw [if_neg h, if_neg h']
  case drawn =>
    intro hne
    obtain ⟨g, hg⟩ : ∃ g, r.graph o.output = .ok g := by
      cases hout : o.output with
      | nfa => exact ⟨_, rfl⟩
      | dfa => exact ⟨_, rfl⟩
      | minDfa => exact absurd hout hne
    rw [hrun, answer_of_ok hr, Regex.dot, hg]
    exact ⟨g.dot, rfl, rfl, rfl⟩
  case undrawn =>
    intro hout
    have hanswer : answer o.pattern o.inputs o.output =
        report (verdictsOn r o.inputs) (.error .noMinimization) := by
      rw [answer_of_ok hr, hout]
      rfl
    exact ⟨.noMinimization, rfl, rfl, rfl, o.failsWith_run hanswer⟩
  case verdicts =>
    rw [o.verdicts_run, verdicts_answer hr]
    rfl
  case text =>
    have hwrites := o.writes_stderr_answer
    rwa [stderr_answer_of_ok hr] at hwrites
  case refused =>
    intro e he
    have hwrites := o.writes_stderr_answer
    rw [answer_of_error he, stderr_report_error, List.map_nil, String.join_nil,
      String.empty_append] at hwrites
    exact ⟨o.failsWith_run (answer_of_error he _), hwrites⟩
  case lines =>
    intro m hm
    exact Message.isLine_text_of_isVerdict (List.of_mem_filter hm)
  case outputs =>
    intro o' hpattern hinputs
    rw [o'.verdicts_run, o.verdicts_run, hpattern, hinputs]
    exact verdicts_answer_congr _ _
  case flags =>
    intro o' hpattern hinputs hflags
    rw [o'.undumped_run, o.undumped_run, hpattern, hinputs, output_congr hflags]

/-- Drawn by its deterministic automaton, which is dumped as well. -/
theorem run_answers_dfa_dumped :
    let o : Options :=
      { pattern := "a|b", inputs := ["a", "ab"], flags := [.dumpPostfix, .dfa, .dumpAutomaton] }
    ∃ r, Regex.ofPattern "a|b" = .ok r ∧ o.output = .dfa ∧
      (∃ s, r.dot .dfa = .ok s ∧ o.run.status = 0 ∧ o.run.stdout = s ++ "\n") ∧
      o.run.verdicts = [.verdict (r.isMatch "a") "a", .verdict (r.isMatch "ab") "ab"] ∧
      o.Writes "Match: \"a\"\nNo match: \"ab\"\n" ∧
      o.run.undumped = ({ o with flags := [.dfa] } : Options).run.undumped := by
  intro o
  have hkept : ∀ g : Flag, g.isDump = false → (g ∈ o.flags ↔ g ∈ [.dfa]) := by
    intro g
    cases g <;> decide
  have hok : Regex.ofPattern "a|b" = .ok ⟨(Nfa.symbol 'a').alternate (Nfa.symbol 'b')⟩ := by
    decide +kernel
  obtain ⟨⟨-, houtput, -⟩, hcompiled, -, -, -, -⟩ := run_answers o
  obtain ⟨hdrawn, -, hverdicts, hwrites⟩ := hcompiled _ hok
  have htext : (String.join (o.inputs.map fun t =>
      (if Regex.isMatch ⟨(Nfa.symbol 'a').alternate (Nfa.symbol 'b')⟩ t then "Match: "
        else "No match: ") ++ quoteString t ++ "\n") ++
      if o.output = .minDfa then failureLine .noMinimization else "") =
      "Match: \"a\"\nNo match: \"ab\"\n" := by
    decide +kernel
  rw [htext] at hwrites
  obtain ⟨-, -, -, -, -, hflags⟩ := run_answers { o with flags := [.dfa] }
  exact ⟨_, hok, houtput (by decide) (by decide), hdrawn (by decide), hverdicts, hwrites,
    hflags o rfl rfl hkept⟩

end Tool

end PatternAutomata
