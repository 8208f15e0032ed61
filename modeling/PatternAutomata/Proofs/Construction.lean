/-
  The construction, both queues at work, makes one automaton. Whatever is closed on the way can be
  reached from the start, so its queue gives the configuration and nothing else
  (`Nfa.Fragment.visits_iff`). A symbol then does what it does when the closure is there at once
  (`join_configuration`), a state gets the moves that expanding gives it (`joins_foldl_extend`), and the
  loop ends where the states do (`runs_of_expands`). It ends nowhere else, since every step is determined.
-/
import PatternAutomata.Dfa.Construction
import PatternAutomata.Proofs.Closures
import PatternAutomata.Proofs.Worklist

namespace PatternAutomata

variable {n : Nfa}

/-- Where the seeds can be reached, the queue gives their configuration, and only that. -/
theorem Nfa.Fragment.visits_iff (hn : n.Fragment) {seeds : List Nat}
    (hs : ∀ s ∈ seeds, n.Reaches n.start s) {k : Configuration} :
    n.Visits n.automaton.numbering seeds k ↔ k = n.configuration n.automaton.numbering seeds := by
  refine Diagram.visits_iff hn.consistent.coherent n.automaton.valid_numbering
    (fun s hmem => hn.lt_of_reaches (hs s hmem)) ?_
  intro t ⟨s, hmem, hst⟩
  obtain ⟨w, hw⟩ := hs s hmem
  exact Automaton.exists_id?_of_reaches hn.coherent ⟨w ++ [], hw.append hst⟩

namespace Worklist

variable {num : Numbering} {s t : Subsets} {h : Nat}

/-! ## One outcome -/

theorem visits_unique {d : Diagram} {seeds : List Nat} {k k' : Configuration}
    (hk : d.Visits num seeds k) (hk' : d.Visits num seeds k') : k = k' := by
  obtain ⟨v, hv, rfl⟩ := hk
  obtain ⟨v', hv', rfl⟩ := hk'
  rw [hv.unique hv']

theorem Joins.unique {members : List Nat} {w v v' : Worklist} {cs : List Char}
    (hv : Joins n num h members w cs v) (hv' : Joins n num h members w cs v') : v = v' := by
  induction hv with
  | done =>
    cases hv'
    rfl
  | more hk _ ih =>
    cases hv' with
    | more hk' hv' =>
      obtain rfl := visits_unique hk hk'
      exact ih hv'

theorem Runs.unique {w : Worklist} (hs : Runs n num w s) (ht : Runs n num w t) : s = t := by
  induction hs with
  | done hnil =>
    cases ht with
    | done _ => rfl
    | more hcons _ _ =>
      rw [hnil] at hcons
      cases hcons
  | more hcons hv _ ih =>
    cases ht with
    | done hnil =>
      rw [hnil] at hcons
      cases hcons
    | more hcons' hv' ht =>
      rw [hcons] at hcons'
      cases hcons'
      obtain rfl := hv.unique hv'
      exact ih ht

/-! ## The outcome -/

theorem members_configuration_nil (hn : n.Fragment) :
    (n.configuration n.automaton.numbering []).members = [] := by
  rw [List.eq_nil_iff_forall_not_mem]
  intro t ht
  obtain ⟨s, hs, -⟩ := (hn.mem_configuration (by simp) t).mp ht
  exact List.not_mem_nil hs

/-- With the configuration of what a symbol leads to, a move is given as if it were looked up at once. -/
theorem join_configuration (hn : n.Fragment) {k : Configuration} (hk : n.IsConfiguration k)
    (w : Worklist) (c : Char) :
    w.join n h c (n.configuration n.automaton.numbering (n.followAll k.members (.symbol c))) =
      extend n n.automaton.numbering h k.members w c := by
  unfold join extend
  cases hseeds : n.followAll k.members (.symbol c) with
  | nil => exact if_pos (by rw [members_configuration_nil hn]; rfl)
  | cons q qs =>
    have hconf := hk.followAll hn (c := c) (by rw [hseeds]; exact List.cons_ne_nil q qs)
    rw [hseeds] at hconf
    obtain ⟨t, ht⟩ := hconf.exists_mem hn
    exact if_neg (by simpa using List.ne_nil_of_mem ht)

/-- Symbol by symbol. -/
theorem joins_foldl_extend (hn : n.Fragment) {k : Configuration} (hk : n.IsConfiguration k)
    (cs : List Char) (w : Worklist) :
    Joins n n.automaton.numbering h k.members w cs
      (cs.foldl (extend n n.automaton.numbering h k.members) w) := by
  induction cs generalizing w with
  | nil => exact .done
  | cons c cs ih =>
    have hvisits := (hn.visits_iff fun t ht => hk.reaches_of_mem_followAll hn ht).mpr
      (rfl : n.configuration n.automaton.numbering (n.followAll k.members (.symbol c)) = _)
    refine .more hvisits ?_
    rw [join_configuration hn hk]
    exact ih _

theorem runs_of_expands (hn : n.Fragment)
    (he : Subsets.Expands n n.automaton.numbering h s t) (hp : Subsets.Progress n h s) :
    Runs n n.automaton.numbering (s.worklist h) t := by
  induction he with
  | @done h s hh =>
    subst hh
    exact .done hp.toSound.pending_size
  | @more h s t hlt he ih =>
    obtain ⟨k, hk⟩ := hp.exists_standsFor hlt
    have hwaiting : (s.worklist h).waiting = (k.members, h) :: s.dfa.pending (h + 1) :=
      Dfa.pending_of_standsFor hk
    have hexpand : Subsets.expand n n.automaton.numbering s h =
        n.alphabet.foldl (Subsets.extend n n.automaton.numbering h k.members) s := by
      unfold Subsets.expand
      rw [show s.dfa.configurations[h]? = some k from hk]
    have hjoins : Joins n n.automaton.numbering h k.members (s.worklist (h + 1)) n.alphabet
        ((Subsets.expand n n.automaton.numbering s h).worklist (h + 1)) := by
      rw [hexpand, ← Subsets.foldl_extend_worklist hn n.alphabet hp.toSound hk]
      exact joins_foldl_extend hn (hp.isConfiguration hk) n.alphabet _
    exact .more hwaiting hjoins (ih (hp.expand hn hlt))

end Worklist

/-- Closing and expanding, each through its queue, end with the deterministic automaton, and
with no other. -/
theorem Nfa.Built.determinizes_iff (hbuilt : n.Built) {d : Dfa} :
    n.Determinizes d ↔ d = Dfa.ofNfa n := by
  have hn := hbuilt.fragment
  obtain ⟨s, heq, he⟩ := Subsets.expands_ofNfa hn
  have hstart : n.Visits n.automaton.numbering [n.start]
      (n.configuration n.automaton.numbering [n.start]) :=
    (hn.visits_iff n.reaches_of_mem_start).mpr rfl
  have hruns : Worklist.Runs n n.automaton.numbering
      (Worklist.start n (n.configuration n.automaton.numbering [n.start])) s :=
    Worklist.runs_of_expands hn he (Subsets.progress_initial n)
  constructor
  · rintro ⟨k, t, hk, ht, rfl⟩
    obtain rfl := Worklist.visits_unique hk hstart
    rw [ht.unique hruns, heq]
  · rintro rfl
    exact ⟨_, s, hstart, hruns, heq.symm⟩

end PatternAutomata
