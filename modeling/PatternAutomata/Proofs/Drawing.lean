/-
  Descriptions are faithful and without gap. The walk that describes an automaton
  meets states in the order in which they are numbered, though it keeps a roster of
  its own: a roster under way is the beginning of the roster it ends with
  (`Roster.Leads`). So nodes are stated in the order of their identifiers, each
  before the edges that name it (`Orderly`), and there is one edge for each move
  of each state that can be reached (`edges_describeFrom`).
-/
import PatternAutomata.Graph
import PatternAutomata.Proofs.Incidence
import PatternAutomata.Proofs.Trim

namespace PatternAutomata

/-! ## Statements -/

namespace Graph

section Cons

variable (id source target : Nat) (accepting : Bool) (label : Option Label)
  (ss ts : List Statement)

@[simp] theorem nodes_nil : (⟨[]⟩ : Graph).nodes = [] := rfl

@[simp] theorem nodes_entry : (⟨.entry :: ss⟩ : Graph).nodes = (⟨ss⟩ : Graph).nodes := rfl

@[simp] theorem nodes_node :
    (⟨.node id accepting :: ss⟩ : Graph).nodes = (id, accepting) :: (⟨ss⟩ : Graph).nodes := rfl

@[simp] theorem nodes_edge :
    (⟨.edge source target label :: ss⟩ : Graph).nodes = (⟨ss⟩ : Graph).nodes := rfl

@[simp] theorem edges_nil : (⟨[]⟩ : Graph).edges = [] := rfl

@[simp] theorem edges_entry : (⟨.entry :: ss⟩ : Graph).edges = (⟨ss⟩ : Graph).edges := rfl

@[simp] theorem edges_node :
    (⟨.node id accepting :: ss⟩ : Graph).edges = (⟨ss⟩ : Graph).edges := rfl

@[simp] theorem edges_edge :
    (⟨.edge source target label :: ss⟩ : Graph).edges =
      (source, target, label) :: (⟨ss⟩ : Graph).edges := rfl

theorem edges_append :
    (⟨ss ++ ts⟩ : Graph).edges = (⟨ss⟩ : Graph).edges ++ (⟨ts⟩ : Graph).edges :=
  List.filterMap_append

end Cons

end Graph

/-- Where the first `k` nodes are stated, these statements state those up to `j`, in order and marked
as said, and edges between nodes that are stated by then. -/
inductive Orderly (marked : Nat → Bool) : Nat → List Statement → Nat → Prop where
  | nil (k : Nat) : Orderly marked k [] k
  | node {k j : Nat} {ss : List Statement} :
    Orderly marked (k + 1) ss j →
      Orderly marked k (.node (k + 1) (marked (k + 1)) :: ss) j
  | edge {k j s t : Nat} {ss : List Statement} (label : Option Label) :
    (0 < s ∧ s ≤ k) → (0 < t ∧ t ≤ k) → Orderly marked k ss j →
      Orderly marked k (.edge s t label :: ss) j

namespace Orderly

variable {marked : Nat → Bool} {i j k : Nat} {ss ts : List Statement}

theorem append (h : Orderly marked i ss j) (h' : Orderly marked j ts k) :
    Orderly marked i (ss ++ ts) k := by
  induction h with
  | nil _ => exact h'
  | node _ ih => exact .node (ih h')
  | edge label hs ht _ ih => exact .edge label hs ht (ih h')

theorem le (h : Orderly marked k ss j) : k ≤ j := by
  induction h with
  | nil k => exact Nat.le_refl k
  | node _ ih => omega
  | edge _ _ _ _ ih => exact ih

/-- No identifier is left out, and none is stated twice. -/
theorem nodes_eq (h : Orderly marked k ss j) :
    (⟨ss⟩ : Graph).nodes = (List.range' (k + 1) (j - k)).map fun i => (i, marked i) := by
  induction h with
  | nil k => simp
  | @node k j ss h ih =>
    have hle := h.le
    have hsub : j - k = j - (k + 1) + 1 := by omega
    rw [Graph.nodes_node, ih, hsub, List.range'_succ]
    rfl
  | edge _ _ _ _ ih => exact ih

theorem length_eq (h : Orderly marked k ss j) :
    ss.length = (⟨ss⟩ : Graph).nodes.length + (⟨ss⟩ : Graph).edges.length := by
  induction h with
  | nil _ => rfl
  | node _ ih =>
    simp only [List.length_cons, Graph.nodes_node, Graph.edges_node, ih]
    omega
  | edge _ _ _ _ ih =>
    simp only [List.length_cons, Graph.nodes_edge, Graph.edges_edge, ih]
    omega

theorem pos_of_mem_edges (h : Orderly marked k ss j) :
    ∀ e ∈ (⟨ss⟩ : Graph).edges, 0 < e.1 ∧ 0 < e.2.1 := by
  induction h with
  | nil _ => simp
  | node _ ih => exact ih
  | edge label hs ht _ ih =>
    intro e he
    rcases List.mem_cons.mp he with rfl | he
    · exact ⟨hs.1, ht.1⟩
    · exact ih e he

/-- Both ends of an edge are stated before it. -/
theorem stated {xs ys : List Statement} {s t : Nat} {label : Option Label}
    (h : Orderly marked k (xs ++ .edge s t label :: ys) j) {i : Nat} (hi : i = s ∨ i = t) :
    i ≤ k ∨ .node i (marked i) ∈ xs := by
  induction xs generalizing k with
  | nil =>
    cases h with
    | edge _ hs ht _ =>
      rcases hi with rfl | rfl
      · exact Or.inl hs.2
      · exact Or.inl ht.2
  | cons x xs ih =>
    cases h with
    | node h =>
      rcases ih h with hle | hmem
      · rcases Nat.le_succ_iff.mp hle with hle | rfl
        · exact Or.inl hle
        · exact Or.inr List.mem_cons_self
      · exact Or.inr (List.mem_cons_of_mem _ hmem)
    | edge _ _ _ h => exact (ih h).imp_right (List.mem_cons_of_mem _)

end Orderly

/-! ## Rosters under way -/

namespace Roster

variable {n : Nat} {r s t : Roster}

/-- What stands in a place of the one roster stands there in the other. -/
def Leads (r s : Roster) : Prop := ∀ i x : Nat, r.order[i]? = some x → s.order[i]? = some x

theorem Leads.trans (hrs : r.Leads s) (hst : s.Leads t) : r.Leads t :=
  fun i x hx => hst i x (hrs i x hx)

theorem leads_enterAll (hv : Valid n r) (hs : List Nat) : r.Leads (r.enterAll hs) :=
  fun _ _ hx => getElem?_enterAll hv hs hx

theorem leads_explore {next : Nat → List Nat} (hv : Valid n r) (i : Nat) :
    r.Leads (r.explore next i) :=
  fun _ _ hx => getElem?_explore hv i hx

theorem Leads.drop_eq_cons (h : r.Leads s) {i : Nat} (hi : i < r.order.size) :
    s.order.toList.drop i = r.order[i] :: s.order.toList.drop (i + 1) := by
  have hx := h i r.order[i] (Array.getElem?_eq_getElem hi)
  rw [← Array.getElem?_toList] at hx
  obtain ⟨hlt, heq⟩ := List.getElem?_eq_some_iff.mp hx
  rw [List.drop_eq_getElem_cons hlt, heq]

/-- The next handle to enter stands in the next place. -/
theorem getElem?_enter_of_new (hv : Valid n r) {h : Nat} (hlt : h < n) (hh : h ∉ r.order) :
    (r.enter h).order.size = r.order.size + 1 ∧
      (r.enter h).order[r.order.size]? = some h := by
  rw [enter_of_new hv hlt hh]
  exact ⟨Array.size_push h, Array.getElem?_push_size⟩

end Roster

namespace Numbering

variable {n : Nat} {num : Numbering}

/-- The state in place `i` has identifier `i + 1`. -/
theorem id?_of_getElem? (hv : Roster.Valid n num.roster) {i h : Nat}
    (hi : num.roster.order[i]? = some h) : num.id? h = some (i + 1) := by
  unfold id?
  rw [(hv.place?_iff h i).mpr hi]
  rfl

theorem nodeId_of_id? {i h : Nat} (hi : num.id? h = some i) : num.nodeId h = i := by
  unfold nodeId
  rw [hi]
  rfl

/-- What has entered a roster under way is drawn with an identifier up to the number that have. -/
theorem nodeId_pos_le (hv : Roster.Valid n num.roster) {met : Roster} (hl : met.Leads num.roster)
    {h : Nat} (hh : h ∈ met.order) : 0 < num.nodeId h ∧ num.nodeId h ≤ met.order.size := by
  obtain ⟨i, hi⟩ := Array.mem_iff_getElem?.mp hh
  obtain ⟨hlt, -⟩ := Array.getElem?_eq_some_iff.mp hi
  rw [nodeId_of_id? (id?_of_getElem? hv (hl i h hi))]
  omega

end Numbering

/-! ## The walk -/

namespace Diagram

/-- The moves that a state lists leave it. -/
theorem Coherent.source_of_mem {d : Diagram} (hc : d.Coherent) {h : Nat} {m : Move}
    (hm : m ∈ d.movesFrom h) : m.source = h := by
  obtain ⟨i, hi, hm⟩ := List.mem_filterMap.mp hm
  obtain ⟨m', hm', hsource⟩ := hc.outgoing h i hi
  rw [hm, Option.some.injEq] at hm'
  rw [hm', hsource]

end Diagram

namespace Automaton

/-- Whether the state with an identifier is accepting. -/
def acceptsAt (a : Automaton) (num : Numbering) (i : Nat) : Bool :=
  (num.handle? i).any fun h => (a.state h).isAccept

/-- The edge that is drawn for a move. -/
def edgeOf (num : Numbering) (m : Move) : Nat × Nat × Option Label :=
  (num.nodeId m.source, num.nodeId m.target, some m.label)

section Walk

variable {a : Automaton} {n : Nat} {num : Numbering}

theorem acceptsAt_of_getElem? {i h : Nat} (hi : num.roster.order[i]? = some h) :
    a.acceptsAt num (i + 1) = (a.state h).isAccept := by
  show (num.roster.order[i]?).any (fun h => (a.state h).isAccept) = (a.state h).isAccept
  rw [hi]
  rfl

/-- The identifiers of an automaton's numbering are those of states. -/
theorem exists_id?_of_mem_range {i : Nat} (hi : i ∈ List.range' 1 a.numbering.size) :
    ∃ h, a.numbering.id? h = some i ∧ (a.state h).isAccept = a.acceptsAt a.numbering i := by
  obtain ⟨j, hj, rfl⟩ := List.mem_range'.mp hi
  have hplace : a.numbering.roster.order[j]? = some a.numbering.roster.order[j] :=
    Array.getElem?_eq_getElem hj
  rw [Nat.one_mul, Nat.add_comm]
  exact ⟨_, Numbering.id?_of_getElem? a.valid_numbering hplace,
    (acceptsAt_of_getElem? hplace).symm⟩

theorem edges_describeMoves (a : Automaton) (num : Numbering) (met : Roster) (ms : List Move) :
    (⟨a.describeMoves num met ms⟩ : Graph).edges = ms.map (edgeOf num) := by
  induction ms generalizing met with
  | nil => rfl
  | cons m ms ih =>
    unfold describeMoves
    dsimp only
    split
    · rw [Graph.edges_edge, ih]
      rfl
    · rw [Graph.edges_node, Graph.edges_edge, ih]
      rfl

/-- The moves of a state state the nodes of the states that they are the first to lead to. -/
theorem orderly_describeMoves (hnum : Roster.Valid n num.roster) {met : Roster} {ms : List Move}
    (hv : Roster.Valid n met) (hl : (met.enterAll (ms.map Move.target)).Leads num.roster)
    (hsource : ∀ m ∈ ms, m.source ∈ met.order) (htarget : ∀ m ∈ ms, m.target < n) :
    Orderly (a.acceptsAt num) met.order.size (a.describeMoves num met ms)
      (met.enterAll (ms.map Move.target)).order.size := by
  induction ms generalizing met with
  | nil => exact .nil _
  | cons m ms ih =>
    have hm := List.forall_mem_cons.mp hsource
    have ht := List.forall_mem_cons.mp htarget
    have hv' := hv.enter m.target
    have hl' : (met.enter m.target).Leads num.roster := (Roster.leads_enterAll hv' _).trans hl
    have hmem : ∀ {x}, x ∈ met.order → x ∈ (met.enter m.target).order :=
      fun hx => (Roster.mem_enter hv m.target _).mpr (Or.inl hx)
    have hrest := ih hv' hl (fun m' hm' => hmem (hm.2 m' hm')) ht.2
    have hs := Numbering.nodeId_pos_le hnum hl' (hmem hm.1)
    have hend := Numbering.nodeId_pos_le hnum hl'
      ((Roster.mem_enter hv m.target _).mpr (Or.inr ⟨rfl, ht.1⟩))
    have hedge := Orderly.edge (some m.label) hs hend hrest
    rw [List.map_cons, Roster.enterAll, List.foldl_cons, ← Roster.enterAll, describeMoves]
    by_cases hmet : m.target ∈ met.order
    · -- The target has a node: the roster stays as it is.
      rw [if_pos ((hv.contains_iff _).mpr hmet)]
      rwa [Roster.enter_of_mem hv hmet] at hedge ⊢
    · -- The target enters in the next place, so its node is the next one.
      obtain ⟨hsize, hlast⟩ := Roster.getElem?_enter_of_new hv ht.1 hmet
      have hplace := hl' _ _ hlast
      have hnode := Numbering.nodeId_of_id? (Numbering.id?_of_getElem? hnum hplace)
      rw [if_neg (mt (hv.contains_iff _).mp hmet), ← acceptsAt_of_getElem? (a := a) hplace, hnode]
      rw [hsize, hnode] at hedge
      exact .node hedge

/-- A walk that ends with the numbered states states the nodes of those not met yet. -/
theorem orderly_describeFrom (hc : a.Coherent) {met : Roster} {i : Nat}
    (hv : Roster.Valid a.states.size met) (hnum : met.explore a.successors i = num.roster) :
    Orderly (a.acceptsAt num) met.order.size (a.describeFrom num met i)
      num.roster.order.size := by
  have hvalid : Roster.Valid a.states.size num.roster := hnum ▸ hv.explore i
  fun_induction a.describeFrom num met i with
  | case1 met i hi ih =>
    rw [Roster.explore, dif_pos hi] at hnum
    have hv' := hv.enterAll (a.successors met.order[i])
    have hl : (met.enterAll (a.successors met.order[i])).Leads num.roster :=
      hnum ▸ Roster.leads_explore hv' (i + 1)
    refine (orderly_describeMoves hvalid hv hl ?_ ?_).append (ih hv' hnum)
    · intro m hm
      rw [hc.toCoherent.source_of_mem hm]
      exact Array.getElem_mem hi
    · intro m hm
      exact hc.toCoherent.target_lt_of_mem hm
  | case2 met i hi =>
    rw [Roster.explore, dif_neg hi] at hnum
    rw [hnum]
    exact .nil _

/-- It states an edge for each move of the states from place `i` on. -/
theorem edges_describeFrom {met : Roster} {i : Nat} (hv : Roster.Valid a.states.size met)
    (hnum : met.explore a.successors i = num.roster) :
    (⟨a.describeFrom num met i⟩ : Graph).edges =
      (num.order.drop i).flatMap fun h => (a.movesFrom h).map (edgeOf num) := by
  fun_induction a.describeFrom num met i with
  | case1 met i hi ih =>
    have hl : met.Leads num.roster := hnum ▸ Roster.leads_explore hv i
    rw [Roster.explore, dif_pos hi] at hnum
    have hdrop : num.order.drop i = met.order[i] :: num.order.drop (i + 1) := hl.drop_eq_cons hi
    rw [Graph.edges_append, edges_describeMoves, ih (hv.enterAll _) hnum, hdrop, List.flatMap_cons]
  | case2 met i hi =>
    rw [Roster.explore, dif_neg hi] at hnum
    have hdrop : num.order.drop i = [] := by
      rw [List.drop_eq_nil_iff]
      unfold Numbering.order
      rw [← hnum, Array.length_toList]
      exact Nat.le_of_not_lt hi
    rw [hdrop]
    rfl

end Walk

end Automaton

/-! ## The moves that are drawn -/

theorem forall₂_filterMap {α β : Type} {R : α → β → Prop} {f : α → Option β} {xs : List α}
    (h : ∀ x ∈ xs, ∃ y, f x = some y ∧ R x y) : List.Forall₂ R xs (xs.filterMap f) := by
  induction xs with
  | nil => exact .nil
  | cons x xs ih =>
    obtain ⟨⟨y, hy, hxy⟩, hxs⟩ := List.forall_mem_cons.mp h
    rw [List.filterMap_cons_some hy]
    exact .cons hxy (ih hxs)

namespace Diagram

variable {d : Diagram}

/-- Each move is listed once at the state it leaves. -/
def ListsOnce (d : Diagram) : Prop :=
  ∀ i m, d.moves[i]? = some m → (d.state m.source).outgoing.count i = 1

theorem Consistent.listsOnce (hc : d.Consistent) : d.ListsOnce := by
  intro i m hm
  have hlt := hc.source_lt m (Array.mem_of_getElem? hm)
  rw [(lists_of_eq_movesWhere hc.outgoing).count i m hm _ hlt, if_pos rfl]

/-- No state lists a move twice, since it lists only its own. -/
theorem Coherent.nodup_outgoing (hc : d.Coherent) (hl : d.ListsOnce) (h : Nat) :
    (d.state h).outgoing.Nodup := by
  refine List.nodup_iff_count_le_one.mpr fun i => ?_
  by_cases hi : i ∈ (d.state h).outgoing
  · obtain ⟨m, hm, rfl⟩ := hc.outgoing h i hi
    rw [hl i m hm]
  · rw [List.count_eq_zero.mpr hi]
    exact Nat.zero_le 1

end Diagram

namespace Automaton

/-- The moves that are drawn: those of the numbered states in the order of their identifiers, each
state's in the order in which it lists them. -/
def walk (a : Automaton) : List Nat :=
  a.numbering.order.flatMap fun h => (a.state h).outgoing

section Moves

variable {a : Automaton} (hc : a.Coherent)
include hc

/-- A move is drawn exactly if the state that it leaves can be reached. -/
theorem mem_walk (hl : a.ListsOnce) {i : Nat} :
    i ∈ a.walk ↔ ∃ m, a.moves[i]? = some m ∧ a.Reaches a.start m.source := by
  unfold walk
  rw [List.mem_flatMap]
  constructor
  · intro ⟨h, hh, hi⟩
    obtain ⟨m, hm, rfl⟩ := hc.outgoing h i hi
    exact ⟨m, hm, (mem_order_numbering hc _).mp (Array.mem_toList_iff.mp hh)⟩
  · intro ⟨m, hm, hreach⟩
    refine ⟨m.source, Array.mem_toList_iff.mpr ((mem_order_numbering hc _).mpr hreach), ?_⟩
    exact List.count_pos_iff.mp (by rw [hl i m hm]; exact Nat.one_pos)

theorem nodup_walk (hl : a.ListsOnce) : a.walk.Nodup := by
  unfold walk
  rw [List.nodup_flatMap]
  refine ⟨fun h _ => hc.toCoherent.nodup_outgoing hl h, ?_⟩
  have horder : a.numbering.order.Nodup := a.valid_numbering.nodup
  refine horder.imp fun {h h'} hne => ?_
  intro i hi hi'
  -- A move listed at two states would leave both.
  obtain ⟨m, hm, rfl⟩ := hc.outgoing h i hi
  obtain ⟨m', hm', rfl⟩ := hc.outgoing h' i hi'
  rw [hm, Option.some.injEq] at hm'
  exact hne (congrArg Move.source hm')

end Moves

/-- The edge is that of the move with the handle, between the identifiers of its ends. -/
def Draws (a : Automaton) (i : Nat) (e : Nat × Nat × Option Label) : Prop :=
  ∃ m, a.moves[i]? = some m ∧ a.numbering.id? m.source = some e.1 ∧
    a.numbering.id? m.target = some e.2.1 ∧ e.2.2 = some m.label

theorem forall₂_draws {a : Automaton} (hc : a.Coherent) (hl : a.ListsOnce) :
    List.Forall₂ a.Draws a.walk
      (a.numbering.order.flatMap fun h => (a.movesFrom h).map (edgeOf a.numbering)) := by
  have hedges : (a.numbering.order.flatMap fun h => (a.movesFrom h).map (edgeOf a.numbering)) =
      a.walk.filterMap fun i => (a.moves[i]?).map (edgeOf a.numbering) := by
    unfold walk
    rw [List.filterMap_flatMap]
    refine List.flatMap_congr fun h _ => ?_
    exact List.map_filterMap
  rw [hedges]
  refine forall₂_filterMap fun i hi => ?_
  obtain ⟨m, hm, hreach⟩ := (mem_walk hc hl).mp hi
  have hmem : m ∈ a.movesFrom m.source :=
    List.mem_filterMap.mpr ⟨i, List.count_pos_iff.mp (by rw [hl i m hm]; exact Nat.one_pos), hm⟩
  obtain ⟨s, hs⟩ := exists_id?_of_reaches hc hreach
  obtain ⟨t, ht⟩ := exists_id?_of_reaches hc (hreach.trans (Diagram.Reaches.single hmem))
  refine ⟨edgeOf a.numbering m, by rw [hm]; rfl, m, hm, ?_, ?_, rfl⟩
  · rw [hs, edgeOf, Numbering.nodeId_of_id? hs]
  · rw [ht, edgeOf, Numbering.nodeId_of_id? ht]

/-! ## The description -/

/-- The description says all there is to reach, in order: it opens with the entry and the start; the
nodes have the identifiers of the numbered states without gap, and their marks; the edges are that
from the entry and one for each move of a state that can be reached, between the identifiers of its
ends; and a node is stated before the edges that name it. -/
structure DescribedBy (a : Automaton) (g : Graph) : Prop where
  opening : ∃ ss, g.statements =
    .entry :: .node 1 (a.state a.start).isAccept :: .edge 0 1 none :: ss
  nodes : g.nodes.map Prod.fst = List.range' 1 a.numbering.size
  marked : ∀ i b, (i, b) ∈ g.nodes →
    ∃ h, a.numbering.id? h = some i ∧ (a.state h).isAccept = b
  edges : ∃ es, g.edges = (0, 1, none) :: es ∧ List.Forall₂ a.Draws a.walk es ∧
    ∀ e ∈ es, e.1 ≠ 0 ∧ e.2.1 ≠ 0
  nodup_walk : a.walk.Nodup
  mem_walk : ∀ i, i ∈ a.walk ↔ ∃ m, a.moves[i]? = some m ∧ a.Reaches a.start m.source
  stated : ∀ xs s t label ys, g.statements = xs ++ .edge s t label :: ys →
    ∀ i, i = s ∨ i = t → i ≠ 0 → ∃ b, .node i b ∈ xs

/-- The description has a node for each state, an edge for each move and one from the entry. -/
structure CountedBy (a : Automaton) (g : Graph) : Prop where
  length_nodes : g.nodes.length = a.states.size
  length_edges : g.edges.length = a.moves.size + 1
  length_statements : g.statements.length = a.states.size + a.moves.size + 2

section Description

variable {a : Automaton} (hc : a.Coherent)
include hc

theorem enter_start : ((Roster.blank a.states.size).enter a.start).order = #[a.start] := by
  have hnew : a.start ∉ (Roster.blank a.states.size).order := by simp [Roster.blank]
  rw [Roster.enter_of_new (Roster.valid_blank _) hc.start_lt hnew]
  rfl

theorem getElem?_start : a.numbering.roster.order[0]? = some a.start := by
  have hv := (Roster.valid_blank a.states.size).enter a.start
  refine Roster.leads_explore hv 0 0 a.start ?_
  rw [enter_start hc]
  rfl

/-- The opening, and what the walk states behind it. -/
theorem statements_graph : ∃ ss,
    a.graph.statements =
      .entry :: .node 1 (a.acceptsAt a.numbering 1) :: .edge 0 1 none :: ss ∧
    Orderly (a.acceptsAt a.numbering) 1 ss a.numbering.size ∧
    (⟨ss⟩ : Graph).edges =
      a.numbering.order.flatMap fun h => (a.movesFrom h).map (edgeOf a.numbering) := by
  have hv := (Roster.valid_blank a.states.size).enter a.start
  have hstart := getElem?_start hc
  have hid := Numbering.nodeId_of_id? (Numbering.id?_of_getElem? a.valid_numbering hstart)
  have horderly : Orderly (a.acceptsAt a.numbering) _ _ a.numbering.size :=
    orderly_describeFrom hc hv rfl
  rw [enter_start hc] at horderly
  refine ⟨_, ?_, horderly, edges_describeFrom hv rfl⟩
  unfold graph
  dsimp only
  rw [acceptsAt_of_getElem? hstart, hid]
  rfl

/-- The nodes have the identifiers from 1 on, each once and in order. -/
theorem nodes_graph : a.graph.nodes =
    (List.range' 1 a.numbering.size).map fun i => (i, a.acceptsAt a.numbering i) := by
  obtain ⟨ss, hss, horderly, -⟩ := statements_graph hc
  have hsize : a.numbering.size = a.numbering.size - 1 + 1 := by
    have := horderly.le
    omega
  show (⟨a.graph.statements⟩ : Graph).nodes = _
  rw [hss, Graph.nodes_entry, Graph.nodes_node, Graph.nodes_edge, horderly.nodes_eq, hsize,
    List.range'_succ]
  rfl

theorem edges_graph : a.graph.edges = (0, 1, none) ::
    a.numbering.order.flatMap fun h => (a.movesFrom h).map (edgeOf a.numbering) := by
  obtain ⟨ss, hss, -, hedges⟩ := statements_graph hc
  show (⟨a.graph.statements⟩ : Graph).edges = _
  rw [hss, Graph.edges_entry, Graph.edges_node, Graph.edges_edge, hedges]

theorem length_statements_graph :
    a.graph.statements.length = a.graph.nodes.length + a.graph.edges.length + 1 := by
  obtain ⟨ss, hss, horderly, hedges⟩ := statements_graph hc
  have hle := horderly.le
  have hlength := horderly.length_eq
  rw [horderly.nodes_eq, hedges] at hlength
  rw [nodes_graph hc, edges_graph hc, hss]
  simp only [List.length_cons, List.length_map, List.length_range'] at hlength ⊢
  omega

/-- Both ends of an edge are stated before it, but for the entry, which is stated first. -/
theorem stated_graph {xs ys : List Statement} {s t : Nat} {label : Option Label}
    (hxs : a.graph.statements = xs ++ .edge s t label :: ys) {i : Nat} (hi : i = s ∨ i = t)
    (hne : i ≠ 0) : ∃ b, .node i b ∈ xs := by
  obtain ⟨ss, hss, horderly, -⟩ := statements_graph hc
  rw [hss] at hxs
  -- The edge cannot be the first statement or the second; the third is the edge from the entry.
  rcases xs with _ | ⟨x, _ | ⟨y, _ | ⟨z, xs⟩⟩⟩
  · cases hxs
  · cases hxs
  · cases hxs
    rcases hi with rfl | rfl
    · exact absurd rfl hne
    · exact ⟨_, List.mem_cons_of_mem _ List.mem_cons_self⟩
  · simp only [List.cons_append, List.cons.injEq] at hxs
    obtain ⟨rfl, rfl, rfl, rfl⟩ := hxs
    rcases horderly.stated hi with hle | hmem
    · obtain rfl : i = 1 := by omega
      exact ⟨_, List.mem_cons_of_mem _ List.mem_cons_self⟩
    · exact ⟨_, List.mem_cons_of_mem _ (List.mem_cons_of_mem _ (List.mem_cons_of_mem _ hmem))⟩

theorem describedBy_graph (hl : a.ListsOnce) : a.DescribedBy a.graph := by
  obtain ⟨ss, hss, horderly, hedges⟩ := statements_graph hc
  have hstart := acceptsAt_of_getElem? (a := a) (getElem?_start hc)
  refine ⟨⟨ss, ?_⟩, ?_, ?_, ⟨_, edges_graph hc, forall₂_draws hc hl, ?_⟩, nodup_walk hc hl,
    fun i => mem_walk hc hl, ?_⟩
  · rw [hss, hstart]
  · rw [nodes_graph hc, List.map_map]
    exact List.map_id _
  · intro i b hib
    rw [nodes_graph hc] at hib
    obtain ⟨j, hj, heq⟩ := List.mem_map.mp hib
    obtain ⟨rfl, rfl⟩ := Prod.mk.inj heq
    exact exists_id?_of_mem_range hj
  · intro e he
    rw [← hedges] at he
    obtain ⟨hs, ht⟩ := horderly.pos_of_mem_edges e he
    exact ⟨Nat.ne_of_gt hs, Nat.ne_of_gt ht⟩
  · intro xs s t label ys hxs i hi hne
    exact stated_graph hc hxs hi hne

theorem countedBy_graph (hl : a.ListsOnce) (hlt : ∀ m ∈ a.moves, m.source < a.states.size)
    (hr : ∀ h < a.states.size, a.Reaches a.start h) : a.CountedBy a.graph := by
  have hnodes : a.graph.nodes.length = a.states.size := by
    rw [nodes_graph hc, List.length_map, List.length_range']
    have hperm := (perm_order_numbering hc hr).length_eq
    rw [List.length_range] at hperm
    exact hperm
  have hwalk : a.walk.Perm (List.range a.moves.size) := by
    refine (List.perm_ext_iff_of_nodup (nodup_walk hc hl) List.nodup_range).mpr fun i => ?_
    rw [mem_walk hc hl, List.mem_range]
    constructor
    · intro ⟨m, hm, _⟩
      exact (Array.getElem?_eq_some_iff.mp hm).1
    · intro hi
      exact ⟨_, Array.getElem?_eq_getElem hi, hr _ (hlt _ (Array.getElem_mem hi))⟩
  have hedges : a.graph.edges.length = a.moves.size + 1 := by
    rw [edges_graph hc, List.length_cons, ← (forall₂_draws hc hl).length_eq, hwalk.length_eq,
      List.length_range]
  refine ⟨hnodes, hedges, ?_⟩
  rw [length_statements_graph hc, hnodes, hedges]
  omega

end Description

theorem Consistent.coherent {a : Automaton} (hc : a.Consistent) : a.Coherent where
  toCoherent := hc.toConsistent.coherent
  start_lt := hc.start_lt

theorem Consistent.describedBy_graph {a : Automaton} (hc : a.Consistent)
    (hr : ∀ h < a.states.size, a.Reaches a.start h) :
    a.DescribedBy a.graph ∧ a.CountedBy a.graph :=
  ⟨Automaton.describedBy_graph hc.coherent hc.listsOnce,
    countedBy_graph hc.coherent hc.listsOnce hc.source_lt hr⟩

end Automaton

/-- Whatever automaton is described, the description says all there is to reach, in order. That of a
fragment or of its deterministic automaton has all states and all moves. -/
theorem graph_describes :
    (∀ a : Automaton, a.Coherent → a.ListsOnce → a.DescribedBy a.graph) ∧
    ∀ n : Nfa, n.Built →
      (n.automaton.DescribedBy n.automaton.graph ∧ n.automaton.CountedBy n.automaton.graph) ∧
      ((Dfa.ofNfa n).DescribedBy (Dfa.ofNfa n).graph ∧
        (Dfa.ofNfa n).CountedBy (Dfa.ofNfa n).graph) := by
  refine ⟨fun a hc hl => Automaton.describedBy_graph hc hl, fun n h => ?_⟩
  have hn := h.fragment
  refine ⟨hn.consistent_automaton.describedBy_graph fun s hs => (h.through s hs).1, ?_⟩
  obtain ⟨s, heq, hp, hac⟩ := Subsets.accessible_ofNfa hn
  rw [heq]
  refine hp.consistent_automaton.describedBy_graph fun i hi => ?_
  rw [hp.start]
  exact hac i hi

/-- A state with two loops, and a second one that leads to it and cannot be reached. -/
def Automaton.twoLoops : Automaton where
  toDiagram := (({} : Diagram).addState { isAccept := true }).addState {}
    |>.addMove 0 0 .epsilon |>.addMove 1 0 (.symbol 'b') |>.addMove 0 0 (.symbol 'a')

theorem graph_describes_twoLoops :
    (Automaton.twoLoops.Coherent ∧ Automaton.twoLoops.ListsOnce ∧
      Automaton.twoLoops.DescribedBy Automaton.twoLoops.graph) ∧
    (Nfa.symbol 'a').closure.Built ∧
      ((Nfa.symbol 'a').closure.automaton.DescribedBy (Nfa.symbol 'a').closure.automaton.graph ∧
        (Nfa.symbol 'a').closure.automaton.CountedBy (Nfa.symbol 'a').closure.automaton.graph) ∧
      ((Dfa.ofNfa (Nfa.symbol 'a').closure).DescribedBy
          (Dfa.ofNfa (Nfa.symbol 'a').closure).graph ∧
        (Dfa.ofNfa (Nfa.symbol 'a').closure).CountedBy
          (Dfa.ofNfa (Nfa.symbol 'a').closure).graph) := by
  have hd : Automaton.twoLoops.toDiagram.Consistent :=
    ((((Diagram.consistent_empty.addState rfl rfl).addState rfl rfl).addMove
      (by decide) (by decide) _).addMove (by decide) (by decide) _).addMove
        (by decide) (by decide) _
  have hc : Automaton.twoLoops.Coherent := ⟨hd.coherent, by decide⟩
  have hbuilt : (Nfa.symbol 'a').closure.Built := .closure (.symbol 'a')
  exact ⟨⟨hc, hd.listsOnce, graph_describes.1 _ hc hd.listsOnce⟩, hbuilt,
    graph_describes.2 _ hbuilt⟩

end PatternAutomata
