import Ctadl.Graph.Semidominators

/-! # When the dominator tree holds the immediate dominators

The loop that fills in the deferred dominators reads the entry of the node deferred to before that one
is filled in, if it was deferred itself, and so leaves the start there. Every other entry is the
immediate dominator. A start other than node 0 is taken for a node without a parent, and the
computation panics.
-/

namespace Ctadl.Graph

open Function Flowgraph

namespace DomImpl

variable {graph : ControlFlowGraph} {impl impl' : DomImpl}

/-- Neither the numbering nor the tree is written after the search. -/
structure SameTree (impl impl' : DomImpl) : Prop where
  vertex : impl'.vertex = impl.vertex
  parent : impl'.parent = impl.parent

theorem SameTree.trans {impl'' : DomImpl} (first : SameTree impl impl') (second : SameTree impl' impl'') :
    SameTree impl impl'' where
  vertex := second.vertex.trans first.vertex
  parent := second.parent.trans first.parent

theorem findCandidateAncestor_sameTree {fuel v y : ℕ} (found : impl.findCandidateAncestor fuel v = some (y, impl')) :
    SameTree impl impl' := by
  induction fuel generalizing v y impl' with
  | zero => simp [findCandidateAncestor] at found
  | succ fuel ih =>
    rw [findCandidateAncestor] at found
    obtain ⟨a, -, found⟩ := Option.bind_eq_some_iff.mp found
    cases further : impl.ancestor a with
    | none =>
      simp only [further, Option.some.injEq, Prod.mk.injEq] at found
      obtain ⟨-, rfl⟩ := found
      exact ⟨rfl, rfl⟩
    | some up =>
      simp only [further] at found
      obtain ⟨⟨b, mid⟩, inner, found⟩ := Option.bind_eq_some_iff.mp found
      have below := ih inner
      simp only [Option.some.injEq, Prod.mk.injEq] at found
      obtain ⟨-, rfl⟩ := found
      split_ifs
      · exact ⟨below.vertex, below.parent⟩
      · exact ⟨below.vertex, below.parent⟩

theorem lowerSemi_sameTree {fuel n v s s' : ℕ} (ran : lowerSemi fuel n (impl, s) v = some (impl', s')) :
    SameTree impl impl' := by
  rw [lowerSemi] at ran
  split_ifs at ran
  · simp only [Option.bind_eq_bind, Option.bind_some, Option.some.injEq, Prod.mk.injEq] at ran
    obtain ⟨rfl, -⟩ := ran
    exact ⟨rfl, rfl⟩
  · obtain ⟨⟨u, found⟩, isFound, ran⟩ := Option.bind_eq_some_iff.mp ran
    simp only [Option.bind_eq_bind, Option.bind_some, Option.some.injEq, Prod.mk.injEq] at ran
    obtain ⟨rfl, -⟩ := ran
    exact findCandidateAncestor_sameTree isFound

theorem emptyBucket_sameTree {fuel p v : ℕ} (ran : emptyBucket fuel p impl v = some impl') : SameTree impl impl' := by
  rw [emptyBucket] at ran
  obtain ⟨⟨y, mid⟩, isFound, ran⟩ := Option.bind_eq_some_iff.mp ran
  have found := findCandidateAncestor_sameTree isFound
  dsimp only at ran
  split_ifs at ran
  all_goals
    obtain rfl := Option.some.inj ran
    exact ⟨found.vertex, found.parent⟩

/-- A loop whose every step keeps the tree keeps the tree. -/
private theorem foldlM_sameTree {σ β : Type} (table : σ → DomImpl) (f : σ → β → Option σ)
    (step : ∀ s b s', f s b = some s' → SameTree (table s) (table s')) (items : List β) (s s' : σ)
    (ran : items.foldlM f s = some s') : SameTree (table s) (table s') := by
  induction items generalizing s with
  | nil =>
    obtain rfl := Option.some.inj ran
    exact ⟨rfl, rfl⟩
  | cons b items ih =>
    rw [List.foldlM_cons] at ran
    obtain ⟨mid, first, rest⟩ := Option.bind_eq_some_iff.mp ran
    exact (step s b mid first).trans (ih mid rest)

theorem semidomNode_sameTree {hash : HashOrder} {i : ℕ} (ran : semidomNode graph hash impl i = some impl') :
    SameTree impl impl' := by
  rw [semidomNode] at ran
  split_ifs at ran
  · obtain rfl := Option.some.inj ran
    exact ⟨rfl, rfl⟩
  · obtain ⟨p, -, ran⟩ := Option.bind_eq_some_iff.mp ran
    obtain ⟨⟨lowered, s⟩, isLowered, ran⟩ := Option.bind_eq_some_iff.mp ran
    obtain ⟨emptied, isEmptied, ran⟩ := Option.bind_eq_some_iff.mp ran
    obtain rfl := Option.some.inj ran
    have first := foldlM_sameTree Prod.fst (lowerSemi graph.numNodes (impl.vertex i))
      (fun _ _ _ step => lowerSemi_sameTree step) _ _ _ isLowered
    have second := foldlM_sameTree id (emptyBucket graph.numNodes p)
      (fun _ _ _ step => emptyBucket_sameTree step) _ _ _ isEmptied
    exact ⟨second.vertex.trans first.vertex, second.parent.trans first.parent⟩

/-- The loop comes to number 0 last and asks for the parent of the start. -/
theorem semidom_eq_none (hash : HashOrder) (offZero : graph.startNode ≠ 0) (positive : 0 < graph.numNodes)
    (first : impl.vertex 0 = graph.startNode) (orphan : impl.parent graph.startNode = none) :
    semidom graph hash impl = none := by
  obtain ⟨n, count⟩ : ∃ n, graph.numNodes = n + 1 := ⟨graph.numNodes - 1, by omega⟩
  apply Option.eq_none_iff_forall_ne_some.mpr
  intro last ran
  rw [semidom, count, List.range_succ_eq_map, List.reverse_cons, List.foldlM_append] at ran
  obtain ⟨mid, before, atZero⟩ := Option.bind_eq_some_iff.mp ran
  have kept := foldlM_sameTree id (semidomNode graph hash) (fun _ _ _ step => semidomNode_sameTree step) _ _ _ before
  have stops : semidomNode graph hash mid 0 = none := by
    have parent : mid.parent (mid.vertex 0) = none := by
      rw [show mid.vertex = impl.vertex from kept.vertex, show mid.parent = impl.parent from kept.parent, first, orphan]
    simp [semidomNode, Ne.symm offZero, parent]
  simp [stops] at atZero

end DomImpl

/-- In the depth-first tree of the search, no node is deferred to a node that is itself deferred, unless
it is the start that dominates it immediately. -/
def ControlFlowGraph.NoChainedDeferral (graph : ControlFlowGraph) : Prop :=
  ∀ impl, DomImpl.new.dfs graph = some impl → ∀ n < graph.numNodes, ∀ y z,
    Defers graph.Edge impl.dfnum impl.parent n y → Defers graph.Edge impl.dfnum impl.parent y z →
      IsImmediateDominator graph.Edge graph.startNode graph.startNode n

/-- The table holds the immediate dominator of every node but the start. -/
def ControlFlowGraph.Immediate (graph : ControlFlowGraph) (tree : DominatorTree) : Prop :=
  ∀ n < graph.numNodes, n ≠ graph.startNode →
    IsImmediateDominator graph.Edge graph.startNode (tree.idom n) n

section Immediate

variable {graph : ControlFlowGraph}

/-- Starting at node 0 the computation returns a table, right where no deferral is chained. -/
theorem DominatorTree.immediate_iff (wellFormed : graph.WellFormed) (reachable : graph.AllReachable)
    (atZero : graph.startNode = 0) (hash : HashOrder) :
    ∃ tree, DominatorTree.new graph hash = some tree ∧ (graph.Immediate tree ↔ graph.NoChainedDeferral) := by
  obtain ⟨dfnum, vertex, parent, searched, numbered⟩ := DomImpl.dfs_numbered wellFormed reachable
  obtain ⟨impl, processed, inv, pathed, rfl, rfl⟩ := DomImpl.semidom_spec wellFormed hash atZero
    (.initially numbered) (DomImpl.dfs_edge wellFormed searched)
  have edges : ∀ {n p}, impl.parent n = some p → graph.Edge p n := DomImpl.dfs_edge wellFormed searched
  have reached : ∀ {n}, n < graph.numNodes → Reachable graph.Edge graph.startNode n := reachable _
  have tree := inv.numbered.tree
  refine ⟨_, by simp [DominatorTree.new, searched, processed]; rfl, ?_, ?_⟩
  · intro right impl' searched' n node y z defers chained
    obtain rfl := Option.some.inj (searched.symm.trans searched')
    have inner : n ≠ graph.startNode := by
      rintro rfl
      obtain ⟨s, -, -, -, between, -⟩ := defers
      have first := tree.num_lt between.1 (Ne.symm between.2.1)
      have second := tree.num_le between.2.2
      have start := inv.numbered.start_num
      omega
    have immediate : IsImmediateDominator graph.Edge graph.startNode (impl.finish graph n) n := right n node inner
    rcases DomImpl.finish_cases inv atZero pathed node inner with
      undeferred | ⟨x, -, again, undeferred | ⟨-, -, isStart⟩⟩
    · exact absurd defers (tree.not_defers_of_undeferred undeferred)
    · exact absurd undeferred (tree.not_undeferred_of_chained edges reached node defers chained again)
    · rwa [isStart] at immediate
  · intro unchained n node inner
    change IsImmediateDominator graph.Edge graph.startNode (impl.finish graph n) n
    rcases DomImpl.finish_cases inv atZero pathed node inner with
      undeferred | ⟨y, yNode, defers, undeferred | ⟨z, chained, isStart⟩⟩
    · exact tree.immediate_of_undeferred edges reached node undeferred
    · apply (tree.immediate_iff_of_defers edges reached node defers).mpr
      exact tree.immediate_of_undeferred edges reached yNode undeferred
    · rw [isStart]
      exact unchained _ searched n node y z defers chained

/-- The computation returns the immediate dominators exactly for a graph that starts at node 0 and in
which no deferral is chained. -/
theorem DominatorTree.new_immediate_iff (wellFormed : graph.WellFormed) (reachable : graph.AllReachable)
    (hash : HashOrder) :
    (∃ tree, DominatorTree.new graph hash = some tree ∧ graph.Immediate tree) ↔
      graph.startNode = 0 ∧ graph.NoChainedDeferral := by
  by_cases atZero : graph.startNode = 0
  · obtain ⟨tree, returned, iff⟩ := DominatorTree.immediate_iff wellFormed reachable atZero hash
    constructor
    · rintro ⟨tree', returned', right⟩
      obtain rfl := Option.some.inj (returned.symm.trans returned')
      exact ⟨atZero, iff.mp right⟩
    · rintro ⟨-, unchained⟩
      exact ⟨tree, returned, iff.mpr unchained⟩
  · refine iff_of_false ?_ fun condition => atZero condition.1
    rintro ⟨tree, returned, -⟩
    obtain ⟨dfnum, vertex, parent, searched, -⟩ := DomImpl.dfs_numbered wellFormed reachable
    obtain ⟨first, orphan⟩ := DomImpl.dfs_start wellFormed searched
    have panics := DomImpl.semidom_eq_none hash atZero (by have := wellFormed.start_lt; omega) first orphan
    simp [DominatorTree.new, searched, panics] at returned

/-- What the last loop leaves for a node does not depend on the order in which buckets were emptied. -/
theorem DomImpl.finish_unique {impl impl' : DomImpl} (inv : DomImpl.SemiInv graph 1 impl) (inv' : DomImpl.SemiInv graph 1 impl')
    (pathed : DomImpl.Pathed graph 1 impl) (pathed' : DomImpl.Pathed graph 1 impl') (sameNum : impl'.dfnum = impl.dfnum)
    (sameParent : impl'.parent = impl.parent) (reachable : graph.AllReachable) (atZero : graph.startNode = 0)
    (edges : ∀ {n p}, impl.parent n = some p → graph.Edge p n) {n : ℕ} (node : n < graph.numNodes)
    (inner : n ≠ graph.startNode) : impl.finish graph n = impl'.finish graph n := by
  have reached : ∀ {n}, n < graph.numNodes → Reachable graph.Edge graph.startNode n := reachable _
  have tree := inv.numbered.tree
  have cases' := DomImpl.finish_cases inv' atZero pathed' node inner
  rw [sameNum, sameParent] at cases'
  have immediate : ∀ {y d}, y < graph.numNodes → Defers graph.Edge impl.dfnum impl.parent n y →
      Undeferred graph.Edge impl.dfnum impl.parent y d → IsImmediateDominator graph.Edge graph.startNode d n :=
    fun yNode defers undeferred => (tree.immediate_iff_of_defers edges reached node defers).mpr
      (tree.immediate_of_undeferred edges reached yNode undeferred)
  rcases DomImpl.finish_cases inv atZero pathed node inner with
    undeferred | ⟨y, yNode, defers, undeferred | ⟨z, chained, isStart⟩⟩
  · rcases cases' with undeferred' | ⟨y', -, defers', -⟩
    · exact tree.immediate_unique edges reached node (tree.immediate_of_undeferred edges reached node undeferred)
        (tree.immediate_of_undeferred edges reached node undeferred')
    · exact absurd defers' (tree.not_defers_of_undeferred undeferred)
  · rcases cases' with undeferred' | ⟨y', yNode', defers', undeferred' | ⟨z', chained', -⟩⟩
    · exact absurd defers (tree.not_defers_of_undeferred undeferred')
    · exact tree.immediate_unique edges reached node (immediate yNode defers undeferred)
        (immediate yNode' defers' undeferred')
    · exact absurd undeferred (tree.not_undeferred_of_chained edges reached node defers' chained' defers)
  · rcases cases' with undeferred' | ⟨y', -, defers', undeferred' | ⟨z', -, isStart'⟩⟩
    · exact absurd defers (tree.not_defers_of_undeferred undeferred')
    · exact absurd undeferred' (tree.not_undeferred_of_chained edges reached node defers chained defers')
    · rw [isStart, isStart']

/-- Two trees with the same parents and numbers for the nodes of a graph. -/
structure DominatorTree.Agree (graph : ControlFlowGraph) (tree tree' : DominatorTree) : Prop where
  idom : ∀ n < graph.numNodes, tree.idom n = tree'.idom n
  dfnum : ∀ n < graph.numNodes, tree.dfnum n = tree'.dfnum n

/-- The order in which the sets of the computation are iterated does not show in its tree. -/
theorem DominatorTree.new_agree (wellFormed : graph.WellFormed) (reachable : graph.AllReachable)
    (atZero : graph.startNode = 0) {hash hash' : HashOrder} {tree tree' : DominatorTree}
    (returned : DominatorTree.new graph hash = some tree) (returned' : DominatorTree.new graph hash' = some tree') :
    DominatorTree.Agree graph tree tree' := by
  obtain ⟨dfnum, vertex, parent, searched, numbered⟩ := DomImpl.dfs_numbered wellFormed reachable
  have edges : ∀ {n p}, parent n = some p → graph.Edge p n := DomImpl.dfs_edge wellFormed searched
  obtain ⟨impl, processed, inv, pathed, sameNum, sameParent⟩ := DomImpl.semidom_spec wellFormed hash atZero
    (.initially numbered) edges
  obtain ⟨impl', processed', inv', pathed', sameNum', sameParent'⟩ := DomImpl.semidom_spec wellFormed hash' atZero
    (.initially numbered) edges
  have isTree : { numNodes := graph.numNodes, startNode := graph.startNode, idom := impl.finish graph, dfnum := impl.dfnum } =
      tree := by simpa [DominatorTree.new, searched, processed] using returned
  have isTree' : { numNodes := graph.numNodes, startNode := graph.startNode, idom := impl'.finish graph, dfnum := impl'.dfnum } =
      tree' := by simpa [DominatorTree.new, searched, processed'] using returned'
  subst isTree isTree'
  refine ⟨fun n node => ?_, fun n _ => by rw [sameNum, sameNum']⟩
  by_cases inner : n = graph.startNode
  · subst inner
    have start := wellFormed.start_lt
    have initial := inv.initial graph.startNode start (.inl (by rw [inv.numbered.start_num]; omega))
    have initial' := inv'.initial graph.startNode start (.inl (by rw [inv'.numbered.start_num]; omega))
    change impl.finish graph graph.startNode = impl'.finish graph graph.startNode
    rw [DomImpl.finish_eq inv atZero start, DomImpl.finish_eq inv' atZero start, if_pos rfl, if_pos rfl, initial.2, initial'.2]
  · refine DomImpl.finish_unique inv inv' pathed pathed' (sameNum'.trans sameNum.symm) (sameParent'.trans sameParent.symm)
      reachable atZero (fun {n p} child => ?_) node inner
    exact edges ((congrFun sameParent n).symm.trans child)

end Immediate

section Chained

/-- The graph with the given edges. -/
def ControlFlowGraph.ofEdges (numNodes startNode : ℕ) (edges : List (ℕ × ℕ)) : ControlFlowGraph where
  numNodes
  startNode
  successors n := (edges.filter fun e => e.1 = n).map (·.2)
  predecessors m := (edges.filter fun e => e.2 = m).map (·.1)

theorem ControlFlowGraph.ofEdges_edge {numNodes startNode n m : ℕ} {edges : List (ℕ × ℕ)} :
    (ofEdges numNodes startNode edges).Edge n m ↔ (n, m) ∈ edges := by
  simp [Edge, ofEdges]

theorem ControlFlowGraph.ofEdges_wellFormed {numNodes startNode : ℕ} {edges : List (ℕ × ℕ)}
    (start_lt : startNode < numNodes) (inside : ∀ e ∈ edges, e.1 < numNodes ∧ e.2 < numNodes) :
    (ofEdges numNodes startNode edges).WellFormed where
  start_lt := start_lt
  successors_lt out := inside _ (ofEdges_edge.mp out)
  mem_predecessors {n m} := by simp [ofEdges]

/-- A hash set that is iterated in the order in which its elements were put in. -/
def inOrder : HashOrder where
  order nodes := nodes
  perm nodes := .refl nodes

/-- Node 5 is deferred to node 4, and node 4 to node 3. -/
def ladder : ControlFlowGraph :=
  .ofEdges 6 0 [(0, 1), (1, 3), (1, 2), (2, 4), (2, 3), (3, 5), (3, 4), (4, 5)]

theorem ladder_wellFormed : ladder.WellFormed :=
  ControlFlowGraph.ofEdges_wellFormed (by decide) (by decide)

theorem ladder_reachable : ladder.AllReachable := by
  intro n node
  induction n with
  | zero => exact .refl
  | succ n ih =>
    have inside : n < 5 := Nat.lt_of_succ_lt_succ node
    have rungs : ∀ k < 5, (k, k + 1) ∈ [(0, 1), (1, 3), (1, 2), (2, 4), (2, 3), (3, 5), (3, 4), (4, 5)] := by
      decide
    exact (ih (Nat.lt_of_succ_lt node)).tail (ControlFlowGraph.ofEdges_edge.mpr (rungs n inside))

/-- Node 0 is left through node 1 only. -/
theorem ladder_dominates : Dominates ladder.Edge ladder.startNode 1 5 := by
  have stays : ∀ n, Avoids ladder.Edge ladder.startNode 1 n → n = 0 := by
    rintro n ⟨-, walk⟩
    induction walk with
    | refl => rfl
    | @tail b c _ step ih =>
      subst ih
      have out := ControlFlowGraph.ofEdges_edge.mp step.1
      simp [step.2] at out
  intro avoids
  exact absurd (stays 5 avoids) (by decide)

/-- The reported dominator of node 5 is the start, although node 1 lies on every way to node 5. -/
theorem ladder_not_immediate : ladder.WellFormed ∧ ladder.AllReachable ∧
    ∃ tree, DominatorTree.new ladder inOrder = some tree ∧ tree.idom 5 = 0 ∧ ¬ ladder.Immediate tree := by
  refine ⟨ladder_wellFormed, ladder_reachable, ?_⟩
  have reported : (DominatorTree.new ladder inOrder).map (·.idom 5) = some 0 := by decide
  obtain ⟨tree, returned, isStart⟩ := Option.map_eq_some_iff.mp reported
  refine ⟨tree, returned, isStart, fun right => ?_⟩
  have immediate := right 5 (by decide) (by decide)
  rw [isStart] at immediate
  have above := immediate.above 1 (by decide) ladder_dominates
  exact above (.root (by decide))

theorem ladder_new_immediate_iff :
    (∃ tree, DominatorTree.new ladder inOrder = some tree ∧ ladder.Immediate tree) ↔
      ladder.startNode = 0 ∧ ladder.NoChainedDeferral :=
  DominatorTree.new_immediate_iff ladder_wellFormed ladder_reachable inOrder

end Chained

end Ctadl.Graph
