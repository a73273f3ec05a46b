import Ctadl.Flowgraph.SpanningTree
import Ctadl.Graph.Dominators
import Mathlib.Algebra.BigOperators.Group.Finset.Basic
import Mathlib.Data.List.Pairwise

/-! # The depth-first search builds a spanning tree

The stack holds a node together with the node it was pushed from. Read from the top, the latter go up
the tree (`Search.Inv.chain`), and each of them is still open: whatever has been numbered since is
below it (`Search.Inv.opened`). Both survive a pop, whether or not the popped node is new, and together
they give the two properties of a depth-first numbering that the rest of the computation relies on.
-/

namespace Ctadl.Graph

open Function Flowgraph

namespace DomImpl.Search

variable {graph : ControlFlowGraph} {search : Search} {n u : ℕ}

/-- What holds between two pops once the start has been numbered. -/
structure Inv (graph : ControlFlowGraph) (search : Search) : Prop where
  seen_nodup : search.seen.Nodup
  counter_eq : search.counter = search.seen.length
  start_seen : graph.startNode ∈ search.seen
  start_num : search.impl.dfnum graph.startNode = 0
  num_lt : ∀ n ∈ search.seen, search.impl.dfnum n < search.counter
  vertex_num : ∀ n ∈ search.seen, search.impl.vertex (search.impl.dfnum n) = n
  num_vertex : ∀ i < search.counter, search.impl.vertex i ∈ search.seen ∧
    search.impl.dfnum (search.impl.vertex i) = i
  parent_some : ∀ n p, search.impl.parent n = some p →
    p ∈ search.seen ∧ n ∈ search.seen ∧ search.impl.dfnum p < search.impl.dfnum n ∧ graph.Edge p n
  parent_none : ∀ n ∈ search.seen, search.impl.parent n = none → n = graph.startNode
  entries : ∀ e ∈ search.nodes, ∃ u ∈ search.seen, e.2 = some u ∧ graph.Edge u e.1
  /-- An edge to a node not yet numbered waits on the stack. -/
  pending : ∀ u ∈ search.seen, ∀ w, graph.Edge u w → w ∈ search.seen ∨ (w, some u) ∈ search.nodes
  chain : search.nodes.Pairwise fun upper lower =>
    ∀ u x, upper.2 = some u → lower.2 = some x → Anc search.impl.parent x u
  opened : ∀ e ∈ search.nodes, ∀ u, e.2 = some u → ∀ a, Anc search.impl.parent a u →
    ∀ b ∈ search.seen, search.impl.dfnum a ≤ search.impl.dfnum b → Anc search.impl.parent a b
  forward : ∀ u ∈ search.seen, ∀ w ∈ search.seen, graph.Edge u w →
    search.impl.dfnum u < search.impl.dfnum w → Anc search.impl.parent u w
  interval : ∀ c ∈ search.seen, ∀ a, Anc search.impl.parent a c → ∀ b ∈ search.seen,
    search.impl.dfnum a ≤ search.impl.dfnum b → search.impl.dfnum b ≤ search.impl.dfnum c →
    Anc search.impl.parent a b

/-- A popped node that has been numbered already is dropped. -/
theorem Inv.drop {e : ℕ × Option ℕ} {nodes : List (ℕ × Option ℕ)} (inv : Inv graph search)
    (top : search.nodes = e :: nodes) (old : e.1 ∈ search.seen) :
    Inv graph { search with nodes } where
  seen_nodup := inv.seen_nodup
  counter_eq := inv.counter_eq
  start_seen := inv.start_seen
  start_num := inv.start_num
  num_lt := inv.num_lt
  vertex_num := inv.vertex_num
  num_vertex := inv.num_vertex
  parent_some := inv.parent_some
  parent_none := inv.parent_none
  entries e kept := inv.entries e (top ▸ .tail _ kept)
  pending u seen w out := by
    rcases inv.pending u seen w out with found | waits
    · exact .inl found
    · rw [top] at waits
      rcases List.mem_cons.mp waits with rfl | kept
      exacts [.inl old, .inr kept]
  chain := (List.pairwise_cons.mp (top ▸ inv.chain)).2
  opened e kept := inv.opened e (top ▸ .tail _ kept)
  forward := inv.forward
  interval := inv.interval

/-- Ancestors of numbered nodes are numbered. -/
private theorem Inv.anc_seen (inv : Inv graph search) {a b : ℕ} (upper : Anc search.impl.parent a b)
    (seen : b ∈ search.seen) : a ∈ search.seen := by
  rcases Relation.ReflTransGen.cases_head upper with rfl | ⟨_, child, -⟩
  exacts [seen, (inv.parent_some _ _ child).1]

private theorem Inv.source_seen (inv : Inv graph search) {w x : ℕ} (waits : (w, some x) ∈ search.nodes) :
    x ∈ search.seen := by
  obtain ⟨_, seen, same, -⟩ := inv.entries _ waits
  exact Option.some.inj same ▸ seen

section Visit

variable {nodes : List (ℕ × Option ℕ)} (inv : Inv graph search) (top : search.nodes = (n, some u) :: nodes)
  (new : n ∉ search.seen)
include inv top new

private abbrev after (graph : ControlFlowGraph) (search : Search) (nodes : List (ℕ × Option ℕ)) (n u : ℕ) :
    Search := Search.visit graph { search with nodes } n (some u)

omit inv new in
private theorem on_top : (n, some u) ∈ search.nodes := by simp [top]

omit inv new in
private theorem below_top {e : ℕ × Option ℕ} (kept : e ∈ nodes) : e ∈ search.nodes := by simp [top, kept]

omit inv top in
private theorem num_old {b : ℕ} (seen : b ∈ search.seen) :
    (after graph search nodes n u).impl.dfnum b = search.impl.dfnum b :=
  update_of_ne (by rintro rfl; exact new seen) _ _

omit inv top new in
private theorem num_new : (after graph search nodes n u).impl.dfnum n = search.counter := update_self ..

omit inv top in
private theorem ne_new {b : ℕ} (seen : b ∈ search.seen) : b ≠ n := by
  rintro rfl
  exact new seen

/-- The ancestors of the new node are those of the node it was pushed from. -/
private theorem anc_after {a c : ℕ} :
    Anc (after graph search nodes n u).impl.parent a c ↔
      (c = n ∧ (a = n ∨ Anc search.impl.parent a u)) ∨ (c ≠ n ∧ Anc search.impl.parent a c) := by
  have uSeen : u ∈ search.seen := inv.source_seen (on_top top)
  have grows : ∀ {a c}, Anc search.impl.parent a c → Anc (update search.impl.parent n (some u)) a c := by
    refine fun upper => Relation.ReflTransGen.mono (fun p c child => ?_) _ _ upper
    rwa [update_of_ne (ne_new new (inv.parent_some _ _ child).2.1)]
  constructor
  · intro upper
    induction upper with
    | refl =>
      by_cases same : a = n
      · exact .inl ⟨same, .inl same⟩
      · exact .inr ⟨same, .refl a⟩
    | @tail b c _ child ih =>
      by_cases same : c = n
      · subst same
        obtain rfl : u = b := by simpa [Search.visit] using child
        rcases ih with ⟨rfl, -⟩ | ⟨-, upper⟩
        · exact absurd uSeen new
        · exact .inl ⟨rfl, .inr upper⟩
      · replace child : search.impl.parent c = some b := by
          simpa only [Search.visit, update_of_ne same] using child
        rcases ih with ⟨rfl, -⟩ | ⟨-, upper⟩
        · exact absurd (inv.parent_some _ _ child).1 new
        · exact .inr ⟨same, upper.child child⟩
  · rintro (⟨rfl, rfl | upper⟩ | ⟨-, upper⟩)
    · exact .refl _
    · exact (grows upper).child (by simp)
    · exact grows upper

omit new in
/-- The nodes left on the stack were pushed from ancestors of the node popped. -/
private theorem above_source {w x : ℕ} (waits : (w, some x) ∈ nodes) : Anc search.impl.parent x u := by
  have chain := inv.chain
  rw [top, List.pairwise_cons] at chain
  exact chain.1 _ waits u x rfl rfl

/-- Every ancestor of the node it was pushed from has the new node below it. -/
private theorem opened_after {a b : ℕ} (upper : Anc search.impl.parent a u) (seen : b ∈ n :: search.seen)
    (le : (after graph search nodes n u).impl.dfnum a ≤ (after graph search nodes n u).impl.dfnum b) :
    Anc (after graph search nodes n u).impl.parent a b := by
  rw [anc_after inv top new]
  rcases List.mem_cons.mp seen with rfl | seen
  · exact .inl ⟨rfl, .inr upper⟩
  · have uSeen : u ∈ search.seen := inv.source_seen (on_top top)
    rw [num_old new seen, num_old new (inv.anc_seen upper uSeen)] at le
    exact .inr ⟨ne_new new seen, inv.opened (n, some u) (on_top top) u rfl a upper b seen le⟩

/-- Only the new node is numbered after the new node. -/
private theorem opened_new {a b : ℕ} (upper : Anc (after graph search nodes n u).impl.parent a n)
    (seen : b ∈ n :: search.seen)
    (le : (after graph search nodes n u).impl.dfnum a ≤ (after graph search nodes n u).impl.dfnum b) :
    Anc (after graph search nodes n u).impl.parent a b := by
  rcases (anc_after inv top new).mp upper with ⟨-, rfl | upper⟩ | ⟨other, -⟩
  · rcases List.mem_cons.mp seen with rfl | seen
    · exact .refl _
    · rw [num_new, num_old new seen] at le
      exact absurd (inv.num_lt b seen) (by omega)
  · exact opened_after inv top new upper seen le
  · exact absurd rfl other

private theorem chain_after : (after graph search nodes n u).nodes.Pairwise fun upper lower =>
    ∀ u' x, upper.2 = some u' → lower.2 = some x → Anc (after graph search nodes n u).impl.parent x u' := by
  have chain := inv.chain
  rw [top, List.pairwise_cons] at chain
  refine List.pairwise_append.mpr ⟨?_, ?_, ?_⟩
  · refine List.pairwise_reverse.mpr (List.pairwise_map.mpr (List.pairwise_of_forall ?_))
    intro x y a b fromA fromB
    obtain rfl : n = a := by simpa using fromA
    obtain rfl : n = b := by simpa using fromB
    exact .refl _
  · refine chain.2.imp_of_mem ?_
    rintro ⟨w, from_w⟩ f eKept - up a b fromA fromB
    obtain rfl : from_w = some a := fromA
    have seen : a ∈ search.seen := inv.source_seen (below_top top eKept)
    exact (anc_after inv top new).mpr (.inr ⟨ne_new new seen, up a b rfl fromB⟩)
  · rintro e pushed ⟨w, from_w⟩ kept a b fromA fromB
    obtain ⟨w, -, rfl⟩ := List.mem_map.mp (List.mem_reverse.mp pushed)
    obtain rfl : n = a := by simpa using fromA
    obtain rfl : from_w = some b := fromB
    exact (anc_after inv top new).mpr (.inl ⟨rfl, .inr (above_source inv top kept)⟩)

private theorem forward_after {x w : ℕ} (xMem : x ∈ n :: search.seen) (wMem : w ∈ n :: search.seen)
    (out : graph.Edge x w)
    (lt : (after graph search nodes n u).impl.dfnum x < (after graph search nodes n u).impl.dfnum w) :
    Anc (after graph search nodes n u).impl.parent x w := by
  rcases List.mem_cons.mp xMem with rfl | xSeen <;> rcases List.mem_cons.mp wMem with rfl | wSeen
  · exact .refl _
  · rw [num_new, num_old new wSeen] at lt
    exact absurd (inv.num_lt w wSeen) (by omega)
  · -- the edge was waiting on the stack, at the top or below it
    rcases inv.pending x xSeen w out with found | waits
    · exact absurd found new
    · rw [top] at waits
      rcases List.mem_cons.mp waits with same | waits
      · obtain rfl : x = u := by simpa using same
        exact (anc_after inv top new).mpr (.inl ⟨rfl, .inr (.refl _)⟩)
      · exact (anc_after inv top new).mpr (.inl ⟨rfl, .inr (above_source inv top waits)⟩)
  · rw [num_old new xSeen, num_old new wSeen] at lt
    exact (anc_after inv top new).mpr (.inr ⟨ne_new new wSeen, inv.forward x xSeen w wSeen out lt⟩)

private theorem interval_after {a b c : ℕ} (cMem : c ∈ n :: search.seen) (bMem : b ∈ n :: search.seen)
    (upper : Anc (after graph search nodes n u).impl.parent a c)
    (lower : (after graph search nodes n u).impl.dfnum a ≤ (after graph search nodes n u).impl.dfnum b)
    (higher : (after graph search nodes n u).impl.dfnum b ≤ (after graph search nodes n u).impl.dfnum c) :
    Anc (after graph search nodes n u).impl.parent a b := by
  rcases List.mem_cons.mp cMem with rfl | cSeen
  · exact opened_new inv top new upper bMem lower
  rcases (anc_after inv top new).mp upper with ⟨rfl, -⟩ | ⟨-, upper⟩
  · exact absurd cSeen new
  rcases List.mem_cons.mp bMem with rfl | bSeen
  · rw [num_new, num_old new cSeen] at higher
    exact absurd (inv.num_lt c cSeen) (by omega)
  · rw [num_old new bSeen, num_old new (inv.anc_seen upper cSeen)] at lower
    rw [num_old new bSeen, num_old new cSeen] at higher
    exact (anc_after inv top new).mpr
      (.inr ⟨ne_new new bSeen, inv.interval c cSeen a upper b bSeen lower higher⟩)

/-- A popped node that is new becomes a child of the node it was pushed from. -/
theorem Inv.visit : Inv graph (after graph search nodes n u) := by
  have uSeen : u ∈ search.seen := inv.source_seen (on_top top)
  constructor
  case seen_nodup => exact List.nodup_cons.mpr ⟨new, inv.seen_nodup⟩
  case counter_eq => simp [Search.visit, inv.counter_eq]
  case start_seen => exact .tail _ inv.start_seen
  case start_num => exact (num_old new inv.start_seen).trans inv.start_num
  case num_lt =>
    intro b seen
    rcases List.mem_cons.mp seen with rfl | seen
    · exact num_new.trans_lt (Nat.lt_succ_self _)
    · exact ((num_old new seen).trans_lt (inv.num_lt b seen)).trans (Nat.lt_succ_self _)
  case vertex_num =>
    intro b seen
    rcases List.mem_cons.mp seen with rfl | seen
    · simp [Search.visit]
    · rw [num_old new seen]
      exact (update_of_ne (inv.num_lt b seen).ne _ _).trans (inv.vertex_num b seen)
  case num_vertex =>
    intro i lt
    by_cases last : i = search.counter
    · subst last
      simp [Search.visit]
    · have earlier : i < search.counter := by
        simp only [Search.visit] at lt
        omega
      obtain ⟨seen, num⟩ := inv.num_vertex i earlier
      have same : (after graph search nodes n u).impl.vertex i = search.impl.vertex i := update_of_ne last _ _
      rw [same]
      exact ⟨.tail _ seen, (num_old new seen).trans num⟩
  case parent_some =>
    intro c p child
    by_cases same : c = n
    · subst same
      obtain rfl : u = p := by simpa [Search.visit] using child
      obtain ⟨x, -, same, out⟩ := inv.entries _ (on_top top)
      obtain rfl : u = x := Option.some.inj same
      refine ⟨.tail _ uSeen, .head _, ?_, out⟩
      rw [num_new, num_old new uSeen]
      exact inv.num_lt u uSeen
    · have child : search.impl.parent c = some p := by
        simpa only [Search.visit, update_of_ne same] using child
      obtain ⟨pSeen, cSeen, lt, out⟩ := inv.parent_some c p child
      exact ⟨.tail _ pSeen, .tail _ cSeen, by rwa [num_old new pSeen, num_old new cSeen], out⟩
  case parent_none =>
    intro b seen orphan
    rcases List.mem_cons.mp seen with rfl | seen
    · simp [Search.visit] at orphan
    · exact inv.parent_none b seen ((update_of_ne (ne_new new seen) _ _).symm.trans orphan)
  case entries =>
    intro e mem
    rcases List.mem_append.mp mem with pushed | mem
    · obtain ⟨w, out, rfl⟩ := List.mem_map.mp (List.mem_reverse.mp pushed)
      exact ⟨n, .head _, rfl, out⟩
    · obtain ⟨x, seen, same, out⟩ := inv.entries e (below_top top mem)
      exact ⟨x, .tail _ seen, same, out⟩
  case pending =>
    intro b seen w out
    rcases List.mem_cons.mp seen with rfl | seen
    · exact .inr (List.mem_append_left _ (List.mem_reverse.mpr (List.mem_map.mpr ⟨w, out, rfl⟩)))
    · rcases inv.pending b seen w out with found | waits
      · exact .inl (.tail _ found)
      · rw [top] at waits
        rcases List.mem_cons.mp waits with same | waits
        · exact .inl (List.mem_cons.mpr (.inl (Prod.mk.inj same).1))
        · exact .inr (List.mem_append_right _ waits)
  case chain => exact chain_after inv top new
  case opened =>
    rintro ⟨w, from_w⟩ onStack x fromX a upper b seen le
    obtain rfl : from_w = some x := fromX
    rcases List.mem_append.mp onStack with pushed | mem
    · obtain ⟨_, -, same⟩ := List.mem_map.mp (List.mem_reverse.mp pushed)
      obtain rfl : n = x := Option.some.inj (Prod.mk.inj same).2
      exact opened_new inv top new upper seen le
    · rcases (anc_after inv top new).mp upper with ⟨rfl, -⟩ | ⟨-, upper⟩
      · exact absurd (inv.source_seen (below_top top mem)) new
      · exact opened_after inv top new (upper.trans (above_source inv top mem)) seen le
  case forward => exact fun x xSeen w wSeen out lt => forward_after inv top new xSeen wSeen out lt
  case interval =>
    exact fun c cSeen a upper b bSeen lower higher => interval_after inv top new cSeen bSeen upper lower higher

end Visit

/-- The search after its first pop. -/
theorem Inv.start {impl : DomImpl} (orphans : impl.parent = fun _ => none) :
    Inv graph (Search.visit graph { counter := 0, nodes := [], seen := [], impl } graph.startNode none) := by
  have same : ∀ {a b}, Anc (update impl.parent graph.startNode none) a b → a = b := by
    intro a b upper
    rcases upper.eq_or_parent with same | ⟨p, child, -⟩
    · exact same
    · simp [orphans, update_apply] at child
  have pushed : ∀ {e}, e ∈ ((graph.successors graph.startNode).map fun w => (w, some graph.startNode)).reverse ++ [] →
      graph.Edge graph.startNode e.1 ∧ e.2 = some graph.startNode := by
    intro e mem
    obtain ⟨w, out, rfl⟩ := List.mem_map.mp (List.mem_reverse.mp (by simpa only [List.append_nil] using mem))
    exact ⟨out, rfl⟩
  constructor
  case seen_nodup => simp [Search.visit]
  case counter_eq => simp [Search.visit]
  case start_seen => simp [Search.visit]
  case start_num => simp [Search.visit]
  case num_lt => simp [Search.visit]
  case vertex_num => simp [Search.visit]
  case num_vertex => simp [Search.visit]
  case parent_some =>
    intro n p child
    simp [Search.visit, orphans] at child
  case parent_none => simp [Search.visit]
  case entries =>
    intro e mem
    exact ⟨_, .head _, (pushed mem).2, (pushed mem).1⟩
  case pending =>
    intro u seen w out
    obtain rfl : u = graph.startNode := by simpa [Search.visit] using seen
    exact .inr (List.mem_append_left _ (List.mem_reverse.mpr (List.mem_map.mpr ⟨w, out, rfl⟩)))
  case chain =>
    refine List.Pairwise.imp_of_mem ?_ (List.pairwise_of_forall (fun _ _ => trivial))
    intro e f eMem fMem _ u x fromU fromX
    obtain rfl := Option.some.inj ((pushed eMem).2.symm.trans fromU)
    obtain rfl := Option.some.inj ((pushed fMem).2.symm.trans fromX)
    exact .refl _
  case opened =>
    intro e mem u fromU a upper b seen le
    obtain rfl := Option.some.inj ((pushed mem).2.symm.trans fromU)
    obtain rfl := same upper
    obtain rfl : b = graph.startNode := by simpa [Search.visit] using seen
    exact .refl _
  case forward =>
    intro u uSeen w wSeen out lt
    obtain rfl : u = graph.startNode := by simpa [Search.visit] using uSeen
    obtain rfl : w = graph.startNode := by simpa [Search.visit] using wSeen
    exact .refl _
  case interval =>
    intro c cSeen a upper b bSeen _ _
    obtain rfl := same upper
    obtain rfl : a = graph.startNode := by simpa [Search.visit] using cSeen
    obtain rfl : b = graph.startNode := by simpa [Search.visit] using bSeen
    exact .refl _

theorem Inv.run {fuel : ℕ} (inv : Inv graph search) : Inv graph (Search.run graph fuel search) := by
  induction fuel generalizing search with
  | zero => exact inv
  | succ fuel ih =>
    unfold Search.run
    split
    · exact inv
    · next n p nodes top =>
      split_ifs with old
      · exact ih (inv.drop top old)
      · obtain ⟨u, -, rfl, -⟩ := inv.entries (n, p) (top ▸ .head _)
        exact ih (inv.visit top old)

/-- The pops still to come: the stack and the edges out of nodes not yet numbered. -/
private def remaining (graph : ControlFlowGraph) (search : Search) : ℕ :=
  search.nodes.length +
    ∑ n ∈ (Finset.range graph.numNodes).filter (· ∉ search.seen), (graph.successors n).length

private theorem remaining_visit {nodes : List (ℕ × Option ℕ)} {p : Option ℕ} (inside : n < graph.numNodes)
    (new : n ∉ search.seen) :
    remaining graph (Search.visit graph { search with nodes } n p) = remaining graph { search with nodes } := by
  have erased : (Finset.range graph.numNodes).filter (· ∉ n :: search.seen) =
      ((Finset.range graph.numNodes).filter (· ∉ search.seen)).erase n := by
    ext m
    simp only [Finset.mem_filter, Finset.mem_range, List.mem_cons, not_or, Finset.mem_erase]
    tauto
  have split := Finset.add_sum_erase ((Finset.range graph.numNodes).filter (· ∉ search.seen))
    (fun n => (graph.successors n).length) (by simpa using ⟨inside, new⟩ : n ∈ _)
  change (((graph.successors n).map fun w => (w, some n)).reverse ++ nodes).length +
    ∑ m ∈ (Finset.range graph.numNodes).filter (· ∉ n :: search.seen), (graph.successors m).length = _
  simp only [remaining, erased, List.length_append, List.length_reverse, List.length_map]
  omega

/-- With fuel for every pop the stack is emptied. -/
theorem run_nodes {fuel : ℕ} (wellFormed : graph.WellFormed)
    (inside : ∀ e ∈ search.nodes, e.1 < graph.numNodes) (enough : remaining graph search ≤ fuel) :
    (Search.run graph fuel search).nodes = [] := by
  induction fuel generalizing search with
  | zero =>
    simp only [remaining] at enough
    rw [Search.run]
    exact List.length_eq_zero_iff.mp (by omega)
  | succ fuel ih =>
    unfold Search.run
    split
    · next empty => exact empty
    · next n p nodes top =>
      have popped : remaining graph { search with nodes } + 1 = remaining graph search := by
        simp only [remaining, top, List.length_cons]
        omega
      have below : ∀ e ∈ nodes, e.1 < graph.numNodes := fun e kept => inside e (top ▸ .tail _ kept)
      split_ifs with old
      · exact ih below (by omega)
      · refine ih ?_ ?_
        · intro e mem
          rcases List.mem_append.mp mem with pushed | kept
          · obtain ⟨w, out, rfl⟩ := List.mem_map.mp (List.mem_reverse.mp pushed)
            exact (wellFormed.successors_lt out).2
          · exact below e kept
        · rw [remaining_visit (inside (n, p) (top ▸ .head _)) old]
          omega

/-- The search writes the numbering and the tree and nothing else. -/
theorem run_impl {fuel : ℕ} : ∃ dfnum vertex parent,
    (Search.run graph fuel search).impl = { search.impl with dfnum, vertex, parent } := by
  induction fuel generalizing search with
  | zero => exact ⟨_, _, _, rfl⟩
  | succ fuel ih =>
    unfold Search.run
    split
    · exact ⟨_, _, _, rfl⟩
    · next n p nodes _ =>
      split_ifs
      · exact ih
      · obtain ⟨dfnum, vertex, parent, same⟩ := @ih (Search.visit graph { search with nodes } n p)
        exact ⟨dfnum, vertex, parent, same⟩

end DomImpl.Search

open DomImpl

/-- Every node is reachable from the start. -/
def ControlFlowGraph.AllReachable (graph : ControlFlowGraph) : Prop :=
  ∀ n < graph.numNodes, Reachable graph.Edge graph.startNode n

/-- What the numbering and the tree promise the computation of dominators. -/
structure DomImpl.Numbered (graph : ControlFlowGraph) (dfnum vertex : ℕ → ℕ) (parent : ℕ → Option ℕ) :
    Prop where
  tree : DfsTree graph.Edge graph.startNode (· < graph.numNodes) dfnum parent
  start_num : dfnum graph.startNode = 0
  num_lt : ∀ n < graph.numNodes, dfnum n < graph.numNodes
  vertex_num : ∀ n < graph.numNodes, vertex (dfnum n) = n
  num_vertex : ∀ i < graph.numNodes, vertex i < graph.numNodes ∧ dfnum (vertex i) = i
  has_parent : ∀ n < graph.numNodes, n ≠ graph.startNode → ∃ p, parent n = some p

/-- A search whose stack is empty has numbered exactly the nodes. -/
private theorem DomImpl.Search.Inv.mem_seen {graph : ControlFlowGraph} {search : Search}
    (inv : Search.Inv graph search) (wellFormed : graph.WellFormed) (reachable : graph.AllReachable)
    (empty : search.nodes = []) {n : ℕ} : n ∈ search.seen ↔ n < graph.numNodes := by
  constructor
  · intro seen
    by_cases atStart : n = graph.startNode
    · exact atStart ▸ wellFormed.start_lt
    · cases child : search.impl.parent n with
      | none => exact absurd (inv.parent_none n seen child) atStart
      | some p => exact (wellFormed.successors_lt (inv.parent_some n p child).2.2.2).2
  · intro inside
    have walk := reachable n inside
    induction walk with
    | refl => exact inv.start_seen
    | @tail u w _ out ih =>
      have seen := ih (wellFormed.successors_lt out).1
      rcases inv.pending u seen w out with found | waits
      · exact found
      · simp [empty] at waits

/-- The search from the start pops everything. -/
theorem DomImpl.search_done {graph : ControlFlowGraph} (wellFormed : graph.WellFormed) :
    (Search.run graph (searchFuel graph)
        { counter := 0, nodes := [(graph.startNode, none)], seen := [], impl := DomImpl.new }).nodes = [] ∧
      Search.Inv graph (Search.run graph (searchFuel graph)
        { counter := 0, nodes := [(graph.startNode, none)], seen := [], impl := DomImpl.new }) := by
  constructor
  · refine Search.run_nodes wellFormed (by simpa using wellFormed.start_lt) ?_
    have all : ∑ n ∈ Finset.range graph.numNodes, (graph.successors n).length =
        ((List.range graph.numNodes).map fun n => (graph.successors n).length).sum := rfl
    simp [Search.remaining, searchFuel, all]
  · rw [searchFuel, Nat.add_comm 1]
    exact (Search.Inv.start rfl).run

/-- On a graph all of whose nodes are reachable the search succeeds and numbers it depth first. -/
theorem DomImpl.dfs_numbered {graph : ControlFlowGraph} (wellFormed : graph.WellFormed)
    (reachable : graph.AllReachable) : ∃ dfnum vertex parent,
      DomImpl.new.dfs graph = some { DomImpl.new with dfnum, vertex, parent } ∧
      Numbered graph dfnum vertex parent := by
  obtain ⟨empty, inv⟩ := search_done wellFormed
  obtain ⟨final, run⟩ : ∃ final, Search.run graph (searchFuel graph)
      { counter := 0, nodes := [(graph.startNode, none)], seen := [], impl := DomImpl.new } = final := ⟨_, rfl⟩
  rw [run] at empty inv
  obtain ⟨dfnum, vertex, parent, same⟩ : ∃ dfnum vertex parent,
      final.impl = { DomImpl.new with dfnum, vertex, parent } := by
    rw [← run]
    exact Search.run_impl
  have seen : ∀ {n}, n ∈ final.seen ↔ n < graph.numNodes := inv.mem_seen wellFormed reachable empty
  have count : final.counter = graph.numNodes := by
    have perm : final.seen.Perm (List.range graph.numNodes) :=
      (List.perm_ext_iff_of_nodup inv.seen_nodup List.nodup_range).mpr fun n => by simp [seen]
    rw [inv.counter_eq, perm.length_eq, List.length_range]
  refine ⟨dfnum, vertex, parent, ?_, ?_⟩
  · simp only [dfs, run, count, if_true, same]
  · obtain ⟨rfl, rfl, rfl⟩ : final.impl.dfnum = dfnum ∧ final.impl.vertex = vertex ∧
        final.impl.parent = parent := by simp [same]
    exact
      { tree :=
          { num_inj := fun {a b} aNode bNode eq => by
              rw [← inv.vertex_num a (seen.mpr aNode), eq, inv.vertex_num b (seen.mpr bNode)]
            start_node := wellFormed.start_lt
            start_le := fun _ => inv.start_num ▸ Nat.zero_le _
            edge_node := wellFormed.successors_lt
            parent_node := fun {n p} child =>
              ⟨seen.mp (inv.parent_some n p child).1, seen.mp (inv.parent_some n p child).2.1⟩
            parent_lt := fun {n p} child => (inv.parent_some n p child).2.2.1
            forward := fun {u w} out => inv.forward u (seen.mpr (wellFormed.successors_lt out).1) w
              (seen.mpr (wellFormed.successors_lt out).2) out
            interval := fun {a b c} upper cNode bNode lower higher =>
              inv.interval c (seen.mpr cNode) a upper b (seen.mpr bNode) lower higher }
        start_num := inv.start_num
        num_lt := fun n inside => count ▸ inv.num_lt n (seen.mpr inside)
        vertex_num := fun n inside => inv.vertex_num n (seen.mpr inside)
        num_vertex := fun i inside =>
          ⟨seen.mp (inv.num_vertex i (count ▸ inside)).1, (inv.num_vertex i (count ▸ inside)).2⟩
        has_parent := fun n inside notStart => by
          cases child : final.impl.parent n with
          | none => exact absurd (inv.parent_none n (seen.mpr inside) child) notStart
          | some p => exact ⟨p, rfl⟩ }

section Searched

variable {graph : ControlFlowGraph} {impl : DomImpl} (wellFormed : graph.WellFormed)
  (searched : DomImpl.new.dfs graph = some impl)
include wellFormed searched

private theorem DomImpl.dfs_inv : ∃ search : Search, search.impl = impl ∧ Search.Inv graph search := by
  simp only [DomImpl.dfs] at searched
  split_ifs at searched
  exact ⟨_, Option.some.inj searched, (search_done wellFormed).2⟩

/-- The tree is made of edges of the graph. -/
theorem DomImpl.dfs_edge {n p : ℕ} (child : impl.parent n = some p) : graph.Edge p n := by
  obtain ⟨search, rfl, inv⟩ := DomImpl.dfs_inv wellFormed searched
  exact (inv.parent_some n p child).2.2.2

/-- The start is numbered first and has no parent. -/
theorem DomImpl.dfs_start : impl.vertex 0 = graph.startNode ∧ impl.parent graph.startNode = none := by
  obtain ⟨search, rfl, inv⟩ := DomImpl.dfs_inv wellFormed searched
  have num := inv.start_num
  refine ⟨num ▸ inv.vertex_num graph.startNode inv.start_seen, Option.eq_none_iff_forall_ne_some.mpr ?_⟩
  intro p child
  have earlier := (inv.parent_some graph.startNode p child).2.2.1
  omega

end Searched

end Ctadl.Graph
