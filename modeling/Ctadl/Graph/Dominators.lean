import Mathlib.Algebra.GroupWithZero.Nat
import Mathlib.Data.List.Sort

/-! # Dominator trees and dominance frontiers

The control-flow graphs the passes walk, and the computation of dominators over them: a depth-first
numbering, the semidominators from the last numbered node to the first with a path-compressing
forest, the dominators read off at once or deferred to another node, and the deferred ones filled in.
The dominance frontier is collected from the bottom of the resulting tree.

Tables indexed by node are functions and a `Vec` used as a stack is a list, its top first. A panic is
`none`: a node without an ancestor in the forest, a node other than the start without a parent, and a
graph with nodes that the search does not reach.
-/

namespace Ctadl.Graph

open Function

/-- A directed graph with a start node, densely numbered. -/
structure ControlFlowGraph where
  numNodes : ℕ
  startNode : ℕ
  successors : ℕ → List ℕ
  predecessors : ℕ → List ℕ

namespace ControlFlowGraph

/-- The two edge lists agree and stay among the nodes. -/
structure WellFormed (graph : ControlFlowGraph) : Prop where
  start_lt : graph.startNode < graph.numNodes
  successors_lt : ∀ {n m}, m ∈ graph.successors n → n < graph.numNodes ∧ m < graph.numNodes
  mem_predecessors : ∀ {n m}, n ∈ graph.predecessors m ↔ m ∈ graph.successors n

/-- The graph has an edge from `u` to `w`. -/
def Edge (graph : ControlFlowGraph) (u w : ℕ) : Prop := w ∈ graph.successors u

end ControlFlowGraph

/-- The order in which a hash set is iterated, unknown but for its being a permutation. -/
structure HashOrder where
  order : List ℕ → List ℕ
  perm : ∀ nodes, (order nodes).Perm nodes

/-- The tables of the computation. Only `vertex` is indexed by depth-first number. -/
structure DomImpl where
  dfnum : ℕ → ℕ
  vertex : ℕ → ℕ
  parent : ℕ → Option ℕ
  semi : ℕ → ℕ
  samedom : ℕ → Option ℕ
  bucket : ℕ → List ℕ
  ancestor : ℕ → Option ℕ
  best : ℕ → ℕ
  dom : ℕ → ℕ

namespace DomImpl

/-- Each node is its own semidominator and its own best node until it is processed. -/
def new : DomImpl where
  dfnum _ := 0
  vertex _ := 0
  parent _ := none
  semi n := n
  samedom _ := none
  bucket _ := []
  ancestor _ := none
  best n := n
  dom _ := 0

/-- The depth-first search: the stack of nodes with the parent they were pushed from. -/
structure Search where
  counter : ℕ
  nodes : List (ℕ × Option ℕ)
  seen : List ℕ
  impl : DomImpl

/-- Number a node popped for the first time and push its successors. -/
def Search.visit (graph : ControlFlowGraph) (search : Search) (n : ℕ) (p : Option ℕ) : Search where
  counter := search.counter + 1
  nodes := ((graph.successors n).map fun w => (w, some n)).reverse ++ search.nodes
  seen := n :: search.seen
  impl :=
    { search.impl with
      dfnum := update search.impl.dfnum n search.counter
      vertex := update search.impl.vertex search.counter n
      parent := update search.impl.parent n p }

/-- Pop nodes until the stack is empty. -/
def Search.run (graph : ControlFlowGraph) : ℕ → Search → Search
  | 0, search => search
  | fuel + 1, search =>
    match search.nodes with
    | [] => search
    | (n, p) :: nodes =>
      if n ∈ search.seen then run graph fuel { search with nodes }
      else run graph fuel (Search.visit graph { search with nodes } n p)

/-- Every pop removes an entry that the start or an edge put there. -/
def searchFuel (graph : ControlFlowGraph) : ℕ :=
  1 + ((List.range graph.numNodes).map fun n => (graph.successors n).length).sum

/-- Assign the depth-first numbering and record a spanning tree. -/
def dfs (graph : ControlFlowGraph) (impl : DomImpl) : Option DomImpl :=
  let search := Search.run graph (searchFuel graph)
    { counter := 0, nodes := [(graph.startNode, none)], seen := [], impl }
  if search.counter = graph.numNodes then some search.impl else none

/-- The node with the least semidominator on the way up the forest from `v`, compressing the way. -/
def findCandidateAncestor : ℕ → DomImpl → ℕ → Option (ℕ × DomImpl)
  | 0, _, _ => none
  | fuel + 1, impl, v => do
    let a ← impl.ancestor v
    match impl.ancestor a with
    | none => some (impl.best v, impl)
    | some ancestorA =>
      let (b, impl) ← findCandidateAncestor fuel impl a
      let impl := { impl with ancestor := update impl.ancestor v (some ancestorA) }
      let impl :=
        if impl.dfnum (impl.semi b) < impl.dfnum (impl.semi (impl.best v)) then
          { impl with best := update impl.best v b }
        else impl
      some (impl.best v, impl)

/-- Add the edge from `parent` to `child` to the forest. -/
def link (impl : DomImpl) (parent child : ℕ) : DomImpl :=
  { impl with
    ancestor := update impl.ancestor child (some parent)
    best := update impl.best child child }

/-- Lower the candidate semidominator `s` of `n` by what the predecessor `v` offers. -/
def lowerSemi (fuel n : ℕ) : DomImpl × ℕ → ℕ → Option (DomImpl × ℕ)
  | (impl, s), v => do
    let (s1, impl) ←
      if impl.dfnum v ≤ impl.dfnum n then some (v, impl)
      else do
        let (u, impl) ← impl.findCandidateAncestor fuel v
        some (impl.semi u, impl)
    some (impl, if impl.dfnum s1 < impl.dfnum s then s1 else s)

/-- Decide the dominator of a node `v` of the bucket of `p`, or defer it to another node. -/
def emptyBucket (fuel p : ℕ) (impl : DomImpl) (v : ℕ) : Option DomImpl := do
  let (y, impl) ← impl.findCandidateAncestor fuel v
  if impl.semi y = impl.semi v then some { impl with dom := update impl.dom v p }
  else some { impl with samedom := update impl.samedom v (some y) }

/-- Process the node numbered `i`. -/
def semidomNode (graph : ControlFlowGraph) (hash : HashOrder) (impl : DomImpl) (i : ℕ) :
    Option DomImpl :=
  if i = graph.startNode then some impl
  else do
    let n := impl.vertex i
    let p ← impl.parent n
    let (impl, s) ← (graph.predecessors n).foldlM (lowerSemi graph.numNodes n) (impl, p)
    let impl :=
      { impl with
        semi := update impl.semi n s
        bucket := update impl.bucket s ((impl.bucket s).insert n) }
    let impl := impl.link p n
    let impl ← (hash.order (impl.bucket p)).foldlM (emptyBucket graph.numNodes p) impl
    some { impl with bucket := update impl.bucket p [] }

/-- Find the semidominators, from the last numbered node to the first. -/
def semidom (graph : ControlFlowGraph) (hash : HashOrder) (impl : DomImpl) : Option DomImpl :=
  (List.range graph.numNodes).reverse.foldlM (semidomNode graph hash) impl

/-- Copy the dominator of the node numbered `i` from the node it was deferred to. -/
def domNode (graph : ControlFlowGraph) (impl : DomImpl) (i : ℕ) : DomImpl :=
  if i = graph.startNode then impl
  else
    let n := impl.vertex i
    match impl.samedom n with
    | none => impl
    | some y => { impl with dom := update impl.dom n (impl.dom y) }

/-- Assign the deferred dominators. This loop, too, goes from the last numbered node to the first. -/
def finish (graph : ControlFlowGraph) (impl : DomImpl) : ℕ → ℕ :=
  ((List.range graph.numNodes).reverse.foldl (domNode graph) impl).dom

end DomImpl

/-- The dominator tree: each node other than the start has its parent in `idom`. -/
structure DominatorTree where
  numNodes : ℕ
  startNode : ℕ
  idom : ℕ → ℕ
  dfnum : ℕ → ℕ

namespace DominatorTree

def new (graph : ControlFlowGraph) (hash : HashOrder) : Option DominatorTree := do
  let impl ← DomImpl.new.dfs graph
  let impl ← impl.semidom graph hash
  some
    { numNodes := graph.numNodes
      startNode := graph.startNode
      idom := impl.finish graph
      dfnum := impl.dfnum }

/-- The children of a node, in ascending order. -/
def successors (tree : DominatorTree) (node : ℕ) : List ℕ :=
  (List.range tree.numNodes).filter fun child => child ≠ tree.startNode ∧ tree.idom child = node

/-- The nodes by descending depth-first number. -/
def iterPostorder (tree : DominatorTree) : List ℕ :=
  (List.range tree.numNodes).insertionSort fun n m => tree.dfnum m ≤ tree.dfnum n

end DominatorTree

/-- A bit set, as the ascending list of its members. -/
def bitInsert (y : ℕ) (set : List ℕ) : List ℕ :=
  if y ∈ set then set else set.orderedInsert (· ≤ ·) y

/-- The frontier of each node, as a bit set. -/
structure DominanceFrontier where
  frontier : ℕ → List ℕ

namespace DominanceFrontier

/-- Add to the frontier of `x` the nodes of a list whose parent is not `x`. -/
def contribute (tree : DominatorTree) (x : ℕ) (frontier : ℕ → List ℕ) (ys : List ℕ) : ℕ → List ℕ :=
  ys.foldl (fun frontier y =>
    if tree.idom y ≠ x then update frontier x (bitInsert y (frontier x)) else frontier) frontier

/-- The local contribution of the successors of `x`, then what its children pass up. -/
def collect (graph : ControlFlowGraph) (tree : DominatorTree) (frontier : ℕ → List ℕ) (x : ℕ) :
    ℕ → List ℕ :=
  (tree.successors x).foldl (fun frontier z => contribute tree x frontier (frontier z))
    (contribute tree x frontier (graph.successors x))

def new (graph : ControlFlowGraph) (tree : DominatorTree) : DominanceFrontier where
  frontier := tree.iterPostorder.foldl (collect graph tree) fun _ => []

end DominanceFrontier

end Ctadl.Graph
