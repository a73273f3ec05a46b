import Ctadl.Collections.SortedMap
import Mathlib.Algebra.Group.Nat.Defs
import Mathlib.Algebra.GroupWithZero.Nat
import Mathlib.Data.List.Nodup

/-! # Hash-consed tries

A trie is the address of its root node. Nodes are never changed: every operation looks the node it
wants up in the interner, which leaks it at a new address when no equal one is there, and two tries are
the same if their addresses are. The interner is sharded by the hash of a node, an arbitrary function
of it (which sees the addresses of its children). No other thread comes in between here, so the second
look-up under the write lock finds what the first one found.

The merge function and the predicate may keep state: each is a function of the calls made before. The
recursions go down the trie and carry fuel; `none` is running out of it, which never happens.
-/

namespace Ctadl.Trie

open Collections Function

variable {T V : Type} [LinearOrder T] [DecidableEq V]

/-- A node of a trie: the addresses of its children and its value. -/
structure Node (T V : Type) [LT T] where
  children : SortedMap T ℕ
  value : Option V

instance : DecidableEq (Node T V) := fun node node' =>
  decidable_of_iff (node.children = node'.children ∧ node.value = node'.value)
    ⟨fun same => by cases node; cases node'; simpa using same, fun same => same ▸ ⟨rfl, rfl⟩⟩

/-- The leaked nodes by address, and the addresses in the set of each shard. -/
structure Interner (T V : Type) [LT T] where
  leaked : List (Node T V)
  shards : ℕ → List ℕ

def numShards : ℕ := 64

def shardFor (hash : Node T V → ℕ) (node : Node T V) : ℕ := hash node % numShards

namespace Interner

/-- The node without children and value. -/
def emptyNode : Node T V := ⟨.empty, none⟩

/-- The node at an address. -/
def node (interner : Interner T V) (trie : ℕ) : Node T V := interner.leaked[trie]?.getD emptyNode

/-- The address of a node, a new one if there is none. -/
def intern (hash : Node T V → ℕ) (interner : Interner T V) (node : Node T V) : Interner T V × ℕ :=
  match (interner.shards (shardFor hash node)).find? fun a => interner.leaked[a]? = some node with
  | some existing => (interner, existing)
  | none =>
    ({ leaked := interner.leaked ++ [node]
       shards := update interner.shards (shardFor hash node)
         (interner.leaked.length :: interner.shards (shardFor hash node)) },
      interner.leaked.length)

def new (hash : Node T V → ℕ) (interner : Interner T V) : Interner T V × ℕ := interner.intern hash emptyNode

def isEmpty (interner : Interner T V) (trie : ℕ) : Bool :=
  (interner.node trie).children.entries.isEmpty && (interner.node trie).value.isNone

/-- The number of sequences, in ℕ: as many nodes are visited. -/
def lenFrom (interner : Interner T V) : ℕ → ℕ → ℕ
  | 0, _ => 0
  | fuel + 1, trie =>
    (if (interner.node trie).value.isSome then 1 else 0) +
      ((interner.node trie).children.entries.map fun e => interner.lenFrom fuel e.2).sum

def len (interner : Interner T V) (trie : ℕ) : ℕ := interner.lenFrom (trie + 1) trie

/-- The sub-trie at a prefix. -/
def getSubtrie (interner : Interner T V) : ℕ → List T → Option ℕ
  | trie, [] => some trie
  | trie, item :: sequence => do
    let child ← (interner.node trie).children.get item
    interner.getSubtrie child sequence

/-- The value of a sequence: the finite map that the trie denotes. -/
def get (interner : Interner T V) (trie : ℕ) (sequence : List T) : Option V :=
  (interner.getSubtrie trie sequence).bind fun current => (interner.node current).value

/-- The child of an item, an empty trie if there is none. -/
def childOrDefault (hash : Node T V → ℕ) (interner : Interner T V) (node : Node T V) (item : T) :
    Interner T V × ℕ :=
  match node.children.get item with
  | some child => (interner, child)
  | none => interner.new hash

def insert (hash : Node T V → ℕ) : Interner T V → ℕ → List T → V → Interner T V × ℕ
  | interner, trie, [], value => interner.intern hash { interner.node trie with value := some value }
  | interner, trie, item :: sequence, value =>
    let node := interner.node trie
    let (interner, child) := interner.childOrDefault hash node item
    let (interner, child) := insert hash interner child sequence value
    interner.intern hash { node with children := node.children.insert item child }

/-- Remove all sequences with a prefix; the flag tells whether the trie was modified. -/
def removePrefix (hash : Node T V → ℕ) : Interner T V → ℕ → List T → Interner T V × ℕ × Bool
  | interner, trie, [] =>
    let (interner, empty) := interner.new hash
    if trie ≠ empty then (interner, empty, true) else (interner, trie, false)
  | interner, trie, item :: sequence =>
    let node := interner.node trie
    match node.children.get item with
    | none => (interner, trie, false)
    | some child =>
      match removePrefix hash interner child sequence with
      | (interner, _, false) => (interner, trie, false)
      | (interner, child, true) =>
        let children :=
          if interner.isEmpty child then node.children.erase item else node.children.insert item child
        let (interner, trie) := interner.intern hash { node with children }
        (interner, trie, true)

/-- Wrap a trie under a new prefix, from its last item to its first. -/
def wrap (hash : Node T V → ℕ) (interner : Interner T V) (substituted : ℕ) (items : List T) : Interner T V × ℕ :=
  items.reverse.foldl (fun (state : Interner T V × ℕ) item =>
    state.1.intern hash { children := SortedMap.empty.insert item state.2, value := none }) (interner, substituted)

end Interner

section UnionWith

/-- The interner, and the pairs of values that the merge function has been called with. -/
structure Unioning (T V : Type) [LT T] where
  interner : Interner T V
  merged : List (V × V)

/-- The loop over the children of the other node. -/
structure UnionLoop (T V : Type) [LT T] where
  state : Unioning T V
  children : SortedMap T ℕ
  modified : Bool

variable (hash : Node T V → ℕ) (merge : List (V × V) → V → V → V)

/-- The calls made, the value of the union and whether it is another than the trie's own. -/
def unionValue (merged : List (V × V)) : Option V → Option V → List (V × V) × Option V × Bool
  | value, none => (merged, value, false)
  | none, some otherVal => (merged, some otherVal, true)
  | some selfVal, some otherVal =>
    let result := merge merged selfVal otherVal
    (merged ++ [(selfVal, otherVal)], some (if result ≠ selfVal then result else selfVal), result ≠ selfVal)

def unionChild (union : Unioning T V → ℕ → ℕ → Option (Unioning T V × ℕ)) (loop : UnionLoop T V) (entry : T × ℕ) :
    Option (UnionLoop T V) :=
  match loop.children.get entry.1 with
  | some child => do
    let (state, result) ← union loop.state child entry.2
    some
      { state
        children := loop.children.insert entry.1 result
        modified := loop.modified || result ≠ child }
  | none => some { loop with children := loop.children.insert entry.1 entry.2, modified := true }

def unionWithInternal : ℕ → Unioning T V → ℕ → ℕ → Option (Unioning T V × ℕ)
  | 0, _, _, _ => none
  | fuel + 1, state, trie, other =>
    if trie = other then some (state, trie)
    else do
      let node := state.interner.node trie
      let otherNode := state.interner.node other
      let (merged, value, modified) := unionValue merge state.merged node.value otherNode.value
      let loop ← otherNode.children.entries.foldlM (unionChild (unionWithInternal fuel))
        { state := { state with merged }, children := node.children, modified }
      if loop.modified then
        let (interner, result) := loop.state.interner.intern hash { children := loop.children, value }
        some ({ loop.state with interner }, result)
      else some (loop.state, trie)

/-- Merge another trie into a trie. -/
def Interner.unionWith (interner : Interner T V) (trie other : ℕ) : Option (Interner T V × ℕ) := do
  let (state, result) ← unionWithInternal hash merge (other + 1) { interner, merged := [] } trie other
  some (state.interner, result)

end UnionWith

/-- Merge another trie into a trie, whose values are replaced. -/
def Interner.union (hash : Node T V → ℕ) (interner : Interner T V) (trie other : ℕ) : Option (Interner T V × ℕ) :=
  interner.unionWith hash (fun _ _ otherVal => otherVal) trie other

/-- The trie with a prefix replaced; the inner `none` if nothing has the prefix. -/
def Interner.substitutePrefix (hash : Node T V → ℕ) (interner : Interner T V) (trie : ℕ) (oldPrefix newPrefix : List T) :
    Option (Interner T V × Option ℕ) :=
  match interner.getSubtrie trie oldPrefix with
  | none => some (interner, none)
  | some substituted => do
    let (interner, result, _) := interner.removePrefix hash trie oldPrefix
    let (interner, substituted) := interner.wrap hash substituted newPrefix
    let (interner, result) ← interner.union hash result substituted
    some (interner, some result)

section Filter

/-- The interner, and the sequences and values that the predicate has been asked about. -/
structure Filtering (T V : Type) [LT T] where
  interner : Interner T V
  asked : List (List T × V)

variable (hash : Node T V → ℕ) (predicate : List (List T × V) → List T → V → Bool)

def filterChild (filter : Filtering T V → ℕ → List T → Option (Filtering T V × ℕ)) (current : List T)
    (loop : Filtering T V × SortedMap T ℕ) (entry : T × ℕ) : Option (Filtering T V × SortedMap T ℕ) := do
  let (state, filtered) ← filter loop.1 entry.2 (current ++ [entry.1])
  some (state, if state.interner.isEmpty filtered then loop.2 else loop.2.insert entry.1 filtered)

def filterRecursive : ℕ → Filtering T V → ℕ → List T → Option (Filtering T V × ℕ)
  | 0, _, _, _ => none
  | fuel + 1, state, trie, current => do
    let node := state.interner.node trie
    let newValue := node.value.filter (predicate state.asked current)
    let asked := state.asked ++ (node.value.map fun val => (current, val)).toList
    let (state, newChildren) ← node.children.entries.foldlM (filterChild (filterRecursive fuel) current)
      ({ state with asked }, .empty)
    let (interner, result) := state.interner.intern hash { children := newChildren, value := newValue }
    some ({ state with interner }, result)

/-- The sequences that satisfy the predicate. -/
def Interner.filter (interner : Interner T V) (trie : ℕ) : Option (Interner T V × ℕ) := do
  let (state, result) ← filterRecursive hash predicate (trie + 1) { interner, asked := [] } trie []
  some (state.interner, result)

end Filter

section Intersection

/-- The loop over the children of the node, which are replaced one by one. -/
structure IntersectLoop (T V : Type) [LT T] where
  interner : Interner T V
  children : SortedMap T ℕ
  keysToRemove : List T
  modified : Bool

def intersectChild (intersection : Interner T V → ℕ → ℕ → Option (Interner T V × ℕ)) (others : SortedMap T ℕ)
    (loop : IntersectLoop T V) (entry : T × ℕ) : Option (IntersectLoop T V) :=
  match others.get entry.1 with
  | none => some { loop with keysToRemove := loop.keysToRemove ++ [entry.1], modified := true }
  | some otherChild => do
    let (interner, child) ← intersection loop.interner entry.2 otherChild
    let children := loop.children.insert entry.1 child
    if interner.isEmpty child then
      some { interner, children, keysToRemove := loop.keysToRemove ++ [entry.1], modified := true }
    else some { loop with interner, children, modified := loop.modified || child ≠ entry.2 }

def intersectionFrom (hash : Node T V → ℕ) : ℕ → Interner T V → ℕ → ℕ → Option (Interner T V × ℕ)
  | 0, _, _, _ => none
  | fuel + 1, interner, trie, other =>
    if trie = other then some (interner, trie)
    else do
      let node := interner.node trie
      let otherNode := interner.node other
      let dropped := node.value.isSome && otherNode.value.isNone
      let loop ← node.children.entries.foldlM (intersectChild (intersectionFrom hash fuel) otherNode.children)
        { interner, children := node.children, keysToRemove := [], modified := dropped }
      let children := loop.keysToRemove.foldl SortedMap.erase loop.children
      if loop.modified then
        some (loop.interner.intern hash { children, value := if dropped then none else node.value })
      else some (loop.interner, trie)

/-- The sequences that are in both tries. -/
def Interner.intersection (hash : Node T V → ℕ) (interner : Interner T V) (trie other : ℕ) :
    Option (Interner T V × ℕ) :=
  intersectionFrom hash (trie + 1) interner trie other

end Intersection

/-- The public operations, on tries handed out before; closures are functions of their earlier calls. -/
inductive Op (T V : Type)
  | new
  | insert (i : ℕ) (sequence : List T) (value : V)
  | removePrefix (i : ℕ) (sequence : List T)
  | substitutePrefix (i : ℕ) (oldPrefix newPrefix : List T)
  | unionWith (i j : ℕ) (merge : List (V × V) → V → V → V)
  | intersection (i j : ℕ)
  | filter (i : ℕ) (predicate : List (List T × V) → List T → V → Bool)
  | getSubtrie (i : ℕ) (sequence : List T)

/-- The interner and all tries handed out so far. A trie is copied, so none is ever lost. -/
structure Session (T V : Type) [LT T] where
  interner : Interner T V
  tries : List ℕ

namespace Session

def start : Session T V := ⟨⟨[], fun _ => []⟩, []⟩

def give (session : Session T V) : Interner T V × ℕ → Session T V
  | (interner, trie) => ⟨interner, session.tries ++ [trie]⟩

/-- Carry one operation out; on a trie not handed out there is nothing to do. -/
def step (hash : Node T V → ℕ) (session : Session T V) : Op T V → Option (Session T V)
  | .new => some (session.give (session.interner.new hash))
  | .insert i sequence value =>
    match session.tries[i]? with
    | some trie => some (session.give (session.interner.insert hash trie sequence value))
    | none => some session
  | .removePrefix i sequence =>
    match session.tries[i]? with
    | some trie =>
      let (interner, result, _) := session.interner.removePrefix hash trie sequence
      some (session.give (interner, result))
    | none => some session
  | .substitutePrefix i oldPrefix newPrefix =>
    match session.tries[i]? with
    | some trie => do
      match ← session.interner.substitutePrefix hash trie oldPrefix newPrefix with
      | (interner, some result) => some (session.give (interner, result))
      | (interner, none) => some { session with interner }
    | none => some session
  | .unionWith i j merge =>
    match session.tries[i]?, session.tries[j]? with
    | some trie, some other => (session.interner.unionWith hash merge trie other).map session.give
    | _, _ => some session
  | .intersection i j =>
    match session.tries[i]?, session.tries[j]? with
    | some trie, some other => (session.interner.intersection hash trie other).map session.give
    | _, _ => some session
  | .filter i predicate =>
    match session.tries[i]? with
    | some trie => (session.interner.filter hash predicate trie).map session.give
    | none => some session
  | .getSubtrie i sequence =>
    match session.tries[i]? with
    | some trie =>
      match session.interner.getSubtrie trie sequence with
      | some result => some (session.give (session.interner, result))
      | none => some session
    | none => some session

def run (hash : Node T V → ℕ) (session : Session T V) (ops : List (Op T V)) : Option (Session T V) :=
  ops.foldlM (step hash) session

end Session

end Ctadl.Trie
