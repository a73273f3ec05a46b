import Ctadl.Flowgraph.Liveness
import Ctadl.Ssa.Prepare
import Ctadl.Ssa.Search

/-! # The phis of the two modes

What phi placement leaves at the head of each block, and where: a variable has a phi in the blocks of the
iterated frontier of its definitions, in pruned mode only in those on entry to which it is live. With the
table of dominators this is a placement in the sense of the flow graph (`placement`), one for each mode and
with the same iterated frontier (`mem_iteratedFrontier_of_agree`).
-/

namespace Ctadl.Ssa

open Function Relation Cir Ctadl.Graph Flowgraph
open PhiPlace (assigns collectVars insertPhi iteratedFrontier liveIn new upwardUses)

section Variables

variable {blocks : List BasicBlockData} {v : Variable} {b x y : ℕ}

theorem mem_assigns : b ∈ assigns blocks v ↔ ∃ block, blocks[b]? = some block ∧ v ∈ definedVars block.statements := by
  have inside : ∀ {block}, blocks[b]? = some block → b < blocks.length := fun here => (List.getElem?_eq_some_iff.mp here).1
  simp only [assigns, List.mem_flatMap, List.mem_range, List.mem_map, List.mem_filter, decide_eq_true_eq, definedVars]
  constructor
  · rintro ⟨c, less, ref, ⟨st, member, isDst, rfl⟩, rfl⟩
    obtain ⟨block, here⟩ : ∃ block, blocks[c]? = some block := ⟨_, List.getElem?_eq_getElem less⟩
    rw [here] at member
    exact ⟨block, here, st, member, ref, isDst, rfl⟩
  · rintro ⟨block, here, st, member, ref, isDst, rfl⟩
    refine ⟨b, inside here, ref, ⟨st, ?_, isDst, rfl⟩, rfl⟩
    rw [here]
    exact member

theorem mem_upwardUses : b ∈ upwardUses blocks v ↔
    ∃ block, blocks[b]? = some block ∧ PhiPlace.readsFirst v block.terminator block.statements = true := by
  have inside : ∀ {block}, blocks[b]? = some block → b < blocks.length := fun here => (List.getElem?_eq_some_iff.mp here).1
  simp only [upwardUses, List.mem_filter, List.mem_range]
  constructor
  · rintro ⟨less, reads⟩
    obtain ⟨block, here⟩ : ∃ block, blocks[b]? = some block := ⟨_, List.getElem?_eq_getElem less⟩
    rw [here] at reads
    exact ⟨block, here, reads⟩
  · rintro ⟨block, here, reads⟩
    refine ⟨inside here, ?_⟩
    rw [here]
    exact reads

theorem mem_collectVars : v ∈ collectVars blocks ↔ ∃ block ∈ blocks, v ∈ PhiPlace.blockVars block := by
  simp [collectVars, (List.perm_insertionSort _ _).mem_iff]

theorem nodup_collectVars : (collectVars blocks).Nodup :=
  (List.perm_insertionSort _ _).nodup_iff.mpr (List.nodup_dedup _)

/-- A variable is live on entry to the blocks from which a block that reads it first can be reached without
passing a block that defines it. -/
theorem mem_liveIn (wellFormed : (cfg blocks).WellFormed) :
    y ∈ liveIn blocks v ↔ ∃ b ∈ upwardUses blocks v,
      ReflTransGen (fun a c => (cfg blocks).Edge a c ∧ a ∉ assigns blocks v) y b := by
  have inside : ∀ x, ∀ p ∈ ((cfg blocks).predecessors x).filter (· ∉ assigns blocks v),
      p ∈ Finset.range blocks.length := by
    intro x p isPred
    obtain ⟨isPred, -⟩ := List.mem_filter.mp isPred
    exact Finset.mem_range.mpr (wellFormed.successors_lt (mem_predecessors.mp isPred)).1
  have backwards : ∀ {b}, ReflTransGen (fun a c => c ∈ ((cfg blocks).predecessors a).filter (· ∉ assigns blocks v)) b y ↔
      ReflTransGen (fun a c => (cfg blocks).Edge a c ∧ a ∉ assigns blocks v) y b := by
    intro b
    rw [← reflTransGen_swap]
    refine iff_of_eq (congrFun₂ (congrArg ReflTransGen ?_) y b)
    funext a c
    simp [swap, mem_predecessors, ControlFlowGraph.Edge]
  unfold liveIn
  simp only
  rw [Worklist.mem_drain_closure inside (by simp)]
  simp only [backwards]

variable {tree : DominatorTree} (of : DominatorTree.Of (cfg blocks) tree) (reachable : (cfg blocks).AllReachable)
  (wellFormed : (cfg blocks).WellFormed)
include of reachable wellFormed

/-- The iterated frontier is what the frontiers lead to from the blocks that define the variable. -/
theorem mem_iteratedFrontier :
    y ∈ iteratedFrontier blocks (DominanceFrontier.new (cfg blocks) tree) v ↔
      ∃ x ∈ assigns blocks v, TransGen (fun a c => c ∈ (DominanceFrontier.new (cfg blocks) tree).frontier a) x y := by
  have inside : ∀ x, ∀ y ∈ (DominanceFrontier.new (cfg blocks) tree).frontier x, y ∈ Finset.range blocks.length := by
    intro x y member
    have node : x < (cfg blocks).numNodes := of.numNodes ▸ DominanceFrontier.lt_of_mem member
    obtain ⟨u, -, -, out⟩ := DominanceFrontier.exists_edge_of_mem of reachable node member
    exact Finset.mem_range.mpr (wellFormed.successors_lt out).2
  exact Worklist.mem_drain_seeds inside (by simp)

/-- Trees that agree have the same iterated frontiers. -/
theorem mem_iteratedFrontier_of_agree {tree' : DominatorTree} (of' : DominatorTree.Of (cfg blocks) tree')
    (agree : DominatorTree.Agree (cfg blocks) tree tree')
    (inside : y ∈ iteratedFrontier blocks (DominanceFrontier.new (cfg blocks) tree) v) :
    y ∈ iteratedFrontier blocks (DominanceFrontier.new (cfg blocks) tree') v := by
  obtain ⟨x, defines, path⟩ := (mem_iteratedFrontier of reachable wellFormed).mp inside
  refine (mem_iteratedFrontier of' reachable wellFormed).mpr ⟨x, defines, TransGen.mono (fun a c member => ?_) _ _ path⟩
  exact DominanceFrontier.mem_frontier_of_agree of reachable of' wellFormed agree
    (of.numNodes ▸ DominanceFrontier.lt_of_mem member) member

end Variables

/-- The variable has a phi at the head of the block. -/
def Placed (blocks : List BasicBlockData) (mode : PhiMode) (tree : DominatorTree) (v : Variable) (y : ℕ) : Prop :=
  y ∈ PhiPlace.iteratedFrontier blocks (DominanceFrontier.new (cfg blocks) tree) v ∧
    (mode = .minimal ∨ y ∈ PhiPlace.liveIn blocks v)

/-- Where a block defines the variable; which of its definitions is the last one does not matter here. -/
def site (blocks : List BasicBlockData) (v : Variable) (u : ℕ) : Option Unit :=
  if u ∈ PhiPlace.assigns blocks v then some () else none

section Placement

variable {blocks : List BasicBlockData} {mode : PhiMode} {tree : DominatorTree} {v : Variable} {u : ℕ}

theorem site_eq_none : site blocks v u = none ↔ u ∉ assigns blocks v := by
  simp [site]

/-- The phis of either mode, on the part of the iterated frontier that the mode asks for. -/
theorem placement (of : DominatorTree.Of (cfg blocks) tree) (reachable : (cfg blocks).AllReachable)
    (wellFormed : (cfg blocks).WellFormed) (mode : PhiMode) (v : Variable) :
    Placement (cfg blocks).Edge 0 tree.idom (site blocks v) (Placed blocks mode tree v) tree.dfnum
      (fun z w => w ∈ (DominanceFrontier.new (cfg blocks) tree).frontier z)
      (· ∈ iteratedFrontier blocks (DominanceFrontier.new (cfg blocks) tree) v)
      (fun y => mode = .minimal ∨ y ∈ liveIn blocks v) where
  table := of.table
  source_reachable out := reachable _ (wellFormed.successors_lt out).1
  frontier_or_above out above := DominanceFrontier.mem_frontier_or_above of reachable wellFormed out above
  iterated_closed source member := by
    simp only [mem_iteratedFrontier of reachable wellFormed] at source ⊢
    rcases source with defines | ⟨x, defines, path⟩
    · exact ⟨_, not_not.mp fun off => defines (site_eq_none.mpr off), .single member⟩
    · exact ⟨x, defines, path.tail member⟩
  iterated_source inside := by
    obtain ⟨x, defines, path⟩ := (mem_iteratedFrontier of reachable wellFormed).mp inside
    refine ⟨x, fun clear => site_eq_none.mp clear defines, ?_⟩
    have downstream : ∀ {a c}, c ∈ (DominanceFrontier.new (cfg blocks) tree).frontier a → TransGen (cfg blocks).Edge a c :=
      fun member => DominanceFrontier.downstream_of_mem of reachable (of.numNodes ▸ DominanceFrontier.lt_of_mem member) member
    clear inside
    induction path with
    | single member => exact downstream member
    | tail _ member ih => exact ih.trans (downstream member)
  phi_iff := Iff.rfl
  live_back out isLive clear := by
    refine isLive.imp_right fun isLive => ?_
    obtain ⟨b, reads, walk⟩ := (mem_liveIn wellFormed).mp isLive
    exact (mem_liveIn wellFormed).mpr ⟨b, reads, walk.head ⟨out, site_eq_none.mp clear⟩⟩

end Placement

/-- The phi for a variable at the head of a block, before renaming. -/
def phiFor (blocks : List BasicBlockData) (y : ℕ) (v : Variable) : Statement :=
  .phi (.new v) (((cfg blocks).predecessors y).map fun pred => (pred, .new v))

instance (blocks : List BasicBlockData) (mode : PhiMode) (tree : DominatorTree) (v : Variable) (y : ℕ) :
    Decidable (Placed blocks mode tree v y) := inferInstanceAs (Decidable (_ ∧ _))

/-- The variables that have a phi at the head of a block, in the order of the phis. -/
def phiVars (blocks : List BasicBlockData) (mode : PhiMode) (tree : DominatorTree) (vars : List Variable) (y : ℕ) :
    List Variable :=
  (vars.filter fun v => Placed blocks mode tree v y).reverse

/-- The blocks once the phis of some variables are placed. -/
def withPhis (blocks : List BasicBlockData) (mode : PhiMode) (tree : DominatorTree) (vars : List Variable) :
    List BasicBlockData :=
  vars.foldl (PhiPlace.insertPhi blocks mode (DominanceFrontier.new (cfg blocks) tree)) blocks

section Insert

variable {blocks : List BasicBlockData} {mode : PhiMode} {tree : DominatorTree} {vars : List Variable} {y : ℕ}

theorem getElem?_withPhis : (withPhis blocks mode tree vars)[y]? = blocks[y]?.map fun block =>
    { block with statements := (phiVars blocks mode tree vars y).map (phiFor blocks y) ++ block.statements } := by
  have along : ∀ current : List BasicBlockData,
      (vars.foldl (insertPhi blocks mode (DominanceFrontier.new (cfg blocks) tree)) current)[y]? =
        current[y]?.map fun block =>
          { block with statements := (phiVars blocks mode tree vars y).map (phiFor blocks y) ++ block.statements } := by
    induction vars with
    | nil =>
      intro current
      cases here : current[y]? <;> simp [phiVars, here]
    | cons v vars ih =>
      intro current
      rw [List.foldl_cons, ih, insertPhi, List.getElem?_mapIdx]
      cases current[y]? with
      | none => rfl
      | some block =>
        simp only [Option.map_some, phiVars, List.filter_cons, Option.some.injEq]
        split_ifs with here placed placed
        · simp [phiFor]
        · exact absurd (decide_eq_true here) placed
        · exact absurd (of_decide_eq_true placed) here
        · rfl
  exact along blocks

theorem length_withPhis : (withPhis blocks mode tree vars).length = blocks.length := by
  refine List.foldlRecOn _ _ (motive := fun current : List BasicBlockData => current.length = blocks.length) rfl ?_
  intro current same v _
  simpa [insertPhi] using same

/-- Placing phis leaves the edges as they are. -/
theorem cfg_withPhis : cfg (withPhis blocks mode tree vars) = cfg blocks := by
  have successors : ∀ n : ℕ, ((withPhis blocks mode tree vars)[n]?.map BasicBlockData.successors) =
      blocks[n]?.map BasicBlockData.successors := by
    intro n
    rw [getElem?_withPhis]
    cases blocks[n]? <;> rfl
  simp only [cfg, length_withPhis, successors]

theorem new_eq {hash : HashOrder} (returned : DominatorTree.new (cfg blocks) hash = some tree) :
    new blocks mode hash = some (⟨collectVars blocks, tree⟩,
      withPhis blocks mode tree (collectVars blocks)) := by
  simp [new, returned, withPhis]

end Insert

section Walkable

variable {f : FunctionData} {mode : PhiMode} {tree : DominatorTree} {vars : List Variable}

theorem mem_phiVars {blocks : List BasicBlockData} {v : Variable} {y : ℕ} :
    v ∈ phiVars blocks mode tree vars y ↔ v ∈ vars ∧ Placed blocks mode tree v y := by
  simp [phiVars]

/-- The variables of the blocks are collected, globals that are only read apart. -/
theorem covered_collectVars {blocks : List BasicBlockData} (bare : Unversioned blocks)
    (plain : ∀ block ∈ blocks, ∀ st ∈ block.statements, st.isPhi = false) {block : BasicBlockData} (member : block ∈ blocks)
    {st : Statement} (inside : st ∈ block.statements) : SsaRename.Covered (collectVars blocks) st where
  sources ref source isLocal := by
    have isLocal := isLocal.resolve_right (by simp [plain block member st inside])
    refine mem_collectVars.mpr ⟨block, member, List.mem_append_left _ (List.mem_flatMap.mpr ⟨st, inside, ?_⟩)⟩
    refine List.mem_append_left _ (List.mem_map.mpr ⟨ref, List.mem_filter.mpr ⟨source, ?_⟩, rfl⟩)
    simp [(bare block member).1 st inside ref (List.mem_append_left _ source), isLocal]
  dests ref dest := by
    refine mem_collectVars.mpr ⟨block, member, List.mem_append_left _ (List.mem_flatMap.mpr ⟨st, inside, ?_⟩)⟩
    exact List.mem_append_right _ (List.mem_map_of_mem dest)

/-- A completed function can be walked with the phis of either mode in place. -/
theorem walkable_withPhis (pre : PreSsa f) :
    Walkable (withPhis f.blocks mode tree (collectVars f.blocks)) (collectVars f.blocks) := by
  have origin : ∀ b ∈ withPhis f.blocks mode tree (collectVars f.blocks), ∃ (y : ℕ) (block : BasicBlockData),
      block ∈ f.blocks ∧ b = { block with statements :=
        (phiVars f.blocks mode tree (collectVars f.blocks) y).map (phiFor f.blocks y) ++ block.statements } := by
    intro b member
    obtain ⟨y, here⟩ := List.mem_iff_getElem?.mp member
    rw [getElem?_withPhis, Option.map_eq_some_iff] at here
    obtain ⟨block, there, rfl⟩ := here
    exact ⟨y, block, List.mem_of_getElem? there, rfl⟩
  refine ⟨?_, ?_, ?_, ?_⟩
  · intro b member
    obtain ⟨y, block, old, rfl⟩ := origin b member
    exact pre.ok.finished block old
  · intro b member z out
    obtain ⟨y, block, old, rfl⟩ := origin b member
    rw [length_withPhis]
    exact pre.successors_lt block old z out
  · intro b member st inside
    obtain ⟨y, block, old, rfl⟩ := origin b member
    rcases List.mem_append.mp inside with new | was
    · obtain ⟨v, placed, rfl⟩ := List.mem_map.mp new
      have known := (mem_phiVars.mp placed).1
      refine ⟨fun ref source _ => ?_, fun ref dest => ?_⟩
      · obtain ⟨op, isOp, rfl⟩ := List.mem_map.mp source
        obtain ⟨pred, -, rfl⟩ := List.mem_map.mp isOp
        exact known
      · obtain rfl := List.mem_singleton.mp dest
        exact known
    · exact covered_collectVars pre.unversioned pre.plain old was
  · intro b member term last ref source isLocal
    obtain ⟨y, block, old, rfl⟩ := origin b member
    refine mem_collectVars.mpr ⟨block, old, List.mem_append_right _ ?_⟩
    have there : block.terminator = some term := last
    rw [there]
    exact List.mem_map.mpr ⟨ref, List.mem_filter.mpr ⟨source, by simp [isLocal]⟩, rfl⟩

end Walkable

end Ctadl.Ssa
