import Ctadl.Graph.Semidominators
import Ctadl.Ssa.Numbering

/-! # Before phis are placed

A function that passes the verifier and is not in static single assignment form yet can be pruned and
completed: both passes succeed, the result passes the verifier again, and every block of it is reachable.
-/

namespace Ctadl.Ssa

open Cir Ctadl.Graph Flowgraph

section Reachable

variable {graph : ControlFlowGraph} {n : ℕ}

/-- The walk that prunes visits the nodes that the search for dominators numbers. -/
theorem reachableFrom_eq (fuel : ℕ) (search : DomImpl.Search) :
    reachableFrom graph fuel (search.nodes.map Prod.fst) search.seen.reverse =
      (DomImpl.Search.run graph fuel search).seen.reverse := by
  induction fuel generalizing search with
  | zero => rfl
  | succ fuel ih =>
    unfold reachableFrom DomImpl.Search.run
    cases top : search.nodes with
    | nil => rfl
    | cons e nodes =>
      obtain ⟨n, p⟩ := e
      simp only [List.map_cons, List.mem_reverse]
      split_ifs with old
      · exact ih { search with nodes }
      · have visited := ih (DomImpl.Search.visit graph { search with nodes } n p)
        rw [← visited]
        simp [DomImpl.Search.visit, Function.comp_def]

theorem reachable_eq : reachable graph = (DomImpl.Search.run graph (DomImpl.searchFuel graph)
    { counter := 0, nodes := [(graph.startNode, none)], seen := [], impl := DomImpl.new }).seen.reverse :=
  reachableFrom_eq (DomImpl.searchFuel graph)
    { counter := 0, nodes := [(graph.startNode, none)], seen := [], impl := DomImpl.new }

theorem reachable_nodup (wellFormed : graph.WellFormed) : (reachable graph).Nodup := by
  rw [reachable_eq, List.nodup_reverse]
  exact (DomImpl.search_done wellFormed).2.seen_nodup

theorem mem_reachable (wellFormed : graph.WellFormed) :
    n ∈ reachable graph ↔ Reachable graph.Edge graph.startNode n := by
  obtain ⟨empty, inv⟩ := DomImpl.search_done wellFormed
  rw [reachable_eq, List.mem_reverse]
  generalize DomImpl.Search.run graph (DomImpl.searchFuel graph)
    { counter := 0, nodes := [(graph.startNode, none)], seen := [], impl := DomImpl.new } = final at empty inv
  constructor
  · intro seen
    induction num : final.impl.dfnum n using Nat.strong_induction_on generalizing n with
    | _ k ih =>
      cases child : final.impl.parent n with
      | none => exact inv.parent_none n seen child ▸ .refl
      | some p =>
        obtain ⟨pSeen, -, earlier, out⟩ := inv.parent_some n p child
        exact (ih _ (num ▸ earlier) pSeen rfl).tail out
  · intro walk
    induction walk with
    | refl => exact inv.start_seen
    | @tail u w _ out ih =>
      rcases inv.pending u ih w out with found | waits
      · exact found
      · simp [empty] at waits

/-- The walk only adds to what it has found. -/
theorem reachableFrom_extends (graph : ControlFlowGraph) (fuel : ℕ) (nodes reach : List ℕ) :
    ∃ more, reachableFrom graph fuel nodes reach = reach ++ more := by
  induction fuel generalizing nodes reach with
  | zero => exact ⟨[], by simp [reachableFrom]⟩
  | succ fuel ih =>
    unfold reachableFrom
    cases nodes with
    | nil => exact ⟨[], by simp⟩
    | cons n nodes =>
      simp only
      split_ifs
      · exact ih nodes reach
      · obtain ⟨more, found⟩ := ih ((graph.successors n).reverse ++ nodes) (reach ++ [n])
        exact ⟨n :: more, by simp [found]⟩

theorem idxOf_startNode (graph : ControlFlowGraph) : (reachable graph).idxOf graph.startNode = 0 := by
  obtain ⟨more, found⟩ := reachableFrom_extends graph
    (((List.range graph.numNodes).map fun n => (graph.successors n).length).sum)
    ((graph.successors graph.startNode).reverse ++ []) ([] ++ [graph.startNode])
  have first : reachable graph = [] ++ [graph.startNode] ++ more := by
    rw [← found, reachable, DomImpl.searchFuel, Nat.add_comm 1]
    rfl
  simp [first]

end Reachable

/-- A loop in which nothing fails. -/
theorem exists_mapM {α β : Type} (f : α → Option β) (items : List α) (each : ∀ a ∈ items, (f a).isSome) :
    ∃ out, items.mapM f = some out ∧ out.length = items.length ∧ ∀ i : ℕ, out[i]? = items[i]?.bind f := by
  induction items with
  | nil => exact ⟨[], rfl, rfl, by simp⟩
  | cons a items ih =>
    obtain ⟨b, first⟩ := Option.isSome_iff_exists.mp (each a (.head _))
    obtain ⟨out, rest, length, same⟩ := ih fun a later => each a (.tail _ later)
    refine ⟨b :: out, by simp [first, rest], by simp [length], fun i => ?_⟩
    cases i with
    | zero => simp [first]
    | succ i => simp [same]

/-- A function that passes the verifier and has neither versions nor phis. -/
structure PreSsa (f : FunctionData) : Prop where
  ok : CirVerify.FunctionOk none f
  unversioned : Unversioned f.blocks
  plain : ∀ block ∈ f.blocks, ∀ st ∈ block.statements, st.isPhi = false

section Cfg

variable {blocks : List BasicBlockData} {x y : ℕ}

theorem mem_successors : y ∈ (cfg blocks).successors x ↔ ∃ block, blocks[x]? = some block ∧ y ∈ block.successors := by
  unfold cfg
  cases here : blocks[x]? <;> simp [here]

theorem mem_predecessors : x ∈ (cfg blocks).predecessors y ↔ y ∈ (cfg blocks).successors x := by
  have edge : y ∈ (cfg blocks).successors x → x < blocks.length := by
    intro out
    obtain ⟨block, here, -⟩ := mem_successors.mp out
    exact (List.getElem?_eq_some_iff.mp here).1
  simp only [cfg, List.mem_flatMap, List.mem_range, List.mem_map, List.mem_filter, decide_eq_true_eq] at edge ⊢
  constructor
  · rintro ⟨b, -, w, ⟨out, rfl⟩, rfl⟩
    exact out
  · exact fun out => ⟨x, edge out, y, ⟨out, rfl⟩, rfl⟩

theorem cfg_wellFormed (nonempty : blocks ≠ []) (inside : ∀ block ∈ blocks, ∀ y ∈ block.successors, y < blocks.length) :
    (cfg blocks).WellFormed where
  start_lt := List.length_pos_of_ne_nil nonempty
  successors_lt out := by
    obtain ⟨block, here, member⟩ := mem_successors.mp out
    exact ⟨(List.getElem?_eq_some_iff.mp here).1, inside block (List.mem_of_getElem? here) _ member⟩
  mem_predecessors := mem_predecessors

end Cfg

/-- Rename the targets of a jump. -/
def retarget (rename : ℕ → ℕ) : Terminator → Terminator
  | .goto targets => .goto (targets.map rename)
  | .ret args => .ret args

theorem successors_retarget (rename : ℕ → ℕ) (term : Terminator) :
    (retarget rename term).successors = term.successors.map rename := by
  cases term <;> rfl

theorem storesUndefined_of_unversioned {blocks : List BasicBlockData} {st : Statement}
    (bare : ∀ ref ∈ st.srcVars ++ st.dstVars, ref.version = none) : CirVerify.storesUndefined blocks st = none := by
  cases st with
  | assign dest sources =>
    refine if_neg ?_
    by_cases pathless : dest.isPathless
    · simp [pathless]
    · simp [bare dest.base (by simp [Statement.srcVars, pathless])]
  | callAssign _ _ _ _ | phi _ _ | nop => rfl

namespace PreSsa

variable {f g : FunctionData}

theorem successors_lt (pre : PreSsa f) : ∀ block ∈ f.blocks, ∀ y ∈ block.successors, y < f.blocks.length := by
  intro block member y out
  obtain ⟨term, last⟩ := Option.isSome_iff_exists.mp (pre.ok.finished block member)
  cases term with
  | ret args => simp [BasicBlockData.successors, last, Terminator.successors] at out
  | goto targets =>
    refine (pre.ok.jumps block member targets last).2 y ?_
    simpa [BasicBlockData.successors, last, Terminator.successors] using out

theorem wellFormed (pre : PreSsa f) (nonempty : f.blocks ≠ []) : (cfg f.blocks).WellFormed :=
  cfg_wellFormed nonempty pre.successors_lt

/-- What is renumbered of a block without phis are the targets of its jump. -/
theorem renumber_eq {kept : List ℕ} {block : BasicBlockData} (plain : ∀ st ∈ block.statements, st.isPhi = false)
    (closed : ∀ y ∈ block.successors, y ∈ kept) :
    renumber kept block = some ⟨block.statements, block.terminator.map (retarget kept.idxOf)⟩ := by
  have same : block.statements.map (renumberStatement kept) = block.statements := by
    refine (List.map_congr_left fun st member => ?_).trans (List.map_id _)
    cases st with
    | phi dest operands => simpa [Statement.isPhi] using plain _ member
    | assign _ _ | callAssign _ _ _ _ | nop => rfl
  unfold renumber
  rw [same]
  cases last : block.terminator with
  | none => rfl
  | some term =>
    cases term with
    | ret args => rfl
    | goto targets =>
      have inside : ∀ target ∈ targets, target ∈ kept := fun target member =>
        closed target (by simpa [BasicBlockData.successors, last, Terminator.successors] using member)
      simp only [renumberTerminator, if_pos inside, Option.bind_eq_bind, Option.bind_some, Option.map_some, retarget]

/-- Blocks that differ from those of a function in the targets of their jumps. -/
theorem retargeted (pre : PreSsa f) {blocks : List BasicBlockData}
    (alike : ∀ block' ∈ blocks, ∃ block ∈ f.blocks, ∃ rename : ℕ → ℕ, (∀ y ∈ block.successors, rename y < blocks.length) ∧
      block' = ⟨block.statements, block.terminator.map (retarget rename)⟩) : PreSsa { f with blocks } := by
  refine ⟨⟨?_, ?_, ?_, ?_, ?_, ?_⟩, ?_, ?_⟩
  · intro block' member
    obtain ⟨block, old, rename, -, rfl⟩ := alike block' member
    exact pre.ok.refs block old
  · intro block' member
    obtain ⟨block, old, rename, -, rfl⟩ := alike block' member
    exact pre.ok.statements block old
  · intro block' member
    obtain ⟨block, old, rename, -, rfl⟩ := alike block' member
    simpa using pre.ok.finished block old
  · intro block' member args last
    obtain ⟨block, old, rename, -, rfl⟩ := alike block' member
    refine pre.ok.returns block old args ?_
    obtain ⟨term, isTerm, retargeted⟩ := Option.map_eq_some_iff.mp last
    cases term with
    | ret args' => exact retargeted ▸ isTerm
    | goto targets => simp [retarget] at retargeted
  · intro block' member targets last
    obtain ⟨block, old, rename, inside, rfl⟩ := alike block' member
    obtain ⟨term, isTerm, retargeted⟩ := Option.map_eq_some_iff.mp last
    cases term with
    | ret args' => simp [retarget] at retargeted
    | goto targets' =>
      obtain rfl := Terminator.goto.inj retargeted
      refine ⟨by simpa using (pre.ok.jumps block old targets' isTerm).1, fun target renamed => ?_⟩
      obtain ⟨target', member, rfl⟩ := List.mem_map.mp renamed
      exact inside target' (by simpa [BasicBlockData.successors, isTerm, Terminator.successors] using member)
  · intro block' member st inside
    obtain ⟨block, old, rename, -, rfl⟩ := alike block' member
    exact storesUndefined_of_unversioned fun ref mentioned => (pre.unversioned block old).1 st inside ref mentioned
  · intro block' member
    obtain ⟨block, old, rename, -, rfl⟩ := alike block' member
    refine ⟨(pre.unversioned block old).1, fun term last => ?_⟩
    obtain ⟨term', isTerm, rfl⟩ := Option.map_eq_some_iff.mp last
    have bare := (pre.unversioned block old).2 term' isTerm
    cases term' with
    | ret args => exact bare
    | goto targets => simp [retarget, Terminator.srcVars]
  · intro block' member
    obtain ⟨block, old, rename, -, rfl⟩ := alike block' member
    exact pre.plain block old

/-- Pruning succeeds and leaves the blocks that are reachable. -/
theorem exists_prune (pre : PreSsa f) (nonempty : f.blocks ≠ []) :
    ∃ g, pruneUnreachableNodes f = some g ∧ PreSsa g ∧ g.blocks ≠ [] ∧ (cfg g.blocks).AllReachable ∧ g.name = f.name := by
  have wellFormed := pre.wellFormed nonempty
  have reached : ∀ {n}, n ∈ reachable (cfg f.blocks) ↔ Reachable (cfg f.blocks).Edge 0 n := mem_reachable wellFormed
  have nodup := reachable_nodup wellFormed
  have inside : ∀ old ∈ reachable (cfg f.blocks), old < f.blocks.length := fun old member =>
    wellFormed.lt_of_reachable (reached.mp member)
  by_cases all : (reachable (cfg f.blocks)).length = f.blocks.length
  · refine ⟨f, if_pos all, pre, nonempty, fun n node => ?_, rfl⟩
    have subperm : (reachable (cfg f.blocks)).Subperm (List.range f.blocks.length) :=
      List.subperm_of_subset nodup fun old member => List.mem_range.mpr (inside old member)
    have perm := subperm.perm_of_length_le (by simp [all])
    exact reached.mp (perm.mem_iff.mpr (List.mem_range.mpr node))
  · have closed : ∀ old ∈ reachable (cfg f.blocks), ∀ block, f.blocks[old]? = some block →
        ∀ y ∈ block.successors, y ∈ reachable (cfg f.blocks) := by
      intro old member block here y out
      exact reached.mpr ((reached.mp member).tail (mem_successors.mpr ⟨block, here, out⟩))
    obtain ⟨blocks, mapped, length, same⟩ := exists_mapM
        (fun old => do renumber (reachable (cfg f.blocks)) (← f.blocks[old]?)) (reachable (cfg f.blocks)) fun old member => by
      have here := List.getElem?_eq_getElem (inside old member)
      simp [here, renumber_eq (pre.plain _ (List.mem_of_getElem? here)) (closed old member _ here)]
    have origin : ∀ {i : ℕ} {block'}, blocks[i]? = some block' → ∃ old block, (reachable (cfg f.blocks))[i]? = some old ∧
        f.blocks[old]? = some block ∧
        block' = ⟨block.statements, block.terminator.map (retarget (reachable (cfg f.blocks)).idxOf)⟩ := by
      intro i block' here
      rw [same] at here
      simp only [Option.bind_eq_bind, Option.bind_eq_some_iff] at here
      obtain ⟨old, found, block, at?, renumbered⟩ := here
      rw [renumber_eq (pre.plain _ (List.mem_of_getElem? at?)) (closed old (List.mem_of_getElem? found) _ at?)] at renumbered
      exact ⟨old, block, found, at?, (Option.some.inj renumbered).symm⟩
    have fromOld : ∀ block' ∈ blocks, ∃ old block, f.blocks[old]? = some block ∧ old ∈ reachable (cfg f.blocks) ∧
        block' = ⟨block.statements, block.terminator.map (retarget (reachable (cfg f.blocks)).idxOf)⟩ := by
      intro block' member
      obtain ⟨i, here⟩ := List.mem_iff_getElem?.mp member
      obtain ⟨old, block, found, at?, rfl⟩ := origin here
      exact ⟨old, block, at?, List.mem_of_getElem? found, rfl⟩
    have toNew : ∀ {u}, Reachable (cfg f.blocks).Edge 0 u →
        Reachable (cfg blocks).Edge 0 ((reachable (cfg f.blocks)).idxOf u) := by
      intro u walk
      induction walk with
      | refl =>
        have atStart : (reachable (cfg f.blocks)).idxOf 0 = 0 := idxOf_startNode (cfg f.blocks)
        rw [atStart]
        exact .refl
      | @tail u w sofar out ih =>
        obtain ⟨block, at?, member⟩ := mem_successors.mp out
        have found : (reachable (cfg f.blocks))[(reachable (cfg f.blocks)).idxOf u]? = some u :=
          List.getElem?_idxOf (reached.mpr sofar)
        refine ih.tail (mem_successors.mpr
          ⟨⟨block.statements, block.terminator.map (retarget (reachable (cfg f.blocks)).idxOf)⟩, ?_, ?_⟩)
        · rw [same, found]
          simp only [Option.bind_some, Option.bind_eq_bind, at?]
          exact renumber_eq (pre.plain _ (List.mem_of_getElem? at?)) (closed u (reached.mpr sofar) _ at?)
        · obtain ⟨term, last⟩ := Option.isSome_iff_exists.mp (pre.ok.finished block (List.mem_of_getElem? at?))
          simp only [BasicBlockData.successors, last, Option.map_some, Option.getD_some, successors_retarget] at member ⊢
          exact List.mem_map_of_mem member
    refine ⟨{ f with blocks }, ?_, pre.retargeted fun block' member => ?_, ?_, fun i node => ?_, rfl⟩
    · simp only [pruneUnreachableNodes, if_neg all]
      rw [mapped]
      rfl
    · obtain ⟨old, block, at?, kept, rfl⟩ := fromOld block' member
      refine ⟨block, List.mem_of_getElem? at?, _, fun y out => ?_, rfl⟩
      rw [length]
      exact List.idxOf_lt_length_of_mem (closed old kept block at? y out)
    · intro empty
      have member : 0 ∈ reachable (cfg f.blocks) := reached.mpr .refl
      rw [List.eq_nil_of_length_eq_zero (length.symm.trans (congrArg List.length empty))] at member
      simp at member
    · have node : i < (reachable (cfg f.blocks)).length := length ▸ node
      have walk := toNew (reached.mp (List.getElem_mem node))
      rwa [nodup.idxOf_getElem] at walk

end PreSsa

/-- The return variables are declared locals. -/
theorem internRetvars_spec (locals : List String) (arity : ℕ) :
    locals.length ≤ (internRetvars locals arity).1.length ∧ (internRetvars locals arity).2.length = arity ∧
      ∀ v ∈ (internRetvars locals arity).2, ∃ idx < (internRetvars locals arity).1.length, v = .new (.localVar idx) := by
  induction arity with
  | zero => exact ⟨le_rfl, rfl, by simp [internRetvars]⟩
  | succ arity ih =>
    obtain ⟨more, length, declared⟩ := ih
    have next : internRetvars locals (arity + 1) =
        ((internLocal (internRetvars locals arity).1 ("_$ret" ++ toString arity)).1, (internRetvars locals arity).2 ++
          [.new (.localVar (internLocal (internRetvars locals arity).1 ("_$ret" ++ toString arity)).2)]) := by
      simp [internRetvars, List.range_succ]
    obtain ⟨grown, fits⟩ : (internRetvars locals arity).1.length ≤
          (internLocal (internRetvars locals arity).1 ("_$ret" ++ toString arity)).1.length ∧
        (internLocal (internRetvars locals arity).1 ("_$ret" ++ toString arity)).2 <
          (internLocal (internRetvars locals arity).1 ("_$ret" ++ toString arity)).1.length := by
      unfold internLocal
      split_ifs with old
      · exact ⟨le_rfl, List.idxOf_lt_length_of_mem old⟩
      · simp
    rw [next]
    refine ⟨more.trans grown, by simp [length], fun v member => ?_⟩
    rcases List.mem_append.mp member with was | new
    · obtain ⟨idx, less, rfl⟩ := declared v was
      exact ⟨idx, less.trans_le grown, rfl⟩
    · exact ⟨_, fits, List.mem_singleton.mp new⟩

/-- The assignments to the return variables that a return becomes. -/
def exitAssigns (retvars : List VariableRef) : Terminator → List Statement
  | .ret args => List.zipWith (fun retvar arg => Statement.assign (.ofRef retvar) [arg]) retvars args
  | .goto _ => []

/-- The targets of the jump that a terminator becomes. -/
def exitTargets (exit : ℕ) : Terminator → List ℕ
  | .ret _ => [exit]
  | .goto targets => targets

/-- A function and its completion, block by block. -/
structure Completes (f g : FunctionData) (retvars : List VariableRef) : Prop where
  name : g.name = f.name
  params : g.params = f.params
  arity : g.returnArity = f.returnArity
  length : g.blocks.length = f.blocks.length + 1
  locals : f.locals.length ≤ g.locals.length
  retvars_length : retvars.length = f.returnArity
  declared : ∀ v ∈ retvars, ∃ idx < g.locals.length, v = .new (.localVar idx)
  block : ∀ {i : ℕ} {b : BasicBlockData}, f.blocks[i]? = some b → ∃ term targets, b.terminator = some term ∧
    g.blocks[i]? = some ⟨b.statements ++ exitAssigns retvars term, some (.goto targets)⟩ ∧
    ∀ y, y ∈ targets ↔ y ∈ exitTargets f.blocks.length term ∨ i = 0 ∧ y = f.blocks.length
  exit : g.blocks[f.blocks.length]? = some ⟨[], some (.ret (retvars.map fun v => .path (.ofRef v)))⟩

theorem exists_complete {f : FunctionData} (finished : ∀ block ∈ f.blocks, block.terminator.isSome)
    (nonempty : f.blocks ≠ []) :
    ∃ g, complete f = some g ∧ Completes f g (internRetvars f.locals f.returnArity).2 := by
  obtain ⟨more, length, declared⟩ := internRetvars_spec f.locals f.returnArity
  have rewrites : ∀ {b : BasicBlockData} {term}, b.terminator = some term →
      singleExitRewrite f.blocks.length (internRetvars f.locals f.returnArity).2 b =
        some ⟨b.statements ++ exitAssigns (internRetvars f.locals f.returnArity).2 term,
          some (.goto (exitTargets f.blocks.length term))⟩ := by
    intro b term last
    obtain ⟨statements, terminator⟩ := b
    obtain rfl : terminator = some term := last
    cases term with
    | ret args => rfl
    | goto targets => simp [singleExitRewrite, exitAssigns, exitTargets]
  obtain ⟨blocks, mapped, sameLength, same⟩ := exists_mapM
      (singleExitRewrite f.blocks.length (internRetvars f.locals f.returnArity).2) f.blocks fun b member => by
    obtain ⟨term, last⟩ := Option.isSome_iff_exists.mp (finished b member)
    simp [rewrites last]
  cases blocks with
  | nil => exact absurd (List.eq_nil_of_length_eq_zero sameLength.symm) nonempty
  | cons start rest =>
    obtain ⟨b₀, first⟩ : ∃ b₀, f.blocks[0]? = some b₀ :=
      ⟨_, List.getElem?_eq_getElem (List.length_pos_of_ne_nil nonempty)⟩
    obtain ⟨term₀, last₀⟩ := Option.isSome_iff_exists.mp (finished b₀ (List.mem_of_getElem? first))
    obtain rfl : start = ⟨b₀.statements ++ exitAssigns (internRetvars f.locals f.returnArity).2 term₀,
        some (.goto (exitTargets f.blocks.length term₀))⟩ := by
      have here := same 0
      rw [first, Option.bind_some, rewrites last₀] at here
      exact Option.some.inj here
    obtain ⟨targets, sameTargets⟩ : ∃ targets, (if f.blocks.length ∈ exitTargets f.blocks.length term₀ then
        exitTargets f.blocks.length term₀ else exitTargets f.blocks.length term₀ ++ [f.blocks.length]) = targets := ⟨_, rfl⟩
    have completed : complete f = some { f with
        locals := (internRetvars f.locals f.returnArity).1
        blocks := ⟨b₀.statements ++ exitAssigns (internRetvars f.locals f.returnArity).2 term₀, some (.goto targets)⟩ :: rest ++
          [⟨[], some (.ret ((internRetvars f.locals f.returnArity).2.map fun v => .path (.ofRef v)))⟩] } := by
      simp [complete, mapped, sameTargets]
    refine ⟨_, completed, rfl, rfl, rfl, ?_, more, length, declared,
      fun {i b} here => ?_, ?_⟩
    · simpa using sameLength
    · obtain ⟨term, last⟩ := Option.isSome_iff_exists.mp (finished b (List.mem_of_getElem? here))
      have inside : i < rest.length + 1 := by
        rw [← List.length_cons, sameLength]
        exact (List.getElem?_eq_some_iff.mp here).1
      cases i with
      | zero =>
        obtain rfl : b₀ = b := Option.some.inj (first.symm.trans here)
        obtain rfl : term₀ = term := Option.some.inj (last₀.symm.trans last)
        refine ⟨term₀, _, last, rfl, fun y => ?_⟩
        rw [← sameTargets]
        split_ifs with listed
        · refine ⟨.inl, ?_⟩
          rintro (out | ⟨-, rfl⟩)
          exacts [out, listed]
        · simp
      | succ i =>
        refine ⟨term, _, last, ?_, fun y => ⟨.inl, fun out => out.resolve_right (by simp)⟩⟩
        have moved := same (i + 1)
        rw [here, Option.bind_some, rewrites last, List.getElem?_cons_succ] at moved
        simp only [List.cons_append, List.getElem?_cons_succ]
        rw [List.getElem?_append_left (by omega), moved]
    · have atEnd : f.blocks.length = rest.length + 1 := by simpa using sameLength.symm
      simp [atEnd]

theorem pathOk_ofRef (ref : VariableRef) : CirVerify.PathOk (O := Int64) (.ofRef ref) :=
  ⟨.nil, by simp [AccessPath.ofRef, classify], by simp [AccessPath.ofRef]⟩

/-- An assignment to a return variable. -/
theorem mem_exitAssigns {retvars : List VariableRef} {term : Terminator} {st : Statement} (member : st ∈ exitAssigns retvars term) :
    ∃ args v arg, term = .ret args ∧ v ∈ retvars ∧ arg ∈ args ∧ st = .assign (.ofRef v) [arg] := by
  cases term with
  | goto targets => simp [exitAssigns] at member
  | ret args =>
    obtain ⟨i, here⟩ := List.mem_iff_getElem?.mp member
    obtain ⟨v, arg, isVar, isArg, rfl⟩ := List.getElem?_zipWith_eq_some.mp here
    exact ⟨args, v, arg, rfl, List.mem_of_getElem? isVar, List.mem_of_getElem? isArg, rfl⟩

namespace Completes

variable {f g : FunctionData} {retvars : List VariableRef} (completes : Completes f g retvars)
include completes

/-- Where a block of the completed function comes from. -/
theorem origin {i : ℕ} {b' : BasicBlockData} (here : g.blocks[i]? = some b') :
    (∃ b term targets, f.blocks[i]? = some b ∧ b.terminator = some term ∧
      b' = ⟨b.statements ++ exitAssigns retvars term, some (.goto targets)⟩ ∧
      ∀ y, y ∈ targets ↔ y ∈ exitTargets f.blocks.length term ∨ i = 0 ∧ y = f.blocks.length) ∨
    i = f.blocks.length ∧ b' = ⟨[], some (.ret (retvars.map fun v => .path (.ofRef v)))⟩ := by
  have inside : i < f.blocks.length + 1 := completes.length ▸ (List.getElem?_eq_some_iff.mp here).1
  rcases Nat.lt_succ_iff_lt_or_eq.mp inside with old | rfl
  · obtain ⟨term, targets, last, same, out⟩ := completes.block (List.getElem?_eq_getElem old)
    exact .inl ⟨_, term, targets, List.getElem?_eq_getElem old, last, Option.some.inj (here.symm.trans same), out⟩
  · exact .inr ⟨rfl, Option.some.inj (here.symm.trans completes.exit)⟩

theorem visitVariableRef_eq_nil {ref : VariableRef} (ok : CirVerify.visitVariableRef none f ref = []) :
    CirVerify.visitVariableRef none g ref = [] := by
  have more := completes.locals
  unfold CirVerify.visitVariableRef at ok ⊢
  cases var : ref.var with
  | paramVar idx =>
    simp only [var, completes.params] at ok ⊢
    simpa using ok
  | globalVar idx => simpa [var] using ok
  | localVar idx =>
    simp only [var, ite_eq_right_iff, List.cons_ne_nil, imp_false, not_le] at ok ⊢
    omega

theorem visitVariableRef_retvar {v : VariableRef} (member : v ∈ retvars) : CirVerify.visitVariableRef none g v = [] := by
  obtain ⟨idx, less, rfl⟩ := completes.declared v member
  simp [CirVerify.visitVariableRef, VariableRef.new, less]

/-- A statement of the completed function is one of the function, or assigns to a return variable. -/
theorem statement_origin {b' : BasicBlockData} (member : b' ∈ g.blocks) {st : Statement} (inside : st ∈ b'.statements) :
    (∃ b ∈ f.blocks, st ∈ b.statements) ∨ ∃ b ∈ f.blocks, ∃ args v arg, b.terminator = some (.ret args) ∧ v ∈ retvars ∧
      arg ∈ args ∧ st = .assign (.ofRef v) [arg] := by
  obtain ⟨i, here⟩ := List.mem_iff_getElem?.mp member
  rcases completes.origin here with ⟨b, term, targets, was, last, rfl, -⟩ | ⟨-, rfl⟩
  · rcases List.mem_append.mp inside with old | new
    · exact .inl ⟨b, List.mem_of_getElem? was, old⟩
    · obtain ⟨args, v, arg, rfl, isVar, isArg, rfl⟩ := mem_exitAssigns new
      exact .inr ⟨b, List.mem_of_getElem? was, args, v, arg, last, isVar, isArg, rfl⟩
  · simp at inside

theorem preSsa (pre : PreSsa f) : PreSsa g := by
  have unversioned : Unversioned g.blocks := by
    intro b' member
    refine ⟨fun st inside ref mentioned => ?_, fun term last ref mentioned => ?_⟩
    · rcases completes.statement_origin member inside with ⟨b, old, was⟩ | ⟨b, old, args, v, arg, last, isVar, isArg, rfl⟩
      · exact (pre.unversioned b old).1 st was ref mentioned
      · have source : ref ∈ [arg].filterMap Exp.baseVariable ∨ ref = v := by
          simpa [Statement.srcVars, Statement.dstVars, AccessPath.ofRef, AccessPath.isPathless] using mentioned
        rcases source with source | rfl
        · exact (pre.unversioned b old).2 _ last ref (List.mem_filterMap.mpr ⟨arg, isArg, by simpa using source⟩)
        · obtain ⟨idx, -, rfl⟩ := completes.declared _ isVar
          rfl
    · obtain ⟨i, here⟩ := List.mem_iff_getElem?.mp member
      rcases completes.origin here with ⟨b, term', targets, -, -, rfl, -⟩ | ⟨-, rfl⟩
      · obtain rfl := Option.some.inj last
        simp [Terminator.srcVars] at mentioned
      · obtain rfl := Option.some.inj last
        obtain ⟨e, inside, base⟩ := List.mem_filterMap.mp mentioned
        obtain ⟨v, isVar, rfl⟩ := List.mem_map.mp inside
        obtain rfl := Option.some.inj base
        obtain ⟨idx, -, rfl⟩ := completes.declared _ isVar
        rfl
  refine ⟨⟨?_, ?_, ?_, ?_, ?_, ?_⟩, unversioned, ?_⟩
  · intro b' member st inside ref mentioned
    rcases completes.statement_origin member inside with ⟨b, old, was⟩ | ⟨b, old, args, v, arg, last, isVar, isArg, rfl⟩
    · exact completes.visitVariableRef_eq_nil (pre.ok.refs b old st was ref mentioned)
    · rcases List.mem_append.mp mentioned with source | dest
      · refine completes.visitVariableRef_eq_nil ((pre.ok.returns b old args last).1 ref ?_)
        exact List.mem_filterMap.mpr ⟨arg, isArg, by simpa using source⟩
      · obtain rfl := List.mem_singleton.mp dest
        exact completes.visitVariableRef_retvar isVar
  · intro b' member st inside
    rcases completes.statement_origin member inside with ⟨b, old, was⟩ | ⟨b, old, args, v, arg, last, isVar, isArg, rfl⟩
    · exact pre.ok.statements b old st was
    · obtain ⟨idx, -, rfl⟩ := completes.declared v isVar
      refine ⟨pathOk_ofRef _, by simp [AccessPath.ofRef, classify], ?_, fun e source => ?_⟩
      · simp [AccessPath.ofRef, VariableRef.new, Variable.isGlobal]
      obtain rfl := List.mem_singleton.mp source
      exact ⟨((pre.ok.returns b old args last).2.1 e isArg).1, fun _ => rfl⟩
  · intro b' member
    obtain ⟨i, here⟩ := List.mem_iff_getElem?.mp member
    rcases completes.origin here with ⟨b, term, targets, -, -, rfl, -⟩ | ⟨-, rfl⟩ <;> rfl
  · intro b' member args last
    obtain ⟨i, here⟩ := List.mem_iff_getElem?.mp member
    rcases completes.origin here with ⟨b, term, targets, -, -, rfl, -⟩ | ⟨-, rfl⟩
    · simp at last
    · obtain rfl := Terminator.ret.inj (Option.some.inj last)
      refine ⟨fun ref mentioned => ?_, fun e inside => ?_, by simp [completes.retvars_length, completes.arity]⟩
      · obtain ⟨e, inside, base⟩ := List.mem_filterMap.mp mentioned
        obtain ⟨v, isVar, rfl⟩ := List.mem_map.mp inside
        obtain rfl := Option.some.inj base
        exact completes.visitVariableRef_retvar isVar
      · obtain ⟨v, isVar, rfl⟩ := List.mem_map.mp inside
        refine ⟨fun ap isPath => ?_, by simp [Exp.isValue]⟩
        obtain rfl := Option.some.inj isPath
        exact pathOk_ofRef v
  · intro b' member targets last
    obtain ⟨i, here⟩ := List.mem_iff_getElem?.mp member
    rcases completes.origin here with ⟨b, term, targets', was, isTerm, rfl, out⟩ | ⟨-, rfl⟩
    · obtain rfl := Terminator.goto.inj (Option.some.inj last)
      rw [completes.length]
      cases term with
      | ret args =>
        refine ⟨List.ne_nil_of_mem ((out _).mpr (.inl (List.mem_singleton_self _))), fun y isTarget => ?_⟩
        rcases (out y).mp isTarget with old | ⟨-, rfl⟩
        · obtain rfl := List.mem_singleton.mp old
          omega
        · omega
      | goto old =>
        obtain ⟨some, inside⟩ := pre.ok.jumps b (List.mem_of_getElem? was) old isTerm
        obtain ⟨y, isOld⟩ := List.exists_mem_of_ne_nil old some
        refine ⟨List.ne_nil_of_mem ((out y).mpr (.inl isOld)), fun y isTarget => ?_⟩
        rcases (out y).mp isTarget with isOld | ⟨-, rfl⟩
        · have := inside y isOld
          omega
        · omega
    · simp at last
  · intro b' member st inside
    exact storesUndefined_of_unversioned fun ref mentioned => (unversioned b' member).1 st inside ref mentioned
  · intro b' member st inside
    rcases completes.statement_origin member inside with ⟨b, old, was⟩ | ⟨b, old, args, v, arg, last, isVar, isArg, rfl⟩
    · exact pre.plain b old st was
    · rfl

/-- The edges of the completed function: those of the function, and those into the exit block. -/
theorem edge_iff {u w : ℕ} : (cfg g.blocks).Edge u w ↔ (cfg f.blocks).Edge u w ∨ w = f.blocks.length ∧
    ∃ b, f.blocks[u]? = some b ∧ (u = 0 ∨ ∃ args, b.terminator = some (.ret args)) := by
  simp only [ControlFlowGraph.Edge, mem_successors]
  constructor
  · rintro ⟨b', here, out⟩
    rcases completes.origin here with ⟨b, term, targets, was, last, rfl, same⟩ | ⟨-, rfl⟩
    · rcases (same w).mp out with old | ⟨rfl, rfl⟩
      · cases term with
        | ret args => exact .inr ⟨List.mem_singleton.mp old, b, was, .inr ⟨args, last⟩⟩
        | goto targets' => exact .inl ⟨b, was, by rw [BasicBlockData.successors, last]; exact old⟩
      · exact .inr ⟨rfl, b, was, .inl rfl⟩
    · exact absurd out List.not_mem_nil
  · rintro (⟨b, was, out⟩ | ⟨rfl, b, was, enters⟩)
    · obtain ⟨term, targets, last, here, same⟩ := completes.block was
      rw [BasicBlockData.successors, last] at out
      refine ⟨_, here, (same w).mpr (.inl ?_)⟩
      cases term with
      | ret args => exact absurd out List.not_mem_nil
      | goto targets' => exact out
    · obtain ⟨term, targets, last, here, same⟩ := completes.block was
      refine ⟨_, here, (same _).mpr ?_⟩
      rcases enters with rfl | ⟨args, isRet⟩
      · exact .inr ⟨rfl, rfl⟩
      · obtain rfl := Option.some.inj (last.symm.trans isRet)
        exact .inl (List.mem_singleton_self _)

theorem allReachable (nonempty : f.blocks ≠ []) (reachable : (cfg f.blocks).AllReachable) : (cfg g.blocks).AllReachable := by
  intro n node
  have node : n < f.blocks.length + 1 := completes.length ▸ node
  rcases Nat.lt_succ_iff_lt_or_eq.mp node with old | rfl
  · exact Relation.ReflTransGen.mono (fun u w out => completes.edge_iff.mpr (.inl out)) _ _ (reachable n old)
  · have first := List.getElem?_eq_getElem (List.length_pos_of_ne_nil nonempty)
    exact .tail .refl (completes.edge_iff.mpr (.inr ⟨rfl, _, first, .inl rfl⟩))

end Completes

end Ctadl.Ssa
