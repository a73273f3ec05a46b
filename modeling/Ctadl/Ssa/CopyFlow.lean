import Ctadl.Semantics.Pass
import Ctadl.Semantics.Termination
import Ctadl.Ssa.CopyProp

/-! # Copy propagation keeps flows

An outcome of the program after the pass, read as an interpretation of the program before it: an alias has
the labels of its representative. The statements the pass deletes copy equals to equals and add nothing;
the others are there with their uses renamed.
-/

namespace Ctadl.Ssa

open Cir Semantics CirVerify

namespace CopyProp

/-- What a function has to be for the pass: in static single assignment form and without errors. -/
structure Ready (f : FunctionData) : Prop where
  inSsa : ∃ rank, InSsa f.blocks rank
  ok : FunctionOk none f

section Targets

variable {O : Type} [DecidableEq O] [Add O] [Neg O] [OfNat O 0] {d s p q : List (PathSegment O)}

/-- An assignment carries labels to normal paths. -/
theorem clear_forwardTargets (clear : Clear d) (goes : q ∈ forwardTargets d s p) : Clear q := by
  unfold forwardTargets at goes
  rcases List.mem_append.mp goes with along | base
  · split at along
    · rcases List.mem_cons.mp along with rfl | absorbed
      · exact clear_concat clear _
      · split_ifs at absorbed
        · obtain rfl := List.mem_singleton.mp absorbed
          exact clear_concat clear _
        · simp at absorbed
    · simp at along
  · split_ifs at base
    · exact List.mem_singleton.mp base ▸ clear
    · simp at base

theorem clear_backwardTarget (clear : Clear s) (goes : backwardTarget d s p = some q) : Clear q := by
  unfold backwardTarget at goes
  obtain ⟨t, -, goes⟩ := Option.bind_eq_some_iff.mp goes
  split_ifs at goes
  exact Option.some.inj goes ▸ clear_concat clear _

end Targets

/-- The variables that may be aliases are those of the function itself. -/
theorem within_aliasesOf {f : FunctionData} (ok : FunctionOk none f) :
    Within (fun v => v.var.isGlobal = false) (aliasesOf f.blocks) := by
  refine within_fixpoint (fun v u found => ?_) fun dest operands member => ?_
  · obtain ⟨st, member, copy⟩ := List.mem_filterMap.mp (get_copies found)
    obtain ⟨rfl, -, numbered, -⟩ := copyOf_eq_some copy
    obtain ⟨block, inside, here⟩ := mem_statements.mp member
    obtain ⟨-, -, copied, -⟩ := ok.statements block inside _ here
    refine ⟨?_, ?_⟩
    · simpa [AccessPath.ofRef, AccessPath.isPathless] using copied
    · have checked := ok.refs block inside _ here u (by simp [Statement.visited, Exp.baseVariable, Exp.accessPath, AccessPath.ofRef])
      obtain ⟨var, version⟩ := u
      cases var with
      | globalVar idx =>
        obtain ⟨k, rfl⟩ := Option.isSome_iff_exists.mp numbered
        simp [visitVariableRef] at checked
      | localVar | paramVar => rfl
  · obtain ⟨block, inside, here⟩ := mem_statements.mp member
    have locals := ok.statements block inside _ here
    exact ⟨locals dest (.head _), fun op opIn => locals op.2 (.tail _ (List.mem_map_of_mem opIn))⟩

section Pull

variable (ctx : Context) (I' : Interpretation)

/-- The function of an instance, before the pass. -/
def functionBefore (n : ℕ) : Option FunctionData := (I'.frame n).bind fun fr => ctx.functionAt fr.program fr.function

/-- The representative of a reference in an instance. -/
def resolveAt (n : ℕ) (v : VariableRef) : VariableRef :=
  ((functionBefore ctx I' n).map fun f => (aliasesOf f.blocks).resolve v).getD v

/-- Where the pass moves a statement of an instance: past the statements it keeps. -/
def placeAt (n b i : ℕ) : ℕ :=
  ((functionBefore ctx I' n).map fun f => ((f.blocks[b]?.map fun block =>
    ((block.statements.take i).filter fun st => !isAliasedDef (aliasesOf f.blocks) st).length).getD i)).getD i

/-- The variable whose labels a variable has. -/
def representative : Var → Var
  | (.inst n, v) => (.inst n, resolveAt ctx I' n v)
  | (.globalName name, v) => (.globalName name, v)

/-- An alias has the labels of its representative, at normal paths. -/
def labelsBefore : Labeling := fun var p l sc => Clear p ∧ I'.labels (representative ctx I' var) p l sc

/-- An interpretation of the programs after the pass, read as one of the programs before it. -/
def pull : Interpretation := I'.before (placeAt ctx I') (labelsBefore ctx I')

variable {ctx I'} {bound n : ℕ} {f : FunctionData}

theorem resolveAt_eq (here : functionBefore ctx I' n = some f) (v : VariableRef) :
    resolveAt ctx I' n v = (aliasesOf f.blocks).resolve v := by simp [resolveAt, here]

/-- A variable before the pass has the labels of its representative after it. -/
theorem representative_var (pass : FunctionData → FunctionData) (bound : ℕ)
    (ready : ∀ {f}, functionBefore ctx I' n = some f → Ready f) (v : VariableRef) :
    representative ctx I' ((pull ctx I').var ctx n v) = I'.var (ctx.after pass bound) n (resolveAt ctx I' n v) := by
  have globals : (resolveAt ctx I' n v).var.isGlobal = v.var.isGlobal ∧ (v.var.isGlobal → resolveAt ctx I' n v = v) := by
    cases here : functionBefore ctx I' n with
    | none => simp [resolveAt, here]
    | some f =>
      have within := within_aliasesOf (ready here).ok
      rw [resolveAt_eq here]
      cases global : v.var.isGlobal with
      | false => exact ⟨within.resolve global, by simp⟩
      | true =>
        have root : (aliasesOf f.blocks).get v = none := by
          by_contra found
          obtain ⟨u, found⟩ := Option.ne_none_iff_exists'.mp found
          simp [(within v u found).1] at global
        have fixed : (aliasesOf f.blocks).resolve v = v := Flowgraph.follow_of_root root
        exact ⟨by rw [fixed, global], fun _ => fixed⟩
  rw [pull, Interpretation.var_before pass bound]
  obtain ⟨kind, fixed⟩ := globals
  cases global : v.var.isGlobal with
  | true =>
    rw [fixed global]
    obtain ⟨var, version⟩ := v
    cases var with
    | globalVar idx => rfl
    | localVar | paramVar => simp [Variable.isGlobal] at global
  | false =>
    have own : ∀ w : VariableRef, w.var.isGlobal = false → I'.var (ctx.after pass bound) n w = (.inst n, w) := by
      intro w isLocal
      obtain ⟨var, version⟩ := w
      cases var with
      | globalVar idx => simp [Variable.isGlobal] at isLocal
      | localVar | paramVar => rfl
    rw [own v global, own _ (kind.trans global)]
    rfl

/-- An assignment of the program after the pass, as one of the program before it. -/
theorem assignClosed_pull {dst dst' src src' : Var} {d s : List PathSegment} {store : Bool}
    (longer : ctx.config.pathBound ≤ bound) (sameDst : representative ctx I' dst = dst')
    (sameSrc : representative ctx I' src = src') (clearD : Clear d) (clearS : Clear s)
    (closed : AssignClosed { ctx.config with pathBound := bound } I'.labels dst' d src' s store) :
    AssignClosed ctx.config (labelsBefore ctx I') dst d src s store := by
  subst sameDst sameSrc
  intro apart
  obtain ⟨forward, backward⟩ := closed apart
  refine ⟨fun p l q held goes location short => ?_, fun p l q held goes location short => ?_⟩
  · exact ⟨clear_forwardTargets clearD goes, forward p l q held.2 goes location (short.trans longer)⟩
  · exact ⟨clear_backwardTarget clearS goes, backward p l q held.2 goes location (short.trans longer)⟩

/-- A copy of equals to equals adds nothing. -/
theorem assignClosed_same {config : Config} {dst src : Var}
    (same : representative ctx I' dst = representative ctx I' src) :
    AssignClosed config (labelsBefore ctx I') dst [] src [] false := by
  intro _
  have strip : ∀ p : List PathSegment, stripPrefix p [] = some p := fun p => rfl
  refine ⟨fun p l q held goes _ _ => ?_, fun p l q held goes _ _ => ?_⟩
  · obtain rfl : q = concat [] p := by simpa [forwardTargets, strip, classify, locationOf] using goes
    have fixed : concat [] p = p := normalize_of_clear held.1
    rw [fixed]
    exact ⟨held.1, same ▸ held.2⟩
  · have fixed : concat [] p = p := normalize_of_clear held.1
    simp only [backwardTarget, strip, Option.bind_some, fixed, Option.ite_none_left_eq_some, Option.some.injEq] at goes
    obtain ⟨-, rfl⟩ := goes
    exact ⟨held.1, same ▸ held.2⟩

/-- The pass on the functions of a context. -/
def propagated (f : FunctionData) : FunctionData := (propagateCopiesFunction f).1

theorem propagated_eq (f : FunctionData) :
    propagated f = { f with blocks := f.blocks.map (rewriteBlock (aliasesOf f.blocks)) } := propagateCopiesFunction_eq f

theorem keepsShape_propagated : KeepsShape propagated where
  name f := by rw [propagated_eq]
  params f := by rw [propagated_eq]
  body f := by
    rw [propagated_eq]
    simp

section Transfer

variable (longer : ctx.config.pathBound ≤ bound) (ready : ∀ {n f}, functionBefore ctx I' n = some f → Ready f)

include longer ready in
theorem expClosed_pull {dst dst' : Var} {d : List PathSegment} {e : Exp} (sameDst : representative ctx I' dst = dst')
    (clearD : Clear d) (clear : ∀ ap ∈ e.accessPath, Clear ap.segments)
    (closed : I'.ExpClosed (ctx.after propagated bound) dst' d n (e.mapBase (resolveAt ctx I' n))) :
    (pull ctx I').ExpClosed ctx dst d n e := by
  have placed : ∀ {label scope}, Placed (ctx.after propagated bound).config I'.labels dst' d label scope →
      Placed ctx.config (labelsBefore ctx I') dst d label scope := by
    intro label scope there location short
    subst sameDst
    exact ⟨clearD, there location (short.trans longer)⟩
  rcases e with ap | ap | ⟨_ | _ | _ | _⟩ | text | number | data
  · exact assignClosed_pull longer sameDst (representative_var _ _ ready ap.base) clearD (clear ap rfl) closed
  · exact assignClosed_pull longer sameDst (representative_var _ _ ready ap.base) (clear_concat clearD _) (clear ap rfl) closed
  · exact placed closed
  · exact placed closed
  · exact placed closed
  · exact placed closed
  · exact placed closed
  all_goals trivial

include ready in
theorem seen_pull (bound : ℕ) {ap : AccessPath} {label : Label} (seen : (pull ctx I').Seen ctx n ap label) :
    I'.Seen (ctx.after propagated bound) n { ap with base := resolveAt ctx I' n ap.base } label := by
  unfold Interpretation.Seen at seen ⊢
  rw [← representative_var propagated bound ready]
  exact seen.imp And.right And.right

theorem resolveAt_of_root (here : functionBefore ctx I' n = some f) {v : VariableRef}
    (root : (aliasesOf f.blocks).get v = none) : resolveAt ctx I' n v = v := by
  rw [resolveAt_eq here]
  exact Flowgraph.follow_of_root root

include ready in
/-- A variable that is no alias has its own labels. -/
theorem representative_root (bound : ℕ) (here : functionBefore ctx I' n = some f) {v : VariableRef}
    (root : (aliasesOf f.blocks).get v = none) :
    representative ctx I' ((pull ctx I').var ctx n v) = I'.var (ctx.after propagated bound) n v := by
  rw [representative_var propagated bound ready, resolveAt_of_root here root]

theorem get_of_unversioned (ready : Ready f) {v : VariableRef} (bare : v.version = none) :
    (aliasesOf f.blocks).get v = none := by
  obtain ⟨rank, inSsa⟩ := ready.inSsa
  by_contra found
  obtain ⟨u, found⟩ := Option.ne_none_iff_exists'.mp found
  simpa [bare] using (sound_aliasesOf inSsa).versioned found

/-- The returns after the pass are those before it, renamed. -/
theorem returns_propagated (f : FunctionData) :
    Eval.returns (propagated f) = (Eval.returns f).map (List.map (Exp.mapBase (aliasesOf f.blocks).resolve)) := by
  rw [propagated_eq, Eval.returns, Eval.returns, List.filterMap_map, List.map_filterMap]
  refine List.filterMap_congr fun block _ => ?_
  simp only [Function.comp_apply, rewriteBlock]
  rcases block.terminator with _ | ⟨args | targets⟩ <;> rfl

include longer ready in
theorem passed_pull (here : functionBefore ctx I' n = some f) {c : ℕ} {callee : FunctionData}
    (there : functionBefore ctx I' c = some callee) {rets : List VariableRef} {args : List Exp}
    (roots : ∀ r ∈ rets, (aliasesOf f.blocks).get r = none)
    (clear : ∀ e ∈ args, ∀ ap ∈ e.accessPath, Clear ap.segments)
    (passed : I'.Passed (ctx.after propagated bound) n c (propagated callee) rets
      (args.map (Exp.mapBase (resolveAt ctx I' n)))) :
    (pull ctx I').Passed ctx n c callee rets args := by
  obtain ⟨formals, returned⟩ := passed
  rw [keepsShape_propagated.params, ← List.map_take, List.zipIdx_map] at formals
  rw [returns_propagated] at returned
  refine ⟨fun arg member => ?_, fun ret member r paired => ?_⟩
  · have own : (aliasesOf callee.blocks).get (.new (.paramVar arg.2)) = none := get_of_unversioned (ready there) rfl
    have inside : arg.1 ∈ args := List.mem_of_mem_take (List.fst_mem_of_mem_zipIdx member)
    exact expClosed_pull longer ready (representative_root ready bound there own) .nil (clear _ inside)
      (formals (Prod.map (Exp.mapBase (resolveAt ctx I' n)) id arg) (List.mem_map_of_mem member))
  · obtain ⟨block, blockIn, last⟩ := List.mem_filterMap.mp member
    have clearRet : ∀ e ∈ ret, ∀ ap ∈ e.accessPath, Clear ap.segments := by
      intro e inside ap isPath
      split at last
      · rename_i args' terminator
        obtain rfl := Option.some.inj last
        exact (((ready there).ok.returns block blockIn args' terminator).2.1 e inside).1 ap isPath |>.normal
      all_goals simp at last
    obtain ⟨isRet, isExp⟩ := List.of_mem_zip paired
    have renamed : (r.1, r.2.mapBase (resolveAt ctx I' c)) ∈
        rets.zip (ret.map (Exp.mapBase (aliasesOf callee.blocks).resolve)) := by
      have same : resolveAt ctx I' c = (aliasesOf callee.blocks).resolve := funext (resolveAt_eq there)
      rw [same, List.zip_map_right]
      exact List.mem_map_of_mem (f := Prod.map id (Exp.mapBase (aliasesOf callee.blocks).resolve)) paired
    exact expClosed_pull longer ready (representative_root ready bound here (roots r.1 isRet)) .nil (clearRet r.2 isExp)
      (returned _ (List.mem_map_of_mem member) _ renamed)

/-- The element a filter keeps stands behind the elements it keeps before it. -/
private theorem getElem?_filter {α : Type} {items : List α} {p : α → Bool} {i : ℕ} {x : α} (here : items[i]? = some x)
    (kept : p x) : (items.filter p)[((items.take i).filter p).length]? = some x := by
  obtain ⟨inside, rfl⟩ := List.getElem?_eq_some_iff.mp here
  have split : items = items.take i ++ items[i] :: items.drop (i + 1) := by simp
  conv_lhs => rw [split]
  rw [List.filter_append, List.filter_cons_of_pos (by simpa using kept)]
  simp

/-- The statements that stay are found at the place they are moved to. -/
theorem getElem?_propagated (here : functionBefore ctx I' n = some f) {b i : ℕ} {block : BasicBlockData}
    {st : Statement} (blockAt : f.blocks[b]? = some block) (stAt : block.statements[i]? = some st)
    (alive : isAliasedDef (aliasesOf f.blocks) st = false) :
    ∃ block', (propagated f).blocks[b]? = some block' ∧
      block'.statements[placeAt ctx I' n b i]? = some (st.mapSrc (resolveAt ctx I' n)) := by
  refine ⟨rewriteBlock (aliasesOf f.blocks) block, ?_, ?_⟩
  · rw [propagated_eq]
    simp [blockAt]
  · have same : resolveAt ctx I' n = (aliasesOf f.blocks).resolve := funext (resolveAt_eq here)
    have place : placeAt ctx I' n b i =
        ((block.statements.take i).filter fun st => !isAliasedDef (aliasesOf f.blocks) st).length := by
      simp [placeAt, here, blockAt]
    have through : (fun st => !isAliasedDef (aliasesOf f.blocks) st) ∘ Statement.mapSrc (aliasesOf f.blocks).resolve =
        fun st => !isAliasedDef (aliasesOf f.blocks) st := funext fun st => by simp [isAliasedDef_mapSrc]
    rw [same, place, rewriteBlock, List.filter_map, through, List.getElem?_map,
      getElem?_filter stAt (by simpa using alive)]
    rfl

/-- A statement the pass deletes adds nothing. -/
theorem statementClosed_folded (ready : ∀ {f}, functionBefore ctx I' n = some f → Ready f)
    (here : functionBefore ctx I' n = some f) {b i : ℕ} {st : Statement}
    (folded : Folded (aliasesOf f.blocks).resolve st) : (pull ctx I').StatementClosed ctx n b i st := by
  have together : ∀ {v w : VariableRef}, (aliasesOf f.blocks).resolve v = (aliasesOf f.blocks).resolve w →
      representative ctx I' ((pull ctx I').var ctx n w) = representative ctx I' ((pull ctx I').var ctx n v) := by
    intro v w same
    rw [representative_var id 0 ready, representative_var id 0 ready,
      resolveAt_eq here, resolveAt_eq here, same]
  unfold Folded at folded
  split at folded
  · rename_i dest source
    obtain ⟨bareDest, bareSource, same⟩ := folded
    intro e member
    obtain rfl := List.mem_singleton.mp member
    simp only [Interpretation.ExpClosed, bareDest, bareSource]
    exact assignClosed_same (together same)
  · exact fun operand member => assignClosed_same (together (folded operand member))
  all_goals exact folded.elim

theorem sourceLabel_mapBase (g : VariableRef → VariableRef) (name : String) (args : List Exp) :
    sourceLabel name (args.map (Exp.mapBase g)) = sourceLabel name args := by
  rcases args with _ | ⟨e, rest⟩
  · rfl
  · cases e <;> rfl

theorem sinkSite_mapBase (g : VariableRef → VariableRef) (info : ℕ) (name : String) (args : List Exp) :
    sinkSite info name (args.map (Exp.mapBase g)) = sinkSite info name args := by
  rcases args with _ | ⟨e, _ | ⟨label, rest⟩⟩
  · rfl
  · rfl
  · cases label <;> rfl

include longer ready in
theorem callClosed_pull (here : functionBefore ctx I' n = some f) {b i info : ℕ} {rets : List VariableRef}
    {args : List Exp} {name : String} (roots : ∀ r ∈ rets, (aliasesOf f.blocks).get r = none)
    (clear : ∀ e ∈ args, ∀ ap ∈ e.accessPath, Clear ap.segments)
    (closed : I'.CallClosed (ctx.after propagated bound) n b (placeAt ctx I' n b i) info rets
      (args.map (Exp.mapBase (resolveAt ctx I' n))) name) :
    (pull ctx I').CallClosed ctx n b i info rets args name := by
  refine closed.before keepsShape_propagated (sourceLabel_mapBase ..) (sinkSite_mapBase ..) ?_ ?_ ?_
  · intro r member p short label placed location length
    have own := representative_root ready bound here (roots r member)
    refine ⟨?_, ?_⟩
    · rcases List.mem_cons.mp short with rfl | short
      · exact .nil
      · exact List.mem_singleton.mp short ▸ .singleton (by simp)
    · have there := placed location (length.trans longer)
      rwa [← own] at there
  · intro ap first
    obtain ⟨e, isHead, isPath⟩ := Option.bind_eq_some_iff.mp first
    refine ⟨{ ap with base := resolveAt ctx I' n ap.base }, ?_, fun label seen => seen_pull ready bound seen⟩
    rw [List.head?_map, isHead]
    cases e <;> simp_all [Exp.accessPath, Exp.mapBase]
  · exact fun c callee there passed => passed_pull longer ready here there roots clear passed

include longer ready in
/-- A statement the pass keeps, from what it is rewritten to. -/
theorem statementClosed_pull (here : functionBefore ctx I' n = some f) {b i : ℕ} {st : Statement}
    (ok : StatementOk st) (roots : ∀ d ∈ st.dstVars, (aliasesOf f.blocks).get d = none)
    (closed : I'.StatementClosed (ctx.after propagated bound) n b (placeAt ctx I' n b i)
      (st.mapSrc (resolveAt ctx I' n))) : (pull ctx I').StatementClosed ctx n b i st := by
  cases st with
  | assign dest sources =>
    obtain ⟨destOk, -, -, sourcesOk⟩ := ok
    intro e member
    have target : representative ctx I' ((pull ctx I').var ctx n dest.base) = I'.var (ctx.after propagated bound) n
        (if dest.isPathless then dest else { dest with base := resolveAt ctx I' n dest.base }).base := by
      split_ifs with bare
      · exact representative_root ready bound here (roots dest.base (by simp [Statement.dstVars, bare]))
      · exact representative_var propagated bound ready dest.base
    have segments : (if dest.isPathless then dest else { dest with base := resolveAt ctx I' n dest.base }).segments =
        dest.segments := by split_ifs <;> rfl
    have there := closed _ (List.mem_map_of_mem member)
    rw [segments] at there
    exact expClosed_pull longer ready target destOk.normal (fun ap isPath => ((sourcesOk e member).1 ap isPath).normal) there
  | phi dest operands =>
    intro operand member
    have there := closed _ (List.mem_map_of_mem member)
    exact assignClosed_pull longer (representative_root ready bound here (roots dest (List.mem_singleton_self dest)))
      (representative_var _ _ ready operand.2) .nil .nil there
  | callAssign info style rets args =>
    obtain ⟨argsOk, calleeOk, -⟩ := ok
    have clear : ∀ e ∈ args, ∀ ap ∈ e.accessPath, Clear ap.segments := fun e member ap isPath =>
      ((argsOk e member).1 ap isPath).normal
    cases style with
    | directCall names => exact fun name member => callClosed_pull longer ready here roots clear (closed name member)
    | funcPtrCall callee signature =>
      exact fun name seen => callClosed_pull longer ready here roots clear (closed name (seen_pull ready bound seen))
    | unknown | javaCall | luaCall | cilCall => trivial
  | nop => trivial

end Transfer

end Pull

/-- Ports that name no reference the pass aliases away, with seeds at normal paths. -/
structure PortsKept (ctx : Context) : Prop where
  normal : ∀ seed ∈ ctx.ports.seeds, Clear seed.path.segments
  seeds : ∀ program ∈ ctx.programs, ∀ f ∈ program.functions, ∀ seed ∈ ctx.ports.seeds, seed.function = f.name →
    (aliasesOf f.blocks).get seed.path.base = none
  observers : ∀ program ∈ ctx.programs, ∀ f ∈ program.functions, ∀ obs ∈ ctx.ports.observers, obs.function = f.name →
    (aliasesOf f.blocks).get obs.path.base = none

/-- An interpretation of the programs after the pass is one of the programs before it. -/
theorem models_pull {ctx : Context} {I' : Interpretation} {bound : ℕ} (longer : ctx.config.pathBound ≤ bound)
    (ready : ∀ program ∈ ctx.programs, ∀ f ∈ program.functions, Ready f) (kept : PortsKept ctx)
    (models : I'.Models (ctx.after propagated bound)) : (pull ctx I').Models ctx := by
  have inside : ∀ {n f}, functionBefore ctx I' n = some f → ∃ program ∈ ctx.programs, f ∈ program.functions := by
    intro n f here
    obtain ⟨fr, -, at?⟩ := Option.bind_eq_some_iff.mp here
    obtain ⟨program, programAt, functionAt⟩ := Option.bind_eq_some_iff.mp at?
    exact ⟨program, List.mem_of_getElem? programAt, List.mem_of_getElem? functionAt⟩
  have readyAt : ∀ {n f}, functionBefore ctx I' n = some f → Ready f := fun here =>
    have ⟨program, member, isFunction⟩ := inside here
    ready program member _ isFunction
  have after : ∀ {n f}, functionBefore ctx I' n = some f →
      I'.functionOf (ctx.after propagated bound) n = some (propagated f) := by
    intro n f here
    rw [Interpretation.functionOf_after (placeAt ctx I') (labelsBefore ctx I')]
    exact congrArg (Option.map propagated) here
  refine ⟨fun held => ⟨held.1, models.weaken held.2⟩, models.roots_before keepsShape_propagated, ?_, ?_, ?_⟩
  · intro n f here seed member named
    obtain ⟨program, programIn, isFunction⟩ := inside here
    have root := kept.seeds program programIn f isFunction seed member named
    have own := representative_root readyAt bound here root
    obtain ⟨bare, value⟩ := models.seeds (after here) seed member (by rw [keepsShape_propagated.name]; exact named)
    rw [← own] at bare value
    exact ⟨fun location short => ⟨kept.normal seed member, bare location (short.trans longer)⟩,
      fun location short => ⟨clear_concat (kept.normal seed member) _, value location (short.trans longer)⟩⟩
  · intro n f here obs member named
    obtain ⟨program, programIn, isFunction⟩ := inside here
    have root := kept.observers program programIn f isFunction obs member named
    refine (models.observers (after here) obs member (by rw [keepsShape_propagated.name]; exact named)).before
      keepsShape_propagated fun label seen => ?_
    have there := seen_pull readyAt bound seen
    have own : resolveAt ctx I' n obs.path.base = obs.path.base := resolveAt_of_root here root
    rwa [own] at there
  · intro n f here b block blockAt i st stAt
    obtain ⟨rank, inSsa⟩ := (readyAt here).inSsa
    have isStatement : st ∈ statements f.blocks :=
      mem_statements.mpr ⟨block, List.mem_of_getElem? blockAt, List.mem_of_getElem? stAt⟩
    cases dead : isAliasedDef (aliasesOf f.blocks) st with
    | true => exact statementClosed_folded readyAt here (folded_of_isAliasedDef inSsa isStatement dead)
    | false =>
      obtain ⟨block', blockAt', stAt'⟩ := getElem?_propagated here blockAt stAt dead
      exact statementClosed_pull longer readyAt here
        ((readyAt here).ok.statements block (List.mem_of_getElem? blockAt) st (List.mem_of_getElem? stAt))
        (fun d defines => get_of_kept inSsa isStatement dead defines) (models.statements (after here) blockAt' stAt')

end CopyProp

/-- A program whose functions a conversion produced, from functions without versions. -/
def Converted (program : Program) : Prop :=
  ∀ g ∈ program.functions, ∃ f prune hash, Unversioned f.blocks ∧ transform f prune hash = some g

theorem Converted.ready {program : Program} (converted : Converted program) {g : FunctionData}
    (member : g ∈ program.functions) : CopyProp.Ready g := by
  obtain ⟨f, prune, hash, bare, transformed⟩ := converted g member
  obtain ⟨transformed, checked⟩ := transform_eq_some transformed
  refine ⟨inSsa_of_transformWith bare transformed, ?_⟩
  rcases checked with empty | verified
  · unfold transformWith at transformed
    rw [if_pos (by simp [empty])] at transformed
    obtain rfl := Option.some.inj transformed
    constructor <;> simp [empty]
  · exact (visitFunctionData_eq_nil.mp verified).2

open CopyProp in
/-- Every use of the output names a reference that is no alias, and what defined it still does, in the same block. -/
def NoDangling (f out : FunctionData) : Prop :=
  ∀ block' ∈ out.blocks, ∀ ref ∈ uses block', (aliasesOf f.blocks).get ref = none ∧
    ∀ (b : ℕ) (block : BasicBlockData), f.blocks[b]? = some block → ∀ st ∈ block.statements, ref ∈ st.dstVars →
      ∃ after : BasicBlockData, out.blocks[b]? = some after ∧ ∃ st' ∈ after.statements, ref ∈ st'.dstVars

open CopyProp in
/-- Copy propagation on converted programs, for ports that name no alias: every flow observed before it is observed
after it; the aliases have no cycle, and every use names a reference that is none, with its definition in place; and
a second run changes nothing. -/
theorem propagateCopies_safe (ctx : Context) (converted : ∀ program ∈ ctx.programs, Converted program)
    (kept : PortsKept ctx) :
    (∀ fuel st, evaluate ctx fuel = some st → ∀ bound, ctx.config.pathBound ≤ bound →
      ∃ fuel' st', evaluate ⟨ctx.programs.map propagateCopies, ctx.ports, { ctx.config with pathBound := bound }⟩ fuel' =
        some st' ∧ st.observed ⊆ st'.observed) ∧
    ∀ program ∈ ctx.programs, ∀ f ∈ program.functions,
      (∀ v, ¬ Relation.TransGen (fun v u => (aliasesOf f.blocks).get v = some u) v v) ∧
      NoDangling f (propagateCopiesFunction f).1 ∧
      propagateCopiesFunction (propagateCopiesFunction f).1 = ((propagateCopiesFunction f).1, 0) := by
  have ready : ∀ program ∈ ctx.programs, ∀ f ∈ program.functions, Ready f := fun program member f isFunction =>
    (converted program member).ready isFunction
  refine ⟨fun fuel st stops bound longer => ?_, fun program member f isFunction => ?_⟩
  · obtain ⟨-, fuel', st', stops', -⟩ := Eval.terminates_of_finite (ctx.after propagated bound)
    refine ⟨fuel', st', stops', fun o seen => ?_⟩
    have below := observed_of_models (models_pull longer ready kept (models_of_evaluate stops')) stops seen
    exact below
  · obtain ⟨rank, inSsa⟩ := (ready program member f isFunction).inSsa
    refine ⟨aliasesOf_acyclic inSsa, ?_, propagateCopiesFunction_idem inSsa⟩
    rw [propagateCopiesFunction_eq]
    intro block' inside ref used
    obtain ⟨block, -, rfl⟩ := List.mem_map.mp inside
    have root := get_of_uses inSsa used
    refine ⟨root, fun b block blockAt st stIn defines => ?_⟩
    refine ⟨rewriteBlock (aliasesOf f.blocks) block, by simp [blockAt], _,
      mem_rewriteBlock_of_root stIn root defines, ?_⟩
    rwa [Statement.dstVars_mapSrc]

section Duplicate

private def incoming : VariableRef := .new (.paramVar 0)

private def duplicate : VariableRef := .new (.localVar 0)

/-- `f(p) { x = p }`. -/
private def duplicating : FunctionData where
  name := "f"
  params := [.copied]
  returnArity := 0
  blocks := [{ statements := [.assign (.ofRef duplicate) [.path (.ofRef incoming)]], terminator := some (.ret []) }]
  locals := ["x"]

/-- It converted: `x_1` is an alias of `p_0`. -/
private def duplicated : FunctionData where
  name := "f"
  params := [.copied]
  returnArity := 0
  blocks :=
    [{ statements :=
        [.assign (.ofRef (incoming.withVersion 0)) [.path (.ofRef incoming)],
          .assign (.ofRef (duplicate.withVersion 1)) [.path (.ofRef (incoming.withVersion 0))]]
       terminator := some (.goto [1]) },
      { statements := [], terminator := some (.ret []) }]
  locals := ["x"]

private theorem converted_duplicated : Converted ⟨[], [duplicated]⟩ := by
  intro g member
  obtain rfl := List.mem_singleton.mp member
  refine ⟨duplicating, true, ⟨id, fun nodes => .refl nodes⟩, ?_, by decide +kernel⟩
  intro block inside
  obtain rfl := List.mem_singleton.mp inside
  refine ⟨by decide, ?_⟩
  rintro term ⟨⟩
  simp [Terminator.srcVars]

/-- A taint at the parameter, observed at a reference. -/
private def watched (observed : VariableRef) : Ports :=
  ⟨[], [], [⟨"f", .ofRef incoming, "taint"⟩], [⟨"f", .ofRef observed, "sink"⟩]⟩

theorem propagateCopies_safe_duplicated :
    Converted ⟨[], [duplicated]⟩ ∧ CopyProp.PortsKept ⟨[⟨[], [duplicated]⟩], watched (incoming.withVersion 0), ⟨6, 5⟩⟩ ∧
      ∃ fuel st, evaluate ⟨[propagateCopies ⟨[], [duplicated]⟩], watched (incoming.withVersion 0), ⟨6, 5⟩⟩ fuel = some st ∧
        ⟨"f", "sink", "taint"⟩ ∈ st.observed := by
  have kept : CopyProp.PortsKept ⟨[⟨[], [duplicated]⟩], watched (incoming.withVersion 0), ⟨6, 5⟩⟩ := by
    constructor
    · intro seed member
      obtain rfl := List.mem_singleton.mp member
      exact .nil
    · intro program isProgram f isFunction seed member _
      obtain rfl := List.mem_singleton.mp isProgram
      obtain rfl := List.mem_singleton.mp isFunction
      obtain rfl := List.mem_singleton.mp member
      decide
    · intro program isProgram f isFunction obs member _
      obtain rfl := List.mem_singleton.mp isProgram
      obtain rfl := List.mem_singleton.mp isFunction
      obtain rfl := List.mem_singleton.mp member
      decide
  have converted : ∀ program ∈ [(⟨[], [duplicated]⟩ : Program)], Converted program := by
    intro program member
    obtain rfl := List.mem_singleton.mp member
    exact converted_duplicated
  have observed : (evaluate ⟨[⟨[], [duplicated]⟩], watched (incoming.withVersion 0), ⟨6, 5⟩⟩ 20).map Eval.observed =
      some {⟨"f", "sink", "taint"⟩} := by decide +kernel
  obtain ⟨st, stops, seen⟩ := Option.map_eq_some_iff.mp observed
  obtain ⟨fuel, st', stops', flows⟩ := (propagateCopies_safe _ converted kept).1 20 st stops 6 le_rfl
  exact ⟨converted_duplicated, kept, fuel, st', stops', flows (seen ▸ Finset.mem_singleton_self _)⟩

/-- Observed at the alias itself, the flow is there before the pass and gone after it, with nothing truncated. -/
theorem observer_at_alias_sees_nothing :
    Converted ⟨[], [duplicated]⟩ ∧
      (evaluate ⟨[⟨[], [duplicated]⟩], watched (duplicate.withVersion 1), ⟨6, 5⟩⟩ 20).map
        (fun st => (st.truncated, st.observed)) = some (false, {⟨"f", "sink", "taint"⟩}) ∧
      (evaluate ⟨[propagateCopies ⟨[], [duplicated]⟩], watched (duplicate.withVersion 1), ⟨6, 5⟩⟩ 20).map
        (fun st => (st.truncated, st.observed)) = some (false, ∅) :=
  ⟨converted_duplicated, by decide +kernel, by decide +kernel⟩

end Duplicate

end Ctadl.Ssa
