import Ctadl.Ssa.Placed
import Ctadl.Ssa.Resolve

/-! # The versions a walk gives

A run of the renaming walk over blocks with the phis of one mode in place, block by block: what the
statements of a block are renamed to, which version is on top of a variable's stack at the end of it, and
which versions the operands of the phis get. The version on top is the one the flow graph's token names
(`Ran.names_of_topExit`). An operand whose predecessor is listed twice is filled in once only, at its first
place (`Ran.operands_firsts`).
-/

namespace Ctadl.Ssa

open Function Cir Ctadl.Graph Flowgraph
open PhiPlace (collectVars new)

namespace SsaRename

variable {names names' : SsaRename}

/-- What filling in operands keeps of the operands of every phi, the walk keeps. -/
theorem search_operands {P : List (ℕ × VariableRef) → Prop}
    (fill : ∀ (names : SsaRename) (x : ℕ) (ops ops' : List (ℕ × VariableRef)), names.operand x ops = some ops' → P ops → P ops')
    {dominators : DominatorTree} {fuel x : ℕ} {blocks blocks' : List BasicBlockData}
    (before : ∀ b ∈ blocks, ∀ dest ops, .phi dest ops ∈ b.statements → P ops)
    (searched : search dominators fuel blocks names x = some (blocks', names')) :
    ∀ b ∈ blocks', ∀ dest ops, .phi dest ops ∈ b.statements → P ops := by
  have set : ∀ {blocks : List BasicBlockData} {y : ℕ} {block : BasicBlockData},
      (∀ b ∈ blocks, ∀ dest ops, .phi dest ops ∈ b.statements → P ops) →
      (∀ dest ops, .phi dest ops ∈ block.statements → P ops) →
      ∀ b ∈ blocks.set y block, ∀ dest ops, .phi dest ops ∈ b.statements → P ops := by
    intro blocks y block old new b member
    rcases List.mem_or_eq_of_mem_set member with was | rfl
    exacts [old b was, new]
  induction fuel generalizing blocks names x blocks' names' with
  | zero => simp [search] at searched
  | succ fuel ih =>
    simp only [search, enter, Option.bind_eq_bind, Option.bind_eq_some_iff, Option.some.injEq, Prod.mk.injEq,
      Prod.exists] at searched
    obtain ⟨blocks₁, names₁, ⟨block, here, term, -, sts, names₀, renamed, rewriting, -, filled, folded, rfl, rfl⟩, blocks₂, names₂,
      children, -, -, names₃, -, rfl, rfl⟩ := searched
    have entered : ∀ b ∈ filled, ∀ dest ops, .phi dest ops ∈ b.statements → P ops := by
      refine foldlM_keeps (P := fun blocks : List BasicBlockData => ∀ b ∈ blocks, ∀ dest ops, .phi dest ops ∈ b.statements → P ops)
        (set before fun dest ops member => ?_) ?_ folded
      · obtain ⟨dest₀, was⟩ := mem_statements_phi renamed member
        exact before block (List.mem_of_getElem? here) dest₀ ops was
      · intro current kept y _ next moved
        simp only [Option.bind_eq_some_iff, Option.some.injEq] at moved
        obtain ⟨block, here, sts, filled, rfl⟩ := moved
        refine set kept fun dest ops member => ?_
        obtain ⟨ops₀, was, filledOps⟩ := mem_operands filled member
        exact fill _ _ _ _ filledOps (kept block (List.mem_of_getElem? here) dest ops₀ was)
    refine foldlM_keeps (P := fun state : List BasicBlockData × SsaRename =>
      ∀ b ∈ state.1, ∀ dest ops, .phi dest ops ∈ b.statements → P ops) entered ?_ children
    rintro ⟨blocks, names⟩ kept y - ⟨blocks', names'⟩ visited
    exact ih kept visited

/-- Of the operands for one predecessor only the first is filled in. -/
def FirstsOnly (ops : List (ℕ × VariableRef)) : Prop :=
  ops.Pairwise fun earlier later => later.2.version.isSome → later.1 ≠ earlier.1

theorem FirstsOnly.operand {x : ℕ} {ops ops' : List (ℕ × VariableRef)} (firsts : FirstsOnly ops)
    (filled : names.operand x ops = some ops') : FirstsOnly ops' := by
  induction ops generalizing ops' with
  | nil =>
    obtain rfl : ops' = [] := by simpa [SsaRename.operand, eq_comm] using filled
    exact .nil
  | cons op ops ih =>
    obtain ⟨pred, ref⟩ := op
    obtain ⟨apart, firsts⟩ := List.pairwise_cons.mp firsts
    unfold SsaRename.operand at filled
    split_ifs at filled with same
    · obtain ⟨i, -, rfl⟩ := Option.map_eq_some_iff.mp filled
      exact List.pairwise_cons.mpr ⟨apart, firsts⟩
    · obtain ⟨rest, others, rfl⟩ := Option.map_eq_some_iff.mp filled
      refine List.pairwise_cons.mpr ⟨fun later member versioned => ?_, ih firsts others⟩
      rcases (operand_eq_some others).1 later member with old | ⟨isX, -⟩
      · exact apart later old versioned
      · exact fun isPred => same (isPred.symm.trans isX)

/-- The version on top once some definitions of a variable are on its stack. -/
def topAfter (v : Variable) (refs : List VariableRef) (top : Option ℕ) : Option ℕ :=
  refs.foldl (fun top ref => if ref.var = v then ref.version else top) top

@[simp]
theorem topAfter_append (v : Variable) (refs refs' : List VariableRef) (top : Option ℕ) :
    topAfter v (refs ++ refs') top = topAfter v refs' (topAfter v refs top) := List.foldl_append

theorem topAfter_of_notMem {v : Variable} {refs : List VariableRef} (absent : v ∉ refs.map VariableRef.var) (top : Option ℕ) :
    topAfter v refs top = top := by
  induction refs generalizing top with
  | nil => rfl
  | cons ref refs ih =>
    simp only [List.map_cons, List.mem_cons, not_or] at absent
    rw [topAfter, List.foldl_cons, if_neg (Ne.symm absent.1)]
    exact ih absent.2 top

theorem topAfter_of_mem {v : Variable} {refs : List VariableRef} (present : v ∈ refs.map VariableRef.var) (top top' : Option ℕ) :
    topAfter v refs top = topAfter v refs top' := by
  induction refs generalizing top top' with
  | nil => simp at present
  | cons ref refs ih =>
    simp only [topAfter, List.foldl_cons]
    by_cases later : v ∈ refs.map VariableRef.var
    · exact ih later _ _
    · have here : ref.var = v := by
        rcases List.mem_cons.mp present with same | later'
        exacts [same.symm, absurd later' later]
      rw [if_pos here, if_pos here]

/-- Two lists that define the same variables in the same order end with versions from the same place. -/
theorem topAfter_same {v : Variable} {refs refs' : List VariableRef} (same : refs.map VariableRef.var = refs'.map VariableRef.var)
    (present : v ∈ refs.map VariableRef.var) (top top' : Option ℕ) :
    ∃ (k : ℕ) (ref ref' : VariableRef), refs[k]? = some ref ∧ refs'[k]? = some ref' ∧ ref.var = v ∧ ref'.var = v ∧
      topAfter v refs top = ref.version ∧ topAfter v refs' top' = ref'.version := by
  induction refs generalizing refs' top top' with
  | nil => simp at present
  | cons ref refs ih =>
    cases refs' with
    | nil => simp at same
    | cons ref' refs' =>
      simp only [List.map_cons, List.cons.injEq] at same
      obtain ⟨sameVar, same⟩ := same
      by_cases later : v ∈ refs.map VariableRef.var
      · obtain ⟨k, r, r', here, here', isV, isV', last, last'⟩ := ih same later
          (if ref.var = v then ref.version else top) (if ref'.var = v then ref'.version else top')
        exact ⟨k + 1, r, r', here, here', isV, isV', last, last'⟩
      · have isV : ref.var = v := by
          rcases List.mem_cons.mp present with here | later'
          exacts [here.symm, absurd later' later]
        have later' : v ∉ refs'.map VariableRef.var := same ▸ later
        refine ⟨0, ref, ref', rfl, rfl, isV, sameVar.symm.trans isV, ?_, ?_⟩
        · exact (topAfter_of_notMem later _).trans (if_pos isV)
        · exact (topAfter_of_notMem later' _).trans (if_pos (sameVar.symm.trans isV))

theorem top_define {ref ref' : VariableRef} (defined : names.define ref = some (ref', names')) (v : Variable) :
    names'.top v = topAfter v [ref'] (names.top v) ∧ ref'.var = ref.var ∧ ref'.version.isSome := by
  simp only [define, Option.bind_eq_bind, Option.bind_eq_some_iff, Option.some.injEq, Prod.mk.injEq] at defined
  obtain ⟨i, -, stack, -, rfl, rfl⟩ := defined
  refine ⟨?_, rfl, rfl⟩
  by_cases same : v = ref.var
  · subst same
    simp [top, topAfter, VariableRef.withVersion]
  · simp [top, topAfter, VariableRef.withVersion, update_of_ne same, Ne.symm same]

theorem top_defineAll {refs refs' : List VariableRef} (defined : names.defineAll refs = some (refs', names')) :
    (∀ v, names'.top v = topAfter v refs' (names.top v)) ∧ refs'.map VariableRef.var = refs.map VariableRef.var ∧
      ∀ ref ∈ refs', ref.version.isSome := by
  induction refs generalizing names refs' with
  | nil =>
    obtain ⟨rfl, rfl⟩ : refs' = [] ∧ names' = names := by simpa [defineAll, eq_comm] using defined
    exact ⟨fun _ => rfl, rfl, by simp⟩
  | cons ref refs ih =>
    simp only [defineAll, Option.bind_eq_bind, Option.bind_eq_some_iff, Option.some.injEq, Prod.mk.injEq,
      Prod.exists] at defined
    obtain ⟨first, names₁, defined₁, rest, names₂, defined₂, rfl, rfl⟩ := defined
    obtain ⟨tops, vars, versioned⟩ := ih defined₂
    have head := fun v => top_define defined₁ v
    refine ⟨fun v => ?_, by simp [vars, (head ref.var).2.1], fun r member => ?_⟩
    · rw [tops v, (head v).1, ← topAfter_append]
      rfl
    · rcases List.mem_cons.mp member with rfl | later
      exacts [(head ref.var).2.2, versioned r later]

/-- The definitions of a renamed statement. -/
theorem top_statement {st st' : Statement} (renamed : names.statement st = some (st', names')) :
    (∀ v, names'.top v = topAfter v st'.dstVars (names.top v)) ∧
      st'.dstVars.map VariableRef.var = st.dstVars.map VariableRef.var ∧ (∀ ref ∈ st'.dstVars, ref.version.isSome) ∧
      st'.isPhi = st.isPhi := by
  obtain ⟨used, refs, rewritten, defined, rfl, sameDst⟩ := statement_eq_some renamed
  obtain ⟨tops, vars, versioned⟩ := top_defineAll defined
  have dst : (used.setDst refs).dstVars = refs := by
    refine Statement.dstVars_setDst used ?_
    rw [sameDst]
    simpa using congrArg List.length vars
  rw [dst, isPhi_setDst]
  refine ⟨tops, vars, versioned, ?_⟩
  rcases rewritten with ⟨-, rfl⟩ | ⟨-, rewriting, -, rfl⟩
  exacts [rfl, isPhi_mapSrc st rewriting]

/-- The definitions of renamed statements, and the versions they leave on top. -/
theorem top_statements {sts sts' : List Statement} (renamed : names.statements sts = some (sts', names')) :
    (∀ v, names'.top v = topAfter v (sts'.flatMap Statement.dstVars) (names.top v)) ∧
      (sts'.flatMap Statement.dstVars).map VariableRef.var = definedVars sts ∧
      (∀ ref ∈ sts'.flatMap Statement.dstVars, ref.version.isSome) ∧ sts'.map Statement.isPhi = sts.map Statement.isPhi := by
  induction sts generalizing names sts' with
  | nil =>
    obtain ⟨rfl, rfl⟩ : sts' = [] ∧ names' = names := by simpa [statements, eq_comm] using renamed
    exact ⟨fun _ => rfl, rfl, by simp, rfl⟩
  | cons st sts ih =>
    simp only [statements, Option.bind_eq_bind, Option.bind_eq_some_iff, Option.some.injEq, Prod.mk.injEq,
      Prod.exists] at renamed
    obtain ⟨first, names₁, renamed₁, rest, names₂, renamed₂, rfl, rfl⟩ := renamed
    obtain ⟨tops₁, vars₁, versioned₁, phi₁⟩ := top_statement renamed₁
    obtain ⟨tops₂, vars₂, versioned₂, phis₂⟩ := ih renamed₂
    refine ⟨fun v => ?_, ?_, fun ref member => ?_, by simp [phi₁, phis₂]⟩
    · rw [tops₂ v, tops₁ v, List.flatMap_cons, topAfter_append]
    · rw [List.flatMap_cons, List.map_append, vars₁, vars₂]
      simp [definedVars]
    · rw [List.flatMap_cons] at member
      rcases List.mem_append.mp member with here | later
      exacts [versioned₁ ref here, versioned₂ ref later]

theorem statements_append {sts sts' out : List Statement} (renamed : names.statements (sts ++ sts') = some (out, names')) :
    ∃ first mid rest, names.statements sts = some (first, mid) ∧ mid.statements sts' = some (rest, names') ∧ out = first ++ rest := by
  induction sts generalizing names out with
  | nil => exact ⟨[], names, out, rfl, renamed, rfl⟩
  | cons st sts ih =>
    simp only [List.cons_append, statements, Option.bind_eq_bind, Option.bind_eq_some_iff, Option.some.injEq, Prod.mk.injEq,
      Prod.exists] at renamed
    obtain ⟨head, names₁, renamed₁, tail, names₂, renamed₂, rfl, rfl⟩ := renamed
    obtain ⟨first, mid, rest, front, back, rfl⟩ := ih renamed₂
    exact ⟨head :: first, mid, rest, by simp [statements, renamed₁, front], back, rfl⟩

end SsaRename

open SsaRename

theorem bare_phiFor (blocks : List BasicBlockData) (y : ℕ) (v : Variable) : bare (phiFor blocks y v) = phiFor blocks y v := by
  simp [phiFor, bare, Function.comp_def, VariableRef.new]

/-- What became of a block: its phis and then its statements are renamed in turn, and its terminator. -/
structure BlockRan (blocks : List BasicBlockData) (mode : PhiMode) (tree : DominatorTree) (y : ℕ) (entry exit : SsaRename)
    (b₀ b : BasicBlockData) (phis rest : List Statement) (mid : SsaRename) : Prop where
  renamesPhis : entry.statements ((phiVars blocks mode tree (PhiPlace.collectVars blocks) y).map (phiFor blocks y)) = some (phis, mid)
  renamesRest : mid.statements b₀.statements = some (rest, exit)
  statements : b.statements.map bare = phis ++ rest
  terminator : ∃ term rewriting, b₀.terminator = some term ∧ rewrite exit.useTerm term.srcVars = some rewriting ∧
    b.terminator = some (term.mapSrc rewriting)

/-- A run of the walk over some blocks with the phis of a mode in place: the names at the start and at the
end of each block, and what became of it. -/
structure Ran (blocks : List BasicBlockData) (mode : PhiMode) (tree : DominatorTree) (out : List BasicBlockData)
    (entry exit : ℕ → SsaRename) : Prop where
  length : out.length = blocks.length
  block : ∀ {y : ℕ} {b₀ : BasicBlockData}, blocks[y]? = some b₀ → ∃ b phis rest mid, out[y]? = some b ∧
    BlockRan blocks mode tree y (entry y) (exit y) b₀ b phis rest mid
  start : ∀ v ∈ PhiPlace.collectVars blocks, (entry 0).top v = some 0
  parent : ∀ y < blocks.length, y ≠ 0 → (entry y).s = (exit (tree.idom y)).s
  operands : ∀ {y : ℕ} {b : BasicBlockData}, out[y]? = some b → ∀ dest ops, .phi dest ops ∈ b.statements → ∀ op ∈ ops,
    op.2.version = none ∨ (exit op.1).top op.2.var = op.2.version
  filled : ∀ p < blocks.length, ∀ y ∈ (cfg blocks).successors p, Filled exit out p y
  firsts : ∀ b ∈ out, ∀ dest ops, .phi dest ops ∈ b.statements → FirstsOnly ops

/-- The walk over a completed function runs to its end in either mode. -/
theorem exists_ran {f : FunctionData} (pre : PreSsa f) (nonempty : f.blocks ≠ []) (reachable : (cfg f.blocks).AllReachable)
    (mode : PhiMode) {hash : HashOrder} {tree : DominatorTree} (returned : DominatorTree.new (cfg f.blocks) hash = some tree)
    (of : DominatorTree.Of (cfg f.blocks) tree) :
    ∃ place placed out names entry exit, new f.blocks mode hash = some (place, placed) ∧
      SsaRename.new placed place = some (out, names) ∧ Ran f.blocks mode tree out entry exit := by
  obtain ⟨placed, isPlaced⟩ : ∃ placed, placed = withPhis f.blocks mode tree (collectVars f.blocks) := ⟨_, rfl⟩
  have sameLength : placed.length = f.blocks.length := isPlaced ▸ length_withPhis
  have sameCfg : cfg placed = cfg f.blocks := isPlaced ▸ cfg_withPhis
  have positive : 0 < f.blocks.length := List.length_pos_of_ne_nil nonempty
  have at? : ∀ y : ℕ, placed[y]? = f.blocks[y]?.map fun block =>
      ⟨(phiVars f.blocks mode tree (collectVars f.blocks) y).map (phiFor f.blocks y) ++ block.statements,
        block.terminator⟩ := fun y => isPlaced ▸ getElem?_withPhis
  have walkable : Walkable placed (collectVars f.blocks) := isPlaced ▸ walkable_withPhis pre
  obtain ⟨names₀, isStart⟩ : ∃ names : SsaRename, names =
      { s := fun v => if v ∈ collectVars f.blocks then some [0] else none
        c := fun v => if v ∈ collectVars f.blocks then some 1 else none } := ⟨_, rfl⟩
  have tops : ∀ v ∈ collectVars f.blocks, names₀.top v = some 0 := by
    intro v known
    simp [isStart, top, known]
  have stocked : names₀.Stocked (collectVars f.blocks) := by
    intro v known
    rw [tops v known]
    simp [isStart, known]
  have unfilled : ∀ {y : ℕ} {b : BasicBlockData}, placed[y]? = some b → ∀ dest ops, .phi dest ops ∈ b.statements →
      ∀ op ∈ ops, op.2.var ∈ collectVars f.blocks ∧ op.2.version = none := by
    intro y b here dest ops member op isOp
    rw [at?, Option.map_eq_some_iff] at here
    obtain ⟨block, there, rfl⟩ := here
    rcases List.mem_append.mp member with new | old
    · obtain ⟨v, isVar, same⟩ := List.mem_map.mp new
      obtain ⟨-, rfl⟩ := Statement.phi.inj same
      obtain ⟨pred, -, rfl⟩ := List.mem_map.mp isOp
      exact ⟨(mem_phiVars.mp isVar).1, rfl⟩
    · have notPhi := pre.plain block (List.mem_of_getElem? there) _ old
      simp [Statement.isPhi] at notPhi
  have before : Walked placed placed (collectVars f.blocks) ∅ (fun _ => names₀) (fun _ => names₀) :=
    ⟨⟨rfl, fun _ here => ⟨_, here, rfl, rfl⟩, fun inEmpty _ => inEmpty.elim,
      fun here dest ops member op isOp => (unfilled here dest ops member op isOp).imp_right .inl⟩, fun _ inEmpty => inEmpty.elim⟩
  have ofPlaced : DominatorTree.Of (cfg placed) tree := sameCfg ▸ of
  obtain ⟨out, names, entry, exit, ran, -, -, walked, -, first, inner⟩ := search_spec ofPlaced
    (sameCfg ▸ reachable) (sameCfg ▸ pre.wellFormed nonempty) walkable placed.length 0 (by omega) (by omega) placed ∅
    (fun _ => names₀) (fun _ => names₀) names₀ before (fun _ _ => id) stocked
  have everywhere : ∀ {y : ℕ}, y < f.blocks.length → y ∈ (∅ : Set ℕ) ∪ below tree placed.length 0 := fun less =>
    .inr ⟨sameLength ▸ less, Above.of_reachable of.table (reachable _ less)⟩
  refine ⟨⟨collectVars f.blocks, tree⟩, placed, out, names, entry, exit, isPlaced ▸ new_eq returned, ?_, ?_⟩
  · rw [isStart] at ran
    exact ran
  · refine ⟨walked.length.trans sameLength, fun {y b₀} there => ?_, fun v known => ?_, fun y less other => ?_,
      fun {y b} here dest ops member op isOp => ?_, fun p less y out => ?_, ?_⟩
    · have less := (List.getElem?_eq_some_iff.mp there).1
      obtain ⟨b, here⟩ : ∃ b, out[y]? = some b :=
        ⟨_, List.getElem?_eq_getElem (by rw [walked.length, sameLength]; exact less)⟩
      obtain ⟨b₁, term, rewriting, inPlaced, renames, last, found, last'⟩ := walked.after (everywhere less) here
      rw [at?, there, Option.map_some] at inPlaced
      obtain rfl := Option.some.inj inPlaced
      have bareSts : b₀.statements.map bare = b₀.statements := (List.map_congr_left fun st inside =>
        bare_of_not_phi (pre.plain b₀ (List.mem_of_getElem? there) st inside)).trans (List.map_id _)
      simp only [List.map_append, List.map_map, Function.comp_def, bare_phiFor, bareSts] at renames
      obtain ⟨phis, mid, rest, front, back, split⟩ := statements_append renames
      exact ⟨b, phis, rest, mid, here, front, back, split, term, rewriting, last, found, last'⟩
    · rw [top, first]
      exact tops v known
    · exact inner y ⟨sameLength ▸ less, Above.of_reachable of.table (reachable _ less)⟩ other
    · exact (walked.operands here dest ops member op isOp).2.imp_right And.right
    · exact walked.filled p (everywhere less) y (sameCfg ▸ out)
    · refine search_operands (P := FirstsOnly) (fun _ _ _ _ filled firsts => firsts.operand filled) ?_ ran
      intro b member dest ops isPhi
      obtain ⟨y, here⟩ := List.mem_iff_getElem?.mp member
      refine List.pairwise_iff_forall_sublist.mpr fun {earlier later} both versioned => ?_
      have isOp : later ∈ ops := both.subset (by simp)
      simp [(unfilled here dest ops isPhi later isOp).2] at versioned

theorem definedVars_phis (blocks : List BasicBlockData) (y : ℕ) (vs : List Variable) :
    definedVars (vs.map (phiFor blocks y)) = vs := by
  simp [definedVars, List.flatMap_map, phiFor, Statement.dstVars, VariableRef.new]

/-- Renamed phis have their operands as they were. -/
theorem mem_renamed_phis {names names' : SsaRename} {blocks : List BasicBlockData} {y : ℕ} {vs : List Variable}
    {phis : List Statement} (renamed : names.statements (vs.map (phiFor blocks y)) = some (phis, names')) {st : Statement}
    (member : st ∈ phis) : ∃ v ∈ vs, ∃ i, st =
      .phi ⟨v, some i⟩ (((cfg blocks).predecessors y).map fun pred => (pred, .new v)) := by
  induction vs generalizing names phis with
  | nil =>
    obtain ⟨rfl, rfl⟩ : phis = [] ∧ names' = names := by simpa [SsaRename.statements, eq_comm] using renamed
    simp at member
  | cons v vs ih =>
    simp only [List.map_cons, SsaRename.statements, Option.bind_eq_bind, Option.bind_eq_some_iff, Option.some.injEq,
      Prod.mk.injEq, Prod.exists] at renamed
    obtain ⟨head, names₁, renamed₁, tail, names₂, renamed₂, rfl, rfl⟩ := renamed
    rcases List.mem_cons.mp member with rfl | later
    · obtain ⟨-, vars, versioned, -⟩ := top_statement renamed₁
      obtain ⟨used, refs, rewritten, -, rfl, -⟩ := statement_eq_some renamed₁
      obtain rfl : used = phiFor blocks y v := by
        rcases rewritten with ⟨-, same⟩ | ⟨notPhi, -⟩
        · exact same
        · simp [phiFor, Statement.isPhi] at notPhi
      have sameVar : (refs.headD (.new v)).var = v := by
        simpa [phiFor, Statement.setDst, Statement.dstVars, VariableRef.new] using vars
      obtain ⟨i, version⟩ := Option.isSome_iff_exists.mp (versioned (refs.headD (.new v)) (List.mem_singleton_self _))
      have isDest : refs.headD (.new v) = ⟨v, some i⟩ := by
        generalize refs.headD (.new v) = ref at sameVar version
        rw [← sameVar, ← version]
      refine ⟨v, .head _, i, ?_⟩
      change Statement.phi (refs.headD (.new v)) _ = _
      rw [isDest]
    · obtain ⟨w, isVar, i, rfl⟩ := ih renamed₂ later
      exact ⟨w, .tail _ isVar, i, rfl⟩

namespace BlockRan

variable {blocks : List BasicBlockData} {mode : PhiMode} {tree : DominatorTree} {y : ℕ} {entry exit mid : SsaRename}
  {b₀ b : BasicBlockData} {phis rest : List Statement} {v : Variable} {dest : VariableRef} {ops : List (ℕ × VariableRef)}
  (run : BlockRan blocks mode tree y entry exit b₀ b phis rest mid)
include run

theorem isPhi_of_mem_phis {st : Statement} (member : st ∈ phis) : st.isPhi = true := by
  obtain ⟨v, -, i, rfl⟩ := mem_renamed_phis run.renamesPhis member
  rfl

/-- A phi of the renamed block is among its renamed phis, but for the versions of its operands. -/
theorem bare_mem_phis (plain : ∀ st ∈ b₀.statements, st.isPhi = false) (member : .phi dest ops ∈ b.statements) :
    bare (.phi dest ops) ∈ phis := by
  have inBare : bare (.phi dest ops) ∈ phis ++ rest := run.statements ▸ List.mem_map_of_mem member
  refine (List.mem_append.mp inBare).resolve_right fun inRest => ?_
  have isPhi : true ∈ rest.map Statement.isPhi := List.mem_map.mpr ⟨_, inRest, rfl⟩
  rw [(top_statements run.renamesRest).2.2.2] at isPhi
  obtain ⟨st, old, isPhi⟩ := List.mem_map.mp isPhi
  simp [plain st old] at isPhi

/-- It is one that was placed, with an operand for each predecessor. -/
theorem phi_origin (plain : ∀ st ∈ b₀.statements, st.isPhi = false) (member : .phi dest ops ∈ b.statements) :
    dest.var ∈ phiVars blocks mode tree (collectVars blocks) y ∧ ops.map Prod.fst = (cfg blocks).predecessors y ∧
      ∀ op ∈ ops, op.2.var = dest.var := by
  obtain ⟨v, isVar, i, same⟩ := mem_renamed_phis run.renamesPhis (run.bare_mem_phis plain member)
  obtain ⟨rfl, sameOps⟩ := Statement.phi.inj same
  refine ⟨isVar, ?_, fun op isOp => ?_⟩
  · have preds := congrArg (List.map Prod.fst) sameOps
    simpa [Function.comp_def] using preds
  · have isBare : (op.1, VariableRef.new op.2.var) ∈ ops.map fun op => (op.1, VariableRef.new op.2.var) :=
      List.mem_map_of_mem isOp
    rw [sameOps] at isBare
    obtain ⟨pred, -, sameOp⟩ := List.mem_map.mp isBare
    exact (congrArg (fun op => op.2.var) sameOp).symm

/-- The statements of the renamed block other than phis. -/
theorem plainStatements_eq (plain : ∀ st ∈ b₀.statements, st.isPhi = false) : plainStatements b = rest := by
  have kinds := (top_statements run.renamesRest).2.2.2
  have noPhi : ∀ st ∈ rest, st.isPhi = false := by
    intro st member
    have listed : st.isPhi ∈ rest.map Statement.isPhi := List.mem_map_of_mem member
    rw [kinds] at listed
    obtain ⟨st₀, old, same⟩ := List.mem_map.mp listed
    rw [← same, plain st₀ old]
  have fromPhis : phis.filter (fun st => !st.isPhi) = [] :=
    List.filter_eq_nil_iff.mpr fun st member => by simp [run.isPhi_of_mem_phis member]
  have fromRest : rest.filter (fun st => !st.isPhi) = rest :=
    List.filter_eq_self.mpr fun st member => by simp [noPhi st member]
  have filtered := congrArg (List.filter fun st => !st.isPhi) run.statements
  rw [List.filter_append, fromPhis, fromRest, List.nil_append, List.filter_map] at filtered
  rw [← filtered, plainStatements]
  have sameFilter : ((fun st : Statement => !st.isPhi) ∘ bare) = fun st : Statement => !st.isPhi := by
    funext st
    simp
  rw [sameFilter]
  refine ((List.map_congr_left fun st member => ?_).trans (List.map_id _)).symm
  exact bare_of_not_phi (by simpa using (List.mem_filter.mp member).2)

theorem plainDefs_eq (plain : ∀ st ∈ b₀.statements, st.isPhi = false) : plainDefs b = rest.flatMap Statement.dstVars := by
  rw [plainDefs, run.plainStatements_eq plain]

theorem plainDefs_vars (plain : ∀ st ∈ b₀.statements, st.isPhi = false) :
    (plainDefs b).map VariableRef.var = definedVars b₀.statements := by
  rw [run.plainDefs_eq plain, (top_statements run.renamesRest).2.1]

/-- A phi that was placed is there, and its version is on top after the phis. -/
theorem exists_phi (isVar : v ∈ phiVars blocks mode tree (collectVars blocks) y) :
    (mid.top v).isSome ∧ ∃ ops, .phi ⟨v, mid.top v⟩ ops ∈ b.statements := by
  obtain ⟨tops, vars, versioned, -⟩ := top_statements run.renamesPhis
  have present : v ∈ (phis.flatMap Statement.dstVars).map VariableRef.var := by
    rwa [vars, definedVars_phis]
  obtain ⟨k, ref, -, here, -, sameVar, -, last, -⟩ := topAfter_same rfl present (entry.top v) none
  have member := List.mem_of_getElem? here
  have isRef : ref = ⟨v, mid.top v⟩ := by
    rw [tops v, last, ← sameVar]
  refine ⟨?_, ?_⟩
  · rw [tops v, last]
    exact versioned ref member
  · obtain ⟨st, inPhis, isDst⟩ := List.mem_flatMap.mp member
    obtain ⟨w, -, i, rfl⟩ := mem_renamed_phis run.renamesPhis inPhis
    obtain rfl := List.mem_singleton.mp isDst
    have inBare : _ ∈ b.statements.map bare := run.statements.symm ▸ List.mem_append_left rest inPhis
    obtain ⟨st, inside, same⟩ := List.mem_map.mp inBare
    cases st with
    | phi dest ops =>
      obtain ⟨rfl, -⟩ := Statement.phi.inj same
      exact ⟨ops, isRef ▸ inside⟩
    | assign _ _ | callAssign _ _ _ _ | nop => simp [bare] at same

theorem mid_top_of_bare (bare : v ∉ phiVars blocks mode tree (collectVars blocks) y) : mid.top v = entry.top v := by
  obtain ⟨tops, vars, -, -⟩ := top_statements run.renamesPhis
  rw [tops v, topAfter_of_notMem]
  rwa [vars, definedVars_phis]

theorem exit_top (plain : ∀ st ∈ b₀.statements, st.isPhi = false) (v : Variable) :
    exit.top v = topAfter v (plainDefs b) (mid.top v) := by
  rw [(top_statements run.renamesRest).1 v, run.plainDefs_eq plain]

end BlockRan

/-- The version of a variable that a token stands for. -/
def Names (out : List BasicBlockData) (v : Variable) (version : Option ℕ) : Token ℕ → Prop
  | .entry => version = some 0
  | .phi b => version.isSome ∧ ∃ ops, HasPhi out b ⟨v, version⟩ ops
  | .last b => ∃ block, out[b]? = some block ∧ v ∈ (plainDefs block).map VariableRef.var ∧
      version = topAfter v (plainDefs block) none

theorem BlockRan.names_of_placed {blocks out : List BasicBlockData} {mode : PhiMode} {tree : DominatorTree}
    {entry exit mid : SsaRename} {v : Variable} {y : ℕ} {b₀ b : BasicBlockData} {phis rest : List Statement}
    (run : BlockRan blocks mode tree y entry exit b₀ b phis rest mid) (there : out[y]? = some b)
    (known : v ∈ collectVars blocks) (placed : Placed blocks mode tree v y) : Names out v (mid.top v) (.phi y) := by
  obtain ⟨versioned, ops, member⟩ := run.exists_phi (mem_phiVars.mpr ⟨known, placed⟩)
  exact ⟨versioned, ops, b, there, member⟩

namespace Ran

variable {blocks out : List BasicBlockData} {mode : PhiMode} {tree : DominatorTree} {entry exit : ℕ → SsaRename} {v : Variable}
  {u y : ℕ} {t : Token ℕ} {b₀ b : BasicBlockData} {phis rest : List Statement} {mid : SsaRename}
  (ran : Ran blocks mode tree out entry exit) (plain : ∀ block ∈ blocks, ∀ st ∈ block.statements, st.isPhi = false)
include ran plain

variable (of : DominatorTree.Of (cfg blocks) tree) (reachable : (cfg blocks).AllReachable)
  (wellFormed : (cfg blocks).WellFormed) (known : v ∈ PhiPlace.collectVars blocks)
include of reachable wellFormed known

/-- What is on top at the end of a block. -/
theorem names_of_topExit (node : u < blocks.length)
    (top : TopExit 0 tree.idom (site blocks v) (Placed blocks mode tree v) u t) : Names out v ((exit u).top v) t := by
  have clearOf : ∀ {u b₀}, blocks[u]? = some b₀ → site blocks v u = none → v ∉ definedVars b₀.statements :=
    fun here clear defined => site_eq_none.mp clear (mem_assigns.mpr ⟨_, here, defined⟩)
  induction top with
  | @last u defines =>
    obtain ⟨b₀, here, defined⟩ := mem_assigns.mp (not_not.mp fun off => defines (site_eq_none.mpr off))
    obtain ⟨b, phis, rest, mid, there, run⟩ := ran.block here
    have same := run.plainDefs_vars (plain b₀ (List.mem_of_getElem? here))
    refine ⟨b, there, same ▸ defined, ?_⟩
    rw [run.exit_top (plain b₀ (List.mem_of_getElem? here))]
    exact topAfter_of_mem (same ▸ defined) _ _
  | @phi u clear placed =>
    obtain ⟨b₀, here⟩ : ∃ b₀, blocks[u]? = some b₀ := ⟨_, List.getElem?_eq_getElem node⟩
    obtain ⟨b, phis, rest, mid, there, run⟩ := ran.block here
    rw [run.exit_top (plain b₀ (List.mem_of_getElem? here)), topAfter_of_notMem]
    · exact run.names_of_placed there known placed
    · exact run.plainDefs_vars (plain b₀ (List.mem_of_getElem? here)) ▸ clearOf here clear
  | entry clear bare =>
    obtain ⟨b₀, here⟩ : ∃ b₀, blocks[0]? = some b₀ := ⟨_, List.getElem?_eq_getElem node⟩
    obtain ⟨b, phis, rest, mid, there, run⟩ := ran.block here
    change (exit 0).top v = some 0
    rw [run.exit_top (plain b₀ (List.mem_of_getElem? here)), topAfter_of_notMem, run.mid_top_of_bare fun placed =>
      bare (mem_phiVars.mp placed).2, ran.start v known]
    exact run.plainDefs_vars (plain b₀ (List.mem_of_getElem? here)) ▸ clearOf here clear
  | @up u t clear bare inner above ih =>
    obtain ⟨b₀, here⟩ : ∃ b₀, blocks[u]? = some b₀ := ⟨_, List.getElem?_eq_getElem node⟩
    obtain ⟨b, phis, rest, mid, there, run⟩ := ran.block here
    have before := ih (wellFormed.lt_of_reachable (of.table.reachable (reachable u node)))
    rw [run.exit_top (plain b₀ (List.mem_of_getElem? here)), topAfter_of_notMem, run.mid_top_of_bare fun placed =>
      bare (mem_phiVars.mp placed).2, SsaRename.top, ran.parent u node inner]
    · exact before
    · exact run.plainDefs_vars (plain b₀ (List.mem_of_getElem? here)) ▸ clearOf here clear

/-- What is on top after the phis of a block. -/
theorem names_of_topEntry (here : blocks[y]? = some b₀) (there : out[y]? = some b)
    (run : BlockRan blocks mode tree y (entry y) (exit y) b₀ b phis rest mid)
    (top : TopEntry 0 tree.idom (site blocks v) (Placed blocks mode tree v) y t) : Names out v (mid.top v) t := by
  have node := (List.getElem?_eq_some_iff.mp here).1
  rcases top with ⟨placed, rfl⟩ | ⟨bare, rfl, rfl⟩ | ⟨bare, inner, above⟩
  · exact run.names_of_placed there known placed
  · change mid.top v = some 0
    rw [run.mid_top_of_bare fun placed => bare (mem_phiVars.mp placed).2, ran.start v known]
  · rw [run.mid_top_of_bare fun placed => bare (mem_phiVars.mp placed).2, SsaRename.top, ran.parent y node inner]
    exact ran.names_of_topExit plain of reachable wellFormed known
      (wellFormed.lt_of_reachable (of.table.reachable (reachable y node))) above

end Ran

/-- An operand is filled in exactly if it is the first for its predecessor. -/
theorem SsaRename.FirstsOnly.isSome_iff {ops : List (ℕ × VariableRef)} (firsts : FirstsOnly ops) {j : ℕ} {op : ℕ × VariableRef}
    (here : ops[j]? = some op) (filled : ∃ op' ∈ ops, op'.1 = op.1 ∧ op'.2.version.isSome) :
    op.2.version.isSome ↔ op.1 ∉ (ops.map Prod.fst).take j := by
  obtain ⟨jLt, isOp⟩ := List.getElem?_eq_some_iff.mp here
  have apart := List.pairwise_iff_getElem.mp firsts
  constructor
  · intro versioned earlier
    obtain ⟨i, iLt, isPred⟩ := List.mem_take_iff_getElem.mp earlier
    simp only [List.length_map, List.getElem_map] at iLt isPred
    exact apart i j (by omega) jLt (by omega) (isOp ▸ versioned) (isOp ▸ isPred.symm)
  · intro first
    obtain ⟨op', member, same, versioned⟩ := filled
    obtain ⟨i, iLt, rfl⟩ := List.mem_iff_getElem.mp member
    rcases Nat.lt_trichotomy i j with lt | rfl | gt
    · refine absurd (List.mem_take_iff_getElem.mpr ⟨i, ?_, ?_⟩) first
      · simp only [List.length_map]
        omega
      · simpa using same
    · exact isOp ▸ versioned
    · exact absurd (isOp ▸ same) (apart j i jLt iLt gt versioned)

end Ctadl.Ssa
