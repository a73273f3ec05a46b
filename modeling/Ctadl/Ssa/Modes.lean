import Ctadl.Ssa.Versions

/-! # Pruned and minimal form

Runs of the conversion in the two modes over the same function. Where a variable is live the versions that
the two runs have on top match (`Matches`): they are incoming in both, defined by the same statement, or by
phis of the same block. What a use reads is live, and so is what a phi of the pruned form reads at the end
of its predecessors; so the two forms are alike (`alike_matches`), every use stands for the same definitions in
both, and the pruned form has exactly the phis that a use reads through other phis.
-/

namespace Ctadl.Ssa

open Function Relation Cir Ctadl.Graph Flowgraph SsaRename
open PhiPlace (collectVars liveIn new readsFirst termVars)

/-- Versions of two forms that stand at the same place. -/
inductive Matches (out out' : List BasicBlockData) : VariableRef → VariableRef → Prop
  | unversioned (v : Variable) : Matches out out' ⟨v, none⟩ ⟨v, none⟩
  | incoming (v : Variable) : Matches out out' ⟨v, some 0⟩ ⟨v, some 0⟩
  | definition {b k : ℕ} {block block' : BasicBlockData} {ref ref' : VariableRef} (here : out[b]? = some block)
      (here' : out'[b]? = some block') (defines : (plainDefs block)[k]? = some ref)
      (defines' : (plainDefs block')[k]? = some ref') (same : ref.var = ref'.var) : Matches out out' ref ref'
  | phi {b : ℕ} {ops ops' : List (ℕ × VariableRef)} {ref ref' : VariableRef} (phi : HasPhi out b ref ops)
      (phi' : HasPhi out' b ref' ops') (same : ref.var = ref'.var) : Matches out out' ref ref'

/-- A use reads the version through phis. -/
def ReadThrough (blocks : List BasicBlockData) (dest : VariableRef) : Prop :=
  ∃ block ∈ blocks, ∃ use ∈ plainUses block, ReflTransGen (PhiReads blocks) use dest

section Uses

variable {C : VariableRef → VariableRef → Prop} {names names' final final' : SsaRename}

/-- The references a statement other than a phi reads are rewritten one by one. -/
theorem srcVars_statement {st st' : Statement} (renamed : names.statement st = some (st', final)) (plain : st.isPhi = false) :
    ∃ rewriting, (∀ ref ∈ st.srcVars, names.use ref = some (rewriting ref)) ∧ st'.srcVars = st.srcVars.map rewriting := by
  obtain ⟨used, refs, rewritten, -, rfl, -⟩ := statement_eq_some renamed
  obtain ⟨isPhi, -⟩ | ⟨-, rewriting, found, rfl⟩ := rewritten
  · simp [plain] at isPhi
  · exact ⟨rewriting, mem_rewrite found, by rw [Statement.srcVars_setDst, Statement.srcVars_mapSrc]⟩

/-- Without a version, a reference in a terminator is renamed as in a statement. -/
theorem use_eq_useTerm {ref : VariableRef} (bare : ref.version = none) : names.use ref = names.useTerm ref := by
  simp [SsaRename.use, SsaRename.useTerm, bare]

theorem mem_blockVars_of_readsFirst {block : BasicBlockData} {v : Variable}
    (reads : readsFirst v block.terminator block.statements = true) : v ∈ PhiPlace.blockVars block := by
  have along : ∀ sts : List Statement, readsFirst v block.terminator sts = true →
      (∃ st ∈ sts, v ∈ PhiPlace.useVars st) ∨ v ∈ (block.terminator.map termVars).getD [] := by
    intro sts
    induction sts with
    | nil => exact fun reads => .inr (by simpa [readsFirst] using reads)
    | cons st sts ih =>
      intro reads
      simp only [readsFirst, Bool.or_eq_true, decide_eq_true_eq, Bool.and_eq_true] at reads
      rcases reads with here | ⟨-, later⟩
      · exact .inl ⟨st, .head _, here⟩
      · refine (ih later).imp_left ?_
        rintro ⟨s, inside, isUse⟩
        exact ⟨s, .tail _ inside, isUse⟩
  rcases along _ reads with ⟨st, inside, isUse⟩ | last
  · exact List.mem_append_left _ (List.mem_flatMap.mpr ⟨st, inside, List.mem_append_left _ isUse⟩)
  · exact List.mem_append_right _ last

/-- One reference that is read becomes related versions, if what is on top for its variable is related. -/
theorem use_related {ref used used' : VariableRef} (found : names.use ref = some used) (found' : names'.use ref = some used')
    (bare : ref.version = none) (unversioned : C ⟨ref.var, none⟩ ⟨ref.var, none⟩)
    (tops : ref.var.isGlobal = false → C ⟨ref.var, names.top ref.var⟩ ⟨ref.var, names'.top ref.var⟩) : C used used' := by
  cases global : ref.var.isGlobal with
  | true =>
    simp only [SsaRename.use, global, Bool.or_true, if_true, Option.some.injEq] at found found'
    have same : ref = ⟨ref.var, none⟩ := by rw [← bare]
    rwa [← found, ← found', same]
  | false =>
    simp only [SsaRename.use, bare, global, Option.isSome_none, Bool.or_self, Bool.false_eq_true, if_false,
      Option.map_eq_some_iff] at found found'
    obtain ⟨i, top, rfl⟩ := found
    obtain ⟨i', top', rfl⟩ := found'
    have related := tops global
    rwa [top, top'] at related

/-- Two runs over the same statements read related versions, if what they have on top for the variables
read first is related, and what they define at the same place. -/
theorem forall₂_uses {term : Option Terminator} {sts sts₁ sts₂ : List Statement}
    (renamed : names.statements sts = some (sts₁, final)) (renamed' : names'.statements sts = some (sts₂, final'))
    (plain : ∀ st ∈ sts, st.isPhi = false) (bare : ∀ st ∈ sts, ∀ ref ∈ st.srcVars, ref.version = none)
    (unversioned : ∀ v, C ⟨v, none⟩ ⟨v, none⟩)
    (defs : ∀ (k : ℕ) r r', (sts₁.flatMap Statement.dstVars)[k]? = some r → (sts₂.flatMap Statement.dstVars)[k]? = some r' →
      r.var = r'.var → C r r')
    (tops : ∀ v, readsFirst v term sts = true → C ⟨v, names.top v⟩ ⟨v, names'.top v⟩) :
    List.Forall₂ C (sts₁.flatMap Statement.srcVars) (sts₂.flatMap Statement.srcVars) ∧
      ∀ v ∈ (term.map termVars).getD [], C ⟨v, final.top v⟩ ⟨v, final'.top v⟩ := by
  induction sts generalizing names names' sts₁ sts₂ with
  | nil =>
    obtain ⟨rfl, rfl⟩ : sts₁ = [] ∧ final = names := by simpa [SsaRename.statements, eq_comm] using renamed
    obtain ⟨rfl, rfl⟩ : sts₂ = [] ∧ final' = names' := by simpa [SsaRename.statements, eq_comm] using renamed'
    exact ⟨.nil, fun v member => tops v (by simpa [readsFirst] using member)⟩
  | cons st sts ih =>
    simp only [SsaRename.statements, Option.bind_eq_bind, Option.bind_eq_some_iff, Option.some.injEq, Prod.mk.injEq,
      Prod.exists] at renamed renamed'
    obtain ⟨head, names₁, renamed₁, tail, final, rest, rfl, rfl⟩ := renamed
    obtain ⟨head', names₁', renamed₁', tail', final', rest', rfl, rfl⟩ := renamed'
    obtain ⟨tops₁, vars₁, -, -⟩ := top_statement renamed₁
    obtain ⟨tops₁', vars₁', -, -⟩ := top_statement renamed₁'
    have sameVars := vars₁.trans vars₁'.symm
    have sameLength : head.dstVars.length = head'.dstVars.length := by simpa using congrArg List.length sameVars
    have headUses : List.Forall₂ C head.srcVars head'.srcVars := by
      obtain ⟨rewriting, found, srcs⟩ := srcVars_statement renamed₁ (plain st (.head _))
      obtain ⟨rewriting', found', srcs'⟩ := srcVars_statement renamed₁' (plain st (.head _))
      rw [srcs, srcs', List.forall₂_map_left_iff, List.forall₂_map_right_iff, List.forall₂_same]
      intro ref member
      have isBare := bare st (.head _) ref member
      refine use_related (found ref member) (found' ref member) isBare (unversioned ref.var) fun isLocal => tops ref.var ?_
      simp only [readsFirst, Bool.or_eq_true, decide_eq_true_eq]
      refine .inl (List.mem_map.mpr ⟨ref, List.mem_filter.mpr ⟨member, ?_⟩, rfl⟩)
      simp [isBare, isLocal]
    obtain ⟨tailUses, atEnd⟩ := ih rest rest' (fun s later => plain s (.tail _ later)) (fun s later => bare s (.tail _ later))
      (fun k r r' here here' same => by
        refine defs (head.dstVars.length + k) r r' ?_ ?_ same
        · rw [List.flatMap_cons, List.getElem?_append_right (by omega)]
          simpa using here
        · rw [List.flatMap_cons, List.getElem?_append_right (by omega), sameLength]
          simpa using here')
      (fun v reads => by
        rw [tops₁ v, tops₁' v]
        by_cases defined : v ∈ head.dstVars.map VariableRef.var
        · obtain ⟨k, r, r', here, here', isV, isV', last, last'⟩ := topAfter_same sameVars defined (names.top v) (names'.top v)
          rw [last, last']
          have inside := (List.getElem?_eq_some_iff.mp here).1
          have related := defs k r r' (by rw [List.flatMap_cons, List.getElem?_append_left inside]; exact here)
            (by rw [List.flatMap_cons, List.getElem?_append_left (sameLength ▸ inside)]; exact here') (isV.trans isV'.symm)
          rw [← isV] at *
          have sameRef' : (⟨r.var, r'.version⟩ : VariableRef) = r' := by rw [← isV']
          rw [sameRef']
          exact related
        · rw [topAfter_of_notMem defined, topAfter_of_notMem (sameVars ▸ defined)]
          refine tops v ?_
          rw [vars₁] at defined
          simp [readsFirst, defined, reads])
    refine ⟨?_, atEnd⟩
    rw [List.flatMap_cons, List.flatMap_cons]
    exact List.rel_append headUses tailUses

end Uses

section Joint

variable {f : FunctionData} {tree tree' : DominatorTree} {out out' : List BasicBlockData} {entry exit entry' exit' : ℕ → SsaRename}
  {u w y : ℕ} {v : Variable} {b₀ b b' : BasicBlockData} {phis rest phis' rest' : List Statement} {mid mid' : SsaRename}

/-- Runs of the walk in the two modes over the blocks of one function. -/
structure BothRan (f : FunctionData) (tree tree' : DominatorTree) (out out' : List BasicBlockData)
    (entry exit entry' exit' : ℕ → SsaRename) : Prop where
  pre : PreSsa f
  nonempty : f.blocks ≠ []
  reachable : (cfg f.blocks).AllReachable
  of : DominatorTree.Of (cfg f.blocks) tree
  of' : DominatorTree.Of (cfg f.blocks) tree'
  agree : DominatorTree.Agree (cfg f.blocks) tree tree'
  ran : Ran f.blocks .pruned tree out entry exit
  ran' : Ran f.blocks .minimal tree' out' entry' exit'
  single : (definitions out).Nodup
  single' : (definitions out').Nodup
  versioned : ∀ d ∈ definitions out, d.version.isSome ∧ d.version ≠ some 0
  versioned' : ∀ d ∈ definitions out', d.version.isSome ∧ d.version ≠ some 0

namespace BothRan

variable (both : BothRan f tree tree' out out' entry exit entry' exit')
include both

theorem wellFormed : (cfg f.blocks).WellFormed := both.pre.wellFormed both.nonempty

/-- The placement in pruned mode. -/
theorem pruned (v : Variable) : Placement (cfg f.blocks).Edge 0 tree.idom (site f.blocks v) (Placed f.blocks .pruned tree v)
    tree.dfnum (fun z w => w ∈ (DominanceFrontier.new (cfg f.blocks) tree).frontier z)
    (· ∈ PhiPlace.iteratedFrontier f.blocks (DominanceFrontier.new (cfg f.blocks) tree) v)
    (fun y => PhiMode.pruned = .minimal ∨ y ∈ liveIn f.blocks v) :=
  placement both.of both.reachable both.wellFormed .pruned v

theorem minimal (v : Variable) : Placement (cfg f.blocks).Edge 0 tree'.idom (site f.blocks v) (Placed f.blocks .minimal tree' v)
    tree'.dfnum (fun z w => w ∈ (DominanceFrontier.new (cfg f.blocks) tree').frontier z)
    (· ∈ PhiPlace.iteratedFrontier f.blocks (DominanceFrontier.new (cfg f.blocks) tree') v)
    (fun y => PhiMode.minimal = .minimal ∨ y ∈ liveIn f.blocks v) :=
  placement both.of' both.reachable both.wellFormed .minimal v

theorem agree' : DominatorTree.Agree (cfg f.blocks) tree' tree :=
  ⟨fun n node => (both.agree.idom n node).symm, fun n node => (both.agree.dfnum n node).symm⟩

/-- The phis of pruned form are among those of minimal form. -/
theorem covers (placed : Placed f.blocks .pruned tree v y) : Placed f.blocks .minimal tree' v y :=
  ⟨mem_iteratedFrontier_of_agree both.of both.reachable both.wellFormed both.of' both.agree placed.1, .inl rfl⟩

theorem exists_block (here : f.blocks[y]? = some b₀) : ∃ b b' phis rest mid phis' rest' mid', out[y]? = some b ∧ out'[y]? = some b' ∧
    BlockRan f.blocks .pruned tree y (entry y) (exit y) b₀ b phis rest mid ∧
    BlockRan f.blocks .minimal tree' y (entry' y) (exit' y) b₀ b' phis' rest' mid' := by
  obtain ⟨b, phis, rest, mid, there, run⟩ := both.ran.block here
  obtain ⟨b', phis', rest', mid', there', run'⟩ := both.ran'.block here
  exact ⟨b, b', phis, rest, mid, phis', rest', mid', there, there', run, run'⟩

theorem sameDefs (there : out[y]? = some b) (there' : out'[y]? = some b') :
    (plainDefs b).map VariableRef.var = (plainDefs b').map VariableRef.var := by
  have less : y < f.blocks.length := both.ran.length ▸ (List.getElem?_eq_some_iff.mp there).1
  have here := List.getElem?_eq_getElem less
  obtain ⟨c, c', phis, rest, mid, phis', rest', mid', same, same', run, run'⟩ := both.exists_block here
  obtain rfl := Option.some.inj (there.symm.trans same)
  obtain rfl := Option.some.inj (there'.symm.trans same')
  have plain := both.pre.plain _ (List.mem_of_getElem? here)
  rw [run.plainDefs_vars plain, run'.plainDefs_vars plain]

/-- Versions that one token stands for match. -/
theorem matches_of_names {t : Token ℕ} {version version' : Option ℕ} (names : Names out v version t)
    (names' : Names out' v version' t) : Matches out out' ⟨v, version⟩ ⟨v, version'⟩ := by
  cases t with
  | entry =>
    obtain rfl : version = some 0 := names
    obtain rfl : version' = some 0 := names'
    exact .incoming v
  | phi b =>
    obtain ⟨-, ops, phi⟩ := names
    obtain ⟨-, ops', phi'⟩ := names'
    exact .phi phi phi' rfl
  | last b =>
    obtain ⟨block, here, defined, rfl⟩ := names
    obtain ⟨block', here', -, rfl⟩ := names'
    obtain ⟨k, ref, ref', defines, defines', isV, isV', last, last'⟩ := topAfter_same (both.sameDefs here here') defined none none
    have isRef : (⟨v, topAfter v (plainDefs block) none⟩ : VariableRef) = ref := by rw [last, ← isV]
    have isRef' : (⟨v, topAfter v (plainDefs block') none⟩ : VariableRef) = ref' := by rw [last', ← isV']
    rw [isRef, isRef']
    exact .definition here here' defines defines' (isV.trans isV'.symm)

/-- Where the variable is live, what is on top after the phis matches. -/
theorem mid_matches (here : f.blocks[y]? = some b₀) (there : out[y]? = some b) (there' : out'[y]? = some b')
    (run : BlockRan f.blocks .pruned tree y (entry y) (exit y) b₀ b phis rest mid)
    (run' : BlockRan f.blocks .minimal tree' y (entry' y) (exit' y) b₀ b' phis' rest' mid')
    (known : v ∈ collectVars f.blocks) (isLive : y ∈ liveIn f.blocks v) :
    Matches out out' ⟨v, mid.top v⟩ ⟨v, mid'.top v⟩ := by
  have reached := both.reachable y (List.getElem?_eq_some_iff.mp here).1
  obtain ⟨t, top⟩ := (both.pruned v).exists_topEntry reached
  have top' := (both.pruned v).topEntry_of_live (both.minimal v)
    (fun w => mem_iteratedFrontier_of_agree both.of' both.reachable both.wellFormed both.of both.agree')
    (fun w => both.covers) reached (.inr isLive) top
  exact both.matches_of_names
    (both.ran.names_of_topEntry both.pre.plain both.of both.reachable both.wellFormed known here there run top)
    (both.ran'.names_of_topEntry both.pre.plain both.of' both.reachable both.wellFormed known here there' run' top')

/-- Before a block on entry to which the variable is live, what is on top matches. -/
theorem exit_matches (onto : (cfg f.blocks).Edge u w) (known : v ∈ collectVars f.blocks)
    (isLive : w ∈ liveIn f.blocks v) : Matches out out' ⟨v, (exit u).top v⟩ ⟨v, (exit' u).top v⟩ := by
  have node := (both.wellFormed.successors_lt onto).1
  have reached := both.reachable u node
  obtain ⟨t, top⟩ := (both.pruned v).exists_topExit reached
  have top' : TopExit 0 tree'.idom (site f.blocks v) (Placed f.blocks .minimal tree' v) u t := by
    by_cases clear : site f.blocks v u = none
    · rw [topExit_of_clear clear] at top ⊢
      refine (both.pruned v).topEntry_of_live (both.minimal v)
        (fun w => mem_iteratedFrontier_of_agree both.of' both.reachable both.wellFormed both.of both.agree')
        (fun w => both.covers) reached ?_ top
      exact (both.pruned v).live_back onto (.inr isLive) clear
    · rw [topExit_of_site clear] at top ⊢
      exact top
  exact both.matches_of_names
    (both.ran.names_of_topExit both.pre.plain both.of both.reachable both.wellFormed known node top)
    (both.ran'.names_of_topExit both.pre.plain both.of' both.reachable both.wellFormed known node top')

omit both in
/-- A phi of a renamed form was placed, with an operand for each predecessor. -/
theorem origin {mode : PhiMode} (ran : Ran f.blocks mode tree out entry exit) (pre : PreSsa f) {dest : VariableRef}
    {ops : List (ℕ × VariableRef)} (phi : HasPhi out y dest ops) :
    dest.var ∈ collectVars f.blocks ∧ Placed f.blocks mode tree dest.var y ∧ y < f.blocks.length ∧
      ops.map Prod.fst = (cfg f.blocks).predecessors y ∧ ∀ op ∈ ops, op.2.var = dest.var := by
  obtain ⟨b, there, member⟩ := phi
  have less : y < f.blocks.length := ran.length ▸ (List.getElem?_eq_some_iff.mp there).1
  have here := List.getElem?_eq_getElem less
  obtain ⟨c, phis, rest, mid, same, run⟩ := ran.block here
  obtain rfl := Option.some.inj (there.symm.trans same)
  obtain ⟨isVar, preds, vars⟩ := run.phi_origin (pre.plain _ (List.mem_of_getElem? here)) member
  exact ⟨(mem_phiVars.mp isVar).1, (mem_phiVars.mp isVar).2, less, preds, vars⟩

omit both in
/-- The operand of a phi at one place: filled in with what is on top at the end of its predecessor, if it is
the first operand for it. -/
theorem operand_spec {mode : PhiMode} (ran : Ran f.blocks mode tree out entry exit) (pre : PreSsa f) {dest : VariableRef}
    {ops : List (ℕ × VariableRef)} (phi : HasPhi out y dest ops) {j : ℕ} {op : ℕ × VariableRef} (here : ops[j]? = some op) :
    (cfg f.blocks).Edge op.1 y ∧ op.2.var = dest.var ∧
      (op.2.version.isSome ↔ op.1 ∉ ((cfg f.blocks).predecessors y).take j) ∧
      (op.2.version = none ∨ op.2.version = (exit op.1).top dest.var) := by
  obtain ⟨-, -, -, preds, vars⟩ := origin ran pre phi
  obtain ⟨b, there, isPhi⟩ := phi
  have member := List.mem_of_getElem? here
  have isPred : op.1 ∈ ops.map Prod.fst := List.mem_map_of_mem member
  have edge : (cfg f.blocks).Edge op.1 y := mem_predecessors.mp (preds ▸ isPred)
  have less : op.1 < f.blocks.length := by
    obtain ⟨block, inBlocks, -⟩ := mem_successors.mp edge
    exact (List.getElem?_eq_some_iff.mp inBlocks).1
  refine ⟨edge, vars op member, ?_, ?_⟩
  · obtain ⟨op', member', same, -, versioned⟩ := ran.filled op.1 less y edge b there dest ops isPhi isPred
    rw [(ran.firsts b (List.mem_of_getElem? there) dest ops isPhi).isSome_iff here ⟨op', member', same, versioned⟩, preds]
  · rw [← vars op member]
    exact (ran.operands there dest ops isPhi op member).imp_right Eq.symm

/-- The operands at one place of phis for one variable in one block match. -/
theorem operand_matches {dest dest' : VariableRef} {ops ops' : List (ℕ × VariableRef)} (phi : HasPhi out y dest ops)
    (phi' : HasPhi out' y dest' ops') (same : dest.var = dest'.var) {j : ℕ} {op op' : ℕ × VariableRef} (here : ops[j]? = some op)
    (here' : ops'[j]? = some op') : Matches out out' op.2 op'.2 := by
  obtain ⟨known, placed, -, preds, -⟩ := origin both.ran both.pre phi
  obtain ⟨-, -, -, preds', -⟩ := origin both.ran' both.pre phi'
  obtain ⟨edge, var, filled, version⟩ := operand_spec both.ran both.pre phi here
  obtain ⟨-, var', filled', version'⟩ := operand_spec both.ran' both.pre phi' here'
  have samePred : op.1 = op'.1 := by
    have first : (ops.map Prod.fst)[j]? = some op.1 := by simp [here]
    have second : (ops'.map Prod.fst)[j]? = some op'.1 := by simp [here']
    rw [preds, ← preds', second] at first
    exact (Option.some.inj first).symm
  have isLive : y ∈ liveIn f.blocks dest.var := placed.2.resolve_left (by simp)
  have refs : op.2 = ⟨dest.var, op.2.version⟩ ∧ op'.2 = ⟨dest.var, op'.2.version⟩ := by
    constructor
    · rw [← var]
    · rw [same, ← var']
  rw [refs.1, refs.2]
  by_cases first : op.1 ∈ ((cfg f.blocks).predecessors y).take j
  · have isNone : op.2.version = none := by simpa [first] using filled
    have isNone' : op'.2.version = none := by simpa [samePred ▸ first] using filled'
    rw [isNone, isNone']
    exact .unversioned dest.var
  · have isSome := filled.mpr first
    have isSome' := filled'.mpr (samePred ▸ first)
    rw [version.resolve_left (Option.isSome_iff_ne_none.mp isSome), version'.resolve_left (Option.isSome_iff_ne_none.mp isSome'),
      ← samePred, ← same]
    exact both.exit_matches edge known isLive

/-- The two forms are alike. -/
theorem alike_matches : Alike out out' (Matches out out') where
  single := both.single
  single' := both.single'
  var related := by
    cases related with
    | unversioned v | incoming v => rfl
    | definition _ _ _ _ same => exact same
    | phi _ _ same => exact same
  alike {ref ref'} related := by
    cases related with
    | unversioned v =>
      refine .incoming (fun defined => ?_) fun defined => ?_
      · simpa using (both.versioned _ defined).1
      · simpa using (both.versioned' _ defined).1
    | incoming v => exact .incoming (fun defined => (both.versioned _ defined).2 rfl) fun defined => (both.versioned' _ defined).2 rfl
    | definition here here' defines defines' same => exact .definition here here' defines defines'
    | @phi b ops ops' ref ref' phi phi' same =>
      obtain ⟨-, -, -, preds, -⟩ := origin both.ran both.pre phi
      obtain ⟨-, -, -, preds', -⟩ := origin both.ran' both.pre phi'
      have sameLength : ops.length = ops'.length := by simpa using congrArg List.length (preds.trans preds'.symm)
      refine .phi phi phi' (fun op member => ?_) fun op' member => ?_
      · obtain ⟨j, less, rfl⟩ := List.mem_iff_getElem.mp member
        have there := List.getElem?_eq_getElem (sameLength ▸ less)
        exact ⟨_, List.mem_of_getElem? there, both.operand_matches phi phi' same (List.getElem?_eq_getElem less) there⟩
      · obtain ⟨j, less, rfl⟩ := List.mem_iff_getElem.mp member
        have there := List.getElem?_eq_getElem (sameLength ▸ less)
        exact ⟨_, List.mem_of_getElem? there, both.operand_matches phi phi' same there (List.getElem?_eq_getElem less)⟩

/-- What a block reads matches. -/
theorem uses_match (there : out[y]? = some b) (there' : out'[y]? = some b') :
    List.Forall₂ (Matches out out') (plainUses b) (plainUses b') := by
  have less : y < f.blocks.length := both.ran.length ▸ (List.getElem?_eq_some_iff.mp there).1
  have here := List.getElem?_eq_getElem less
  obtain ⟨c, c', phis, rest, mid, phis', rest', mid', same, same', run, run'⟩ := both.exists_block here
  obtain rfl := Option.some.inj (there.symm.trans same)
  obtain rfl := Option.some.inj (there'.symm.trans same')
  have member := List.mem_of_getElem? here
  have plain := both.pre.plain _ member
  obtain ⟨term, rewriting, last, found, isTerm⟩ := run.terminator
  obtain ⟨term', rewriting', last', found', isTerm'⟩ := run'.terminator
  obtain rfl := Option.some.inj (last.symm.trans last')
  have known : ∀ {v}, readsFirst v f.blocks[y].terminator f.blocks[y].statements = true →
      v ∈ collectVars f.blocks := fun reads => mem_collectVars.mpr ⟨_, member, mem_blockVars_of_readsFirst reads⟩
  obtain ⟨statements, atEnd⟩ := forall₂_uses run.renamesRest run'.renamesRest plain
    (fun st inside ref source => (both.pre.unversioned _ member).1 st inside ref (List.mem_append_left _ source))
    (@Matches.unversioned out out')
    (fun k r r' defines defines' same => .definition there there' (run.plainDefs_eq plain ▸ defines)
      (run'.plainDefs_eq plain ▸ defines') same)
    (fun v reads => both.mid_matches here there there' run run' (known reads)
      ((mem_liveIn both.wellFormed).mpr ⟨y, mem_upwardUses.mpr ⟨_, here, reads⟩, .refl⟩))
  unfold plainUses
  rw [run.plainStatements_eq plain, run'.plainStatements_eq plain, isTerm, isTerm']
  refine List.rel_append statements ?_
  simp only [Option.map_some, Option.getD_some, Terminator.srcVars_mapSrc, List.forall₂_map_left_iff,
    List.forall₂_map_right_iff, List.forall₂_same]
  intro ref source
  have bare : ref.version = none := (both.pre.unversioned _ member).2 term last ref source
  have used := mem_rewrite found ref source
  have used' := mem_rewrite found' ref source
  rw [← use_eq_useTerm bare] at used used'
  refine use_related used used' bare (.unversioned ref.var) fun isLocal => atEnd ref.var ?_
  simp only [last, Option.map_some, Option.getD_some]
  exact List.mem_map.mpr ⟨ref, List.mem_filter.mpr ⟨source, by simp [isLocal]⟩, rfl⟩

end BothRan

end Joint

section Read

variable {f : FunctionData} {mode : PhiMode} {tree : DominatorTree} {out : List BasicBlockData} {entry exit : ℕ → SsaRename}
  {y : ℕ} {v : Variable} {dest dest' : VariableRef} {ops ops' : List (ℕ × VariableRef)}

/-- A variable that is read first is read with the version on top at the start. -/
theorem mem_uses_of_readsFirst {term : Option Terminator} {sts sts' : List Statement} {names final : SsaRename}
    (renamed : names.statements sts = some (sts', final)) (plain : ∀ st ∈ sts, st.isPhi = false)
    (reads : readsFirst v term sts = true) :
    ⟨v, names.top v⟩ ∈ sts'.flatMap Statement.srcVars ∨
      v ∈ (term.map termVars).getD [] ∧ final.top v = names.top v := by
  induction sts generalizing names sts' with
  | nil =>
    obtain ⟨rfl, rfl⟩ : sts' = [] ∧ final = names := by simpa [SsaRename.statements, eq_comm] using renamed
    exact .inr ⟨by simpa [readsFirst] using reads, rfl⟩
  | cons st sts ih =>
    simp only [SsaRename.statements, Option.bind_eq_bind, Option.bind_eq_some_iff, Option.some.injEq, Prod.mk.injEq,
      Prod.exists] at renamed
    obtain ⟨head, names₁, renamed₁, tail, final, rest, rfl, rfl⟩ := renamed
    simp only [readsFirst, Bool.or_eq_true, decide_eq_true_eq, Bool.and_eq_true] at reads
    rw [List.flatMap_cons]
    rcases reads with here | ⟨kept, later⟩
    · obtain ⟨ref, member, rfl⟩ := List.mem_map.mp here
      obtain ⟨source, isOpen⟩ := List.mem_filter.mp member
      obtain ⟨rewriting, found, srcs⟩ := srcVars_statement renamed₁ (plain st (.head _))
      have used := found ref source
      have skips : (ref.version.isSome || ref.var.isGlobal) = false := by simpa using isOpen
      simp only [SsaRename.use, skips, Bool.false_eq_true, if_false, Option.map_eq_some_iff] at used
      obtain ⟨i, top, isRef⟩ := used
      refine .inl (List.mem_append_left _ ?_)
      rw [srcs, top]
      exact List.mem_map.mpr ⟨ref, source, isRef.symm⟩
    · obtain ⟨tops, vars, -, -⟩ := top_statement renamed₁
      have same : names₁.top v = names.top v := by
        rw [tops v, topAfter_of_notMem]
        rwa [vars]
      refine (ih rest (fun s member => plain s (.tail _ member)) later).imp (fun inside => ?_) fun last => ?_
      · exact List.mem_append_right _ (same ▸ inside)
      · exact ⟨last.1, last.2.trans same⟩

variable (ran : Ran f.blocks mode tree out entry exit) (pre : PreSsa f)
include ran pre

/-- A block has one phi for a variable. -/
theorem phi_unique (phi : HasPhi out y dest ops) (phi' : HasPhi out y dest' ops') (same : dest.var = dest'.var) : dest = dest' := by
  have less := (BothRan.origin ran pre phi).2.2.1
  obtain ⟨b, there, member⟩ := phi
  obtain ⟨b', there', member'⟩ := phi'
  obtain rfl := Option.some.inj (there.symm.trans there')
  have here := List.getElem?_eq_getElem less
  obtain ⟨c, phis, rest, mid, sameBlock, run⟩ := ran.block here
  obtain rfl := Option.some.inj (there.symm.trans sameBlock)
  have plain := pre.plain _ (List.mem_of_getElem? here)
  obtain ⟨-, vars, -, -⟩ := top_statements run.renamesPhis
  have nodup : ((phis.flatMap Statement.dstVars).map VariableRef.var).Nodup := by
    rw [vars, definedVars_phis]
    exact List.nodup_reverse.mpr (nodup_collectVars.filter _)
  have inside : ∀ {dest ops}, .phi dest ops ∈ b.statements → dest ∈ phis.flatMap Statement.dstVars := fun {dest ops} member =>
    List.mem_flatMap.mpr ⟨_, run.bare_mem_phis plain member, List.mem_singleton_self dest⟩
  exact List.inj_on_of_nodup_map nodup (inside member) (inside member') same

omit pre in
/-- Every definition has a version. -/
theorem versioned_of_ran : ∀ d ∈ definitions out, d.version.isSome := by
  intro d member
  obtain ⟨b, inOut, member⟩ := List.mem_flatMap.mp member
  obtain ⟨st, inside, isDst⟩ := List.mem_flatMap.mp member
  obtain ⟨y, there⟩ := List.mem_iff_getElem?.mp inOut
  have less : y < f.blocks.length := ran.length ▸ (List.getElem?_eq_some_iff.mp there).1
  obtain ⟨c, phis, rest, mid, same, run⟩ := ran.block (List.getElem?_eq_getElem less)
  obtain rfl := Option.some.inj (there.symm.trans same)
  have listed : bare st ∈ phis ++ rest := run.statements ▸ List.mem_map_of_mem inside
  rw [← dstVars_bare] at isDst
  rcases List.mem_append.mp listed with inPhis | inRest
  · exact (top_statements run.renamesPhis).2.2.1 d (List.mem_flatMap.mpr ⟨_, inPhis, isDst⟩)
  · exact (top_statements run.renamesRest).2.2.1 d (List.mem_flatMap.mpr ⟨_, inRest, isDst⟩)

variable (of : DominatorTree.Of (cfg f.blocks) tree) (reachable : (cfg f.blocks).AllReachable)
  (wellFormed : (cfg f.blocks).WellFormed)
include of reachable wellFormed

/-- Where a token leads through operands, its version does. -/
theorem reads_of_leads {t : Token ℕ} (known : v ∈ collectVars f.blocks)
    (leads : ReflTransGen (Operand (cfg f.blocks).Edge 0 tree.idom (site f.blocks v) (Placed f.blocks mode tree v)) t (.phi y))
    {version : Option ℕ} (names : Names out v version t) :
    ∃ dest ops, HasPhi out y dest ops ∧ dest.var = v ∧ ReflTransGen (PhiReads out) ⟨v, version⟩ dest := by
  induction leads using ReflTransGen.head_induction_on generalizing version with
  | refl =>
    obtain ⟨-, ops, phi⟩ := names
    exact ⟨_, ops, phi, rfl, .refl⟩
  | head step _ ih =>
    obtain ⟨u, w, rfl, edge, top⟩ := step
    obtain ⟨-, ops, phi⟩ := names
    have node := (wellFormed.successors_lt edge).1
    obtain ⟨-, -, -, preds, vars⟩ := BothRan.origin ran pre phi
    have isPred : u ∈ ops.map Prod.fst := preds ▸ mem_predecessors.mpr edge
    obtain ⟨b, there, isPhi⟩ := id phi
    obtain ⟨op, member, rfl, last, -⟩ := ran.filled u node w edge b there _ ops isPhi isPred
    have sameVar : op.2.var = v := vars op member
    obtain ⟨dest, ops', phi', isV, onward⟩ := ih (ran.names_of_topExit pre.plain of reachable wellFormed known node top)
    refine ⟨dest, ops', phi', isV, .head ⟨w, ops, phi, List.mem_map.mpr ⟨op, member, ?_⟩⟩ onward⟩
    rw [← sameVar, last]

/-- A phi for a variable that is live there is read by a use. -/
theorem readThrough_of_live (phi : HasPhi out y dest ops) (isLive : y ∈ liveIn f.blocks dest.var) :
    ReadThrough out dest := by
  obtain ⟨known, placed, -, -, -⟩ := BothRan.origin ran pre phi
  obtain ⟨b, reads, walk⟩ := (mem_liveIn wellFormed).mp isLive
  have clearWalk : ReflTransGen (fun a c => (cfg f.blocks).Edge a c ∧ site f.blocks dest.var a = none) y b :=
    ReflTransGen.mono (fun a c step => ⟨step.1, site_eq_none.mpr step.2⟩) _ _ walk
  obtain ⟨t, top, leads⟩ := (placement of reachable wellFormed mode dest.var).exists_leads placed clearWalk
    (.inr ((mem_liveIn wellFormed).mpr ⟨b, reads, .refl⟩))
  obtain ⟨b₀, here, readsFirst⟩ := mem_upwardUses.mp reads
  obtain ⟨c, phis, rest, mid, there, run⟩ := ran.block here
  have plain := pre.plain _ (List.mem_of_getElem? here)
  obtain ⟨dest', ops', phi', same, chain⟩ := reads_of_leads ran pre of reachable wellFormed known leads
    (ran.names_of_topEntry pre.plain of reachable wellFormed known here there run top)
  obtain rfl := phi_unique ran pre phi phi' same.symm
  refine ⟨c, List.mem_of_getElem? there, ⟨dest.var, mid.top dest.var⟩, ?_, chain⟩
  rw [plainUses, run.plainStatements_eq plain]
  rcases mem_uses_of_readsFirst run.renamesRest plain readsFirst with inside | ⟨last, sameTop⟩
  · exact List.mem_append_left _ inside
  · refine List.mem_append_right _ ?_
    obtain ⟨term, rewriting, isTerm, found, isTerm'⟩ := run.terminator
    rw [isTerm] at last
    obtain ⟨ref, member, sameVar⟩ := List.mem_map.mp last
    obtain ⟨source, isLocal⟩ := List.mem_filter.mp member
    have used := mem_rewrite found ref source
    have notGlobal : ref.var.isGlobal = false := by simpa using isLocal
    simp only [SsaRename.useTerm, notGlobal, Bool.false_eq_true, if_false, Option.map_eq_some_iff] at used
    obtain ⟨i, isTop, isRef⟩ := used
    rw [isTerm', ← sameTop, ← sameVar, isTop]
    simp only [Option.map_some, Option.getD_some, Terminator.srcVars_mapSrc]
    exact List.mem_map.mpr ⟨ref, source, isRef.symm⟩

end Read

/-- Two forms of one function: the phis of the first are those of the second that a use reads through phis, and
every use stands for the same definitions in both. -/
structure FormsAgree (pruned minimal : List BasicBlockData) : Prop where
  length : pruned.length = minimal.length
  among : ∀ b dest ops, HasPhi pruned b dest ops → ∃ dest' ops', HasPhi minimal b dest' ops' ∧ dest'.var = dest.var
  read_iff : ∀ b dest ops, HasPhi minimal b dest ops →
    ((∃ dest' ops', HasPhi pruned b dest' ops' ∧ dest'.var = dest.var) ↔ ReadThrough minimal dest)
  uses : ∀ (b : ℕ) block block', pruned[b]? = some block → minimal[b]? = some block' →
    List.Forall₂ (fun use use' => use.var = use'.var ∧ ∀ d, Resolves pruned use d ↔ Resolves minimal use' d)
      (plainUses block) (plainUses block')

/-- What relates the two forms by a relation between their versions. -/
structure Compared (pruned minimal : List BasicBlockData) (C : VariableRef → VariableRef → Prop) : Prop
    extends Alike pruned minimal C where
  length : pruned.length = minimal.length
  uses : ∀ (b : ℕ) block block', pruned[b]? = some block → minimal[b]? = some block' →
    List.Forall₂ C (plainUses block) (plainUses block')
  among : ∀ b dest ops, HasPhi pruned b dest ops → ∃ dest' ops', HasPhi minimal b dest' ops' ∧ C dest dest'
  unique : ∀ b dest dest' ops ops', HasPhi minimal b dest ops → HasPhi minimal b dest' ops' → dest.var = dest'.var → dest = dest'
  read : ∀ b dest ops, HasPhi pruned b dest ops → ReadThrough pruned dest

theorem exists_related {α β : Type} {R : α → β → Prop} {items : List α} {items' : List β} (related : List.Forall₂ R items items')
    {x : α} (member : x ∈ items) : ∃ y ∈ items', R x y := by
  induction related with
  | nil => simp at member
  | cons here _ ih =>
    rcases List.mem_cons.mp member with rfl | later
    · exact ⟨_, .head _, here⟩
    · obtain ⟨y, inside, there⟩ := ih later
      exact ⟨y, .tail _ inside, there⟩

namespace Compared

variable {pruned minimal : List BasicBlockData} {C : VariableRef → VariableRef → Prop} (compared : Compared pruned minimal C)
include compared

theorem exists_use' {use : VariableRef} {b : ℕ} {block : BasicBlockData} (here : pruned[b]? = some block)
    (member : use ∈ plainUses block) : ∃ block', minimal[b]? = some block' ∧ ∃ use' ∈ plainUses block', C use use' := by
  have less : b < minimal.length := compared.length ▸ (List.getElem?_eq_some_iff.mp here).1
  have there := List.getElem?_eq_getElem less
  exact ⟨_, there, exists_related (compared.uses b block _ here there) member⟩

theorem exists_use {use' : VariableRef} {b : ℕ} {block' : BasicBlockData} (here' : minimal[b]? = some block')
    (member : use' ∈ plainUses block') : ∃ block, pruned[b]? = some block ∧ ∃ use ∈ plainUses block, C use use' := by
  have less : b < pruned.length := compared.length ▸ (List.getElem?_eq_some_iff.mp here').1
  have there := List.getElem?_eq_getElem less
  exact ⟨_, there, exists_related (compared.uses b _ block' there here').flip member⟩

theorem formsAgree : FormsAgree pruned minimal where
  length := compared.length
  among b dest ops phi := by
    obtain ⟨dest', ops', phi', related⟩ := compared.among b dest ops phi
    exact ⟨dest', ops', phi', (compared.var related).symm⟩
  read_iff b dest ops phi := by
    constructor
    · rintro ⟨destP, opsP, phiP, same⟩
      obtain ⟨block, member, use, isUse, leads⟩ := compared.read b destP opsP phiP
      obtain ⟨i, here⟩ := List.mem_iff_getElem?.mp member
      obtain ⟨block', here', use', isUse', related⟩ := compared.exists_use' here isUse
      obtain ⟨dest', related', leads'⟩ := compared.toAlike.reads related leads
      obtain ⟨sameVar, ops', phi'⟩ := compared.toAlike.hasPhi related' phiP
      obtain rfl := compared.unique b dest dest' ops ops' phi phi' (same.symm.trans sameVar.symm)
      exact ⟨block', List.mem_of_getElem? here', use', isUse', leads'⟩
    · rintro ⟨block', member, use', isUse', leads⟩
      obtain ⟨i, here'⟩ := List.mem_iff_getElem?.mp member
      obtain ⟨block, here, use, isUse, related⟩ := compared.exists_use here' isUse'
      obtain ⟨destP, related', -⟩ := compared.toAlike.symm.reads related leads
      obtain ⟨sameVar, opsP, phiP⟩ := compared.toAlike.symm.hasPhi related' phi
      exact ⟨destP, opsP, phiP, sameVar⟩
  uses b block block' here here' := (compared.uses b block block' here here').imp fun _ _ related =>
    ⟨compared.var related, fun _ => compared.toAlike.resolves_iff related⟩

end Compared

section Bind

/-- Push the binding of one parameter to the front of the start block. -/
def bindParam (idx : ℕ) (blocks : List BasicBlockData) : List BasicBlockData :=
  blocks.modify 0 fun block => { block with statements := entryBinding idx :: block.statements }

/-- Version 0 of a parameter. -/
def incomingParam (idx : ℕ) : VariableRef := ⟨.paramVar idx, some 0⟩

variable {blocks : List BasicBlockData} {idx b : ℕ} {block : BasicBlockData} {ref : VariableRef} {ops : List (ℕ × VariableRef)}

theorem bindParams_succ (n : ℕ) (blocks : List BasicBlockData) : bindParams (n + 1) blocks = bindParam n (bindParams n blocks) := by
  simp [bindParams, bindParam, List.range_succ]

theorem getElem?_bindParam : (bindParam idx blocks)[b]? = blocks[b]?.map fun block =>
    if b = 0 then { block with statements := entryBinding idx :: block.statements } else block := by
  rw [bindParam, List.getElem?_modify]
  simp only [eq_comm, Option.map_eq_map]

theorem plainDefs_bound (idx : ℕ) (block : BasicBlockData) :
    plainDefs { block with statements := entryBinding idx :: block.statements } = incomingParam idx :: plainDefs block := rfl

theorem plainUses_bound (idx : ℕ) (block : BasicBlockData) :
    plainUses { block with statements := entryBinding idx :: block.statements } = .new (.paramVar idx) :: plainUses block := rfl

theorem definitions_bindParam (nonempty : blocks ≠ []) : definitions (bindParam idx blocks) = incomingParam idx :: definitions blocks := by
  cases blocks with
  | nil => exact absurd rfl nonempty
  | cons start rest => rfl

theorem hasPhi_bindParam : HasPhi (bindParam idx blocks) b ref ops ↔ HasPhi blocks b ref ops := by
  unfold HasPhi
  rw [getElem?_bindParam]
  cases blocks[b]? with
  | none => simp
  | some block =>
    simp only [Option.map_some, Option.some.injEq, exists_eq_left']
    split_ifs
    · simp [entryBinding]
    · rfl

theorem phiReads_bindParam : PhiReads (bindParam idx blocks) = PhiReads blocks := by
  funext ref ref'
  simp only [PhiReads, hasPhi_bindParam]

/-- Both forms bind a parameter in the same way. -/
theorem Compared.bindParam {pruned minimal : List BasicBlockData} {C : VariableRef → VariableRef → Prop}
    (compared : Compared pruned minimal C) (nonempty : pruned ≠ []) (fresh : incomingParam idx ∉ definitions pruned)
    (fresh' : incomingParam idx ∉ definitions minimal)
    (fixed : ∀ {ref ref'}, C ref ref' → (ref = incomingParam idx ↔ ref' = incomingParam idx))
    (related : C (.new (.paramVar idx)) (.new (.paramVar idx))) :
    Compared (bindParam idx pruned) (Ssa.bindParam idx minimal) C := by
  have nonempty' : minimal ≠ [] := by
    rintro rfl
    exact nonempty (List.eq_nil_of_length_eq_zero compared.length)
  have at0 : ∀ {blocks : List BasicBlockData}, blocks ≠ [] → ∃ block, (Ssa.bindParam idx blocks)[0]? = some block ∧
      (plainDefs block)[0]? = some (incomingParam idx) := by
    intro blocks nonempty
    have first := List.getElem?_eq_getElem (List.length_pos_of_ne_nil nonempty)
    exact ⟨_, by rw [getElem?_bindParam, first, Option.map_some, if_pos rfl], by rw [plainDefs_bound]; rfl⟩
  have moved : ∀ {blocks : List BasicBlockData} {b k : ℕ} {block : BasicBlockData} {ref : VariableRef}, blocks[b]? = some block →
      (plainDefs block)[k]? = some ref → ∃ block', (Ssa.bindParam idx blocks)[b]? = some block' ∧
        (plainDefs block')[if b = 0 then k + 1 else k]? = some ref := by
    intro blocks b k block ref here defines
    refine ⟨_, by rw [getElem?_bindParam, here, Option.map_some], ?_⟩
    split_ifs
    · rw [plainDefs_bound, List.getElem?_cons_succ, defines]
    · exact defines
  refine ⟨⟨?_, ?_, compared.var, fun {ref ref'} related => ?_⟩, ?_, ?_, ?_, ?_, ?_⟩
  · rw [definitions_bindParam nonempty]
    exact List.nodup_cons.mpr ⟨fresh, compared.single⟩
  · rw [definitions_bindParam nonempty']
    exact List.nodup_cons.mpr ⟨fresh', compared.single'⟩
  · cases compared.alike related with
    | incoming undefined undefined' =>
      by_cases bound : ref = incomingParam idx
      · obtain rfl := (fixed related).mp bound
        subst bound
        obtain ⟨block, here, defines⟩ := at0 nonempty
        obtain ⟨block', here', defines'⟩ := at0 nonempty'
        exact .definition here here' defines defines'
      · refine .incoming ?_ ?_
        · rw [definitions_bindParam nonempty, List.mem_cons]
          exact not_or.mpr ⟨bound, undefined⟩
        · rw [definitions_bindParam nonempty', List.mem_cons]
          exact not_or.mpr ⟨fun bound' => bound ((fixed related).mpr bound'), undefined'⟩
    | definition here here' defines defines' =>
      obtain ⟨block, there, moves⟩ := moved here defines
      obtain ⟨block', there', moves'⟩ := moved here' defines'
      exact .definition there there' moves moves'
    | phi phi phi' forth back => exact .phi (hasPhi_bindParam.mpr phi) (hasPhi_bindParam.mpr phi') forth back
  · simp [Ssa.bindParam, compared.length]
  · intro b block block' here here'
    rw [getElem?_bindParam, Option.map_eq_some_iff] at here here'
    obtain ⟨c, there, rfl⟩ := here
    obtain ⟨c', there', rfl⟩ := here'
    have rest := compared.uses b c c' there there'
    split_ifs
    · rw [plainUses_bound, plainUses_bound]
      exact .cons related rest
    · exact rest
  · intro b dest ops phi
    simp only [hasPhi_bindParam] at phi ⊢
    exact compared.among b dest ops phi
  · intro b dest dest' ops ops' phi phi'
    rw [hasPhi_bindParam] at phi phi'
    exact compared.unique b dest dest' ops ops' phi phi'
  · intro b dest ops phi
    rw [hasPhi_bindParam] at phi
    obtain ⟨block, member, use, isUse, leads⟩ := compared.read b dest ops phi
    obtain ⟨i, here⟩ := List.mem_iff_getElem?.mp member
    have there : (Ssa.bindParam idx pruned)[i]? = some (if i = 0 then
        { block with statements := entryBinding idx :: block.statements } else block) := by
      rw [getElem?_bindParam, here, Option.map_some]
    refine ⟨_, List.mem_of_getElem? there, use, ?_, by rwa [phiReads_bindParam]⟩
    split_ifs
    · rw [plainUses_bound]
      exact .tail _ isUse
    · exact isUse

theorem bindParams_ne_nil (nonempty : blocks ≠ []) (n : ℕ) : bindParams n blocks ≠ [] := by
  induction n with
  | zero => exact nonempty
  | succ n ih => simpa [bindParams_succ, bindParam, List.modify_eq_nil_iff] using ih

/-- The definitions once the parameters are bound. -/
theorem mem_definitions_bindParams (nonempty : blocks ≠ []) (n : ℕ) {d : VariableRef} (member : d ∈ definitions (bindParams n blocks)) :
    d ∈ definitions blocks ∨ ∃ idx < n, d = incomingParam idx := by
  induction n with
  | zero => exact .inl member
  | succ n ih =>
    rw [bindParams_succ, definitions_bindParam (bindParams_ne_nil nonempty n)] at member
    rcases List.mem_cons.mp member with rfl | old
    · exact .inr ⟨n, by omega, rfl⟩
    · refine (ih old).imp_right ?_
      rintro ⟨idx, less, same⟩
      exact ⟨idx, by omega, same⟩

end Bind

section Conversion

variable {f g : FunctionData}

/-- The two forms compare by the versions that match. -/
theorem BothRan.compared {tree tree' : DominatorTree} {out out' : List BasicBlockData} {entry exit entry' exit' : ℕ → SsaRename}
    (both : BothRan f tree tree' out out' entry exit entry' exit') : Compared out out' (Matches out out') where
  toAlike := both.alike_matches
  length := both.ran.length.trans both.ran'.length.symm
  uses b block block' there there' := both.uses_match there there'
  among b dest ops phi := by
    obtain ⟨known, placed, less, -, -⟩ := BothRan.origin both.ran both.pre phi
    obtain ⟨c', phis', rest', mid', there', run'⟩ := both.ran'.block (List.getElem?_eq_getElem less)
    obtain ⟨-, ops', member⟩ := run'.exists_phi (mem_phiVars.mpr ⟨known, both.covers placed⟩)
    have phi' : HasPhi out' b ⟨dest.var, mid'.top dest.var⟩ ops' := ⟨c', there', member⟩
    exact ⟨_, ops', phi', .phi phi phi' rfl⟩
  unique b dest dest' ops ops' phi phi' same := phi_unique both.ran' both.pre phi phi' same
  read b dest ops phi := by
    obtain ⟨-, placed, -, -, -⟩ := BothRan.origin both.ran both.pre phi
    exact readThrough_of_live both.ran both.pre both.of both.reachable both.wellFormed phi (placed.2.resolve_left (by simp))

/-- The bindings of the parameters keep the comparison. -/
theorem BothRan.compared_bindParams {tree tree' : DominatorTree} {out out' : List BasicBlockData}
    {entry exit entry' exit' : ℕ → SsaRename} (both : BothRan f tree tree' out out' entry exit entry' exit') (n : ℕ) :
    Compared (bindParams n out) (bindParams n out') (Matches out out') := by
  have nonempty : out ≠ [] := fun empty => both.nonempty (List.eq_nil_of_length_eq_zero (by rw [← both.ran.length, empty]; rfl))
  have nonempty' : out' ≠ [] := fun empty => both.nonempty (List.eq_nil_of_length_eq_zero (by rw [← both.ran'.length, empty]; rfl))
  have notZero : ∀ {idx}, incomingParam idx ∉ definitions out := fun defined => (both.versioned _ defined).2 rfl
  have notZero' : ∀ {idx}, incomingParam idx ∉ definitions out' := fun defined => (both.versioned' _ defined).2 rfl
  have fixed : ∀ {idx ref ref'}, Matches out out' ref ref' → (ref = incomingParam idx ↔ ref' = incomingParam idx) := by
    intro idx ref ref' related
    cases related with
    | unversioned v | incoming v => rfl
    | definition here here' defines defines' same =>
      have defined := mem_definitions_of_plainDefs here (List.mem_of_getElem? defines)
      have defined' := mem_definitions_of_plainDefs here' (List.mem_of_getElem? defines')
      constructor
      · rintro rfl
        exact absurd defined notZero
      · rintro rfl
        exact absurd defined' notZero'
    | phi phi phi' same =>
      constructor
      · rintro rfl
        exact absurd phi.mem_definitions notZero
      · rintro rfl
        exact absurd phi'.mem_definitions notZero'
  induction n with
  | zero => exact both.compared
  | succ n ih =>
    have fresh : ∀ {blocks : List BasicBlockData}, blocks ≠ [] → incomingParam n ∉ definitions blocks →
        incomingParam n ∉ definitions (bindParams n blocks) := by
      intro blocks some new defined
      rcases mem_definitions_bindParams some n defined with old | ⟨idx, less, same⟩
      · exact new old
      · have : n = idx := by simpa [incomingParam] using same
        omega
    rw [bindParams_succ, bindParams_succ]
    exact ih.bindParam (bindParams_ne_nil nonempty n) (fresh nonempty notZero) (fresh nonempty' notZero') fixed (.unversioned _)

/-- Both walks over a completed function run, and their results compare. -/
theorem exists_bothRan (pre : PreSsa g) (nonempty : g.blocks ≠ []) (reachable : (cfg g.blocks).AllReachable) (hash hash' : HashOrder) :
    ∃ place placed out names place' placed' out' names' tree tree' entry exit entry' exit',
      new g.blocks .pruned hash = some (place, placed) ∧ SsaRename.new placed place = some (out, names) ∧
      new g.blocks .minimal hash' = some (place', placed') ∧ SsaRename.new placed' place' = some (out', names') ∧
      BothRan g tree tree' out out' entry exit entry' exit' := by
  have wellFormed := pre.wellFormed nonempty
  obtain ⟨tree, returned, of⟩ := DominatorTree.new_spec wellFormed reachable rfl hash
  obtain ⟨tree', returned', of'⟩ := DominatorTree.new_spec wellFormed reachable rfl hash'
  obtain ⟨place, placed, out, names, entry, exit, isPlaced, renamed, ran⟩ := exists_ran pre nonempty reachable .pruned returned of
  obtain ⟨place', placed', out', names', entry', exit', isPlaced', renamed', ran'⟩ :=
    exists_ran pre nonempty reachable .minimal returned' of'
  obtain ⟨rank, clock, numbered⟩ := numbered_new (pre.unversioned.placePhis isPlaced) renamed
  obtain ⟨rank', clock', numbered'⟩ := numbered_new (pre.unversioned.placePhis isPlaced') renamed'
  have versioned := versioned_of_ran ran
  have versioned' := versioned_of_ran ran'
  refine ⟨place, placed, out, names, place', placed', out', names', tree, tree', entry, exit, entry', exit', isPlaced, renamed,
    isPlaced', renamed', pre, nonempty, reachable, of, of', ?_, ran, ran', ?_, ?_, ?_, ?_⟩
  · exact DominatorTree.new_agree wellFormed reachable rfl returned returned'
  · simpa [List.filter_eq_self.mpr versioned] using numbered.distinct
  · simpa [List.filter_eq_self.mpr versioned'] using numbered'.distinct
  · exact fun d member => ⟨versioned d member, numbered.nonzero d member⟩
  · exact fun d member => ⟨versioned' d member, numbered'.nonzero d member⟩

/-- Pruned form agrees with minimal form. For a verified function without versions or phis, whose blocks are
reachable once pruned on request, both conversions go through; the phis of the pruned form are the phis of the minimal
form that a use reads through other phis, and every use stands for the same definitions in both. -/
theorem pruned_agrees_minimal (verified : f.verify = []) (unversioned : Unversioned f.blocks)
    (plain : ∀ block ∈ f.blocks, ∀ st ∈ block.statements, st.isPhi = false) (prune : Bool)
    (reachable : prune = true ∨ (cfg f.blocks).AllReachable) (hash hash' : HashOrder) :
    ∃ pruned minimal, transformWith f prune .pruned hash = some pruned ∧ transformWith f prune .minimal hash' = some minimal ∧
      FormsAgree pruned.blocks minimal.blocks := by
  by_cases nonempty : f.blocks = []
  · refine ⟨f, f, by simp [transformWith, nonempty], by simp [transformWith, nonempty], ?_⟩
    rw [nonempty]
    constructor <;> simp [HasPhi]
  · have pre : PreSsa f := ⟨(CirVerify.visitFunctionData_eq_nil.mp verified).2, unversioned, plain⟩
    obtain ⟨f₁, isPruned, pre₁, nonempty₁, reachable₁⟩ : ∃ f₁, (if prune then pruneUnreachableNodes f else some f) = some f₁ ∧
        PreSsa f₁ ∧ f₁.blocks ≠ [] ∧ (cfg f₁.blocks).AllReachable := by
      cases prune with
      | false => exact ⟨f, rfl, pre, nonempty, reachable.resolve_left (by simp)⟩
      | true =>
        obtain ⟨f₁, pruned, pre₁, nonempty₁, reachable₁, -⟩ := pre.exists_prune nonempty
        exact ⟨f₁, pruned, pre₁, nonempty₁, reachable₁⟩
    obtain ⟨f₂, completed, completes⟩ := exists_complete pre₁.ok.finished nonempty₁
    have nonempty₂ : f₂.blocks ≠ [] := List.ne_nil_of_length_pos (by rw [completes.length]; omega)
    obtain ⟨place, placed, out, names, place', placed', out', names', tree, tree', entry, exit, entry', exit', isPlaced, renamed,
      isPlaced', renamed', both⟩ := exists_bothRan (completes.preSsa pre₁) nonempty₂ (completes.allReachable nonempty₁ reachable₁)
        hash hash'
    have converts : ∀ {mode hash place placed out names}, PhiPlace.new f₂.blocks mode hash = some (place, placed) →
        SsaRename.new placed place = some (out, names) →
        transformWith f prune mode hash = some { f₂ with blocks := bindParams f₂.params.length out } := by
      intro mode hash place placed out names isPlaced renamed
      unfold transformWith
      rw [if_neg (by simpa using nonempty)]
      cases prune <;>
        simp only [if_true, Bool.false_eq_true, if_false] at isPruned ⊢ <;>
        simp only [Option.bind_eq_bind, isPruned, completed, isPlaced, renamed, Option.bind_some]
    exact ⟨_, _, converts isPlaced renamed, converts isPlaced' renamed', (both.compared_bindParams _).formsAgree⟩

end Conversion

section Looping

/-- A loop that copies the parameter in `x`, which is returned, and sets `y`, which no one reads. -/
private def looping : FunctionData where
  name := "f"
  params := [.copied]
  returnArity := 1
  blocks :=
    [{ statements := [.assign (.ofRef (.new (.localVar 0))) [.path (.ofRef (.new (.paramVar 0)))]], terminator := some (.goto [1]) },
      { statements := [], terminator := some (.goto [2, 3]) },
      { statements :=
          [.assign (.ofRef (.new (.localVar 1))) [.path (.ofRef (.new (.localVar 0)))],
            .assign (.ofRef (.new (.localVar 0))) [.path (.ofRef (.new (.localVar 0)))]]
        terminator := some (.goto [1]) },
      { statements := [], terminator := some (.ret [.path (.ofRef (.new (.localVar 0)))]) }]
  locals := ["x", "y"]

theorem pruned_agrees_minimal_looping :
    ∃ pruned minimal, transformWith looping true .pruned ⟨id, fun nodes => .refl nodes⟩ = some pruned ∧
      transformWith looping true .minimal ⟨List.reverse, fun nodes => nodes.reverse_perm⟩ = some minimal ∧
        FormsAgree pruned.blocks minimal.blocks := by
  refine pruned_agrees_minimal (by decide +kernel) (fun block member => ⟨?_, ?_⟩) (by decide +kernel) true (.inl rfl) _ _
  · revert block
    decide +kernel
  · intro term last ref mentioned
    have named : ∀ block ∈ looping.blocks, ∀ ref ∈ (block.terminator.map Terminator.srcVars).getD [], ref.version = none := by
      decide +kernel
    exact named block member ref (by rwa [Option.mem_def.mp last])

end Looping

end Ctadl.Ssa
