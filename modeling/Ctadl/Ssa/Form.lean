import Ctadl.Ssa.Reaching

/-! # Static single assignment form

The output of the conversion with pruned phis: every version other than the incoming one is defined once, the
definition of a version that is used dominates the use, and a phi has one operand for each way into its block, filled
in once for each predecessor with a version whose definition dominates that predecessor.
-/

namespace Ctadl.Ssa

open Function Relation Cir Ctadl.Graph Flowgraph SsaRename

/-- A version is defined in a block: by a phi, or as one of the other definitions, given by its place among them. -/
inductive DefinedAt (blocks : List BasicBlockData) (ref : VariableRef) (b : ℕ) : Option ℕ → Prop
  | phi {ops : List (ℕ × VariableRef)} (phi : HasPhi blocks b ref ops) : DefinedAt blocks ref b none
  | plain {k : ℕ} {block : BasicBlockData} (here : blocks[b]? = some block) (defines : (plainDefs block)[k]? = some ref) :
    DefinedAt blocks ref b (some k)

/-- Every way to a point of a block passes the definition of a version, if it is not the incoming one. -/
def Dominated (blocks : List BasicBlockData) (ref : VariableRef) (b : ℕ) (before : ℕ → Prop) : Prop :=
  ref.version = some 0 ∨ ∃ c place, DefinedAt blocks ref c place ∧ Dominates (cfg blocks).Edge 0 c b ∧
    (c = b → ∀ k ∈ place, before k)

/-- Blocks in static single assignment form, with the uses of the blocks they come from. -/
structure SsaForm (blocks out : List BasicBlockData) : Prop where
  cfg : cfg out = cfg blocks
  single : (definitions out).Nodup
  versioned : ∀ d ∈ definitions out, d.version.isSome ∧ d.version ≠ some 0
  uses : ∀ {b b₀ b₁}, blocks[b]? = some b₀ → out[b]? = some b₁ → List.Forall₂ (fun use used => used.var = use.1.var ∧
    (used.var.isGlobal = false → Dominated out used b (· < use.2))) (uses b₀) (plainUses b₁)
  operands : ∀ {b dest ops}, HasPhi out b dest ops → ops.map Prod.fst = (Ssa.cfg out).predecessors b ∧
    ∀ {j op}, ops[j]? = some op → op.2.var = dest.var ∧ (op.2.version.isSome ↔ op.1 ∉ ((Ssa.cfg out).predecessors b).take j) ∧
      (op.2.version.isSome → Dominated out op.2 op.1 fun _ => True)

section Tokens

variable {N D : Type} {start : N} {parent : N → N} {siteOf : N → Option D} {phi : N → Prop} {u : N} {t : Token N}

/-- The token on top at the end of a block is for something in a block above it. -/
theorem TopExit.above (top : TopExit start parent siteOf phi u t) :
    t = .entry ∨ ∃ c, (t = .phi c ∨ t = .last c) ∧ Above parent start c u := by
  induction top with
  | last => exact .inr ⟨_, .inr rfl, .refl⟩
  | phi => exact .inr ⟨_, .inl rfl, .refl⟩
  | entry => exact .inl rfl
  | up _ _ inner _ ih =>
    rcases ih with incoming | ⟨c, names, above⟩
    · exact .inl incoming
    · exact .inr ⟨c, names, .up inner above⟩

end Tokens

namespace PrunedRan

variable {f : FunctionData} {tree : DominatorTree} {out : List BasicBlockData} {entry exit : ℕ → SsaRename} {v : Variable}
  {b : ℕ} {b₀ b₁ : BasicBlockData} {version : Option ℕ} {t : Token ℕ} (run : PrunedRan f tree out entry exit)
include run

/-- Renaming keeps the graph. -/
theorem cfg_eq : cfg out = cfg f.blocks := by
  have same (n : ℕ) : out[n]?.map BasicBlockData.successors = f.blocks[n]?.map BasicBlockData.successors := by
    cases here : f.blocks[n]? with
    | none => simpa [run.ran.length] using here
    | some b₀ =>
      obtain ⟨b₁, phis, rest, mid, there, ran⟩ := run.ran.block here
      obtain ⟨term, rewriting, last, -, last'⟩ := ran.terminator
      rw [there]
      cases term <;> simp [BasicBlockData.successors, last, last', Terminator.mapSrc, Terminator.successors]
  simp only [cfg, run.ran.length, same]

/-- What a token names is defined in the block it is for. -/
theorem definedAt (names : Names out v version t) (isFor : t = .phi b ∨ t = .last b) :
    ∃ place, DefinedAt out ⟨v, version⟩ b place := by
  rcases isFor with rfl | rfl
  · obtain ⟨-, ops, phi⟩ := names
    exact ⟨none, .phi phi⟩
  · obtain ⟨b₁, k, there, defines, -⟩ := run.names_last names
    exact ⟨some k, .plain there defines⟩

/-- A block above another dominates it. -/
theorem dominates {c : ℕ} (node : b < f.blocks.length) (above : Above tree.idom 0 c b) : Dominates (cfg out).Edge 0 c b := by
  rw [run.cfg_eq]
  exact above.dominates run.of.table (run.reachable b node)

theorem dominated_use (here : f.blocks[b]? = some b₀) (there : out[b]? = some b₁) {use : VariableRef × ℕ} {used : VariableRef}
    (member : use ∈ uses b₀) (isLocal : use.1.var.isGlobal = false) {phis rest : List Statement} {mid : SsaRename}
    (ran : BlockRan f.blocks .pruned tree b (entry b) (exit b) b₀ b₁ phis rest mid)
    (isUsed : used = ⟨use.1.var, topAfter use.1.var ((plainDefs b₁).take use.2) (mid.top use.1.var)⟩) :
    Dominated out used b (· < use.2) := by
  obtain ⟨ref, k⟩ := use
  have node := (List.getElem?_eq_some_iff.mp here).1
  simp only at isLocal isUsed ⊢
  rw [topAfter_take, run.vars_eq here there] at isUsed
  cases last : lastBefore (definedVars b₀.statements) ref.var k with
  | some j =>
    have isV := getElem?_of_lastBefore last
    rw [← run.vars_eq here there, List.getElem?_map, Option.map_eq_some_iff] at isV
    obtain ⟨dest, defines, sameVar⟩ := isV
    simp only [last, defines, Option.bind_some] at isUsed
    obtain rfl : used = dest := by rw [isUsed, ← sameVar]
    refine .inr ⟨b, some j, .plain there defines, .refl b, ?_⟩
    rintro - _ ⟨⟩
    exact lt_of_lastBefore last
  | none =>
    simp only [last] at isUsed
    subst isUsed
    have reads := run.readsFirst_of_first here member isLocal last
    have known := mem_collectVars.mpr ⟨b₀, List.mem_of_getElem? here, mem_blockVars_of_readsFirst reads⟩
    obtain ⟨t, top⟩ := (run.placement ref.var).exists_topEntry (run.reachable b node)
    have names := run.ran.names_of_topEntry run.pre.plain run.of run.reachable run.wellFormed known here there ran
      (topEntry_lastSite.mp top)
    rcases top with ⟨-, rfl⟩ | ⟨-, rfl, rfl⟩ | ⟨-, inner, top⟩
    · obtain ⟨-, ops, phi⟩ := names
      exact .inr ⟨b, none, .phi phi, .refl b, by simp⟩
    · exact .inl names
    · rcases TopExit.above top with rfl | ⟨c, isFor, above⟩
      · exact .inl names
      · obtain ⟨place, defined⟩ := run.definedAt names isFor
        refine .inr ⟨c, place, defined, run.dominates node (.up inner above), ?_⟩
        rintro rfl
        exact (Above.not_parent run.of.table inner (run.reachable c node) above).elim

/-- The conversion gives static single assignment form. -/
theorem ssaForm : SsaForm f.blocks out where
  cfg := run.cfg_eq
  single := run.single
  versioned := run.versioned
  uses := by
    intro b b₀ b₁ here there
    obtain ⟨phis, rest, mid, ran, related⟩ := run.forall₂_uses here there
    refine (List.forall₂_iff_zip.mpr ⟨related.length_eq, fun {use used} both => ?_⟩)
    obtain ⟨sameVar, isUsed⟩ := (List.forall₂_iff_zip.mp related).2 both
    refine ⟨sameVar, fun isLocal => ?_⟩
    rw [sameVar] at isLocal
    exact run.dominated_use here there (List.of_mem_zip both).1 isLocal ran (isUsed isLocal)
  operands := by
    intro b dest ops phi
    obtain ⟨known, -, -, preds, -⟩ := BothRan.origin run.ran run.pre phi
    rw [run.cfg_eq]
    refine ⟨preds, fun {j op} at? => ?_⟩
    obtain ⟨edge, sameVar, filled, isTop⟩ := BothRan.operand_spec run.ran run.pre phi at?
    refine ⟨sameVar, filled, fun isSome => ?_⟩
    have isTop := isTop.resolve_left fun isNone => by simp [isNone] at isSome
    have node := (run.wellFormed.successors_lt edge).1
    obtain ⟨t, top⟩ := (run.placement dest.var).exists_topExit (run.reachable op.1 node)
    have names := run.ran.names_of_topExit run.pre.plain run.of run.reachable run.wellFormed known node (topExit_lastSite.mp top)
    rw [← isTop, ← sameVar] at names
    rcases TopExit.above top with rfl | ⟨c, isFor, above⟩
    · exact .inl names
    · obtain ⟨place, defined⟩ := run.definedAt names isFor
      exact .inr ⟨c, place, defined, run.dominates node above, fun _ _ _ => trivial⟩

end PrunedRan

/-- The blocks of a verified function come out in static single assignment form, apart from the bindings of the parameters,
with every order of the hash tables and whether or not the blocks are pruned first. -/
theorem transform_ssaForm {f : FunctionData} (verified : f.verify = []) (unversioned : Unversioned f.blocks)
    (plain : ∀ block ∈ f.blocks, ∀ st ∈ block.statements, st.isPhi = false) (reachable : (cfg f.blocks).AllReachable)
    (prune : Bool) (hash : HashOrder) : ∃ g, transformWith f prune .pruned hash = some g ∧
      SsaForm (completedBlocks f) (withoutBindings f.params.length g.blocks) := by
  by_cases nonempty : f.blocks = []
  · refine ⟨f, by simp [transformWith, nonempty], ?_⟩
    have completed : completedBlocks f = [] := by simp [completedBlocks, complete, nonempty]
    rw [completed, nonempty]
    exact ⟨rfl, by simp [withoutBindings, definitions], by simp [withoutBindings, definitions], by simp,
      fun phi => by obtain ⟨block, here, -⟩ := phi; simp [withoutBindings] at here⟩
  · have pre : PreSsa f := ⟨(CirVerify.visitFunctionData_eq_nil.mp verified).2, unversioned, plain⟩
    obtain ⟨f₂, tree, out, entry, exit, sameBlocks, -, run, converted⟩ := exists_transformed pre nonempty reachable prune hash
    refine ⟨_, converted, ?_⟩
    rw [sameBlocks, withoutBindings_bindParams]
    exact run.ssaForm

theorem transform_ssaForm_swapping : ∃ g, transformWith swapping true .pruned ⟨id, fun nodes => .refl nodes⟩ = some g ∧
    SsaForm (completedBlocks swapping) (withoutBindings swapping.params.length g.blocks) :=
  transform_ssaForm verified_swapping unversioned_swapping plain_swapping reachable_swapping true _

end Ctadl.Ssa
