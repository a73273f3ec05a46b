import Ctadl.Index.Rules
import Mathlib.Data.Set.Finite.List

/-! # The active domain

Every row a run derives is built from atoms the facts name: functions, instructions, variables, roots,
and pieces of fact paths or of admissible paths. The atoms are finitely many, so the rows are, and
every order of firing reaches saturation after finitely many firings that change anything.
-/

namespace Ctadl.Index

open Facts Datalog

/-- A column of a row. -/
inductive Atom where
  | func (f : FunctionId)
  | insn (i : InsnId)
  | var (v : FlowVariable)
  | path (p : Path)
  | root (r : Root)
  | index (n : FormalIndex)
  | target (t : CallTargetObject)
  | str (s : Str)
  | offset (m : Int64)
  | decision (d : Decision)
  | set (ds : DecisionSet)
  | global (g : GlobalId)
  | pair (kind : IntentPairKind)

namespace Row

/-- The columns of a row, in order. -/
def atoms : Row → List Atom
  | summary f n1 p1 n2 p2 => [.func f, .root n1, .path p1, .root n2, .path p2]
  | locals f v p a q => [.func f, .var v, .path p, .root a, .path q]
  | assignLike f v1 p1 v2 p2 => [.func f, .var v1, .path p1, .var v2, .path p2]
  | callTargetAssignLike f v p tgt => [.func f, .var v, .path p, .target tgt]
  | constReaches f v p str => [.func f, .var v, .path p, .str str]
  | resolvedCall f insn callee => [.func f, .insn insn, .func callee]
  | fnptrCall f insn callee => [.func f, .insn insn, .func callee]
  | intentPair f insn recv kind => [.func f, .insn insn, .func recv, .pair kind]
  | intentFrame f => [.func f]
  | criticalSummary f n p => [.func f, .index n, .path p]
  | criticalCall f => [.func f]
  | resolvent f n p tgt d => [.func f, .index n, .path p, .target tgt, .decision d]
  | establishesDirect f d caller insn => [.func f, .decision d, .func caller, .insn insn]
  | establishesVia f d caller insn up => [.func f, .decision d, .func caller, .insn insn, .decision up]
  | callSite caller insn callee => [.func caller, .insn insn, .func callee]
  | globalMention f g => [.func f, .global g]
  | reachVp f v p => [.func f, .var v, .path p]
  | localsKey f v key rest p => [.func f, .var v, .path key, .path rest, .path p]
  | localsKeyWild f v key rest p => [.func f, .var v, .path key, .path rest, .path p]
  | localsWild f v key m p => [.func f, .var v, .path key, .offset m, .path p]
  | assignWild f v2 key m v1 p1 => [.func f, .var v2, .path key, .offset m, .var v1, .path p1]
  | edgeSplit f v2 key rest v1 p1 => [.func f, .var v2, .path key, .path rest, .var v1, .path p1]
  | edgeSplitWild f v2 key rest v1 p1 => [.func f, .var v2, .path key, .path rest, .var v1, .path p1]
  | extDst f v1 p13 v2 p23 => [.func f, .var v1, .path p13, .var v2, .path p23]
  | extFml f v1 p1 v2 p2 adj tail => [.func f, .var v1, .path p1, .var v2, .path p2, .offset adj, .path tail]
  | aliasFlow f n1 p1 n2 p2 => [.func f, .root n1, .path p1, .root n2, .path p2]
  | criticalArg g arg key rest p f insn n =>
    [.func g, .var arg, .path key, .path rest, .path p, .func f, .insn insn, .index n]
  | criticalReach g n2 p2 f insn n p => [.func g, .index n2, .path p2, .func f, .insn insn, .index n, .path p]
  | contextSummarySet f ds => [.func f, .set ds]
  | setMember f d ds => [.func f, .decision d, .set ds]
  | contextSummaryTop f ds => [.func f, .set ds]
  | setEstablishesDirect f ds caller insn => [.func f, .set ds, .func caller, .insn insn]
  | setEstablishesVia f ds caller insn up => [.func f, .set ds, .func caller, .insn insn, .decision up]
  | contextSummaryD f d n1 p1 n2 p2 => [.func f, .decision d, .root n1, .path p1, .root n2, .path p2]
  | topSummaryFunc f => [.func f]
  | tagClosureFunc f => [.func f]
  | callTargetVp f v p => [.func f, .var v, .path p]
  | callTargetKey f v key rest p => [.func f, .var v, .path key, .path rest, .path p]
  | callTargetKeyWild f v key rest p => [.func f, .var v, .path key, .path rest, .path p]
  | callTargetEdge f v1 p13 v2 p23 => [.func f, .var v1, .path p13, .var v2, .path p23]
  | globalRead f g p => [.func f, .global g, .path p]
  | globalLabelKey g key p => [.global g, .path key, .path p]
  | globalLabelRead f g p => [.func f, .global g, .path p]

theorem eq_of_atoms {a b : Row} (ctor : a.ctorIdx = b.ctorIdx) (same : a.atoms = b.atoms) : a = b := by
  cases a <;> cases b <;> cases ctor <;> simpa [atoms] using same

/-- No relation has more columns than this. -/
theorem length_atoms_le (r : Row) : r.atoms.length ≤ 8 := by
  cases r <;> simp [atoms]

theorem ctorIdx_lt (r : Row) : r.ctorIdx < 43 := by
  cases r <;> exact of_decide_eq_true rfl

/-- Finitely many rows have all their columns in a finite set. -/
theorem finite_of_atoms {active : Set Atom} (finite : active.Finite) :
    {r : Row | ∀ a ∈ r.atoms, a ∈ active}.Finite := by
  have columns : {l : List Atom | (∀ a ∈ l, a ∈ active) ∧ l.length ≤ 8}.Finite := by
    have bounded := finite.to_subtype
    refine ((List.finite_length_le active 8).image (List.map Subtype.val)).subset ?_
    rintro l ⟨members, short⟩
    exact ⟨l.attach.map fun a => ⟨a.val, members a.val a.property⟩, by simpa using short, by simp⟩
  refine Set.Finite.of_finite_image (f := fun r => (r.ctorIdx, r.atoms)) ?_ ?_
  · refine ((Set.finite_lt_nat 43).prod columns).subset ?_
    rintro _ ⟨r, members, rfl⟩
    exact ⟨r.ctorIdx_lt, members, r.length_atoms_le⟩
  · rintro a - b - same
    exact eq_of_atoms (Prod.ext_iff.mp same).1 (Prod.ext_iff.mp same).2

end Row

namespace IndexFacts

variable (facts : IndexFacts)

/-- The variables the facts name. -/
def vars : List FlowVariable :=
  facts.formalParam.map (·.2.1) ++ facts.actualParam.map (·.2.2.var) ++
    (facts.assign.flatMap fun (_, dst, src) => [dst.var, src.var]) ++ facts.callTargetAssign.map (·.2.1.var) ++
    facts.constStrAssign.map (·.2.1.var) ++ facts.calleeInfo.map (·.2.1.var) ++
    facts.globalFlow.flatMap fun (dst, _, src, _) => [.global dst, .global src]

/-- The roots the facts name. -/
def roots : List Root := facts.vars.filterMap (·.asRoot) ++ facts.summary.flatMap fun (_, n1, _, n2, _) => [n1, n2]

/-- The formals the facts name. -/
def indices : List FormalIndex := facts.roots.filterMap (·.asFormal) ++ facts.actualParam.map (·.2.1)

/-- The functions the facts name, and the global frame. -/
def funcs : List FunctionId :=
  GLOBAL_FRAME :: (facts.formalParam.map (·.1) ++ facts.actualParam.map (·.1.funcId) ++
    (facts.call.flatMap fun (site, callee) => [site.funcId, callee]) ++ facts.assign.map (·.1.funcId) ++
    facts.callTargetAssign.map (·.1.funcId) ++ facts.constStrAssign.map (·.1.funcId) ++
    facts.calleeInfo.map (·.1.funcId) ++ facts.calleeResolvents.map (·.2.2) ++ facts.summary.map (·.1) ++
    facts.intentFrame ++ facts.intentSend.map (·.1) ++ facts.intentFilter.map (·.2.2.2) ++
    facts.intentComponent.map (·.2.2))

/-- The instructions the facts name. -/
def insns : List InsnId :=
  facts.actualParam.map (·.1.insnId) ++ facts.call.map (·.1.insnId) ++ facts.calleeInfo.map (·.1.insnId) ++
    facts.intentSend.map (·.2.1)

/-- The paths the facts name, beyond the admissible ones. -/
def namedPaths : List Path :=
  (facts.actualParam.map (·.2.2.path)) ++ (facts.assign.flatMap fun (_, dst, src) => [dst.path, src.path]) ++
    facts.callTargetAssign.map (·.2.1.path) ++ facts.constStrAssign.map (·.2.1.path) ++
    facts.calleeInfo.map (·.2.1.path) ++ (facts.summary.flatMap fun (_, _, p1, _, p2) => [p1, p2]) ++
    facts.globalFlow.flatMap fun (_, p1, _, p2) => [p1, p2]

def targets : List CallTargetObject := facts.callTargetAssign.map (·.2.2)

def strings : List Str := facts.constStrAssign.map (·.2.2)

end IndexFacts

namespace EngineInput

variable (input : EngineInput)

/-- A path some rule may name: a piece of an admissible path or of a fact's path. -/
def ActivePath (p : Path) : Prop :=
  p.segs = [] ∨ ∃ q ∈ input.pathSet.members ++ input.facts.namedPaths, p.segs <:+: q.segs

def ActiveVar (v : FlowVariable) : Prop :=
  v ∈ input.facts.vars ∨ (∃ insn ∈ input.facts.insns, ∃ n ∈ input.facts.indices, v = .callArg insn n) ∨
    ∃ g, Root.global g ∈ input.facts.roots ∧ v = .global g

def ActiveDecision (d : Decision) : Prop :=
  d.formal ∈ input.facts.indices ∧ input.ActivePath d.path ∧ d.target ∈ input.facts.targets

/-- The atoms of this run's rows. -/
def Active : Atom → Prop
  | .func f => f ∈ input.facts.funcs
  | .insn i => i ∈ input.facts.insns
  | .var v => input.ActiveVar v
  | .path p => input.ActivePath p
  | .root r => r ∈ input.facts.roots
  | .index n => n ∈ input.facts.indices
  | .target t => t ∈ input.facts.targets
  | .str str => str ∈ input.facts.strings
  | .offset _ => True
  | .decision d => input.ActiveDecision d
  | .set ds => ∀ d ∈ ds.ids, input.ActiveDecision d
  | .global g => .global g ∈ input.facts.roots
  | .pair _ => True

private theorem finite_mem {α : Type*} (l : List α) : {x | x ∈ l}.Finite := List.finite_toSet l

private theorem finite_pieces (l : List Path) : {p : Path | p.segs = [] ∨ ∃ q ∈ l, p.segs <:+: q.segs}.Finite := by
  have pieces : {segs | segs ∈ [] :: l.flatMap fun q => q.segs.sublists}.Finite := finite_mem _
  refine Set.Finite.of_finite_image (f := Path.segs) (pieces.subset ?_) fun a _ b _ same => Facts.Path.ext same
  rintro _ ⟨p, blank | ⟨q, base, piece⟩, rfl⟩
  · exact List.mem_cons.mpr (.inl blank)
  · exact List.mem_cons_of_mem _ (List.mem_flatMap.mpr ⟨q, base, List.mem_sublists.mpr piece.sublist⟩)

theorem finite_activePath : {p | input.ActivePath p}.Finite := finite_pieces _

theorem finite_activeDecision : {d | input.ActiveDecision d}.Finite := by
  refine Set.Finite.of_finite_image (f := fun d => (d.formal, d.path, d.target))
    (((finite_mem input.facts.indices).prod
      (input.finite_activePath.prod (finite_mem input.facts.targets))).subset ?_) ?_
  · rintro _ ⟨d, ⟨index, path, target⟩, rfl⟩
    exact ⟨index, path, target⟩
  · rintro ⟨_, _, _⟩ - ⟨_, _, _⟩ - same
    simpa using same

private theorem finite_globals (l : List Root) : {g | Root.global g ∈ l}.Finite :=
  Set.Finite.preimage (f := Root.global) (fun _ _ _ _ => Root.global.inj) (finite_mem l)

theorem finite_activeVar : {v | input.ActiveVar v}.Finite := by
  refine ((finite_mem input.facts.vars).union ((Set.Finite.image2 FlowVariable.callArg (finite_mem input.facts.insns)
    (finite_mem input.facts.indices)).union ((finite_globals input.facts.roots).image FlowVariable.global))).subset ?_
  rintro v (fact | ⟨insn, site, n, index, rfl⟩ | ⟨g, global, rfl⟩)
  · exact .inl fact
  · exact .inr (.inl ⟨insn, site, n, index, rfl⟩)
  · exact .inr (.inr ⟨g, global, rfl⟩)

/-- Finitely many sets have their explicit members in a finite set. -/
theorem finite_sets {decisions : Set Decision} (finite : decisions.Finite) :
    {ds : DecisionSet | ∀ d ∈ ds.ids, d ∈ decisions}.Finite := by
  classical
  have explicit : {members : Finset Decision | ↑members ⊆ decisions}.Finite := by
    refine (finite.toFinset.powerset : Set (Finset Decision)).toFinite.subset ?_
    intro members sub
    simpa using sub
  refine ((Set.Finite.image2 DecisionSet.explicit explicit Set.finite_univ).union
    ((Set.finite_univ (α := Bool)).image DecisionSet.top)).subset ?_
  rintro (⟨members, k⟩ | k) active
  · exact .inl ⟨members, active, k, trivial, rfl⟩
  · exact .inr ⟨k, trivial, rfl⟩

private theorem finite_offsets : (Set.univ : Set Int64).Finite := by
  have : Finite Int64 := Finite.of_injective (fun m : Int64 => m.toBitVec.toFin) fun a b same =>
    Int64.toBitVec_inj.mp (BitVec.eq_of_toFin_eq same)
  exact Set.finite_univ

theorem finite_active : {a | input.Active a}.Finite := by
  have pairs : (Set.univ : Set IntentPairKind).Finite := by
    refine (Set.toFinite {.explicit, .implicit}).subset ?_
    rintro (_ | _) - <;> simp
  refine (((finite_mem input.facts.funcs).image .func).union <| ((finite_mem input.facts.insns).image .insn).union <|
    (input.finite_activeVar.image .var).union <| (input.finite_activePath.image .path).union <|
    ((finite_mem input.facts.roots).image .root).union <| ((finite_mem input.facts.indices).image .index).union <|
    ((finite_mem input.facts.targets).image .target).union <| ((finite_mem input.facts.strings).image .str).union <|
    (finite_offsets.image .offset).union <| (input.finite_activeDecision.image .decision).union <|
    ((finite_sets input.finite_activeDecision).image .set).union <|
    ((finite_globals input.facts.roots).image .global).union (pairs.image .pair)).subset ?_
  rintro a active
  cases a <;> simp_all [Active]

/-- The condition names active decisions only. -/
def Within (c : CondOf input.hybridContext) : Prop :=
  ∀ x, c.val.level = .ofMembers x → ∀ d ∈ x, input.ActiveDecision d

section Within

variable {input}

@[simp] theorem within_top : input.Within ⊤ := by
  intro x level
  exact absurd level (by simp [CondOf.top_def, CondOf.always, Cond.level])

theorem within_ofDecision {d : Decision} (active : input.ActiveDecision d) :
    input.Within (.ofDecision _ d) := by
  intro x level
  have members : {d} = x := by
    simpa [CondOf.ofDecision, Cond.ofSet, DecisionSet.singleton, DecisionSet.intern, DecisionSet.isTop,
      Cond.level] using level
  simpa [← members] using active

@[simp] theorem within_resolveCond {d : Decision} (active : input.ActiveDecision d) :
    input.Within (input.resolveCond d) := by
  unfold resolveCond
  split_ifs
  · exact within_top
  · exact within_ofDecision active

theorem Within.set {c : CondOf input.hybridContext} {ds : DecisionSet} (within : input.Within c)
    (set : c.val.set = some ds) : ∀ d ∈ ds.ids, input.ActiveDecision d := by
  obtain ⟨⟨⟨members, k⟩ | k⟩ | _, wf⟩ := c
  · obtain rfl : DecisionSet.explicit members k = ds := by simpa [Cond.set] using set
    exact within members rfl
  · obtain rfl : DecisionSet.top k = ds := by simpa [Cond.set] using set
    simp [DecisionSet.ids]
  · simp [Cond.set] at set

theorem Within.sup {a b : CondOf input.hybridContext} (left : input.Within a) (right : input.Within b) :
    input.Within (a ⊔ b) := by
  intro x level
  obtain ⟨y, z, levelA, levelB, rfl⟩ := Cond.join_members a.property b.property level
  intro d member
  rcases Finset.mem_union.mp member with member | member
  · exact left y levelA d member
  · exact right z levelB d member

theorem Within.composes {a b c : CondOf input.hybridContext} (left : input.Within a) (right : input.Within b)
    (both : CondOf.Composes a b c) : input.Within c := by
  intro x level d member
  obtain ⟨y, explicit | explicit, sub⟩ := Cond.meet_members (CondOf.composes_iff.mp both ▸ level)
  · exact left y explicit d (sub member)
  · exact right y explicit d (sub member)

end Within

end EngineInput

end Ctadl.Index
