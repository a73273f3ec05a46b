import Ctadl.Graph.Frontier
import Ctadl.Ssa.Numbering

/-! # The renaming walk

What the walk down the dominator tree does to every block. A block is renamed once, with the stacks its
parent in the tree left behind, and the operand a phi has for a predecessor gets the version on top at the
end of that predecessor. A visit leaves the stacks as it found them.

`bare` forgets the versions of phi operands: these are filled in while other blocks are visited, and
nothing else of a block changes then.
-/

namespace Ctadl.Ssa

open Function Cir Ctadl.Graph Flowgraph

/-- A phi without the versions of its operands. -/
def bare : Statement → Statement
  | .phi dest operands => .phi dest (operands.map fun operand => (operand.1, .new operand.2.var))
  | .assign dest sources => .assign dest sources
  | .callAssign info style rets args => .callAssign info style rets args
  | .nop => .nop

@[simp]
theorem dstVars_bare (st : Statement) : (bare st).dstVars = st.dstVars := by cases st <;> rfl

@[simp]
theorem isPhi_bare (st : Statement) : (bare st).isPhi = st.isPhi := by cases st <;> rfl

theorem bare_of_not_phi {st : Statement} (plain : st.isPhi = false) : bare st = st := by
  cases st with
  | phi dest operands => simp [Statement.isPhi] at plain
  | assign _ _ | callAssign _ _ _ _ | nop => rfl

theorem bare_setDst (st : Statement) (refs : List VariableRef) : bare (st.setDst refs) = (bare st).setDst refs := by
  cases st <;> rfl

/-- The variables a list of statements defines, once for each definition. -/
def definedVars (sts : List Statement) : List Variable := sts.flatMap fun st => st.dstVars.map VariableRef.var

theorem definedVars_bare (sts : List Statement) : definedVars (sts.map bare) = definedVars sts := by
  simp [definedVars, List.flatMap_map]

namespace SsaRename

variable {names names' names'' : SsaRename} {vars : List Variable} {st : Statement}

theorem statement_bare (names : SsaRename) (st : Statement) :
    names.statement (bare st) = (names.statement st).map (Prod.map bare id) := by
  unfold statement
  simp only [isPhi_bare]
  split_ifs with phi
  · simp only [Option.bind_eq_bind, Option.bind_some, dstVars_bare]
    cases names.defineAll st.dstVars with
    | none => rfl
    | some result => simp [bare_setDst]
  · have plain : st.isPhi = false := by simpa using phi
    rw [bare_of_not_phi plain]
    simp only [Option.bind_eq_bind]
    cases rewrite names.use st.srcVars with
    | none => rfl
    | some rewriting =>
      simp only [Option.map_some, Option.bind_some]
      cases names.defineAll (st.mapSrc rewriting).dstVars with
      | none => rfl
      | some result =>
        have still : ((st.mapSrc rewriting).setDst result.1).isPhi = false := by
          rw [isPhi_setDst, isPhi_mapSrc, plain]
        simp [bare_of_not_phi still]

/-- Renaming does not read the operands of phis. -/
theorem statements_bare (names : SsaRename) (sts : List Statement) :
    names.statements (sts.map bare) = (names.statements sts).map (Prod.map (List.map bare) id) := by
  induction sts generalizing names with
  | nil => rfl
  | cons st rest ih =>
    simp only [List.map_cons, statements, statement_bare, Option.bind_eq_bind]
    cases names.statement st with
    | none => rfl
    | some first =>
      simp only [Option.map_some, Option.bind_some, Prod.map, id, ih]
      cases first.2.statements rest <;> rfl

theorem operand_eq_some {x : ℕ} {ops ops' : List (ℕ × VariableRef)} (filled : names.operand x ops = some ops') :
    (∀ op ∈ ops', op ∈ ops ∨ op.1 = x ∧ names.top op.2.var = op.2.version ∧ op.2.version.isSome) ∧
      (∀ op ∈ ops, op.1 ≠ x → op ∈ ops') ∧
      (x ∈ ops.map Prod.fst → ∃ op ∈ ops', op.1 = x ∧ names.top op.2.var = op.2.version ∧ op.2.version.isSome) ∧
      ops'.map (fun op => (op.1, op.2.var)) = ops.map fun op => (op.1, op.2.var) := by
  induction ops generalizing ops' with
  | nil =>
    obtain rfl : ops' = [] := by simpa [operand, eq_comm] using filled
    simp
  | cons op ops ih =>
    obtain ⟨pred, ref⟩ := op
    unfold operand at filled
    split_ifs at filled with same
    · obtain ⟨i, top, rfl⟩ := Option.map_eq_some_iff.mp filled
      have new : names.top (ref.withVersion i).var = (ref.withVersion i).version ∧ (ref.withVersion i).version.isSome :=
        ⟨top, rfl⟩
      refine ⟨fun op member => ?_, fun op member other => ?_, fun _ => ⟨_, .head _, same, new⟩, rfl⟩
      · rcases List.mem_cons.mp member with rfl | later
        · exact .inr ⟨same, new⟩
        · exact .inl (.tail _ later)
      · rcases List.mem_cons.mp member with rfl | later
        · exact absurd same other
        · exact .tail _ later
    · obtain ⟨rest, others, rfl⟩ := Option.map_eq_some_iff.mp filled
      obtain ⟨origin, kept, new, shape⟩ := ih others
      refine ⟨fun op member => ?_, fun op member other => ?_, fun wanted => ?_, by simp [shape]⟩
      · rcases List.mem_cons.mp member with rfl | later
        · exact .inl (.head _)
        · exact (origin op later).imp_left (.tail _)
      · rcases List.mem_cons.mp member with rfl | later
        · exact .head _
        · exact .tail _ (kept op later other)
      · rcases List.mem_cons.mp wanted with here | later
        · exact absurd here.symm same
        · obtain ⟨op, inside, facts⟩ := new later
          exact ⟨op, .tail _ inside, facts⟩

theorem operands_bare {x : ℕ} {sts sts' : List Statement} (filled : names.operands x sts = some sts') :
    sts'.map bare = sts.map bare := by
  induction sts generalizing sts' with
  | nil =>
    obtain rfl : sts' = [] := by simpa [operands, eq_comm] using filled
    rfl
  | cons st sts ih =>
    cases st with
    | phi dest ops =>
      simp only [operands, Option.bind_eq_bind, Option.bind_eq_some_iff, Option.some.injEq] at filled
      obtain ⟨ops', filledOps, rest, filled, rfl⟩ := filled
      have shape := congrArg (List.map fun op : ℕ × Variable => (op.1, VariableRef.new op.2)) (operand_eq_some filledOps).2.2.2
      simp only [List.map_map, Function.comp_def] at shape
      simp [bare, ih filled, shape]
    | assign _ _ | callAssign _ _ _ _ | nop =>
      simp only [operands, Option.map_eq_some_iff] at filled
      obtain ⟨rest, filled, rfl⟩ := filled
      simp [ih filled]

/-- The phis among statements whose operands have been filled in. -/
theorem mem_operands {x : ℕ} {sts sts' : List Statement} (filled : names.operands x sts = some sts') {dest : VariableRef}
    {ops' : List (ℕ × VariableRef)} (member : .phi dest ops' ∈ sts') :
    ∃ ops, .phi dest ops ∈ sts ∧ names.operand x ops = some ops' := by
  induction sts generalizing sts' with
  | nil =>
    obtain rfl : sts' = [] := by simpa [operands, eq_comm] using filled
    simp at member
  | cons st sts ih =>
    cases st with
    | phi dest₁ ops =>
      simp only [operands, Option.bind_eq_bind, Option.bind_eq_some_iff, Option.some.injEq] at filled
      obtain ⟨ops₁, filledOps, rest, filled, rfl⟩ := filled
      rcases List.mem_cons.mp member with here | later
      · obtain ⟨rfl, rfl⟩ := Statement.phi.inj here
        exact ⟨ops, .head _, filledOps⟩
      · obtain ⟨ops, inside, found⟩ := ih filled later
        exact ⟨ops, .tail _ inside, found⟩
    | assign _ _ | callAssign _ _ _ _ | nop =>
      simp only [operands, Option.map_eq_some_iff] at filled
      obtain ⟨rest, filled, rfl⟩ := filled
      rcases List.mem_cons.mp member with here | later
      · simp at here
      · obtain ⟨ops, inside, found⟩ := ih filled later
        exact ⟨ops, .tail _ inside, found⟩

/-- Every variable has a version on its stack and a next one. -/
def Stocked (names : SsaRename) (vars : List Variable) : Prop :=
  ∀ v ∈ vars, (names.top v).isSome ∧ (names.c v).isSome

/-- One version more on the stack of each variable of a list, once for each time it is listed. -/
def Pushed (names names' : SsaRename) (pushes : List Variable) : Prop :=
  ∀ v, ∃ pushed : List ℕ, pushed.length = pushes.count v ∧ names'.s v = (names.s v).map (pushed ++ ·)

/-- The variables a statement mentions are among some. -/
structure Covered (vars : List Variable) (st : Statement) : Prop where
  sources : ∀ ref ∈ st.srcVars, ref.var.isGlobal = false ∨ st.isPhi → ref.var ∈ vars
  dests : ∀ ref ∈ st.dstVars, ref.var ∈ vars

theorem Pushed.refl (names : SsaRename) : Pushed names names [] := fun v => ⟨[], by simp, by simp⟩

theorem Pushed.trans {first second : List Variable} (one : Pushed names names' first) (two : Pushed names' names'' second) :
    Pushed names names'' (first ++ second) := by
  intro v
  obtain ⟨a, aLength, aStack⟩ := one v
  obtain ⟨b, bLength, bStack⟩ := two v
  refine ⟨b ++ a, by simp [aLength, bLength]; omega, ?_⟩
  rw [bStack, aStack]
  cases names.s v <;> simp

theorem exists_top {v : Variable} (stocked : names.Stocked vars) (known : v ∈ vars) :
    ∃ i stack, names.s v = some (i :: stack) := by
  obtain ⟨i, top⟩ := Option.isSome_iff_exists.mp (stocked v known).1
  obtain ⟨stack, found, first⟩ := Option.bind_eq_some_iff.mp top
  cases stack with
  | nil => simp at first
  | cons j rest => exact ⟨j, rest, found⟩

theorem exists_define (stocked : names.Stocked vars) {ref : VariableRef} (known : ref.var ∈ vars) :
    ∃ ref' names', names.define ref = some (ref', names') ∧ ref'.var = ref.var ∧ names'.Stocked vars ∧
      Pushed names names' [ref.var] := by
  obtain ⟨i, next⟩ := Option.isSome_iff_exists.mp (stocked ref.var known).2
  obtain ⟨j, stack, found⟩ := exists_top stocked known
  refine ⟨ref.withVersion i,
    { s := update names.s ref.var (some (i :: j :: stack)), c := update names.c ref.var (some (i + 1)) },
    by simp [define, next, found], rfl, fun v inside => ?_, fun v => ?_⟩
  · by_cases same : v = ref.var
    · subst same
      simp [top]
    · simpa [top, update_of_ne same] using stocked v inside
  · by_cases same : v = ref.var
    · subst same
      exact ⟨[i], by simp, by simp [found]⟩
    · exact ⟨[], by simp [Ne.symm same], by simp [update_of_ne same]⟩

theorem exists_defineAll (stocked : names.Stocked vars) {refs : List VariableRef} (known : ∀ ref ∈ refs, ref.var ∈ vars) :
    ∃ refs' names', names.defineAll refs = some (refs', names') ∧ refs'.map VariableRef.var = refs.map VariableRef.var ∧
      names'.Stocked vars ∧ Pushed names names' (refs.map VariableRef.var) := by
  induction refs generalizing names with
  | nil => exact ⟨[], names, rfl, rfl, stocked, .refl _⟩
  | cons ref refs ih =>
    obtain ⟨ref', names₁, defined, var, stocked₁, pushed₁⟩ := exists_define stocked (known ref (.head _))
    obtain ⟨refs', names₂, rest, vars, stocked₂, pushed₂⟩ := ih stocked₁ fun r later => known r (.tail _ later)
    refine ⟨ref' :: refs', names₂, by simp [defineAll, defined, rest], by simp [var, vars], stocked₂, ?_⟩
    exact pushed₁.trans pushed₂

theorem exists_use (stocked : names.Stocked vars) {ref : VariableRef} (known : ref.var.isGlobal = false → ref.var ∈ vars) :
    (names.use ref).isSome := by
  unfold use
  split_ifs with skipped
  · rfl
  · simp only [Bool.or_eq_true, not_or, Bool.not_eq_true] at skipped
    rw [Option.isSome_map]
    exact (stocked ref.var (known skipped.2)).1

theorem exists_statement (stocked : names.Stocked vars) (covered : Covered vars st) :
    ∃ st' names', names.statement st = some (st', names') ∧ st'.dstVars.map VariableRef.var = st.dstVars.map VariableRef.var ∧
      names'.Stocked vars ∧ Pushed names names' (st.dstVars.map VariableRef.var) := by
  obtain ⟨refs, names', defined, vars', stocked', pushed⟩ := exists_defineAll stocked covered.dests
  have length : refs.length = st.dstVars.length := by simpa using congrArg List.length vars'
  by_cases phi : st.isPhi
  · refine ⟨st.setDst refs, names', by simp [statement, phi, defined], ?_, stocked', pushed⟩
    rw [Statement.dstVars_setDst _ length, vars']
  · have found : rewrite names.use st.srcVars = some fun ref => (names.use ref).getD ref :=
      if_pos fun ref member => exists_use stocked fun isLocal => covered.sources ref member (.inl isLocal)
    have same := Statement.dstVars_mapSrc (f := fun ref => (names.use ref).getD ref) st
    refine ⟨_, names', by simp [statement, phi, found, same, defined]; rfl, ?_, stocked', pushed⟩
    rw [Statement.dstVars_setDst _ (by rw [same, length]), vars']

theorem exists_statements (stocked : names.Stocked vars) {sts : List Statement} (covered : ∀ st ∈ sts, Covered vars st) :
    ∃ sts' names', names.statements sts = some (sts', names') ∧ definedVars sts' = definedVars sts ∧
      names'.Stocked vars ∧ Pushed names names' (definedVars sts) := by
  induction sts generalizing names with
  | nil => exact ⟨[], names, rfl, rfl, stocked, .refl _⟩
  | cons st sts ih =>
    obtain ⟨st', names₁, renamed, vars₁, stocked₁, pushed₁⟩ := exists_statement stocked (covered st (.head _))
    obtain ⟨sts', names₂, rest, vars₂, stocked₂, pushed₂⟩ := ih stocked₁ fun s later => covered s (.tail _ later)
    refine ⟨st' :: sts', names₂, by simp [statements, renamed, rest], ?_, stocked₂, pushed₁.trans pushed₂⟩
    simp only [definedVars, List.flatMap_cons] at vars₂ ⊢
    rw [vars₁, vars₂]

theorem exists_operands (stocked : names.Stocked vars) {x : ℕ} {sts : List Statement}
    (covered : ∀ dest ops, .phi dest ops ∈ sts → ∀ op ∈ ops, op.2.var ∈ vars) :
    ∃ sts', names.operands x sts = some sts' := by
  have operandsOf : ∀ ops : List (ℕ × VariableRef), (∀ op ∈ ops, op.2.var ∈ vars) → ∃ ops', names.operand x ops = some ops' := by
    intro ops known
    induction ops with
    | nil => exact ⟨[], rfl⟩
    | cons op ops ih =>
      obtain ⟨i, top⟩ := Option.isSome_iff_exists.mp (stocked op.2.var (known op (.head _))).1
      obtain ⟨rest, filled⟩ := ih fun op later => known op (.tail _ later)
      unfold operand
      split_ifs
      · exact ⟨_, by rw [top]; rfl⟩
      · exact ⟨_, by rw [filled]; rfl⟩
  induction sts with
  | nil => exact ⟨[], rfl⟩
  | cons st sts ih =>
    obtain ⟨rest, filled⟩ := ih fun dest ops later => covered dest ops (.tail _ later)
    cases st with
    | phi dest ops =>
      obtain ⟨ops', filledOps⟩ := operandsOf ops (covered dest ops (.head _))
      exact ⟨_, by simp [operands, filledOps, filled]; rfl⟩
    | assign _ _ | callAssign _ _ _ _ | nop => exact ⟨_, by simp [operands, filled]; rfl⟩

/-- Undoing the definitions of a list of variables. -/
theorem exists_pops (names : SsaRename) {pops : List Variable} (known : ∀ v ∈ pops, (names.s v).isSome) :
    ∃ names', pops.foldlM pop names = some names' ∧ names'.c = names.c ∧
      ∀ v, names'.s v = (names.s v).map (List.drop (pops.count v)) := by
  induction pops generalizing names with
  | nil => exact ⟨names, rfl, rfl, fun v => by cases names.s v <;> simp⟩
  | cons w pops ih =>
    obtain ⟨stack, found⟩ := Option.isSome_iff_exists.mp (known w (.head _))
    obtain ⟨names', popped, counts, dropped⟩ := ih { names with s := update names.s w (some stack.tail) } fun v later => by
      by_cases same : v = w
      · simp [same]
      · simpa [update_of_ne same] using known v (.tail _ later)
    refine ⟨names', by simp [pop, found, popped], counts, fun v => ?_⟩
    rw [dropped v]
    by_cases same : v = w
    · subst same
      simp [found]
    · simp [update_of_ne same, List.count_cons_of_ne (Ne.symm same)]

theorem covered_bare : Covered vars (bare st) ↔ Covered vars st := by
  have reads : (bare st).srcVars.map VariableRef.var = st.srcVars.map VariableRef.var := by
    cases st <;> simp [bare, Statement.srcVars, Function.comp_def, VariableRef.new]
  have sources : (∀ ref ∈ (bare st).srcVars, ref.var.isGlobal = false ∨ st.isPhi → ref.var ∈ vars) ↔
      ∀ ref ∈ st.srcVars, ref.var.isGlobal = false ∨ st.isPhi → ref.var ∈ vars := by
    constructor
    · intro all ref member
      obtain ⟨ref', inside, same⟩ := List.mem_map.mp (reads ▸ List.mem_map_of_mem member)
      exact same ▸ all ref' inside
    · intro all ref member
      obtain ⟨ref', inside, same⟩ := List.mem_map.mp (reads ▸ List.mem_map_of_mem member)
      exact same ▸ all ref' inside
  constructor
  · rintro ⟨reading, writing⟩
    rw [isPhi_bare] at reading
    exact ⟨sources.mp reading, dstVars_bare st ▸ writing⟩
  · rintro ⟨reading, writing⟩
    refine ⟨?_, (dstVars_bare st).symm ▸ writing⟩
    rw [isPhi_bare]
    exact sources.mpr reading

/-- Renaming leaves the operands of phis alone. -/
theorem mem_statements_phi {sts sts' : List Statement} (renamed : names.statements sts = some (sts', names'))
    {dest : VariableRef} {ops : List (ℕ × VariableRef)} (member : .phi dest ops ∈ sts') :
    ∃ dest₀, .phi dest₀ ops ∈ sts := by
  induction sts generalizing names sts' with
  | nil =>
    obtain ⟨rfl, rfl⟩ : sts' = [] ∧ names' = names := by simpa [statements, eq_comm] using renamed
    simp at member
  | cons st sts ih =>
    simp only [statements, Option.bind_eq_bind, Option.bind_eq_some_iff, Option.some.injEq, Prod.mk.injEq,
      Prod.exists] at renamed
    obtain ⟨first, names₁, renamed₁, rest, names₂, renamed₂, rfl, rfl⟩ := renamed
    rcases List.mem_cons.mp member with rfl | later
    · obtain ⟨used, refs, rewritten, -, same, -⟩ := statement_eq_some renamed₁
      have phi : used.isPhi := by
        rw [← isPhi_setDst used refs, ← same]
        rfl
      rcases rewritten with ⟨-, rfl⟩ | ⟨plain, rewriting, -, rfl⟩
      · cases used with
        | phi dest₀ ops₀ =>
          obtain ⟨-, rfl⟩ := Statement.phi.inj same
          exact ⟨dest₀, .head _⟩
        | assign _ _ | callAssign _ _ _ _ | nop => simp [Statement.isPhi] at phi
      · rw [isPhi_mapSrc, plain] at phi
        simp at phi
    · obtain ⟨dest₀, inside⟩ := ih renamed₂ later
      exact ⟨dest₀, .tail _ inside⟩

end SsaRename

section Walk

open SsaRename

/-- What the walk needs of the blocks it starts from. -/
structure Walkable (base : List BasicBlockData) (vars : List Variable) : Prop where
  finished : ∀ b ∈ base, b.terminator.isSome
  inside : ∀ b ∈ base, ∀ y ∈ b.successors, y < base.length
  covered : ∀ b ∈ base, ∀ st ∈ b.statements, Covered vars st
  terms : ∀ b ∈ base, ∀ term ∈ b.terminator, ∀ ref ∈ term.srcVars, ref.var.isGlobal = false → ref.var ∈ vars

/-- The operands that phis of block `y` have for block `p` name what is on top at the end of `p`. -/
def Filled (exit : ℕ → SsaRename) (blocks : List BasicBlockData) (p y : ℕ) : Prop :=
  ∀ b : BasicBlockData, blocks[y]? = some b → ∀ dest ops, .phi dest ops ∈ b.statements → p ∈ ops.map Prod.fst →
    ∃ op ∈ ops, op.1 = p ∧ (exit p).top op.2.var = op.2.version ∧ op.2.version.isSome

/-- Blocks of which those of `V` are renamed, from the names `entry` to the names `exit`. -/
structure Renamed (base blocks : List BasicBlockData) (vars : List Variable) (V : Set ℕ) (entry exit : ℕ → SsaRename) :
    Prop where
  length : blocks.length = base.length
  before : ∀ {y : ℕ} {b : BasicBlockData}, y ∉ V → blocks[y]? = some b → ∃ b₀, base[y]? = some b₀ ∧
    b.statements.map bare = b₀.statements.map bare ∧ b.terminator = b₀.terminator
  after : ∀ {y : ℕ} {b : BasicBlockData}, y ∈ V → blocks[y]? = some b → ∃ b₀ term rewriting, base[y]? = some b₀ ∧
    (entry y).statements (b₀.statements.map bare) = some (b.statements.map bare, exit y) ∧ b₀.terminator = some term ∧
    rewrite (exit y).useTerm term.srcVars = some rewriting ∧ b.terminator = some (term.mapSrc rewriting)
  operands : ∀ {y : ℕ} {b : BasicBlockData}, blocks[y]? = some b → ∀ dest ops, .phi dest ops ∈ b.statements →
    ∀ op ∈ ops, op.2.var ∈ vars ∧ (op.2.version = none ∨ op.1 ∈ V ∧ (exit op.1).top op.2.var = op.2.version)

variable {base blocks : List BasicBlockData} {vars : List Variable} {V : Set ℕ} {entry exit : ℕ → SsaRename} {x y : ℕ}

/-- Filling in the operands of one block. -/
theorem Renamed.fill (renamed : Renamed base blocks vars V entry exit) (visited : x ∈ V) (stocked : (exit x).Stocked vars)
    (node : y < base.length) :
    ∃ b sts, blocks[y]? = some b ∧ (exit x).operands x b.statements = some sts ∧
      Renamed base (blocks.set y { b with statements := sts }) vars V entry exit ∧
      Filled exit (blocks.set y { b with statements := sts }) x y ∧
      ∀ p z, Filled exit blocks p z → Filled exit (blocks.set y { b with statements := sts }) p z := by
  have there : y < blocks.length := renamed.length.symm ▸ node
  obtain ⟨b, here⟩ : ∃ b, blocks[y]? = some b := ⟨_, List.getElem?_eq_getElem there⟩
  obtain ⟨sts, filled⟩ : ∃ sts, (exit x).operands x b.statements = some sts :=
    exists_operands stocked fun dest ops member op inside => (renamed.operands here dest ops member op inside).1
  have same := operands_bare filled
  have at? : ∀ {z b'}, (blocks.set y { b with statements := sts })[z]? = some b' →
      z = y ∧ b' = { b with statements := sts } ∨ z ≠ y ∧ blocks[z]? = some b' := by
    intro z b' found
    by_cases isY : z = y
    · subst isY
      rw [List.getElem?_set_self there] at found
      exact .inl ⟨rfl, (Option.some.inj found).symm⟩
    · rw [List.getElem?_set_ne (Ne.symm isY)] at found
      exact .inr ⟨isY, found⟩
  refine ⟨b, sts, here, filled, ⟨by simp [renamed.length], ?_, ?_, ?_⟩, ?_, ?_⟩
  · intro z b' fresh found
    rcases at? found with ⟨rfl, rfl⟩ | ⟨-, found⟩
    · obtain ⟨b₀, inBase, alike, last⟩ := renamed.before fresh here
      exact ⟨b₀, inBase, same.trans alike, last⟩
    · exact renamed.before fresh found
  · intro z b' done found
    rcases at? found with ⟨rfl, rfl⟩ | ⟨-, found⟩
    · obtain ⟨b₀, term, rewriting, inBase, alike, last⟩ := renamed.after done here
      exact ⟨b₀, term, rewriting, inBase, by rw [same]; exact alike, last⟩
    · exact renamed.after done found
  · intro z b' found dest ops member op inside
    rcases at? found with ⟨rfl, rfl⟩ | ⟨-, found⟩
    · obtain ⟨old, oldIn, filledOps⟩ := mem_operands filled member
      obtain ⟨origin, -, -, shape⟩ := operand_eq_some filledOps
      have known : op.2.var ∈ vars := by
        have mapped : (op.1, op.2.var) ∈ old.map fun op => (op.1, op.2.var) := shape ▸ List.mem_map_of_mem inside
        obtain ⟨op', op'In, sameOp⟩ := List.mem_map.mp mapped
        have := (renamed.operands here dest old oldIn op' op'In).1
        rwa [(Prod.mk.inj sameOp).2] at this
      refine ⟨known, ?_⟩
      rcases origin op inside with was | ⟨rfl, top, -⟩
      · exact (renamed.operands here dest old oldIn op was).2
      · exact .inr ⟨visited, top⟩
    · exact renamed.operands found dest ops member op inside
  · intro b' found dest ops member wanted
    obtain ⟨-, rfl⟩ := (at? found).resolve_right fun other => other.1 rfl
    obtain ⟨old, -, filledOps⟩ := mem_operands filled member
    obtain ⟨-, -, new, shape⟩ := operand_eq_some filledOps
    refine new ?_
    have preds := congrArg (List.map Prod.fst) shape
    simp only [List.map_map, Function.comp_def] at preds
    exact preds ▸ wanted
  · intro p z was b' found dest ops member wanted
    rcases at? found with ⟨rfl, rfl⟩ | ⟨-, found⟩
    · obtain ⟨old, oldIn, filledOps⟩ := mem_operands filled member
      obtain ⟨-, kept, new, shape⟩ := operand_eq_some filledOps
      have preds := congrArg (List.map Prod.fst) shape
      simp only [List.map_map, Function.comp_def] at preds
      have wanted : p ∈ old.map Prod.fst := preds ▸ wanted
      by_cases isX : p = x
      · subst isX
        exact new wanted
      · obtain ⟨op, inside, isP, facts⟩ := was b here dest old oldIn wanted
        exact ⟨op, kept op inside (isP ▸ isX), isP, facts⟩
    · exact was b' found dest ops member wanted

/-- Filling in the operands of the successors of a block. -/
theorem Renamed.fillAll (renamed : Renamed base blocks vars V entry exit) (visited : x ∈ V)
    (stocked : (exit x).Stocked vars) {ys : List ℕ} (nodes : ∀ y ∈ ys, y < base.length) :
    ∃ blocks', ys.foldlM (fun blocks y => do
        let block ← blocks[y]?
        let statements ← (exit x).operands x block.statements
        some (blocks.set y { block with statements })) blocks = some blocks' ∧
      Renamed base blocks' vars V entry exit ∧ (∀ y ∈ ys, Filled exit blocks' x y) ∧
      ∀ p z, Filled exit blocks p z → Filled exit blocks' p z := by
  induction ys generalizing blocks with
  | nil => exact ⟨blocks, rfl, renamed, by simp, fun _ _ => id⟩
  | cons y ys ih =>
    obtain ⟨b, sts, here, filled, renamed₁, new, kept⟩ := renamed.fill visited stocked (nodes y (.head _))
    obtain ⟨blocks', folded, renamed₂, rest, kept'⟩ := ih renamed₁ fun z later => nodes z (.tail _ later)
    refine ⟨blocks', ?_, renamed₂, fun z member => ?_, fun p z was => kept' p z (kept p z was)⟩
    · rw [List.foldlM_cons, here]
      simp only [Option.bind_eq_bind, Option.bind_some, filled]
      exact folded
    · rcases List.mem_cons.mp member with rfl | later
      · exact kept' x z new
      · exact rest z later

theorem Filled.update {p z : ℕ} {names : SsaRename} (filled : Filled exit blocks p z) (other : p ≠ x) :
    Filled (Function.update exit x names) blocks p z := by
  unfold Filled
  rw [Function.update_of_ne other]
  exact filled

/-- The part of a visit before the children. -/
theorem Renamed.enter (walkable : Walkable base vars) (renamed : Renamed base blocks vars V entry exit) (fresh : x ∉ V)
    (node : x < base.length) {names : SsaRename} (stocked : names.Stocked vars) :
    ∃ blocks' names', SsaRename.enter blocks names x = some (blocks', names') ∧ names'.Stocked vars ∧
      (∃ b₀, base[x]? = some b₀ ∧ Pushed names names' (definedVars b₀.statements)) ∧
      Renamed base blocks' vars (insert x V) (update entry x names) (update exit x names') ∧
      (∀ y ∈ (cfg base).successors x, Filled (update exit x names') blocks' x y) ∧
      ∀ p ∈ V, ∀ y, Filled exit blocks p y → Filled (update exit x names') blocks' p y := by
  have there : x < blocks.length := renamed.length.symm ▸ node
  obtain ⟨b, here⟩ : ∃ b, blocks[x]? = some b := ⟨_, List.getElem?_eq_getElem there⟩
  obtain ⟨b₀, inBase, alike, last⟩ := renamed.before fresh here
  have isBlock := List.mem_of_getElem? inBase
  obtain ⟨term, terminated⟩ := Option.isSome_iff_exists.mp (walkable.finished b₀ isBlock)
  have covered : ∀ st ∈ b.statements, Covered vars st := by
    intro st member
    obtain ⟨st₀, inside, same⟩ := List.mem_map.mp (alike ▸ List.mem_map_of_mem member)
    exact covered_bare.mp (same ▸ covered_bare.mpr (walkable.covered b₀ isBlock st₀ inside))
  obtain ⟨sts, names', renames, -, stocked', pushed⟩ := exists_statements stocked covered
  have found : rewrite names'.useTerm term.srcVars = some fun ref => (names'.useTerm ref).getD ref := by
    refine if_pos fun ref member => ?_
    unfold useTerm
    split_ifs with global
    · rfl
    · rw [Option.isSome_map]
      exact (stocked' _ (walkable.terms b₀ isBlock term terminated ref member (by simpa using global))).1
  have bareRenames : names.statements (b₀.statements.map bare) = some (sts.map bare, names') := by
    rw [← alike, statements_bare, renames]
    rfl
  have at? : ∀ {z b'}, (blocks.set x ⟨sts, some (term.mapSrc fun ref => (names'.useTerm ref).getD ref)⟩)[z]? = some b' →
      z = x ∧ b' = ⟨sts, some (term.mapSrc fun ref => (names'.useTerm ref).getD ref)⟩ ∨ z ≠ x ∧ blocks[z]? = some b' := by
    intro z b' found
    by_cases isX : z = x
    · subst isX
      rw [List.getElem?_set_self there] at found
      exact .inl ⟨rfl, (Option.some.inj found).symm⟩
    · rw [List.getElem?_set_ne (Ne.symm isX)] at found
      exact .inr ⟨isX, found⟩
  have old : ∀ {p : ℕ}, p ∈ V → p ≠ x := fun inV same => fresh (same ▸ inV)
  have oldOps : ∀ {z : ℕ} {b' : BasicBlockData}, blocks[z]? = some b' → ∀ dest ops, .phi dest ops ∈ b'.statements →
      ∀ op ∈ ops, op.2.var ∈ vars ∧ (op.2.version = none ∨ op.1 ∈ insert x V ∧
        (update exit x names' op.1).top op.2.var = op.2.version) := by
    intro z b' found dest ops member op inside
    obtain ⟨known, version⟩ := renamed.operands found dest ops member op inside
    refine ⟨known, version.imp_right fun ⟨inV, top⟩ => ⟨.inr inV, ?_⟩⟩
    rwa [update_of_ne (old inV)]
  have set : Renamed base (blocks.set x ⟨sts, some (term.mapSrc fun ref => (names'.useTerm ref).getD ref)⟩) vars
      (insert x V) (update entry x names) (update exit x names') := by
    refine ⟨by simp [renamed.length], ?_, ?_, ?_⟩
    · intro z b' new found
      obtain ⟨isX, rfl⟩ | ⟨-, found⟩ := at? found
      · exact absurd (.inl isX) new
      · exact renamed.before (fun inV => new (.inr inV)) found
    · intro z b' done isBlock
      rcases at? isBlock with ⟨rfl, rfl⟩ | ⟨other, isBlock⟩
      · simp only [update_self]
        exact ⟨b₀, term, _, inBase, bareRenames, terminated, found, rfl⟩
      · rw [update_of_ne other, update_of_ne other]
        exact renamed.after (done.resolve_left other) isBlock
    · intro z b' found dest ops member op inside
      rcases at? found with ⟨rfl, rfl⟩ | ⟨-, found⟩
      · obtain ⟨dest₀, was⟩ := mem_statements_phi renames member
        exact oldOps here dest₀ ops was op inside
      · exact oldOps found dest ops member op inside
  have nodes : ∀ y ∈ term.successors, y < base.length := by
    intro y member
    refine walkable.inside b₀ isBlock y ?_
    rw [BasicBlockData.successors, terminated]
    exact member
  obtain ⟨blocks', folded, renamed', new, kept⟩ := set.fillAll (x := x) (.inl rfl) (by simpa using stocked') nodes
  rw [update_self] at folded
  refine ⟨blocks', names', ?_, stocked', ⟨b₀, inBase, ?_⟩, renamed', fun y out => ?_, fun p inV y filled => ?_⟩
  · simp only [SsaRename.enter, here, last.trans terminated, Option.bind_eq_bind, Option.bind_some, renames, found]
    simp only [Option.bind_eq_bind] at folded
    rw [folded]
    rfl
  · rw [← definedVars_bare, ← alike, definedVars_bare]
    exact pushed
  · refine new y ?_
    simpa [cfg, inBase, BasicBlockData.successors, terminated] using out
  · refine kept p y ?_
    intro b' found dest ops member wanted
    rcases at? found with ⟨rfl, rfl⟩ | ⟨-, found⟩
    · obtain ⟨dest₀, was⟩ := mem_statements_phi renames member
      exact filled.update (old inV) b here dest₀ ops was wanted
    · exact filled.update (old inV) b' found dest ops member wanted

/-- The blocks below a block of the dominator tree, the block included. -/
def below (tree : DominatorTree) (numNodes x : ℕ) : Set ℕ := {y | y < numNodes ∧ Above tree.idom 0 x y}

/-- The blocks of `V` are renamed, and the phis after them know what they left behind. -/
structure Walked (base blocks : List BasicBlockData) (vars : List Variable) (V : Set ℕ) (entry exit : ℕ → SsaRename) :
    Prop extends Renamed base blocks vars V entry exit where
  filled : ∀ p ∈ V, ∀ y ∈ (cfg base).successors p, Filled exit blocks p y

/-- What a visit of the blocks of `R` records: nothing about other blocks. -/
def Records (R : Set ℕ) (entry exit entry' exit' : ℕ → SsaRename) : Prop :=
  ∀ y ∉ R, entry' y = entry y ∧ exit' y = exit y

/-- A visit of the blocks below `x` renames them, each with the stacks its parent left behind, and leaves
the stacks as they were. -/
def Visits (base : List BasicBlockData) (vars : List Variable) (tree : DominatorTree)
    (visit : List BasicBlockData → SsaRename → ℕ → Option (List BasicBlockData × SsaRename)) (x : ℕ) : Prop :=
  ∀ blocks V entry exit names, Walked base blocks vars V entry exit → (∀ y ∈ below tree base.length x, y ∉ V) →
    names.Stocked vars → ∃ blocks' names' entry' exit', visit blocks names x = some (blocks', names') ∧
      names'.s = names.s ∧ names'.Stocked vars ∧ Walked base blocks' vars (V ∪ below tree base.length x) entry' exit' ∧
      Records (below tree base.length x) entry exit entry' exit' ∧ (entry' x).s = names.s ∧
      ∀ y ∈ below tree base.length x, y ≠ x → (entry' y).s = (exit' (tree.idom y)).s

section Tree

variable {tree : DominatorTree} (of : DominatorTree.Of (cfg base) tree) (reachable : (cfg base).AllReachable)
  (wellFormed : (cfg base).WellFormed) (walkable : Walkable base vars)
include of

theorem mem_children {c : ℕ} : c ∈ tree.successors x ↔ c < base.length ∧ c ≠ 0 ∧ tree.idom c = x := by
  rw [DominatorTree.mem_successors, of.numNodes, of.startNode]
  rfl

include reachable

theorem not_mem_below_parent {c : ℕ} (child : c ∈ tree.successors x) : x ∉ below tree base.length c := by
  obtain ⟨node, inner, rfl⟩ := (mem_children of).mp child
  rintro ⟨-, above⟩
  exact Above.not_parent of.table inner (reachable c node) above

theorem eq_of_mem_below {c d : ℕ} (first : c ∈ tree.successors x) (second : d ∈ tree.successors x)
    (here : y ∈ below tree base.length c) (there : y ∈ below tree base.length d) : c = d := by
  obtain ⟨-, cInner, cParent⟩ := (mem_children of).mp first
  obtain ⟨-, dInner, dParent⟩ := (mem_children of).mp second
  exact Above.same_child of.table cInner dInner (cParent.trans dParent.symm) here.2 there.2 (reachable y here.1)

include wellFormed

theorem below_eq (node : x < base.length) :
    below tree base.length x = insert x {y | ∃ c ∈ tree.successors x, y ∈ below tree base.length c} := by
  ext y
  constructor
  · rintro ⟨yNode, above⟩
    rcases above.eq_or_child with rfl | ⟨c, inner, child, above⟩
    · exact .inl rfl
    · have cNode := wellFormed.lt_of_reachable (above.reachable of.table (reachable y yNode))
      exact .inr ⟨c, (mem_children of).mpr ⟨cNode, inner, child⟩, yNode, above⟩
  · rintro (rfl | ⟨c, child, yNode, above⟩)
    · exact ⟨node, .refl⟩
    · obtain ⟨-, inner, rfl⟩ := (mem_children of).mp child
      exact ⟨yNode, above.trans (.up inner .refl)⟩

/-- A block below `x` other than `x` has its parent below `x`. -/
theorem parent_mem_below (inside : y ∈ below tree base.length x) (other : y ≠ x) : tree.idom y ∈ below tree base.length x := by
  obtain ⟨yNode, above⟩ := inside
  rcases above.eq_or_parent with same | ⟨inner, above⟩
  · exact absurd same.symm other
  · exact ⟨wellFormed.lt_of_reachable (of.table.reachable (reachable y yNode)), above⟩

/-- The visits of some children of `x`, one after another. -/
theorem visits_children {visit : List BasicBlockData → SsaRename → ℕ → Option (List BasicBlockData × SsaRename)}
    {children : List ℕ} (visits : ∀ c ∈ children, Visits base vars tree visit c) (nodup : children.Nodup)
    (areChildren : ∀ c ∈ children, c ∈ tree.successors x) (walked : Walked base blocks vars V entry exit) (here : x ∈ V)
    (fresh : ∀ c ∈ children, ∀ y ∈ below tree base.length c, y ∉ V) {names : SsaRename} (stocked : names.Stocked vars)
    (current : (exit x).s = names.s) :
    ∃ blocks' names' entry' exit', children.foldlM (fun (blocks, names) y => visit blocks names y) (blocks, names) =
        some (blocks', names') ∧ names'.s = names.s ∧ names'.Stocked vars ∧
      Walked base blocks' vars (V ∪ {y | ∃ c ∈ children, y ∈ below tree base.length c}) entry' exit' ∧
      Records {y | ∃ c ∈ children, y ∈ below tree base.length c} entry exit entry' exit' ∧
      ∀ c ∈ children, ∀ y ∈ below tree base.length c, (entry' y).s = (exit' (tree.idom y)).s := by
  induction children generalizing blocks V entry exit names with
  | nil => exact ⟨blocks, names, entry, exit, rfl, rfl, stocked, by simpa using walked, fun _ _ => ⟨rfl, rfl⟩, by simp⟩
  | cons c rest ih =>
    obtain ⟨notLater, nodup⟩ := List.nodup_cons.mp nodup
    have isChild := areChildren c (.head _)
    obtain ⟨blocks₁, names₁, entry₁, exit₁, ran₁, stacks₁, stocked₁, walked₁, records₁, first₁, inner₁⟩ :=
      visits c (.head _) blocks V entry exit names walked (fresh c (.head _)) stocked
    have apart : ∀ d ∈ rest, ∀ y ∈ below tree base.length d, y ∉ below tree base.length c := by
      intro d later y below inside
      exact notLater (eq_of_mem_below of reachable isChild (areChildren d (.tail _ later)) inside below ▸ later)
    have current₁ : (exit₁ x).s = names₁.s := by
      rw [(records₁ x (not_mem_below_parent of reachable isChild)).2, current, stacks₁]
    have fresh₁ : ∀ d ∈ rest, ∀ y ∈ below tree base.length d, y ∉ V ∪ below tree base.length c := by
      rintro d later y inside (old | new)
      · exact fresh d (.tail _ later) y inside old
      · exact apart d later y inside new
    obtain ⟨blocks₂, names₂, entry₂, exit₂, ran₂, stacks₂, stocked₂, walked₂, records₂, inner₂⟩ :=
      ih (fun d later => visits d (.tail _ later)) nodup (fun d later => areChildren d (.tail _ later)) walked₁ (.inl here)
        fresh₁ stocked₁ current₁
    have parts : {y | ∃ d ∈ c :: rest, y ∈ below tree base.length d} =
        below tree base.length c ∪ {y | ∃ d ∈ rest, y ∈ below tree base.length d} := by
      ext y
      simp
    have kept : ∀ y ∈ below tree base.length c, entry₂ y = entry₁ y ∧ exit₂ y = exit₁ y := by
      intro y inside
      refine records₂ y ?_
      rintro ⟨d, later, other⟩
      exact apart d later y other inside
    have keptAtX : exit₂ x = exit₁ x := by
      refine (records₂ x ?_).2
      rintro ⟨d, later, inside⟩
      exact not_mem_below_parent of reachable (areChildren d (.tail _ later)) inside
    refine ⟨blocks₂, names₂, entry₂, exit₂, ?_, stacks₂.trans stacks₁, stocked₂, ?_, ?_, ?_⟩
    · rw [List.foldlM_cons]
      simp only [ran₁, Option.bind_eq_bind, Option.bind_some]
      exact ran₂
    · rw [parts, ← Set.union_assoc]
      exact walked₂
    · intro y outside
      rw [parts] at outside
      obtain ⟨notC, notRest⟩ := not_or.mp outside
      exact ⟨(records₂ y notRest).1.trans (records₁ y notC).1, (records₂ y notRest).2.trans (records₁ y notC).2⟩
    · intro d member y inside
      rcases List.mem_cons.mp member with rfl | later
      · rw [(kept y inside).1]
        by_cases same : y = d
        · subst same
          rw [((mem_children of).mp isChild).2.2, keptAtX, first₁, current₁, stacks₁]
        · rw [(kept _ (parent_mem_below of reachable wellFormed inside same)).2, inner₁ y inside same]
      · exact inner₂ d later y inside

include walkable

/-- The walk below a block. -/
theorem search_spec (fuel x : ℕ) (node : x < base.length) (enough : base.length ≤ fuel + tree.dfnum x) :
    Visits base vars tree (search tree fuel) x := by
  induction fuel generalizing x with
  | zero => exact absurd (of.num_lt x node) (by simpa [cfg] using enough)
  | succ fuel ih =>
    intro blocks V entry exit names walked fresh stocked
    obtain ⟨blocks₁, names₁, entered, stocked₁, ⟨b₀, inBase, pushed⟩, renamed₁, new, kept⟩ :=
      walked.enter walkable (fresh x ⟨node, .refl⟩) node stocked
    have old : ∀ {p : ℕ}, p ∈ V → p ≠ x := fun inV same => fresh x ⟨node, .refl⟩ (same ▸ inV)
    have walked₁ : Walked base blocks₁ vars (insert x V) (update entry x names) (update exit x names₁) := by
      refine ⟨renamed₁, ?_⟩
      rintro p (rfl | inV) y out
      · exact new y out
      · exact kept p inV y (walked.filled p inV y out)
    have children : ∀ c ∈ tree.successors x, Visits base vars tree (search tree fuel) c := by
      intro c isChild
      obtain ⟨cNode, inner, rfl⟩ := (mem_children of).mp isChild
      have later := of.table.rank_lt (reachable c cNode) inner
      exact ih c cNode (by omega)
    have nodup : (tree.successors x).Nodup := List.nodup_range.filter _
    have freshBelow : ∀ c ∈ tree.successors x, ∀ y ∈ below tree base.length c, y ∉ insert x V := by
      rintro c isChild y inside (rfl | inV)
      · exact not_mem_below_parent of reachable isChild inside
      · refine fresh y ?_ inV
        rw [below_eq of reachable wellFormed node]
        exact .inr ⟨c, isChild, inside⟩
    obtain ⟨blocks₂, names₂, entry₂, exit₂, ran, stacks₂, stocked₂, walked₂, records₂, inner₂⟩ :=
      visits_children of reachable wellFormed children nodup (fun _ => id) walked₁ (.inl rfl) freshBelow stocked₁
        (by rw [update_self])
    have notBelow : x ∉ {y | ∃ c ∈ tree.successors x, y ∈ below tree base.length c} := by
      rintro ⟨c, isChild, inside⟩
      exact not_mem_below_parent of reachable isChild inside
    have recorded : entry₂ x = names ∧ exit₂ x = names₁ := by
      simpa only [update_self] using records₂ x notBelow
    obtain ⟨b, here⟩ : ∃ b, blocks₂[x]? = some b := by
      have there : x < blocks₂.length := walked₂.length.symm ▸ node
      exact ⟨_, List.getElem?_eq_getElem there⟩
    have defined : definedVars b.statements = definedVars b₀.statements := by
      obtain ⟨b₁, -, -, inBase₁, renames, -⟩ := walked₂.after (.inl (.inl rfl)) here
      obtain rfl : b₁ = b₀ := Option.some.inj (inBase₁.symm.trans inBase)
      rw [recorded.1] at renames
      have covered : ∀ st ∈ b₁.statements.map bare, Covered vars st := by
        intro st member
        obtain ⟨st₀, inside, rfl⟩ := List.mem_map.mp member
        exact covered_bare.mpr (walkable.covered b₁ (List.mem_of_getElem? inBase) st₀ inside)
      obtain ⟨sts, names', renames', same, -⟩ := exists_statements stocked covered
      obtain ⟨rfl, rfl⟩ := Prod.mk.inj (Option.some.inj (renames.symm.trans renames'))
      rwa [definedVars_bare, definedVars_bare] at same
    have known : ∀ v ∈ definedVars b.statements, (names₂.s v).isSome := by
      intro v member
      rw [defined, definedVars] at member
      obtain ⟨st, inside, isDst⟩ := List.mem_flatMap.mp member
      obtain ⟨ref, isRef, rfl⟩ := List.mem_map.mp isDst
      have inVars := (walkable.covered b₀ (List.mem_of_getElem? inBase) st inside).dests ref isRef
      obtain ⟨i, stack, found⟩ := exists_top stocked₂ inVars
      simp [found]
    obtain ⟨names₃, popped, counts, dropped⟩ := exists_pops names₂ known
    have stacks₃ : names₃.s = names.s := by
      funext v
      obtain ⟨versions, length, stack⟩ := pushed v
      rw [dropped v, stacks₂, stack, defined, ← length]
      cases names.s v <;> simp
    have stocked₃ : names₃.Stocked vars := by
      intro v inside
      exact ⟨by simpa only [top, stacks₃] using (stocked v inside).1, counts ▸ (stocked₂ v inside).2⟩
    refine ⟨blocks₂, names₃, entry₂, exit₂, ?_, stacks₃, stocked₃, ?_, fun y outside => ?_, by rw [recorded.1], ?_⟩
    · simp only [search, entered, ran, here, Option.bind_eq_bind, Option.bind_some]
      simp only [definedVars] at popped
      rw [popped]
      rfl
    · rw [below_eq of reachable wellFormed node, Set.union_insert, ← Set.insert_union]
      exact walked₂
    · rw [below_eq of reachable wellFormed node] at outside
      obtain ⟨other, outside⟩ := not_or.mp outside
      obtain ⟨sameEntry, sameExit⟩ := records₂ y outside
      rw [sameEntry, sameExit, update_of_ne other, update_of_ne other]
      exact ⟨rfl, rfl⟩
    · intro y inside other
      rw [below_eq of reachable wellFormed node] at inside
      obtain ⟨c, isChild, inside⟩ := inside.resolve_left other
      exact inner₂ c isChild y inside

end Tree

end Walk

end Ctadl.Ssa
