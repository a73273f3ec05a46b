import Ctadl.Ssa.Transform

/-! # The versions of a conversion

Every definition gets a version that no reference had before, so no two definitions share one; and a use
is given a version that was there when its statement was reached, so the versions a statement reads are
older than the ones it defines. Neither fact depends on the order in which the blocks are visited or on
how often: they follow from the counters alone.
-/

namespace Ctadl.Ssa

open Function Cir

/-- What every step of a loop that may fail keeps, the loop keeps. -/
theorem foldlM_keeps {α β : Type} {P : β → Prop} {f : β → α → Option β} {items : List α} {start out : β}
    (holds : P start) (each : ∀ b, P b → ∀ x ∈ items, ∀ b', f b x = some b' → P b')
    (folded : items.foldlM f start = some out) : P out := by
  induction items generalizing start with
  | nil => exact Option.some.inj folded ▸ holds
  | cons x rest ih =>
    simp only [List.foldlM_cons, Option.bind_eq_bind, Option.bind_eq_some_iff] at folded
    obtain ⟨next, moved, folded⟩ := folded
    exact ih (each start holds x (.head _) next moved) (fun b holds y later => each b holds y (.tail _ later)) folded

namespace SsaRename

/-- A reference without a version, or with one that has been given out. -/
def Known (names : SsaRename) (ref : VariableRef) : Prop :=
  ∀ k, ref.version = some k → ∃ n, names.c ref.var = some n ∧ k < n

/-- The versions on the stacks have been given out, all of them before `clock`, and the next one of a
variable is never version 0. -/
structure Clocked (names : SsaRename) (rank : VariableRef → ℕ) (clock : ℕ) : Prop where
  onStack : ∀ {v stack}, names.s v = some stack → ∀ k ∈ stack, names.Known ⟨v, some k⟩
  early : ∀ {ref}, ref.version.isSome → names.Known ref → rank ref < clock
  positive : ∀ {v n}, names.c v = some n → 0 < n

/-- Later names know what the earlier ones knew, with the same ranks. -/
structure Grown (names : SsaRename) (rank : VariableRef → ℕ) (names' : SsaRename) (rank' : VariableRef → ℕ) :
    Prop where
  knows : ∀ {ref}, names.Known ref → names'.Known ref
  ranks : ∀ {ref}, ref.version.isSome → names.Known ref → rank' ref = rank ref

namespace Grown

variable {names names' names'' : SsaRename} {rank rank' rank'' : VariableRef → ℕ}

theorem refl (names : SsaRename) (rank : VariableRef → ℕ) : Grown names rank names rank := ⟨id, fun _ _ => rfl⟩

theorem trans (first : Grown names rank names' rank') (second : Grown names' rank' names'' rank'') :
    Grown names rank names'' rank'' where
  knows known := second.knows (first.knows known)
  ranks versioned known := (second.ranks versioned (first.knows known)).trans (first.ranks versioned known)

end Grown

variable {names names' : SsaRename} {rank : VariableRef → ℕ} {clock : ℕ}

theorem known_of_unversioned {ref : VariableRef} (bare : ref.version = none) : names.Known ref := by
  intro k versioned
  simp [bare] at versioned

theorem known_top (clocked : Clocked names rank clock) {ref : VariableRef} {i : ℕ} (top : names.top ref.var = some i) :
    names.Known (ref.withVersion i) := by
  obtain ⟨stack, found, first⟩ := Option.bind_eq_some_iff.mp top
  exact clocked.onStack found i (List.mem_of_mem_head? first)

/-- The references of a definition that was just given a version. -/
structure Fresh (names : SsaRename) (names' : SsaRename) (rank' : VariableRef → ℕ) (clock : ℕ) (ref : VariableRef) :
    Prop where
  versioned : ref.version.isSome
  nonzero : ref.version ≠ some 0
  unknown : ¬ names.Known ref
  known : names'.Known ref
  late : clock ≤ rank' ref

theorem define_spec (clocked : Clocked names rank clock) {ref ref' : VariableRef}
    (defined : names.define ref = some (ref', names')) :
    ∃ rank', Clocked names' rank' (clock + 1) ∧ Grown names rank names' rank' ∧
      Fresh names names' rank' clock ref' ∧ ref'.var = ref.var := by
  simp only [define, Option.bind_eq_bind, Option.bind_eq_some_iff, Option.some.injEq, Prod.mk.injEq] at defined
  obtain ⟨i, next, stack, found, rfl, rfl⟩ := defined
  have grows : ∀ {r}, names.Known r →
      (⟨update names.s ref.var (some (i :: stack)), update names.c ref.var (some (i + 1))⟩ : SsaRename).Known r := by
    intro r known k versioned
    obtain ⟨n, counted, less⟩ := known k versioned
    by_cases same : r.var = ref.var
    · rw [same, next] at counted
      obtain rfl := Option.some.inj counted
      exact ⟨i + 1, by simp [same], by omega⟩
    · exact ⟨n, by simpa [same] using counted, less⟩
  have unknown : ¬ names.Known (ref.withVersion i) := by
    intro known
    obtain ⟨n, counted, less⟩ := known i rfl
    obtain rfl := Option.some.inj (next.symm.trans counted)
    omega
  refine ⟨update rank (ref.withVersion i) clock, ⟨?_, ?_, ?_⟩, ⟨grows, ?_⟩, ⟨rfl, ?_, unknown, ?_, ?_⟩, rfl⟩
  · intro v stack' has k member
    by_cases same : v = ref.var
    · subst same
      simp only [update_self, Option.some.injEq] at has
      subst has
      rcases List.mem_cons.mp member with new | old
      · exact fun k versioned => ⟨i + 1, by simp, by cases versioned; omega⟩
      · exact grows (clocked.onStack found k old)
    · simp only [update_of_ne same] at has
      exact grows (clocked.onStack has k member)
  · intro r versioned known
    by_cases same : r = ref.withVersion i
    · subst same
      simp
    · rw [update_of_ne same]
      refine (clocked.early versioned fun k has => ?_).trans (by omega)
      obtain ⟨n, counted, less⟩ := known k has
      by_cases var : r.var = ref.var
      · simp only [var, update_self, Option.some.injEq] at counted
        subst counted
        refine ⟨i, var ▸ next, ?_⟩
        have other : k ≠ i := by
          rintro rfl
          refine same ?_
          obtain ⟨rv, rk⟩ := r
          simp only at has var
          rw [has, var]
          rfl
        omega
      · exact ⟨n, by simpa [update_of_ne var] using counted, less⟩
  · intro v n counted
    by_cases same : v = ref.var
    · simp only [same, update_self, Option.some.injEq] at counted
      omega
    · exact clocked.positive (by simpa [update_of_ne same] using counted)
  · intro r versioned known
    have other : r ≠ ref.withVersion i := by
      rintro rfl
      exact unknown known
    exact update_of_ne other _ _
  · have := clocked.positive next
    simp only [VariableRef.withVersion, ne_eq, Option.some.injEq]
    omega
  · exact fun k versioned => ⟨i + 1, by simp [VariableRef.withVersion], by cases versioned; omega⟩
  · simp

theorem defineAll_spec (clocked : Clocked names rank clock) {refs refs' : List VariableRef}
    (defined : names.defineAll refs = some (refs', names')) :
    ∃ rank' clock', Clocked names' rank' clock' ∧ Grown names rank names' rank' ∧
      (∀ ref ∈ refs', Fresh names names' rank' clock ref) ∧ refs'.Nodup ∧
      refs'.map VariableRef.var = refs.map VariableRef.var := by
  induction refs generalizing names rank clock refs' with
  | nil =>
    obtain ⟨rfl, rfl⟩ : refs' = [] ∧ names' = names := by simpa [defineAll, eq_comm] using defined
    exact ⟨rank, clock, clocked, .refl _ _, by simp, .nil, rfl⟩
  | cons ref refs ih =>
    simp only [defineAll, Option.bind_eq_bind, Option.bind_eq_some_iff, Option.some.injEq, Prod.mk.injEq,
      Prod.exists] at defined
    obtain ⟨first, names₁, defined₁, rest, names₂, defined₂, rfl, rfl⟩ := defined
    obtain ⟨rank₁, clocked₁, grown₁, fresh₁, var⟩ := define_spec clocked defined₁
    obtain ⟨rank₂, clock₂, clocked₂, grown₂, fresh₂, nodup, vars⟩ := ih clocked₁ defined₂
    refine ⟨rank₂, clock₂, clocked₂, grown₁.trans grown₂, fun r member => ?_, ?_, by simp [var, vars]⟩
    · rcases List.mem_cons.mp member with rfl | later
      · refine ⟨fresh₁.versioned, fresh₁.nonzero, fresh₁.unknown, grown₂.knows fresh₁.known, ?_⟩
        rw [grown₂.ranks fresh₁.versioned fresh₁.known]
        exact fresh₁.late
      · obtain ⟨versioned, nonzero, unknown, known, late⟩ := fresh₂ r later
        exact ⟨versioned, nonzero, fun known => unknown (grown₁.knows known), known, by omega⟩
    · exact List.nodup_cons.mpr ⟨fun later => (fresh₂ first later).unknown fresh₁.known, nodup⟩

/-- A statement whose references are known, and that reads older versions than it defines unless it is a
phi. -/
structure Placed (names : SsaRename) (rank : VariableRef → ℕ) (st : Statement) : Prop where
  known : ∀ ref ∈ st.srcVars ++ st.dstVars, names.Known ref
  older : st.isPhi = false → ∀ s ∈ st.srcVars, s.version.isSome → ∀ d ∈ st.dstVars, d.version.isSome → rank s < rank d

theorem Placed.grown {st : Statement} {rank' : VariableRef → ℕ} (placed : Placed names rank st)
    (grown : Grown names rank names' rank') : Placed names' rank' st where
  known ref member := grown.knows (placed.known ref member)
  older plain s source versioned d dest numbered := by
    rw [grown.ranks versioned (placed.known s (List.mem_append_left _ source)),
      grown.ranks numbered (placed.known d (List.mem_append_right _ dest))]
    exact placed.older plain s source versioned d dest numbered

theorem known_use (clocked : Clocked names rank clock) {ref ref' : VariableRef} (known : names.Known ref)
    (renamed : names.use ref = some ref') : names.Known ref' := by
  unfold use at renamed
  split_ifs at renamed
  · exact Option.some.inj renamed ▸ known
  · obtain ⟨i, top, rfl⟩ := Option.map_eq_some_iff.mp renamed
    exact known_top clocked top

/-- The references of a rewriting that succeeds. -/
theorem mem_rewrite {lookup : VariableRef → Option VariableRef} {refs : List VariableRef}
    {rewriting : VariableRef → VariableRef} (found : rewrite lookup refs = some rewriting) :
    ∀ ref ∈ refs, lookup ref = some (rewriting ref) := by
  unfold rewrite at found
  split_ifs at found with all
  obtain rfl := Option.some.inj found
  intro ref member
  obtain ⟨ref', here⟩ := Option.isSome_iff_exists.mp (all ref member)
  simp [here]

theorem isPhi_mapSrc (st : Statement) (f : VariableRef → VariableRef) : (st.mapSrc f).isPhi = st.isPhi := by
  cases st <;> rfl

theorem isPhi_setDst (st : Statement) (refs : List VariableRef) : (st.setDst refs).isPhi = st.isPhi := by
  cases st <;> rfl

/-- The two halves of renaming a statement. -/
theorem statement_eq_some {st st' : Statement} (renamed : names.statement st = some (st', names')) :
    ∃ used refs, (st.isPhi ∧ used = st ∨
        st.isPhi = false ∧ ∃ rewriting, rewrite names.use st.srcVars = some rewriting ∧ used = st.mapSrc rewriting) ∧
      names.defineAll st.dstVars = some (refs, names') ∧ st' = used.setDst refs ∧
      used.dstVars = st.dstVars := by
  unfold statement at renamed
  split_ifs at renamed with phi
  · simp only [Option.bind_eq_bind, Option.bind_some, Option.bind_eq_some_iff, Option.some.injEq, Prod.mk.injEq,
      Prod.exists] at renamed
    obtain ⟨refs, names₁, defined, rfl, rfl⟩ := renamed
    exact ⟨st, refs, .inl ⟨phi, rfl⟩, defined, rfl, rfl⟩
  · simp only [Option.bind_eq_bind, Option.bind_eq_some_iff, Option.map_eq_some_iff, Option.some.injEq, Prod.mk.injEq,
      Prod.exists] at renamed
    obtain ⟨used, ⟨rewriting, found, rfl⟩, refs, names₁, defined, rfl, rfl⟩ := renamed
    rw [Statement.dstVars_mapSrc] at defined
    exact ⟨_, refs, .inr ⟨by simpa using phi, rewriting, found, rfl⟩, defined, rfl, Statement.dstVars_mapSrc st⟩

/-- Renaming a statement gives its definitions fresh versions, and its uses ones that are known. -/
theorem statement_spec (clocked : Clocked names rank clock) {st st' : Statement}
    (known : ∀ ref ∈ st.srcVars, names.Known ref) (renamed : names.statement st = some (st', names')) :
    ∃ rank' clock', Clocked names' rank' clock' ∧ Grown names rank names' rank' ∧ Placed names' rank' st' ∧
      (∀ ref ∈ st'.dstVars, Fresh names names' rank' clock ref) ∧ st'.dstVars.Nodup := by
  obtain ⟨used, refs, rewritten, defined, rfl, sameDst⟩ := statement_eq_some renamed
  obtain ⟨rank', clock', clocked', grown, fresh, nodup, vars⟩ := defineAll_spec clocked defined
  have dst : (used.setDst refs).dstVars = refs := by
    refine Statement.dstVars_setDst used ?_
    rw [sameDst]
    simpa using congrArg List.length vars
  have sources : ∀ ref ∈ used.srcVars, names.Known ref := by
    rcases rewritten with ⟨-, rfl⟩ | ⟨-, rewriting, found, rfl⟩
    · exact known
    · intro ref member
      rw [Statement.srcVars_mapSrc] at member
      obtain ⟨old, here, rfl⟩ := List.mem_map.mp member
      exact known_use clocked (known old here) (mem_rewrite found old here)
  refine ⟨rank', clock', clocked', grown, ⟨fun ref member => ?_, fun _ s source versioned d dest _ => ?_⟩, ?_, ?_⟩
  · rw [Statement.srcVars_setDst, dst] at member
    rcases List.mem_append.mp member with source | dest
    · exact grown.knows (sources ref source)
    · exact (fresh ref dest).known
  · rw [Statement.srcVars_setDst] at source
    rw [dst] at dest
    rw [grown.ranks versioned (sources s source)]
    exact (clocked.early versioned (sources s source)).trans_le (fresh d dest).late
  · rw [dst]
    exact fresh
  · rw [dst]
    exact nodup

theorem statements_spec (clocked : Clocked names rank clock) {sts sts' : List Statement}
    (known : ∀ st ∈ sts, ∀ ref ∈ st.srcVars, names.Known ref) (renamed : names.statements sts = some (sts', names')) :
    ∃ rank' clock', Clocked names' rank' clock' ∧ Grown names rank names' rank' ∧
      (∀ st ∈ sts', Placed names' rank' st) ∧
      (∀ ref ∈ sts'.flatMap Statement.dstVars, ref.version.isSome ∧ ref.version ≠ some 0 ∧ ¬ names.Known ref) ∧
      (sts'.flatMap Statement.dstVars).Nodup := by
  induction sts generalizing names rank clock sts' with
  | nil =>
    obtain ⟨rfl, rfl⟩ : sts' = [] ∧ names' = names := by simpa [statements, eq_comm] using renamed
    exact ⟨rank, clock, clocked, .refl _ _, by simp, by simp, .nil⟩
  | cons st sts ih =>
    simp only [statements, Option.bind_eq_bind, Option.bind_eq_some_iff, Option.some.injEq, Prod.mk.injEq,
      Prod.exists] at renamed
    obtain ⟨first, names₁, renamed₁, rest, names₂, renamed₂, rfl, rfl⟩ := renamed
    obtain ⟨rank₁, clock₁, clocked₁, grown₁, placed₁, fresh₁, nodup₁⟩ :=
      statement_spec clocked (known st (.head _)) renamed₁
    obtain ⟨rank₂, clock₂, clocked₂, grown₂, placed₂, fresh₂, nodup₂⟩ :=
      ih clocked₁ (fun st later ref member => grown₁.knows (known st (.tail _ later) ref member)) renamed₂
    refine ⟨rank₂, clock₂, clocked₂, grown₁.trans grown₂, fun st member => ?_, fun ref member => ?_, ?_⟩
    · rcases List.mem_cons.mp member with rfl | later
      · exact placed₁.grown grown₂
      · exact placed₂ st later
    · rw [List.flatMap_cons] at member
      rcases List.mem_append.mp member with here | later
      · exact ⟨(fresh₁ ref here).versioned, (fresh₁ ref here).nonzero, (fresh₁ ref here).unknown⟩
      · obtain ⟨versioned, nonzero, unknown⟩ := fresh₂ ref later
        exact ⟨versioned, nonzero, fun known => unknown (grown₁.knows known)⟩
    · rw [List.flatMap_cons]
      refine List.nodup_append.mpr ⟨nodup₁, nodup₂, fun ref here other later => ?_⟩
      rintro rfl
      exact (fresh₂ ref later).2.2 (fresh₁ ref here).known

theorem operand_spec (clocked : Clocked names rank clock) {x : ℕ} {ops ops' : List (ℕ × VariableRef)}
    (filled : names.operand x ops = some ops') (known : ∀ op ∈ ops, names.Known op.2) :
    ∀ op ∈ ops', names.Known op.2 := by
  induction ops generalizing ops' with
  | nil =>
    obtain rfl : ops' = [] := by simpa [operand, eq_comm] using filled
    simp
  | cons op ops ih =>
    obtain ⟨pred, ref⟩ := op
    unfold operand at filled
    split_ifs at filled with same
    · obtain ⟨i, top, rfl⟩ := Option.map_eq_some_iff.mp filled
      intro op member
      rcases List.mem_cons.mp member with rfl | later
      · exact known_top clocked top
      · exact known op (.tail _ later)
    · obtain ⟨rest, others, rfl⟩ := Option.map_eq_some_iff.mp filled
      intro op member
      rcases List.mem_cons.mp member with rfl | later
      · exact known _ (.head _)
      · exact ih others (fun op later => known op (.tail _ later)) op later

/-- Filling in operands changes phis only, and leaves every definition as it is. -/
theorem operands_spec (clocked : Clocked names rank clock) {x : ℕ} {sts sts' : List Statement}
    (filled : names.operands x sts = some sts') (placed : ∀ st ∈ sts, Placed names rank st) :
    sts'.flatMap Statement.dstVars = sts.flatMap Statement.dstVars ∧ ∀ st ∈ sts', Placed names rank st := by
  induction sts generalizing sts' with
  | nil =>
    obtain rfl : sts' = [] := by simpa [operands, eq_comm] using filled
    exact ⟨rfl, by simp⟩
  | cons st sts ih =>
    have later : ∀ st ∈ sts, Placed names rank st := fun st member => placed st (.tail _ member)
    have kept : ∀ {rest : List Statement}, names.operands x sts = some rest → sts' = st :: rest →
        sts'.flatMap Statement.dstVars = (st :: sts).flatMap Statement.dstVars ∧
          ∀ st ∈ sts', Placed names rank st := by
      rintro rest others rfl
      obtain ⟨same, rest⟩ := ih others later
      refine ⟨by simp [same], fun st' member => ?_⟩
      rcases List.mem_cons.mp member with rfl | member
      · exact placed _ (.head _)
      · exact rest st' member
    cases st with
    | phi dest ops =>
      simp only [operands, Option.bind_eq_bind, Option.bind_eq_some_iff, Option.some.injEq] at filled
      obtain ⟨ops', filledOps, rest, filled, rfl⟩ := filled
      obtain ⟨same, rest⟩ := ih filled later
      refine ⟨by simp [same, Statement.dstVars], fun st' member => ?_⟩
      rcases List.mem_cons.mp member with rfl | member
      · have old := placed _ (.head _)
        refine ⟨fun ref member => ?_, by simp [Statement.isPhi]⟩
        rcases List.mem_append.mp member with source | dest
        · obtain ⟨op, here, rfl⟩ := List.mem_map.mp source
          refine operand_spec clocked filledOps (fun op here => ?_) op here
          exact old.known op.2 (List.mem_append_left _ (List.mem_map_of_mem here))
        · exact old.known ref (List.mem_append_right _ dest)
      · exact rest st' member
    | assign dest sources | callAssign info style rets args | nop =>
      simp only [operands, Option.map_eq_some_iff] at filled
      obtain ⟨rest, filled, rfl⟩ := filled
      exact kept filled rfl

end SsaRename

/-- Every definition of some blocks, in order. -/
def definitions (blocks : List BasicBlockData) : List VariableRef :=
  blocks.flatMap fun block => block.statements.flatMap Statement.dstVars

open SsaRename in
/-- Blocks in which no two definitions have the same version. -/
structure Numbered (blocks : List BasicBlockData) (names : SsaRename) (rank : VariableRef → ℕ) (clock : ℕ) : Prop where
  clocked : Clocked names rank clock
  placed : ∀ block ∈ blocks, ∀ st ∈ block.statements, Placed names rank st
  distinct : ((definitions blocks).filter fun d => d.version.isSome).Nodup
  nonzero : ∀ d ∈ definitions blocks, d.version ≠ some 0

namespace Numbered

open SsaRename

variable {blocks blocks' : List BasicBlockData} {names names' : SsaRename} {rank : VariableRef → ℕ} {clock : ℕ}

/-- Replacing a block by one with the same definitions. -/
theorem set_same (numbered : Numbered blocks names rank clock) {y : ℕ} {block : BasicBlockData}
    (here : blocks[y]? = some block) {sts : List Statement}
    (same : sts.flatMap Statement.dstVars = block.statements.flatMap Statement.dstVars)
    (placed : ∀ st ∈ sts, Placed names rank st) :
    Numbered (blocks.set y { block with statements := sts }) names rank clock := by
  obtain ⟨inside, rfl⟩ := List.getElem?_eq_some_iff.mp here
  obtain ⟨front, back, split, -, put⟩ : ∃ front back, blocks = front ++ blocks[y] :: back ∧ front.length = y ∧
      blocks.set y { blocks[y] with statements := sts } = front ++ { blocks[y] with statements := sts } :: back :=
    List.exists_of_set inside
  have defs : definitions (blocks.set y { blocks[y] with statements := sts }) = definitions blocks := by
    rw [put]
    conv_rhs => rw [split]
    simp [definitions, same]
  refine ⟨numbered.clocked, fun block' member => ?_, by rw [defs]; exact numbered.distinct,
    by rw [defs]; exact numbered.nonzero⟩
  rcases List.mem_or_eq_of_mem_set member with old | rfl
  · exact numbered.placed block' old
  · exact placed

/-- Replacing a block by one whose definitions are all new. -/
theorem set_fresh (numbered : Numbered blocks names rank clock) {x clock' : ℕ} {block : BasicBlockData} (block' : BasicBlockData)
    {rank' : VariableRef → ℕ} (here : blocks[x]? = some block) (clocked : Clocked names' rank' clock')
    (grown : Grown names rank names' rank') (placed : ∀ st ∈ block'.statements, Placed names' rank' st)
    (fresh : ∀ ref ∈ block'.statements.flatMap Statement.dstVars,
      ref.version.isSome ∧ ref.version ≠ some 0 ∧ ¬ names.Known ref)
    (nodup : (block'.statements.flatMap Statement.dstVars).Nodup) :
    Numbered (blocks.set x block') names' rank' clock' := by
  obtain ⟨inside, rfl⟩ := List.getElem?_eq_some_iff.mp here
  obtain ⟨front, back, split, -, put⟩ : ∃ front back, blocks = front ++ blocks[x] :: back ∧ front.length = x ∧
      blocks.set x block' = front ++ block' :: back := List.exists_of_set inside
  have old : (definitions blocks).Perm
      (blocks[x].statements.flatMap Statement.dstVars ++ (definitions front ++ definitions back)) := by
    conv_lhs => rw [split]
    simp only [definitions, List.flatMap_append, List.flatMap_cons]
    exact List.perm_append_comm_assoc ..
  have new : (definitions (blocks.set x block')).Perm
      (block'.statements.flatMap Statement.dstVars ++ (definitions front ++ definitions back)) := by
    rw [put]
    simp only [definitions, List.flatMap_append, List.flatMap_cons]
    exact List.perm_append_comm_assoc ..
  have known : ∀ ref ∈ definitions front ++ definitions back, names.Known ref := by
    intro ref member
    have inside := old.mem_iff.mpr (List.mem_append_right _ member)
    obtain ⟨b, bIn, inside⟩ := List.mem_flatMap.mp inside
    obtain ⟨st, stIn, inside⟩ := List.mem_flatMap.mp inside
    exact (numbered.placed b bIn st stIn).known ref (List.mem_append_right _ inside)
  refine ⟨clocked, fun b member => ?_, ?_, fun d member => ?_⟩
  · rcases List.mem_or_eq_of_mem_set member with was | rfl
    · exact fun st inside => (numbered.placed b was st inside).grown grown
    · exact placed
  · refine (new.filter _).nodup_iff.mpr ?_
    have rest := (old.filter _).nodup_iff.mp numbered.distinct
    rw [List.filter_append] at rest ⊢
    refine List.nodup_append.mpr ⟨nodup.filter _, (List.nodup_append.mp rest).2.1, ?_⟩
    rintro ref added other was rfl
    exact (fresh ref (List.mem_of_mem_filter added)).2.2 (known ref (List.mem_of_mem_filter was))
  · rcases List.mem_append.mp (new.mem_iff.mp member) with added | was
    · exact (fresh d added).2.1
    · exact numbered.nonzero d (old.mem_iff.mpr (List.mem_append_right _ was))

theorem enter (numbered : Numbered blocks names rank clock) {x : ℕ}
    (entered : SsaRename.enter blocks names x = some (blocks', names')) :
    ∃ rank' clock', Numbered blocks' names' rank' clock' := by
  simp only [SsaRename.enter, Option.bind_eq_bind, Option.bind_eq_some_iff, Option.some.injEq, Prod.mk.injEq,
    Prod.exists] at entered
  obtain ⟨block, here, term, last, sts, names₁, renamed, rewriting, found, filled, folded, rfl, rfl⟩ := entered
  obtain ⟨rank', clock', clocked', grown, placed', fresh, nodup⟩ := statements_spec numbered.clocked
    (fun st member ref source => (numbered.placed block (List.mem_of_getElem? here) st member).known ref
      (List.mem_append_left _ source)) renamed
  refine ⟨rank', clock', ?_⟩
  have start := numbered.set_fresh ⟨sts, some (term.mapSrc rewriting)⟩ here clocked' grown placed' fresh nodup
  refine foldlM_keeps (P := fun blocks => Numbered blocks names₁ rank' clock') start ?_ folded
  intro current numbered y _ next moved
  simp only [Option.bind_eq_some_iff, Option.some.injEq] at moved
  obtain ⟨block, here, sts, filled, rfl⟩ := moved
  obtain ⟨same, placed⟩ := operands_spec numbered.clocked filled (numbered.placed block (List.mem_of_getElem? here))
  exact numbered.set_same here same placed

theorem pop (numbered : Numbered blocks names rank clock) {v : Variable} (popped : names.pop v = some names') :
    Numbered blocks names' rank clock := by
  simp only [SsaRename.pop, Option.bind_eq_bind, Option.bind_eq_some_iff, Option.some.injEq] at popped
  obtain ⟨stack, found, rfl⟩ := popped
  refine ⟨⟨?_, numbered.clocked.early, numbered.clocked.positive⟩, fun block member st inside => ?_, numbered.distinct,
    numbered.nonzero⟩
  rotate_left
  · obtain ⟨known, older⟩ := numbered.placed block member st inside
    exact ⟨known, older⟩
  intro w stack' has k member
  by_cases same : w = v
  · subst same
    simp only [update_self, Option.some.injEq] at has
    subst has
    exact numbered.clocked.onStack found k (List.mem_of_mem_tail member)
  · exact numbered.clocked.onStack (by simpa [update_of_ne same] using has) k member

/-- The walk keeps the definitions apart, whatever tree it follows. -/
theorem search {dominators : Graph.DominatorTree} {fuel x : ℕ} (numbered : Numbered blocks names rank clock)
    (searched : SsaRename.search dominators fuel blocks names x = some (blocks', names')) :
    ∃ rank' clock', Numbered blocks' names' rank' clock' := by
  induction fuel generalizing blocks names rank clock x blocks' names' with
  | zero => simp [SsaRename.search] at searched
  | succ fuel ih =>
    simp only [SsaRename.search, Option.bind_eq_bind, Option.bind_eq_some_iff, Option.some.injEq, Prod.mk.injEq,
      Prod.exists] at searched
    obtain ⟨blocks₁, names₁, entered, blocks₂, names₂, children, block, here, names₃, popped, rfl, rfl⟩ := searched
    obtain ⟨rank₁, clock₁, numbered₁⟩ := numbered.enter entered
    obtain ⟨rank₂, clock₂, numbered₂⟩ : ∃ rank' clock', Numbered blocks₂ names₂ rank' clock' := by
      refine foldlM_keeps (P := fun state : List BasicBlockData × SsaRename =>
        ∃ rank' clock', Numbered state.1 state.2 rank' clock') ⟨rank₁, clock₁, numbered₁⟩ ?_ children
      rintro ⟨blocks, names⟩ ⟨rank', clock', numbered'⟩ y - ⟨blocks', names'⟩ visited
      exact ih numbered' visited
    refine ⟨rank₂, clock₂, foldlM_keeps (P := fun names => Numbered blocks₂ names rank₂ clock₂) numbered₂ ?_ popped⟩
    exact fun names numbered v _ names' popped => numbered.pop popped

end Numbered

/-- Renumbering a block keeps its references, less the phi operands it drops. -/
theorem renumber_refs {kept : List ℕ} {block block' : BasicBlockData} (renumbered : renumber kept block = some block') :
    (∀ st' ∈ block'.statements, ∃ st ∈ block.statements, st'.srcVars ⊆ st.srcVars ∧ st'.dstVars = st.dstVars) ∧
      ∀ term' ∈ block'.terminator, ∃ term ∈ block.terminator, term'.srcVars = term.srcVars := by
  have statements : ∀ st' ∈ block.statements.map (renumberStatement kept),
      ∃ st ∈ block.statements, st'.srcVars ⊆ st.srcVars ∧ st'.dstVars = st.dstVars := by
    intro st' member
    obtain ⟨st, inside, rfl⟩ := List.mem_map.mp member
    refine ⟨st, inside, ?_⟩
    cases st with
    | phi dest operands =>
      refine ⟨fun ref source => ?_, rfl⟩
      obtain ⟨op', renamed, rfl⟩ := List.mem_map.mp source
      obtain ⟨⟨pred, ref⟩, inside, rfl⟩ := List.mem_map.mp renamed
      exact List.mem_map.mpr ⟨_, List.mem_of_mem_filter inside, rfl⟩
    | assign dest sources => exact ⟨List.Subset.refl _, rfl⟩
    | callAssign info style rets args => exact ⟨List.Subset.refl _, rfl⟩
    | nop => exact ⟨List.Subset.refl _, rfl⟩
  unfold renumber at renumbered
  cases last : block.terminator with
  | none =>
    simp only [last, Option.some.injEq] at renumbered
    subst renumbered
    exact ⟨statements, by simp⟩
  | some term =>
    simp only [last, Option.bind_eq_bind, Option.bind_eq_some_iff, Option.some.injEq] at renumbered
    obtain ⟨term', found, rfl⟩ := renumbered
    refine ⟨statements, fun t here => ⟨term, rfl, ?_⟩⟩
    obtain rfl := Option.some.inj here
    cases term with
    | goto targets =>
      simp only [renumberTerminator] at found
      split_ifs at found
      obtain rfl := Option.some.inj found
      rfl
    | ret args =>
      obtain rfl := Option.some.inj found
      rfl

/-- No reference of the blocks has a version. -/
def Unversioned (blocks : List BasicBlockData) : Prop :=
  ∀ block ∈ blocks, (∀ st ∈ block.statements, ∀ ref ∈ st.srcVars ++ st.dstVars, ref.version = none) ∧
    ∀ term ∈ block.terminator, ∀ ref ∈ term.srcVars, ref.version = none

/-- A loop over blocks that may fail gives for each result the block it is from. -/
theorem mem_of_mapM {α β : Type} {f : α → Option β} {items : List α} {out : List β} (mapped : items.mapM f = some out) :
    ∀ b ∈ out, ∃ a ∈ items, f a = some b := by
  induction items generalizing out with
  | nil =>
    obtain rfl : out = [] := by simpa [eq_comm] using mapped
    simp
  | cons a rest ih =>
    simp only [List.mapM_cons, Option.bind_eq_bind, Option.pure_def, Option.bind_eq_some_iff, Option.some.injEq] at mapped
    obtain ⟨first, here, others, mapped, rfl⟩ := mapped
    intro b member
    rcases List.mem_cons.mp member with rfl | later
    · exact ⟨a, .head _, here⟩
    · obtain ⟨a', inside, found⟩ := ih mapped b later
      exact ⟨a', .tail _ inside, found⟩

namespace Unversioned

theorem prune {f g : FunctionData} (bare : Unversioned f.blocks) (pruned : pruneUnreachableNodes f = some g) :
    Unversioned g.blocks := by
  unfold pruneUnreachableNodes at pruned
  simp only at pruned
  split_ifs at pruned
  · exact Option.some.inj pruned ▸ bare
  · simp only [Option.bind_eq_bind, Option.bind_eq_some_iff, Option.some.injEq] at pruned
    obtain ⟨blocks, mapped, rfl⟩ := pruned
    intro block' member
    obtain ⟨old, -, found⟩ := mem_of_mapM mapped block' member
    simp only [Option.bind_eq_some_iff] at found
    obtain ⟨block, here, renumbered⟩ := found
    obtain ⟨statements, terminator⟩ := bare block (List.mem_of_getElem? here)
    obtain ⟨fromStatement, fromTerm⟩ := renumber_refs renumbered
    refine ⟨fun st' inside ref mentioned => ?_, fun term' last ref mentioned => ?_⟩
    · obtain ⟨st, stIn, sources, dests⟩ := fromStatement st' inside
      rcases List.mem_append.mp mentioned with source | dst
      · exact statements st stIn ref (List.mem_append_left _ (sources source))
      · exact statements st stIn ref (List.mem_append_right _ (dests ▸ dst))
    · obtain ⟨term, termIn, same⟩ := fromTerm term' last
      exact terminator term termIn ref (same ▸ mentioned)

/-- Putting return variables in place of returns adds no version. -/
theorem singleExit {exit : ℕ} {retvars : List VariableRef} {block block' : BasicBlockData}
    (bare : Unversioned [block]) (fresh : ∀ v ∈ retvars, v.version = none)
    (rewritten : singleExitRewrite exit retvars block = some block') : Unversioned [block'] := by
  obtain ⟨statements, terminator⟩ := bare block (List.mem_singleton_self _)
  unfold singleExitRewrite at rewritten
  split at rewritten
  · simp at rewritten
  · exact Option.some.inj rewritten ▸ bare
  · rename_i args last
    obtain rfl := Option.some.inj rewritten
    intro b member
    obtain rfl := List.mem_singleton.mp member
    refine ⟨fun st inside ref mentioned => ?_, fun term here ref mentioned => ?_⟩
    · rcases List.mem_append.mp inside with old | added
      · exact statements st old ref mentioned
      · obtain ⟨i, here⟩ := List.mem_iff_getElem?.mp added
        obtain ⟨retvar, arg, at?, argAt, rfl⟩ := List.getElem?_zipWith_eq_some.mp here
        simp only [Statement.srcVars, Statement.dstVars, AccessPath.ofRef, AccessPath.isPathless, List.isEmpty_nil, if_true,
          List.nil_append, List.mem_append, List.mem_filterMap, List.mem_singleton, exists_eq_left] at mentioned
        rcases mentioned with source | rfl
        · refine terminator _ last ref (List.mem_filterMap.mpr ⟨arg, List.mem_of_getElem? argAt, source⟩)
        · exact fresh _ (List.mem_of_getElem? at?)
    · obtain rfl := Option.some.inj here
      simp [Terminator.srcVars] at mentioned

theorem of_singletons {blocks : List BasicBlockData} (each : ∀ block ∈ blocks, Unversioned [block]) : Unversioned blocks :=
  fun block member => each block member block (List.mem_singleton_self _)

theorem singleton {blocks : List BasicBlockData} (bare : Unversioned blocks) {block : BasicBlockData}
    (member : block ∈ blocks) : Unversioned [block] := by
  intro b inside
  obtain rfl := List.mem_singleton.mp inside
  exact bare b member

theorem complete {f g : FunctionData} (bare : Unversioned f.blocks) (completed : complete f = some g) :
    Unversioned g.blocks := by
  have fresh : ∀ v ∈ (internRetvars f.locals f.returnArity).2, v.version = none := by
    unfold internRetvars
    refine List.foldlRecOn _ _ (motive := fun state : List String × List VariableRef => ∀ v ∈ state.2, v.version = none)
      (by simp) ?_
    rintro ⟨locals, retvars⟩ old i - v member
    rcases List.mem_append.mp member with was | new
    · exact old v was
    · obtain rfl := List.mem_singleton.mp new
      rfl
  unfold Ssa.complete at completed
  simp only [Option.bind_eq_bind, Option.bind_eq_some_iff] at completed
  obtain ⟨blocks, mapped, completed⟩ := completed
  have rewritten : Unversioned blocks := of_singletons fun block member => by
    obtain ⟨old, inside, found⟩ := mem_of_mapM mapped block member
    exact (bare.singleton inside).singleExit fresh found
  cases blocks with
  | nil => simp at completed
  | cons start rest =>
    obtain ⟨statements, -⟩ := rewritten start (.head _)
    simp only at completed
    split at completed
    · obtain rfl := Option.some.inj completed
      intro block member
      rcases List.mem_append.mp member with old | new
      · rcases List.mem_cons.mp old with rfl | later
        · exact ⟨statements, by simp [Terminator.srcVars]⟩
        · exact rewritten block (.tail _ later)
      · obtain rfl := List.mem_singleton.mp new
        refine ⟨by simp, fun term here ref mentioned => ?_⟩
        obtain rfl := Option.some.inj here
        obtain ⟨e, inside, base⟩ := List.mem_filterMap.mp mentioned
        obtain ⟨v, member, rfl⟩ := List.mem_map.mp inside
        obtain rfl := Option.some.inj base
        exact fresh v member
    · simp at completed
    · simp at completed

theorem insertPhi {original blocks : List BasicBlockData} (bare : Unversioned blocks) (mode : PhiMode)
    (frontier : Ctadl.Graph.DominanceFrontier) (v : Variable) :
    Unversioned (PhiPlace.insertPhi original mode frontier blocks v) := by
  intro block' member
  obtain ⟨y, at?⟩ := List.mem_iff_getElem?.mp member
  simp only [PhiPlace.insertPhi, List.getElem?_mapIdx, Option.map_eq_some_iff] at at?
  obtain ⟨block, here, rfl⟩ := at?
  obtain ⟨statements, terminator⟩ := bare block (List.mem_of_getElem? here)
  split_ifs
  · refine ⟨fun st inside ref mentioned => ?_, terminator⟩
    rcases List.mem_cons.mp inside with rfl | old
    · simp only [Statement.srcVars, Statement.dstVars, List.map_map, List.mem_append, List.mem_map,
        List.mem_singleton] at mentioned
      rcases mentioned with ⟨pred, -, rfl⟩ | rfl <;> rfl
    · exact statements st old ref mentioned
  · exact ⟨statements, terminator⟩

end Unversioned

/-- The versioned definitions are distinct, and a statement other than a phi reads older versions than it
defines. -/
structure InSsa (blocks : List BasicBlockData) (rank : VariableRef → ℕ) : Prop where
  distinct : ((definitions blocks).filter fun d => d.version.isSome).Nodup
  older : ∀ block ∈ blocks, ∀ st ∈ block.statements, st.isPhi = false → ∀ s ∈ st.srcVars, s.version.isSome →
    ∀ d ∈ st.dstVars, d.version.isSome → rank s < rank d

/-- The bindings of the parameters define versions that nothing else defines. -/
theorem Numbered.bindParams {blocks : List BasicBlockData} {names : SsaRename} {rank : VariableRef → ℕ} {clock : ℕ}
    (numbered : Numbered blocks names rank clock) (params : ℕ) : InSsa (bindParams params blocks) rank := by
  suffices bound : ∀ n, InSsa (Ssa.bindParams n blocks) rank ∧ ∀ d ∈ definitions (Ssa.bindParams n blocks),
      d.version ≠ some 0 ∨ ∃ idx < n, d = (VariableRef.new (.paramVar idx)).withVersion 0 from (bound params).1
  intro n
  induction n with
  | zero =>
    refine ⟨⟨numbered.distinct, fun block member st inside plain => ?_⟩, fun d member => .inl (numbered.nonzero d member)⟩
    exact (numbered.placed block member st inside).older plain
  | succ n ih =>
    obtain ⟨⟨distinct, older⟩, named⟩ := ih
    have next : Ssa.bindParams (n + 1) blocks = (Ssa.bindParams n blocks).modify 0 fun block =>
        { block with statements := entryBinding n :: block.statements } := by
      simp [Ssa.bindParams, List.range_succ]
    cases before : Ssa.bindParams n blocks with
    | nil =>
      rw [next, before]
      exact ⟨⟨.nil, by simp⟩, by simp [definitions]⟩
    | cons start rest =>
      rw [before] at distinct older named next
      rw [next]
      have defs : definitions ((start :: rest).modify 0 fun block =>
          { block with statements := entryBinding n :: block.statements }) =
          (VariableRef.new (.paramVar n)).withVersion 0 :: definitions (start :: rest) := rfl
      rw [defs]
      refine ⟨⟨?_, fun block member st inside plain s source versioned => ?_⟩, fun d member => ?_⟩
      · rw [defs, List.filter_cons_of_pos rfl]
        refine List.nodup_cons.mpr ⟨fun again => ?_, distinct⟩
        rcases named _ (List.mem_of_mem_filter again) with other | ⟨idx, less, same⟩
        · exact other rfl
        · simp only [VariableRef.withVersion, VariableRef.new, VariableRef.mk.injEq, Variable.paramVar.injEq, and_true] at same
          omega
      · rcases List.mem_cons.mp member with rfl | later
        · rcases List.mem_cons.mp inside with rfl | old
          · obtain rfl : s = .new (.paramVar n) := List.mem_singleton.mp source
            simp [VariableRef.new] at versioned
          · exact older start (.head _) st old plain s source versioned
        · exact older block (.tail _ later) st inside plain s source versioned
      · rcases List.mem_cons.mp member with rfl | old
        · exact .inr ⟨n, by omega, rfl⟩
        · refine (named d old).imp_right ?_
          rintro ⟨idx, less, rfl⟩
          exact ⟨idx, by omega, rfl⟩

theorem placed_of_unversioned {blocks : List BasicBlockData} (bare : Unversioned blocks) (names : SsaRename) :
    ∀ block ∈ blocks, ∀ st ∈ block.statements, SsaRename.Placed names (fun _ => 0) st := by
  intro block member st inside
  have versions := (bare block member).1 st inside
  refine ⟨fun ref mentioned => SsaRename.known_of_unversioned (versions ref mentioned), fun _ s source versioned => ?_⟩
  simp [versions s (List.mem_append_left _ source)] at versioned

theorem definitions_of_unversioned {blocks : List BasicBlockData} (bare : Unversioned blocks) :
    ∀ d ∈ definitions blocks, d.version = none := by
  intro d member
  obtain ⟨block, inside, member⟩ := List.mem_flatMap.mp member
  obtain ⟨st, stIn, member⟩ := List.mem_flatMap.mp member
  exact (bare block inside).1 st stIn d (List.mem_append_right _ member)

/-- The walk numbers the definitions of blocks that have no versions yet. -/
theorem numbered_new {blocks blocks' : List BasicBlockData} {place : PhiPlace} {names : SsaRename} (bare : Unversioned blocks)
    (renamed : SsaRename.new blocks place = some (blocks', names)) : ∃ rank clock, Numbered blocks' names rank clock := by
  have start : Numbered blocks
      { s := fun v => if v ∈ place.vars then some [0] else none
        c := fun v => if v ∈ place.vars then some 1 else none } (fun _ => 0) 1 := by
    refine ⟨⟨?_, fun _ _ => Nat.one_pos, ?_⟩, placed_of_unversioned bare _, ?_, ?_⟩
    · intro v stack found k member
      simp only [Option.ite_none_right_eq_some, Option.some.injEq] at found
      obtain ⟨known, rfl⟩ := found
      obtain rfl := List.mem_singleton.mp member
      intro k' same
      obtain rfl := Option.some.inj same
      exact ⟨1, if_pos known, Nat.one_pos⟩
    · intro v n found
      simp only [Option.ite_none_right_eq_some, Option.some.injEq] at found
      exact found.2 ▸ Nat.one_pos
    · rw [List.filter_eq_nil_iff.mpr fun d member => by simp [definitions_of_unversioned bare d member]]
      exact .nil
    · intro d member
      simp [definitions_of_unversioned bare d member]
  exact start.search renamed

theorem Unversioned.placePhis {blocks blocks' : List BasicBlockData} {mode : PhiMode} {hash : Ctadl.Graph.HashOrder} {place : PhiPlace}
    (bare : Unversioned blocks) (placed : PhiPlace.new blocks mode hash = some (place, blocks')) : Unversioned blocks' := by
  simp only [PhiPlace.new, Option.bind_eq_bind, Option.bind_eq_some_iff, Option.some.injEq, Prod.mk.injEq] at placed
  obtain ⟨dominators, -, -, rfl⟩ := placed
  exact List.foldlRecOn _ _ (motive := Unversioned) bare fun blocks bare v _ => bare.insertPhi mode _ v

/-- What a conversion gives of a function that has no versions yet. -/
theorem inSsa_of_transformWith {f g : FunctionData} {prune : Bool} {mode : PhiMode} {hash : Ctadl.Graph.HashOrder}
    (bare : Unversioned f.blocks) (transformed : transformWith f prune mode hash = some g) :
    ∃ rank, InSsa g.blocks rank := by
  by_cases empty : f.blocks = []
  · unfold transformWith at transformed
    rw [if_pos (by simp [empty])] at transformed
    obtain rfl := Option.some.inj transformed
    refine ⟨fun _ => 0, ?_, ?_⟩
    · rw [List.filter_eq_nil_iff.mpr fun d member => by simp [definitions_of_unversioned bare d member]]
      exact .nil
    · rw [empty]
      simp
  · obtain ⟨f₁, f₂, place, blocks, blocks', names, pruned, completed, placed, renamed, rfl⟩ :=
      transformWith_eq_some empty transformed
    have bare₁ : Unversioned f₁.blocks := by
      split_ifs at pruned
      · exact bare.prune pruned
      · exact Option.some.inj pruned ▸ bare
    obtain ⟨rank, clock, numbered⟩ := numbered_new ((bare₁.complete completed).placePhis placed) renamed
    exact ⟨rank, numbered.bindParams _⟩

end Ctadl.Ssa
