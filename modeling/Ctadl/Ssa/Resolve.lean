import Ctadl.Ssa.Numbering
import Mathlib.Data.List.Flatten

/-! # What a version stands for

A version that a phi defines stands for what the operands of the phi stand for, any other version for the
one statement that defines it, or for the value the variable comes in with. Two lists of blocks that place
different phis are compared by a relation between their versions under which definitions stand at the same
places and the operands of phis are related again: related versions stand for the same definitions
(`Alike.resolves_iff`), and are read through related phis (`Alike.reads`).
-/

namespace Ctadl.Ssa

open Cir Relation

/-- The statements of a block other than phis. -/
def plainStatements (block : BasicBlockData) : List Statement := block.statements.filter fun st => !st.isPhi

/-- What a block defines other than by phis, in order. -/
def plainDefs (block : BasicBlockData) : List VariableRef := (plainStatements block).flatMap Statement.dstVars

/-- What a block reads other than in phis, in order. -/
def plainUses (block : BasicBlockData) : List VariableRef :=
  (plainStatements block).flatMap Statement.srcVars ++ (block.terminator.map Terminator.srcVars).getD []

/-- Block `b` has a phi with this destination and these operands. -/
def HasPhi (blocks : List BasicBlockData) (b : ℕ) (dest : VariableRef) (operands : List (ℕ × VariableRef)) : Prop :=
  ∃ block, blocks[b]? = some block ∧ .phi dest operands ∈ block.statements

/-- What a version stands for through the operands of phis: the value the variable comes in with, or a
definition, given by its block and its place among what the block defines other than by phis. -/
inductive Resolves (blocks : List BasicBlockData) : VariableRef → Option (ℕ × ℕ) → Prop
  | incoming {ref : VariableRef} (undefined : ref ∉ definitions blocks) : Resolves blocks ref none
  | definition {ref : VariableRef} {b k : ℕ} {block : BasicBlockData} (here : blocks[b]? = some block)
      (defines : (plainDefs block)[k]? = some ref) : Resolves blocks ref (some (b, k))
  | operand {ref : VariableRef} {b : ℕ} {operands : List (ℕ × VariableRef)} {op : ℕ × VariableRef} {d : Option (ℕ × ℕ)}
      (phi : HasPhi blocks b ref operands) (member : op ∈ operands) (resolves : Resolves blocks op.2 d) :
      Resolves blocks ref d

/-- A phi that defines the first version has the second one as an operand. -/
def PhiReads (blocks : List BasicBlockData) (ref ref' : VariableRef) : Prop :=
  ∃ b operands, HasPhi blocks b ref operands ∧ ref' ∈ operands.map Prod.snd

section Single

variable {blocks : List BasicBlockData} {b b' k k' : ℕ} {block block' : BasicBlockData} {ref : VariableRef}
  {operands operands' : List (ℕ × VariableRef)}

/-- In lists without repetition in their concatenation, an element is in one of them. -/
theorem index_unique {α β : Type} {f : α → List β} {items : List α} (nodup : (items.flatMap f).Nodup) {i j : ℕ} {a c : α}
    {x : β} (first : items[i]? = some a) (second : items[j]? = some c) (here : x ∈ f a) (there : x ∈ f c) : i = j := by
  obtain ⟨-, apart⟩ := List.nodup_flatMap.mp nodup
  obtain ⟨iLt, rfl⟩ := List.getElem?_eq_some_iff.mp first
  obtain ⟨jLt, rfl⟩ := List.getElem?_eq_some_iff.mp second
  rcases Nat.lt_trichotomy i j with lt | same | gt
  · exact absurd there (List.pairwise_iff_getElem.mp apart i j iLt jLt lt here)
  · exact same
  · exact absurd here (List.pairwise_iff_getElem.mp apart j i jLt iLt gt there)

theorem mem_definitions_of_plainDefs (here : blocks[b]? = some block) (defines : ref ∈ plainDefs block) :
    ref ∈ definitions blocks := by
  obtain ⟨st, inside, isDst⟩ := List.mem_flatMap.mp defines
  exact List.mem_flatMap.mpr ⟨block, List.mem_of_getElem? here,
    List.mem_flatMap.mpr ⟨st, List.mem_of_mem_filter inside, isDst⟩⟩

theorem HasPhi.mem_definitions (phi : HasPhi blocks b ref operands) : ref ∈ definitions blocks := by
  obtain ⟨block, here, member⟩ := phi
  exact List.mem_flatMap.mpr ⟨block, List.mem_of_getElem? here, List.mem_flatMap.mpr ⟨_, member, List.mem_singleton_self _⟩⟩

variable (single : (definitions blocks).Nodup)
include single

theorem nodup_of_block (here : blocks[b]? = some block) : (block.statements.flatMap Statement.dstVars).Nodup :=
  (List.nodup_flatMap.mp single).1 block (List.mem_of_getElem? here)

/-- Two statements that define the same version are one. -/
theorem statement_unique (here : blocks[b]? = some block) (there : blocks[b']? = some block') {st st' : Statement}
    (member : st ∈ block.statements) (member' : st' ∈ block'.statements) (defines : ref ∈ st.dstVars)
    (defines' : ref ∈ st'.dstVars) : b = b' ∧ st = st' := by
  obtain rfl : b = b' := index_unique single here there (List.mem_flatMap.mpr ⟨st, member, defines⟩)
    (List.mem_flatMap.mpr ⟨st', member', defines'⟩)
  obtain rfl := Option.some.inj (here.symm.trans there)
  obtain ⟨i, atI⟩ := List.mem_iff_getElem?.mp member
  obtain ⟨j, atJ⟩ := List.mem_iff_getElem?.mp member'
  obtain rfl := index_unique (nodup_of_block single here) atI atJ defines defines'
  exact ⟨rfl, Option.some.inj (atI.symm.trans atJ)⟩

theorem HasPhi.unique (phi : HasPhi blocks b ref operands) (phi' : HasPhi blocks b' ref operands') :
    b = b' ∧ operands = operands' := by
  obtain ⟨block, here, member⟩ := phi
  obtain ⟨block', there, member'⟩ := phi'
  obtain ⟨same, sameSt⟩ := statement_unique single here there member member' (List.mem_singleton_self ref)
    (List.mem_singleton_self ref)
  exact ⟨same, (Statement.phi.inj sameSt).2⟩

theorem HasPhi.not_plainDefs (phi : HasPhi blocks b ref operands) (here : blocks[b']? = some block)
    (defines : ref ∈ plainDefs block) : False := by
  obtain ⟨block', there, member⟩ := phi
  obtain ⟨st, inside, isDst⟩ := List.mem_flatMap.mp defines
  obtain ⟨inBlock, notPhi⟩ := List.mem_filter.mp inside
  obtain ⟨-, rfl⟩ := statement_unique single there here member inBlock (List.mem_singleton_self ref) isDst
  simp [Statement.isPhi] at notPhi

theorem plainDefs_unique (here : blocks[b]? = some block) (there : blocks[b']? = some block')
    (defines : (plainDefs block)[k]? = some ref) (defines' : (plainDefs block')[k']? = some ref) : b = b' ∧ k = k' := by
  obtain ⟨st, inside, isDst⟩ := List.mem_flatMap.mp (List.mem_of_getElem? defines)
  obtain ⟨st', inside', isDst'⟩ := List.mem_flatMap.mp (List.mem_of_getElem? defines')
  obtain ⟨rfl, -⟩ := statement_unique single here there (List.mem_of_mem_filter inside) (List.mem_of_mem_filter inside') isDst
    isDst'
  obtain rfl := Option.some.inj (here.symm.trans there)
  have nodup : (plainDefs block).Nodup := by
    refine (nodup_of_block single here).sublist ?_
    exact List.filter_sublist.flatMap Statement.dstVars
  obtain ⟨less, isRef⟩ := List.getElem?_eq_some_iff.mp defines
  obtain ⟨less', isRef'⟩ := List.getElem?_eq_some_iff.mp defines'
  exact ⟨rfl, (List.Nodup.getElem_inj_iff nodup).mp (isRef.trans isRef'.symm)⟩

end Single

/-- What related versions of two lists of blocks are: undefined in both, defined at the same place, or
defined by phis of the same block whose operands are related. -/
inductive AlikeAt (blocks blocks' : List BasicBlockData) (C : VariableRef → VariableRef → Prop) (ref ref' : VariableRef) : Prop
  | incoming (undefined : ref ∉ definitions blocks) (undefined' : ref' ∉ definitions blocks')
  | definition {b k : ℕ} {block block' : BasicBlockData} (here : blocks[b]? = some block) (here' : blocks'[b]? = some block')
      (defines : (plainDefs block)[k]? = some ref) (defines' : (plainDefs block')[k]? = some ref')
  | phi {b : ℕ} {operands operands' : List (ℕ × VariableRef)} (phi : HasPhi blocks b ref operands)
      (phi' : HasPhi blocks' b ref' operands') (forth : ∀ op ∈ operands, ∃ op' ∈ operands', C op.2 op'.2)
      (back : ∀ op' ∈ operands', ∃ op ∈ operands, C op.2 op'.2)

/-- A relation between the versions of two lists of blocks that define no version twice. -/
structure Alike (blocks blocks' : List BasicBlockData) (C : VariableRef → VariableRef → Prop) : Prop where
  single : (definitions blocks).Nodup
  single' : (definitions blocks').Nodup
  var : ∀ {ref ref'}, C ref ref' → ref.var = ref'.var
  alike : ∀ {ref ref'}, C ref ref' → AlikeAt blocks blocks' C ref ref'

namespace Alike

variable {blocks blocks' : List BasicBlockData} {C : VariableRef → VariableRef → Prop} {ref ref' dest dest' : VariableRef}
  {d : Option (ℕ × ℕ)}

theorem symm (alike : Alike blocks blocks' C) : Alike blocks' blocks fun ref ref' => C ref' ref where
  single := alike.single'
  single' := alike.single
  var related := (alike.var related).symm
  alike related := by
    cases alike.alike related with
    | incoming undefined undefined' => exact .incoming undefined' undefined
    | definition here here' defines defines' => exact .definition here' here defines' defines
    | phi phi phi' forth back => exact .phi phi' phi back forth

/-- What a version stands for, a related one stands for. -/
theorem resolves (alike : Alike blocks blocks' C) (related : C ref ref') (resolves : Resolves blocks ref d) :
    Resolves blocks' ref' d := by
  induction resolves generalizing ref' with
  | incoming undefined =>
    cases alike.alike related with
    | incoming _ undefined' => exact .incoming undefined'
    | definition here _ defines _ => exact absurd (mem_definitions_of_plainDefs here (List.mem_of_getElem? defines)) undefined
    | phi phi _ _ _ => exact absurd phi.mem_definitions undefined
  | definition here defines =>
    cases alike.alike related with
    | incoming undefined _ => exact absurd (mem_definitions_of_plainDefs here (List.mem_of_getElem? defines)) undefined
    | definition there there' definesThere definesThere' =>
      obtain ⟨rfl, rfl⟩ := plainDefs_unique alike.single here there defines definesThere
      exact .definition there' definesThere'
    | phi phi _ _ _ => exact (phi.not_plainDefs alike.single here (List.mem_of_getElem? defines)).elim
  | operand phi member _ ih =>
    cases alike.alike related with
    | incoming undefined _ => exact absurd phi.mem_definitions undefined
    | definition here _ defines _ => exact (phi.not_plainDefs alike.single here (List.mem_of_getElem? defines)).elim
    | phi there there' forth _ =>
      obtain ⟨rfl, rfl⟩ := phi.unique alike.single there
      obtain ⟨op', member', related'⟩ := forth _ member
      exact .operand there' member' (ih related')

/-- Related versions stand for the same definitions. -/
theorem resolves_iff (alike : Alike blocks blocks' C) (related : C ref ref') :
    Resolves blocks ref d ↔ Resolves blocks' ref' d :=
  ⟨alike.resolves related, alike.symm.resolves related⟩

/-- What is read through phis from a version is related to what is read through phis from a related one. -/
theorem reads (alike : Alike blocks blocks' C) (related : C ref ref') (leads : ReflTransGen (PhiReads blocks) ref dest) :
    ∃ dest', C dest dest' ∧ ReflTransGen (PhiReads blocks') ref' dest' := by
  induction leads with
  | refl => exact ⟨ref', related, .refl⟩
  | @tail mid dest _ step ih =>
    obtain ⟨mid', related', leads'⟩ := ih
    obtain ⟨b, operands, phi, member⟩ := step
    obtain ⟨op, isOp, rfl⟩ := List.mem_map.mp member
    cases alike.alike related' with
    | incoming undefined _ => exact absurd phi.mem_definitions undefined
    | definition here _ defines _ => exact (phi.not_plainDefs alike.single here (List.mem_of_getElem? defines)).elim
    | phi there there' forth _ =>
      obtain ⟨rfl, rfl⟩ := phi.unique alike.single there
      obtain ⟨op', member', related''⟩ := forth op isOp
      exact ⟨op'.2, related'', leads'.tail ⟨_, _, there', List.mem_map_of_mem member'⟩⟩

/-- A version related to one that a phi defines is defined by a phi of the same block, for the same variable. -/
theorem hasPhi (alike : Alike blocks blocks' C) (related : C ref ref') {b : ℕ} {operands : List (ℕ × VariableRef)}
    (phi : HasPhi blocks b ref operands) : ref'.var = ref.var ∧ ∃ operands', HasPhi blocks' b ref' operands' := by
  refine ⟨(alike.var related).symm, ?_⟩
  cases alike.alike related with
  | incoming undefined _ => exact absurd phi.mem_definitions undefined
  | definition here _ defines _ => exact (phi.not_plainDefs alike.single here (List.mem_of_getElem? defines)).elim
  | phi there there' _ _ =>
    obtain ⟨rfl, -⟩ := phi.unique alike.single there
    exact ⟨_, there'⟩

end Alike

end Ctadl.Ssa
