import Ctadl.Cir.Location
import Ctadl.Cir.Program

/-! # The verifier

What a function has to satisfy before the passes may take it. The checks run in the order the visitor
meets them, and each failure is one error, so a function is well formed when the list of errors is empty.
An error holds the access path or the variable that the source prints into its message.
-/

namespace Ctadl.Cir

variable {O : Type}

/-- A statement of a function; the terminator has the index after the last statement. -/
structure Location where
  function : ℕ
  block : ℕ
  statementIndex : ℕ
deriving DecidableEq, Repr

inductive VerifyError (O : Type := Int64) where
  /-- A function was found that has an empty name. -/
  | unnamedFunction (index : ℕ)
  | multiplyDefinedFunction (index : ℕ)
  /-- Parameter reference found outside the bounds of declared parameters. -/
  | parameterDoesNotExist (function : String) (parameter : ℕ)
  /-- Local reference found outside the bounds of the function's locals table. -/
  | localDoesNotExist (function : String) (idx : ℕ)
  | blockDoesNotExist (function : String) (block target : ℕ)
  /-- A return of another number of values than the function's arity. -/
  | inconsistentReturns (function : String) (expectedArity actualArity : ℕ)
  | noTerminator (function block : ℕ)
  /-- A goto instruction with no target blocks. -/
  | emptyGoto (function : String) (location : Location)
  | notNormal (function : String) (location : Location) (path : AccessPath O)
  | voidPath (function : String) (location : Location) (path : AccessPath O)
  | addressDestination (function : String) (location : Location) (path : AccessPath O)
  /-- `value(p)` anywhere but as an assignment's source. -/
  | misplacedValue (function : String) (location : Location)
  | globalOutOfRange (function : String) (global : ℕ)
  | versionedGlobal (function : String) (global version : ℕ)
  | copyIntoGlobal (function : String) (location : Location) (global : VariableRef)
  | callResultIntoGlobal (function : String) (location : Location) (global : VariableRef)
  | phiOverGlobal (function : String) (location : Location) (global : VariableRef)
  /-- The `#value` segment spelled as a field. -/
  | valueSpelledAsField (function : String) (location : Location) (path : AccessPath O)
  /-- A store whose base is a version nothing defines. -/
  | storeDefinesBase (function : String) (location : Location) (base : VariableRef)
deriving DecidableEq, Repr

/-- The variables a visit of a statement meets, in its order. -/
def Statement.visited : Statement O → List VariableRef
  | assign dest sources => sources.filterMap Exp.baseVariable ++ [dest.base]
  | callAssign _ style rets args => style.receiver.toList ++ args.filterMap Exp.baseVariable ++ rets
  | phi dest operands => dest :: operands.map Prod.snd
  | nop => []

/-- The callee path of an indirect call. -/
def CallStyle.calleePath : CallStyle O → Option (AccessPath O)
  | funcPtrCall callee _ => some callee
  | unknown | directCall _ | javaCall _ _ _ _ _ _ | luaCall _ _ | cilCall _ _ _ _ => none

def Exp.isValue : Exp O → Bool
  | value _ => true
  | path _ | objectRef _ | str _ | int _ | bytes _ => false

namespace CirVerify

variable (globalsLen : Option ℕ) (data : FunctionData O)

/-- A referenced variable exists, and a global has no version. `globalsLen` is absent when a function is
verified on its own. -/
def visitVariableRef (ref : VariableRef) : List (VerifyError O) :=
  match ref.var with
  | .paramVar idx => if data.params.length ≤ idx then [.parameterDoesNotExist data.name idx] else []
  | .globalVar idx =>
    (if globalsLen.any (· ≤ idx) then [.globalOutOfRange data.name idx] else []) ++
      ref.version.toList.map (.versionedGlobal data.name idx)
  | .localVar idx => if data.locals.length ≤ idx then [.localDoesNotExist data.name idx] else []

section Paths

variable [Add O] [OfNat O 0] [DecidableEq O]

/-- The checks every access path operand gets. -/
def checkAccessPath (ap : AccessPath O) (location : Location) : List (VerifyError O) :=
  (if normalize ap.segments = ap.segments then [] else [.notNormal data.name location ap]) ++
  (if classify ap.segments = .void then [.voidPath data.name location ap] else []) ++
  (if .field "#value" ∈ ap.segments then [.valueSpelledAsField data.name location ap] else [])

/-- An operand: its access path, and that it is no `value(..)` unless that is allowed here. -/
def checkExp (e : Exp O) (valueOk : Bool) (location : Location) : List (VerifyError O) :=
  (e.accessPath.toList.flatMap fun ap => checkAccessPath data ap location) ++
  (if e.isValue && !valueOk then [.misplacedValue data.name location] else [])

def visitStatementKind (st : Statement O) (location : Location) : List (VerifyError O) :=
  st.visited.flatMap (visitVariableRef globalsLen data) ++
  match st with
  | .assign dest sources =>
    checkAccessPath data dest location ++
    (if classify dest.segments = .address then [.addressDestination data.name location dest] else []) ++
    (if dest.isPathless && dest.base.var.isGlobal then [.copyIntoGlobal data.name location dest.base] else []) ++
    sources.flatMap fun e => checkExp data e true location
  | .callAssign _ style rets args =>
    (args.flatMap fun e => checkExp data e false location) ++
    (style.calleePath.toList.flatMap fun callee => checkAccessPath data callee location) ++
    (rets.filter fun r => r.var.isGlobal).map (.callResultIntoGlobal data.name location)
  | .phi dest operands =>
    (((dest :: operands.map Prod.snd).find? fun v => v.var.isGlobal).map
      (.phiOverGlobal data.name location)).toList
  | .nop => []

def visitTerminatorKind (term : Terminator O) (location : Location) : List (VerifyError O) :=
  match term with
  | .ret args =>
    (args.filterMap Exp.baseVariable).flatMap (visitVariableRef globalsLen data) ++
    (args.flatMap fun e => checkExp data e false location) ++
    (if args.length = data.returnArity then []
      else [.inconsistentReturns data.name data.returnArity args.length])
  | .goto targets =>
    if targets.isEmpty then [.emptyGoto data.name location]
    else (targets.filter fun target => data.blocks.length ≤ target).map
      (.blockDoesNotExist data.name location.block)

def visitBasicBlockData (idx block : ℕ) (contents : BasicBlockData O) : List (VerifyError O) :=
  (contents.statements.zipIdx.flatMap fun (st, i) => visitStatementKind globalsLen data st ⟨idx, block, i⟩) ++
  (contents.terminator.toList.flatMap fun term =>
    visitTerminatorKind globalsLen data term ⟨idx, block, contents.statements.length⟩) ++
  (if contents.terminator.isNone then [.noTerminator idx block] else [])

end Paths

/-- Every variable some statement defines. -/
def defined (blocks : List (BasicBlockData O)) : List VariableRef :=
  blocks.flatMap fun block => block.statements.flatMap Statement.dstVars

/-- A store through a version that nothing defines. -/
def storesUndefined (blocks : List (BasicBlockData O)) : Statement O → Option VariableRef
  | .assign dest _ =>
    if !dest.isPathless && dest.base.version.any (· ≠ 0) && !(dest.base ∈ defined blocks) then some dest.base
    else none
  | .callAssign _ _ _ _ | .phi _ _ | .nop => none

/-- A store reads its base, so the base's version is defined somewhere or is the incoming one. -/
def checkStoreBases (idx : ℕ) : List (VerifyError O) :=
  data.blocks.zipIdx.flatMap fun (block, b) => block.statements.zipIdx.flatMap fun (st, i) =>
    ((storesUndefined data.blocks st).map (.storeDefinesBase data.name ⟨idx, b, i⟩)).toList

variable [Add O] [OfNat O 0] [DecidableEq O]

/-- The checks of one function; `defines` are the names of the functions before it. -/
def visitFunctionData (defines : List String) (idx : ℕ) : List (VerifyError O) :=
  (if data.name.isEmpty then [.unnamedFunction idx] else []) ++
  (if data.name ∈ defines then [.multiplyDefinedFunction idx] else []) ++
  (data.blocks.zipIdx.flatMap fun (block, b) => visitBasicBlockData globalsLen data idx b block) ++
  checkStoreBases data idx

end CirVerify

section Verify

variable [Add O] [OfNat O 0] [DecidableEq O]

/-- The errors of a function on its own. -/
def FunctionData.verify (data : FunctionData O) : List (VerifyError O) := CirVerify.visitFunctionData none data [] 0

/-- The errors of a program. -/
def Program.verify (program : Program O) : List (VerifyError O) :=
  program.functions.zipIdx.flatMap fun (data, idx) =>
    CirVerify.visitFunctionData (some program.globals.length) data ((program.functions.take idx).map FunctionData.name)
      idx

end Verify

namespace CirVerify

variable [Add O] [OfNat O 0] [DecidableEq O] {globalsLen : Option ℕ} {data : FunctionData O} {location : Location}

/-- An access path that is normal, not void, and has no field of the name of the `#value` segment. -/
structure PathOk (ap : AccessPath O) : Prop where
  normal : Clear ap.segments
  notVoid : classify ap.segments ≠ .void
  noField : .field "#value" ∉ ap.segments

def ExpOk (valueOk : Bool) (e : Exp O) : Prop :=
  (∀ ap ∈ e.accessPath, PathOk ap) ∧ (e.isValue → valueOk)

/-- A statement whose operands are all right, references apart. -/
def StatementOk : Statement O → Prop
  | .assign dest sources => PathOk dest ∧ classify dest.segments ≠ .address ∧
      ¬ (dest.isPathless ∧ dest.base.var.isGlobal) ∧ ∀ e ∈ sources, ExpOk true e
  | .callAssign _ style rets args => (∀ e ∈ args, ExpOk false e) ∧ (∀ ap ∈ style.calleePath, PathOk ap) ∧
      ∀ r ∈ rets, r.var.isGlobal = false
  | .phi dest operands => ∀ v ∈ dest :: operands.map Prod.snd, v.var.isGlobal = false
  | .nop => True

theorem checkAccessPath_eq_nil {ap : AccessPath O} : checkAccessPath data ap location = [] ↔ PathOk ap := by
  simp only [checkAccessPath, List.append_eq_nil_iff, ite_eq_left_iff, List.cons_ne_nil, imp_false, not_not,
    ite_eq_right_iff, normalize_eq_self_iff]
  exact ⟨fun ⟨⟨normal, notVoid⟩, noField⟩ => ⟨normal, notVoid, noField⟩, fun ok => ⟨⟨ok.normal, ok.notVoid⟩, ok.noField⟩⟩

theorem checkExp_eq_nil {e : Exp O} {valueOk : Bool} : checkExp data e valueOk location = [] ↔ ExpOk valueOk e := by
  simp only [checkExp, List.append_eq_nil_iff, List.flatMap_eq_nil_iff, Option.mem_toList, checkAccessPath_eq_nil,
    ite_eq_right_iff, List.cons_ne_nil, imp_false, Bool.and_eq_true, Bool.not_eq_true', not_and, ExpOk,
    Bool.not_eq_false, Option.mem_def]

theorem visitStatementKind_eq_nil {st : Statement O} :
    visitStatementKind globalsLen data st location = [] ↔
      (∀ ref ∈ st.visited, visitVariableRef globalsLen data ref = []) ∧ StatementOk st := by
  unfold visitStatementKind
  rw [List.append_eq_nil_iff, List.flatMap_eq_nil_iff]
  refine and_congr_right fun _ => ?_
  cases st with
  | assign dest sources =>
    simp only [List.append_eq_nil_iff, checkAccessPath_eq_nil, ite_eq_right_iff, List.cons_ne_nil, imp_false,
      List.flatMap_eq_nil_iff, checkExp_eq_nil, Bool.and_eq_true, StatementOk, and_assoc, ne_eq]
  | callAssign info style rets args =>
    simp only [List.append_eq_nil_iff, checkAccessPath_eq_nil, List.flatMap_eq_nil_iff, checkExp_eq_nil,
      Option.mem_toList, List.map_eq_nil_iff, List.filter_eq_nil_iff, Bool.not_eq_true, StatementOk, and_assoc, Option.mem_def]
  | phi dest operands =>
    simp only [Option.toList_eq_nil_iff, Option.map_eq_none_iff, List.find?_eq_none, Bool.not_eq_true, StatementOk]
  | nop => simp [StatementOk]

/-- A function without errors, spelt out. -/
structure FunctionOk (globalsLen : Option ℕ) (data : FunctionData O) : Prop where
  refs : ∀ block ∈ data.blocks, ∀ st ∈ block.statements, ∀ ref ∈ st.visited,
    visitVariableRef globalsLen data ref = []
  statements : ∀ block ∈ data.blocks, ∀ st ∈ block.statements, StatementOk st
  finished : ∀ block ∈ data.blocks, block.terminator.isSome
  returns : ∀ block ∈ data.blocks, ∀ args, block.terminator = some (.ret args) →
    (∀ ref ∈ args.filterMap Exp.baseVariable, visitVariableRef globalsLen data ref = []) ∧
      (∀ e ∈ args, ExpOk false e) ∧ args.length = data.returnArity
  jumps : ∀ block ∈ data.blocks, ∀ targets, block.terminator = some (.goto targets) →
    targets ≠ [] ∧ ∀ target ∈ targets, target < data.blocks.length
  bases : ∀ block ∈ data.blocks, ∀ st ∈ block.statements, storesUndefined data.blocks st = none

private theorem visitTerminatorKind_eq_nil {term : Terminator O} :
    visitTerminatorKind globalsLen data term location = [] ↔
      (∀ args, term = .ret args → (∀ ref ∈ args.filterMap Exp.baseVariable, visitVariableRef globalsLen data ref = []) ∧
        (∀ e ∈ args, ExpOk false e) ∧ args.length = data.returnArity) ∧
      ∀ targets, term = .goto targets → targets ≠ [] ∧ ∀ target ∈ targets, target < data.blocks.length := by
  unfold visitTerminatorKind
  cases term with
  | ret args =>
    simp [List.append_eq_nil_iff, List.flatMap_eq_nil_iff, checkExp_eq_nil]
  | goto targets =>
    cases targets with
    | nil => simp
    | cons target rest => simp

theorem visitBasicBlockData_eq_nil {idx b : ℕ} {block : BasicBlockData O} :
    visitBasicBlockData globalsLen data idx b block = [] ↔
      (∀ st ∈ block.statements, (∀ ref ∈ st.visited, visitVariableRef globalsLen data ref = []) ∧ StatementOk st) ∧
      block.terminator.isSome ∧
      (∀ args, block.terminator = some (.ret args) →
        (∀ ref ∈ args.filterMap Exp.baseVariable, visitVariableRef globalsLen data ref = []) ∧
          (∀ e ∈ args, ExpOk false e) ∧ args.length = data.returnArity) ∧
      ∀ targets, block.terminator = some (.goto targets) →
        targets ≠ [] ∧ ∀ target ∈ targets, target < data.blocks.length := by
  have each : (∀ x ∈ block.statements.zipIdx, visitStatementKind globalsLen data x.1 ⟨idx, b, x.2⟩ = []) ↔
      ∀ st ∈ block.statements, (∀ ref ∈ st.visited, visitVariableRef globalsLen data ref = []) ∧ StatementOk st := by
    simp only [visitStatementKind_eq_nil]
    constructor
    · intro all st member
      obtain ⟨i, here⟩ := List.mem_iff_getElem?.mp member
      exact all (st, i) (List.mk_mem_zipIdx_iff_getElem?.mpr here)
    · intro all x member
      exact all x.1 (List.fst_mem_of_mem_zipIdx member)
  unfold visitBasicBlockData
  rw [List.append_eq_nil_iff, List.append_eq_nil_iff, List.flatMap_eq_nil_iff, each]
  cases block.terminator with
  | none => simp
  | some term =>
    simp only [Option.toList_some, List.flatMap_cons, List.flatMap_nil, List.append_nil, visitTerminatorKind_eq_nil,
      Option.isNone_some, Bool.false_eq_true, if_false, and_true, Option.isSome_some, true_and, Option.some.injEq]

/-- The verifier of a function decides its well-formedness. -/
theorem visitFunctionData_eq_nil {defines : List String} {idx : ℕ} :
    visitFunctionData globalsLen data defines idx = [] ↔
      (data.name ≠ "" ∧ data.name ∉ defines) ∧ FunctionOk globalsLen data := by
  have blocks : (∀ x ∈ data.blocks.zipIdx, visitBasicBlockData globalsLen data idx x.2 x.1 = []) ↔
      ∀ block ∈ data.blocks, ∀ b, visitBasicBlockData globalsLen data idx b block = [] := by
    simp only [visitBasicBlockData_eq_nil]
    constructor
    · intro all block member _
      obtain ⟨i, here⟩ := List.mem_iff_getElem?.mp member
      exact all (block, i) (List.mk_mem_zipIdx_iff_getElem?.mpr here)
    · intro all x member
      exact all x.1 (List.fst_mem_of_mem_zipIdx member) 0
  have bases : checkStoreBases data idx = [] ↔
      ∀ block ∈ data.blocks, ∀ st ∈ block.statements, storesUndefined data.blocks st = none := by
    simp only [checkStoreBases, List.flatMap_eq_nil_iff, Option.toList_eq_nil_iff, Option.map_eq_none_iff]
    constructor
    · intro all block member st inside
      obtain ⟨b, here⟩ := List.mem_iff_getElem?.mp member
      obtain ⟨i, there⟩ := List.mem_iff_getElem?.mp inside
      exact all (block, b) (List.mk_mem_zipIdx_iff_getElem?.mpr here) (st, i) (List.mk_mem_zipIdx_iff_getElem?.mpr there)
    · intro all x member y inside
      exact all x.1 (List.fst_mem_of_mem_zipIdx member) y.1 (List.fst_mem_of_mem_zipIdx inside)
  unfold visitFunctionData
  rw [List.append_eq_nil_iff, List.append_eq_nil_iff, List.append_eq_nil_iff, List.flatMap_eq_nil_iff, bases, blocks]
  simp only [visitBasicBlockData_eq_nil, forall_const, ite_eq_right_iff, List.cons_ne_nil, imp_false,
    String.isEmpty_iff]
  constructor
  · rintro ⟨⟨⟨named, fresh⟩, all⟩, bases⟩
    exact ⟨⟨named, fresh⟩, fun block b st s => ((all block b).1 st s).1, fun block b st s => ((all block b).1 st s).2,
      fun block b => (all block b).2.1, fun block b => (all block b).2.2.1, fun block b => (all block b).2.2.2, bases⟩
  · rintro ⟨⟨named, fresh⟩, ok⟩
    exact ⟨⟨⟨named, fresh⟩, fun block b => ⟨fun st s => ⟨ok.refs block b st s, ok.statements block b st s⟩,
      ok.finished block b, ok.returns block b, ok.jumps block b⟩⟩, ok.bases⟩

end CirVerify

end Ctadl.Cir
