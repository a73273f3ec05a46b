import Ctadl.Cir.PathSyntax
import Ctadl.Cir.Program
import Ctadl.Codegen.Hierarchy
import Ctadl.Collections.RowIndex
import Ctadl.Portcullis.Relations

/-! # Building the tables of one import

The tables of `ProgramFacts` from the name table and the lowered functions of an import, and beside them
the indexes the lookups go by, each built in its own loop. An index holds row numbers: one for each key, a
list for each key, or the range of a key whose rows stand together. A table no rule reads stays empty.

The order in which the functions are met is a hash map's and so is any order here; where the source sorts a
table by handle, the table lists its rows in the order found. Which bodies have an allocator's shape is a
parameter.
-/

namespace Ctadl.Portcullis

open Collections Facts

/-- One entry of the import's name table. -/
structure FunctionNames where
  fq : Str
  simple : Str
  other : List Str := []
  parent : Option Str := none
  signature : Option Str := none
deriving DecidableEq

/-- The signature keys of a program's call sites, by their id. -/
structure DispatchUniverse where
  parts : List (Str × Str × Str × Str) := []
  parts_nodup : (parts.map Prod.fst).Nodup := by decide

/-- What rules match one import by. The functions with a body are held by name, and a position in a
function fits its index type. -/
structure ProgramMatchIndex where
  names : List FunctionNames := []
  vmtDispatch : Codegen.Dispatch := .unknown
  functions : List Cir.FunctionData := []
  dispatch : Option DispatchUniverse := none
  globals : List Str := []
  /-- The global names published while variables are displayed. -/
  published : ℕ → Option Str := fun _ => none
  language : Option Str := none
  importName : Option Str := none
  functions_nodup : (functions.map (·.name)).Nodup := by decide
  positions_fit : ∀ data ∈ functions, data.blocks.length ≤ 2 ^ 32 ∧
    ∀ block ∈ data.blocks, block.statements.length ≤ 2 ^ 32 := by decide

/-- Which relations some loaded rule reads. -/
structure Needs where
  callsite : Bool := true
  usesField : Bool := true
  local' : Bool := true
  subclass : Bool := true
  callsig : Bool := true
  allocator : Bool := true
  global : Bool := true
deriving DecidableEq

/-! ## The function table -/

/-- The functions met so far, and where each one's row is. -/
structure FunTable where
  rows : List FunRow := []
  byFq : Str → Option ℕ := fun _ => none
  lawful : ∀ fq i, byFq fq = some i ↔ (rows[i]?).map FunRow.fq = some fq := by simp

namespace FunTable

variable {t : FunTable} {fq : Str} {f : FunRow → FunRow}

theorem nodup (t : FunTable) : (t.rows.map FunRow.fq).Nodup := by
  rw [List.nodup_iff_getElem?_ne_getElem?]
  intro i j less inside same
  rw [List.getElem?_map, List.getElem?_map] at same
  have bound : i < t.rows.length := by simpa using less.trans inside
  rw [List.getElem?_eq_getElem bound] at same
  have left := (t.lawful t.rows[i].fq i).mpr (by rw [List.getElem?_eq_getElem bound, Option.map_some])
  have right := (t.lawful t.rows[i].fq j).mpr same.symm
  have := Option.some.inj (left.symm.trans right)
  omega

/-- The row of `fq`, added at the end if it is new. -/
def rowFor (t : FunTable) (fq : Str) : FunTable :=
  match new : t.byFq fq with
  | some _ => t
  | none =>
    { rows := t.rows ++ [{ fq }]
      byFq := Function.update t.byFq fq (some t.rows.length)
      lawful := by
        intro fq' i
        have unlisted : ∀ j, (t.rows[j]?).map FunRow.fq ≠ some fq := fun j here => by
          rw [(t.lawful fq j).mpr here] at new
          cases new
        rcases Nat.lt_trichotomy i t.rows.length with less | rfl | more
        · rw [List.getElem?_append_left less]
          by_cases same : fq' = fq
          · subst same
            rw [Function.update_self]
            exact ⟨fun eq => by have := Option.some.inj eq; omega, fun here => absurd here (unlisted i)⟩
          · rw [Function.update_of_ne same, t.lawful]
        · rw [List.getElem?_concat_length, Option.map_some, Option.some.injEq]
          by_cases same : fq' = fq
          · subst same
            rw [Function.update_self]
            exact iff_of_true rfl rfl
          · rw [Function.update_of_ne same, t.lawful, List.getElem?_eq_none le_rfl]
            exact iff_of_false (by simp) (Ne.symm same)
        · rw [List.getElem?_eq_none (by simp; omega)]
          by_cases same : fq' = fq
          · subst same
            rw [Function.update_self]
            exact iff_of_false (fun eq => by have := Option.some.inj eq; omega) (by simp)
          · rw [Function.update_of_ne same, t.lawful, List.getElem?_eq_none (by omega)] }

/-- Fills in the row of `fq`. -/
def describe (t : FunTable) (fq : Str) (f : FunRow → FunRow) (keeps : ∀ r, (f r).fq = r.fq) : FunTable :=
  { rows := ((t.rowFor fq).byFq fq).elim (t.rowFor fq).rows fun i => (t.rowFor fq).rows.modify i f
    byFq := (t.rowFor fq).byFq
    lawful := by
      intro fq' i
      rw [(t.rowFor fq).lawful]
      cases (t.rowFor fq).byFq fq with
      | none => rfl
      | some n =>
        have same : (FunRow.fq ∘ fun r => if n = i then f r else r) = FunRow.fq := by
          funext r
          simp only [Function.comp_apply]
          split_ifs
          exacts [keeps r, rfl]
        rw [Option.elim_some, List.getElem?_modify, Option.map_eq_map, Option.map_map, same] }

end FunTable

/-- The rows the name table describes, and what the lowered functions add to them. -/
def funTable (index : ProgramMatchIndex) : FunTable :=
  index.functions.foldl (fun t data => t.describe data.name (fun row =>
      { row with arity := some data.params.length, hasCode := some !data.blocks.isEmpty }) fun _ => rfl)
    (index.names.foldl (fun t n => t.describe n.fq (fun row =>
      { row with name := some n.simple, parent := n.parent, signature := n.signature, otherNames := n.other })
        fun _ => rfl) {})

/-! ## One pass over the bodies -/

/-- The index a position is kept as. -/
def asU32 (n : ℕ) : U32 := Fin.ofNat (2 ^ 32) n

def displayVariable (index : ProgramMatchIndex) : Cir.Variable → Str
  | .localVar idx => "%L" ++ idx.repr
  | .paramVar i => "@p" ++ i.repr
  | .globalVar idx => match index.published idx with
    | some name => "$" ++ String.ofList (Cir.writeSymbol name)
    | none => "$#" ++ idx.repr

def displayRef (index : ProgramMatchIndex) (ref : Cir.VariableRef) : Str :=
  displayVariable index ref.var ++ (ref.version.map fun v => "_" ++ v.repr).getD ""

/-- How each call style names its callee. -/
def calleeStrings (index : ProgramMatchIndex) (data : Cir.FunctionData) : Cir.CallStyle → List Str
  | .directCall edges => edges
  | .javaCall _ cls simpleName descriptor _ _ => [cls ++ "->" ++ simpleName ++ descriptor]
  | .cilCall _ cls simpleName descriptor => [cls ++ "::" ++ simpleName ++ descriptor]
  | .luaCall _ method => [method]
  | .funcPtrCall callee _ => match callee.base.var with
    | .localVar idx => match data.locals[idx]? with
      | some name => [name]
      | none => [displayRef index callee.base]
    | other => [displayVariable index other]
  | .unknown => []

/-- The name `uses_field` has for a step of a path. -/
def fieldName : Cir.PathSegment → Option Str
  | .field name => some name
  | .value => some (String.ofList Cir.VALUE)
  | .deref => some (String.ofList Cir.DEREF)
  | .offset _ => none

/-- The call sites of a statement. -/
def statementSites (index : ProgramMatchIndex) (data : Cir.FunctionData) (b s : ℕ) :
    Cir.Statement → List CallSiteRow
  | .callAssign _ style _ _ => (calleeStrings index data style).map (⟨data.name, asU32 b, asU32 s, ·⟩)
  | .assign _ _ | .phi _ _ | .nop => []

/-- The fields a statement reads or writes through. -/
def statementFields (caller : Str) : Cir.Statement → List (Str × Str)
  | .assign dest sources =>
    let store := if dest.isPathless then [] else [dest]
    let reads := sources.filterMap fun
      | .path ap => some ap
      | _ => none
    (store ++ reads).flatMap fun ap => ap.segments.filterMap fun seg => (fieldName seg).map (caller, ·)
  | .callAssign _ _ _ _ | .phi _ _ | .nop => []

def functionSites (index : ProgramMatchIndex) (data : Cir.FunctionData) : List CallSiteRow :=
  data.blocks.zipIdx.flatMap fun block => block.1.statements.zipIdx.flatMap fun stmt =>
    statementSites index data block.2 stmt.2 stmt.1

def scanCallsites (index : ProgramMatchIndex) : List CallSiteRow :=
  index.functions.flatMap (functionSites index)

def scanFields (index : ProgramMatchIndex) : List (Str × Str) :=
  (index.functions.flatMap fun data => data.blocks.flatMap fun block =>
    block.statements.flatMap (statementFields data.name)).dedup

/-! ## Locals, classes, allocators -/

/-- The locals of one function after those of the others, and where they are. -/
def addLocals (acc : List LocalRow × (Str → Option (ℕ × ℕ))) (data : Cir.FunctionData) :
    List LocalRow × (Str → Option (ℕ × ℕ)) :=
  let rows := acc.1 ++ data.locals.zipIdx.map fun decl => ⟨data.name, asU32 decl.2, decl.1⟩
  (rows, Function.update acc.2 data.name (some (acc.1.length, rows.length)))

def buildLocals (functions : List Cir.FunctionData) : List LocalRow × (Str → Option (ℕ × ℕ)) :=
  functions.foldl addLocals ([], fun _ => none)

/-- Every class an edge or a function names. -/
def classNames (subclass : List (Str × Str)) (rows : List FunRow) : List Str :=
  (subclass.flatMap (fun edge => [edge.1, edge.2]) ++ rows.filterMap FunRow.parent).dedup

/-- The allocator names, without leading underscores. -/
def NAMED : List (Str × AllocatorKind) :=
  [("malloc", .malloc), ("calloc", .malloc), ("memalign", .malloc), ("posix_memalign", .malloc),
    ("aligned_alloc", .malloc), ("valloc", .malloc), ("pvalloc", .malloc), ("libc_malloc", .malloc),
    ("libc_calloc", .malloc), ("libc_memalign", .malloc), ("libc_valloc", .malloc), ("libc_pvalloc", .malloc),
    ("int_malloc", .malloc), ("int_memalign", .malloc), ("heap_alloc", .malloc), ("heap_alloc_at", .malloc),
    ("malloc_from_heap", .malloc), ("realloc", .realloc), ("reallocarray", .realloc), ("reallocf", .realloc),
    ("libc_realloc", .realloc), ("int_realloc", .realloc), ("free", .free), ("cfree", .free),
    ("libc_free", .free), ("int_free", .free), ("heap_free", .free), ("malloc_usable_size", .internal),
    ("malloc_trim", .internal), ("mallopt", .internal), ("mallinfo", .internal), ("malloc_stats", .internal),
    ("malloc_consolidate", .internal), ("sysmalloc", .internal)]

/-- What an allocator's name says it does. -/
def namedKind (name : Str) : Option AllocatorKind :=
  NAMED.lookup (String.ofList (name.toList.dropWhile (· = '_')))

/-- Which body has dlmalloc's shape among the bodies of an import, and what it does. -/
abbrev ShapeMeasure := List Cir.FunctionData → Cir.FunctionData → Option AllocatorKind

/-- The allocators by name, then those by shape that no name gave. -/
def findAllocators (shape : ShapeMeasure) (funs : List FunRow) (lowered : List Cir.FunctionData) :
    List AllocatorRow :=
  let named := funs.filterMap fun row =>
    ((row.name.toList ++ [row.fq]).findSome? namedKind).map fun kind => ⟨row.fq, kind, .name⟩
  let shaped := lowered.filterMap fun data => (shape lowered data).map fun kind => ⟨data.name, kind, .shape⟩
  named ++ shaped.filter fun r => r.function ∉ named.map AllocatorRow.function

/-! ## What the tables keep -/

theorem pairwise_zipIdx {α : Type} (l : List α) (n : ℕ) :
    (l.zipIdx n).Pairwise fun x y => x.2 < y.2 ∧ y.2 < n + l.length := by
  induction l generalizing n with
  | nil => exact .nil
  | cons a l ih =>
    rw [List.zipIdx_cons]
    refine .cons (fun y member => ?_) ((ih (n + 1)).imp fun both => ⟨both.1, by simp; omega⟩)
    have := List.mem_zipIdx member
    simp only [List.length_cons]
    omega

theorem asU32_le {m n : ℕ} (le : m ≤ n) (fits : n < 2 ^ 32) : asU32 m ≤ asU32 n := by
  rw [Fin.le_def]
  simp only [asU32, Fin.ofNat_eq_cast, Fin.val_natCast]
  rw [Nat.mod_eq_of_lt fits, Nat.mod_eq_of_lt (by omega)]
  exact le

theorem asU32_lt {m n : ℕ} (less : m < n) (fits : n < 2 ^ 32) : asU32 m < asU32 n := by
  rw [Fin.lt_def]
  simp only [asU32, Fin.ofNat_eq_cast, Fin.val_natCast]
  rwa [Nat.mod_eq_of_lt fits, Nat.mod_eq_of_lt (by omega)]

variable {index : ProgramMatchIndex} {data : Cir.FunctionData}

theorem statementSites_eq {b s : ℕ} {stmt : Cir.Statement} {r : CallSiteRow}
    (listed : r ∈ statementSites index data b s stmt) :
    r.caller = data.name ∧ r.block = asU32 b ∧ r.stmt = asU32 s := by
  cases stmt with
  | callAssign info style rets args =>
    obtain ⟨callee, -, rfl⟩ := List.mem_map.mp listed
    exact ⟨rfl, rfl, rfl⟩
  | assign | phi | nop => cases listed

theorem functionSites_caller {r : CallSiteRow} (listed : r ∈ functionSites index data) : r.caller = data.name := by
  obtain ⟨block, -, inner⟩ := List.mem_flatMap.mp listed
  obtain ⟨stmt, -, inner⟩ := List.mem_flatMap.mp inner
  exact (statementSites_eq inner).1

/-- A body's sites come out by position. -/
theorem functionSites_sorted (present : data ∈ index.functions) :
    (functionSites index data).Pairwise fun r r' => r.site.position ≤ r'.site.position := by
  obtain ⟨blocks, statements⟩ := index.positions_fit data present
  refine List.pairwise_flatMap.mpr ⟨fun block inBlock => List.pairwise_flatMap.mpr ⟨fun stmt inStmt => ?_, ?_⟩, ?_⟩
  · refine List.Pairwise.imp_of_mem (R := fun _ _ => True) (fun left right _ => ?_)
      (List.pairwise_of_forall fun _ _ => trivial)
    obtain ⟨-, block, stmt⟩ := statementSites_eq left
    obtain ⟨-, block', stmt'⟩ := statementSites_eq right
    rw [SiteId.position, SiteId.position, CallSiteRow.site, CallSiteRow.site, block, stmt, block', stmt']
  · refine (pairwise_zipIdx _ 0).imp ?_
    intro x y less r left r' right
    obtain ⟨-, block', stmt⟩ := statementSites_eq left
    obtain ⟨-, block'', stmt'⟩ := statementSites_eq right
    have fits := statements block.1 (List.fst_mem_of_mem_zipIdx inBlock)
    rw [SiteId.position, SiteId.position, CallSiteRow.site, CallSiteRow.site, block', stmt, block'', stmt',
      Prod.Lex.toLex_le_toLex]
    exact .inr ⟨rfl, asU32_le less.1.le (by omega)⟩
  · refine (pairwise_zipIdx _ 0).imp ?_
    intro x y less r left r' right
    obtain ⟨stmt, -, left⟩ := List.mem_flatMap.mp left
    obtain ⟨stmt', -, right⟩ := List.mem_flatMap.mp right
    obtain ⟨-, block, -⟩ := statementSites_eq left
    obtain ⟨-, block', -⟩ := statementSites_eq right
    rw [SiteId.position, SiteId.position, CallSiteRow.site, CallSiteRow.site, block, block',
      Prod.Lex.toLex_le_toLex]
    exact .inl (asU32_lt less.1 (by omega))

theorem scanCallsites_sorted (index : ProgramMatchIndex) :
    (scanCallsites index).Pairwise fun r r' => r.caller = r'.caller → r.site.position ≤ r'.site.position := by
  refine List.pairwise_flatMap.mpr ⟨fun data present => (functionSites_sorted present).imp fun le => fun _ => le, ?_⟩
  refine (List.pairwise_map.mp index.functions_nodup).imp fun {data data'} other r left r' right same => ?_
  rw [functionSites_caller left, functionSites_caller right] at same
  exact absurd same other

/-- The keys of what a table is filtered to stand in the table's order. -/
theorem map_filterMap_sublist {α β κ : Type} {l : List α} {f : α → Option β} {key : α → κ} {out : β → κ}
    (same : ∀ a b, f a = some b → out b = key a) : ((l.filterMap f).map out).Sublist (l.map key) := by
  induction l with
  | nil => exact .slnil
  | cons a l ih =>
    rw [List.filterMap_cons, List.map_cons]
    cases found : f a with
    | none => exact ih.cons _
    | some b =>
      rw [List.map_cons, same a b found]
      exact ih.cons_cons _

theorem findAllocators_nodup (shape : ShapeMeasure) {funs : List FunRow} {lowered : List Cir.FunctionData}
    (funs_nodup : (funs.map FunRow.fq).Nodup) (lowered_nodup : (lowered.map (·.name)).Nodup) :
    ((findAllocators shape funs lowered).map AllocatorRow.function).Nodup := by
  unfold findAllocators
  rw [List.map_append]
  refine List.Nodup.append ?_ ?_ fun f named shaped => ?_
  · refine funs_nodup.sublist (map_filterMap_sublist fun row r found => ?_)
    obtain ⟨kind, -, rfl⟩ := Option.map_eq_some_iff.mp found
    rfl
  · refine lowered_nodup.sublist ((List.filter_sublist.map _).trans (map_filterMap_sublist fun data r found => ?_))
    obtain ⟨kind, -, rfl⟩ := Option.map_eq_some_iff.mp found
    rfl
  · obtain ⟨r, kept, rfl⟩ := List.mem_map.mp shaped
    exact of_decide_eq_true (List.mem_filter.mp kept).2 named

/-! ## The tables and their indexes -/

/-- The tables of one import, and the indexes beside them. -/
structure BuiltFacts where
  tables : ProgramFacts
  byFq : Str → Option ℕ
  byName : Str → List ℕ
  byParent : Str → List ℕ
  bySignature : Str → List ℕ
  byNameOf : Str → List ℕ
  callsitesByCaller : Str → Option (ℕ × ℕ)
  callsitesByCallee : Str → List ℕ
  usesFieldByFun : Str → List ℕ
  localsByFun : Str → Option (ℕ × ℕ)
  globalsByName : Str → Option ℕ
  allocatorsByFun : Str → Option ℕ
  supersOf : Str → List Str
  subsOf : Str → List Str
  callsigsById : Str → Option ℕ
  callsigsByName : Str → List ℕ
  callsigsByParent : Str → List ℕ
  callsigsBySignature : Str → List ℕ

/-- The numbers of the rows with each key. -/
def numbered {α : Type} (keys : α → List Str) (rows : List α) : Str → List ℕ := grouped keys (fun _ i => i) rows

theorem mem_classNames {subclass : List (Str × Str)} {rows : List FunRow} {edge : Str × Str}
    (listed : edge ∈ subclass) : edge.1 ∈ classNames subclass rows ∧ edge.2 ∈ classNames subclass rows := by
  unfold classNames
  simp only [List.mem_dedup, List.mem_append, List.mem_flatMap]
  exact ⟨.inl ⟨edge, listed, by simp⟩, .inl ⟨edge, listed, by simp⟩⟩

/-- The tables `needs` asks for. -/
def buildTables (shape : ShapeMeasure) (index : ProgramMatchIndex) (needs : Needs) : ProgramFacts :=
  let funs := (funTable index).rows
  let subclass := if needs.subclass then index.vmtDispatch.hierarchyEdges.dedup else []
  let parts := if needs.callsig then (index.dispatch.map (·.parts)).getD [] else []
  { funs
    callsigs := parts.map fun part => ⟨part.1, part.2.2.1, part.2.1, part.2.2.2⟩
    callsites := if needs.callsite then scanCallsites index else []
    usesField := if needs.usesField then scanFields index else []
    locals := if needs.local' then (buildLocals index.functions).1 else []
    globals := if needs.global then index.globals.map GlobalRow.mk else []
    allocators := if needs.allocator ∧ index.vmtDispatch = .native then findAllocators shape funs index.functions
      else []
    subclass
    classes := if needs.subclass then classNames subclass funs else []
    language := index.language
    importName := index.importName
    funs_nodup := (funTable index).nodup
    callsigs_nodup := by
      rw [List.map_map]
      simp only [parts]
      split_ifs
      · cases index.dispatch with
        | none => exact .nil
        | some given => exact given.parts_nodup
      · exact .nil
    allocators_nodup := by
      split_ifs
      · exact findAllocators_nodup shape (funTable index).nodup index.functions_nodup
      · exact .nil
    callsites_sorted := by
      split_ifs
      · exact scanCallsites_sorted index
      · exact .nil
    subclass_classes := by
      intro edge listed
      cases read : needs.subclass with
      | true =>
        rw [if_pos rfl]
        exact mem_classNames listed
      | false => simp [subclass, read] at listed }

/-- The tables and, each from its table, the indexes. -/
def build (shape : ShapeMeasure) (index : ProgramMatchIndex) (needs : Needs) : BuiltFacts :=
  let tables := buildTables shape index needs
  { tables
    byFq := (funTable index).byFq
    byName := numbered (·.name.toList) tables.funs
    byParent := numbered (·.parent.toList) tables.funs
    bySignature := numbered (·.signature.toList) tables.funs
    byNameOf := numbered FunRow.names tables.funs
    callsitesByCaller := spans CallSiteRow.caller tables.callsites
    callsitesByCallee := numbered ([·.callee]) tables.callsites
    usesFieldByFun := numbered ([·.1]) tables.usesField
    localsByFun := if needs.local' then (buildLocals index.functions).2 else fun _ => none
    globalsByName := lastOf GlobalRow.name tables.globals
    allocatorsByFun := lastOf AllocatorRow.function tables.allocators
    supersOf := grouped ([·.1]) (fun edge _ => edge.2) tables.subclass
    subsOf := grouped ([·.2]) (fun edge _ => edge.1) tables.subclass
    callsigsById := lastOf CallSigRow.id tables.callsigs
    callsigsByName := numbered ([·.name]) tables.callsigs
    callsigsByParent := numbered ([·.parent]) tables.callsigs
    callsigsBySignature := numbered ([·.signature]) tables.callsigs }

end Ctadl.Portcullis
