import Ctadl.Cir.Program
import Ctadl.Codegen.Cha
import Ctadl.Index.Resolvents

/-! # Classifying and lowering dispatch sites

What codegen emits for one call statement: direct edges, edges to the resolvents of the hierarchy, an edge to a
modelled signature's synthetic function, or a `callee_info` row that defers the site to the engine. A deferred
site records the name and descriptor it will be joined on (`CodegenVisitor.mem_deferred`).
-/

namespace Ctadl.Codegen

open Cir Facts Index

inductive CallResolutionStrategy where
  /-- Every call is resolved with class hierarchy analysis. -/
  | cha
  /-- Every call is resolved with hybrid inlining. -/
  | hi
  /-- Super resolution, then a dispatch model, then a target-count threshold, then hybrid inlining. -/
  | mixed
  /-- Class hierarchy analysis where the site has one target, hybrid inlining otherwise. -/
  | legacyMixed
deriving DecidableEq, Repr

inductive DispatchOrder where
  | modelFirst
  | thresholdFirst
deriving DecidableEq, Repr

def DEFAULT_CHA_THRESHOLD : ℕ := 4

structure CallPolicy where
  chaThreshold : ℕ := DEFAULT_CHA_THRESHOLD
  chaThresholdInterface : ℕ := DEFAULT_CHA_THRESHOLD
  dispatchModels : Bool := true
  dispatchModelsInterface : Bool := true
  order : DispatchOrder := .modelFirst
deriving DecidableEq, Repr

/-- What a matched dispatch model says once a source or sink among the targets has had its say. -/
inductive DispatchDisposition where
  | model
  | skip
  | inline
deriving DecidableEq, Repr

inductive Rung where
  | model
  | skip
  | cha
  | inline (byModel : Bool)
deriving DecidableEq, Repr

/-- The ladder below rung 0: a dispatch model, then the threshold, then hybrid inlining. -/
def classifyRung (policy : CallPolicy) (dispatch : JavaDispatch) (targets : ℕ)
    (disposition : Option DispatchDisposition) : Rung :=
  let modelsOn := if dispatch = .interface then policy.dispatchModelsInterface else policy.dispatchModels
  let threshold := if dispatch = .interface then policy.chaThresholdInterface else policy.chaThreshold
  let disposition := if modelsOn then disposition else none
  if disposition = some .inline then
    -- a site with one target stays exact
    if targets = 1 then .cha else .inline true
  else
    let modelled := match disposition with
      | some .model => some Rung.model
      | some .skip => some .skip
      | _ => none
    match policy.order, modelled with
    | .modelFirst, some rung => rung
    | _, _ => if targets ≤ threshold then .cha else modelled.getD (.inline false)

/-- A dispatch model's disposition, the ports of a propagation counted. -/
inductive Disposition where
  | inline (ports : ℕ)
  | model (ports : ℕ)
  | skip
deriving DecidableEq, Repr

/-- What the model files matched against an import, as far as sites are classified by it. -/
structure ProgramModelMatches where
  dispatch : List (SignatureKey × Disposition) := []
  /-- The functions of the matched endpoints. -/
  endpoints : List Str := []
deriving DecidableEq, Repr

namespace ClassHierarchyAnalysis

/-- What the walk up from a start class found. -/
inductive SuperResolution where
  | exactly (id : Symbol)
  | none
  | ambiguous (n : ℕ)
deriving DecidableEq, Repr

variable (cha : ClassHierarchyAnalysis)

/-- The implementation a class declares. -/
def declaredId (key : SignatureKey) : Option Symbol := (cha.declared.find? (·.1 = key)).map (·.2)

/-- The direct parents of a class, in table order. -/
def parentsOf (cls : Symbol) : List Symbol := (cha.parents.filter (·.1 = cls)).map (·.2)

/-- The unseen among some classes, each once, and the classes seen then. -/
def unseen : List Symbol → List Symbol → List Symbol × List Symbol
  | [], seen => ([], seen)
  | cls :: rest, seen =>
    if cls ∈ seen then unseen rest seen
    else
      let (fresh, seen) := unseen rest (cls :: seen)
      (cls :: fresh, seen)

/-- Breadth-first up the parents, to the first level where a class declares the signature. -/
def walkSuper (name descriptor : Symbol) : ℕ → List Symbol → List Symbol → SuperResolution
  | 0, _, _ => .none
  | fuel + 1, level, seen =>
    if level = [] then .none
    else match level.filterMap fun cls => cha.declaredId (cls, name, descriptor) with
      | [] =>
        let (level, seen) := unseen (level.flatMap cha.parentsOf) seen
        walkSuper name descriptor fuel level seen
      | [id] => .exactly id
      | found => .ambiguous found.length

/-- The single method a super call from a class reaches. Every level after the first holds a parent not seen
before, which bounds the number of levels. -/
def superResolvent (start name descriptor : Symbol) : SuperResolution :=
  cha.walkSuper name descriptor (cha.parents.length + 2) [start] [start]

/-- The targets of a Lua method name in every class, deduplicated. -/
def luaResolventsByMethod (method : Symbol) : List Symbol :=
  ((cha.resolvents.filter (·.1.2.1 = method)).flatMap (·.2)).dedup.insertionSort fun a b => (compare a b).isLE

def isInterface (cls : Symbol) : Bool := cls ∈ cha.interfaces

/-- The key a deferred site is joined on. -/
def dispatchKey (name descriptor : Symbol) : CallDispatchKey :=
  match cha.language with
  | .cil => .cil name descriptor
  | .java | .lua => .java name descriptor

section Fuel

variable {cha}

/-- The parents no level has held. -/
private def unreached (cha : ClassHierarchyAnalysis) (seen : List Symbol) : Finset Symbol :=
  ((cha.parents.map (·.2)).toFinset) \ seen.toFinset

private theorem unseen_subset (classes seen : List Symbol) :
    seen ⊆ (unseen classes seen).2 ∧
      ∀ cls ∈ (unseen classes seen).1, cls ∈ classes ∧ cls ∉ seen ∧ cls ∈ (unseen classes seen).2 := by
  induction classes generalizing seen with
  | nil => exact ⟨List.Subset.refl _, nofun⟩
  | cons first rest ih =>
    by_cases old : first ∈ seen
    · simp only [unseen, old, if_true]
      exact ⟨(ih seen).1, fun cls mem => ⟨.tail _ ((ih seen).2 cls mem).1, ((ih seen).2 cls mem).2⟩⟩
    · obtain ⟨grows, fresh⟩ := ih (first :: seen)
      simp only [unseen, old, if_false]
      refine ⟨fun cls mem => grows (.tail _ mem), fun cls mem => ?_⟩
      rcases List.mem_cons.mp mem with rfl | mem
      · exact ⟨.head _, old, grows (.head _)⟩
      · exact ⟨.tail _ (fresh cls mem).1, fun old => (fresh cls mem).2.1 (.tail _ old), (fresh cls mem).2.2⟩

/-- More fuel than there are unreached parents, and one round for an empty level, changes nothing. -/
theorem walkSuper_succ {name descriptor : Symbol} {fuel : ℕ} {level seen : List Symbol}
    (enough : (unreached cha seen).card + 2 ≤ fuel) :
    cha.walkSuper name descriptor (fuel + 1) level seen = cha.walkSuper name descriptor fuel level seen := by
  induction fuel generalizing level seen with
  | zero => omega
  | succ fuel ih =>
    rw [walkSuper, walkSuper]
    split_ifs
    · rfl
    · split
      · obtain ⟨grows, fresh⟩ := unseen_subset (level.flatMap cha.parentsOf) seen
        cases next : (unseen (level.flatMap cha.parentsOf) seen).1 with
        | nil =>
          obtain ⟨rest, rfl⟩ : ∃ rest, fuel = rest + 1 := ⟨fuel - 1, by omega⟩
          simp [next, walkSuper]
        | cons cls more =>
          -- the next level holds a parent that was unreached
          have new := fresh cls (next ▸ .head _)
          have shrinks : unreached cha (unseen (level.flatMap cha.parentsOf) seen).2 ⊂ unreached cha seen := by
            refine Finset.ssubset_iff_of_subset ?_ |>.mpr ⟨cls, ?_, ?_⟩
            · refine Finset.sdiff_subset_sdiff (Finset.Subset.refl _) fun c mem => ?_
              exact List.mem_toFinset.mpr (grows (List.mem_toFinset.mp mem))
            · have parent : cls ∈ cha.parents.map (·.2) := by
                obtain ⟨sub, -, mem⟩ := List.mem_flatMap.mp new.1
                obtain ⟨edge, found, rfl⟩ := List.mem_map.mp mem
                exact List.mem_map.mpr ⟨edge, (List.mem_filter.mp found).1, rfl⟩
              exact Finset.mem_sdiff.mpr ⟨List.mem_toFinset.mpr parent, fun old => new.2.1 (List.mem_toFinset.mp old)⟩
            · exact fun mem => (Finset.mem_sdiff.mp mem).2 (List.mem_toFinset.mpr new.2.2)
          have card := Finset.card_lt_card shrinks
          exact ih (by omega)
      · rfl
      · rfl

/-- The fuel of `super_resolvent` is enough. -/
theorem walkSuper_add {name descriptor : Symbol} {level seen : List Symbol} (fuel : ℕ) :
    cha.walkSuper name descriptor (cha.parents.length + 2 + fuel) level seen =
      cha.walkSuper name descriptor (cha.parents.length + 2) level seen := by
  have few : (unreached cha seen).card ≤ cha.parents.length := by
    calc
      _ ≤ (cha.parents.map (·.2)).toFinset.card := Finset.card_le_card Finset.sdiff_subset
      _ ≤ (cha.parents.map (·.2)).length := List.toFinset_card_le _
      _ = cha.parents.length := List.length_map _
  induction fuel with
  | zero => rfl
  | succ fuel ih => rw [← Nat.add_assoc, walkSuper_succ (by omega), ih]

end Fuel

end ClassHierarchyAnalysis

/-- The name of the function a modelled signature's summary hangs off. -/
def syntheticDispatchFunction (key : SignatureKey) : String :=
  "ctadl$dispatch$" ++ key.1 ++ "->" ++ key.2.1 ++ key.2.2

/-- Which of the four buckets a site belongs in, and what to emit there. -/
inductive SiteAction where
  | model (target : FunctionId)
  | skip
  | cha
  | superExact (target : Symbol)
  | defer (byModel : Bool) (summary : Option FunctionId)
deriving DecidableEq, Repr

/-- The rows one site adds, and the pairs it defers. -/
structure SiteRows where
  call : List (InsnSiteId × FunctionId) := []
  calleeInfo : List (InsnSiteId × FlowVertex × CallDispatchKey) := []
  deferred : List (Symbol × Symbol) := []

/-- A call statement with its operands translated. -/
inductive SiteStyle where
  | direct (targets : List Symbol)
  | java (receiver : FlowVariable) (key : SignatureKey) (dispatch : JavaDispatch) (superStart : Option Symbol)
  | cil (receiver : FlowVariable) (key : SignatureKey)
  | lua (receiver : FlowVariable) (method : Symbol)
  | funcPtr (callee : FlowVertex)
deriving DecidableEq

/-- What codegen holds while it lowers the sites of an import. -/
structure CodegenVisitor where
  cha : ClassHierarchyAnalysis
  strategy : CallResolutionStrategy
  policy : CallPolicy
  modelMatches : ProgramModelMatches
  /-- Interns a function's name. -/
  function : Symbol → FunctionId

namespace CodegenVisitor

variable (codegen : CodegenVisitor)

def resolventCount (key : SignatureKey) : ℕ := (codegen.cha.javaResolvents key.1 key.2.1 key.2.2).length

/-- The disposition of the model matched to a signature. -/
def modelDisposition (key : SignatureKey) : Option Disposition :=
  (codegen.modelMatches.dispatch.find? (·.1 = key)).map (·.2)

/-- The matched disposition; a model or a skip is refused where a target is an endpoint. -/
def disposition (key : SignatureKey) : Option DispatchDisposition :=
  let endpoint := (codegen.cha.javaResolvents key.1 key.2.1 key.2.2).any (· ∈ codegen.modelMatches.endpoints)
  match codegen.modelDisposition key with
  | none => none
  | some (.inline _) => some .inline
  | some .skip => if endpoint then none else some .skip
  | some (.model _) => if endpoint then none else some .model

/-- Whether an inline disposition also lists a propagation. -/
def inlineHasSummary (key : SignatureKey) : Bool :=
  match codegen.modelDisposition key with
  | some (.inline ports) => ports ≠ 0
  | _ => false

def synthetic (key : SignatureKey) : FunctionId := codegen.function (syntheticDispatchFunction key)

/-- Rung 0, then `classifyRung` for the rest. -/
def classifyLadder (key : SignatureKey) (dispatch : JavaDispatch) (superStart : Option Symbol) : SiteAction :=
  let exact := if dispatch = .super then codegen.cha.superResolvent (superStart.getD key.1) key.2.1 key.2.2 else .none
  match exact with
  | .exactly target => .superExact target
  | _ =>
    match classifyRung codegen.policy dispatch (codegen.resolventCount key) (codegen.disposition key) with
    | .model => .model (codegen.synthetic key)
    | .skip => .skip
    | .cha => .cha
    | .inline byModel =>
      .defer byModel (if byModel && codegen.inlineHasSummary key then some (codegen.synthetic key) else none)

def classify (key : SignatureKey) (dispatch : JavaDispatch) (superStart : Option Symbol) : SiteAction :=
  match codegen.strategy with
  | .cha => .cha
  | .hi => .defer false none
  | .legacyMixed => if codegen.resolventCount key ≤ 1 then .cha else .defer false none
  | .mixed => codegen.classifyLadder key dispatch superStart

/-- The rows a classified site calls for. -/
def apply (site : InsnSiteId) (receiver : FlowVariable) (key : SignatureKey) : SiteAction → SiteRows
  | .model target => { call := [(site, target)] }
  | .skip => {}
  | .superExact target => { call := [(site, codegen.function target)] }
  | .cha =>
    { call := (codegen.cha.javaResolvents key.1 key.2.1 key.2.2).map fun target => (site, codegen.function target) }
  | .defer _ summary =>
    { call := summary.toList.map fun target => (site, target)
      deferred := [(key.2.1, key.2.2)]
      calleeInfo := [(site, ⟨receiver, .empty⟩, codegen.cha.dispatchKey key.2.1 key.2.2)] }

/-- A Lua site keeps its static edges under both mixed strategies and is deferred beside them. -/
def lowerLua (site : InsnSiteId) (receiver : FlowVariable) (method : Symbol) : SiteRows :=
  let resolvents := codegen.cha.luaResolventsByMethod method
  let edges := resolvents.map fun target => (site, codegen.function target)
  let info : List (InsnSiteId × FlowVertex × CallDispatchKey) := [(site, ⟨receiver, .empty⟩, .lua method)]
  match codegen.strategy with
  | .cha => { call := edges }
  | .hi => { deferred := [(method, "")], calleeInfo := info }
  | .mixed | .legacyMixed =>
    if resolvents = [] then {} else { call := edges, deferred := [(method, "")], calleeInfo := info }

/-- The rows of one call statement. -/
def lowerSite : InsnSiteId × SiteStyle → SiteRows
  | (site, .direct targets) => { call := targets.map fun target => (site, codegen.function target) }
  | (site, .java receiver key dispatch superStart) =>
    codegen.apply site receiver key (codegen.classify key dispatch superStart)
  | (site, .cil receiver key) =>
    let dispatch := if codegen.cha.isInterface key.1 then .interface else .virtual
    codegen.apply site receiver key (codegen.classify key dispatch none)
  | (site, .lua receiver method) => codegen.lowerLua site receiver method
  | (site, .funcPtr callee) => { calleeInfo := [(site, callee, .c)] }

/-- The pair a dispatch key stands for in the table of deferred pairs. -/
def keyPair : CallDispatchKey → Option (Symbol × Symbol)
  | .java name descriptor | .cil name descriptor => some (name, descriptor)
  | .lua name => some (name, "")
  | .c => none

/-- A site that is joined on a key has deferred the key's pair. -/
theorem mem_deferred {call : InsnSiteId × SiteStyle} {site : InsnSiteId} {vertex : FlowVertex}
    {key : CallDispatchKey} {pair : Symbol × Symbol} (info : (site, vertex, key) ∈ (codegen.lowerSite call).calleeInfo)
    (stands : keyPair key = some pair) : pair ∈ (codegen.lowerSite call).deferred := by
  have applied : ∀ {receiver key' action}, (site, vertex, key) ∈ (codegen.apply call.1 receiver key' action).calleeInfo →
      pair ∈ (codegen.apply call.1 receiver key' action).deferred := by
    intro receiver key' action info
    cases action with
    | model | skip | cha | superExact => cases info
    | defer =>
      obtain ⟨-, -, rfl⟩ := by simpa only [apply, List.mem_singleton, Prod.mk.injEq] using info
      cases language : codegen.cha.language <;>
        simp_all [ClassHierarchyAnalysis.dispatchKey, keyPair, apply]
  obtain ⟨at_site, style⟩ := call
  cases style with
  | direct => cases info
  | java | cil => exact applied info
  | lua receiver method =>
    simp only [lowerSite, lowerLua] at info ⊢
    cases strategy : codegen.strategy <;> simp only [strategy] at info ⊢
    · cases info
    · simp_all [keyPair]
    all_goals
      split_ifs at info ⊢
      · cases info
      · simp_all [keyPair]
  | funcPtr =>
    obtain ⟨-, -, rfl⟩ := by simpa only [lowerSite, List.mem_singleton, Prod.mk.injEq] using info
    cases stands

end CodegenVisitor

end Ctadl.Codegen
