import Ctadl.Codegen.Dispatch

/-! # Resolvents of deferred pairs only

The imports of a project are lowered one after another into one fact base. Each emits the part of its hierarchy
table whose pairs one of its own sites deferred, while the engine joins a site with the table of the class its
receiver was allocated from, whichever import that is. The emitted part stands for the whole table as long as no
reachable state joins a row left out (`filtered_resolvents_lossless`), as with a single import or imports that
defer the same pairs (`dead_of_shared`).
-/

namespace Ctadl.Codegen

open Cir Datalog Facts Index

/-- One import: its method table, what the model files matched, its call sites, and the facts of everything else. -/
structure Import where
  dispatch : Dispatch
  instantiatedClasses : List Symbol := []
  modelMatches : ProgramModelMatches := {}
  sites : List (InsnSiteId × SiteStyle)
  /-- Functions stored as call targets. -/
  funcptrTargets : List FunctionId := []
  other : IndexFacts
  other_info : other.calleeInfo = []

/-- Imports lowered into one fact base under one configuration. -/
structure Project where
  imports : List Import
  strategy : CallResolutionStrategy
  policy : CallPolicy := {}
  function : Symbol → FunctionId

/-- What a class and a signature are called in the fact base. -/
def ChaLanguage.resolventKey (language : ChaLanguage) (key : SignatureKey) : CallTargetObject × CallDispatchKey :=
  match language with
  | .java => (.symbol key.1, .java key.2.1 key.2.2)
  | .lua => (.luaClass key.1, .lua key.2.1)
  | .cil => (.cilClass key.1, .cil key.2.1 key.2.2)

/-- The rows of a completed hierarchy analysis under the wanted pairs. -/
def emitCalleeResolvents (cha : ClassHierarchyAnalysis) (wanted : Symbol × Symbol → Bool)
    (function : Symbol → FunctionId) : List Resolvent :=
  cha.resolvents.flatMap fun (key, targets) =>
    if wanted (key.2.1, key.2.2) then
      let (object, dispatch) := cha.language.resolventKey key
      targets.map fun target => (object, dispatch, function target)
    else []

namespace Project

variable (project : Project)

def visitor (imp : Import) : CodegenVisitor where
  cha := .new imp.dispatch imp.instantiatedClasses
  strategy := project.strategy
  policy := project.policy
  modelMatches := imp.modelMatches
  function := project.function

def siteRows (imp : Import) : List SiteRows := imp.sites.map (project.visitor imp).lowerSite

/-- The pairs some site of an import deferred. -/
def deferredDispatch (imp : Import) : List (Symbol × Symbol) := (project.siteRows imp).flatMap (·.deferred)

/-- The resolvents of an import under the wanted pairs, and those of its function pointers. -/
def importResolvents (wanted : Import → Symbol × Symbol → Bool) (imp : Import) : List Resolvent :=
  emitCalleeResolvents (project.visitor imp).cha (wanted imp) project.function ++
    imp.funcptrTargets.map fun f => (.functionId f, .c, f)

/-- The rows emitted: an import's pairs that it deferred. -/
def emittedResolvents : List Resolvent :=
  project.imports.flatMap (project.importResolvents fun imp pair => (project.deferredDispatch imp).contains pair)

/-- The rows of every import's whole table. -/
def completeResolvents : List Resolvent := project.imports.flatMap (project.importResolvents fun _ _ => true)

/-- The fact base over the emitted rows. -/
def facts : IndexFacts :=
  { formalParam := project.imports.flatMap (·.other.formalParam)
    actualParam := project.imports.flatMap (·.other.actualParam)
    call := project.imports.flatMap fun imp => (project.siteRows imp).flatMap (·.call) ++ imp.other.call
    assign := project.imports.flatMap (·.other.assign)
    callTargetAssign := project.imports.flatMap (·.other.callTargetAssign)
    constStrAssign := project.imports.flatMap (·.other.constStrAssign)
    calleeInfo := project.imports.flatMap fun imp => (project.siteRows imp).flatMap (·.calleeInfo) ++ imp.other.calleeInfo
    calleeResolvents := project.emittedResolvents
    summary := project.imports.flatMap (·.other.summary)
    paths := project.imports.flatMap (·.other.paths)
    intentFrame := project.imports.flatMap (·.other.intentFrame)
    intentSend := project.imports.flatMap (·.other.intentSend)
    intentFilter := project.imports.flatMap (·.other.intentFilter)
    intentComponent := project.imports.flatMap (·.other.intentComponent)
    globalFlow := project.imports.flatMap (·.other.globalFlow) }

/-- The index run over the emitted rows. -/
def filtered (config : IndexConfig) : EngineInput := ⟨project.facts, config⟩

/-- The index run over the complete tables. -/
def complete (config : IndexConfig) : EngineInput := (project.filtered config).withResolvents project.completeResolvents

/-- The relations a result is read from. -/
structure SameResults {config : IndexConfig} (t u : (project.filtered config).State) : Prop where
  callSite : ∀ f insn callee, t (.callSite f insn callee) = u (.callSite f insn callee)
  resolvedCall : ∀ f insn callee, t (.resolvedCall f insn callee) = u (.resolvedCall f insn callee)
  summary : ∀ f n1 p1 n2 p2, t (.summary f n1 p1 n2 p2) = u (.summary f n1 p1 n2 p2)
  locals : ∀ f v p a q, t (.locals f v p a q) = u (.locals f v p a q)

/-- A result: a saturated state some order of firing reaches. -/
def Outcome (input : EngineInput) (t : input.State) : Prop :=
  Run (IndexRules input) input.seed t ∧ Saturated (IndexRules input) t

/-- The emitted rows and the complete tables have the same results. -/
def Lossless (config : IndexConfig) : Prop :=
  (∀ t, Outcome (project.filtered config) t → ∃ u, Outcome (project.complete config) u ∧ project.SameResults t u) ∧
    ∀ u, Outcome (project.complete config) u → ∃ t, Outcome (project.filtered config) t ∧ project.SameResults t u

/-- No state reached over the emitted rows joins a row that was left out. -/
def DroppedRowsDead (config : IndexConfig) : Prop :=
  ∀ s, Run (IndexRules (project.filtered config)) (project.filtered config).seed s →
    ∀ row ∈ project.completeResolvents, ∀ f insn, (project.filtered config).Joins s row f insn →
      row ∈ project.emittedResolvents

variable {project} {config : IndexConfig}

theorem filtered_calleeResolvents : (project.filtered config).facts.calleeResolvents = project.emittedResolvents := rfl

theorem importResolvents_subset {wanted more : Import → Symbol × Symbol → Bool} {imp : Import}
    (grows : ∀ pair, wanted imp pair → more imp pair) :
    project.importResolvents wanted imp ⊆ project.importResolvents more imp := by
  refine List.append_subset.mpr ⟨?_, List.subset_append_right _ _⟩
  refine List.Subset.trans ?_ (List.subset_append_left _ _)
  intro row mem
  simp only [emitCalleeResolvents, List.mem_flatMap] at mem ⊢
  obtain ⟨entry, present, mem⟩ := mem
  split_ifs at mem with want
  · exact ⟨entry, present, by rw [if_pos (grows _ want)]; exact mem⟩
  · cases mem

theorem emittedResolvents_subset : project.emittedResolvents ⊆ project.completeResolvents := by
  intro row mem
  obtain ⟨imp, present, mem⟩ := List.mem_flatMap.mp mem
  exact List.mem_flatMap.mpr ⟨imp, present, importResolvents_subset (fun _ _ => rfl) mem⟩

/-- Without a joined row that was left out, the results are the same states. -/
theorem outcome_iff (dead : project.DroppedRowsDead config) {t : (project.filtered config).State} :
    Outcome (project.complete config) t ↔ Outcome (project.filtered config) t := by
  have runs : Run (IndexRules (project.complete config)) (project.complete config).seed t ↔
      Run (IndexRules (project.filtered config)) (project.filtered config).seed t :=
    EngineInput.run_withResolvents_iff emittedResolvents_subset dead
  constructor
  · rintro ⟨run, sat⟩
    have run' := runs.mp run
    exact ⟨run', (EngineInput.saturated_withResolvents_iff emittedResolvents_subset (dead t run')).mp sat⟩
  · rintro ⟨run, sat⟩
    exact ⟨runs.mpr run, (EngineInput.saturated_withResolvents_iff emittedResolvents_subset (dead t run)).mpr sat⟩

/-- What a reached state joins is called in some result over the complete tables. -/
theorem exists_outcome_resolved {s : (project.filtered config).State}
    (run : Run (IndexRules (project.filtered config)) (project.filtered config).seed s) {row : Resolvent}
    (resolves : row ∈ project.completeResolvents) {f : FunctionId} {insn : InsnId}
    (joins : (project.filtered config).Joins s row f insn) :
    ∃ u, Outcome (project.complete config) u ∧ Present u (.resolvedCall f insn row.2.2) := by
  have run' : Run (IndexRules (project.complete config)) (project.complete config).seed s :=
    EngineInput.run_withResolvents_of_subset emittedResolvents_subset run
  have fires : IndexRules (project.complete config) s (.resolvedCall f insn row.2.2) ⊤ := by
    obtain ⟨v, p, info, tag | ⟨r, n, q, d, flow, index, decided⟩⟩ := joins
    · exact .hybrid (.localCall info tag resolves)
    · exact .hybrid (.decidedCall info flow index decided resolves)
  have run'' : Run (IndexRules (project.complete config)) (project.complete config).seed _ := run'.snoc fires
  obtain ⟨u, more, sat⟩ := EngineInput.exists_saturated_of_active (fun _ _ _ fires => fires)
    (EngineInput.activeState_seed.run run'')
  exact ⟨u, ⟨run''.trans more, sat⟩, (Store.present_insert.mpr (.inl rfl)).mono (more.le _)⟩

theorem lossless_of_dead (dead : project.DroppedRowsDead config) : project.Lossless config := by
  have same : ∀ t : (project.filtered config).State, project.SameResults t t := fun t =>
    ⟨fun _ _ _ => rfl, fun _ _ _ => rfl, fun _ _ _ _ _ => rfl, fun _ _ _ _ _ => rfl⟩
  exact ⟨fun t outcome => ⟨t, (outcome_iff dead).mpr outcome, same t⟩,
    fun u outcome => ⟨u, (outcome_iff dead).mp outcome, same u⟩⟩

/-- Where the results are the same, what a reached state joins is called in a result over the emitted rows. -/
theorem resolved_of_lossless (lossless : project.Lossless config) {s : (project.filtered config).State}
    (run : Run (IndexRules (project.filtered config)) (project.filtered config).seed s) {row : Resolvent}
    (resolves : row ∈ project.completeResolvents) {f : FunctionId} {insn : InsnId}
    (joins : (project.filtered config).Joins s row f insn) :
    ∃ t, Outcome (project.filtered config) t ∧ Present t (.resolvedCall f insn row.2.2) := by
  obtain ⟨u, outcome, resolved⟩ := exists_outcome_resolved run resolves joins
  obtain ⟨t, outcome', same⟩ := lossless.2 u outcome
  exact ⟨t, outcome', resolved.of_eq (same.resolvedCall f insn row.2.2).symm⟩

/-- A row of an import's hierarchy, under the pair its key stands for. -/
theorem mem_emitCalleeResolvents {wanted : Symbol × Symbol → Bool} {imp : Import} {row : Resolvent}
    (mem : row ∈ emitCalleeResolvents (project.visitor imp).cha (fun _ => true) project.function)
    (want : ∀ pair, CodegenVisitor.keyPair row.2.1 = some pair → wanted pair) :
    row ∈ emitCalleeResolvents (project.visitor imp).cha wanted project.function := by
  simp only [emitCalleeResolvents, List.mem_flatMap, if_true] at mem ⊢
  obtain ⟨entry, present, mem⟩ := mem
  refine ⟨entry, present, ?_⟩
  obtain ⟨target, listed, rfl⟩ := List.mem_map.mp mem
  have stands : CodegenVisitor.keyPair ((project.visitor imp).cha.language.resolventKey entry.1).2 =
      some (entry.1.2.1, entry.1.2.2) := by
    cases language : (project.visitor imp).cha.language with
    | java | cil => rfl
    | lua =>
      have empty := ClassHierarchyAnalysis.descriptor_of_lua present language
      rw [empty]
      rfl
  rw [if_pos (want _ stands)]
  exact List.mem_map.mpr ⟨target, listed, rfl⟩

/-- Imports that defer the same pairs, a single import among them, leave no row out that a site could join. -/
theorem dead_of_shared (shared : ∀ a ∈ project.imports, ∀ b ∈ project.imports,
    project.deferredDispatch b ⊆ project.deferredDispatch a) : project.DroppedRowsDead config := by
  rintro s - row resolves f insn ⟨v, p, info, -⟩
  obtain ⟨a, present, mem⟩ := List.mem_flatMap.mp resolves
  refine List.mem_flatMap.mpr ⟨a, present, ?_⟩
  rcases List.mem_append.mp mem with mem | identity
  · refine List.mem_append_left _ (mem_emitCalleeResolvents mem fun pair stands => ?_)
    obtain ⟨b, present', info⟩ := List.mem_flatMap.mp info
    rw [b.other_info, List.append_nil] at info
    obtain ⟨rows, lowered, info⟩ := List.mem_flatMap.mp info
    obtain ⟨site, listed, rfl⟩ := List.mem_map.mp lowered
    have deferred := CodegenVisitor.mem_deferred _ info stands
    exact List.contains_iff_mem.mpr (shared a present b present' (List.mem_flatMap.mpr ⟨_, lowered, deferred⟩))
  · exact List.mem_append_right _ identity

section TwoImports

/-- No facts. -/
def noFacts : IndexFacts :=
  { formalParam := [], actualParam := [], call := [], assign := [], callTargetAssign := [], constStrAssign := [],
    calleeInfo := [], calleeResolvents := [], summary := [], paths := [.empty], intentFrame := [], intentSend := [],
    intentFilter := [], intentComponent := [], globalFlow := [] }

/-- A library: `Y` extends `X` and overrides `run`; the constructor of `Y` calls the one of `X`. -/
def library : Import where
  dispatch := .java [("LX;", "<init>", "()V", "LX;-><init>()V"), ("LX;", "run", "()V", "LX;->run()V"),
    ("LY;", "<init>", "()V", "LY;-><init>()V"), ("LY;", "run", "()V", "LY;->run()V")] [("LY;", ["LX;"])] []
  sites := [(⟨5, 50⟩, .java (.formal 0) ("LX;", "<init>", "()V") .super none)]
  other := { noFacts with actualParam := [(⟨5, 50⟩, 0, ⟨.formal 0, .empty⟩)] }
  other_info := rfl

/-- A program over the library: `X x = new Y(); x.run();`, with the methods it names declared. -/
def application : Import where
  dispatch := .java [("LX;", "run", "()V", "LX;->run()V"), ("LY;", "<init>", "()V", "LY;-><init>()V")] [] []
  instantiatedClasses := ["LY;"]
  sites := [(⟨2, 21⟩, .java (.local "x") ("LY;", "<init>", "()V") .super none),
    (⟨2, 22⟩, .java (.local "x") ("LX;", "run", "()V") .virtual none)]
  other :=
    { noFacts with
      actualParam := [(⟨2, 21⟩, 0, ⟨.local "x", .empty⟩), (⟨2, 22⟩, 0, ⟨.local "x", .empty⟩)]
      callTargetAssign := [(⟨2, 20⟩, ⟨.local "x", .empty⟩, .symbol "LY;")] }
  other_info := rfl

/-- Both imports, every call inlined. -/
def twoImports : Project where
  imports := [library, application]
  strategy := .hi
  function := fun name =>
    if name = "LX;-><init>()V" then 3 else if name = "LX;->run()V" then 4 else if name = "LY;-><init>()V" then 5
    else if name = "LY;->run()V" then 6 else 0

/-- The configuration of the run. -/
def twoImportsConfig : IndexConfig := ⟨true, .decision, .sets, false⟩

private theorem twoImports_rows : (.symbol "LY;", .java "run" "()V", 6) ∈ twoImports.completeResolvents ∧
    ∀ row ∈ twoImports.emittedResolvents, row.2.2 ≠ 6 := by decide +kernel

private theorem twoImports_info : (twoImports.filtered twoImportsConfig).CalleeInfo 2 22 (.local "x") .empty
    (.java "run" "()V") := by
  show _ ∈ twoImports.facts.calleeInfo
  decide +kernel

/-- A run over the emitted rows reaches a state where the site of `run` holds an object of `Y`. -/
private theorem twoImports_joins : ∃ s, Run (IndexRules (twoImports.filtered twoImportsConfig))
    (twoImports.filtered twoImportsConfig).seed s ∧
    (twoImports.filtered twoImportsConfig).Joins s (.symbol "LY;", .java "run" "()V", 6) 2 22 := by
  have start : Run (IndexRules (twoImports.filtered twoImportsConfig)) (twoImports.filtered twoImportsConfig).seed _ := .refl
  have critical := start.snoc (.tag (.criticalHere twoImports_info))
  have closure := critical.snoc (.tag (.closureCritical (Store.present_insert.mpr (.inl rfl))))
  have stored : (twoImports.filtered twoImportsConfig).CallTargetAssign 2 (.local "x") .empty (.symbol "LY;") :=
    ⟨20, by simp [filtered, facts, twoImports, library, application, noFacts]⟩
  have tagged := closure.snoc (.tag (.stored stored (Store.present_insert.mpr (.inl rfl))))
  exact ⟨_, tagged, _, _, twoImports_info, .inl (Store.present_insert.mpr (.inl rfl))⟩

end TwoImports

end Project

end Ctadl.Codegen
