import Ctadl.Semantics.Interpretation
import Ctadl.Semantics.Termination

/-! # What the bounds of an evaluation decide

An evaluation computes the least interpretation of its context, so it observes more under larger bounds and for
more ports, and nothing else. The two bounds are felt only where the evaluation says so: one that was not
truncated is the same evaluation, move by move, under all larger bounds.
-/

set_option linter.unusedSectionVars false

namespace Ctadl.Semantics

open Cir

variable {O : Type} [DecidableEq O] [Add O] [Neg O] [OfNat O 0] {ctx : Context O}

/-- Bounds that admit what others admit. -/
def Config.Le (config config' : Config) : Prop :=
  config.pathBound ≤ config'.pathBound ∧ config.depth ≤ config'.depth

/-- A context under other bounds. -/
def Context.under (ctx : Context O) (config : Config) : Context O := { ctx with config }

section Truncation

/-- Where the first outcome was not truncated, neither was the state before it, and the second is the same. -/
def Kept (st before after : Eval O) : Prop := before.truncated = false → st.truncated = false ∧ after = before

namespace Kept

variable {st before after : Eval O} {F G : Eval O → Eval O}

theorem same (unchanged : before.truncated = st.truncated) : Kept st before before :=
  fun whole => ⟨unchanged.symm.trans whole, rfl⟩

theorem bind (first : Kept st before after) (second : Kept before (F before) (G before)) :
    Kept st (F before) (G after) := by
  intro whole
  obtain ⟨middle, rest⟩ := second whole
  obtain ⟨start, rfl⟩ := first middle
  exact ⟨start, rest⟩

/-- A loop after what came before it. -/
theorem foldl {α : Type} {F G : Eval O → α → Eval O} {items : List α} (first : Kept st before after)
    (each : ∀ st, ∀ x ∈ items, Kept st (F st x) (G st x)) : Kept st (items.foldl F before) (items.foldl G after) := by
  induction items generalizing before after with
  | nil => exact first
  | cons x rest ih =>
    apply ih
    · exact first.bind (F := (F · x)) (G := (G · x)) (each before x (.head _))
    · exact fun st y later => each st y (.tail _ later)

theorem loop {α : Type} {F G : Eval O → α → Eval O} {items : List α}
    (each : ∀ st, ∀ x ∈ items, Kept st (F st x) (G st x)) : Kept st (items.foldl F st) (items.foldl G st) :=
  foldl (same rfl) each

end Kept

namespace Eval

variable {config : Config} (larger : ctx.config.Le config) {st : Eval O}

theorem truncated_put {var : Var} {p : List (PathSegment O)} {label : Label} {scope : Scope} :
    (st.put var p label scope).truncated = st.truncated := by
  unfold put
  split
  · split_ifs <;> rfl
  · rfl

include larger

theorem kept_add {var : Var} {p : List (PathSegment O)} {label : Label} {scope : Scope} :
    Kept st (st.add ctx.config var p label scope) (st.add config var p label scope) := by
  unfold add
  split_ifs with location long _ longer
  · exact .same rfl
  · exact fun cut => Bool.noConfusion cut
  · exact fun cut => Bool.noConfusion cut
  · exact absurd (larger.1.trans_lt longer) long
  · exact .same truncated_put

theorem kept_assign {dst src : Var} {d s : List (PathSegment O)} {store : Bool} :
    Kept st (st.assign ctx.config dst d src s store) (st.assign config dst d src s store) := by
  unfold assign
  split_ifs
  · exact .same rfl
  all_goals
    apply Kept.bind (F := fun st => st.backward ctx.config dst d src s) (G := fun st => st.backward config dst d src s)
    · exact Kept.loop fun st e _ => Kept.loop fun st target _ => kept_add larger
    refine Kept.loop fun st e _ => ?_
    cases backwardTarget d s e.path with
    | none => exact .same rfl
    | some target => exact kept_add larger

theorem kept_assignExp {dst : Var} {d : List (PathSegment O)} {inst : ℕ} {e : Exp O} :
    Kept st (st.assignExp ctx dst d inst e) (st.assignExp (ctx.under config) dst d inst e) := by
  unfold assignExp
  rcases e with ap | ap | ⟨_ | _ | _ | _⟩ | text | number | data
  iterate 2 exact kept_assign larger
  iterate 5 exact kept_add larger
  all_goals exact .same rfl

theorem kept_source {inst : ℕ} {name : String} {rets : List VariableRef} {args : List (Exp O)} :
    Kept st (st.source ctx inst name rets args) (st.source (ctx.under config) inst name rets args) := by
  unfold source
  cases rets.head? with
  | none => exact .same rfl
  | some r =>
    apply Kept.bind (F := fun st => st.add ctx.config _ [.value] _ .all) (G := fun st => st.add config _ [.value] _ .all)
    · exact kept_add larger
    · exact kept_add larger

omit larger in
theorem kept_observe {inst : ℕ} {ap : AccessPath O} {site : String} :
    Kept st (st.observe ctx inst ap site) (st.observe (ctx.under config) inst ap site) := by
  refine Kept.loop fun st label _ => ?_
  cases label with
  | taint name =>
    apply Kept.same
    simp only
    split_ifs <;> rfl
  | target | cls | str => exact .same rfl

omit larger in
theorem kept_sink {inst info : ℕ} {name : String} {args : List (Exp O)} :
    Kept st (st.sink ctx inst info name args) (st.sink (ctx.under config) inst info name args) := by
  unfold sink
  cases args.head?.bind Exp.accessPath with
  | none => exact .same rfl
  | some ap => exact kept_observe

theorem kept_child {inst : ℕ} {key : CallKey} : (st.child ctx inst key).1.truncated = false →
    st.truncated = false ∧ st.child (ctx.under config) inst key = st.child ctx inst key := by
  unfold child
  cases st.instances[inst]? with
  | none => exact fun whole => ⟨whole, rfl⟩
  | some parent =>
    simp only
    cases parent.children.lookup key with
    | some c => exact fun whole => ⟨whole, rfl⟩
    | none =>
      simp only
      split_ifs with deep _ deeper
      · exact False.elim
      · exact False.elim
      · exact absurd (lt_of_le_of_lt larger.2 deeper) deep
      · exact fun whole => ⟨whole, rfl⟩

theorem kept_instantiate {inst block statement : ℕ} {callee : ℕ × ℕ} {rets : List VariableRef} {args : List (Exp O)} :
    Kept st (st.instantiate ctx inst block statement callee rets args)
      (st.instantiate (ctx.under config) inst block statement callee rets args) := by
  have child : (st.child ctx inst (block, statement, callee.1, callee.2)).1.truncated = false →
      st.truncated = false ∧ st.child (ctx.under config) inst (block, statement, callee.1, callee.2) =
        st.child ctx inst (block, statement, callee.1, callee.2) := kept_child larger
  have at? : (ctx.under config).functionAt callee.1 callee.2 = ctx.functionAt callee.1 callee.2 := rfl
  unfold instantiate
  rw [at?]
  generalize st.child ctx inst (block, statement, callee.1, callee.2) = result at child ⊢
  obtain ⟨made, c⟩ := result
  intro whole
  cases c with
  | none =>
    obtain ⟨start, same⟩ := child whole
    exact ⟨start, by rw [same]⟩
  | some c => cases found : ctx.functionAt callee.1 callee.2 with
    | none =>
      rw [found] at whole
      obtain ⟨start, same⟩ := child whole
      exact ⟨start, by rw [same]⟩
    | some f =>
      rw [found] at whole
      let body (ctx : Context O) : Eval O :=
        (returns f).foldl (fun st ret => (rets.zip ret).foldl (fun st r => st.assignExp ctx (st.var ctx inst r.1) [] c r.2) st)
          ((args.take f.params.length).zipIdx.foldl (fun st arg =>
            st.assignExp ctx (st.var ctx c (.new (.paramVar arg.2))) [] inst arg.1) made)
      have passed : Kept made (body ctx) (body (ctx.under config)) :=
        (Kept.loop fun st arg _ => kept_assignExp larger).foldl fun st ret _ => Kept.loop fun st r _ => kept_assignExp larger
      obtain ⟨middle, after⟩ := passed whole
      obtain ⟨start, same⟩ := child middle
      rw [same]
      exact ⟨start, after⟩

theorem kept_callTarget {inst block statement info : ℕ} {rets : List VariableRef} {args : List (Exp O)} {name : String} :
    Kept st (callTarget ctx inst block statement info rets args st name)
      (callTarget (ctx.under config) inst block statement info rets args st name) := by
  have ports : (ctx.under config).ports = ctx.ports := rfl
  have found : (ctx.under config).byName name = ctx.byName name := rfl
  unfold callTarget
  rw [ports, found]
  split_ifs
  · exact kept_source larger
  · exact kept_sink
  · cases ctx.byName name with
    | none => exact .same rfl
    | some callee => exact kept_instantiate larger

theorem kept_execute {inst block statement : ℕ} {stmt : Statement O} :
    Kept st (execute ctx inst block statement st stmt) (execute (ctx.under config) inst block statement st stmt) := by
  cases stmt with
  | assign dest sources => exact Kept.loop fun st e _ => kept_assignExp larger
  | phi dest operands => exact Kept.loop fun st operand _ => kept_assign larger
  | callAssign info style rets args =>
    cases style with
    | directCall names => exact Kept.loop fun st name _ => kept_callTarget larger
    | funcPtrCall callee signature =>
      refine Kept.foldl (.same ?_) fun st name _ => kept_callTarget larger
      split_ifs <;> rfl
    | unknown | javaCall | luaCall | cilCall => exact .same rfl
  | nop => exact .same rfl

/-- A pass over an instance that was not truncated is the same pass under larger bounds. -/
theorem kept_step {inst : ℕ} : Kept st (st.step ctx inst) (st.step (ctx.under config) inst) := by
  have at? : (st.instances[inst]?.bind fun i => (ctx.under config).functionAt i.program i.function) =
      st.instances[inst]?.bind fun i => ctx.functionAt i.program i.function := rfl
  unfold step
  rw [at?]
  cases st.instances[inst]?.bind fun i => ctx.functionAt i.program i.function with
  | none => exact .same rfl
  | some f =>
    refine ((Kept.loop fun st seed _ => ?_).foldl fun st obs _ => kept_observe).foldl fun st block _ =>
      Kept.loop fun st stmt _ => kept_execute larger
    exact (kept_add larger).bind (F := fun st => st.add ctx.config _ _ _ _) (G := fun st => st.add config _ _ _ _)
      (kept_add larger)

theorem kept_run {fuel : ℕ} {state : Eval O × ℕ} (stops : run ctx fuel state = some st) (whole : st.truncated = false) :
    state.1.truncated = false ∧ run (ctx.under config) fuel state = some st := by
  induction fuel generalizing state with
  | zero => cases stops
  | succ fuel ih =>
    obtain ⟨before, i⟩ := state
    simp only [run, next] at stops ⊢
    split_ifs at stops ⊢ with inside changed
    · obtain ⟨middle, rest⟩ := ih stops
      obtain ⟨start, same⟩ := kept_step larger middle
      exact ⟨start, same ▸ rest⟩
    · exact ih stops
    · obtain rfl := Option.some.inj stops
      exact ⟨whole, rfl⟩

end Eval

/-- An evaluation that was not truncated is the evaluation under all larger bounds. -/
theorem evaluate_under {config : Config} {fuel : ℕ} {st : Eval O} (stops : evaluate ctx fuel = some st)
    (whole : st.truncated = false) (larger : ctx.config.Le config) : evaluate (ctx.under config) fuel = some st :=
  (Eval.kept_run larger stops whole).2

/-- `f(p) { x = p }` with a label at the memory of its parameter. -/
private def copying : Context where
  programs := [{ globals := [], functions := [{
    name := "f"
    params := [.copied]
    returnArity := 0
    blocks := [{ statements := [.assign ⟨.new (.localVar 0), []⟩ [.path ⟨.new (.paramVar 0), []⟩]], terminator := some (.ret []) }]
    locals := ["x"] }] }]
  ports := ⟨[], [], [⟨"f", ⟨.new (.paramVar 0), [.deref]⟩, "a"⟩], [⟨"f", ⟨.new (.localVar 0), [.deref]⟩, "x"⟩]⟩
  config := ⟨2, 0⟩

private theorem copying_observed : (evaluate copying 6).map (fun st => (st.truncated, st.observed)) =
    some (false, {⟨"f", "x", "a"⟩}) := by decide +kernel

theorem evaluate_under_copying : (evaluate (copying.under ⟨7, 5⟩) 6).map Eval.observed = some {⟨"f", "x", "a"⟩} := by
  obtain ⟨st, stops, same⟩ := Option.map_eq_some_iff.mp copying_observed
  obtain ⟨whole, observed⟩ := Prod.mk.inj same
  rw [evaluate_under stops whole ⟨by decide, by decide⟩, Option.map_some, observed]

end Truncation

section Initial

/-- One interpretation read into another, its instances by `φ`. -/
structure Interpretation.Embeds (I J : Interpretation O) (φ : ℕ → ℕ) : Prop where
  frame : ∀ {n fr}, I.frame n = some fr → J.frame (φ n) = some fr
  child : ∀ {n key c}, I.child n key = some c → J.child (φ n) key = some (φ c)
  labels : ∀ {v p l scope}, I.labels v p l scope → J.labels (v.map φ) p l scope
  observed : I.observed ⊆ J.observed

theorem Eval.Below.embeds {J : Interpretation O} {φ : ℕ → ℕ} {size : ℕ} {st : Eval O} (models : J.Models ctx)
    (below : Below ctx J φ size st) : st.interpretation.Embeds J φ where
  frame := by
    intro n fr here
    obtain ⟨inst, at?, rfl⟩ := Option.map_eq_some_iff.mp here
    exact below.frames at?
  child := by
    intro n key c here
    obtain ⟨inst, at?, known⟩ := Option.bind_eq_some_iff.mp here
    exact (below.children at? known).2.1
  labels := by
    rintro v p l scope ⟨e, here, rfl, rfl, rfl, enough⟩
    have held := below.cells e here
    cases scope <;> cases wide : e.scope <;> rw [wide] at held enough
    · exact held
    · exact models.weaken held
    · cases enough
    · exact held
  observed := below.observed

/-- Every evaluation ends, and in the least interpretation that the rules add nothing to: it is one, and it can be read
into every other. -/
theorem evaluate_initial (ctx : Context) : ∃ fuel st, evaluate ctx fuel = some st ∧ st.interpretation.Models ctx ∧
    ∀ J : Interpretation, J.Models ctx → ∃ φ, st.interpretation.Embeds J φ := by
  obtain ⟨-, fuel, st, stops, -⟩ := Eval.terminates_of_finite ctx
  refine ⟨fuel, st, stops, models_of_evaluate stops, ?_⟩
  intro J models
  obtain ⟨φ, size, below⟩ := below_run models (below_new models) stops
  exact ⟨φ, below.embeds models⟩

end Initial

section Larger

/-- A context under other bounds, and with other ports of the kinds that only place or read labels. -/
def Context.extended (ctx : Context O) (config : Config) (seeds : List (Seed O)) (observers : List (Observer O)) : Context O :=
  { ctx with ports := { ctx.ports with seeds, observers }, config }

variable {config : Config} {labels : Labeling O} {I : Interpretation O} {n : ℕ} (larger : ctx.config.Le config)
include larger

theorem Placed.anti {v : Var} {p : List (PathSegment O)} {label : Label} {scope : Scope}
    (placed : Placed config labels v p label scope) : Placed ctx.config labels v p label scope :=
  fun location short => placed location (short.trans larger.1)

theorem AssignClosed.anti {dst src : Var} {d s : List (PathSegment O)} {store : Bool}
    (closed : AssignClosed config labels dst d src s store) : AssignClosed ctx.config labels dst d src s store := by
  intro live
  obtain ⟨forward, backward⟩ := closed live
  exact ⟨fun p l q held goes => (forward p l q held goes).anti larger,
    fun p l q held goes => (backward p l q held goes).anti larger⟩

namespace Interpretation

variable {seeds : List (Seed O)} {observers : List (Observer O)}

theorem ExpClosed.anti {dst : Var} {d : List (PathSegment O)} {e : Exp O}
    (closed : I.ExpClosed (ctx.extended config seeds observers) dst d n e) : I.ExpClosed ctx dst d n e := by
  rcases e with ap | ap | ⟨_ | _ | _ | _⟩ | text | number | data
  iterate 2 exact AssignClosed.anti larger closed
  iterate 5 exact Placed.anti larger closed
  all_goals trivial

theorem CallClosed.anti {block statement info : ℕ} {rets : List VariableRef} {args : List (Exp O)} {name : String}
    (closed : I.CallClosed (ctx.extended config seeds observers) n block statement info rets args name) :
    I.CallClosed ctx n block statement info rets args name := by
  change if name ∈ ctx.ports.sources then _ else if name ∈ ctx.ports.sinks then _ else _ at closed
  unfold CallClosed
  split_ifs at closed ⊢
  · exact fun r first => ⟨(closed r first).1.anti larger, (closed r first).2.anti larger⟩
  · exact closed
  · intro callee found fr frame shallow
    obtain ⟨c, child, frame', passes⟩ := closed callee found fr frame (shallow.trans larger.2)
    refine ⟨c, child, frame', fun f here => ?_⟩
    obtain ⟨formals, returned⟩ := passes f here
    exact ⟨fun arg member => (formals arg member).anti larger,
      fun ret member r both => (returned ret member r both).anti larger⟩

theorem StatementClosed.anti {block statement : ℕ} {stmt : Statement O}
    (closed : I.StatementClosed (ctx.extended config seeds observers) n block statement stmt) :
    I.StatementClosed ctx n block statement stmt := by
  cases stmt with
  | assign dest sources => exact fun e member => (closed e member).anti larger
  | phi dest operands => exact fun operand member => AssignClosed.anti larger (closed operand member)
  | callAssign info style rets args =>
    cases style with
    | directCall names => exact fun name member => (closed name member).anti larger
    | funcPtrCall callee signature => exact fun name seen => (closed name seen).anti larger
    | unknown | javaCall | luaCall | cilCall => trivial
  | nop => trivial

/-- What the rules add nothing to in a larger context, they add nothing to in a smaller one. -/
theorem Models.anti (placed : ctx.ports.seeds ⊆ seeds) (read : ctx.ports.observers ⊆ observers)
    (models : I.Models (ctx.extended config seeds observers)) : I.Models ctx where
  weaken := models.weaken
  roots := models.roots
  seeds here seed member named :=
    have closed := models.seeds here seed (placed member) named
    ⟨closed.1.anti larger, closed.2.anti larger⟩
  observers here obs member named := models.observers here obs (read member) named
  statements here _ _ at? _ _ there := (models.statements here at? there).anti larger

end Interpretation

/-- Larger bounds and more ports observe no less. -/
theorem observed_mono {seeds : List (Seed O)} {observers : List (Observer O)} (placed : ctx.ports.seeds ⊆ seeds)
    (read : ctx.ports.observers ⊆ observers) {fuel fuel' : ℕ} {st st' : Eval O} (stops : evaluate ctx fuel = some st)
    (stops' : evaluate (ctx.extended config seeds observers) fuel' = some st') : st.observed ⊆ st'.observed := by
  intro o seen
  exact observed_of_models (Interpretation.Models.anti larger placed read (models_of_evaluate stops')) stops seen

/-- `copying`, with a second label at the memory of its parameter. -/
private def copyingTwo : Context :=
  copying.extended ⟨3, 1⟩ (⟨"f", ⟨.new (.paramVar 0), [.deref]⟩, "b"⟩ :: copying.ports.seeds) copying.ports.observers

omit larger in
theorem observed_mono_copying : ∃ st st', evaluate copying 6 = some st ∧ evaluate copyingTwo 6 = some st' ∧
    st.observed ⊆ st'.observed ∧ ⟨"f", "x", "b"⟩ ∈ st'.observed \ st.observed := by
  have two : (evaluate copyingTwo 6).map Eval.observed = some {⟨"f", "x", "a"⟩, ⟨"f", "x", "b"⟩} := by decide +kernel
  obtain ⟨st, stops, same⟩ := Option.map_eq_some_iff.mp copying_observed
  obtain ⟨st', stops', observed'⟩ := Option.map_eq_some_iff.mp two
  obtain ⟨-, observed⟩ := Prod.mk.inj same
  refine ⟨st, st', stops, stops',
    observed_mono ⟨by decide, by decide⟩ (List.subset_cons_self _ _) (List.Subset.refl _) stops stops', ?_⟩
  rw [observed, observed']
  decide

end Larger

end Ctadl.Semantics
