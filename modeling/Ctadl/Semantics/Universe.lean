import Ctadl.Semantics.Progress
import Mathlib.Data.Set.Finite.List
import Mathlib.Algebra.Group.Action.Defs

/-! # What an evaluation can ever find

Every variable, field, label and call site of an evaluation is named by its programs or its ports, so the
locations it can label lie in a universe fixed in advance: `Within` says that a state stays inside it and
every operation of the evaluator keeps it. Instances are bounded by the potential of the call tree: an
instance has at most one child for each call site and callee, and none below the configured depth.

Paths are bounded in length and in their fields, but not in their offsets. Where the offsets are finite,
as 64-bit words are, the universe is.
-/

set_option linter.unusedSectionVars false

namespace Ctadl.Cir

variable {O : Type}

/-- The operands of a statement, with its variables as operands of no segments. -/
def Statement.operands : Statement O → List (Exp O)
  | .assign dest sources => .path dest :: sources
  | .phi dest operands => (dest :: operands.map Prod.snd).map fun v => .path (.ofRef v)
  | .callAssign _ (.funcPtrCall callee _) rets args => .path callee :: rets.map (fun v => .path (.ofRef v)) ++ args
  | .callAssign _ _ rets args => rets.map (fun v => .path (.ofRef v)) ++ args
  | .nop => []

/-- The operands of a function: its parameters, and those of its statements and returns. -/
def FunctionData.operands (f : FunctionData O) : List (Exp O) :=
  (List.range f.params.length).map (fun idx => .path (.ofRef (.new (.paramVar idx)))) ++
    f.blocks.flatMap fun block => block.statements.flatMap Statement.operands ++
      match block.terminator with
      | some (.ret args) => args
      | some (.goto _) | none => []

end Ctadl.Cir

namespace Ctadl.Semantics

open Cir

variable {O : Type}

namespace Context

def functions (ctx : Context O) : List (FunctionData O) := ctx.programs.flatMap Program.functions

def statements (ctx : Context O) : List (Statement O) :=
  ctx.functions.flatMap fun f => f.blocks.flatMap BasicBlockData.statements

/-- Every operand of the programs and the ports. -/
def operands (ctx : Context O) : List (Exp O) :=
  ctx.functions.flatMap FunctionData.operands ++ ctx.ports.seeds.map (.path ·.path) ++
    ctx.ports.observers.map (.path ·.path)

def accessPaths (ctx : Context O) : List (AccessPath O) := ctx.operands.filterMap Exp.accessPath

/-- The labels that an operand can place, itself or as the name of a source's label. -/
def labelsOf : Exp O → List Label
  | .objectRef (.functionPtr f) => [.target f]
  | .objectRef object => [.cls object]
  | .str text => [.str text, .taint text]
  | .path _ | .value _ | .int _ | .bytes _ => []

def labels (ctx : Context O) : List Label :=
  ctx.operands.flatMap labelsOf ++ ctx.ports.sources.map .taint ++ ctx.ports.seeds.map (.taint ·.label)

/-- The names of functions, with the one of no function. -/
def names (ctx : Context O) : List String := "" :: ctx.functions.map FunctionData.name

/-- The names of globals, with the one of no global. -/
def globals (ctx : Context O) : List String := "" :: ctx.programs.flatMap Program.globals

/-- The names a sink's port can have. -/
def portLabels (ctx : Context O) : List String :=
  "_" :: ctx.operands.filterMap fun
    | .str text => some text
    | .path _ | .value _ | .objectRef _ | .int _ | .bytes _ => none

/-- Every site an observation can name. -/
def sites (ctx : Context O) : List String :=
  ctx.ports.observers.map Observer.name ++ ctx.ports.sinks.flatMap fun sink =>
    ctx.portLabels.flatMap fun text => ctx.statements.filterMap fun
      | .callAssign info _ _ _ => some (sink ++ "(" ++ text ++ ")@" ++ toString info)
      | .assign _ _ | .phi _ _ | .nop => none

/-- The blocks and statements of the functions, by number. -/
def positions (ctx : Context O) : List (ℕ × ℕ) :=
  ctx.functions.flatMap fun f => f.blocks.zipIdx.flatMap fun (block, b) =>
    block.statements.zipIdx.map fun (_, i) => (b, i)

/-- Every call site and callee. -/
def keys (ctx : Context O) : List CallKey :=
  ctx.positions.flatMap fun (b, i) => ctx.bodies.map fun ((program, function), _) => (b, i, program, function)

/-- How many instances one call that may nest so much deeper stands for. -/
def subtree (ctx : Context O) : ℕ → ℕ
  | 0 => 0
  | below + 1 => 1 + ctx.keys.length * ctx.subtree below

/-- How many instances an evaluation can have. -/
def limit (ctx : Context O) : ℕ := ctx.bodies.length * (1 + ctx.keys.length * ctx.subtree ctx.config.depth)

/-- A variable that some operand names. -/
def RefIn (ctx : Context O) (v : VariableRef) : Prop := ∃ ap ∈ ctx.accessPaths, ap.base = v

/-- A variable that the evaluation can label. -/
def VarIn (ctx : Context O) (v : Var) : Prop :=
  (∃ i < ctx.limit, ∃ r, ctx.RefIn r ∧ v = (.inst i, r)) ∨
    ∃ name ∈ ctx.globals, v = (.globalName name, .new (.globalVar 0))

/-- A path of known fields. -/
def PathIn (ctx : Context O) (p : List (PathSegment O)) : Prop :=
  ∀ name, .field name ∈ p → ∃ ap ∈ ctx.accessPaths, .field name ∈ ap.segments

theorem functionAt_mem (ctx : Context O) {program function : ℕ} {f : FunctionData O}
    (found : ctx.functionAt program function = some f) : f ∈ ctx.functions := by
  obtain ⟨p, there, here⟩ := Option.bind_eq_some_iff.mp found
  exact List.mem_flatMap.mpr ⟨p, List.mem_of_getElem? there, List.mem_of_getElem? here⟩

theorem refIn (ctx : Context O) {e : Exp O} {ap : AccessPath O} (known : e ∈ ctx.operands)
    (path : e.accessPath = some ap) : ctx.RefIn ap.base :=
  ⟨ap, List.mem_filterMap.mpr ⟨e, known, path⟩, rfl⟩

theorem pathIn (ctx : Context O) {e : Exp O} {ap : AccessPath O} (known : e ∈ ctx.operands)
    (path : e.accessPath = some ap) : ctx.PathIn ap.segments :=
  fun _ member => ⟨ap, List.mem_filterMap.mpr ⟨e, known, path⟩, member⟩

section Paths

variable [DecidableEq O] [Add O] [Neg O] [OfNat O 0] {ctx : Context O} {p d s t : List (PathSegment O)}

theorem PathIn.concat (front : ctx.PathIn p) (rest : ctx.PathIn t) : ctx.PathIn (concat p t) :=
  fun name member => (field_mem_concat member).elim (front name) (rest name)

theorem PathIn.nil : ctx.PathIn [] := fun name member => absurd member (by simp)

theorem PathIn.value : ctx.PathIn [.value] := fun name member => absurd member (by simp)

theorem PathIn.strip (whole : ctx.PathIn p) (found : stripPrefix p s = some t) : ctx.PathIn t :=
  fun name member => whole name (field_mem_of_stripPrefix found member)

/-- An assignment carries labels to known fields only. -/
theorem PathIn.forwardTargets (dest : ctx.PathIn d) (whole : ctx.PathIn p) {target : List (PathSegment O)}
    (goes : target ∈ forwardTargets d s p) : ctx.PathIn target := by
  rcases List.mem_append.mp goes with moved | based
  · cases found : stripPrefix p s with
    | none => simp [found] at moved
    | some t =>
      simp only [found, List.mem_cons] at moved
      rcases moved with rfl | valued
      · exact dest.concat (whole.strip found)
      · split_ifs at valued
        · obtain rfl := List.mem_singleton.mp valued
          exact dest.concat .value
        · simp at valued
  · split_ifs at based
    · obtain rfl := List.mem_singleton.mp based
      exact dest
    · simp at based

theorem PathIn.backwardTarget (source : ctx.PathIn s) (whole : ctx.PathIn p) {target : List (PathSegment O)}
    (goes : backwardTarget d s p = some target) : ctx.PathIn target := by
  obtain ⟨t, found, kept⟩ := Option.bind_eq_some_iff.mp goes
  split_ifs at kept
  obtain rfl := Option.some.inj kept
  exact source.concat (whole.strip found)

end Paths

end Context

namespace Eval

variable [DecidableEq O] [Add O] [Neg O] [OfNat O 0] {ctx : Context O} {st : Eval O}

/-- An instance within the depth, with one child at most for each call site and callee. -/
structure InstanceIn (ctx : Context O) (i : Instance) : Prop where
  depth : i.depth ≤ ctx.config.depth
  distinct : (i.children.map Prod.fst).Nodup
  children : ∀ child ∈ i.children, child.1 ∈ ctx.keys ∧ child.2 < ctx.limit

/-- How many more instances can appear below an instance. -/
def slots (ctx : Context O) (i : Instance) : ℕ :=
  (ctx.keys.length - i.children.length) * ctx.subtree (ctx.config.depth - i.depth)

/-- A label that the evaluation can place. -/
structure EntryIn (ctx : Context O) (e : Entry O) : Prop where
  var : ctx.VarIn e.var
  path : ctx.PathIn e.path
  short : e.path.length ≤ ctx.config.pathBound
  label : e.label ∈ ctx.labels

/-- A state that the evaluation can be in. -/
structure Within (ctx : Context O) (st : Eval O) : Prop where
  instances : ∀ i ∈ st.instances, InstanceIn ctx i
  bounded : st.instances.length + (st.instances.map (slots ctx)).sum ≤ ctx.limit
  cells : ∀ e ∈ st.cells, EntryIn ctx e
  distinct : (st.cells.map fun e => (e.var, e.path, e.label)).Nodup
  observed : ∀ o ∈ st.observed, o.function ∈ ctx.names ∧ o.site ∈ ctx.sites ∧ .taint o.label ∈ ctx.labels

namespace Within

theorem new : Within ctx (.new ctx) where
  instances i member := by
    obtain ⟨body, -, rfl⟩ := List.mem_map.mp member
    exact ⟨Nat.zero_le _, .nil, by simp⟩
  bounded := by
    have each : ∀ i ∈ (Eval.new ctx).instances.map (slots ctx), i ≤ ctx.keys.length * ctx.subtree ctx.config.depth := by
      simp only [Eval.new, List.map_map, List.mem_map, forall_exists_index, and_imp]
      rintro _ body - rfl
      simp [slots]
    have total := List.sum_le_card_nsmul _ _ each
    simp only [Eval.new, List.length_map, smul_eq_mul] at total ⊢
    rw [Context.limit, Nat.mul_add, Nat.mul_one]
    omega
  cells := by simp [Eval.new]
  distinct := by simp [Eval.new]
  observed := by simp [Eval.new]

theorem foldl {α : Type} {f : Eval O → α → Eval O} {items : List α} (within : Within ctx st)
    (each : ∀ st, Within ctx st → ∀ x ∈ items, Within ctx (f st x)) : Within ctx (items.foldl f st) := by
  induction items generalizing st with
  | nil => exact within
  | cons x rest ih => exact ih (each st within x (.head _)) fun st within y later => each st within y (.tail _ later)

/-- The report of bounds and unresolved calls is not looked at. -/
theorem report {st' : Eval O} (within : Within ctx st) (same : Same st st') : Within ctx st' where
  instances := same.instances ▸ within.instances
  bounded := same.instances ▸ within.bounded
  cells := same.cells ▸ within.cells
  distinct := same.cells ▸ within.distinct
  observed := same.observed ▸ within.observed

theorem put (within : Within ctx st) {e : Entry O} (known : EntryIn ctx e) :
    Within ctx (st.put e.var e.path e.label e.scope) := by
  unfold Eval.put
  cases found : st.scopeAt e.var e.path e.label with
  | none =>
    refine ⟨within.instances, within.bounded, ?_, ?_, within.observed⟩
    · rintro other member
      rcases List.mem_cons.mp member with rfl | old
      · exact known
      · exact within.cells other old
    · refine List.nodup_cons.mpr ⟨?_, within.distinct⟩
      rintro member
      obtain ⟨other, here, same⟩ := List.mem_map.mp member
      have missing := List.find?_eq_none.mp (Option.map_eq_none_iff.mp found) other here
      simp_all
  | some old =>
    simp only
    split_ifs
    · exact within
    · refine ⟨within.instances, within.bounded, ?_, ?_, within.observed⟩
      · intro other member
        obtain ⟨before, here, rfl⟩ := List.mem_map.mp member
        obtain ⟨var, path, short, label⟩ := within.cells before here
        split_ifs <;> exact ⟨var, path, short, label⟩
      · have kept : ∀ o : Entry O, (fun o : Entry O => (o.var, o.path, o.label))
            (if o.var = e.var ∧ o.path = e.path ∧ o.label = e.label then { o with scope := e.scope } else o) =
              (o.var, o.path, o.label) := by
          intro o
          split_ifs <;> rfl
        simpa only [List.map_map, Function.comp_def, kept] using within.distinct

theorem add (within : Within ctx st) {var : Var} {p : List (PathSegment O)} {label : Label} {scope : Scope}
    (varIn : ctx.VarIn var) (pathIn : ctx.PathIn p) (labelIn : label ∈ ctx.labels) :
    Within ctx (st.add ctx.config var p label scope) := by
  unfold Eval.add
  split_ifs with _ long
  · exact within
  · exact within.report ⟨rfl, rfl, rfl⟩
  · exact within.put (e := ⟨var, p, label, scope⟩) ⟨varIn, pathIn, not_lt.mp long, labelIn⟩

theorem assign (within : Within ctx st) {dst src : Var} {d s : List (PathSegment O)} {store : Bool}
    (dstIn : ctx.VarIn dst) (srcIn : ctx.VarIn src) (dIn : ctx.PathIn d) (sIn : ctx.PathIn s) :
    Within ctx (st.assign ctx.config dst d src s store) := by
  have forward : ∀ scope, Within ctx (st.forward ctx.config dst d src s scope) := by
    intro scope
    refine within.foldl fun st' within' e member => within'.foldl fun st'' within'' target goes => ?_
    have known := within.cells e (List.mem_of_mem_filter member)
    exact within''.add dstIn (dIn.forwardTargets known.path goes) known.label
  have backward : ∀ {st : Eval O}, Within ctx st → Within ctx (st.backward ctx.config dst d src s) := by
    intro st within
    refine within.foldl fun st' within' e member => ?_
    have known := within.cells e (List.mem_of_mem_filter member)
    cases goes : backwardTarget d s e.path with
    | none => exact within'
    | some target => exact within'.add srcIn (sIn.backwardTarget known.path goes) known.label
  unfold Eval.assign
  split_ifs
  · exact within
  all_goals exact backward (forward _)

theorem varIn (st : Eval O) {inst : ℕ} {v : VariableRef} (below : inst < ctx.limit) (known : ctx.RefIn v) :
    ctx.VarIn (st.var ctx inst v) := by
  unfold Eval.var
  cases v.var with
  | globalVar idx =>
    refine .inr ⟨_, ?_, rfl⟩
    cases found : (st.instances[inst]?.bind fun i => ctx.programs[i.program]?).bind
        fun program => program.globals[idx]? with
    | none => exact .head _
    | some name =>
      obtain ⟨program, at?, here⟩ := Option.bind_eq_some_iff.mp found
      obtain ⟨i, -, there⟩ := Option.bind_eq_some_iff.mp at?
      exact .tail _ (List.mem_flatMap.mpr ⟨program, List.mem_of_getElem? there, List.mem_of_getElem? here⟩)
  | localVar | paramVar => exact .inl ⟨inst, below, v, known, rfl⟩

theorem assignExp (within : Within ctx st) {dst : Var} {d : List (PathSegment O)} {inst : ℕ} {e : Exp O}
    (dstIn : ctx.VarIn dst) (dIn : ctx.PathIn d) (below : inst < ctx.limit) (known : e ∈ ctx.operands) :
    Within ctx (st.assignExp ctx dst d inst e) := by
  have labels : ∀ label ∈ Context.labelsOf e, label ∈ ctx.labels := fun label place =>
    List.mem_append_left _ (List.mem_append_left _ (List.mem_flatMap.mpr ⟨e, known, place⟩))
  unfold Eval.assignExp
  rcases e with ap | ap | ⟨_ | _ | _ | _⟩ | text | number | data
  · exact within.assign dstIn (varIn _ below (ctx.refIn known rfl)) dIn (ctx.pathIn known rfl)
  · exact within.assign dstIn (varIn _ below (ctx.refIn known rfl)) (dIn.concat .value) (ctx.pathIn known rfl)
  · exact within.add dstIn dIn (labels _ (.head _))
  · exact within.add dstIn dIn (labels _ (.head _))
  · exact within.add dstIn dIn (labels _ (.head _))
  · exact within.add dstIn dIn (labels _ (.head _))
  · exact within.add dstIn dIn (labels _ (.head _))
  all_goals exact within

theorem functionName_mem (st : Eval O) (inst : ℕ) : st.functionName ctx inst ∈ ctx.names := by
  unfold Eval.functionName
  cases found : st.instances[inst]?.bind fun i => ctx.functionAt i.program i.function with
  | none => exact .head _
  | some f =>
    obtain ⟨i, -, here⟩ := Option.bind_eq_some_iff.mp found
    exact .tail _ (List.mem_map.mpr ⟨f, ctx.functionAt_mem here, rfl⟩)

theorem observe (within : Within ctx st) {inst : ℕ} {ap : AccessPath O} {site : String} (known : site ∈ ctx.sites) :
    Within ctx (st.observe ctx inst ap site) := by
  have labels : ∀ p var, ∀ label ∈ st.read var p, label ∈ ctx.labels := by
    intro p var label member
    obtain ⟨e, here, rfl⟩ := List.mem_map.mp member
    exact (within.cells e (List.mem_of_mem_filter here)).label
  unfold Eval.observe
  refine within.foldl fun st' within' label member => ?_
  have labelIn : label ∈ ctx.labels := (List.mem_append.mp member).elim (labels _ _ label) (labels _ _ label)
  cases label with
  | taint name =>
    simp only
    split_ifs
    · exact within'
    · refine ⟨within'.instances, within'.bounded, within'.cells, within'.distinct, fun o member => ?_⟩
      rcases Finset.mem_insert.mp member with rfl | old
      · exact ⟨functionName_mem st' inst, known, labelIn⟩
      · exact within'.observed o old
  | target | cls | str => exact within'

theorem source_label {name : String} {args : List (Exp O)} (declared : name ∈ ctx.ports.sources)
    (operands : ∀ e ∈ args, e ∈ ctx.operands) :
    (match args.head? with
      | some (.str text) => Label.taint text
      | _ => .taint name) ∈ ctx.labels := by
  split
  · next text first =>
    exact List.mem_append_left _ (List.mem_append_left _ (List.mem_flatMap.mpr
      ⟨.str text, operands _ (List.mem_of_mem_head? first), .tail _ (.head _)⟩))
  · exact List.mem_append_left _ (List.mem_append_right _ (List.mem_map_of_mem declared))

theorem source (within : Within ctx st) {inst : ℕ} {name : String} {rets : List VariableRef} {args : List (Exp O)}
    (below : inst < ctx.limit) (declared : name ∈ ctx.ports.sources) (known : ∀ r ∈ rets, ctx.RefIn r)
    (operands : ∀ e ∈ args, e ∈ ctx.operands) : Within ctx (st.source ctx inst name rets args) := by
  have label := source_label declared operands
  unfold Eval.source
  cases first : rets.head? with
  | none => exact within
  | some r =>
    have varIn := varIn st below (known r (List.mem_of_mem_head? first))
    exact (within.add varIn .nil label).add varIn .value label

theorem sink (within : Within ctx st) {inst info : ℕ} {name : String} {args : List (Exp O)}
    (declared : name ∈ ctx.ports.sinks) (operands : ∀ e ∈ args, e ∈ ctx.operands)
    (here : ∃ style rets args, .callAssign info style rets args ∈ ctx.statements) :
    Within ctx (st.sink ctx inst info name args) := by
  obtain ⟨style, rets, args', here⟩ := here
  unfold Eval.sink
  cases args.head?.bind Exp.accessPath with
  | none => exact within
  | some ap =>
    refine within.observe (List.mem_append_right _ (List.mem_flatMap.mpr ⟨name, declared, ?_⟩))
    refine List.mem_flatMap.mpr ⟨_, ?_, List.mem_filterMap.mpr ⟨_, here, rfl⟩⟩
    split
    · next text rest second =>
      refine .tail _ (List.mem_filterMap.mpr ⟨.str text, operands _ (List.mem_of_mem_tail ?_), rfl⟩)
      exact second ▸ .head _
    · exact .head _

/-- A new child takes one slot of its parent, and brings as many as the slot stood for, less itself. -/
private theorem slots_child {parent : Instance} (key : CallKey) (c : ℕ) (fresh : Instance)
    (room : parent.children.length < ctx.keys.length) (deeper : parent.depth + 1 ≤ ctx.config.depth)
    (depth : fresh.depth = parent.depth + 1) (childless : fresh.children = []) :
    slots ctx { parent with children := (key, c) :: parent.children } + slots ctx fresh + 1 = slots ctx parent := by
  obtain ⟨below, left⟩ : ∃ below, ctx.config.depth - parent.depth = below + 1 :=
    ⟨ctx.config.depth - (parent.depth + 1), by omega⟩
  have rest : ctx.config.depth - (parent.depth + 1) = below := by omega
  obtain ⟨more, size⟩ : ∃ more, ctx.keys.length = parent.children.length + 1 + more :=
    ⟨ctx.keys.length - (parent.children.length + 1), by omega⟩
  have open' : ctx.keys.length - (parent.children.length + 1) = more := by omega
  have opened : ctx.keys.length - parent.children.length = more + 1 := by omega
  simp only [slots, depth, childless, left, rest, List.length_cons, List.length_nil, Nat.sub_zero, open', opened,
    Context.subtree]
  rw [Nat.add_mul more, Nat.one_mul]
  omega

theorem child (within : Within ctx st) (inst : ℕ) {key : CallKey} (known : key ∈ ctx.keys) :
    Within ctx (st.child ctx inst key).1 ∧ ∀ c, (st.child ctx inst key).2 = some c → c < ctx.limit := by
  unfold Eval.child
  cases at? : st.instances[inst]? with
  | none => exact ⟨within, by simp⟩
  | some parent =>
    have parentIn := within.instances parent (List.mem_of_getElem? at?)
    simp only
    cases called : parent.children.lookup key with
    | some c =>
      refine ⟨within, fun c' same => ?_⟩
      obtain rfl := Option.some.inj same
      obtain ⟨front, back, split, -⟩ := List.lookup_eq_some_iff.mp called
      exact (parentIn.children (key, c) (split ▸ List.mem_append_cons_self)).2
    | none =>
      simp only
      split_ifs with deep
      · exact ⟨within.report ⟨rfl, rfl, rfl⟩, by simp⟩
      · obtain ⟨inside, here⟩ := List.getElem?_eq_some_iff.mp at?
        have fresh : key ∉ parent.children.map Prod.fst := by
          intro member
          obtain ⟨⟨k, c⟩, here, rfl⟩ := List.mem_map.mp member
          simpa using List.lookup_eq_none_iff.mp called (k, c) here
        have distinct : (key :: parent.children.map Prod.fst).Nodup := List.nodup_cons.mpr ⟨fresh, parentIn.distinct⟩
        have room : parent.children.length < ctx.keys.length := by
          have sub : key :: parent.children.map Prod.fst ⊆ ctx.keys := by
            refine List.cons_subset.mpr ⟨known, fun k member => ?_⟩
            obtain ⟨child, here, rfl⟩ := List.mem_map.mp member
            exact (parentIn.children child here).1
          simpa [Nat.succ_le_iff] using (List.subperm_of_subset distinct sub).length_le
        have one := slots_child key st.instances.length ⟨key.2.2.1, key.2.2.2, parent.depth + 1, []⟩ room
          (not_lt.mp deep) rfl rfl
        obtain ⟨front, back, split, -, put⟩ : ∃ front back, st.instances = front ++ st.instances[inst] :: back ∧
            front.length = inst ∧
            st.instances.set inst { parent with children := (key, st.instances.length) :: parent.children } =
              front ++ { parent with children := (key, st.instances.length) :: parent.children } :: back :=
          List.exists_of_set inside
        rw [here] at split
        have total := within.bounded
        have length : st.instances.length = front.length + back.length + 1 := by
          conv_lhs => rw [split]
          simp only [List.length_append, List.length_cons]
          omega
        have sum : (st.instances.map (slots ctx)).sum =
            (front.map (slots ctx)).sum + slots ctx parent + (back.map (slots ctx)).sum := by
          conv_lhs => rw [split]
          simp only [List.map_append, List.map_cons, List.sum_append, List.sum_cons]
          omega
        have limit : st.instances.length < ctx.limit := by omega
        refine ⟨⟨?_, ?_, within.cells, within.distinct, within.observed⟩, fun c same => ?_⟩
        · intro i member
          simp only [List.mem_append, List.mem_singleton] at member
          rcases member with old | rfl
          · rcases List.mem_or_eq_of_mem_set old with old | rfl
            · exact within.instances i old
            · refine ⟨parentIn.depth, distinct, fun child here => ?_⟩
              rcases List.mem_cons.mp here with rfl | here
              · exact ⟨known, limit⟩
              · exact parentIn.children child here
          · exact ⟨not_lt.mp deep, .nil, by simp⟩
        · simp only [put, List.length_append, List.length_cons, List.map_append, List.map_cons, List.sum_append,
            List.sum_cons, List.map_nil, List.sum_nil, List.length_nil]
          omega
        · exact Option.some.inj same ▸ limit

/-- A call of the programs, at its position. -/
structure CallIn (ctx : Context O) (block statement info : ℕ) (rets : List VariableRef) (args : List (Exp O)) : Prop where
  position : (block, statement) ∈ ctx.positions
  span : ∃ style rets args, .callAssign info style rets args ∈ ctx.statements
  results : ∀ r ∈ rets, ctx.RefIn r
  operands : ∀ e ∈ args, e ∈ ctx.operands

theorem byName_mem {name : String} {callee : ℕ × ℕ} (found : ctx.byName name = some callee) :
    ∃ body ∈ ctx.bodies, body.1 = callee := by
  obtain ⟨body, first, rfl⟩ := Option.map_eq_some_iff.mp found
  exact ⟨body, List.mem_of_find?_eq_some first, rfl⟩

theorem mem_returns {f : FunctionData O} {ret : List (Exp O)} (member : ret ∈ returns f) :
    ∃ block ∈ f.blocks, block.terminator = some (.ret ret) := by
  obtain ⟨block, blockIn, returned⟩ := List.mem_filterMap.mp member
  refine ⟨block, blockIn, ?_⟩
  split at returned
  · next values last =>
    obtain rfl := Option.some.inj returned
    exact last
  all_goals simp at returned

theorem instantiate (within : Within ctx st) {inst block statement info : ℕ} {callee : ℕ × ℕ} {rets : List VariableRef}
    {args : List (Exp O)} (below : inst < ctx.limit) (known : CallIn ctx block statement info rets args)
    (body : ∃ body ∈ ctx.bodies, body.1 = callee) :
    Within ctx (st.instantiate ctx inst block statement callee rets args) := by
  obtain ⟨body, member, rfl⟩ := body
  have key : (block, statement, body.1.1, body.1.2) ∈ ctx.keys :=
    List.mem_flatMap.mpr ⟨(block, statement), known.position, List.mem_map.mpr ⟨body, member, rfl⟩⟩
  have made := within.child inst key
  unfold Eval.instantiate
  split
  · next st' c f found at? =>
    rw [found] at made
    have inside := made.2 c rfl
    have functionIn := ctx.functionAt_mem at?
    have operands : ∀ e ∈ f.operands, e ∈ ctx.operands := fun e here =>
      List.mem_append_left _ (List.mem_append_left _ (List.mem_flatMap.mpr ⟨f, functionIn, here⟩))
    refine (made.1.foldl fun st₁ within₁ arg member => ?_).foldl fun st₁ within₁ ret member =>
      within₁.foldl fun st₂ within₂ r here => ?_
    · have argIn : arg.1 ∈ args := List.mem_of_mem_take (List.fst_mem_of_mem_zipIdx member)
      have formal : ctx.RefIn (.new (.paramVar arg.2)) := by
        refine ctx.refIn (e := .path (.ofRef (.new (.paramVar arg.2)))) (operands _ ?_) rfl
        refine List.mem_append_left _ (List.mem_map.mpr ⟨arg.2, List.mem_range.mpr ?_, rfl⟩)
        have short := List.snd_lt_of_mem_zipIdx member
        rw [List.length_take] at short
        omega
      exact within₁.assignExp (varIn _ inside formal) .nil below (known.operands _ argIn)
    · obtain ⟨block, blockIn, last⟩ := mem_returns member
      obtain ⟨resultIn, valueIn⟩ := List.of_mem_zip here
      refine within₂.assignExp (varIn _ below (known.results _ resultIn)) .nil inside (operands _ ?_)
      refine List.mem_append_right _ (List.mem_flatMap.mpr ⟨block, blockIn, List.mem_append_right _ ?_⟩)
      rw [last]
      exact valueIn
  · next st' c f found _ =>
    rw [found] at made
    exact made.1

theorem callTarget (within : Within ctx st) {inst block statement info : ℕ} {rets : List VariableRef}
    {args : List (Exp O)} {name : String} (below : inst < ctx.limit)
    (known : CallIn ctx block statement info rets args) :
    Within ctx (callTarget ctx inst block statement info rets args st name) := by
  unfold Eval.callTarget
  split_ifs with asSource asSink
  · exact within.source below asSource known.results known.operands
  · exact within.sink asSink known.operands known.span
  · split
    · next callee found => exact within.instantiate below known (byName_mem found)
    · exact within.report ⟨rfl, rfl, rfl⟩

theorem call (within : Within ctx st) {inst block statement info : ℕ} {style : CallStyle O} {rets : List VariableRef}
    {args : List (Exp O)} (below : inst < ctx.limit) (known : CallIn ctx block statement info rets args) :
    Within ctx (st.call ctx inst block statement info style rets args) := by
  cases style with
  | directCall names => exact within.foldl fun st within name _ => within.callTarget below known
  | funcPtrCall callee signature =>
    refine Within.foldl ?_ fun st within name _ => within.callTarget below known
    split_ifs
    · exact within.report ⟨rfl, rfl, rfl⟩
    · exact within
  | unknown | javaCall | luaCall | cilCall => exact within.report ⟨rfl, rfl, rfl⟩

theorem execute (within : Within ctx st) {inst block statement : ℕ} {stmt : Statement O} (below : inst < ctx.limit)
    (position : (block, statement) ∈ ctx.positions) (here : stmt ∈ ctx.statements)
    (operands : ∀ e ∈ stmt.operands, e ∈ ctx.operands) :
    Within ctx (execute ctx inst block statement st stmt) := by
  have refIn : ∀ v, .path (.ofRef v) ∈ stmt.operands → ctx.RefIn v := fun v named => ctx.refIn (operands _ named) rfl
  cases stmt with
  | assign dest sources =>
    have dest' := operands _ (.head _)
    exact within.foldl fun st' within' e member => within'.assignExp (varIn _ below (ctx.refIn dest' rfl))
      (ctx.pathIn dest' rfl) below (operands e (.tail _ member))
  | phi dest sources =>
    refine within.foldl fun st' within' operand member => within'.assign (varIn _ below (refIn dest ?_))
      (varIn _ below (refIn operand.2 ?_)) .nil .nil
    · exact List.mem_map.mpr ⟨dest, .head _, rfl⟩
    · exact List.mem_map.mpr ⟨operand.2, .tail _ (List.mem_map_of_mem member), rfl⟩
  | callAssign info style rets args =>
    have part : ∀ e ∈ rets.map (fun v => .path (.ofRef v)) ++ args, e ∈ ctx.operands := by
      intro e member
      cases style with
      | funcPtrCall callee signature => exact operands e (.tail _ member)
      | unknown | directCall | javaCall | luaCall | cilCall => exact operands e member
    refine within.call below ⟨position, ⟨style, rets, args, here⟩, fun r member => ?_, fun e member => ?_⟩
    · exact ctx.refIn (part _ (List.mem_append_left _ (List.mem_map.mpr ⟨r, member, rfl⟩))) rfl
    · exact part e (List.mem_append_right _ member)
  | nop => exact within

/-- A pass over an instance stays within what the evaluation can find. -/
theorem step (within : Within ctx st) {inst : ℕ} (below : inst < ctx.limit) : Within ctx (st.step ctx inst) := by
  unfold Eval.step
  split
  · exact within
  · next f at? =>
    obtain ⟨i, -, found⟩ := Option.bind_eq_some_iff.mp at?
    have functionIn := ctx.functionAt_mem found
    refine ((within.foldl fun st₁ within₁ seed member => ?_).foldl fun st₁ within₁ obs member => ?_).foldl
      fun st₁ within₁ block member => within₁.foldl fun st₂ within₂ stmt here => ?_
    · have seedIn := List.mem_of_mem_filter member
      have known : .path seed.path ∈ ctx.operands :=
        List.mem_append_left _ (List.mem_append_right _ (List.mem_map.mpr ⟨seed, seedIn, rfl⟩))
      have labelIn : .taint seed.label ∈ ctx.labels := List.mem_append_right _ (List.mem_map.mpr ⟨seed, seedIn, rfl⟩)
      have pathIn := ctx.pathIn known rfl
      have varIn := varIn st₁ below (ctx.refIn known rfl)
      exact (within₁.add varIn pathIn labelIn).add varIn (pathIn.concat .value) labelIn
    · have obsIn := List.mem_of_mem_filter member
      exact within₁.observe (List.mem_append_left _ (List.mem_map.mpr ⟨obs, obsIn, rfl⟩))
    · have blockIn : block.1 ∈ f.blocks := List.fst_mem_of_mem_zipIdx member
      have stmtIn : stmt.1 ∈ block.1.statements := List.fst_mem_of_mem_zipIdx here
      refine within₂.execute below ?_ ?_ fun e operand => ?_
      · exact List.mem_flatMap.mpr ⟨f, functionIn, List.mem_flatMap.mpr ⟨block, member,
          List.mem_map.mpr ⟨stmt, here, rfl⟩⟩⟩
      · exact List.mem_flatMap.mpr ⟨f, functionIn, List.mem_flatMap.mpr ⟨block.1, blockIn, stmtIn⟩⟩
      · refine List.mem_append_left _ (List.mem_append_left _ (List.mem_flatMap.mpr ⟨f, functionIn, ?_⟩))
        exact List.mem_append_right _ (List.mem_flatMap.mpr ⟨block.1, blockIn,
          List.mem_append_left _ (List.mem_flatMap.mpr ⟨stmt.1, stmtIn, operand⟩)⟩)

end Within

end Eval

end Ctadl.Semantics
