import Ctadl.Semantics.Closed
import Ctadl.Semantics.Universe

/-! # Interpretations of an unfolding

The meaning of programs without an order of evaluation: instances with what they called, a labeling and
a set of observations, closed under the rules. Every state of an evaluation lies below every such
interpretation, and the outcome of an evaluation is one. So the evaluator computes the least one, and to
show that a program keeps the flows of another it is enough to read the outcome of the one as an
interpretation of the other.
-/

set_option linter.unusedSectionVars false

namespace Ctadl.Semantics

open Cir

variable {O : Type}

/-- Instances, what they called, their labels and what is observed. -/
structure Interpretation (O : Type := Int64) where
  frame : ℕ → Option Frame
  child : ℕ → CallKey → Option ℕ
  labels : Labeling O
  observed : Set Observation

/-- The label a call of a source places. -/
def sourceLabel (name : String) (args : List (Exp O)) : Label :=
  match args.head? with
  | some (.str text) => .taint text
  | _ => .taint name

/-- The site a call of a sink observes at. -/
def sinkSite (info : ℕ) (name : String) (args : List (Exp O)) : String :=
  let portLabel := match args.tail with
    | .str text :: _ => text
    | _ => "_"
  name ++ "(" ++ portLabel ++ ")@" ++ toString info

/-- A label is at a path that can hold one. -/
def Placed (config : Config) (labels : Labeling O) (var : Var) (p : List (PathSegment O)) (label : Label)
    (scope : Scope) : Prop :=
  classify p = .location → p.length ≤ config.pathBound → labels var p label scope

section Rules

variable [DecidableEq O] [Add O] [Neg O] [OfNat O 0]

/-- A labeling that the assignment `dst.d = src.s` adds nothing to. -/
def AssignClosed (config : Config) (labels : Labeling O) (dst : Var) (d : List (PathSegment O)) (src : Var)
    (s : List (PathSegment O)) (store : Bool) : Prop :=
  ¬ (classify d = .void ∨ classify s = .void) →
    (∀ p l q, labels src p l .fixed → q ∈ forwardTargets d s p →
      Placed config labels dst q l (if store then .all else .fixed)) ∧
    ∀ p l q, labels dst p l .all → backwardTarget d s p = some q → Placed config labels src q l .all

namespace Interpretation

variable (ctx : Context O) (I : Interpretation O)

/-- The variable a reference names in an instance. -/
def var (n : ℕ) (v : VariableRef) : Var :=
  match v.var with
  | .globalVar idx =>
    let name := (((I.frame n).bind fun fr => ctx.programs[fr.program]?).bind
      fun program => program.globals[idx]?).getD ""
    (.globalName name, .new (.globalVar 0))
  | .localVar _ | .paramVar _ => (.inst n, v)

/-- The function of an instance. -/
def functionOf (n : ℕ) : Option (FunctionData O) := (I.frame n).bind fun fr => ctx.functionAt fr.program fr.function

/-- `dst.d = e`, with `e` read in an instance, adds nothing. -/
def ExpClosed (dst : Var) (d : List (PathSegment O)) (n : ℕ) : Exp O → Prop
  | .path ap => AssignClosed ctx.config I.labels dst d (I.var ctx n ap.base) ap.segments (!d.isEmpty)
  | .value ap => AssignClosed ctx.config I.labels dst (concat d [.value]) (I.var ctx n ap.base) ap.segments true
  | .objectRef (.functionPtr f) => Placed ctx.config I.labels dst d (.target f) (if !d.isEmpty then .all else .fixed)
  | .objectRef object => Placed ctx.config I.labels dst d (.cls object) (if !d.isEmpty then .all else .fixed)
  | .str text => Placed ctx.config I.labels dst d (.str text) (if !d.isEmpty then .all else .fixed)
  | .int _ | .bytes _ => True

/-- A port or a callee at an access path sees a label: at the path or at its `#value`. -/
def Seen (n : ℕ) (ap : AccessPath O) (label : Label) : Prop :=
  I.labels (I.var ctx n ap.base) (locationOf ap.segments) label .fixed ∨
    I.labels (I.var ctx n ap.base) (locationOf (concat ap.segments [.value])) label .fixed

/-- Every taint label seen at an access path is observed. -/
def Observes (n : ℕ) (ap : AccessPath O) (site : String) : Prop :=
  ∀ name, I.Seen ctx n ap (.taint name) →
    ⟨((I.functionOf ctx n).map FunctionData.name).getD "", site, name⟩ ∈ I.observed

/-- The copies of a call into the formals of a callee and of its returns. -/
def Passed (n c : ℕ) (f : FunctionData O) (rets : List VariableRef) (args : List (Exp O)) : Prop :=
  (∀ arg ∈ (args.take f.params.length).zipIdx,
    I.ExpClosed ctx (I.var ctx c (.new (.paramVar arg.2))) [] n arg.1) ∧
  ∀ ret ∈ Eval.returns f, ∀ r ∈ rets.zip ret, I.ExpClosed ctx (I.var ctx n r.1) [] c r.2

/-- The call of one name adds nothing. -/
def CallClosed (n block statement info : ℕ) (rets : List VariableRef) (args : List (Exp O)) (name : String) : Prop :=
  if name ∈ ctx.ports.sources then
    ∀ r ∈ rets.head?, Placed ctx.config I.labels (I.var ctx n r) [] (sourceLabel name args) .all ∧
      Placed ctx.config I.labels (I.var ctx n r) [.value] (sourceLabel name args) .all
  else if name ∈ ctx.ports.sinks then
    ∀ ap ∈ args.head?.bind Exp.accessPath, I.Observes ctx n ap (sinkSite info name args)
  else
    ∀ callee ∈ ctx.byName name, ∀ fr ∈ I.frame n, fr.depth + 1 ≤ ctx.config.depth →
      ∃ c, I.child n (block, statement, callee.1, callee.2) = some c ∧
        I.frame c = some ⟨callee.1, callee.2, fr.depth + 1⟩ ∧
        ∀ f ∈ ctx.functionAt callee.1 callee.2, I.Passed ctx n c f rets args

/-- A statement of an instance adds nothing. -/
def StatementClosed (n block statement : ℕ) : Statement O → Prop
  | .assign dest sources => ∀ e ∈ sources, I.ExpClosed ctx (I.var ctx n dest.base) dest.segments n e
  | .phi dest operands => ∀ operand ∈ operands,
      AssignClosed ctx.config I.labels (I.var ctx n dest) [] (I.var ctx n operand.2) [] false
  | .callAssign info (.directCall names) rets args =>
      ∀ name ∈ names, I.CallClosed ctx n block statement info rets args name
  | .callAssign info (.funcPtrCall callee _) rets args =>
      ∀ name, I.Seen ctx n callee (.target name) → I.CallClosed ctx n block statement info rets args name
  | .callAssign _ _ _ _ | .nop => True

/-- An interpretation that the rules add nothing to. -/
structure Models : Prop where
  weaken : ∀ {v p l}, I.labels v p l .all → I.labels v p l .fixed
  roots : ∀ body ∈ ctx.bodies, ∃ n, I.frame n = some ⟨body.1.1, body.1.2, 0⟩
  seeds : ∀ {n f}, I.functionOf ctx n = some f → ∀ seed ∈ ctx.ports.seeds, seed.function = f.name →
    Placed ctx.config I.labels (I.var ctx n seed.path.base) seed.path.segments (.taint seed.label) .all ∧
      Placed ctx.config I.labels (I.var ctx n seed.path.base) (concat seed.path.segments [.value])
        (.taint seed.label) .all
  observers : ∀ {n f}, I.functionOf ctx n = some f → ∀ obs ∈ ctx.ports.observers, obs.function = f.name →
    I.Observes ctx n obs.path obs.name
  statements : ∀ {n f}, I.functionOf ctx n = some f → ∀ {b block}, f.blocks[b]? = some block →
    ∀ {i stmt}, block.statements[i]? = some stmt → I.StatementClosed ctx n b i stmt

end Interpretation

end Rules

/-- The variable of the image of an instance. -/
def Var.map (φ : ℕ → ℕ) : Var → Var
  | (.inst i, v) => (.inst (φ i), v)
  | (.globalName name, v) => (.globalName name, v)

/-- The variable belongs to one of the first so many instances, or to all. -/
def Var.Owned (size : ℕ) (var : Var) : Prop := ∀ i, var.1 = .inst i → i < size

namespace Eval

variable [DecidableEq O] [Add O] [Neg O] [OfNat O 0] {ctx : Context O} {I : Interpretation O} {φ : ℕ → ℕ} {size : ℕ}
  {st : Eval O}

/-- A state of so many instances read into an interpretation, its instances by `φ`. -/
structure Below (ctx : Context O) (I : Interpretation O) (φ : ℕ → ℕ) (size : ℕ) (st : Eval O) : Prop where
  length : st.instances.length = size
  frames : ∀ {i inst}, st.instances[i]? = some inst → I.frame (φ i) = some inst.frame
  children : ∀ {i inst}, st.instances[i]? = some inst → ∀ {key c}, inst.children.lookup key = some c →
    c < size ∧ I.child (φ i) key = some (φ c) ∧ inst.depth + 1 ≤ ctx.config.depth
  owned : ∀ e ∈ st.cells, Var.Owned size e.var
  cells : ∀ e ∈ st.cells, I.labels (e.var.map φ) e.path e.label e.scope
  observed : ∀ o ∈ st.observed, o ∈ I.observed

namespace Below

/-- Images of variables do not see an instance that is yet to come. -/
private theorem map_update {var : Var} {φ : ℕ → ℕ} {size c : ℕ} (owned : var.Owned size) :
    var.map (Function.update φ size c) = var.map φ := by
  obtain ⟨owner, v⟩ := var
  cases owner with
  | inst i =>
    have less : i < size := owned i rfl
    simp only [Var.map]
    rw [Function.update_of_ne less.ne]
  | globalName name => rfl

theorem report {st' : Eval O} (below : Below ctx I φ size st) (same : Same st st') : Below ctx I φ size st' where
  length := same.instances ▸ below.length
  frames here := below.frames (same.instances ▸ here)
  children here := below.children (same.instances ▸ here)
  owned := same.cells ▸ below.owned
  cells := same.cells ▸ below.cells
  observed := same.observed ▸ below.observed

theorem foldl {α : Type} {f : Eval O → α → Eval O} {items : List α} (below : Below ctx I φ size st)
    (each : ∀ st, Below ctx I φ size st → ∀ x ∈ items, Below ctx I φ size (f st x)) : Below ctx I φ size (items.foldl f st) := by
  induction items generalizing st with
  | nil => exact below
  | cons x rest ih => exact ih (each st below x (.head _)) fun st below y later => each st below y (.tail _ later)

theorem put (below : Below ctx I φ size st) {var : Var} {p : List (PathSegment O)} {label : Label} {scope : Scope}
    (owned : var.Owned size) (there : I.labels (var.map φ) p label scope) :
    Below ctx I φ size (st.put var p label scope) := by
  unfold Eval.put
  cases found : st.scopeAt var p label with
  | none =>
    refine ⟨below.length, below.frames, below.children, ?_, ?_, below.observed⟩
    · intro e member
      rcases List.mem_cons.mp member with rfl | old
      · exact owned
      · exact below.owned e old
    · intro e member
      rcases List.mem_cons.mp member with rfl | old
      · exact there
      · exact below.cells e old
  | some old =>
    simp only
    split_ifs
    · exact below
    · refine ⟨below.length, below.frames, below.children, ?_, ?_, below.observed⟩
      · intro e member
        obtain ⟨before, here, rfl⟩ := List.mem_map.mp member
        split_ifs <;> exact below.owned before here
      · intro e member
        obtain ⟨before, here, rfl⟩ := List.mem_map.mp member
        split_ifs with hit
        · obtain ⟨rfl, rfl, rfl⟩ := hit
          exact there
        · exact below.cells before here

theorem add (below : Below ctx I φ size st) {var : Var} {p : List (PathSegment O)} {label : Label} {scope : Scope}
    (owned : var.Owned size) (there : Placed ctx.config I.labels (var.map φ) p label scope) :
    Below ctx I φ size (st.add ctx.config var p label scope) := by
  unfold Eval.add
  split_ifs with location long
  · exact below
  · exact below.report ⟨rfl, rfl, rfl⟩
  · exact below.put owned (there (not_not.mp location) (not_lt.mp long))

variable (models : I.Models ctx)

include models in
theorem assign (below : Below ctx I φ size st) {dst src : Var} {d s : List (PathSegment O)} {store : Bool}
    (dstOwned : dst.Owned size) (srcOwned : src.Owned size)
    (closed : AssignClosed ctx.config I.labels (dst.map φ) d (src.map φ) s store) :
    Below ctx I φ size (st.assign ctx.config dst d src s store) := by
  have weaker : ∀ {v p l sc}, I.labels v p l sc → I.labels v p l .fixed := by
    intro v p l sc held
    cases sc with
    | fixed => exact held
    | all => exact models.weaken held
  unfold Eval.assign
  by_cases void : classify d = .void ∨ classify s = .void
  · rw [if_pos void]
    exact below
  · rw [if_neg void]
    obtain ⟨forward, backward⟩ := closed void
    have first : Below ctx I φ size (st.forward ctx.config dst d src s (if store then .all else .fixed)) := by
      refine below.foldl fun st' below' e member => below'.foldl fun st'' below'' target goes => ?_
      obtain ⟨here, owner⟩ := List.mem_filter.mp member
      have held := weaker (below.cells e here)
      rw [of_decide_eq_true owner] at held
      exact below''.add dstOwned (forward e.path e.label target held goes)
    refine first.foldl fun st' below' e member => ?_
    obtain ⟨here, owner⟩ := List.mem_filter.mp member
    obtain ⟨rfl, all⟩ := of_decide_eq_true owner
    have held := first.cells e here
    cases goes : backwardTarget d s e.path with
    | none => exact below'
    | some target => exact below'.add srcOwned (backward e.path e.label target (all ▸ held) goes)

variable {inst : ℕ} (inside : inst < size)

include inside in
theorem owned_var (ctx : Context O) (st : Eval O) (v : VariableRef) : (st.var ctx inst v).Owned size := by
  intro i same
  unfold Eval.var at same
  split at same
  · simp at same
  all_goals exact Owner.inst.inj same ▸ inside

include inside in
theorem map_var (below : Below ctx I φ size st) (v : VariableRef) : (st.var ctx inst v).map φ = I.var ctx (φ inst) v := by
  have here := List.getElem?_eq_getElem (below.length ▸ inside)
  have frame := below.frames here
  unfold Eval.var Interpretation.var
  cases v.var with
  | globalVar idx =>
    simp only [here, frame]
    rfl
  | localVar | paramVar => rfl

include models inside in
theorem assignExp (below : Below ctx I φ size st) {dst : Var} {d : List (PathSegment O)} {e : Exp O}
    (dstOwned : dst.Owned size) (closed : I.ExpClosed ctx (dst.map φ) d (φ inst) e) :
    Below ctx I φ size (st.assignExp ctx dst d inst e) := by
  unfold Eval.assignExp
  rcases e with ap | ap | ⟨_ | _ | _ | _⟩ | text | number | data
  · refine below.assign models dstOwned (owned_var inside ctx st ap.base) ?_
    rw [below.map_var inside]
    exact closed
  · refine below.assign models dstOwned (owned_var inside ctx st ap.base) ?_
    rw [below.map_var inside]
    exact closed
  · exact below.add dstOwned closed
  · exact below.add dstOwned closed
  · exact below.add dstOwned closed
  · exact below.add dstOwned closed
  · exact below.add dstOwned closed
  all_goals exact below

include inside in
theorem functionName_eq (below : Below ctx I φ size st) :
    st.functionName ctx inst = ((I.functionOf ctx (φ inst)).map FunctionData.name).getD "" := by
  have here := List.getElem?_eq_getElem (below.length ▸ inside)
  simp only [Eval.functionName, Interpretation.functionOf, here, below.frames here]
  rfl

include models inside in
/-- What a read sees is seen in the interpretation. -/
theorem seen (below : Below ctx I φ size st) {ap : AccessPath O} {label : Label}
    (member : label ∈ st.read (st.var ctx inst ap.base) ap.segments ++
      st.read (st.var ctx inst ap.base) (concat ap.segments [.value])) : I.Seen ctx (φ inst) ap label := by
  have held : ∀ p, label ∈ st.read (st.var ctx inst ap.base) p →
      I.labels (I.var ctx (φ inst) ap.base) (locationOf p) label .fixed := by
    intro p read
    obtain ⟨e, picked, rfl⟩ := List.mem_map.mp read
    obtain ⟨here, owner⟩ := List.mem_filter.mp picked
    obtain ⟨var, path⟩ := of_decide_eq_true owner
    have there := below.cells e here
    rw [var, path, below.map_var inside] at there
    cases scope : e.scope with
    | fixed => exact scope ▸ there
    | all => exact models.weaken (scope ▸ there)
  exact (List.mem_append.mp member).imp (held _) (held _)

include models inside in
theorem observe (below : Below ctx I φ size st) {ap : AccessPath O} {site : String}
    (observes : I.Observes ctx (φ inst) ap site) : Below ctx I φ size (st.observe ctx inst ap site) := by
  unfold Eval.observe
  refine below.foldl fun st' below' label member => ?_
  cases label with
  | taint name =>
    simp only
    split_ifs
    · exact below'
    · refine ⟨below'.length, below'.frames, below'.children, below'.owned, below'.cells, fun o member' => ?_⟩
      rcases Finset.mem_insert.mp member' with rfl | old
      · rw [below'.functionName_eq inside]
        exact observes name (below.seen models inside member)
      · exact below'.observed o old
  | target | cls | str => exact below'

include inside in
theorem source (below : Below ctx I φ size st) {name : String} {rets : List VariableRef} {args : List (Exp O)}
    (placed : ∀ r ∈ rets.head?, Placed ctx.config I.labels (I.var ctx (φ inst) r) [] (sourceLabel name args) .all ∧
      Placed ctx.config I.labels (I.var ctx (φ inst) r) [.value] (sourceLabel name args) .all) :
    Below ctx I φ size (st.source ctx inst name rets args) := by
  unfold Eval.source
  cases first : rets.head? with
  | none => exact below
  | some r =>
    obtain ⟨bare, valued⟩ := placed r first
    rw [← below.map_var inside] at bare valued
    exact (below.add (owned_var inside ctx st r) bare).add (owned_var inside ctx st r) valued

include models inside in
theorem sink (below : Below ctx I φ size st) {info : ℕ} {name : String} {args : List (Exp O)}
    (observes : ∀ ap ∈ args.head?.bind Exp.accessPath, I.Observes ctx (φ inst) ap (sinkSite info name args)) :
    Below ctx I φ size (st.sink ctx inst info name args) := by
  unfold Eval.sink
  cases first : args.head?.bind Exp.accessPath with
  | none => exact below
  | some ap => exact below.observe models inside (observes ap first)

/-- A call finds its child in the interpretation, where the child has the frame of the callee. -/
theorem child (below : Below ctx I φ size st) (inside : inst < size) (key : CallKey)
    (called : ∀ fr ∈ I.frame (φ inst), fr.depth + 1 ≤ ctx.config.depth →
      ∃ c, I.child (φ inst) key = some c ∧ I.frame c = some ⟨key.2.2.1, key.2.2.2, fr.depth + 1⟩) :
    ∃ ψ grown, ψ inst = φ inst ∧ inst < grown ∧ Below ctx I ψ grown (st.child ctx inst key).1 ∧
      ∀ c, (st.child ctx inst key).2 = some c → c < grown ∧ I.child (φ inst) key = some (ψ c) ∧
        ∃ fr ∈ I.frame (φ inst), fr.depth + 1 ≤ ctx.config.depth := by
  obtain ⟨parent, here⟩ : ∃ parent, st.instances[inst]? = some parent :=
    ⟨_, List.getElem?_eq_getElem (below.length ▸ inside)⟩
  have frame := below.frames here
  unfold Eval.child
  rw [here]
  simp only
  cases known : parent.children.lookup key with
  | some c =>
    obtain ⟨small, child, shallow⟩ := below.children here known
    refine ⟨φ, size, rfl, inside, below, fun c' same => ?_⟩
    obtain rfl := Option.some.inj same
    exact ⟨small, child, parent.frame, frame, shallow⟩
  | none =>
    simp only
    split_ifs with deep
    · exact ⟨φ, size, rfl, inside, below.report ⟨rfl, rfl, rfl⟩, by simp⟩
    · obtain ⟨c, child, childFrame⟩ := called _ frame (not_lt.mp deep)
      have old : ∀ {j}, j < size → Function.update φ size c j = φ j := fun less => Function.update_of_ne less.ne _ _
      refine ⟨Function.update φ size c, size + 1, old inside, by omega, ?_, fun c' same => ?_⟩
      · refine ⟨by simp [below.length], fun {i inst'} at? => ?_, fun {i inst'} at? {key' c'} known' => ?_, ?_, ?_,
          below.observed⟩
        · rcases getElem?_called here key below.length at? with ⟨rfl, rfl⟩ | ⟨less, before, at?, same, -⟩
          · rw [Function.update_self, childFrame]
            rfl
          · rw [old less, below.frames at?, same]
        · rcases getElem?_called here key below.length at? with ⟨rfl, rfl⟩ | ⟨less, before, was, same, grew⟩
          · simp at known'
          · rw [old less]
            have depth : inst'.depth = before.depth := congrArg Frame.depth same.symm
            rcases grew key' c' known' with ⟨rfl, rfl, rfl⟩ | known'
            · obtain rfl := Option.some.inj (here.symm.trans was)
              refine ⟨by omega, ?_, depth ▸ not_lt.mp deep⟩
              rw [Function.update_self]
              exact child
            · obtain ⟨small, child', shallow⟩ := below.children was known'
              exact ⟨by omega, by rw [old small]; exact child', depth ▸ shallow⟩
        · exact fun e member i owner => (below.owned e member i owner).trans (by omega)
        · intro e member
          rw [map_update (below.owned e member)]
          exact below.cells e member
      · obtain rfl := Option.some.inj same
        rw [below.length, Function.update_self]
        exact ⟨by omega, child, parent.frame, frame, not_lt.mp deep⟩

end Below

/-- A state below an interpretation, with the image of one instance. -/
def Sim (ctx : Context O) (I : Interpretation O) (inst n : ℕ) (st : Eval O) : Prop :=
  ∃ φ size, φ inst = n ∧ inst < size ∧ Below ctx I φ size st

namespace Sim

variable {inst n : ℕ} (models : I.Models ctx)

theorem foldl {α : Type} {f : Eval O → α → Eval O} {items : List α} (sim : Sim ctx I inst n st)
    (each : ∀ st, Sim ctx I inst n st → ∀ x ∈ items, Sim ctx I inst n (f st x)) :
    Sim ctx I inst n (items.foldl f st) := by
  induction items generalizing st with
  | nil => exact sim
  | cons x rest ih => exact ih (each st sim x (.head _)) fun st sim y later => each st sim y (.tail _ later)

theorem report {st' : Eval O} (sim : Sim ctx I inst n st) (same : Same st st') : Sim ctx I inst n st' := by
  obtain ⟨φ, size, rfl, inside, below⟩ := sim
  exact ⟨φ, size, rfl, inside, below.report same⟩

include models in
theorem instantiate (sim : Sim ctx I inst n st) {block statement : ℕ} {callee : ℕ × ℕ} {rets : List VariableRef}
    {args : List (Exp O)}
    (called : ∀ fr ∈ I.frame n, fr.depth + 1 ≤ ctx.config.depth →
      ∃ c, I.child n (block, statement, callee.1, callee.2) = some c ∧
        I.frame c = some ⟨callee.1, callee.2, fr.depth + 1⟩ ∧
        ∀ f ∈ ctx.functionAt callee.1 callee.2, I.Passed ctx n c f rets args) :
    Sim ctx I inst n (st.instantiate ctx inst block statement callee rets args) := by
  obtain ⟨φ, size, rfl, inside, below⟩ := sim
  obtain ⟨ψ, grown, image, inside', made, result⟩ := below.child inside
    (block, statement, callee.1, callee.2) fun fr frame shallow => by
      obtain ⟨c, child, childFrame, -⟩ := called fr frame shallow
      exact ⟨c, child, childFrame⟩
  refine ⟨ψ, grown, image, inside', ?_⟩
  unfold Eval.instantiate
  split
  · next st' c f found at? =>
    rw [found] at made result
    obtain ⟨small, child, fr, frame, shallow⟩ := result c rfl
    obtain ⟨c', child', -, passed⟩ := called fr frame shallow
    obtain rfl : c' = ψ c := Option.some.inj (child'.symm.trans child)
    obtain ⟨formals, returned⟩ := passed f at?
    refine (made.foldl fun st₁ below₁ arg member => ?_).foldl fun st₁ below₁ ret member =>
      below₁.foldl fun st₂ below₂ r here => ?_
    · refine below₁.assignExp models inside' (Below.owned_var small ctx st₁ _) ?_
      rw [below₁.map_var small, image]
      exact formals arg member
    · refine below₂.assignExp models small (Below.owned_var inside' ctx st₂ _) ?_
      rw [below₂.map_var inside', image]
      exact returned ret member r here
  · next st' c f found _ =>
    rw [found] at made
    exact made

include models in
theorem callTarget (sim : Sim ctx I inst n st) {block statement info : ℕ} {rets : List VariableRef}
    {args : List (Exp O)} {name : String} (closed : I.CallClosed ctx n block statement info rets args name) :
    Sim ctx I inst n (callTarget ctx inst block statement info rets args st name) := by
  unfold Eval.callTarget
  unfold Interpretation.CallClosed at closed
  split_ifs at closed ⊢ with asSource asSink
  · obtain ⟨φ, size, rfl, inside, below⟩ := sim
    exact ⟨φ, size, rfl, inside, below.source inside closed⟩
  · obtain ⟨φ, size, rfl, inside, below⟩ := sim
    exact ⟨φ, size, rfl, inside, below.sink models inside closed⟩
  · split
    · next callee found => exact sim.instantiate models (closed callee found)
    · exact sim.report ⟨rfl, rfl, rfl⟩

include models in
/-- Executing a statement that adds nothing to the interpretation keeps the state below it. -/
theorem execute (sim : Sim ctx I inst n st) {block statement : ℕ} {stmt : Statement O}
    (closed : I.StatementClosed ctx n block statement stmt) :
    Sim ctx I inst n (execute ctx inst block statement st stmt) := by
  cases stmt with
  | assign dest sources =>
    obtain ⟨φ, size, rfl, inside, below⟩ := sim
    refine ⟨φ, size, rfl, inside, below.foldl fun st' below' e member => ?_⟩
    refine below'.assignExp models inside (Below.owned_var inside ctx st _) ?_
    rw [below.map_var inside]
    exact closed e member
  | phi dest operands =>
    obtain ⟨φ, size, rfl, inside, below⟩ := sim
    refine ⟨φ, size, rfl, inside, below.foldl fun st' below' operand member => ?_⟩
    refine below'.assign models (Below.owned_var inside ctx st _) (Below.owned_var inside ctx st' _) ?_
    rw [below.map_var inside, below'.map_var inside]
    exact closed operand member
  | callAssign info style rets args =>
    cases style with
    | directCall names => exact sim.foldl fun st sim name member => sim.callTarget models (closed name member)
    | funcPtrCall callee signature =>
      have seen : ∀ name ∈ st.funcPtrTargets ctx inst callee, I.Seen ctx n callee (.target name) := by
        obtain ⟨φ, size, rfl, inside, below⟩ := sim
        intro name member
        unfold Eval.funcPtrTargets at member
        obtain ⟨label, read, target⟩ := List.mem_filterMap.mp
          (List.mem_dedup.mp ((List.mem_insertionSort _).mp member))
        cases label with
        | target f =>
          obtain rfl := Option.some.inj target
          exact below.seen models inside read
        | taint | cls | str => simp at target
      refine Sim.foldl ?_ fun st sim name member => sim.callTarget models (closed name (seen name member))
      split_ifs
      · exact sim.report ⟨rfl, rfl, rfl⟩
      · exact sim
    | unknown | javaCall | luaCall | cilCall => exact sim.report ⟨rfl, rfl, rfl⟩
  | nop => exact sim

include models in
/-- A pass over an instance keeps the state below every interpretation. -/
theorem step (sim : Sim ctx I inst n st) : Sim ctx I inst n (st.step ctx inst) := by
  cases here : st.functionOf ctx inst with
  | none =>
    unfold functionOf at here
    unfold Eval.step
    rw [here]
    exact sim
  | some f =>
    have image : I.functionOf ctx n = some f := by
      obtain ⟨φ, size, rfl, inside, below⟩ := sim
      obtain ⟨i, at?, found⟩ := Option.bind_eq_some_iff.mp here
      simpa [Interpretation.functionOf, below.frames at?, Instance.frame] using found
    rw [step_eq here]
    refine Sim.foldl (Sim.foldl (sim.foldl fun st' sim' seed member => ?_) fun st' sim' obs member => ?_)
      fun st' sim' block member => sim'.foldl fun st'' sim'' stmt there => ?_
    · obtain ⟨seedIn, named⟩ := List.mem_filter.mp member
      obtain ⟨bare, valued⟩ := models.seeds image seed seedIn (of_decide_eq_true named)
      obtain ⟨φ, size, rfl, inside, below⟩ := sim'
      rw [← below.map_var inside] at bare valued
      have owned := Below.owned_var inside ctx st' seed.path.base
      exact ⟨φ, size, rfl, inside, (below.add owned bare).add owned valued⟩
    · obtain ⟨obsIn, named⟩ := List.mem_filter.mp member
      obtain ⟨φ, size, rfl, inside, below⟩ := sim'
      exact ⟨φ, size, rfl, inside, below.observe models inside (models.observers image obs obsIn (of_decide_eq_true named))⟩
    · exact sim''.execute models (models.statements image (List.mem_zipIdx_iff_getElem?.mp member)
        (List.mem_zipIdx_iff_getElem?.mp there))

end Sim

end Eval

section Least

variable [DecidableEq O] [Add O] [Neg O] [OfNat O 0] {ctx : Context O} {I : Interpretation O}

open Eval

theorem below_new (models : I.Models ctx) : ∃ φ size, Below ctx I φ size (.new ctx) := by
  choose! root rooted using models.roots
  refine ⟨fun i => (ctx.bodies[i]?.map root).getD 0, ctx.bodies.length, ?_, ?_, ?_, ?_, ?_, ?_⟩
  · simp [Eval.new]
  · intro i inst here
    simp only [Eval.new, List.getElem?_map, Option.map_eq_some_iff] at here
    obtain ⟨body, at?, rfl⟩ := here
    simp only [at?, Option.map_some, Option.getD_some]
    exact rooted body (List.mem_of_getElem? at?)
  · intro i inst here key c known
    simp only [Eval.new, List.getElem?_map, Option.map_eq_some_iff] at here
    obtain ⟨body, -, rfl⟩ := here
    simp at known
  · simp [Eval.new]
  · simp [Eval.new]
  · simp [Eval.new]

theorem below_run (models : I.Models ctx) {fuel : ℕ} {state : Eval O × ℕ} {st : Eval O}
    (below : ∃ φ size, Below ctx I φ size state.1) (stops : run ctx fuel state = some st) :
    ∃ φ size, Below ctx I φ size st := by
  induction fuel generalizing state with
  | zero => simp [run] at stops
  | succ fuel ih =>
    unfold run at stops
    obtain ⟨st₀, i⟩ := state
    obtain ⟨φ, size, below⟩ := below
    cases moves : next ctx (st₀, i) with
    | none =>
      rw [moves] at stops
      exact Option.some.inj stops ▸ ⟨φ, size, below⟩
    | some state' =>
      rw [moves] at stops
      refine ih ?_ stops
      simp only [Eval.next] at moves
      split_ifs at moves with inside
      · obtain rfl := Option.some.inj moves
        obtain ⟨ψ, grown, -, -, after⟩ := Sim.step (n := φ i) models ⟨φ, size, rfl, below.length ▸ inside, below⟩
        exact ⟨ψ, grown, after⟩
      · obtain rfl := Option.some.inj moves
        exact ⟨φ, size, below.report ⟨rfl, rfl, rfl⟩⟩

/-- Every interpretation observes what an evaluation observes. -/
theorem observed_of_models (models : I.Models ctx) {fuel : ℕ} {st : Eval O} (stops : evaluate ctx fuel = some st)
    {o : Observation} (seen : o ∈ st.observed) : o ∈ I.observed := by
  obtain ⟨φ, size, below⟩ := below_run models (below_new models) stops
  exact below.observed o seen

/-- A state as an interpretation. -/
def Eval.interpretation (st : Eval O) : Interpretation O where
  frame n := st.instances[n]?.map Instance.frame
  child n key := st.instances[n]?.bind fun i => i.children.lookup key
  labels := st.Holds
  observed := {o | o ∈ st.observed}

theorem var_interpretation (st : Eval O) (n : ℕ) (v : VariableRef) :
    st.interpretation.var ctx n v = st.var ctx n v := by
  unfold Interpretation.var Eval.var
  cases v.var with
  | globalVar idx =>
    simp only [Eval.interpretation, Option.bind_map]
    rfl
  | localVar | paramVar => rfl

theorem functionOf_interpretation (st : Eval O) (n : ℕ) :
    st.interpretation.functionOf ctx n = st.functionOf ctx n := by
  simp only [Interpretation.functionOf, Eval.functionOf, Eval.interpretation, Option.bind_map]
  rfl

variable {st : Eval O} {dst src var : Var} {d s p : List (PathSegment O)}

theorem placed_of_same {config : Config} {label : Label} {scope : Scope}
    (same : st.Same (st.add config var p label scope)) : Placed config st.Holds var p label scope :=
  fun location short => holds_of_same_add same location short

theorem assignClosed_of_same {config : Config} {store : Bool} (same : st.Same (st.assign config dst d src s store)) :
    AssignClosed config st.Holds dst d src s store := by
  refine fun apart => ⟨fun p l q held goes location short => ?_, fun p l q held goes location short => ?_⟩
  · exact holds_forward_of_same same apart held goes location short
  · exact holds_backward_of_same same apart held goes location short

theorem expClosed_of_same {n : ℕ} {e : Exp O} (same : st.Same (st.assignExp ctx dst d n e)) :
    st.interpretation.ExpClosed ctx dst d n e := by
  unfold Eval.assignExp at same
  rcases e with ap | ap | ⟨_ | _ | _ | _⟩ | text | number | data
  · simp only [Interpretation.ExpClosed, var_interpretation]
    exact assignClosed_of_same same
  · simp only [Interpretation.ExpClosed, var_interpretation]
    exact assignClosed_of_same same
  · exact placed_of_same same
  · exact placed_of_same same
  · exact placed_of_same same
  · exact placed_of_same same
  · exact placed_of_same same
  all_goals trivial

theorem mem_read {label : Label} : label ∈ st.read var p ↔ st.Holds var (locationOf p) label .fixed := by
  unfold Eval.read Eval.Holds
  simp only [List.mem_map, List.mem_filter, decide_eq_true_eq]
  constructor
  · rintro ⟨e, ⟨here, rfl, path⟩, rfl⟩
    exact ⟨e, here, rfl, path, rfl, Scope.fixed_le _⟩
  · rintro ⟨e, here, rfl, path, rfl, -⟩
    exact ⟨e, ⟨here, rfl, path⟩, rfl⟩

theorem seen_interpretation {n : ℕ} {ap : AccessPath O} {label : Label} :
    st.interpretation.Seen ctx n ap label ↔ label ∈ st.read (st.var ctx n ap.base) ap.segments ++
      st.read (st.var ctx n ap.base) (concat ap.segments [.value]) := by
  rw [List.mem_append, mem_read, mem_read, Interpretation.Seen, var_interpretation]
  rfl

theorem observes_of_same {n : ℕ} {ap : AccessPath O} {site : String} (same : st.Same (st.observe ctx n ap site)) :
    st.interpretation.Observes ctx n ap site := by
  intro name seen
  rw [observe_eq] at same
  have each := same.of_foldl (fun st label _ => progress_record n site st label)
    (fun same label _ => same.record n site label) _ (seen_interpretation.mp seen)
  rw [functionOf_interpretation]
  change (⟨st.functionName ctx n, site, name⟩ : Observation) ∈ st.observed
  have observed := each.observed
  simp only [record] at observed
  by_contra missing
  rw [if_neg missing] at observed
  exact missing (observed ▸ Finset.mem_insert_self _ _)

/-- Where the copies of a call add nothing, none of them adds anything. -/
private theorem same_pass {n c : ℕ} {f : FunctionData O} {rets : List VariableRef} {args : List (Exp O)}
    (same : st.Same (pass ctx n c f rets args st)) :
    (∀ arg ∈ (args.take f.params.length).zipIdx,
      st.Same (st.assignExp ctx (st.var ctx c (.new (.paramVar arg.2))) [] n arg.1)) ∧
    ∀ ret ∈ returns f, ∀ r ∈ rets.zip ret, st.Same (st.assignExp ctx (st.var ctx n r.1) [] c r.2) := by
  have formal : ∀ (st : Eval O) (arg : Exp O × ℕ),
      Progress st (st.assignExp ctx (st.var ctx c (.new (.paramVar arg.2))) [] n arg.1) := fun st arg =>
    progress_assignExp ..
  have result : ∀ (st : Eval O) (r : VariableRef × Exp O),
      Progress st (st.assignExp ctx (st.var ctx n r.1) [] c r.2) := fun st r => progress_assignExp ..
  have returned : ∀ (st : Eval O) (ret : List (Exp O)),
      Progress st ((rets.zip ret).foldl (fun st r => st.assignExp ctx (st.var ctx n r.1) [] c r.2) st) :=
    fun st ret => Progress.foldl (fun st r _ => result st r) st
  have first := (Progress.foldl (fun st arg _ => formal st arg) st).same_first
    (Progress.foldl (fun st ret _ => returned st ret) _) same
  have rest := first.symm.trans same
  have congrFormal : ∀ {a b : Eval O}, a.Same b → ∀ arg ∈ (args.take f.params.length).zipIdx,
      (a.assignExp ctx (a.var ctx c (.new (.paramVar arg.2))) [] n arg.1).Same
        (b.assignExp ctx (b.var ctx c (.new (.paramVar arg.2))) [] n arg.1) := by
    intro a b same arg _
    rw [same.var]
    exact same.assignExp ..
  have congrResult : ∀ {a b : Eval O}, a.Same b → ∀ r : VariableRef × Exp O,
      (a.assignExp ctx (a.var ctx n r.1) [] c r.2).Same (b.assignExp ctx (b.var ctx n r.1) [] c r.2) := by
    intro a b same r
    rw [same.var]
    exact same.assignExp ..
  refine ⟨first.of_foldl (fun st arg _ => formal st arg) congrFormal, fun ret member => ?_⟩
  have each := rest.of_foldl (fun st ret _ => returned st ret)
    (fun same ret _ => same.foldl fun same r _ => congrResult same r) ret member
  have here := (first.trans each).trans (first.symm.foldl fun same r _ => congrResult same r)
  exact here.of_foldl (fun st r _ => result st r) fun same r _ => congrResult same r

/-- A call that adds nothing has its child already, with the copies of the call. -/
theorem called_of_same (tree : Tree st.instances) {n block statement : ℕ} {callee : ℕ × ℕ} {rets : List VariableRef}
    {args : List (Exp O)} (same : st.Same (st.instantiate ctx n block statement callee rets args)) :
    ∀ fr ∈ st.interpretation.frame n, fr.depth + 1 ≤ ctx.config.depth →
      ∃ c, st.interpretation.child n (block, statement, callee.1, callee.2) = some c ∧
        st.interpretation.frame c = some ⟨callee.1, callee.2, fr.depth + 1⟩ ∧
        ∀ f ∈ ctx.functionAt callee.1 callee.2, st.interpretation.Passed ctx n c f rets args := by
  intro fr frame shallow
  obtain ⟨parent, here, rfl⟩ := Option.map_eq_some_iff.mp frame
  have still : Same st (st.child ctx n (block, statement, callee.1, callee.2)).1 :=
    (progress_child ..).same_first (progress_called ..) same
  obtain ⟨c, known⟩ : ∃ c, parent.children.lookup (block, statement, callee.1, callee.2) = some c := by
    by_contra missing
    have fresh := Option.eq_none_iff_forall_ne_some.mpr (not_exists.mp missing)
    have length := congrArg List.length still.instances
    unfold Eval.child at length
    simp only [here, fresh] at length
    rw [if_neg (show ¬ ctx.config.depth < parent.depth + 1 from Nat.not_lt.mpr shallow)] at length
    simp at length
  obtain ⟨child, there, childFrame⟩ := tree n parent here _ c known
  refine ⟨c, by simp [Eval.interpretation, here, known], ?_, fun f at? => ?_⟩
  · simp only [Eval.interpretation, there, Option.map_some, childFrame]
    rfl
  · have passed : Same st (pass ctx n c f rets args st) := by
      have found : st.child ctx n (block, statement, callee.1, callee.2) = (st, some c) := by
        unfold Eval.child
        simp only [here, known]
      rw [instantiate_eq, found, Option.mem_def.mp at?] at same
      exact same
    obtain ⟨formals, returned⟩ := same_pass passed
    refine ⟨fun arg member => ?_, fun ret member r here => ?_⟩
    · rw [var_interpretation]
      exact expClosed_of_same (formals arg member)
    · rw [var_interpretation]
      exact expClosed_of_same (returned ret member r here)

theorem callClosed_of_same (tree : Tree st.instances) {n block statement info : ℕ} {rets : List VariableRef}
    {args : List (Exp O)} {name : String}
    (same : st.Same (callTarget ctx n block statement info rets args st name)) :
    st.interpretation.CallClosed ctx n block statement info rets args name := by
  unfold Eval.callTarget at same
  unfold Interpretation.CallClosed
  split_ifs at same ⊢ with asSource asSink
  · intro r first
    unfold Eval.source at same
    rw [Option.mem_def.mp first] at same
    rw [var_interpretation]
    have bare := (progress_add ..).same_first (progress_add ..) same
    have rest := bare.symm.trans same
    exact ⟨placed_of_same bare, placed_of_same ((bare.trans rest).trans (bare.symm.add ..))⟩
  · intro ap first
    unfold Eval.sink at same
    rw [Option.mem_def.mp first] at same
    exact observes_of_same same
  · intro callee found
    rw [Option.mem_def.mp found] at same
    exact called_of_same tree same

/-- A statement that adds nothing to a state adds nothing to it as an interpretation. -/
theorem statementClosed_of_same (tree : Tree st.instances) {n block statement : ℕ} {stmt : Statement O}
    (same : st.Same (execute ctx n block statement st stmt)) :
    st.interpretation.StatementClosed ctx n block statement stmt := by
  have calls : ∀ {names : List String} {info : ℕ} {rets : List VariableRef} {args : List (Exp O)},
      st.Same (names.foldl (callTarget ctx n block statement info rets args) st) → ∀ name ∈ names,
        st.interpretation.CallClosed ctx n block statement info rets args name := by
    intro names info rets args same name member
    exact callClosed_of_same tree (same.of_foldl (fun st name _ => progress_callTarget ..)
      (fun same name _ => same.callTarget ..) name member)
  cases stmt with
  | assign dest sources =>
    intro e member
    rw [var_interpretation]
    exact expClosed_of_same (same.of_foldl (fun st e _ => progress_assignExp ..)
      (fun same e _ => same.assignExp ..) e member)
  | phi dest operands =>
    intro operand member
    rw [var_interpretation, var_interpretation]
    refine assignClosed_of_same (same.of_foldl (fun st operand _ => progress_assign ..) (fun same operand _ => ?_)
      operand member)
    simp only [same.var]
    exact same.assign ..
  | callAssign info style rets args =>
    cases style with
    | directCall names => exact calls same
    | funcPtrCall callee signature =>
      intro name seen
      have target : name ∈ st.funcPtrTargets ctx n callee := by
        refine (List.mem_insertionSort _).mpr (List.mem_dedup.mpr (List.mem_filterMap.mpr ?_))
        exact ⟨.target name, seen_interpretation.mp seen, rfl⟩
      have nonempty : (st.funcPtrTargets ctx n callee).isEmpty = false := by
        cases h : st.funcPtrTargets ctx n callee with
        | nil => simp [h] at target
        | cons => rfl
      simp only [Eval.execute, Eval.call, nonempty, Bool.false_eq_true, if_false] at same
      exact calls same name target
    | unknown | javaCall | luaCall | cilCall => trivial
  | nop => trivial

theorem tree_run {fuel : ℕ} {state : Eval O × ℕ} (tree : Tree state.1.instances)
    (stops : run ctx fuel state = some st) : Tree st.instances := by
  induction fuel generalizing state with
  | zero => simp [run] at stops
  | succ fuel ih =>
    unfold run at stops
    obtain ⟨st₀, i⟩ := state
    cases moves : next ctx (st₀, i) with
    | none =>
      rw [moves] at stops
      exact Option.some.inj stops ▸ tree
    | some state' =>
      rw [moves] at stops
      refine ih ?_ stops
      simp only [Eval.next] at moves
      split_ifs at moves
      · obtain rfl := Option.some.inj moves
        exact (progress_step ctx st₀ i).keeps tree
      · obtain rfl := Option.some.inj moves
        exact tree

/-- The outcome of an evaluation is an interpretation. -/
theorem models_of_evaluate {fuel : ℕ} (stops : evaluate ctx fuel = some st) : st.interpretation.Models ctx := by
  have closed := closed_of_evaluate stops
  have tree : Tree st.instances := by
    refine tree_run (fun i inst here key c known => ?_) stops
    simp only [Eval.new, List.getElem?_map, Option.map_eq_some_iff] at here
    obtain ⟨body, -, rfl⟩ := here
    simp at known
  refine ⟨?_, ?_, ?_, ?_, ?_⟩
  · rintro v p l ⟨e, here, var, path, label, -⟩
    exact ⟨e, here, var, path, label, Scope.fixed_le _⟩
  · intro body member
    obtain ⟨i, at?⟩ := List.mem_iff_getElem?.mp member
    have start : (Eval.new ctx).instances[i]? = some ⟨body.1.1, body.1.2, 0, []⟩ := by
      simp [Eval.new, at?]
    obtain ⟨inst, here, frame, -⟩ := extends_run stops i _ start
    exact ⟨i, by simp only [Eval.interpretation, here, Option.map_some, frame]; rfl⟩
  · intro n f here seed member named
    rw [functionOf_interpretation] at here
    have same := closed.seeds here seed member named
    have bare := (progress_add ..).same_first (progress_add ..) same
    have rest := bare.symm.trans same
    rw [var_interpretation]
    exact ⟨placed_of_same bare, placed_of_same ((bare.trans rest).trans (bare.symm.add ..))⟩
  · intro n f here obs member named
    rw [functionOf_interpretation] at here
    exact observes_of_same (closed.observers here obs member named)
  · intro n f here b block at? i stmt there
    rw [functionOf_interpretation] at here
    exact statementClosed_of_same tree (closed.statements here at? there)

end Least

end Ctadl.Semantics
