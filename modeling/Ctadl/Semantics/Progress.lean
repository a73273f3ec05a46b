import Ctadl.Semantics.Eval
import Mathlib.Algebra.BigOperators.Group.List.Basic
import Mathlib.Algebra.GroupWithZero.Nat
import Mathlib.Algebra.Order.BigOperators.Group.List
import Mathlib.Algebra.Order.Group.Nat
import Mathlib.Data.Finset.Card

/-! # What a step of the evaluator can do

A step either leaves the instances, the labels and the observations alone, or adds to them and says so.
What it does depends on these three only: not on the report of bounds and unresolved calls, nor on
whether something changed before. So a round in which nothing changed is a round in which every step of
every instance adds nothing to the state it ends in.
-/

set_option linter.unusedSectionVars false

namespace Ctadl.Semantics

open Cir

variable {O : Type}

/-- What an instance is of, and how deep it is nested. -/
structure Frame where
  program : ℕ
  function : ℕ
  depth : ℕ
deriving DecidableEq, Repr

def Instance.frame (i : Instance) : Frame := ⟨i.program, i.function, i.depth⟩

namespace Eval

/-- Two states that agree on instances, labels and observations. -/
structure Same (a b : Eval O) : Prop where
  instances : a.instances = b.instances
  cells : a.cells = b.cells
  observed : a.observed = b.observed

namespace Same

variable {a b c : Eval O}

theorem refl (a : Eval O) : Same a a := ⟨rfl, rfl, rfl⟩

theorem symm (same : Same a b) : Same b a := ⟨same.1.symm, same.2.symm, same.3.symm⟩

theorem trans (ab : Same a b) (bc : Same b c) : Same a c :=
  ⟨ab.1.trans bc.1, ab.2.trans bc.2, ab.3.trans bc.3⟩

theorem foldl {α : Type} {f g : Eval O → α → Eval O} {items : List α} (same : Same a b)
    (each : ∀ {a b}, Same a b → ∀ x ∈ items, Same (f a x) (g b x)) : Same (items.foldl f a) (items.foldl g b) := by
  induction items generalizing a b with
  | nil => exact same
  | cons x rest ih => exact ih (each same x (.head _)) fun same y later => each same y (.tail _ later)

end Same

/-- How much there is of an entry: a label of scope `all` is more than one of scope `fixed`. -/
def entryWeight (e : Entry O) : ℕ :=
  match e.scope with
  | .fixed => 1
  | .all => 2

/-- How much a state has found. -/
def weight (st : Eval O) : ℕ := (st.cells.map entryWeight).sum + st.observed.card + st.instances.length

/-- Instances stay what they are and keep their children. -/
def Extends (a b : List Instance) : Prop :=
  ∀ (i : ℕ) (inst : Instance), a[i]? = some inst → ∃ inst' : Instance, b[i]? = some inst' ∧
    inst'.frame = inst.frame ∧ ∀ key c, inst.children.lookup key = some c → inst'.children.lookup key = some c

theorem Extends.refl (a : List Instance) : Extends a a :=
  fun _ inst here => ⟨inst, here, rfl, fun _ _ called => called⟩

theorem Extends.trans {a b c : List Instance} (ab : Extends a b) (bc : Extends b c) : Extends a c := by
  intro i inst here
  obtain ⟨inst', there, frame, children⟩ := ab i inst here
  obtain ⟨inst'', again, frame', children'⟩ := bc i inst' there
  exact ⟨inst'', again, frame'.trans frame, fun key c called => children' key c (children key c called)⟩

/-- Every child is an instance of its callee, one deeper than its caller. -/
def Tree (instances : List Instance) : Prop :=
  ∀ (i : ℕ) (inst : Instance), instances[i]? = some inst → ∀ key c, inst.children.lookup key = some c →
    ∃ child : Instance, instances[c]? = some child ∧ child.frame = ⟨key.2.2.1, key.2.2.2, inst.depth + 1⟩

/-- What a step does: nothing, or it finds something and says so. -/
structure Progress (st st' : Eval O) : Prop where
  grows : Extends st.instances st'.instances
  keeps : Tree st.instances → Tree st'.instances
  moves : (Same st st' ∧ st'.changed = st.changed) ∨ (st.weight < st'.weight ∧ st'.changed = true)

namespace Progress

variable {a b c : Eval O}

theorem same (same : Same a b) (changed : b.changed = a.changed) : Progress a b :=
  ⟨same.instances ▸ .refl _, same.instances ▸ id, .inl ⟨same, changed⟩⟩

theorem refl (a : Eval O) : Progress a a := .same (.refl a) rfl

theorem weight_eq (same : Same a b) : a.weight = b.weight := by
  rw [weight, weight, same.instances, same.cells, same.observed]

theorem trans (ab : Progress a b) (bc : Progress b c) : Progress a c := by
  refine ⟨ab.grows.trans bc.grows, bc.keeps ∘ ab.keeps, ?_⟩
  rcases ab.moves with ⟨same, kept⟩ | ⟨more, said⟩ <;> rcases bc.moves with ⟨same', kept'⟩ | ⟨more', said'⟩
  · exact .inl ⟨same.trans same', kept'.trans kept⟩
  · exact .inr ⟨weight_eq same ▸ more', said'⟩
  · exact .inr ⟨weight_eq same' ▸ more, kept'.trans said⟩
  · exact .inr ⟨more.trans more', said'⟩

theorem foldl {α : Type} {f : Eval O → α → Eval O} {items : List α} (each : ∀ st, ∀ x ∈ items, Progress st (f st x))
    (st : Eval O) : Progress st (items.foldl f st) := by
  induction items generalizing st with
  | nil => exact .refl st
  | cons x rest ih => exact (each st x (.head _)).trans (ih (fun st y later => each st y (.tail _ later)) _)

/-- Where nothing is said, nothing is found. -/
theorem same_of_quiet (progress : Progress a b) (quiet : b.changed = false) : Same a b := by
  rcases progress.moves with ⟨same, -⟩ | ⟨-, said⟩
  · exact same
  · simp [quiet] at said

end Progress

section Adding

variable [DecidableEq O] {a b : Eval O}

theorem Same.scopeAt (same : Same a b) (var : Var) (p : List (PathSegment O)) (label : Label) :
    a.scopeAt var p label = b.scopeAt var p label := by
  rw [Eval.scopeAt, Eval.scopeAt, same.cells]

theorem Same.put (same : Same a b) (var : Var) (p : List (PathSegment O)) (label : Label) (scope : Scope) :
    Same (a.put var p label scope) (b.put var p label scope) := by
  unfold Eval.put
  rw [same.scopeAt]
  split
  · split_ifs
    · exact same
    · exact ⟨same.1, by simp [same.2], same.3⟩
  · exact ⟨same.1, by simp [same.2], same.3⟩

theorem Same.add (same : Same a b) (config : Config) (var : Var) (p : List (PathSegment O)) (label : Label)
    (scope : Scope) : Same (a.add config var p label scope) (b.add config var p label scope) := by
  unfold Eval.add
  split_ifs
  · exact same
  · exact ⟨same.1, same.2, same.3⟩
  · exact same.put var p label scope

private theorem weight_raise {cells : List (Entry O)} {hit : Entry O → Bool} {e : Entry O}
    (here : e ∈ cells) (found : hit e) (fixed : e.scope = .fixed) :
    (cells.map entryWeight).sum <
      ((cells.map fun e => if hit e then { e with scope := .all } else e).map entryWeight).sum := by
  have le : ∀ e : Entry O, entryWeight e ≤ entryWeight (if hit e then { e with scope := .all } else e) := by
    intro e
    split_ifs
    · cases scope : e.scope <;> simp [entryWeight, scope]
    · exact le_rfl
  rw [List.map_map]
  refine List.sum_lt_sum _ _ (fun e _ => le e) ⟨e, here, ?_⟩
  simp [entryWeight, found, fixed]

theorem progress_put (st : Eval O) (var : Var) (p : List (PathSegment O)) (label : Label) (scope : Scope) :
    Progress st (st.put var p label scope) := by
  unfold Eval.put
  cases found : st.scopeAt var p label with
  | none =>
    refine ⟨.refl _, id, .inr ⟨?_, rfl⟩⟩
    have positive : 0 < entryWeight (⟨var, p, label, scope⟩ : Entry O) := by cases scope <;> simp [entryWeight]
    simp only [weight, List.map_cons, List.sum_cons]
    omega
  | some old =>
    simp only
    split_ifs with enough
    · exact .refl st
    · obtain ⟨e, first, rfl⟩ := Option.map_eq_some_iff.mp found
      obtain ⟨fixed, rfl⟩ : e.scope = .fixed ∧ scope = .all := by
        cases h : e.scope <;> cases scope <;> simp_all [Scope.le]
      refine ⟨.refl _, id, .inr ⟨?_, rfl⟩⟩
      have raised := weight_raise (List.mem_of_find?_eq_some first) (List.find?_some first) fixed
      simp only [decide_eq_true_eq] at raised
      simp only [weight]
      omega

theorem progress_add (config : Config) (st : Eval O) (var : Var) (p : List (PathSegment O)) (label : Label)
    (scope : Scope) : Progress st (st.add config var p label scope) := by
  unfold Eval.add
  split_ifs
  · exact .refl st
  · exact .same ⟨rfl, rfl, rfl⟩ rfl
  · exact progress_put st var p label scope

theorem Same.read (same : Same a b) (var : Var) (p : List (PathSegment O)) : a.read var p = b.read var p := by
  rw [Eval.read, Eval.read, same.cells]

end Adding

variable [DecidableEq O] [Add O] [Neg O] [OfNat O 0] {ctx : Context O} {a b : Eval O}

section Assigning

theorem Same.assign (same : Same a b) (config : Config) (dst : Var) (d : List (PathSegment O)) (src : Var)
    (s : List (PathSegment O)) (store : Bool) :
    Same (a.assign config dst d src s store) (b.assign config dst d src s store) := by
  unfold Eval.assign
  split_ifs
  · exact same
  all_goals
    have forward : ∀ scope, Same (a.forward config dst d src s scope) (b.forward config dst d src s scope) := by
      intro scope
      unfold Eval.forward
      rw [same.cells]
      exact same.foldl fun same e _ => same.foldl fun same target _ => same.add ..
    unfold Eval.backward
    rw [(forward _).cells]
    refine (forward _).foldl fun same e _ => ?_
    cases backwardTarget d s e.path with
    | none => exact same
    | some target => exact same.add ..

theorem progress_assign (config : Config) (st : Eval O) (dst : Var) (d : List (PathSegment O)) (src : Var)
    (s : List (PathSegment O)) (store : Bool) : Progress st (st.assign config dst d src s store) := by
  have forward : ∀ scope, Progress st (st.forward config dst d src s scope) := fun scope =>
    Progress.foldl (fun st e _ => Progress.foldl (fun st target _ => progress_add ..) st) st
  have backward : ∀ st : Eval O, Progress st (st.backward config dst d src s) := fun st =>
    Progress.foldl (fun st e _ => by
      cases backwardTarget d s e.path with
      | none => exact .refl st
      | some target => exact progress_add ..) st
  unfold Eval.assign
  split_ifs
  · exact .refl st
  all_goals exact (forward _).trans (backward _)

theorem Same.var (same : Same a b) (inst : ℕ) (v : VariableRef) : a.var ctx inst v = b.var ctx inst v := by
  unfold Eval.var
  rw [same.instances]

theorem Same.assignExp (same : Same a b) (dst : Var) (d : List (PathSegment O)) (inst : ℕ) (e : Exp O) :
    Same (a.assignExp ctx dst d inst e) (b.assignExp ctx dst d inst e) := by
  unfold Eval.assignExp
  rcases e with ap | ap | ⟨_ | _ | _ | _⟩ | text | number | data
  · simp only [same.var]
    exact same.assign ..
  · simp only [same.var]
    exact same.assign ..
  all_goals first | exact same.add .. | exact same

theorem progress_assignExp (st : Eval O) (dst : Var) (d : List (PathSegment O)) (inst : ℕ) (e : Exp O) :
    Progress st (st.assignExp ctx dst d inst e) := by
  unfold Eval.assignExp
  rcases e with ap | ap | ⟨_ | _ | _ | _⟩ | text | number | data
  all_goals first | exact progress_assign .. | exact progress_add .. | exact .refl st

end Assigning

section Calls

theorem Same.functionName (same : Same a b) (inst : ℕ) : a.functionName ctx inst = b.functionName ctx inst := by
  unfold Eval.functionName
  rw [same.instances]

/-- Record one label that a site sees. -/
def record (ctx : Context O) (inst : ℕ) (site : String) (st : Eval O) : Label → Eval O
  | .taint name =>
    let obs : Observation := ⟨st.functionName ctx inst, site, name⟩
    if obs ∈ st.observed then st else { st with observed := insert obs st.observed, changed := true }
  | .target _ | .cls _ | .str _ => st

/-- An observation records the labels of a read one by one. -/
theorem observe_eq (st : Eval O) (inst : ℕ) (ap : AccessPath O) (site : String) :
    st.observe ctx inst ap site = (st.read (st.var ctx inst ap.base) ap.segments ++
      st.read (st.var ctx inst ap.base) (concat ap.segments [.value])).foldl (record ctx inst site) st := by
  unfold Eval.observe
  refine List.foldl_ext _ _ _ fun st label _ => ?_
  cases label <;> rfl

theorem Same.record (same : Same a b) (inst : ℕ) (site : String) (label : Label) :
    Same (record ctx inst site a label) (record ctx inst site b label) := by
  cases label with
  | taint name =>
    simp only [Eval.record, same.functionName, same.observed]
    split_ifs
    · exact same
    · exact ⟨same.1, same.2, rfl⟩
  | target | cls | str => exact same

theorem progress_record (inst : ℕ) (site : String) (st : Eval O) (label : Label) :
    Progress st (record ctx inst site st label) := by
  cases label with
  | taint name =>
    simp only [record]
    split_ifs with seen
    · exact .refl st
    · refine ⟨.refl _, id, .inr ⟨?_, rfl⟩⟩
      simp only [weight, Finset.card_insert_of_notMem seen]
      omega
  | target | cls | str => exact .refl st

theorem Same.observe (same : Same a b) (inst : ℕ) (ap : AccessPath O) (site : String) :
    Same (a.observe ctx inst ap site) (b.observe ctx inst ap site) := by
  rw [observe_eq, observe_eq]
  simp only [same.var, same.read]
  exact same.foldl fun same label _ => same.record inst site label

theorem progress_observe (st : Eval O) (inst : ℕ) (ap : AccessPath O) (site : String) :
    Progress st (st.observe ctx inst ap site) := by
  rw [observe_eq]
  exact Progress.foldl (fun st label _ => progress_record inst site st label) st

theorem Same.source (same : Same a b) (inst : ℕ) (name : String) (rets : List VariableRef) (args : List (Exp O)) :
    Same (a.source ctx inst name rets args) (b.source ctx inst name rets args) := by
  unfold Eval.source
  cases rets.head? with
  | none => exact same
  | some r =>
    simp only [same.var]
    exact (same.add ..).add ..

theorem progress_source (st : Eval O) (inst : ℕ) (name : String) (rets : List VariableRef) (args : List (Exp O)) :
    Progress st (st.source ctx inst name rets args) := by
  unfold Eval.source
  cases rets.head? with
  | none => exact .refl st
  | some r => exact (progress_add ..).trans (progress_add ..)

theorem Same.sink (same : Same a b) (inst info : ℕ) (name : String) (args : List (Exp O)) :
    Same (a.sink ctx inst info name args) (b.sink ctx inst info name args) := by
  unfold Eval.sink
  cases args.head?.bind Exp.accessPath with
  | none => exact same
  | some ap => exact same.observe ..

theorem progress_sink (st : Eval O) (inst info : ℕ) (name : String) (args : List (Exp O)) :
    Progress st (st.sink ctx inst info name args) := by
  unfold Eval.sink
  cases args.head?.bind Exp.accessPath with
  | none => exact .refl st
  | some ap => exact progress_observe ..

theorem Same.child (same : Same a b) (ctx : Context O) (inst : ℕ) (key : CallKey) :
    Same (a.child ctx inst key).1 (b.child ctx inst key).1 ∧ (a.child ctx inst key).2 = (b.child ctx inst key).2 := by
  unfold Eval.child
  rw [same.instances]
  cases b.instances[inst]? with
  | none => exact ⟨same, rfl⟩
  | some parent =>
    simp only
    cases parent.children.lookup key with
    | some c => exact ⟨same, rfl⟩
    | none =>
      simp only
      split_ifs
      all_goals exact ⟨⟨rfl, same.2, same.3⟩, rfl⟩

/-- The instances after a call: the new one, and the old ones with what they were of. -/
theorem getElem?_called {instances : List Instance} {inst : ℕ} {parent fresh : Instance}
    (here : instances[inst]? = some parent) (key : CallKey) {size : ℕ} (length : instances.length = size) {i : ℕ}
    {inst' : Instance}
    (at? : (instances.set inst { parent with children := (key, instances.length) :: parent.children } ++ [fresh])[i]? =
      some inst') :
    (i = size ∧ inst' = fresh) ∨ (i < size ∧ ∃ before, instances[i]? = some before ∧ before.frame = inst'.frame ∧
      ∀ key' c, inst'.children.lookup key' = some c →
        (i = inst ∧ key' = key ∧ c = size) ∨ before.children.lookup key' = some c) := by
  subst length
  by_cases less : i < instances.length
  · right
    rw [List.getElem?_append_left (by simpa using less), List.getElem?_set] at at?
    refine ⟨less, ?_⟩
    by_cases same : inst = i
    · subst same
      simp only [if_true, less, Option.some.injEq] at at?
      obtain rfl := at?
      refine ⟨parent, here, rfl, fun key' c known => ?_⟩
      rw [List.lookup_cons] at known
      by_cases hit : key' = key
      · subst hit
        simp only [beq_self_eq_true, Option.some.injEq] at known
        exact .inl ⟨rfl, rfl, known.symm⟩
      · rw [beq_eq_false_iff_ne.mpr hit] at known
        exact .inr known
    · rw [if_neg same] at at?
      exact ⟨inst', at?, rfl, fun _ _ known => .inr known⟩
  · left
    rw [List.getElem?_append_right (by simpa using less), List.length_set, List.getElem?_singleton] at at?
    split_ifs at at? with last
    exact ⟨by omega, (Option.some.inj at?).symm⟩

private theorem extends_called {instances : List Instance} {inst c : ℕ} {parent last : Instance} {key : CallKey}
    (here : instances[inst]? = some parent) (fresh : parent.children.lookup key = none) :
    Extends instances (instances.set inst { parent with children := (key, c) :: parent.children } ++ [last]) := by
  intro i old at?
  have below : i < instances.length := (List.getElem?_eq_some_iff.mp at?).1
  rw [List.getElem?_append_left (by simpa using below), List.getElem?_set]
  by_cases same : inst = i
  · subst same
    obtain rfl := Option.some.inj (here.symm.trans at?)
    refine ⟨{ parent with children := (key, c) :: parent.children }, by simp [below], rfl, fun key' c' called => ?_⟩
    have other : (key' == key) = false := by
      rw [beq_eq_false_iff_ne]
      rintro rfl
      simp [fresh] at called
    simpa [List.lookup_cons, other] using called
  · exact ⟨old, by simpa [same] using at?, rfl, fun _ _ called => called⟩

private theorem tree_called {instances : List Instance} {inst : ℕ} {parent : Instance} {key : CallKey}
    (here : instances[inst]? = some parent) (fresh : parent.children.lookup key = none) (tree : Tree instances) :
    Tree (instances.set inst { parent with children := (key, instances.length) :: parent.children } ++
      [⟨key.2.2.1, key.2.2.2, parent.depth + 1, []⟩]) := by
  intro i inst' at? key' c known
  rcases getElem?_called here key rfl at? with ⟨rfl, rfl⟩ | ⟨less, before, was, same, grew⟩
  · simp at known
  · have depth : inst'.depth = before.depth := congrArg Frame.depth same.symm
    rcases grew key' c known with ⟨rfl, rfl, rfl⟩ | known'
    · obtain rfl := Option.some.inj (here.symm.trans was)
      refine ⟨⟨key'.2.2.1, key'.2.2.2, parent.depth + 1, []⟩, ?_, by rw [depth]; rfl⟩
      rw [List.getElem?_append_right (by simp)]
      simp
    · obtain ⟨child, there, frame⟩ := tree i before was key' c known'
      obtain ⟨child', there', frame', -⟩ := extends_called here fresh c child there
      exact ⟨child', there', by rw [frame', frame, depth]⟩

theorem progress_child (ctx : Context O) (st : Eval O) (inst : ℕ) (key : CallKey) : Progress st (st.child ctx inst key).1 := by
  unfold Eval.child
  split
  · exact .refl st
  · split
    · exact .refl st
    · split_ifs
      · exact .same ⟨rfl, rfl, rfl⟩ rfl
      · next parent here _ fresh _ =>
        exact ⟨extends_called here fresh, tree_called here fresh, .inr ⟨by simp [weight], rfl⟩⟩

/-- The copies of a call into the formals of its callee and of the callee's returns. -/
def pass (ctx : Context O) (inst c : ℕ) (f : FunctionData O) (rets : List VariableRef) (args : List (Exp O))
    (st : Eval O) : Eval O :=
  (returns f).foldl (fun st ret =>
      (rets.zip ret).foldl (fun st r => st.assignExp ctx (st.var ctx inst r.1) [] c r.2) st)
    ((args.take f.params.length).zipIdx.foldl (fun st arg =>
      st.assignExp ctx (st.var ctx c (.new (.paramVar arg.2))) [] inst arg.1) st)

/-- A call finds or makes the child, then passes values to it and back. -/
theorem instantiate_eq (st : Eval O) (inst block statement : ℕ) (callee : ℕ × ℕ) (rets : List VariableRef)
    (args : List (Exp O)) :
    st.instantiate ctx inst block statement callee rets args =
      let made := st.child ctx inst (block, statement, callee.1, callee.2)
      (made.2.bind fun c => (ctx.functionAt callee.1 callee.2).map fun f => pass ctx inst c f rets args made.1).getD
        made.1 := by
  unfold Eval.instantiate
  generalize st.child ctx inst (block, statement, callee.1, callee.2) = made
  obtain ⟨st', c⟩ := made
  cases c with
  | none => rfl
  | some c => cases ctx.functionAt callee.1 callee.2 <;> rfl

theorem Same.pass (same : Same a b) (inst c : ℕ) (f : FunctionData O) (rets : List VariableRef) (args : List (Exp O)) :
    Same (pass ctx inst c f rets args a) (pass ctx inst c f rets args b) := by
  refine Same.foldl (same.foldl fun same arg _ => ?_) fun same ret _ => same.foldl fun same r _ => ?_
  · rw [same.var]
    exact same.assignExp ..
  · rw [same.var]
    exact same.assignExp ..

theorem progress_pass (inst c : ℕ) (f : FunctionData O) (rets : List VariableRef) (args : List (Exp O)) (st : Eval O) :
    Progress st (pass ctx inst c f rets args st) := by
  refine Progress.trans (Progress.foldl (fun st arg _ => ?_) st)
    (Progress.foldl (fun st ret _ => Progress.foldl (fun st r _ => ?_) st) _)
  · exact progress_assignExp ..
  · exact progress_assignExp ..

theorem Same.instantiate (same : Same a b) (inst block statement : ℕ) (callee : ℕ × ℕ) (rets : List VariableRef)
    (args : List (Exp O)) :
    Same (a.instantiate ctx inst block statement callee rets args)
      (b.instantiate ctx inst block statement callee rets args) := by
  obtain ⟨made, found⟩ := same.child ctx inst (block, statement, callee.1, callee.2)
  simp only [instantiate_eq, found]
  cases (b.child ctx inst (block, statement, callee.1, callee.2)).2 with
  | none => exact made
  | some c =>
    cases ctx.functionAt callee.1 callee.2 with
    | none => exact made
    | some f => exact made.pass ..

/-- What a call does after it found or made its child. -/
theorem progress_called (st : Eval O) (inst block statement : ℕ) (callee : ℕ × ℕ) (rets : List VariableRef)
    (args : List (Exp O)) :
    Progress (st.child ctx inst (block, statement, callee.1, callee.2)).1
      (st.instantiate ctx inst block statement callee rets args) := by
  simp only [instantiate_eq]
  cases (st.child ctx inst (block, statement, callee.1, callee.2)).2 with
  | none => exact .refl _
  | some c =>
    cases ctx.functionAt callee.1 callee.2 with
    | none => exact .refl _
    | some f => exact progress_pass ..

theorem progress_instantiate (st : Eval O) (inst block statement : ℕ) (callee : ℕ × ℕ) (rets : List VariableRef)
    (args : List (Exp O)) : Progress st (st.instantiate ctx inst block statement callee rets args) :=
  (progress_child ..).trans (progress_called ..)

theorem Same.callTarget (same : Same a b) (inst block statement info : ℕ) (rets : List VariableRef)
    (args : List (Exp O)) (name : String) :
    Same (callTarget ctx inst block statement info rets args a name)
      (callTarget ctx inst block statement info rets args b name) := by
  unfold Eval.callTarget
  split_ifs
  · exact same.source ..
  · exact same.sink ..
  · split
    · exact same.instantiate ..
    · exact ⟨same.1, same.2, same.3⟩

theorem progress_callTarget (inst block statement info : ℕ) (rets : List VariableRef) (args : List (Exp O))
    (st : Eval O) (name : String) : Progress st (callTarget ctx inst block statement info rets args st name) := by
  unfold callTarget
  split_ifs
  · exact progress_source ..
  · exact progress_sink ..
  · split
    · exact progress_instantiate ..
    · exact .same ⟨rfl, rfl, rfl⟩ rfl

theorem Same.call (same : Same a b) (inst block statement info : ℕ) (style : CallStyle O) (rets : List VariableRef)
    (args : List (Exp O)) :
    Same (a.call ctx inst block statement info style rets args) (b.call ctx inst block statement info style rets args) := by
  cases style with
  | directCall names => exact same.foldl fun same name _ => same.callTarget ..
  | funcPtrCall callee signature =>
    have targets : a.funcPtrTargets ctx inst callee = b.funcPtrTargets ctx inst callee := by
      unfold Eval.funcPtrTargets
      simp only [same.var, same.read]
    simp only [Eval.call, targets]
    refine Same.foldl ?_ fun same name _ => same.callTarget ..
    split_ifs
    · exact ⟨same.1, same.2, same.3⟩
    · exact same
  | unknown | javaCall | luaCall | cilCall => exact ⟨same.1, same.2, same.3⟩

theorem progress_call (st : Eval O) (inst block statement info : ℕ) (style : CallStyle O) (rets : List VariableRef)
    (args : List (Exp O)) : Progress st (st.call ctx inst block statement info style rets args) := by
  cases style with
  | directCall names => exact Progress.foldl (fun st name _ => progress_callTarget ..) st
  | funcPtrCall callee signature =>
    simp only [Eval.call]
    refine Progress.trans ?_ (Progress.foldl (fun st name _ => progress_callTarget ..) _)
    split_ifs
    · exact .same ⟨rfl, rfl, rfl⟩ rfl
    · exact .refl st
  | unknown | javaCall | luaCall | cilCall => exact .same ⟨rfl, rfl, rfl⟩ rfl

end Calls

section Stepping

theorem Same.execute (same : Same a b) (inst block statement : ℕ) (stmt : Statement O) :
    Same (execute ctx inst block statement a stmt) (execute ctx inst block statement b stmt) := by
  cases stmt with
  | assign dest sources =>
    simp only [Eval.execute, same.var]
    exact same.foldl fun same e _ => same.assignExp ..
  | phi dest operands =>
    simp only [Eval.execute, same.var]
    refine same.foldl fun same operand _ => ?_
    simp only [same.var]
    exact same.assign ..
  | callAssign info style rets args => exact same.call ..
  | nop => exact same

theorem progress_execute (inst block statement : ℕ) (st : Eval O) (stmt : Statement O) :
    Progress st (execute ctx inst block statement st stmt) := by
  cases stmt with
  | assign dest sources => exact Progress.foldl (fun st e _ => progress_assignExp ..) st
  | phi dest operands => exact Progress.foldl (fun st operand _ => progress_assign ..) st
  | callAssign info style rets args => exact progress_call ..
  | nop => exact .refl st

theorem Same.step (same : Same a b) (inst : ℕ) : Same (a.step ctx inst) (b.step ctx inst) := by
  unfold Eval.step
  rw [same.instances]
  split
  · exact same
  · refine Same.foldl (Same.foldl (same.foldl fun same seed _ => ?_) fun same obs _ => ?_) fun same block _ =>
      same.foldl fun same stmt _ => ?_
    · simp only [same.var]
      exact (same.add ..).add ..
    · exact same.observe ..
    · exact same.execute ..

/-- One pass over an instance finds something and says so, or does nothing. -/
theorem progress_step (ctx : Context O) (st : Eval O) (inst : ℕ) : Progress st (st.step ctx inst) := by
  unfold Eval.step
  split
  · exact .refl st
  · refine (Progress.foldl (fun st seed _ => ?_) st).trans ((Progress.foldl (fun st obs _ => ?_) _).trans
      (Progress.foldl (fun st block _ => Progress.foldl (fun st stmt _ => ?_) st) _))
    · exact (progress_add ..).trans (progress_add ..)
    · exact progress_observe ..
    · exact progress_execute ..

end Stepping

section Loop

/-- While nothing changed, the instances passed over so far add nothing. -/
def Settled (ctx : Context O) (state : Eval O × ℕ) : Prop :=
  state.1.changed = false → ∀ i < state.2, Same state.1 (state.1.step ctx i)

theorem Settled.next {state state' : Eval O × ℕ} (settled : Settled ctx state) (moves : next ctx state = some state') :
    Settled ctx state' := by
  obtain ⟨st, i⟩ := state
  simp only [Eval.next] at moves
  split_ifs at moves with inside changed
  · obtain rfl := Option.some.inj moves
    intro quiet j below
    have progress := progress_step ctx st i
    have same := progress.same_of_quiet quiet
    have before : st.changed = false := by
      rcases progress.moves with ⟨-, kept⟩ | ⟨-, said⟩
      · exact kept ▸ quiet
      · exact absurd (said.symm.trans quiet) (by simp)
    have still : Same st (st.step ctx j) := by
      rcases Nat.lt_succ_iff_lt_or_eq.mp below with earlier | rfl
      · exact settled before j earlier
      · exact same
    exact (same.symm.trans still).trans (same.step j)
  · obtain rfl := Option.some.inj moves
    exact fun _ j below => absurd below (by simp)

/-- When the loop stops, no instance of the state it stops in adds anything. -/
theorem settled_of_run {fuel : ℕ} {state : Eval O × ℕ} {st : Eval O} (settled : Settled ctx state)
    (stops : run ctx fuel state = some st) :
    st.changed = false ∧ ∀ i < st.instances.length, Same st (st.step ctx i) := by
  induction fuel generalizing state with
  | zero => simp [run] at stops
  | succ fuel ih =>
    unfold run at stops
    cases moves : next ctx state with
    | some state' =>
      rw [moves] at stops
      exact ih (settled.next moves) stops
    | none =>
      rw [moves] at stops
      obtain rfl := Option.some.inj stops
      obtain ⟨st, i⟩ := state
      simp only [Eval.next] at moves
      split_ifs at moves with inside changed
      have quiet : st.changed = false := by simpa using changed
      exact ⟨quiet, fun j below => settled quiet j (lt_of_lt_of_le below (not_lt.mp inside))⟩

/-- The outcome of an evaluation is closed: no step of any instance adds to it. -/
theorem settled_of_evaluate {fuel : ℕ} {st : Eval O} (stops : evaluate ctx fuel = some st) :
    st.changed = false ∧ ∀ i < st.instances.length, Same st (st.step ctx i) :=
  settled_of_run (fun _ i below => absurd below (by simp)) stops

theorem extends_next {state state' : Eval O × ℕ} (moves : next ctx state = some state') :
    Extends state.1.instances state'.1.instances := by
  obtain ⟨st, i⟩ := state
  simp only [Eval.next] at moves
  split_ifs at moves
  · obtain rfl := Option.some.inj moves
    exact (progress_step ctx st i).grows
  · obtain rfl := Option.some.inj moves
    exact .refl _

/-- The instances of a state are still there when the loop stops. -/
theorem extends_run {fuel : ℕ} {state : Eval O × ℕ} {st : Eval O} (stops : run ctx fuel state = some st) :
    Extends state.1.instances st.instances := by
  induction fuel generalizing state with
  | zero => simp [run] at stops
  | succ fuel ih =>
    unfold run at stops
    cases moves : next ctx state with
    | some state' =>
      rw [moves] at stops
      exact (extends_next moves).trans (ih stops)
    | none =>
      rw [moves] at stops
      obtain rfl := Option.some.inj stops
      exact .refl _

end Loop

end Eval

end Ctadl.Semantics
