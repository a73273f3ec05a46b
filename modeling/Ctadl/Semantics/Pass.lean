import Ctadl.Semantics.Interpretation

/-! # Passes over the functions of a program

A pass rewrites every function on its own and keeps its name, its parameters and whether it has a body.
An interpretation of the programs before the pass is read off one of the programs after it: with the same
instances and the same observations, and calls found at the place the pass moved them to. What is left to
say for a pass is where its labels come from and that its statements are closed under them.
-/

set_option linter.unusedSectionVars false

namespace Ctadl.Semantics

open Cir

variable {O : Type}

/-- What every pass keeps of a function. -/
structure KeepsShape (pass : FunctionData O → FunctionData O) : Prop where
  name : ∀ f, (pass f).name = f.name
  params : ∀ f, (pass f).params = f.params
  body : ∀ f, (pass f).blocks.isEmpty = f.blocks.isEmpty

/-- The programs after a pass, to be evaluated with another path bound. -/
def Context.after (pass : FunctionData O → FunctionData O) (bound : ℕ) (ctx : Context O) : Context O where
  programs := ctx.programs.map fun program => { program with functions := program.functions.map pass }
  ports := ctx.ports
  config := { ctx.config with pathBound := bound }

namespace Context

variable {pass : FunctionData O → FunctionData O} {bound : ℕ} {ctx : Context O}

theorem functionAt_after (program function : ℕ) :
    (ctx.after pass bound).functionAt program function = (ctx.functionAt program function).map pass := by
  simp only [functionAt, after, List.getElem?_map]
  cases ctx.programs[program]? with
  | none => rfl
  | some p => simp

theorem bodies_after (keeps : KeepsShape pass) :
    (ctx.after pass bound).bodies = ctx.bodies.map fun body => (body.1, pass body.2) := by
  simp only [bodies, after, List.zipIdx_map, List.flatMap_map, List.map_flatMap]
  refine List.flatMap_congr fun program _ => ?_
  rw [Prod.map_fst, List.zipIdx_map, List.filterMap_map, List.map_filterMap]
  refine List.filterMap_congr fun f _ => ?_
  simp only [Function.comp_apply, Prod.map, id, keeps.body]
  split_ifs <;> rfl

theorem byName_after (keeps : KeepsShape pass) (name : String) : (ctx.after pass bound).byName name = ctx.byName name := by
  simp only [byName, bodies_after keeps, List.find?_map, Option.map_map]
  simp [Function.comp_def, keeps.name]

end Context

/-- Instances and observations as in an interpretation of the programs after a pass, with calls at the
places the pass moved them to. -/
def Interpretation.before (I' : Interpretation O) (place : ℕ → ℕ → ℕ → ℕ) (labels : Labeling O) : Interpretation O where
  frame := I'.frame
  child n key := I'.child n (key.1, place n key.1 key.2.1, key.2.2)
  labels := labels
  observed := I'.observed

section Before

variable [DecidableEq O] [Add O] [Neg O] [OfNat O 0] {ctx : Context O} {pass : FunctionData O → FunctionData O} {bound : ℕ}
  {I' : Interpretation O} {place : ℕ → ℕ → ℕ → ℕ} {labels : Labeling O} {n : ℕ}

namespace Interpretation

/-- A pass changes no variable. -/
theorem var_before (pass : FunctionData O → FunctionData O) (bound : ℕ) (v : VariableRef) : (I'.before place labels).var ctx n v = I'.var (ctx.after pass bound) n v := by
  unfold var
  cases v.var with
  | localVar | paramVar => rfl
  | globalVar idx =>
    simp only [before, Context.after]
    cases frame : I'.frame n with
    | none => rfl
    | some fr =>
      simp only [Option.bind_some, List.getElem?_map]
      cases ctx.programs[fr.program]? <;> rfl

theorem functionOf_after (place : ℕ → ℕ → ℕ → ℕ) (labels : Labeling O) : I'.functionOf (ctx.after pass bound) n = ((I'.before place labels).functionOf ctx n).map pass := by
  unfold functionOf
  change _ = ((I'.frame n).bind _).map pass
  cases I'.frame n with
  | none => rfl
  | some fr => exact Context.functionAt_after ..

/-- What is seen before a pass is seen after it, where the paths read say so. -/
theorem Observes.before (keeps : KeepsShape pass) {ap ap' : AccessPath O} {site : String}
    (observes : I'.Observes (ctx.after pass bound) n ap' site)
    (seen : ∀ label, (I'.before place labels).Seen ctx n ap label → I'.Seen (ctx.after pass bound) n ap' label) :
    (I'.before place labels).Observes ctx n ap site := by
  intro name here
  have there := observes name (seen _ here)
  rw [functionOf_after place labels, Option.map_map] at there
  have same : (FunctionData.name ∘ pass : FunctionData O → String) = FunctionData.name := funext keeps.name
  rwa [same] at there

/-- A call before a pass, from the call after it. -/
theorem CallClosed.before (keeps : KeepsShape pass) {block statement info : ℕ} {rets : List VariableRef}
    {args args' : List (Exp O)} {name : String}
    (closed : I'.CallClosed (ctx.after pass bound) n block (place n block statement) info rets args' name)
    (sameLabel : sourceLabel name args' = sourceLabel name args) (sameSite : sinkSite info name args' = sinkSite info name args)
    (placed : ∀ r ∈ rets, ∀ p ∈ [[], [PathSegment.value]], ∀ label,
      Placed (ctx.after pass bound).config I'.labels (I'.var (ctx.after pass bound) n r) p label .all →
      Placed ctx.config labels ((I'.before place labels).var ctx n r) p label .all)
    (seen : ∀ ap ∈ args.head?.bind Exp.accessPath, ∃ ap' ∈ args'.head?.bind Exp.accessPath, ∀ label,
      (I'.before place labels).Seen ctx n ap label → I'.Seen (ctx.after pass bound) n ap' label)
    (passed : ∀ c f, (I'.before place labels).functionOf ctx c = some f →
      I'.Passed (ctx.after pass bound) n c (pass f) rets args' → (I'.before place labels).Passed ctx n c f rets args) :
    (I'.before place labels).CallClosed ctx n block statement info rets args name := by
  unfold CallClosed at closed ⊢
  have ports : (ctx.after pass bound).ports = ctx.ports := rfl
  rw [ports, Context.byName_after keeps] at closed
  split_ifs at closed ⊢ with asSource asSink
  · intro r first
    obtain ⟨bare, value⟩ := closed r first
    rw [sameLabel] at bare value
    have member := List.mem_of_mem_head? first
    exact ⟨placed r member [] (by simp) _ bare, placed r member [.value] (by simp) _ value⟩
  · intro ap first
    obtain ⟨ap', first', sees⟩ := seen ap first
    have observes := closed ap' first'
    rw [sameSite] at observes
    exact observes.before keeps sees
  · intro callee found fr frame shallow
    obtain ⟨c, child, frame', passes⟩ := closed callee found fr frame shallow
    refine ⟨c, child, frame', fun f here => ?_⟩
    refine passed c f ?_ (passes (pass f) ?_)
    · change ((I'.frame c).bind _) = some f
      rw [frame']
      exact here
    · rw [Context.functionAt_after, here]
      rfl

/-- Every function with a body is a root before the pass too. -/
theorem Models.roots_before (keeps : KeepsShape pass) (models : I'.Models (ctx.after pass bound)) :
    ∀ body ∈ ctx.bodies, ∃ n, (I'.before place labels).frame n = some ⟨body.1.1, body.1.2, 0⟩ := by
  intro body member
  have there : (body.1, pass body.2) ∈ (ctx.after pass bound).bodies := by
    rw [Context.bodies_after keeps]
    exact List.mem_map_of_mem member
  exact models.roots (body.1, pass body.2) there

end Interpretation

end Before

end Ctadl.Semantics
