import Ctadl.Semantics.Assign
import Ctadl.Semantics.Progress

/-! # The outcome is closed under the rules

An evaluation stops when no step of any instance adds anything. A step is a chain of moves that only ever
add, so none of its parts adds anything either: every seed and every statement of every instance is
already accounted for, and every label an assignment would carry is already there.
-/

set_option linter.unusedSectionVars false

namespace Ctadl.Semantics

open Cir

variable {O : Type} [DecidableEq O] [Add O] [Neg O] [OfNat O 0] {ctx : Context O} {st a b c : Eval O}

namespace Eval

theorem Progress.weight_le (progress : Progress a b) : a.weight ≤ b.weight := by
  rcases progress.moves with ⟨same, -⟩ | ⟨more, -⟩
  · exact (Progress.weight_eq same).le
  · exact more.le

/-- Where two moves together do nothing, the first does nothing. -/
theorem Progress.same_first (ab : Progress a b) (bc : Progress b c) (same : Same a c) : Same a b := by
  rcases ab.moves with ⟨first, -⟩ | ⟨more, -⟩
  · exact first
  · have weights := Progress.weight_eq same
    have later := bc.weight_le
    omega

/-- Where a loop does nothing, none of its steps does anything. -/
theorem Same.of_foldl {α : Type} {f : Eval O → α → Eval O} {items : List α} (same : Same st (items.foldl f st))
    (progress : ∀ st, ∀ x ∈ items, Progress st (f st x))
    (congr : ∀ {a b}, Same a b → ∀ x ∈ items, Same (f a x) (f b x)) : ∀ x ∈ items, Same st (f st x) := by
  induction items generalizing st with
  | nil => exact fun x member => absurd member (by simp)
  | cons x rest ih =>
    have later : ∀ st, Progress st (rest.foldl f st) := fun st =>
      Progress.foldl (fun st y member => progress st y (.tail _ member)) st
    have first : Same st (f st x) := (progress st x (.head _)).same_first (later _) same
    have others := ih (first.symm.trans same) (fun st y member => progress st y (.tail _ member))
      (fun same y member => congr same y (.tail _ member))
    intro y member
    rcases List.mem_cons.mp member with rfl | member
    · exact first
    · exact (first.trans (others y member)).trans (congr first.symm y (.tail _ member))

/-- The function an instance is of. -/
def functionOf (ctx : Context O) (st : Eval O) (inst : ℕ) : Option (FunctionData O) :=
  st.instances[inst]?.bind fun i => ctx.functionAt i.program i.function

/-- The labels a seed places in an instance. -/
def placeSeed (ctx : Context O) (inst : ℕ) (st : Eval O) (seed : Seed O) : Eval O :=
  (st.add ctx.config (st.var ctx inst seed.path.base) seed.path.segments (.taint seed.label) .all).add ctx.config
    (st.var ctx inst seed.path.base) (concat seed.path.segments [.value]) (.taint seed.label) .all

/-- A state that no rule adds to: the seeds of every instance are placed, its observers have observed and
its statements are executed. -/
structure Closed (ctx : Context O) (st : Eval O) : Prop where
  seeds : ∀ {inst f}, st.functionOf ctx inst = some f → ∀ seed ∈ ctx.ports.seeds, seed.function = f.name →
    Same st (placeSeed ctx inst st seed)
  observers : ∀ {inst f}, st.functionOf ctx inst = some f → ∀ obs ∈ ctx.ports.observers, obs.function = f.name →
    Same st (st.observe ctx inst obs.path obs.name)
  statements : ∀ {inst f}, st.functionOf ctx inst = some f → ∀ {b block}, f.blocks[b]? = some block →
    ∀ {i stmt}, block.statements[i]? = some stmt → Same st (execute ctx inst b i st stmt)

theorem Same.placeSeed (same : Same a b) (inst : ℕ) (seed : Seed O) :
    Same (placeSeed ctx inst a seed) (placeSeed ctx inst b seed) := by
  unfold Eval.placeSeed
  simp only [same.var]
  exact (same.add ..).add ..

theorem progress_placeSeed (inst : ℕ) (st : Eval O) (seed : Seed O) : Progress st (placeSeed ctx inst st seed) :=
  (progress_add ..).trans (progress_add ..)

/-- The three loops of a pass over an instance. -/
theorem step_eq {inst : ℕ} {f : FunctionData O} (here : st.functionOf ctx inst = some f) :
    st.step ctx inst =
      f.blocks.zipIdx.foldl (fun st block => block.1.statements.zipIdx.foldl (fun st stmt =>
        execute ctx inst block.2 stmt.2 st stmt.1) st)
      ((ctx.ports.observers.filter fun obs => obs.function = f.name).foldl (fun st obs =>
          st.observe ctx inst obs.path obs.name)
        ((ctx.ports.seeds.filter fun seed => seed.function = f.name).foldl (placeSeed ctx inst) st)) := by
  unfold functionOf at here
  unfold Eval.step
  rw [here]
  rfl

/-- The outcome of an evaluation is closed. -/
theorem closed_of_evaluate {fuel : ℕ} (stops : evaluate ctx fuel = some st) : Closed ctx st := by
  have settled := (settled_of_evaluate stops).2
  have parts : ∀ {inst f}, st.functionOf ctx inst = some f →
      (∀ seed ∈ ctx.ports.seeds.filter fun seed => seed.function = f.name, Same st (placeSeed ctx inst st seed)) ∧
      (∀ obs ∈ ctx.ports.observers.filter fun obs => obs.function = f.name,
        Same st (st.observe ctx inst obs.path obs.name)) ∧
      ∀ block ∈ f.blocks.zipIdx, ∀ stmt ∈ block.1.statements.zipIdx,
        Same st (execute ctx inst block.2 stmt.2 st stmt.1) := by
    intro inst f here
    have below : inst < st.instances.length := by
      by_contra outside
      simp [functionOf, List.getElem?_eq_none (not_lt.mp outside)] at here
    have same := settled inst below
    rw [step_eq here] at same
    have progressSeeds : ∀ st : Eval O, Progress st
        ((ctx.ports.seeds.filter fun seed => seed.function = f.name).foldl (placeSeed ctx inst) st) :=
      fun st => Progress.foldl (fun st seed _ => progress_placeSeed inst st seed) st
    have progressObservers : ∀ st : Eval O, Progress st
        ((ctx.ports.observers.filter fun obs => obs.function = f.name).foldl (fun st obs =>
          st.observe ctx inst obs.path obs.name) st) :=
      fun st => Progress.foldl (fun st obs _ => progress_observe ..) st
    have progressBlock : ∀ (block : BasicBlockData O × ℕ) (st : Eval O), Progress st
        (block.1.statements.zipIdx.foldl (fun st stmt => execute ctx inst block.2 stmt.2 st stmt.1) st) :=
      fun block st => Progress.foldl (fun st stmt _ => progress_execute ..) st
    have progressBlocks : ∀ st : Eval O, Progress st (f.blocks.zipIdx.foldl (fun st block =>
        block.1.statements.zipIdx.foldl (fun st stmt => execute ctx inst block.2 stmt.2 st stmt.1) st) st) :=
      fun st => Progress.foldl (fun st block _ => progressBlock block st) st
    have seeds := (progressSeeds st).same_first ((progressObservers _).trans (progressBlocks _)) same
    have after := seeds.symm.trans same
    have observed := (progressObservers _).same_first (progressBlocks _) after
    have executed := observed.symm.trans after
    refine ⟨?_, ?_, fun block member => ?_⟩
    · exact seeds.of_foldl (fun st seed _ => progress_placeSeed inst st seed) fun same seed _ => same.placeSeed inst seed
    · intro obs member
      have each := observed.of_foldl (fun st obs _ => progress_observe ..) (fun same obs _ => same.observe ..) obs member
      exact (seeds.trans each).trans (seeds.symm.observe ..)
    · have start := seeds.trans observed
      have each := executed.of_foldl (fun st block _ => progressBlock block st)
        (fun same block _ => same.foldl fun same stmt _ => same.execute ..) block member
      have block := (start.trans each).trans (start.symm.foldl fun same stmt _ => same.execute ..)
      exact block.of_foldl (fun st stmt _ => progress_execute ..) fun same stmt _ => same.execute ..
  refine ⟨fun here seed member named => ?_, fun here obs member named => ?_, fun {inst f} here {b block} at?
    {i stmt} there => ?_⟩
  · exact (parts here).1 seed (List.mem_filter.mpr ⟨member, by simpa using named⟩)
  · exact (parts here).2.1 obs (List.mem_filter.mpr ⟨member, by simpa using named⟩)
  · exact (parts here).2.2 (block, b) (List.mk_mem_zipIdx_iff_getElem?.mpr at?) (stmt, i)
      (List.mk_mem_zipIdx_iff_getElem?.mpr there)

end Eval

section Carried

variable {config : Config} {dst src var : Var} {d s p q : List (PathSegment O)} {label : Label} {scope sc : Scope}
  {store : Bool}

theorem Eval.Same.holds (same : a.Same b) : a.Holds = b.Holds := by
  funext v p l sc
  rw [Eval.Holds, Eval.Holds, same.cells]

/-- A label whose addition adds nothing is there. -/
theorem holds_of_same_add (same : st.Same (st.add config var p label scope)) (location : classify p = .location)
    (short : p.length ≤ config.pathBound) : st.Holds var p label scope := by
  rw [same.holds]
  exact holds_add.mpr (.inr ⟨location, short, rfl, rfl, rfl, Scope.le_refl _⟩)

/-- The two loops of an assignment that adds nothing add nothing. -/
private theorem same_loops (same : st.Same (st.assign config dst d src s store))
    (apart : ¬ (classify d = .void ∨ classify s = .void)) :
    st.Same (st.forward config dst d src s (if store then .all else .fixed)) ∧
      st.Same (st.backward config dst d src s) := by
  rw [Eval.assign, if_neg apart] at same
  have forward : Eval.Progress st (st.forward config dst d src s (if store then .all else .fixed)) :=
    Eval.Progress.foldl (fun st e _ => Eval.Progress.foldl (fun st target _ => Eval.progress_add ..) st) st
  have backward : ∀ st : Eval O, Eval.Progress st (st.backward config dst d src s) := fun st =>
    Eval.Progress.foldl (fun st e _ => by
      cases backwardTarget d s e.path with
      | none => exact .refl st
      | some target => exact Eval.progress_add ..) st
  have first := forward.same_first (backward _) same
  refine ⟨first, ?_⟩
  have rest := first.symm.trans same
  unfold Eval.backward at rest ⊢
  rw [← first.cells] at rest
  refine first.trans (rest.trans (first.symm.foldl fun same e _ => ?_))
  cases backwardTarget d s e.path with
  | none => exact same
  | some target => exact same.add ..

/-- Forward: the labels of the source are at every target within the bound. -/
theorem holds_forward_of_same (same : st.Same (st.assign config dst d src s store))
    (apart : ¬ (classify d = .void ∨ classify s = .void)) (held : st.Holds src p label .fixed)
    (goes : q ∈ forwardTargets d s p) (location : classify q = .location) (short : q.length ≤ config.pathBound) :
    st.Holds dst q label (if store then .all else .fixed) := by
  obtain ⟨e, here, rfl, rfl, rfl, -⟩ := held
  have loop := (same_loops same apart).1
  unfold Eval.forward at loop
  have entry := loop.of_foldl
    (fun st e _ => Eval.Progress.foldl (fun st target _ => Eval.progress_add ..) st)
    (fun same e _ => same.foldl fun same target _ => same.add ..) e (List.mem_filter.mpr ⟨here, by simp⟩)
  have target := entry.of_foldl (fun st target _ => Eval.progress_add ..) (fun same target _ => same.add ..) q goes
  exact holds_of_same_add target location short

/-- Backward: the labels of scope `all` at the destination are at the target within the bound. -/
theorem holds_backward_of_same (same : st.Same (st.assign config dst d src s store))
    (apart : ¬ (classify d = .void ∨ classify s = .void)) (held : st.Holds dst p label .all)
    (goes : backwardTarget d s p = some q) (location : classify q = .location) (short : q.length ≤ config.pathBound) :
    st.Holds src q label .all := by
  obtain ⟨e, here, rfl, rfl, rfl, all⟩ := held
  have scope : e.scope = .all := by cases h : e.scope <;> simp_all [Scope.le]
  have loop := (same_loops same apart).2
  unfold Eval.backward at loop
  have entry := loop.of_foldl
    (fun st e _ => by
      cases backwardTarget d s e.path with
      | none => exact .refl st
      | some target => exact Eval.progress_add ..)
    (fun same e _ => by
      cases backwardTarget d s e.path with
      | none => exact same
      | some target => exact same.add ..) e (List.mem_filter.mpr ⟨here, by simp [scope]⟩)
  rw [goes] at entry
  exact holds_of_same_add entry location short

end Carried

end Ctadl.Semantics
