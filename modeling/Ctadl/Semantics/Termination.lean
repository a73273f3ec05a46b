import Ctadl.Semantics.Closed
import Ctadl.Semantics.Universe

/-! # Every evaluation stops

With finitely many offsets the universe of an evaluation is finite, and every move of its loop finds
something new, ends a round or passes over one more instance. The path bound alone does not make the
universe finite: where offsets are unbounded integers, a loop that moves a pointer labels one more
location in every round.
-/

namespace Ctadl.Semantics

open Cir

variable {O : Type}

namespace Context

variable {ctx : Context O}

theorem finite_vars (ctx : Context O) : {v | ctx.VarIn v}.Finite := by
  have named : (({i | i < ctx.limit} ×ˢ {ap | ap ∈ ctx.accessPaths}).image
      fun pair : ℕ × AccessPath O => ((.inst pair.1, pair.2.base) : Var)).Finite :=
    ((Set.finite_lt_nat _).prod (List.finite_toSet _)).image _
  have shared : (Set.image (fun name => ((.globalName name, .new (.globalVar 0)) : Var)) {g | g ∈ ctx.globals}).Finite :=
    (List.finite_toSet _).image _
  refine (named.union shared).subset ?_
  rintro v (⟨i, below, r, ⟨ap, known, rfl⟩, rfl⟩ | ⟨name, known, rfl⟩)
  · exact .inl ⟨(i, ap), ⟨below, known⟩, rfl⟩
  · exact .inr ⟨name, known, rfl⟩

/-- Paths of known fields and bounded length are finitely many when offsets are. -/
theorem finite_paths [Finite O] (ctx : Context O) :
    {p | ctx.PathIn p ∧ p.length ≤ ctx.config.pathBound}.Finite := by
  let segments : Set (PathSegment O) :=
    Set.range .offset ∪ {.deref, .value} ∪ {a | a ∈ ctx.accessPaths.flatMap AccessPath.segments}
  have finite : segments.Finite :=
    ((Set.finite_range _).union (Set.toFinite _)).union (List.finite_toSet _)
  have : Finite segments := finite
  refine ((List.finite_length_le segments ctx.config.pathBound).image (List.map Subtype.val)).subset ?_
  rintro p ⟨known, short⟩
  have inside : ∀ a ∈ p, a ∈ segments := by
    intro a member
    cases a with
    | field name =>
      obtain ⟨ap, apIn, here⟩ := known name member
      exact .inr (List.mem_flatMap.mpr ⟨ap, apIn, here⟩)
    | offset k => exact .inl (.inl ⟨k, rfl⟩)
    | deref | value => exact .inl (.inr (by simp))
  exact ⟨p.attach.map fun a => ⟨a.1, inside a.1 a.2⟩, by simpa using short, by simp⟩

end Context

namespace Eval

section Bound

variable {ctx : Context O}

/-- The name a taint is observed under; the other labels are not observed. -/
def taintName : Label → String
  | .taint name => name
  | .target _ | .cls _ | .str _ => ""

/-- What a state within the universe has found is bounded. -/
theorem weight_bounded [Finite O] (ctx : Context O) : ∃ bound, ∀ st, Within ctx st → st.weight ≤ bound := by
  classical
  have keys := (ctx.finite_vars).prod (ctx.finite_paths.prod (List.finite_toSet ctx.labels))
  let seen : Finset Observation := ctx.names.toFinset.biUnion fun f => ctx.sites.toFinset.biUnion fun s =>
    ctx.labels.toFinset.image fun label => ⟨f, s, taintName label⟩
  refine ⟨2 * keys.toFinset.card + seen.card + ctx.limit, fun st within => ?_⟩
  have cells : st.cells.length ≤ keys.toFinset.card := by
    have length : st.cells.length = (st.cells.map fun e => (e.var, e.path, e.label)).toFinset.card := by
      rw [List.toFinset_card_of_nodup within.distinct, List.length_map]
    rw [length]
    refine Finset.card_le_card fun key member => ?_
    obtain ⟨e, here, rfl⟩ := List.mem_map.mp (List.mem_toFinset.mp member)
    have known := within.cells e here
    exact keys.mem_toFinset.mpr ⟨known.var, ⟨known.path, known.short⟩, known.label⟩
  have weights : (st.cells.map entryWeight).sum ≤ st.cells.length * 2 := by
    have each : ∀ w ∈ st.cells.map entryWeight, w ≤ 2 := by
      intro w member
      obtain ⟨e, -, rfl⟩ := List.mem_map.mp member
      cases scope : e.scope <;> simp [entryWeight, scope]
    simpa using List.sum_le_card_nsmul _ _ each
  have observed : st.observed.card ≤ seen.card := by
    refine Finset.card_le_card fun o member => ?_
    obtain ⟨name, site, label⟩ := within.observed o member
    simp only [seen, Finset.mem_biUnion, Finset.mem_image, List.mem_toFinset]
    exact ⟨o.function, name, o.site, site, .taint o.label, label, rfl⟩
  have instances := within.bounded
  unfold weight
  omega

end Bound

section Loop

variable [DecidableEq O] [Add O] [Neg O] [OfNat O 0] {ctx : Context O}

omit [DecidableEq O] [Add O] [Neg O] [OfNat O 0] in
theorem Within.instances_le {st : Eval O} (within : Within ctx st) : st.instances.length ≤ ctx.limit :=
  (Nat.le_add_right _ _).trans within.bounded

/-- A move keeps the state within the universe. -/
theorem Within.next {state state' : Eval O × ℕ} (within : Within ctx state.1) (moves : next ctx state = some state') :
    Within ctx state'.1 := by
  obtain ⟨st, i⟩ := state
  simp only [Eval.next] at moves
  split_ifs at moves with inside changed
  · obtain rfl := Option.some.inj moves
    exact within.step (lt_of_lt_of_le inside within.instances_le)
  · obtain rfl := Option.some.inj moves
    exact within.report ⟨rfl, rfl, rfl⟩

/-- The loop stops: a move finds something new, ends a round or passes over one more instance. -/
theorem run_stops {bound : ℕ} (bounded : ∀ st, Within ctx st → st.weight ≤ bound) (st : Eval O) (i : ℕ)
    (within : Within ctx st) : ∃ fuel out, run ctx fuel (st, i) = some out := by
  by_cases inside : i < st.instances.length
  · obtain ⟨fuel, out, stops⟩ := run_stops bounded (st.step ctx i) (i + 1)
      (within.step (lt_of_lt_of_le inside within.instances_le))
    exact ⟨fuel + 1, out, by simpa [run, Eval.next, inside] using stops⟩
  · by_cases changed : st.changed = true
    · obtain ⟨fuel, out, stops⟩ := run_stops bounded { st with changed := false } 0 (within.report ⟨rfl, rfl, rfl⟩)
      exact ⟨fuel + 1, out, by simpa [run, Eval.next, inside, changed] using stops⟩
    · exact ⟨1, st, by simp [run, Eval.next, inside, changed]⟩
termination_by (bound - st.weight, st.changed.toNat, st.instances.length - i)
decreasing_by
  · have below := bounded _ (within.step (lt_of_lt_of_le inside within.instances_le))
    rcases (progress_step ctx st i).moves with ⟨same, kept⟩ | ⟨more, -⟩
    · rw [← Progress.weight_eq same, kept, ← same.instances]
      exact .right _ (.right _ (by omega))
    · exact .left _ _ (by omega)
  · rw [changed]
    exact .right _ (.left _ _ (by decide))

/-- The states of an evaluation, with the instance it is at. -/
def Reached (ctx : Context O) (state : Eval O × ℕ) : Prop :=
  Relation.ReflTransGen (fun a b => next ctx a = some b) (.new ctx, 0) state

theorem Reached.within {state : Eval O × ℕ} (reached : Reached ctx state) : Within ctx state.1 := by
  induction reached with
  | refl => exact .new
  | tail _ moves ih => exact ih.next moves

theorem terminates_of_finite [Finite O] (ctx : Context O) :
    (∃ cells : Set (Var × List (PathSegment O)), cells.Finite ∧
      ∀ state, Reached ctx state → ∀ e ∈ state.1.cells, (e.var, e.path) ∈ cells) ∧
    ∃ fuel st, evaluate ctx fuel = some st ∧ st.changed = false ∧
      ∀ i < st.instances.length, Same st (st.step ctx i) := by
  constructor
  · refine ⟨_, ctx.finite_vars.prod ctx.finite_paths, fun state reached e here => ?_⟩
    have known := reached.within.cells e here
    exact ⟨known.var, known.path, known.short⟩
  · obtain ⟨bound, bounded⟩ := weight_bounded ctx
    obtain ⟨fuel, st, stops⟩ := run_stops bounded (.new ctx) 0 .new
    exact ⟨fuel, st, stops, settled_of_evaluate stops⟩

end Loop

instance : Finite Int64 := Finite.of_injective (fun n : Int64 => n.toBitVec.toFin) fun a b same => by
  exact Int64.toBitVec_inj.mp (BitVec.toFin_inj.mp same)

/-- Every evaluation of 64-bit programs stops: finitely many cells can ever be labelled, the loop ends, and
no step of any instance adds anything to the state it ends in. -/
theorem evaluate_terminates (ctx : Context) :
    (∃ cells : Set (Var × List PathSegment), cells.Finite ∧
      ∀ state, Reached ctx state → ∀ e ∈ state.1.cells, (e.var, e.path) ∈ cells) ∧
    ∃ fuel st, evaluate ctx fuel = some st ∧ st.changed = false ∧
      ∀ i < st.instances.length, Same st (st.step ctx i) :=
  terminates_of_finite ctx

section Scan

private def formal : VariableRef := .new (.paramVar 0)

private def pointer (version : ℕ) : VariableRef := (VariableRef.new (.localVar 0)).withVersion version

/-- `for (x = p; ; x += 8)`, in static single assignment form. -/
private def scan : FunctionData ℤ where
  name := "scan"
  params := [.copied]
  returnArity := 0
  blocks :=
    [{ statements :=
        [.assign (.ofRef (formal.withVersion 0)) [.path (.ofRef formal)],
          .assign (.ofRef (pointer 1)) [.path (.ofRef (formal.withVersion 0))]]
       terminator := some (.goto [1, 2]) },
      { statements :=
          [.phi (pointer 2) [(0, pointer 1), (1, pointer 3)],
            .assign (.ofRef (pointer 3)) [.path ⟨pointer 2, [.offset 8]⟩]]
        terminator := some (.goto [1, 2]) },
      { statements := [], terminator := some (.ret []) }]
  locals := ["x"]

/-- A label at the memory the parameter points to. -/
private def scanContext : Context ℤ where
  programs := [{ globals := [], functions := [scan] }]
  ports := { sources := [], sinks := [], seeds := [⟨"scan", ⟨formal, [.deref]⟩, "a"⟩], observers := [] }
  config := ⟨6, 5⟩

/-- The memory so many elements before the pointer. -/
private def before : ℕ → List (PathSegment ℤ)
  | 0 => [.deref]
  | n + 1 => [.offset (-8 * (n + 1)), .deref]

private theorem strip_element {k : ℤ} (nonzero : k ≠ 0) (apart : -8 + k ≠ 0) :
    stripPrefix [.offset k, .deref] [.offset 8] = some [.offset (-8 + k), .deref] := by
  have moved : concat (Cir.normalize [.offset (-8)]) [.offset k, .deref] = [.offset (-8 + k), .deref] := by
    simp [Cir.normalize, concat, pushNormalized, apart]
  have back : concat [.offset 8] [.offset (-8 + k), .deref] = [.offset k, .deref] := by
    have sum : 8 + (-8 + k) = k := by omega
    simp [concat, pushNormalized, sum, nonzero]
  simp [stripPrefix, moved, back]

private theorem concat_element {k : ℤ} (nonzero : k ≠ 0) :
    concat [] [.offset k, .deref] = [PathSegment.offset k, .deref] := by
  simp [concat, pushNormalized, nonzero]

private theorem before_mem (n : ℕ) : before (n + 1) ∈ forwardTargets [] [.offset 8] (before n) := by
  have target : stripPrefix (before n) [.offset 8] = some (before (n + 1)) := by
    cases n with
    | zero => decide
    | succ n =>
      have moved : (-8 : ℤ) + -8 * (n + 1) = -8 * ((n + 1 : ℕ) + 1) := by omega
      have stripped := strip_element (k := -8 * ((n : ℤ) + 1)) (by omega) (by omega)
      rw [moved] at stripped
      exact stripped
  have whole : concat [] (before (n + 1)) = before (n + 1) := concat_element (by omega)
  simp [forwardTargets, target, whole]

private theorem before_copied (n : ℕ) : before n ∈ forwardTargets [] [] (before n) := by
  have whole : concat [] (before n) = before n := by
    cases n with
    | zero => decide
    | succ n => exact concat_element (by omega)
  simp [forwardTargets, stripPrefix, whole]

private theorem before_location (n : ℕ) : classify (before n) = .location ∧ (before n).length ≤ 6 := by
  cases n with
  | zero => decide
  | succ n => simp [before, classify, PathSegment.isValue]

/-- Every state closed under the rules would have a label at every element before the pointer. -/
private theorem holds_before {st : Eval ℤ} (closed : Closed scanContext st)
    (root : st.functionOf scanContext 0 = some scan) (n : ℕ) :
    st.Holds (.inst 0, pointer 2) (before n) (.taint "a") .fixed := by
  have copies : ∀ {dst src : Var} {s p q : List (PathSegment ℤ)},
      st.Same (st.assign ⟨6, 5⟩ dst [] src s false) → classify s ≠ .void → st.Holds src p (.taint "a") .fixed →
        q ∈ forwardTargets [] s p → classify q = .location ∧ q.length ≤ 6 → st.Holds dst q (.taint "a") .fixed := by
    intro dst src s p q same apart held goes ⟨location, short⟩
    exact holds_forward_of_same same (by simp [apart]; decide) held goes location short
  have binding : st.Same (st.assign ⟨6, 5⟩ (.inst 0, formal.withVersion 0) [] (.inst 0, formal) [] false) :=
    closed.statements root (b := 0) rfl (i := 0) rfl
  have start : st.Same (st.assign ⟨6, 5⟩ (.inst 0, pointer 1) [] (.inst 0, formal.withVersion 0) [] false) :=
    closed.statements root (b := 0) rfl (i := 1) rfl
  have move : st.Same (st.assign ⟨6, 5⟩ (.inst 0, pointer 3) [] (.inst 0, pointer 2) [.offset 8] false) :=
    closed.statements root (b := 1) rfl (i := 1) rfl
  have phi := closed.statements root (b := 1) rfl (i := 0) rfl
  have merged : ∀ v : VariableRef, v = pointer 1 ∨ v = pointer 3 →
      st.Same (st.assign ⟨6, 5⟩ (.inst 0, pointer 2) [] (.inst 0, v) [] false) := by
    intro v operand
    have each := phi.of_foldl (fun st operand _ => progress_assign ..) (fun same operand _ => by
      simp only [same.var]
      exact same.assign ..)
    rcases operand with rfl | rfl
    · exact each (0, pointer 1) (.head _)
    · exact each (1, pointer 3) (.tail _ (.head _))
  induction n with
  | zero =>
    have seeded : st.Holds (.inst 0, formal) [.deref] (.taint "a") .all := by
      have placed := closed.seeds root _ (.head _) rfl
      exact holds_of_same_add ((progress_add ..).same_first (progress_add ..) placed) (by decide) (by decide)
    have weaker : st.Holds (.inst 0, formal) [.deref] (.taint "a") .fixed := by
      obtain ⟨e, here, var, path, label, -⟩ := seeded
      exact ⟨e, here, var, path, label, Scope.fixed_le _⟩
    have bound := copies binding (by decide) weaker (before_copied 0) (before_location 0)
    have started := copies start (by decide) bound (before_copied 0) (before_location 0)
    exact copies (merged _ (.inl rfl)) (by decide) started (before_copied 0) (before_location 0)
  | succ n ih =>
    have moved := copies move (by decide) ih (before_mem n) (before_location (n + 1))
    exact copies (merged _ (.inr rfl)) (by decide) moved (before_copied (n + 1)) (before_location (n + 1))

private theorem before_injective : Function.Injective before := by
  intro m n same
  cases m with
  | zero => cases n <;> simp [before] at same ⊢
  | succ m =>
    cases n with
    | zero => simp [before] at same
    | succ n =>
      simp only [before, List.cons.injEq, PathSegment.offset.injEq, and_true] at same
      omega

/-- Over unbounded offsets the loop runs forever on a pointer that is moved in a loop. -/
theorem evaluate_unbounded_runs_forever : ¬ ∃ fuel st, evaluate scanContext fuel = some st := by
  rintro ⟨fuel, st, stops⟩
  have root : st.functionOf scanContext 0 = some scan := by
    obtain ⟨inst, here, frame, -⟩ := extends_run stops 0 ⟨0, 0, 0, []⟩ rfl
    have program : inst.program = 0 := congrArg Frame.program frame
    have function : inst.function = 0 := congrArg Frame.function frame
    simp [functionOf, here, program, function, Context.functionAt, scanContext]
  have held := holds_before (closed_of_evaluate stops) root
  have inside : ∀ n, before n ∈ st.cells.map Entry.path := by
    intro n
    obtain ⟨e, here, -, path, -⟩ := held n
    exact path ▸ List.mem_map_of_mem here
  exact Set.infinite_range_of_injective before_injective
    ((List.finite_toSet (st.cells.map Entry.path)).subset (Set.range_subset_iff.mpr inside))

end Scan

end Eval

end Ctadl.Semantics
