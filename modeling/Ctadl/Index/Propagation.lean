import Ctadl.Index.Termination

/-! # Field propagation by keys

One rule carries local reachability across an edge: a row `v2.p23 <- a.p4` meets an edge
`v1.p1 = v2.p2` when one of `p2` and `p23` is a prefix of the other. The engine never joins on the
vertex alone. It splits every path once, joins on the split, and keeps the expanded edges in relations
of their own. `NaiveRule` is the rule before that unrolling, and the rows of the unrolled relations are
explained by the edges they were split from (`Sourced`). Where unions of conditions are exact, every
derivation by keys is one of the naive rule; every naive derivation between admissible paths is reached
by keys, whatever the configuration.
-/

namespace Ctadl.Index

open Facts Datalog

/-- A row crosses an edge at the same vertex, the one path a prefix of the other. The two paths that
meet are restricted to `known`. -/
inductive NaiveRule (input : EngineInput) (known : Path → Prop) (s : input.State) :
    Row → CondOf input.hybridContext → Prop
  | dst {f v1 p1 v2 p2 p23 a p4 q c1 c2 c} (edge : Held s (.assignLike f v1 p1 v2 p2) c1)
      (row : Held s (.locals f v2 p23 a p4) c2) (both : CondOf.Composes c1 c2 c) (source : known p2)
      (reached : known p23) (moved : p23.substitutePrefix p2 p1 = some q)
      (admissible : q ∈ input.pathSet) : NaiveRule input known s (.locals f v1 q a p4) c
  | fml {f v1 p1 v2 p2 p23 a p4 rest c1 c2 c} (edge : Held s (.assignLike f v1 p1 v2 p2) c1)
      (row : Held s (.locals f v2 p23 a p4) c2) (both : CondOf.Composes c1 c2 c) (source : known p2)
      (reached : known p23) (read : matchPrefix p2 p23 = some rest)
      (admissible : p4.concat rest ∈ input.pathSet) :
      NaiveRule input known s (.locals f v1 p1 a (p4.concat rest)) c

/-- The paths at the ends of an edge, a flow or a summary, and the destination of an expanded edge. -/
def Row.ends : Row → List Path
  | .locals _ _ p _ q => [p, q]
  | .assignLike _ _ p1 _ p2 | .summary _ _ p1 _ p2 | .aliasFlow _ _ p1 _ p2 | .contextSummaryD _ _ _ p1 _ p2 =>
    [p1, p2]
  | .assignWild _ _ _ _ _ p1 | .edgeSplit _ _ _ _ _ p1 | .edgeSplitWild _ _ _ _ _ p1 | .extDst _ _ p1 _ _
  | .extFml _ _ p1 _ _ _ _ => [p1]
  | _ => []

namespace EngineInput

variable {input : EngineInput} {s t : input.State} {r : Row} {c : CondOf input.hybridContext}

section Soundness

/-- What a row of the unrolled relations stands for in the context `x`: a split of its path, or an edge
that holds there and that it was split from. -/
def Stands (s : input.State) (x : Option Decision) : Row → Prop
  | .localsKey _ _ key rest p => p.segs = key.segs ++ rest.segs
  | .localsKeyWild _ _ key rest p => p.segs = key.segs ++ rest.segs ∧ ∃ a l, rest.segs = a :: l ∧ a.soft
  | .localsWild _ _ key m p => p.segs = key.segs ++ [.offset m]
  | .assignWild f v2 key m v1 p1 =>
    ∃ p2 e, Held s (.assignLike f v1 p1 v2 p2) e ∧ e.HoldsIn x ∧ p2.segs = key.segs ++ [.offset m]
  | .edgeSplit f v2 key rest v1 p1 =>
    ∃ p2 e, Held s (.assignLike f v1 p1 v2 p2) e ∧ e.HoldsIn x ∧ p2.segs = key.segs ++ rest.segs
  | .edgeSplitWild f v2 key rest v1 p1 =>
    ∃ p2 e, Held s (.assignLike f v1 p1 v2 p2) e ∧ e.HoldsIn x ∧ p2.segs = key.segs ++ rest.segs ∧
      ∃ a l, rest.segs = a :: l ∧ a.soft
  | .extDst f v1 p13 v2 p23 =>
    ∃ p1 p2 e, Held s (.assignLike f v1 p1 v2 p2) e ∧ e.HoldsIn x ∧ p13 ∈ input.pathSet ∧
      p23.substitutePrefix p2 p1 = some p13
  | .extFml f v1 p1 v2 p23 adj tail =>
    ∃ p2 e, Held s (.assignLike f v1 p1 v2 p2) e ∧ e.HoldsIn x ∧
      ∃ key rest m, WildMatch p2 p23 key rest m adj tail
  | _ => True

/-- Every row stands for something in each context it holds in. -/
def Sourced (s : input.State) : Prop := ∀ r c x, Held s r c → c.HoldsIn x → Stands s x r

theorem Stands.mono {x : Option Decision} (stands : Stands s x r) (le : s ≤ t) : Stands t x r := by
  have raised : ∀ {f v1 p1 v2 p2 e}, Held s (.assignLike f v1 p1 v2 p2) e → e.HoldsIn x →
      ∃ e', Held t (.assignLike f v1 p1 v2 p2) e' ∧ e'.HoldsIn x := by
    intro f v1 p1 v2 p2 e held holds
    obtain ⟨e', held', bound⟩ := held.raise (le _)
    exact ⟨e', held', holds.mono bound⟩
  cases r with
  | assignWild | edgeSplit | edgeSplitWild | extFml =>
    obtain ⟨p2, e, edge, holds, rest⟩ := stands
    obtain ⟨e', edge', holds'⟩ := raised edge holds
    exact ⟨p2, e', edge', holds', rest⟩
  | extDst =>
    obtain ⟨p1, p2, e, edge, holds, rest⟩ := stands
    obtain ⟨e', edge', holds'⟩ := raised edge holds
    exact ⟨p1, p2, e', edge', holds', rest⟩
  | _ => exact stands

/-- What is present holds somewhere. -/
theorem Sourced.of_present (sourced : input.Sourced s) (present : Present s r) : ∃ x, Stands s x r := by
  obtain ⟨c, held⟩ := present.held
  obtain ⟨x, holds⟩ := c.exists_holdsIn
  exact ⟨x, sourced r c x held holds⟩

theorem FieldRule.stands {x : Option Decision} (sourced : input.Sourced s) (fires : FieldRule input s r c)
    (holds : c.HoldsIn x) : Stands s x r := by
  cases fires with
  | localsKey _ split => exact (PathSet.mem_splits_exact.mp split).2
  | localsKeyWild _ split => exact (PathSet.mem_splits_wild.mp split).2
  | localsWild _ split => exact (PathSet.splitTrailingOffset_eq_some.mp split).2
  | assignWild edge split => exact ⟨_, _, edge, holds, (PathSet.splitTrailingOffset_eq_some.mp split).2⟩
  | edgeSplit edge split => exact ⟨_, _, edge, holds, (PathSet.mem_splits_exact.mp split).2⟩
  | edgeSplitWild edge split => exact ⟨_, _, edge, holds, (PathSet.mem_splits_wild.mp split).2⟩
  | extDst keyed edge admissible =>
    obtain ⟨_, split⟩ := sourced.of_present keyed
    obtain ⟨member, rfl⟩ := PathSet.concat_none_eq_some_iff.mp admissible
    refine ⟨_, _, _, edge, holds, member, ?_⟩
    rw [Path.substitutePrefix, matchPrefix_of_exact split, Option.map_some, prependOnto_eq_concat]
  | extDstWild keyed edge wild admissible =>
    obtain ⟨_, long, soft⟩ := sourced.of_present keyed
    obtain ⟨p2, e, edge, holds, short⟩ := sourced _ _ x edge holds
    obtain ⟨suffix, found, lookup⟩ := WildMatch.suffix ⟨long, soft, short, wild⟩
    obtain ⟨member, rfl⟩ := (lookup _ _ _).mp admissible
    refine ⟨_, p2, e, edge, holds, member, ?_⟩
    rw [Path.substitutePrefix, found, Option.map_some, prependOnto_eq_concat]
  | extFml ext keyed wild =>
    obtain ⟨p2, e, edge, holds, long, soft⟩ := sourced _ _ x ext holds
    obtain ⟨_, short⟩ := sourced.of_present keyed
    exact ⟨p2, e, edge, holds, _, _, _, long, soft, short, wild⟩
  | reachVp | localsDst | localsFml | localsFmlWild => trivial

theorem IndexRules.stands {x : Option Decision} (sourced : input.Sourced s) (fires : IndexRules input s r c)
    (holds : c.HoldsIn x) : Stands s x r := by
  cases fires with
  | field fires => exact FieldRule.stands sourced fires holds
  | _ fires => cases fires <;> trivial

theorem sourced_of_run (exact : input.hybridContext.Exact) (run : Run (IndexRules input) input.seed s) :
    input.Sourced s := by
  apply run.preserves (I := input.Sourced)
  · intro r c x held _
    cases r <;> first | trivial | exact absurd held.present (input.not_present_seed rfl)
  · intro s r c sourced fires r' w x held holds
    have grown := s.le_insert r c
    rcases Store.held_insert held with old | ⟨rfl, rfl | ⟨before, old, rfl⟩⟩
    · exact (sourced r' w x old holds).mono grown
    · exact (IndexRules.stands sourced fires holds).mono grown
    · rcases (CondOf.holdsIn_sup exact).mp holds with left | right
      · exact (sourced _ before x old left).mono grown
      · exact (IndexRules.stands sourced fires right).mono grown

/-- A derivation by keys is a naive one in every context it holds in. -/
theorem FieldRule.naive (sourced : input.Sourced s) {f : FunctionId} {v : FlowVariable} {p q : Path} {a : Root}
    (fires : FieldRule input s (.locals f v p a q) c) {x : Option Decision} (holds : c.HoldsIn x) :
    ∃ c', NaiveRule input (fun _ => True) s (.locals f v p a q) c' ∧ c'.HoldsIn x := by
  cases fires with
  | localsDst ext row both =>
    obtain ⟨left, right⟩ := both.holdsIn.mp holds
    obtain ⟨p1, p2, e, edge, holds, member, moved⟩ := sourced _ _ x ext left
    obtain ⟨c', composed, holds'⟩ := CondOf.exists_composes holds right
    exact ⟨c', .dst edge row composed trivial trivial moved member, holds'⟩
  | localsFml ext row both admissible =>
    obtain ⟨left, right⟩ := both.holdsIn.mp holds
    obtain ⟨p2, e, edge, holds, split⟩ := sourced _ _ x ext left
    obtain ⟨c', composed, holds'⟩ := CondOf.exists_composes holds right
    obtain ⟨member, rfl⟩ := PathSet.concat_none_eq_some_iff.mp admissible
    exact ⟨c', .fml edge row composed trivial trivial (matchPrefix_of_exact split) member, holds'⟩
  | localsFmlWild ext row both admissible =>
    obtain ⟨left, right⟩ := both.holdsIn.mp holds
    obtain ⟨p2, e, edge, holds, _, _, _, wild⟩ := sourced _ _ x ext left
    obtain ⟨c', composed, holds'⟩ := CondOf.exists_composes holds right
    obtain ⟨suffix, found, lookup⟩ := wild.suffix
    obtain ⟨member, rfl⟩ := (lookup _ _ _).mp admissible
    exact ⟨c', .fml edge row composed trivial trivial found member, holds'⟩

end Soundness

section Completeness

/-- A naive derivation stays one as the state grows. -/
theorem NaiveRule.mono {known : Path → Prop} (fires : NaiveRule input known s r c) (le : s ≤ t) :
    ∃ c', NaiveRule input known t r c' ∧ c ≤ c' := by
  cases fires with
  | dst edge row both source reached moved admissible =>
    obtain ⟨_, edge, edgeBound⟩ := edge.raise (le _)
    obtain ⟨_, row, rowBound⟩ := row.raise (le _)
    obtain ⟨c', both, bound⟩ := both.mono edgeBound rowBound
    exact ⟨c', .dst edge row both source reached moved admissible, bound⟩
  | fml edge row both source reached read admissible =>
    obtain ⟨_, edge, edgeBound⟩ := edge.raise (le _)
    obtain ⟨_, row, rowBound⟩ := row.raise (le _)
    obtain ⟨c', both, bound⟩ := both.mono edgeBound rowBound
    exact ⟨c', .fml edge row both source reached read admissible, bound⟩

variable (sat : Saturated (FieldRule input) t)

include sat

/-- The expanded edge of every admissible match at a reached path. -/
theorem extDst_of_saturated {f : FunctionId} {v1 v2 : FlowVariable} {p1 p2 p23 q p4 : Path} {a : Root}
    {c1 : CondOf input.hybridContext} (edge : Held t (.assignLike f v1 p1 v2 p2) c1)
    (row : Present t (.locals f v2 p23 a p4)) (source : p2 ∈ input.pathSet) (reached : p23 ∈ input.pathSet)
    (moved : p23.substitutePrefix p2 p1 = some q) (admissible : q ∈ input.pathSet) :
    ∃ c, Held t (.extDst f v1 q v2 p23) c ∧ c1 ≤ c := by
  have vp := sat.present (.reachVp row)
  obtain ⟨suffix, found, rfl⟩ := Option.map_eq_some_iff.mp moved
  rw [prependOnto_eq_concat] at admissible ⊢
  rcases exact_or_wild_of_matchPrefix found with split | ⟨key, rest, m, adj, tail, wild⟩
  · have keyed := sat.present (.localsKey vp (PathSet.mem_splits_exact.mpr ⟨reached, split⟩))
    exact sat.held (.extDst keyed edge (PathSet.concat_none_eq_some_iff.mpr ⟨admissible, rfl⟩))
  · have keyed := sat.present (.localsKeyWild vp (PathSet.mem_splits_wild.mpr ⟨reached, wild.long, wild.soft⟩))
    obtain ⟨c2, trailing, bound⟩ := sat.held (.assignWild edge
      (PathSet.splitTrailingOffset_eq_some.mpr ⟨source, wild.short⟩))
    obtain ⟨suffix', found', lookup⟩ := wild.suffix
    obtain rfl : suffix' = suffix := Option.some.inj (found'.symm.trans found)
    obtain ⟨c3, ext, bound'⟩ := sat.held (.extDstWild keyed trailing wild.wild ((lookup _ _ _).mpr ⟨admissible, rfl⟩))
    exact ⟨c3, ext, bound.trans bound'⟩

/-- A state closed under the keyed rules is closed under the naive one between admissible paths. -/
theorem NaiveRule.covered (fires : NaiveRule input (· ∈ input.pathSet) t r c) :
    (c : WithBot (CondOf input.hybridContext)) ≤ t r := by
  cases fires with
  | dst edge row both source reached moved admissible =>
    obtain ⟨c1, ext, bound⟩ := extDst_of_saturated sat edge row.present source reached moved admissible
    obtain ⟨c', both, bound⟩ := both.mono bound le_rfl
    exact (WithBot.coe_le_coe.mpr bound).trans (sat _ _ (.localsDst ext row both))
  | fml edge row both source reached read admissible =>
    rcases exact_or_wild_of_matchPrefix read with split | ⟨key, rest, m, adj, tail, wild⟩
    · obtain ⟨c1, ext, bound⟩ := sat.held (.edgeSplit edge (PathSet.mem_splits_exact.mpr ⟨source, split⟩))
      obtain ⟨c', both, bound⟩ := both.mono bound le_rfl
      exact (WithBot.coe_le_coe.mpr bound).trans
        (sat _ _ (.localsFml ext row both (PathSet.concat_none_eq_some_iff.mpr ⟨admissible, rfl⟩)))
    · obtain ⟨c1, split, bound⟩ := sat.held (.edgeSplitWild edge
        (PathSet.mem_splits_wild.mpr ⟨source, wild.long, wild.soft⟩))
      have keyed := sat.present (.localsWild (sat.present (.reachVp row.present))
        (PathSet.splitTrailingOffset_eq_some.mpr ⟨reached, wild.short⟩))
      obtain ⟨c2, ext, bound'⟩ := sat.held (.extFml split keyed wild.wild)
      obtain ⟨suffix, found, lookup⟩ := wild.suffix
      obtain rfl := Option.some.inj (found.symm.trans read)
      obtain ⟨c', both, bound⟩ := both.mono (bound.trans bound') le_rfl
      exact (WithBot.coe_le_coe.mpr bound).trans
        (sat _ _ (.localsFmlWild ext row both ((lookup _ _ _).mpr ⟨admissible, rfl⟩)))

end Completeness

section Admissible

/-- Every path a fact puts into an edge or a summary is admissible, and so is the empty path. -/
structure PathsAdmissible (input : EngineInput) : Prop where
  empty : Path.empty ∈ input.pathSet
  assign : ∀ site dst src, (site, dst, src) ∈ input.facts.assign →
    dst.path ∈ input.pathSet ∧ src.path ∈ input.pathSet
  actual : ∀ site n vx, (site, n, vx) ∈ input.facts.actualParam → vx.path ∈ input.pathSet
  summary : ∀ f n1 p1 n2 p2, (f, n1, p1, n2, p2) ∈ input.facts.summary →
    p1 ∈ input.pathSet ∧ p2 ∈ input.pathSet
  globalFlow : ∀ dst p1 src p2, (dst, p1, src, p2) ∈ input.facts.globalFlow →
    p1 ∈ input.pathSet ∧ p2 ∈ input.pathSet

/-- The paths at the ends of each flow hold a member of the admissible paths. -/
def AdmissibleState (s : input.State) : Prop := ∀ r, Present s r → ∀ p ∈ r.ends, p ∈ input.pathSet

theorem IndexRules.admissible (paths : input.PathsAdmissible) (state : input.AdmissibleState s)
    (fires : IndexRules input s r c) : ∀ p ∈ r.ends, p ∈ input.pathSet := by
  have both : ∀ {r : Row} {p q : Path}, r.ends = [p, q] → Present s r → p ∈ input.pathSet ∧ q ∈ input.pathSet := by
    intro r p q ends present
    exact ⟨state r present p (by simp [ends]), state r present q (by simp [ends])⟩
  have pair : ∀ {p q : Path}, p ∈ input.pathSet → q ∈ input.pathSet → ∀ u ∈ [p, q], u ∈ input.pathSet := by
    simp +contextual
  cases fires with
  | root fires => cases fires with
    | formal | global => exact pair paths.empty paths.empty
    | _ => simp [Row.ends]
  | field fires => cases fires with
    | assignWild edge | edgeSplit edge | edgeSplitWild edge => simpa [Row.ends] using (both rfl edge.present).1
    | extDst _ _ admissible | extDstWild _ _ _ admissible =>
      simpa [Row.ends] using PathSet.mem_of_concat admissible
    | extFml ext => simpa [Row.ends] using state _ ext.present
    | localsDst ext row => exact pair (state _ ext.present _ (.head _)) (both rfl row.present).2
    | localsFml ext _ _ admissible | localsFmlWild ext _ _ admissible =>
      exact pair (state _ ext.present _ (.head _)) (PathSet.mem_of_concat admissible)
    | _ => simp [Row.ends]
  | call fires => cases fires with
    | actualOut param => exact pair (paths.actual _ _ _ param) paths.empty
    | actualIn param => exact pair paths.empty (paths.actual _ _ _ param)
    | instantiate flow => exact (state _ flow.present :)
    | direct => simp [Row.ends]
  | summary fires => cases fires with
    | formal row | frameEdge row | aliasFlow row => exact (state _ row.present :)
    | aliased flow | aliasFrame flow => exact (state _ flow :)
  | globalSummary fires =>
    obtain ⟨row⟩ := fires
    exact (state _ row.present :)
  | scan fires => cases fires with
    | direct _ flow | via _ flow => exact (state _ flow.present :)
  | sets fires => cases fires with
    | direct _ flow | via _ flow => exact (state _ flow.present :)
    | _ => simp [Row.ends]
  | unfold fires => cases fires with
    | summaryD _ flow | topSummaryD _ _ flow => exact (state _ flow.present :)
    | direct flow | via flow => exact (state _ flow :)
    | topFunc => simp [Row.ends]
  | _ fires => cases fires <;> simp [Row.ends]

/-- Facts over admissible paths never leave them. -/
theorem PathsAdmissible.run (paths : input.PathsAdmissible) (run : Run (IndexRules input) input.seed s) :
    input.AdmissibleState s := by
  apply run.preserves (I := input.AdmissibleState)
  · intro r present p ends
    have seed := input.present_seed.mp present
    simp only [seeds, assignLike, List.mem_append, List.mem_map] at seed
    rcases seed with (⟨⟨f, n1, p1, n2, p2⟩, fact, rfl⟩ | ⟨_, ⟨⟨site, dst, src⟩, fact, rfl⟩ |
      ⟨⟨dst, p1, src, p2⟩, fact, rfl⟩, rfl⟩) | ⟨f, fact, rfl⟩
    · have member := paths.summary _ _ _ _ _ fact
      simp only [Row.ends, List.mem_cons, List.not_mem_nil, or_false] at ends
      rcases ends with rfl | rfl
      exacts [member.1, member.2]
    · have member := paths.assign _ _ _ fact
      simp only [Row.ends, List.mem_cons, List.not_mem_nil, or_false] at ends
      rcases ends with rfl | rfl
      exacts [member.1, member.2]
    · have member := paths.globalFlow _ _ _ _ fact
      simp only [Row.ends, List.mem_cons, List.not_mem_nil, or_false] at ends
      rcases ends with rfl | rfl
      exacts [member.1, member.2]
    · simp [Row.ends] at ends
  · intro s r c state fires r' present
    rcases Store.of_insert present with rfl | old
    · exact IndexRules.admissible paths state fires
    · exact state r' old

/-- Over facts of admissible paths, the paths that meet are always admissible. -/
theorem NaiveRule.known (paths : input.PathsAdmissible) (run : Run (IndexRules input) input.seed s)
    {known : Path → Prop} (fires : NaiveRule input known s r c) : NaiveRule input (· ∈ input.pathSet) s r c := by
  have state := paths.run run
  cases fires with
  | dst edge row both _ _ moved admissible =>
    exact .dst edge row both (state _ edge.present _ (.tail _ (.head _))) (state _ row.present _ (.head _)) moved
      admissible
  | fml edge row both _ _ read admissible =>
    exact .fml edge row both (state _ edge.present _ (.tail _ (.head _))) (state _ row.present _ (.head _)) read
      admissible

end Admissible

/-- What the naive rule derives between admissible paths is reached by the keyed rules. -/
theorem NaiveRule.reached (run : Run (IndexRules input) input.seed s)
    (fires : NaiveRule input (· ∈ input.pathSet) s r c) :
    ∃ t, Run (FieldRule input) s t ∧ (c : WithBot (CondOf input.hybridContext)) ≤ t r := by
  obtain ⟨t, more, sat⟩ := exists_saturated_of_active (fun _ _ _ fires => IndexRules.field fires)
    (activeState_seed.run run)
  obtain ⟨c', fires, bound⟩ := NaiveRule.mono fires more.le
  exact ⟨t, more, (WithBot.coe_le_coe.mpr bound).trans (NaiveRule.covered sat fires)⟩

/-- Propagation by keys is the naive rule in every reachable state. It invents nothing where unions of
conditions are exact; it reaches all that follows from a row and an edge whose paths are admissible, and
these always are where the facts' paths are. -/
theorem keyed_propagation_eq_naive (run : Run (IndexRules input) input.seed s) :
    (input.hybridContext.Exact → ∀ f v p a q c x, FieldRule input s (.locals f v p a q) c → c.HoldsIn x →
      ∃ c', NaiveRule input (fun _ => True) s (.locals f v p a q) c' ∧ c'.HoldsIn x) ∧
    (∀ r c, NaiveRule input (· ∈ input.pathSet) s r c →
      ∃ t, Run (FieldRule input) s t ∧ (c : WithBot (CondOf input.hybridContext)) ≤ t r) ∧
    (input.PathsAdmissible → ∀ r c, NaiveRule input (fun _ => True) s r c →
      ∃ t, Run (FieldRule input) s t ∧ (c : WithBot (CondOf input.hybridContext)) ≤ t r) := by
  refine ⟨fun exact f v p a q c x fires holds => ?_, fun r c fires => NaiveRule.reached run fires,
    fun paths r c fires => ?_⟩
  · exact FieldRule.naive (sourced_of_run exact run) fires holds
  · exact NaiveRule.reached run (NaiveRule.known paths run fires)

section Counterexamples

/-- The path `.f`. -/
def fieldF : Path := .fromAccesses [.field "f"]

/-- The facts of `f(a) { ext(a.f) }`, with the paths `paths` beside its own. -/
def fieldArg (paths : List Path) : EngineInput where
  facts :=
    { formalParam := [(1, .formal 0, .sharedFields)]
      actualParam := [(⟨1, 10⟩, 0, ⟨.formal 0, fieldF⟩)]
      call := [(⟨1, 10⟩, 2)]
      assign := []
      callTargetAssign := []
      constStrAssign := []
      calleeInfo := []
      calleeResolvents := []
      summary := []
      paths := paths
      intentFrame := []
      intentSend := []
      intentFilter := []
      intentComponent := []
      globalFlow := [] }
  config := ⟨true, .decision, .sets, false⟩

/-- The facts of `f(fp, a) { fp(a, b) }` called with three targets: the first returns `b`, the second returns
`b.f` as the field `f` of its result, and the third stores its first argument into `b.f`. -/
def threeTargets : EngineInput where
  facts :=
    { formalParam := [(1, .formal 0, .sharedFields), (1, .formal 1, .sharedFields)]
      actualParam := [(⟨1, 10⟩, 0, ⟨.formal 1, .empty⟩)]
      call := [(⟨3, 20⟩, 1)]
      assign := []
      callTargetAssign := [(⟨3, 20⟩, ⟨.callArg 20 0, .empty⟩, .functionId 4),
        (⟨3, 20⟩, ⟨.callArg 20 0, .empty⟩, .functionId 5), (⟨3, 20⟩, ⟨.callArg 20 0, .empty⟩, .functionId 6)]
      constStrAssign := []
      calleeInfo := [(⟨1, 10⟩, ⟨.formal 0, .empty⟩, .c)]
      calleeResolvents := [(.functionId 4, .c, 4), (.functionId 5, .c, 5), (.functionId 6, .c, 6)]
      summary := [(4, .formal (-1), .empty, .formal 1, .empty), (5, .formal (-1), fieldF, .formal 1, fieldF),
        (6, .formal 1, fieldF, .formal 0, .empty)]
      paths := [.empty]
      intentFrame := []
      intentSend := []
      intentFilter := []
      intentComponent := []
      globalFlow := [] }
  config := ⟨true, .collapse, .sets, false⟩

/-- The pointer of `threeTargets` holds the function `t`. -/
def holdsTarget (t : FunctionId) : Decision := ⟨0, .empty, .functionId t⟩

/-- The pointer call resolved to the function `t`, whose summary is `n1.p1 <- n2.p2`. -/
def resolveTarget (s : threeTargets.State) (t : FunctionId) (n1 : FormalIndex) (p1 : Path) (n2 : FormalIndex)
    (p2 : Path) : threeTargets.State :=
  Store.insert (Store.insert (Store.insert (Store.insert (Store.insert s
    (.callTargetAssignLike 3 (.callArg 20 0) .empty (.functionId t)) ⊤)
    (.establishesDirect 1 (holdsTarget t) 3 20) ⊤)
    (.resolvent 1 0 .empty (.functionId t) (holdsTarget t)) ⊤)
    (.callSite 1 10 t) (.ofDecision _ (holdsTarget t)))
    (.assignLike 1 (.callArg 10 n1) p1 (.callArg 10 n2) p2) (.ofDecision _ (holdsTarget t))

private theorem run_resolveTarget {s : threeTargets.State} (run : Run (IndexRules threeTargets) threeTargets.seed s)
    {t : FunctionId} {n1 n2 : FormalIndex} {p1 p2 : Path}
    (root : Certain s (.locals 1 (.formal 0) .empty (.formal 0) .empty))
    (critical : Present s (.criticalSummary 1 0 .empty)) (demand : Present s (.tagClosureFunc 3))
    (flow : Certain s (.summary t (.formal n1) p1 (.formal n2) p2)) (fresh : s (.callSite 1 10 t) = ⊥)
    (stored : threeTargets.CallTargetAssign 3 (.callArg 20 0) .empty (.functionId t))
    (resolves : threeTargets.CalleeResolvents (.functionId t) .c t) :
    Run (IndexRules threeTargets) threeTargets.seed (resolveTarget s t n1 p1 n2 p2) := by
  have run := next run (.callTargetAssignLike 3 (.callArg 20 0) .empty (.functionId t)) ⊤
    (.tag (.stored stored demand))
  have run := next run (.establishesDirect 1 (holdsTarget t) 3 20) ⊤ (.hybrid (.establishesDirect
    (critical.mono (Store.le_insert _ _ _ _)) (.inl (.head _)) (Store.present_insert.mpr (.inl rfl))))
  have run := next run (.resolvent 1 0 .empty (.functionId t) (holdsTarget t)) ⊤
    (.hybrid (.resolventDirect (d := holdsTarget t) (Store.present_insert.mpr (.inl rfl))))
  have run := next run (.callSite 1 10 t) (.ofDecision _ (holdsTarget t)) (.hybrid (.decidedSite (.head _)
    (((root.insert _ _).insert _ _).insert _ _) rfl (Store.present_insert.mpr (.inl rfl)) resolves))
  refine next run _ _ (.call (.instantiate ((((flow.insert _ _).insert _ _).insert _ _).insert _ _)
    (reads (.callSite 1 10 t) _ ?_)))
  simp [Store.insert, fresh]

private theorem threeTargets_no_edge {f : FunctionId} {v1 v2 : FlowVariable} {p1 p2 : Path} :
    ¬ Present threeTargets.seed (.assignLike f v1 p1 v2 p2) := by
  rw [present_seed]
  simp [seeds, assignLike, threeTargets]

theorem NaiveRule.parts {known : Path → Prop} {f : FunctionId} {v : FlowVariable} {p q : Path} {a : Root}
    (fires : NaiveRule input known s (.locals f v p a q) c) :
    ∃ p1 v2 p2 p23 p4 c1 c2, Held s (.assignLike f v p1 v2 p2) c1 ∧ Held s (.locals f v2 p23 a p4) c2 ∧
      CondOf.Composes c1 c2 c := by
  generalize same : Row.locals f v p a q = r at fires
  cases fires with
  | dst edge row both | fml edge row both =>
    cases same
    exact ⟨_, _, _, _, _, _, _, edge, row, both⟩

/-- A join of two conditions lets an expanded edge hold under a third decision. -/
theorem key_joins_invent : ∃ (s : threeTargets.State) (r : Row) (c : CondOf threeTargets.hybridContext),
    Run (IndexRules threeTargets) threeTargets.seed s ∧ FieldRule threeTargets s r c ∧
      ¬ ∃ c', NaiveRule threeTargets (fun _ => True) s r c' := by
  have run : Run (IndexRules threeTargets) threeTargets.seed _ := .refl
  -- the pointer call is critical, so its caller's targets are worth walking
  have run := next run (.locals 1 (.formal 0) .empty (.formal 0) .empty) ⊤ (.root (.formal (.head _) rfl))
  have run := next run (.criticalSummary 1 0 .empty) ⊤ (.hybrid (.critical (.head _)
    (reads (.locals 1 (.formal 0) .empty (.formal 0) .empty) ⊤ rfl) rfl))
  have run := next run (.criticalCall 3) ⊤ (.tag (.criticalBelow
    (reads (.criticalSummary 1 0 .empty) ⊤ rfl).present (.head _)))
  have run := next run (.tagClosureFunc 3) ⊤ (.tag (.closureCritical (reads (.criticalCall 3) ⊤ rfl).present))
  have run := run_resolveTarget run (t := 4) (reads (.locals 1 (.formal 0) .empty (.formal 0) .empty) ⊤ rfl)
    (reads (.criticalSummary 1 0 .empty) ⊤ rfl).present (reads (.tagClosureFunc 3) ⊤ rfl).present
    (reads (.summary 4 (.formal (-1)) .empty (.formal 1) .empty) ⊤ rfl) rfl ⟨20, by decide⟩ (.head _)
  have run := run_resolveTarget run (t := 5) (reads (.locals 1 (.formal 0) .empty (.formal 0) .empty) ⊤ rfl)
    (reads (.criticalSummary 1 0 .empty) ⊤ rfl).present (reads (.tagClosureFunc 3) ⊤ rfl).present
    (reads (.summary 5 (.formal (-1)) fieldF (.formal 1) fieldF) ⊤ rfl) rfl ⟨20, by decide⟩ (.tail _ (.head _))
  have run := run_resolveTarget run (t := 6) (reads (.locals 1 (.formal 0) .empty (.formal 0) .empty) ⊤ rfl)
    (reads (.criticalSummary 1 0 .empty) ⊤ rfl).present (reads (.tagClosureFunc 3) ⊤ rfl).present
    (reads (.summary 6 (.formal 1) fieldF (.formal 0) .empty) ⊤ rfl) rfl ⟨20, by decide⟩ (.tail _ (.tail _ (.head _)))
  -- `a` reaches `b.f` where the third target is called
  have run := next run (.locals 1 (.formal 1) .empty (.formal 1) .empty) ⊤ (.root (.formal (.tail _ (.head _)) rfl))
  have run := next run (.assignLike 1 (.callArg 10 0) .empty (.formal 1) .empty) ⊤ (.call (.actualIn (.head _)))
  have run := next run (.edgeSplit 1 (.formal 1) .empty .empty (.callArg 10 0) .empty) ⊤ (.field (.edgeSplit
    (reads (.assignLike 1 (.callArg 10 0) .empty (.formal 1) .empty) ⊤ rfl) (by decide)))
  have run := next run (.locals 1 (.callArg 10 0) .empty (.formal 1) .empty) ⊤ (.field (.localsFml
    (reads (.edgeSplit 1 (.formal 1) .empty .empty (.callArg 10 0) .empty) ⊤ rfl)
    (reads (.locals 1 (.formal 1) .empty (.formal 1) .empty) ⊤ rfl) rfl rfl))
  have run := next run (.edgeSplit 1 (.callArg 10 0) .empty .empty (.callArg 10 1) fieldF)
    (.ofDecision _ (holdsTarget 6)) (.field (.edgeSplit
      (reads (.assignLike 1 (.callArg 10 1) fieldF (.callArg 10 0) .empty) (.ofDecision _ (holdsTarget 6)) rfl) (by decide)))
  have run := next run (.locals 1 (.callArg 10 1) fieldF (.formal 1) .empty) (.ofDecision _ (holdsTarget 6))
    (.field (.localsFml
      (reads (.edgeSplit 1 (.callArg 10 0) .empty .empty (.callArg 10 1) fieldF) (.ofDecision _ (holdsTarget 6)) rfl)
      (reads (.locals 1 (.callArg 10 0) .empty (.formal 1) .empty) ⊤ rfl) rfl rfl))
  -- `b.f` reaches the result by either other target, and the two expanded edges are one row
  have run := next run (.reachVp 1 (.callArg 10 1) fieldF) ⊤ (.field (.reachVp
    (reads (.locals 1 (.callArg 10 1) fieldF (.formal 1) .empty) (.ofDecision _ (holdsTarget 6)) rfl).present))
  have run := next run (.localsKey 1 (.callArg 10 1) .empty fieldF fieldF) ⊤ (.field (.localsKey
    (reads (.reachVp 1 (.callArg 10 1) fieldF) ⊤ rfl).present (by decide)))
  have run := next run (.localsKey 1 (.callArg 10 1) fieldF .empty fieldF) ⊤ (.field (.localsKey
    (reads (.reachVp 1 (.callArg 10 1) fieldF) ⊤ rfl).present (by decide)))
  have run := next run (.extDst 1 (.callArg 10 (-1)) fieldF (.callArg 10 1) fieldF) (.ofDecision _ (holdsTarget 4))
    (.field (.extDst (reads (.localsKey 1 (.callArg 10 1) .empty fieldF fieldF) ⊤ rfl).present
      (reads (.assignLike 1 (.callArg 10 (-1)) .empty (.callArg 10 1) .empty) (.ofDecision _ (holdsTarget 4)) rfl) rfl))
  have run := next run (.extDst 1 (.callArg 10 (-1)) fieldF (.callArg 10 1) fieldF) (.ofDecision _ (holdsTarget 5))
    (.field (.extDst (reads (.localsKey 1 (.callArg 10 1) fieldF .empty fieldF) ⊤ rfl).present
      (reads (.assignLike 1 (.callArg 10 (-1)) fieldF (.callArg 10 1) fieldF) (.ofDecision _ (holdsTarget 5)) rfl) rfl))
  let either : CondOf threeTargets.hybridContext := .ofDecision _ (holdsTarget 4) ⊔ .ofDecision _ (holdsTarget 5)
  refine ⟨_, .locals 1 (.callArg 10 (-1)) fieldF (.formal 1) .empty, .ofDecision _ (holdsTarget 6), run,
    .localsDst (reads (.extDst 1 (.callArg 10 (-1)) fieldF (.callArg 10 1) fieldF) either rfl)
      (reads (.locals 1 (.callArg 10 1) fieldF (.formal 1) .empty) (.ofDecision _ (holdsTarget 6)) rfl) rfl, ?_⟩
  rintro ⟨c', fires⟩
  obtain ⟨p1, v2, p2, p23, p4, c1, c2, edge, row, both⟩ := NaiveRule.parts fires
  have edges : p1 = fieldF ∧ v2 = .callArg 10 1 ∧ p2 = fieldF ∨ p1 = .empty ∧ v2 = .callArg 10 1 ∧ p2 = .empty := by
    simpa [Store.present_insert, resolveTarget, threeTargets_no_edge] using edge.present
  obtain rfl : v2 = .callArg 10 1 := edges.elim (·.2.1) (·.2.1)
  obtain ⟨rfl, rfl⟩ : p23 = fieldF ∧ p4 = .empty := by
    have fresh : ¬ Present threeTargets.seed (.locals 1 (.callArg 10 1) p23 (.formal 1) p4) :=
      threeTargets.not_present_seed rfl
    simpa [Store.present_insert, resolveTarget, fresh] using row.present
  obtain rfl : c2 = .ofDecision _ (holdsTarget 6) := WithBot.coe_inj.mp (row.symm.trans rfl)
  -- neither edge holds under the third decision
  rcases edges with ⟨rfl, -, rfl⟩ | ⟨rfl, -, rfl⟩
  · obtain rfl : c1 = .ofDecision _ (holdsTarget 5) := WithBot.coe_inj.mp (edge.symm.trans rfl)
    cases (show none = some c'.val from both)
  · obtain rfl : c1 = .ofDecision _ (holdsTarget 4) := WithBot.coe_inj.mp (edge.symm.trans rfl)
    cases (show none = some c'.val from both)

/-- The rows a run of `fieldArg []` derives: no row leaves the empty path, so none is split. -/
def BlanklessRow : Row → Prop
  | .assignLike f v1 p1 v2 p2 => f = 1 ∧ (v1 = .callArg 10 0 ∧ p1 = .empty ∧ v2 = .formal 0 ∧ p2 = fieldF ∨
      v1 = .formal 0 ∧ p1 = fieldF ∧ v2 = .callArg 10 0 ∧ p2 = .empty)
  | .locals f v p a q => f = 1 ∧ a = .formal 0 ∧ p = .empty ∧
      (v = .formal 0 ∧ q = .empty ∨ v = .callArg 10 0 ∧ q = fieldF)
  | .reachVp _ _ p => p = .empty
  | .edgeSplit f v2 key rest v1 p1 => f = 1 ∧ v2 = .formal 0 ∧ v1 = .callArg 10 0 ∧ p1 = .empty ∧
      fieldF.segs = key.segs ++ rest.segs
  | .localsKey .. | .localsKeyWild .. | .localsWild .. | .extDst .. | .extFml .. | .summary .. | .aliasFlow ..
  | .contextSummaryD .. | .globalMention .. => False
  | _ => True

private theorem blankless_row {s : (fieldArg []).State} {r : Row} {c : CondOf (fieldArg []).hybridContext}
    (rows : ∀ r, Present s r → BlanklessRow r) (fires : IndexRules (fieldArg []) s r c) : BlanklessRow r := by
  have blank : ¬ Path.empty ∈ (fieldArg []).pathSet := by decide
  have field : ∀ p, p ∈ (fieldArg []).pathSet → p = fieldF := by
    intro p member
    rw [PathSet.mem_def, show (fieldArg []).pathSet.members = [fieldF] from rfl] at member
    simpa using member
  have params : ∀ {f v ty}, (fieldArg []).FormalParam f v ty → f = 1 ∧ v = .formal 0 ∧ ty = .sharedFields := by
    simp [FormalParam, fieldArg]
  have actuals : ∀ {f insn n v p}, (fieldArg []).ActualParam f insn n v p →
      f = 1 ∧ insn = 10 ∧ n = 0 ∧ v = .formal 0 ∧ p = fieldF := by
    simp only [ActualParam, fieldArg, List.mem_singleton, Prod.mk.injEq, InsnSiteId.mk.injEq, FlowVertex.mk.injEq]
    rintro f insn n v p ⟨⟨rfl, rfl⟩, rfl, rfl, rfl⟩
    exact ⟨rfl, rfl, rfl, rfl, rfl⟩
  cases fires with
  | root fires => cases fires with
    | formal param index =>
      obtain ⟨rfl, rfl, -⟩ := params param
      exact ⟨rfl, by simpa [FlowVariable.asFormal] using index.symm, rfl, .inl ⟨rfl, rfl⟩⟩
    | mentionEdge edge named =>
      obtain ⟨-, ⟨rfl, -, rfl, -⟩ | ⟨rfl, -, rfl, -⟩⟩ := rows _ edge <;> simp [FlowVariable.asGlobal] at named
    | global mention => exact (rows _ mention).elim
    | mentionFrame mention => exact (rows _ mention).elim
    | mentionCallee info => cases info
    | mentionTarget stored => cases stored.choose_spec
    | mentionString stored => cases stored.choose_spec
  | field fires => cases fires with
    | reachVp row => exact (rows _ row).2.2.1
    | localsKey reach split => exact blank (rows _ reach ▸ (PathSet.mem_splits_exact.mp split).1)
    | localsKeyWild reach split => exact blank (rows _ reach ▸ (PathSet.mem_splits_wild.mp split).1)
    | localsWild reach split => exact blank (rows _ reach ▸ (PathSet.splitTrailingOffset_eq_some.mp split).1)
    | edgeSplit edge split =>
      obtain ⟨member, split⟩ := PathSet.mem_splits_exact.mp split
      obtain ⟨rfl, ⟨rfl, rfl, rfl, rfl⟩ | ⟨-, -, -, rfl⟩⟩ := rows _ edge.present
      · exact ⟨rfl, rfl, rfl, rfl, split⟩
      · exact (blank member).elim
    | extDst keyed | extDstWild keyed => exact (rows _ keyed).elim
    | localsDst ext => exact (rows _ ext.present).elim
    | localsFml ext row both admissible =>
      obtain ⟨rfl, rfl, rfl, rfl, -⟩ := rows _ ext.present
      obtain ⟨-, rfl, -, -⟩ := rows _ row.present
      exact ⟨rfl, rfl, rfl, .inr ⟨rfl, field _ (PathSet.mem_of_concat admissible)⟩⟩
    | extFml _ keyed => exact (rows _ keyed).elim
    | localsFmlWild ext => exact (rows _ ext.present).elim
    | _ => trivial
  | call fires => cases fires with
    | actualOut param =>
      obtain ⟨rfl, rfl, rfl, rfl, rfl⟩ := actuals param
      exact ⟨rfl, .inr ⟨rfl, rfl, rfl, rfl⟩⟩
    | actualIn param =>
      obtain ⟨rfl, rfl, rfl, rfl, rfl⟩ := actuals param
      exact ⟨rfl, .inl ⟨rfl, rfl, rfl, rfl⟩⟩
    | instantiate flow => exact (rows _ flow.present).elim
    | direct => trivial
  | summary fires => cases fires with
    | formal row param root out moved =>
      obtain ⟨rfl, rfl, -⟩ := params param
      obtain ⟨-, rfl, rfl, ⟨-, rfl⟩ | ⟨wrong, -⟩⟩ := rows _ row.present
      · simp [FlowVariable.asRoot, ← Option.some_inj, ← root] at moved
      · cases wrong
    | frameEdge row _ dst =>
      obtain ⟨-, -, -, ⟨rfl, -⟩ | ⟨rfl, -⟩⟩ := rows _ row.present <;> simp [FlowVariable.asGlobal] at dst
    | aliased flow | aliasFrame flow => exact (rows _ flow).elim
    | aliasFlow row field =>
      obtain ⟨-, -, rfl, -⟩ := rows _ row.present
      cases field
  | globalSummary fires =>
    obtain ⟨row, -, dst⟩ := fires
    obtain ⟨-, -, -, ⟨rfl, -⟩ | ⟨rfl, -⟩⟩ := rows _ row.present <;> simp [FlowVariable.asGlobal] at dst
  | scan fires => cases fires with
    | direct _ flow | via _ flow => exact (rows _ flow.present).elim
  | sets fires => cases fires with
    | direct _ flow | via _ flow => exact (rows _ flow.present).elim
    | _ => trivial
  | unfold fires => cases fires with
    | summaryD _ flow | topSummaryD _ _ flow => exact (rows _ flow.present).elim
    | direct flow | via flow => exact (rows _ flow).elim
    | topFunc => trivial
  | _ fires => cases fires <;> trivial

/-- The naive rule carries `a.f` through the call's argument and back. -/
private theorem fieldArg_naive {paths : List Path} (member : fieldF ∈ (fieldArg paths).pathSet) :
    ∃ s, Run (IndexRules (fieldArg paths)) (fieldArg paths).seed s ∧
      NaiveRule (fieldArg paths) (fun _ => True) s (.locals 1 (.formal 0) fieldF (.formal 0) fieldF) ⊤ := by
  have run : Run (IndexRules (fieldArg paths)) (fieldArg paths).seed _ := .refl
  have run := next run (.locals 1 (.formal 0) .empty (.formal 0) .empty) ⊤ (.root (.formal (.head _) rfl))
  have run := next run (.assignLike 1 (.callArg 10 0) .empty (.formal 0) fieldF) ⊤ (.call (.actualIn (.head _)))
  have run := next run (.assignLike 1 (.formal 0) fieldF (.callArg 10 0) .empty) ⊤ (.call (.actualOut (.head _)))
  have run := next run (.edgeSplit 1 (.formal 0) .empty fieldF (.callArg 10 0) .empty) ⊤ (.field (.edgeSplit
    (reads (.assignLike 1 (.callArg 10 0) .empty (.formal 0) fieldF) ⊤ rfl)
    (PathSet.mem_splits_exact.mpr ⟨member, rfl⟩)))
  have run := next run (.locals 1 (.callArg 10 0) .empty (.formal 0) fieldF) ⊤ (.field (.localsFml
    (reads (.edgeSplit 1 (.formal 0) .empty fieldF (.callArg 10 0) .empty) ⊤ rfl)
    (reads (.locals 1 (.formal 0) .empty (.formal 0) .empty) ⊤ rfl) rfl
    (PathSet.concat_none_eq_some_iff.mpr ⟨member, rfl⟩)))
  exact ⟨_, run, .dst (reads (.assignLike 1 (.formal 0) fieldF (.callArg 10 0) .empty) ⊤ rfl)
    (reads (.locals 1 (.callArg 10 0) .empty (.formal 0) fieldF) ⊤ rfl) rfl trivial trivial rfl member⟩

/-- A row at the empty path crosses no edge where the empty path is not admissible. -/
theorem keys_lose_empty_path : ∃ (s : (fieldArg []).State) (r : Row),
    Run (IndexRules (fieldArg [])) (fieldArg []).seed s ∧ NaiveRule (fieldArg []) (fun _ => True) s r ⊤ ∧
      ∀ t, Run (IndexRules (fieldArg [])) s t → ¬ Present t r := by
  obtain ⟨s, run, fires⟩ := fieldArg_naive (show fieldF ∈ (fieldArg []).pathSet by decide)
  refine ⟨s, _, run, fires, fun t more present => ?_⟩
  have whole : Run (IndexRules (fieldArg [])) (fieldArg []).seed t := run.trans more
  have rows := whole.preserves (I := fun s : (fieldArg []).State => ∀ r, Present s r → BlanklessRow r) ?_ ?_
  · obtain ⟨-, -, wrong, -⟩ := rows _ present
    cases congrArg Path.segs wrong
  · intro r present
    cases (fieldArg []).present_seed.mp present
  · intro s r c rows fires r' present
    rcases Store.present_insert.mp present with rfl | old
    · exact blankless_row rows fires
    · exact rows r' old

/-- Propagation by keys is not the naive rule: it loses a row at the empty path where that is not
admissible, and it invents one where a union of conditions is widened. -/
theorem keyed_propagation_ne_naive :
    (∃ (s : (fieldArg []).State) (r : Row), Run (IndexRules (fieldArg [])) (fieldArg []).seed s ∧
      NaiveRule (fieldArg []) (fun _ => True) s r ⊤ ∧ ∀ t, Run (IndexRules (fieldArg [])) s t → ¬ Present t r) ∧
    ∃ (s : threeTargets.State) (r : Row) (c : CondOf threeTargets.hybridContext),
      Run (IndexRules threeTargets) threeTargets.seed s ∧ FieldRule threeTargets s r c ∧
        ¬ ∃ c', NaiveRule threeTargets (fun _ => True) s r c' := ⟨keys_lose_empty_path, key_joins_invent⟩

/-- With the empty path admissible, the row is reached. -/
theorem keyed_propagation_field_arg : ∃ s t : (fieldArg [.empty]).State,
    Run (IndexRules (fieldArg [.empty])) (fieldArg [.empty]).seed s ∧ Run (FieldRule (fieldArg [.empty])) s t ∧
      Certain t (.locals 1 (.formal 0) fieldF (.formal 0) fieldF) := by
  obtain ⟨s, run, fires⟩ := fieldArg_naive (show fieldF ∈ (fieldArg [.empty]).pathSet by decide)
  have paths : (fieldArg [.empty]).PathsAdmissible :=
    { empty := by decide
      assign := fun _ _ _ fact => nomatch fact
      actual := fun site n vx fact => by
        cases fact with
        | head => decide
        | tail _ none => cases none
      summary := fun _ _ _ _ _ fact => nomatch fact
      globalFlow := fun _ _ _ _ fact => nomatch fact }
  obtain ⟨t, more, bound⟩ := (keyed_propagation_eq_naive run).2.2 paths _ _ fires
  exact ⟨s, t, run, more, certain_of_le bound⟩

end Counterexamples

end EngineInput

end Ctadl.Index
