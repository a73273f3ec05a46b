import Ctadl.Index.Monotone

/-! # The three context joins

Rule 3.2 applies a conditional summary at the calls that establish one of its decisions. `ContextRule`
says that once; `Scan`, `Sets` and `Unfold` are three ways to compute it. What the auxiliary rows of a
run mean is an invariant (`Explained`), so each firing of a join is one of the common rule, and a state
saturated under any join is closed under the common rule.
-/

namespace Ctadl.Index

open Facts Datalog

namespace EngineInput

variable {input : EngineInput}

/-- A summary whose condition admits a decision applies at every call that establishes it. -/
inductive ContextRule (input : EngineInput) (s : input.State) : Row → CondOf input.hybridContext → Prop
  | direct {f n1 p1 n2 p2 sum d caller insn sc} (flow : Held s (.summary f n1 p1 n2 p2) sum)
      (admits : sum.Admits d) (established : Present s (.establishesDirect f d caller insn))
      (site : Held s (.callSite caller insn f) sc) :
      ContextRule input s (.assignLike caller (.callRoot insn n1) p1 (.callRoot insn n2) p2) sc
  | via {f n1 p1 n2 p2 sum d caller insn up sc ac} (flow : Held s (.summary f n1 p1 n2 p2) sum)
      (admits : sum.Admits d) (established : Present s (.establishesVia f d caller insn up))
      (site : Held s (.callSite caller insn f) sc) (both : CondOf.Composes (.ofDecision _ up) sc ac) :
      ContextRule input s (.assignLike caller (.callRoot insn n1) p1 (.callRoot insn n2) p2) ac

/-- What the auxiliary rows stand for. -/
structure Explained (input : EngineInput) (s : input.State) : Prop where
  member : ∀ {f d ds}, Present s (.setMember f d ds) → ds.contains d
  top : ∀ {f ds}, Present s (.contextSummaryTop f ds) → ds.isTop
  direct : ∀ {f ds caller insn}, Present s (.setEstablishesDirect f ds caller insn) →
    ∃ d, ds.contains d ∧ Present s (.establishesDirect f d caller insn)
  via : ∀ {f ds caller insn up}, Present s (.setEstablishesVia f ds caller insn up) →
    ∃ d, ds.contains d ∧ Present s (.establishesVia f d caller insn up)
  unfolded : ∀ {f d n1 p1 n2 p2}, Present s (.contextSummaryD f d n1 p1 n2 p2) →
    ∃ sum, Held s (.summary f n1 p1 n2 p2) sum ∧ sum.Admits d

section Meaning

variable {s : input.State} {r : Row} {c : CondOf input.hybridContext}

theorem contains_of_top {ds : DecisionSet} (widened : ds.isTop) (d : Decision) : ds.contains d := by
  simp [DecisionSet.contains, widened]

theorem contains_of_mem {ds : DecisionSet} {d : Decision} (member : d ∈ ds.ids) : ds.contains d := by
  simp [DecisionSet.contains, member]

theorem explained_seed : input.Explained input.seed :=
  ⟨fun row => absurd row (input.not_present_seed rfl), fun row => absurd row (input.not_present_seed rfl),
    fun row => absurd row (input.not_present_seed rfl), fun row => absurd row (input.not_present_seed rfl),
    fun row => absurd row (input.not_present_seed rfl)⟩

/-- Only the joins derive auxiliary rows. -/
theorem join_of_auxiliary (fires : IndexRules input s r c) (auxiliary : r.auxiliary) :
    SetsRule input s r c ∨ UnfoldRule input s r c := by
  cases fires with
  | sets fires => exact .inl fires
  | unfold fires => exact .inr fires
  | _ fires => cases fires <;> simp [Row.auxiliary] at auxiliary

theorem Explained.insert (explained : input.Explained s) (fires : IndexRules input s r c) :
    input.Explained (s.insert r c) := by
  have below := s.le_insert r c
  refine ⟨fun row => ?_, fun row => ?_, fun row => ?_, fun row => ?_, fun row => ?_⟩
  · rcases Store.of_insert row with rfl | old
    · rcases join_of_auxiliary fires rfl with fires | fires
      · cases fires with
        | member _ _ member => exact contains_of_mem member
      · cases fires
    · exact explained.member old
  · rcases Store.of_insert row with rfl | old
    · rcases join_of_auxiliary fires rfl with fires | fires
      · cases fires with
        | top _ widened => exact widened
      · cases fires
    · exact explained.top old
  · rcases Store.of_insert row with rfl | old
    · rcases join_of_auxiliary fires rfl with fires | fires
      · cases fires with
        | memberDirect member established => exact ⟨_, explained.member member, established.mono (below _)⟩
        | topDirect widened established =>
          exact ⟨_, contains_of_top (explained.top widened) _, established.mono (below _)⟩
      · cases fires
    · obtain ⟨d, contains, established⟩ := explained.direct old
      exact ⟨d, contains, established.mono (below _)⟩
  · rcases Store.of_insert row with rfl | old
    · rcases join_of_auxiliary fires rfl with fires | fires
      · cases fires with
        | memberVia member established => exact ⟨_, explained.member member, established.mono (below _)⟩
        | topVia widened established =>
          exact ⟨_, contains_of_top (explained.top widened) _, established.mono (below _)⟩
      · cases fires
    · obtain ⟨d, contains, established⟩ := explained.via old
      exact ⟨d, contains, established.mono (below _)⟩
  · have raise : ∀ {f d n1 p1 n2 p2} {sum : CondOf input.hybridContext},
        Held s (.summary f n1 p1 n2 p2) sum → sum.Admits d →
        ∃ sum, Held (s.insert r c) (.summary f n1 p1 n2 p2) sum ∧ sum.Admits d := by
      intro _ _ _ _ _ _ _ flow admits
      obtain ⟨raised, flow', le⟩ := flow.raise (below _)
      exact ⟨raised, flow', admits.mono le⟩
    rcases Store.of_insert row with rfl | old
    · rcases join_of_auxiliary fires rfl with fires | fires
      · cases fires
      · cases fires with
        | summaryD _ flow set _ member =>
          exact raise flow ((CondOf.admits_iff_contains set).mpr (contains_of_mem member))
        | topSummaryD _ _ flow set widened =>
          exact raise flow ((CondOf.admits_iff_contains set).mpr (contains_of_top widened _))
    · obtain ⟨sum, flow, admits⟩ := explained.unfolded old
      exact raise flow admits

end Meaning

section Joins

variable {s : input.State} {r : Row} {c : CondOf input.hybridContext}

theorem ScanRule.context (fires : ScanRule input s r c) : ContextRule input s r c := by
  cases fires with
  | direct _ flow set established member site =>
    exact .direct flow ((CondOf.admits_iff_contains set).mpr member) established site
  | via _ flow set established member site both =>
    exact .via flow ((CondOf.admits_iff_contains set).mpr member) established site
      (CondOf.composes_of_set set both)

theorem SetsRule.context (explained : input.Explained s) (fires : SetsRule input s r c)
    (core : r.auxiliary = false) : ContextRule input s r c := by
  cases fires with
  | direct _ flow set established site =>
    obtain ⟨d, contains, established⟩ := explained.direct established
    exact .direct flow ((CondOf.admits_iff_contains set).mpr contains) established site
  | via _ flow set established site both =>
    obtain ⟨d, contains, established⟩ := explained.via established
    exact .via flow ((CondOf.admits_iff_contains set).mpr contains) established site
      (CondOf.composes_of_set set both)
  | _ => simp [Row.auxiliary] at core

theorem UnfoldRule.context (explained : input.Explained s) (fires : UnfoldRule input s r c)
    (core : r.auxiliary = false) : ContextRule input s r c := by
  cases fires with
  | direct flow established site =>
    obtain ⟨sum, flow, admits⟩ := explained.unfolded flow
    exact .direct flow admits established site
  | via flow established site both =>
    obtain ⟨sum, flow, admits⟩ := explained.unfolded flow
    exact .via flow admits established site (CondOf.composes_ofDecision both)
  | _ => simp [Row.auxiliary] at core

end Joins

section Closed

variable {t : input.State} {r : Row} {c : CondOf input.hybridContext}

/-- In a state saturated by `Sets`, a conditional summary meets every call that establishes a decision of
its set. -/
private theorem sets_established {f : FunctionId} {n1 n2 : Root} {p1 p2 : Path} {ds : DecisionSet}
    {sum : CondOf input.hybridContext} {d : Decision} (sat : Saturated (IndexRules input) t)
    (join : input.config.contextJoin = .sets) (flow : Held t (.summary f n1 p1 n2 p2) sum)
    (set : sum.val.set = some ds) (contains : ds.contains d) :
    (∀ caller insn, Present t (.establishesDirect f d caller insn) →
      Present t (.setEstablishesDirect f ds caller insn)) ∧
    ∀ caller insn up, Present t (.establishesVia f d caller insn up) →
      Present t (.setEstablishesVia f ds caller insn up) := by
  have row : Present t (.contextSummarySet f ds) := present_of_le (sat _ _ (.sets (.summarySet join flow set)))
  cases widened : ds.isTop with
  | true =>
    have top : Present t (.contextSummaryTop f ds) := present_of_le (sat _ _ (.sets (.top row widened)))
    exact ⟨fun _ _ established => present_of_le (sat _ _ (.sets (.topDirect top established))),
      fun _ _ _ established => present_of_le (sat _ _ (.sets (.topVia top established)))⟩
  | false =>
    have listed : d ∈ ds.ids := by simpa [DecisionSet.contains, widened] using contains
    have member : Present t (.setMember f d ds) := present_of_le (sat _ _ (.sets (.member row widened listed)))
    exact ⟨fun _ _ established => present_of_le (sat _ _ (.sets (.memberDirect member established))),
      fun _ _ _ established => present_of_le (sat _ _ (.sets (.memberVia member established)))⟩

/-- In a state saturated by `Unfold`, a conditional summary is unfolded at every decision of its set that
the function has. -/
private theorem unfold_established {f : FunctionId} {n1 n2 : Root} {p1 p2 : Path} {ds : DecisionSet}
    {sum : CondOf input.hybridContext} {d : Decision} (sat : Saturated (IndexRules input) t)
    (join : input.config.contextJoin = .unfold) (flow : Held t (.summary f n1 p1 n2 p2) sum)
    (set : sum.val.set = some ds) (contains : ds.contains d)
    (decided : Present t (.resolvent f d.formal d.path d.target d)) :
    Present t (.contextSummaryD f d n1 p1 n2 p2) := by
  cases widened : ds.isTop with
  | true =>
    have func : Present t (.topSummaryFunc f) := present_of_le (sat _ _ (.unfold (.topFunc join flow set widened)))
    exact present_of_le (sat _ _ (.unfold (.topSummaryD func decided flow set widened)))
  | false =>
    have listed : d ∈ ds.ids := by simpa [DecisionSet.contains, widened] using contains
    exact present_of_le (sat _ _ (.unfold (.summaryD join flow set widened listed)))

/-- A state saturated under any context join is closed under the common rule. -/
theorem ContextRule.covered (sat : Saturated (IndexRules input) t) (fires : ContextRule input t r c) :
    (c : WithBot _) ≤ t r := by
  cases fires with
  | @direct f n1 p1 n2 p2 sum d caller insn _ flow admits established site =>
    by_cases unconditional : sum = ⊤
    · subst unconditional
      exact sat _ _ (.call (.instantiate flow site))
    obtain ⟨ds, set⟩ := CondOf.exists_set unconditional
    have contains := (CondOf.admits_iff_contains set).mp admits
    cases join : input.config.contextJoin with
    | scan => exact sat _ _ (.scan (.direct join flow set established contains site))
    | sets =>
      have row := (sets_established sat join flow set contains).1 _ _ established
      exact sat _ _ (.sets (.direct join flow set row site))
    | unfold =>
      have decided := present_of_le (sat _ _ (.hybrid (.resolventDirect established)))
      have row := unfold_established sat join flow set contains decided
      exact sat _ _ (.unfold (.direct row established site))
  | @via f n1 p1 n2 p2 sum d caller insn up sc _ flow admits established site both =>
    by_cases unconditional : sum = ⊤
    · subst unconditional
      have applied : (sc : WithBot _) ≤ t _ := sat _ _ (.call (.instantiate flow site))
      exact (WithBot.coe_le_coe.mpr both.le.2).trans applied
    obtain ⟨ds, set⟩ := CondOf.exists_set unconditional
    have contains := (CondOf.admits_iff_contains set).mp admits
    have kind := CondOf.isCollapsing_of_set set
    cases join : input.config.contextJoin with
    | scan => exact sat _ _ (.scan (.via join flow set established contains site (kind ▸ both)))
    | sets =>
      have row := (sets_established sat join flow set contains).2 _ _ _ established
      exact sat _ _ (.sets (.via join flow set row site (kind ▸ both)))
    | unfold =>
      have decided := present_of_le (sat _ _ (.hybrid (.resolventVia established)))
      have row := unfold_established sat join flow set contains decided
      exact sat _ _ (.unfold (.via row established site both))

end Closed

section Monotone

variable {j k : ContextJoin} {s : (input.withJoin j).State} {t : (input.withJoin k).State} {r : Row}
  {c : CondOf (input.withJoin j).hybridContext}

theorem ContextRule.mono (below : input.AgreeBelow s t) (fires : ContextRule (input.withJoin j) s r c) :
    ∃ c', ContextRule (input.withJoin k) t r c' ∧ c ≤ c' := by
  cases fires with
  | direct flow admits established site =>
    obtain ⟨_, flow', raised⟩ := flow.raise (below _ rfl)
    obtain ⟨c', site', le⟩ := site.raise (below _ rfl)
    exact ⟨c', .direct flow' (admits.mono raised) (established.mono (below _ rfl)) site', le⟩
  | via flow admits established site both =>
    obtain ⟨_, flow', raised⟩ := flow.raise (below _ rfl)
    obtain ⟨_, site', siteRaised⟩ := site.raise (below _ rfl)
    obtain ⟨c', both', le⟩ := both.mono le_rfl siteRaised
    exact ⟨c', .via flow' (admits.mono raised) (established.mono (below _ rfl)) site' both', le⟩

end Monotone

end EngineInput

end Ctadl.Index
