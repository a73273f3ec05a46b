import Ctadl.Index.Demand

/-! # Labels held in globals

A call-target or string label at a global path holds in every instance, so it is shared: it goes up to
the global frame from any function that holds it, and comes down into a function at the paths the
function reads and their extensions. In a saturated state a reader of a prefix of the label's path holds
the label, and there it crosses every unconditional edge out of the global, whether the edge's path
matches exactly or by a wild offset. A function that reads the global only at another offset of the same
path is not a reader of a prefix, and a label at a path that is not admissible has no prefixes to be read
at: `shiftedRead` loses both.
-/

namespace Ctadl.Index

open Cir Facts Datalog

namespace EngineInput

variable {input : EngineInput}

/-- `h` reads the global path `$g.p`: as the source of an edge, or as the callee of an indirect call. -/
def ReadsGlobal (input : EngineInput) (s : input.State) (h : FunctionId) (g : GlobalId) (p : Path) : Prop :=
  (∃ v1 p1, Present s (.assignLike h v1 p1 (.global g) p)) ∨ ∃ insn key, input.CalleeInfo h insn (.global g) p key

/-- `h` may hold what any function holds at `$g.p`: it is the frame, or it reads a prefix of the path. -/
def SharesGlobal (input : EngineInput) (s : input.State) (h : FunctionId) (g : GlobalId) (p : Path) : Prop :=
  h = GLOBAL_FRAME ∨ ∃ key rest : Path, p.segs = key.segs ++ rest.segs ∧ input.ReadsGlobal s h g key

theorem mem_tagSplits {ps : PathSet} {p key rest : Path} (known : p ∈ ps ∨ p = .empty)
    (split : p.segs = key.segs ++ rest.segs) : (key, rest) ∈ tagSplits ps p := by
  unfold tagSplits
  split_ifs with blank
  · obtain rfl := Path.isEmpty_iff.mp blank
    obtain ⟨left, right⟩ := List.append_eq_nil_iff.mp split.symm
    simp [Facts.Path.ext_iff, left, right]
  · have member := known.resolve_right fun empty => blank (Path.isEmpty_iff.mpr empty)
    exact PathSet.mem_splits_exact.mpr ⟨member, split⟩

section Saturation

variable {s : input.State} (sat : Saturated (IndexRules input) s) {f h : FunctionId} {g : GlobalId} {p : Path}
include sat

theorem globalRead_of_reads (outside : h ≠ GLOBAL_FRAME) (reads : input.ReadsGlobal s h g p) :
    Present s (.globalRead h g p) := by
  rcases reads with ⟨v1, p1, edge⟩ | ⟨insn, key, info⟩
  · exact sat.present (.globals (.readEdge edge outside rfl))
  · exact sat.present (.globals (.readCallee info rfl))

/-- A keyed label comes down into every reader of its key. -/
theorem labelRead_of_shares (outside : h ≠ GLOBAL_FRAME) (shares : input.SharesGlobal s h g p)
    (keyed : ∀ {key rest : Path}, p.segs = key.segs ++ rest.segs → Present s (.globalLabelKey g key p)) :
    Present s (.globalLabelRead h g p) := by
  obtain ⟨key, rest, split, reads⟩ := shares.resolve_left outside
  exact sat.present (.globals (.labelRead (keyed split) (globalRead_of_reads sat outside reads)))

/-- A target at a global path of any function is one of the frame. -/
theorem tag_up {tgt : CallTargetObject} (tag : Present s (.callTargetAssignLike f (.global g) p tgt)) :
    Present s (.callTargetAssignLike GLOBAL_FRAME (.global g) p tgt) := by
  by_cases frame : f = GLOBAL_FRAME
  · exact frame ▸ tag
  · exact sat.present (.globals (.tagUp tag frame rfl))

/-- A string at a global path of any function is one of the frame. -/
theorem string_up {str : Str} (label : Present s (.constReaches f (.global g) p str)) :
    Present s (.constReaches GLOBAL_FRAME (.global g) p str) := by
  by_cases frame : f = GLOBAL_FRAME
  · exact frame ▸ label
  · exact sat.present (.globals (.stringUp label frame rfl))

/-- Every function that shares the path holds the frame's target, and walks its tags. -/
theorem tag_down {tgt : CallTargetObject} (known : p ∈ input.pathSet ∨ p = .empty)
    (shares : input.SharesGlobal s h g p)
    (tag : Present s (.callTargetAssignLike GLOBAL_FRAME (.global g) p tgt)) :
    Present s (.callTargetAssignLike h (.global g) p tgt) ∧ Present s (.tagClosureFunc h) := by
  by_cases frame : h = GLOBAL_FRAME
  · subst frame
    exact ⟨tag, sat.present (.globals .closureFrame)⟩
  · have read := labelRead_of_shares sat frame shares fun split =>
      sat.present (.globals (.tagKey tag rfl (mem_tagSplits known split)))
    exact ⟨sat.present (.globals (.tagDown read tag)), sat.present (.globals (.closureDown read tag))⟩

/-- Every function that shares the path and tracks strings holds the frame's string. -/
theorem string_down {str : Str} (known : p ∈ input.pathSet ∨ p = .empty) (shares : input.SharesGlobal s h g p)
    (tracks : Present s (.intentFrame h)) (label : Present s (.constReaches GLOBAL_FRAME (.global g) p str)) :
    Present s (.constReaches h (.global g) p str) := by
  by_cases frame : h = GLOBAL_FRAME
  · exact frame ▸ label
  · have read := labelRead_of_shares sat frame shares fun split =>
      sat.present (.globals (.stringKey label rfl (mem_tagSplits known split)))
    exact sat.present (.globals (.stringDown read tracks label))

/-- Where tags are walked, one crosses every unconditional edge whose path its own matches. -/
theorem tag_crosses {tgt : CallTargetObject} {v1 v2 : FlowVariable} {p1 p2 q : Path}
    (demand : Present s (.tagClosureFunc h)) (tag : Present s (.callTargetAssignLike h v2 p tgt))
    (known : p ∈ input.pathSet ∨ p = .empty) (edge : Certain s (.assignLike h v1 p1 v2 p2))
    (source : p2 ∈ input.pathSet ∨ p2 = .empty) (moved : p.substitutePrefix p2 p1 = some q)
    (admissible : q ∈ input.pathSet) : Present s (.callTargetAssignLike h v1 q tgt) := by
  have walk : Saturated input.DemandRules s := fun r c fires => sat r c fires.1
  apply tag_step walk demand tag
  obtain ⟨suffix, found, rfl⟩ := Option.map_eq_some_iff.mp moved
  rw [prependOnto_eq_concat] at admissible ⊢
  rcases exact_or_wild_of_matchPrefix found with split | ⟨key, rest, m, adj, tail, wild⟩
  · exact .exact (mem_tagSplits known split) edge (PathSet.concat_none_eq_some_iff.mpr ⟨admissible, rfl⟩)
  · have long : p ≠ .empty := by
      rintro rfl
      obtain ⟨a, l, shape, -⟩ := wild.soft
      simpa [shape] using wild.long
    have short : p2 ≠ .empty := by
      rintro rfl
      simpa using wild.short
    have trailing := sat.held (.field (.assignWild edge
      (PathSet.splitTrailingOffset_eq_some.mpr ⟨source.resolve_right short, wild.short⟩)))
    obtain ⟨c, trailing, bound⟩ := trailing
    obtain rfl := top_le_iff.mp bound
    obtain ⟨suffix', found', lookup⟩ := wild.suffix
    obtain rfl := Option.some.inj (found'.symm.trans found)
    exact .wild (PathSet.mem_splits_wild.mpr ⟨known.resolve_right long, wild.long, wild.soft⟩) trailing wild.wild
      ((lookup _ _ _).mpr ⟨admissible, rfl⟩)

/-- Where strings are tracked, one crosses every unconditional edge whose path its own matches. -/
theorem string_crosses {str : Str} {v1 v2 : FlowVariable} {p1 p2 q : Path} (tracks : Present s (.intentFrame h))
    (label : Present s (.constReaches h v2 p str)) (edge : Certain s (.assignLike h v1 p1 v2 p2))
    (moved : p.substitutePrefix p2 p1 = some q) (admissible : q ∈ input.pathSet) :
    Present s (.constReaches h v1 q str) :=
  sat.present (.string (.step tracks label edge
    (PathSet.substitutePrefix_eq_some_iff.mpr ⟨admissible, moved⟩)))

end Saturation

/-- A function holds the target `tgt` at `$g.p`: it carries the tag, or stores the target there. -/
def HoldsTarget (input : EngineInput) (s : input.State) (f : FunctionId) (g : GlobalId) (p : Path)
    (tgt : CallTargetObject) : Prop :=
  Present s (.callTargetAssignLike f (.global g) p tgt) ∨ input.CallTargetAssign f (.global g) p tgt

/-- What a function stores into a global it also carries: it is walked because it stores there. -/
theorem HoldsTarget.tag {s : input.State} {f : FunctionId} {g : GlobalId} {p : Path} {tgt : CallTargetObject}
    (sat : Saturated (IndexRules input) s) (holds : input.HoldsTarget s f g p tgt) :
    Present s (.callTargetAssignLike f (.global g) p tgt) := by
  rcases holds with tag | stored
  · exact tag
  · have demand : Present s (.tagClosureFunc f) := by
      by_cases frame : f = GLOBAL_FRAME
      · exact frame ▸ sat.present (.globals .closureFrame)
      · have mention := sat.present (.root (.mentionTarget stored rfl))
        exact sat.present (.globals (.closureMention stored mention frame))
    exact sat.present (.tag (.stored stored demand))

section Lost

/-- The path `.[n].deref`. -/
def cell (n : Int64) : Path := .fromAccesses [.offset n, .deref]

/-- The path `.[n]`. -/
def addr (n : Int64) : Path := .fromAccesses [.offset n]

/-- The path of one field. -/
def fieldPath (name : String) : Path := .fromAccesses [.field name]

/-- The facts of three functions over the globals `g` and `k`. The first stores a target at `$g.[8].deref` and
one at `$k.x`, a path that is not admissible. The second reads `$g` at `.[4]`, and `$k` whole into a field. The
third calls through `$g.[8].deref`. A loaded flow reads `$g` at `.[2]`, which is not admissible either. -/
def shiftedRead : EngineInput where
  facts :=
    { formalParam := []
      actualParam := []
      call := []
      assign := [(⟨2, 20⟩, ⟨.local "x", .empty⟩, ⟨.global "g", addr 4⟩),
        (⟨2, 21⟩, ⟨.local "y", fieldPath "y"⟩, ⟨.global "k", .empty⟩)]
      callTargetAssign := [(⟨1, 10⟩, ⟨.global "g", cell 8⟩, .functionId 9),
        (⟨1, 11⟩, ⟨.global "k", fieldPath "x"⟩, .functionId 8)]
      constStrAssign := []
      calleeInfo := [(⟨3, 30⟩, ⟨.global "g", cell 8⟩, .c)]
      calleeResolvents := [(.functionId 9, .c, 9)]
      summary := []
      paths := [cell 4, cell 6, (fieldPath "y").concat (fieldPath "x")]
      intentFrame := []
      intentSend := []
      intentFilter := []
      intentComponent := []
      globalFlow := [("z", .empty, "g", addr 2)] }
  config := ⟨true, .decision, .sets, false⟩

/-- The rows a run of `shiftedRead` derives: the second function holds no label, and no label crosses an edge. -/
def ShiftedRow : Row → Prop
  | .assignLike f v1 p1 v2 p2 =>
    f = 2 ∧ (v1 = .local "x" ∧ p1 = .empty ∧ v2 = .global "g" ∧ p2 = addr 4 ∨
      v1 = .local "y" ∧ p1 = fieldPath "y" ∧ v2 = .global "k" ∧ p2 = .empty) ∨
    f = GLOBAL_FRAME ∧ v1 = .global "z" ∧ p1 = .empty ∧ v2 = .global "g" ∧ p2 = addr 2
  | .assignWild f _ _ _ v1 _ => f = 2 ∧ v1.asGlobal = none
  | .edgeSplit _ _ _ _ v1 _ | .edgeSplitWild _ _ _ _ v1 _ | .extDst _ v1 _ _ _ | .extFml _ v1 _ _ _ _ _ =>
    v1.asGlobal = none
  | .localsKey _ _ key rest p => p ∈ shiftedRead.pathSet ∧ p.segs = key.segs ++ rest.segs
  | .locals _ v p a q => ∀ g, v.asGlobal = some g → a = .global g ∧ p = .empty ∧ q = .empty
  | .callTargetAssignLike f v p _ | .callTargetVp f v p =>
    f ≠ 2 ∧ (v = .global "g" ∧ p = cell 8 ∨ v = .global "k" ∧ p = fieldPath "x")
  | .callTargetKey f v key rest _ => f ≠ 2 ∧ v = .global "g" ∧ (cell 8).segs = key.segs ++ rest.segs
  | .callTargetKeyWild f _ _ _ _ => f ≠ 2
  | .globalRead f g p => f ≠ 2 ∨ g = "g" ∧ p = addr 4 ∨ g = "k" ∧ p = .empty
  | .globalLabelKey g key p => g = "g" ∧ p = cell 8 ∧ ∃ rest : Path, p.segs = key.segs ++ rest.segs
  | .globalLabelRead f _ _ => f ≠ 2
  | .callTargetEdge .. | .summary .. | .aliasFlow .. | .contextSummaryD .. | .constReaches .. => False
  | _ => True

private theorem shifted_row {s : shiftedRead.State} {r : Row} {c : CondOf shiftedRead.hybridContext}
    (rows : ∀ r, Present s r → ShiftedRow r) (fires : IndexRules shiftedRead s r c) : ShiftedRow r := by
  have unread : ∀ {p : Path}, p ∈ shiftedRead.pathSet → p.segs.head? ≠ some (.offset 2) := by
    have members : ∀ p ∈ shiftedRead.pathSet.members, p.segs.head? ≠ some (.offset 2) := by decide
    exact fun {p} member => members p member
  have splits : ∀ {key rest}, (key, rest) ∉ tagSplits shiftedRead.pathSet (fieldPath "x") := by
    intro key rest
    rw [show tagSplits shiftedRead.pathSet (fieldPath "x") = [] by decide]
    exact List.not_mem_nil
  have whole : ∀ {key rest : Path}, (key, rest) ∈ tagSplits shiftedRead.pathSet (cell 8) →
      (cell 8).segs = key.segs ++ rest.segs := fun split => (PathSet.mem_splits_exact.mp split).2
  have shifted : ∀ {rest : Path}, (cell 8).segs ≠ (addr 2).segs ++ rest.segs ∧
      (cell 8).segs ≠ (addr 4).segs ++ rest.segs := by
    refine ⟨fun split => ?_, fun split => ?_⟩
    · exact absurd (congrArg List.head? split) (show some (PathSegment.offset 8) ≠ some (.offset 2) by decide)
    · exact absurd (congrArg List.head? split) (show some (PathSegment.offset 8) ≠ some (.offset 4) by decide)
  have aliasless : ∀ {f v n}, ¬ shiftedRead.AliasOfFormal f v n := by
    intro f v n aliased
    induction aliased with
    | formal param => cases param
    | global copied | copy _ copied => cases copied
  cases fires with
  | root fires => cases fires with
    | formal param => cases param
    | global mention =>
      intro g' named
      obtain rfl : _ = g' := by simpa [FlowVariable.asGlobal] using named
      exact ⟨rfl, rfl, rfl⟩
    | _ => trivial
  | field fires => cases fires with
    | localsKey _ split => exact PathSet.mem_splits_exact.mp split
    | assignWild edge split =>
      have member := (PathSet.splitTrailingOffset_eq_some.mp split).1
      rcases rows _ edge.present with ⟨rfl, ⟨rfl, -⟩ | ⟨rfl, -⟩⟩ | ⟨-, -, -, -, rfl⟩
      · exact ⟨rfl, rfl⟩
      · exact ⟨rfl, rfl⟩
      · exact (unread member rfl).elim
    | edgeSplit edge split =>
      rcases rows _ edge.present with ⟨-, ⟨rfl, -⟩ | ⟨rfl, -⟩⟩ | ⟨-, -, -, -, rfl⟩
      · rfl
      · rfl
      · exact (unread (PathSet.mem_splits_exact.mp split).1 rfl).elim
    | edgeSplitWild edge split =>
      rcases rows _ edge.present with ⟨-, ⟨rfl, -⟩ | ⟨rfl, -⟩⟩ | ⟨-, -, -, -, rfl⟩
      · rfl
      · rfl
      · exact (unread (PathSet.mem_splits_wild.mp split).1 rfl).elim
    | extDst keyed edge =>
      rcases rows _ edge.present with ⟨-, ⟨rfl, -⟩ | ⟨rfl, -⟩⟩ | ⟨-, -, -, -, rfl⟩
      · rfl
      · rfl
      · obtain ⟨member, split⟩ := rows _ keyed
        exact (unread member (by rw [split]; rfl)).elim
    | extDstWild _ edge => exact (rows _ edge.present).2
    | extFml ext => exact (rows _ ext.present :)
    | localsDst ext | localsFml ext | localsFmlWild ext =>
      intro g named
      cases (rows _ ext.present).symm.trans named
    | _ => trivial
  | call fires => cases fires with
    | actualOut param | actualIn param => cases param
    | instantiate flow => exact (rows _ flow.present).elim
    | direct => trivial
  | string fires => cases fires with
    | stored _ fact => cases fact.choose_spec
    | step _ label => exact (rows _ label).elim
    | _ => trivial
  | summary fires => cases fires with
    | formal _ param => cases param
    | frameEdge row _ dst src moved =>
      obtain ⟨rfl, rfl, rfl⟩ := rows _ row.present _ dst
      simp_all [Root.asGlobal]
    | aliased flow | aliasFrame flow => exact (rows _ flow).elim
    | aliasFlow _ _ _ _ aliased => exact aliasless aliased
  | globalSummary fires =>
    obtain ⟨row, -, dst, -, moved⟩ := fires
    obtain ⟨rfl, rfl, rfl⟩ := rows _ row.present _ dst
    simp at moved
  | scan fires => cases fires with
    | direct _ flow | via _ flow => exact (rows _ flow.present).elim
  | sets fires => cases fires with
    | direct _ flow | via _ flow => exact (rows _ flow.present).elim
    | _ => trivial
  | unfold fires => cases fires with
    | summaryD _ flow | topSummaryD _ _ flow => exact (rows _ flow.present).elim
    | direct flow | via flow => exact (rows _ flow).elim
    | topFunc => trivial
  | tag fires => cases fires with
    | stored fact =>
      obtain ⟨insn, fact⟩ := fact
      simp only [shiftedRead, List.mem_cons, Prod.mk.injEq, InsnSiteId.mk.injEq, FlowVertex.mk.injEq, List.not_mem_nil,
        or_false] at fact
      rcases fact with ⟨⟨rfl, -⟩, ⟨rfl, rfl⟩, -⟩ | ⟨⟨rfl, -⟩, ⟨rfl, rfl⟩, -⟩
      · exact ⟨by decide, .inl ⟨rfl, rfl⟩⟩
      · exact ⟨by decide, .inr ⟨rfl, rfl⟩⟩
    | vp _ tag => exact (rows _ tag :)
    | key vp split =>
      obtain ⟨outside, ⟨rfl, rfl⟩ | ⟨rfl, rfl⟩⟩ := rows _ vp
      · exact ⟨outside, rfl, whole split⟩
      · exact (splits split).elim
    | keyWild vp => exact (rows _ vp).1
    | edge keyed edge =>
      obtain ⟨outside, rfl, split⟩ := rows _ keyed
      rcases rows _ edge.present with ⟨rfl, -⟩ | ⟨-, -, -, -, rfl⟩
      · exact outside rfl
      · exact shifted.1 split
    | edgeWild keyed edge => exact rows _ keyed (rows _ edge.present).1
    | step edge => exact (rows _ edge).elim
    | returned _ param => cases param
    | _ => trivial
  | globals fires => cases fires with
    | readEdge edge inside named =>
      rcases rows _ edge with ⟨rfl, ⟨-, -, rfl, rfl⟩ | ⟨-, -, rfl, rfl⟩⟩ | ⟨frame, -⟩
      · exact .inr (.inl ⟨by simpa [FlowVariable.asGlobal] using named.symm, rfl⟩)
      · exact .inr (.inr ⟨by simpa [FlowVariable.asGlobal] using named.symm, rfl⟩)
      · exact (inside frame).elim
    | readCallee info =>
      simp only [CalleeInfo, shiftedRead, List.mem_singleton, Prod.mk.injEq, InsnSiteId.mk.injEq] at info
      obtain ⟨⟨rfl, -⟩, -⟩ := info
      exact .inl (by decide)
    | tagUp tag => exact ⟨by decide, (rows _ tag).2⟩
    | stringUp label | stringKey label | stringDown _ _ label => exact (rows _ label).elim
    | tagKey tag named split =>
      obtain ⟨-, ⟨rfl, rfl⟩ | ⟨rfl, rfl⟩⟩ := rows _ tag
      · exact ⟨by simpa [FlowVariable.asGlobal] using named.symm, rfl, _, whole split⟩
      · exact (splits split).elim
    | labelRead keyed read =>
      rintro rfl
      obtain ⟨rfl, rfl, rest, split⟩ := rows _ keyed
      rcases rows _ read with outside | ⟨-, rfl⟩ | ⟨wrong, -⟩
      · exact outside rfl
      · exact shifted.2 split
      · exact absurd wrong (by decide)
    | tagDown read tag => exact ⟨rows _ read, (rows _ tag).2⟩
    | _ => trivial
  | hybrid fires => cases fires <;> trivial

end Lost

end EngineInput

end Ctadl.Index
