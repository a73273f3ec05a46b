import Ctadl.Cir.Names
import Ctadl.Moves.Parallel

/-! # Assignments as moves

What an assignment of the intermediate representation does to variables and to the memory behind access paths:
sources are read along their paths, and a destination with a path is a store to its last segment. The frontends
emit assignments with at most one segment on either side, and these are moves (`acts_assign`).
-/

namespace Ctadl.Moves

open Cir

variable {L H : Type}

abbrev IrMove := Move Variable PathSegment CallObject

abbrev IrObjects (L H : Type) := Objects L PathSegment CallObject H

section Execution

variable (m : IrObjects L H) (s : State Variable L H)

def readPath (ap : AccessPath) : Set L := ap.segments.foldl (m.load s.heap) (s.env ap.base.var)

/-- The labels of an operand. The value of a path carries the labels of the path, and a literal carries none. -/
def readExp : Exp → Set L
  | .path ap | .value ap => readPath m s ap
  | .objectRef object => m.object object
  | .str _ | .int _ | .bytes _ => ∅

def readExps (sources : List Exp) : Set L := {label | ∃ source ∈ sources, label ∈ readExp m s source}

/-- One assignment. Other statements are not moves. -/
def exec : Statement → Option (State Variable L H)
  | .assign dest sources =>
    match dest.segments.reverse with
    | [] => some (s.set dest.base.var (readExps m s sources))
    | last :: back =>
      let object := back.reverse.foldl (m.load s.heap) (s.env dest.base.var)
      some { s with heap := m.store s.heap object last (readExps m s sources) }
  | .callAssign .. | .phi .. | .nop => none

end Execution

def execAll (m : IrObjects L H) (s : State Variable L H) (statements : List Statement) :
    Option (State Variable L H) :=
  statements.foldlM (exec m) s

/-- In order, the statements have the effect of the moves at once, up to temporaries. The variables of `clean`
hold no labels. -/
def Correct (clean temps : Set Variable) (statements : List Statement) (effect : List IrMove) : Prop :=
  ∀ (L H : Type) (m : IrObjects L H) (s : State Variable L H), (∀ v ∈ clean, s.env v = ∅) →
    ∃ t, execAll m s statements = some t ∧ Agrees temps t (m.parallel s effect)

/-- The statement is the move. -/
def Acts (statement : Statement) (move : IrMove) : Prop :=
  ∀ (L H : Type) (m : IrObjects L H) (s : State Variable L H), exec m s statement = some (m.step s move)

theorem execAll_eq_run (m : IrObjects L H) (s : State Variable L H) {statements : List Statement}
    {moves : List IrMove} (acts : List.Forall₂ Acts statements moves) :
    execAll m s statements = some (m.run s moves) := by
  induction acts generalizing s with
  | nil => rfl
  | @cons _ move _ _ first _ ih =>
    rw [Objects.run_cons, ← ih, execAll, List.foldlM_cons, first L H m s]
    rfl

theorem correct_iff_realizes {clean temps : Set Variable} {statements : List Statement} {moves effect : List IrMove}
    (acts : List.Forall₂ Acts statements moves) :
    Correct clean temps statements effect ↔ Realizes clean temps moves effect := by
  constructor
  · intro correct L H m s empty
    obtain ⟨t, runs, agrees⟩ := correct L H m s empty
    obtain rfl : m.run s moves = t := Option.some.inj ((execAll_eq_run m s acts).symm.trans runs)
    exact agrees
  · intro realizes L H m s empty
    exact ⟨m.run s moves, execAll_eq_run m s acts, realizes L H m s empty⟩

/-! ## Operands with at most one segment -/

/-- What an operand with at most one segment reads. -/
def sourcesOf : Exp → List (Source Variable PathSegment CallObject)
  | .path ap | .value ap =>
    match ap.segments with
    | [] => [.var ap.base.var]
    | f :: _ => [.field ap.base.var f]
  | .objectRef object => [.object object]
  | .str _ | .int _ | .bytes _ => []

def Short (exp : Exp) : Prop := ∀ ap, exp.accessPath = some ap → ap.segments.length ≤ 1

/-- Literals and objects. -/
theorem short_of_pathless {exp : Exp} (pathless : exp.accessPath = none) : Short exp := by
  intro ap same
  rw [pathless] at same
  cases same

theorem field_notMem_of_pathless {exp : Exp} (pathless : exp.accessPath = none) (v : Variable) (f : PathSegment) :
    .field v f ∉ sourcesOf exp := by
  cases exp with
  | path ap => cases pathless
  | value ap => cases pathless
  | objectRef object => simp [sourcesOf]
  | str text => exact List.not_mem_nil
  | int number => exact List.not_mem_nil
  | bytes data => exact List.not_mem_nil

theorem readPath_of_short (m : IrObjects L H) (s : State Variable L H) {ap : AccessPath}
    (short : ap.segments.length ≤ 1) : readPath m s ap = m.readAll s (sourcesOf (.path ap)) := by
  obtain ⟨base, segments⟩ := ap
  match segments, short with
  | [], _ => exact (m.readAll_singleton s (.var base.var)).symm
  | [f], _ => exact (m.readAll_singleton s (.field base.var f)).symm

theorem readExp_of_short (m : IrObjects L H) (s : State Variable L H) {exp : Exp} (short : Short exp) :
    readExp m s exp = m.readAll s (sourcesOf exp) := by
  cases exp with
  | path ap => exact readPath_of_short m s (short ap rfl)
  | value ap => exact readPath_of_short m s (short ap rfl)
  | objectRef object => exact (m.readAll_singleton s (.object object)).symm
  | str text => exact (m.readAll_nil s).symm
  | int number => exact (m.readAll_nil s).symm
  | bytes data => exact (m.readAll_nil s).symm

theorem readExps_of_short (m : IrObjects L H) (s : State Variable L H) {exps : List Exp}
    (short : ∀ exp ∈ exps, Short exp) : readExps m s exps = m.readAll s (exps.flatMap sourcesOf) := by
  apply Set.ext
  intro label
  constructor
  · rintro ⟨exp, member, inside⟩
    obtain ⟨source, listed, labelled⟩ := readExp_of_short m s (short exp member) ▸ inside
    exact ⟨source, List.mem_flatMap.mpr ⟨exp, member, listed⟩, labelled⟩
  · rintro ⟨source, listed, labelled⟩
    obtain ⟨exp, member, inside⟩ := List.mem_flatMap.mp listed
    exact ⟨exp, member, readExp_of_short m s (short exp member) ▸ ⟨source, inside, labelled⟩⟩

theorem acts_assign (v : Variable) {exps : List Exp} (short : ∀ exp ∈ exps, Short exp) :
    Acts (assign v exps) ⟨.var v, exps.flatMap sourcesOf⟩ := by
  intro L H m s
  simp only [assign, exec, AccessPath.ofRef, List.reverse_nil, readExps_of_short m s short]
  rfl

theorem acts_store (v : Variable) (f : PathSegment) {exp : Exp} (short : Short exp) :
    Acts (store v f exp) ⟨.field v f, sourcesOf exp⟩ := by
  intro L H m s
  have read : readExps m s [exp] = m.readAll s (sourcesOf exp) := by
    rw [readExps_of_short m s (by simpa using short), List.flatMap_singleton]
  simp only [store, exec, List.reverse_singleton, List.reverse_nil, List.foldl_nil, read]
  rfl

theorem short_pathOf (v : Variable) : Short (pathOf v) := by
  intro ap same
  cases same
  exact Nat.zero_le 1

theorem short_valueOf (v : Variable) : Short (valueOf v) := by
  intro ap same
  cases same
  exact Nat.zero_le 1

theorem acts_assign_one (v : Variable) {exp : Exp} (short : Short exp) :
    Acts (assign v [exp]) ⟨.var v, sourcesOf exp⟩ := by
  have acts : Acts (assign v [exp]) ⟨.var v, [exp].flatMap sourcesOf⟩ := acts_assign v (by simpa using short)
  rwa [List.flatMap_singleton] at acts

theorem acts_load (v w : Variable) (f : PathSegment) : Acts (load v w f) ⟨.var v, [.field w f]⟩ := by
  apply acts_assign_one v
  intro ap same
  cases same
  exact le_rfl

/-- A copy of several variables, or of their values. -/
theorem acts_operands {α : Type} (v : Variable) (valueOnly : Bool) (operands : List α) (var : α → Variable) :
    Acts (assign v (operands.map fun a => (if valueOnly then valueOf else pathOf) (var a)))
      ⟨.var v, operands.map fun a => .var (var a)⟩ := by
  let exps := operands.map fun a => (if valueOnly then valueOf else pathOf) (var a)
  have acts : Acts (assign v exps) ⟨.var v, exps.flatMap sourcesOf⟩ := acts_assign v (by
    intro exp member
    obtain ⟨a, -, rfl⟩ := List.mem_map.mp member
    cases valueOnly with
    | true => exact short_valueOf _
    | false => exact short_pathOf _)
  rw [List.flatMap_map] at acts
  have one : (fun a => sourcesOf ((if valueOnly then valueOf else pathOf) (var a))) = fun a => [.var (var a)] := by
    funext a
    cases valueOnly <;> rfl
  rwa [one, ← List.map_eq_flatMap] at acts

theorem acts_map {α : Type} {dests : List α} {f : α → Statement} {g : α → IrMove} (acts : ∀ d, Acts (f d) (g d)) :
    List.Forall₂ Acts (dests.map f) (dests.map g) := by
  rw [List.forall₂_map_left_iff, List.forall₂_map_right_iff, List.forall₂_same]
  exact fun d _ => acts d

/-! ## Effects of one shape -/

section Shapes

variable {α : Type} {clean temps : Set Variable}

/-- Several destinations get the labels of the same sources, whose objects stay. -/
theorem correct_same {dests : List α} {var : α → Variable} {statement : Variable → Statement}
    {sources : List (Source Variable PathSegment CallObject)} (acts : ∀ v, Acts (statement v) ⟨.var v, sources⟩)
    (spared : ∀ d ∈ dests.dropLast, ∀ f, .field (var d) f ∉ sources) :
    Correct clean temps (dests.map fun d => statement (var d)) (dests.map fun d => ⟨.var (var d), sources⟩) := by
  rw [correct_iff_realizes (acts_map fun d => acts (var d))]
  have same : Realizes clean temps ((dests.map var).map fun v => (⟨.var v, sources⟩ : IrMove))
      ((dests.map var).map fun v => ⟨.var v, sources⟩) := realizes_same (by
    intro v inside f
    rw [← List.map_dropLast] at inside
    obtain ⟨d, early, rfl⟩ := List.mem_map.mp inside
    exact spared d early f)
  rwa [List.map_map] at same

/-- Several destinations get the labels of a literal or an object. -/
theorem correct_pathless {dests : List α} {var : α → Variable} {exp : Exp} (pathless : exp.accessPath = none) :
    Correct clean temps (dests.map fun d => assign (var d) [exp])
      (dests.map fun d => ⟨.var (var d), sourcesOf exp⟩) :=
  correct_same (fun v => acts_assign_one v (short_of_pathless pathless))
    fun _ _ f => field_notMem_of_pathless pathless _ f

/-- Several destinations get the labels of a field, of an object that only the last may overwrite. -/
theorem correct_load {dests : List α} {var : α → Variable} {w : Variable} {f : PathSegment}
    (spared : ∀ d ∈ dests.dropLast, var d ≠ w) :
    Correct clean temps (dests.map fun d => load (var d) w f) (dests.map fun d => ⟨.var (var d), [.field w f]⟩) := by
  apply correct_same fun v => acts_load v w f
  intro d early g member
  cases List.mem_singleton.mp member
  exact spared d early rfl

/-- Several destinations get what a variable without labels holds. -/
theorem correct_clean {dests : List α} {var : α → Variable} {v : Variable} (inside : v ∈ clean)
    (apart : ∀ d, var d ≠ v) :
    Correct clean temps (dests.map fun d => assign (var d) [pathOf v]) (dests.map fun d => ⟨.var (var d), []⟩) := by
  rw [correct_iff_realizes (acts_map fun d => acts_assign_one (var d) (short_pathOf v))]
  have realizes : Realizes clean temps ((dests.map var).map fun w => (⟨.var w, [.var v]⟩ : IrMove))
      ((dests.map var).map fun w => ⟨.var w, []⟩) := realizes_clean inside (by
      intro listed
      obtain ⟨d, -, same⟩ := List.mem_map.mp listed
      exact apart d same)
  rwa [List.map_map, List.map_map] at realizes

/-- The object is the first of two destinations. -/
theorem not_correct_load {v w : Variable} {f : PathSegment} (visible : w ∉ temps) :
    ¬ Correct clean temps [load v v f, load w v f] [⟨.var v, [.field v f]⟩, ⟨.var w, [.field v f]⟩] := by
  rw [correct_iff_realizes (.cons (acts_load v v f) (.cons (acts_load w v f) .nil))]
  exact not_realizes_clobbered visible

end Shapes

end Ctadl.Moves
