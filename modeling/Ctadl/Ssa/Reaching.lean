import Ctadl.Ssa.Modes

/-! # What reaches a use and what it stands for

Before the conversion a definition reaches a use if a path leads from it to the use that passes no other definition of the
variable; after it the use stands for definitions through its version and the operands of phis. Every use of a function stands
for exactly what reaches it as long as no variable that is read somewhere with the value it comes in with has a definition that
comes back to the start (`PrunedRan.exact_iff`), where no phi has an operand for the incoming value. The values a return
reads are read one after another once it is rewritten, so that a local with the name of a return variable may be set before it
is read (`ReadsReturned`).
-/

namespace Ctadl.Ssa

open Function Relation Cir Ctadl.Graph Flowgraph SsaRename

/-- The definitions of a variable that reach a point of a function, `none` being the value the variable comes in with. A point of
a block is the number of definitions of the block before it. -/
inductive Reaches (blocks : List BasicBlockData) (v : Variable) : ℕ → ℕ → Option (ℕ × ℕ) → Prop
  | entry : Reaches blocks v 0 0 none
  | define {b k : ℕ} {block : BasicBlockData} (here : blocks[b]? = some block)
      (defines : (definedVars block.statements)[k]? = some v) : Reaches blocks v b (k + 1) (some (b, k))
  | pass {b k : ℕ} {block : BasicBlockData} {w : Variable} {d : Option (ℕ × ℕ)} (here : blocks[b]? = some block)
      (defines : (definedVars block.statements)[k]? = some w) (other : w ≠ v) (before : Reaches blocks v b k d) :
      Reaches blocks v b (k + 1) d
  | flow {b c : ℕ} {block : BasicBlockData} {d : Option (ℕ × ℕ)} (here : blocks[b]? = some block)
      (out : c ∈ block.successors) (atEnd : Reaches blocks v b (definedVars block.statements).length d) : Reaches blocks v c 0 d

/-- The references that statements and then a terminator read, each with the number of definitions before it. -/
def usesFrom (term : Option Terminator) : ℕ → List Statement → List (VariableRef × ℕ)
  | k, [] => ((term.map Terminator.srcVars).getD []).map (·, k)
  | k, st :: rest => st.srcVars.map (·, k) ++ usesFrom term (k + st.dstVars.length) rest

/-- What a block reads and at which of its points. -/
def uses (block : BasicBlockData) : List (VariableRef × ℕ) := usesFrom block.terminator 0 block.statements

/-- The definitions a version stands for through the operands of phis, given by their blocks and their places in them. Version 0
is the value the variable comes in with. -/
inductive StandsFor (blocks : List BasicBlockData) : VariableRef → Option (ℕ × ℕ) → Prop
  | incoming (v : Variable) : StandsFor blocks ⟨v, some 0⟩ none
  | definition {ref : VariableRef} {b k : ℕ} {block : BasicBlockData} (here : blocks[b]? = some block)
      (defines : (plainDefs block)[k]? = some ref) : StandsFor blocks ref (some (b, k))
  | operand {ref : VariableRef} {b : ℕ} {operands : List (ℕ × VariableRef)} {op : ℕ × VariableRef} {d : Option (ℕ × ℕ)}
      (phi : HasPhi blocks b ref operands) (member : op ∈ operands) (stands : StandsFor blocks op.2 d) : StandsFor blocks ref d

/-- A use has become a reference to the same variable that stands for exactly the definitions that reach the use. -/
def Exact (blocks out : List BasicBlockData) (b : ℕ) (use : VariableRef × ℕ) (used : VariableRef) : Prop :=
  used.var = use.1.var ∧ (use.1.var.isGlobal = false → ∀ d, StandsFor out used d ↔ Reaches blocks use.1.var b use.2 d)

/-- Some use reads the value a variable comes in with, and a definition of the variable comes back to the start. -/
structure Rejoins (blocks : List BasicBlockData) (v : Variable) : Prop where
  isLocal : v.isGlobal = false
  readsEntry : ∃ b block ref k, blocks[b]? = some block ∧ (ref, k) ∈ uses block ∧ ref.var = v ∧ Reaches blocks v b k none
  returns : ∃ d, Reaches blocks v 0 0 (some d)

section Points

/-- The last of the first definitions that is one of the variable. -/
def lastBefore (vars : List Variable) (v : Variable) : ℕ → Option ℕ
  | 0 => none
  | k + 1 => if vars[k]? = some v then some k else lastBefore vars v k

variable {vars : List Variable} {v : Variable} {j k : ℕ}

theorem lastBefore_eq_none : lastBefore vars v k = none ↔ ∀ j < k, vars[j]? ≠ some v := by
  induction k with
  | zero => simp [lastBefore]
  | succ k ih =>
    rw [lastBefore]
    split_ifs with here
    · simp only [false_iff, not_forall]
      exact ⟨k, k.lt_succ_self, fun other => other here⟩
    · rw [ih]
      constructor
      · intro before j less
        rcases Nat.lt_succ_iff_lt_or_eq.mp less with earlier | rfl
        exacts [before j earlier, here]
      · exact fun before j less => before j (by omega)

theorem lastBefore_length : lastBefore vars v vars.length = none ↔ v ∉ vars := by
  rw [lastBefore_eq_none, List.mem_iff_getElem?, not_exists]
  constructor
  · intro before j here
    exact before j (List.getElem?_eq_some_iff.mp here).1 here
  · exact fun absent j _ => absent j

theorem lt_of_lastBefore (last : lastBefore vars v k = some j) : j < k := by
  induction k with
  | zero => cases last
  | succ k ih =>
    rw [lastBefore] at last
    split_ifs at last with here
    · obtain rfl := Option.some.inj last
      exact k.lt_succ_self
    · exact (ih last).trans k.lt_succ_self

theorem le_of_lastBefore (last : lastBefore vars v k = some j) {i : ℕ} (less : i < k) (here : vars[i]? = some v) : i ≤ j := by
  induction k with
  | zero => exact nomatch last
  | succ k ih =>
    rw [lastBefore] at last
    split_ifs at last with atEnd
    · obtain rfl := Option.some.inj last
      omega
    · rcases Nat.lt_succ_iff_lt_or_eq.mp less with earlier | rfl
      exacts [ih last earlier, absurd here atEnd]

theorem getElem?_of_lastBefore (last : lastBefore vars v k = some j) : vars[j]? = some v := by
  induction k with
  | zero => exact nomatch last
  | succ k ih =>
    rw [lastBefore] at last
    split_ifs at last with here
    · obtain rfl := Option.some.inj last
      exact here
    · exact ih last

/-- The version on top after some definitions of a list. -/
theorem topAfter_take (refs : List VariableRef) (v : Variable) (k : ℕ) (top : Option ℕ) : topAfter v (refs.take k) top =
    match lastBefore (refs.map VariableRef.var) v k with
    | some j => refs[j]?.bind VariableRef.version
    | none => top := by
  induction k with
  | zero => rfl
  | succ k ih =>
    rw [List.take_add_one, topAfter_append, ih, lastBefore]
    cases here : refs[k]? with
    | none => simp [here, topAfter]
    | some ref =>
      by_cases same : ref.var = v
      · simp [here, topAfter, same]
      · simp [here, topAfter, same]

/-- The variables the statements of a block define. -/
def varsAt (blocks : List BasicBlockData) (b : ℕ) : List Variable :=
  (blocks[b]?.map fun block => definedVars block.statements).getD []

theorem varsAt_eq {blocks : List BasicBlockData} {b : ℕ} {block : BasicBlockData} (here : blocks[b]? = some block) :
    varsAt blocks b = definedVars block.statements := by
  rw [varsAt, here]
  rfl

/-- The last definition of the variable in a block. -/
def lastSite (blocks : List BasicBlockData) (v : Variable) (b : ℕ) : Option (ℕ × ℕ) :=
  (lastBefore (varsAt blocks b) v (varsAt blocks b).length).map (b, ·)

variable {blocks : List BasicBlockData} {b c : ℕ} {block : BasicBlockData} {d : Option (ℕ × ℕ)}

theorem lastSite_eq_none : lastSite blocks v b = none ↔ site blocks v b = none := by
  rw [lastSite, Option.map_eq_none_iff, lastBefore_length, site_eq_none, mem_assigns, varsAt]
  cases blocks[b]? <;> simp

/-- A point behind no definition of the variable in its block is reached by what reaches the block. -/
theorem Reaches.pass_all (here : blocks[b]? = some block) (inside : k ≤ (definedVars block.statements).length)
    (clear : lastBefore (definedVars block.statements) v k = none) (start : Reaches blocks v b 0 d) : Reaches blocks v b k d := by
  induction k with
  | zero => exact start
  | succ k ih =>
    rw [lastBefore_eq_none] at clear
    have defines := List.getElem?_eq_getElem (by omega : k < (definedVars block.statements).length)
    refine .pass here defines ?_ (ih (by omega) (lastBefore_eq_none.mpr fun j less => clear j (by omega)))
    rintro rfl
    exact clear k k.lt_succ_self defines

theorem Reaches.of_last (here : blocks[b]? = some block) (inside : k ≤ (definedVars block.statements).length)
    (last : lastBefore (definedVars block.statements) v k = some j) : Reaches blocks v b k (some (b, j)) := by
  induction k with
  | zero => exact nomatch last
  | succ k ih =>
    rw [lastBefore] at last
    split_ifs at last with defines
    · obtain rfl := Option.some.inj last
      exact .define here defines
    · have other := List.getElem?_eq_getElem (by omega : k < (definedVars block.statements).length)
      refine .pass here other ?_ (ih (by omega) last)
      rintro rfl
      exact defines other

/-- What reaches the start of a block over the edges of the graph reaches its first point. -/
theorem Reaches.of_reachesEntry (reaches : ReachesEntry (cfg blocks).Edge 0 (lastSite blocks v) b d) : Reaches blocks v b 0 d := by
  have atEnd : ∀ {b d block}, ReachesExit (cfg blocks).Edge 0 (lastSite blocks v) b d → blocks[b]? = some block →
      Reaches blocks v b (definedVars block.statements).length d := by
    intro b d block reaches here
    have clearOf : ∀ {b block}, blocks[b]? = some block → lastSite blocks v b = none →
        lastBefore (definedVars block.statements) v (definedVars block.statements).length = none := by
      intro b block here clear
      rw [lastSite, Option.map_eq_none_iff, varsAt_eq here] at clear
      exact clear
    induction reaches generalizing block with
    | entry clear => exact .pass_all here le_rfl (clearOf here clear) .entry
    | last defines =>
      rw [lastSite, varsAt_eq here, Option.map_eq_some_iff] at defines
      obtain ⟨j, last, rfl⟩ := defines
      exact .of_last here le_rfl last
    | pass out clear _ ih =>
      obtain ⟨before, there, isNext⟩ := mem_successors.mp out
      exact .pass_all here le_rfl (clearOf here clear) (.flow there isNext (ih there))
  rcases reaches with ⟨rfl, rfl⟩ | ⟨u, out, reaches⟩
  · exact .entry
  · obtain ⟨before, there, isNext⟩ := mem_successors.mp out
    exact .flow there isNext (atEnd reaches there)

/-- What reaches a point: the last definition of the variable before it in its block, or else what reaches the block. -/
theorem Reaches.spec (reaches : Reaches blocks v b k d) :
    (∃ j, lastBefore (varsAt blocks b) v k = some j ∧ d = some (b, j)) ∨
      lastBefore (varsAt blocks b) v k = none ∧ ReachesEntry (cfg blocks).Edge 0 (lastSite blocks v) b d := by
  induction reaches with
  | entry => exact .inr ⟨rfl, .inl ⟨rfl, rfl⟩⟩
  | @define b k block here defines =>
    refine .inl ⟨k, ?_, rfl⟩
    rw [varsAt_eq here, lastBefore, if_pos defines]
  | @pass b k block w d here defines other _ ih =>
    have same : lastBefore (varsAt blocks b) v (k + 1) = lastBefore (varsAt blocks b) v k := by
      rw [varsAt_eq here, lastBefore, if_neg]
      rw [defines]
      exact fun isV => other (Option.some.inj isV)
    rwa [same]
  | @flow b c block d here out _ ih =>
    refine .inr ⟨rfl, .of_exit (mem_successors.mpr ⟨block, here, out⟩) ?_⟩
    rw [← varsAt_eq here] at ih
    rcases ih with ⟨j, last, rfl⟩ | ⟨clear, reaches⟩
    · exact .last (by rw [lastSite, last]; rfl)
    · exact reaches.exit (by rw [lastSite, clear]; rfl)

theorem reaches_of_last (here : blocks[b]? = some block) (inside : k ≤ (definedVars block.statements).length)
    (last : lastBefore (definedVars block.statements) v k = some j) : Reaches blocks v b k d ↔ d = some (b, j) := by
  constructor
  · intro reaches
    rcases reaches.spec with ⟨i, same, rfl⟩ | ⟨clear, -⟩
    · rw [varsAt_eq here, last] at same
      rw [Option.some.inj same]
    · rw [varsAt_eq here, last] at clear
      exact nomatch clear
  · rintro rfl
    exact .of_last here inside last

theorem reaches_of_clear (here : blocks[b]? = some block) (inside : k ≤ (definedVars block.statements).length)
    (clear : lastBefore (definedVars block.statements) v k = none) :
    Reaches blocks v b k d ↔ ReachesEntry (cfg blocks).Edge 0 (lastSite blocks v) b d := by
  constructor
  · intro reaches
    rcases reaches.spec with ⟨i, same, -⟩ | ⟨-, reaches⟩
    · rw [varsAt_eq here, clear] at same
      exact nomatch same
    · exact reaches
  · exact fun reaches => .pass_all here inside clear (.of_reachesEntry reaches)

theorem reaches_zero : Reaches blocks v b 0 d ↔ ReachesEntry (cfg blocks).Edge 0 (lastSite blocks v) b d := by
  constructor
  · intro reaches
    rcases reaches.spec with ⟨i, same, -⟩ | ⟨-, reaches⟩
    · exact nomatch same
    · exact reaches
  · exact .of_reachesEntry

end Points

section Uses

variable {v : Variable} {ref : VariableRef} {k : ℕ} {names final : SsaRename} {sts sts' : List Statement}

/-- The references of renamed statements and of the terminator after them: those that were there, each with the version on top
where it stands. -/
theorem forall₂_usesFrom {term : Terminator} {rewriting : VariableRef → VariableRef} (base : Variable → Option ℕ)
    (front : List VariableRef) (renamed : names.statements sts = some (sts', final))
    (found : rewrite final.useTerm term.srcVars = some rewriting) (plain : ∀ st ∈ sts, st.isPhi = false)
    (bare : ∀ st ∈ sts, ∀ ref ∈ st.srcVars, ref.version = none) (tops : ∀ v, names.top v = topAfter v front (base v)) :
    List.Forall₂ (fun use used => used.var = use.1.var ∧ (use.1.var.isGlobal = false →
        used.version = topAfter use.1.var ((front ++ sts'.flatMap Statement.dstVars).take use.2) (base use.1.var)))
      (usesFrom (some term) front.length sts) (sts'.flatMap Statement.srcVars ++ (term.mapSrc rewriting).srcVars) := by
  have ofTop : ∀ {names : SsaRename} {ref used : VariableRef}, (if ref.var.isGlobal then some ref
      else (names.top ref.var).map ref.withVersion) = some used →
      used.var = ref.var ∧ (ref.var.isGlobal = false → used.version = names.top ref.var) := by
    intro names ref used found
    split_ifs at found with global
    · obtain rfl := Option.some.inj found
      exact ⟨rfl, fun isLocal => absurd global (by simp [isLocal])⟩
    · obtain ⟨i, top, rfl⟩ := Option.map_eq_some_iff.mp found
      exact ⟨rfl, fun _ => top.symm⟩
  induction sts generalizing names sts' front with
  | nil =>
    obtain ⟨rfl, rfl⟩ : sts' = [] ∧ final = names := by simpa [SsaRename.statements, eq_comm] using renamed
    simp only [usesFrom, Option.map_some, Option.getD_some, List.flatMap_nil, List.nil_append, List.append_nil,
      Terminator.srcVars_mapSrc, List.forall₂_map_left_iff, List.forall₂_map_right_iff, List.forall₂_same, List.take_length]
    intro ref member
    obtain ⟨sameVar, version⟩ := ofTop (mem_rewrite found ref member)
    exact ⟨sameVar, fun isLocal => (version isLocal).trans (tops ref.var)⟩
  | cons st sts ih =>
    simp only [SsaRename.statements, Option.bind_eq_bind, Option.bind_eq_some_iff, Option.some.injEq, Prod.mk.injEq,
      Prod.exists] at renamed
    obtain ⟨head, names₁, renamed₁, tail, final, rest, rfl, rfl⟩ := renamed
    obtain ⟨tops₁, vars₁, -, -⟩ := top_statement renamed₁
    have sameLength : head.dstVars.length = st.dstVars.length := by simpa using congrArg List.length vars₁
    have later := ih (front ++ head.dstVars) rest (fun s member => plain s (.tail _ member))
      (fun s member => bare s (.tail _ member)) fun v => by rw [tops₁ v, tops v, topAfter_append]
    rw [List.length_append, sameLength, List.append_assoc] at later
    rw [usesFrom, List.flatMap_cons, List.flatMap_cons, List.append_assoc]
    refine List.rel_append ?_ later
    obtain ⟨rewritten, used, srcs⟩ := srcVars_statement renamed₁ (plain st (.head _))
    rw [srcs, List.forall₂_map_left_iff, List.forall₂_map_right_iff, List.forall₂_same]
    intro ref member
    have open? : (ref.version.isSome || ref.var.isGlobal) = ref.var.isGlobal := by simp [bare st (.head _) ref member]
    have isUsed := used ref member
    rw [SsaRename.use, open?] at isUsed
    obtain ⟨sameVar, version⟩ := ofTop isUsed
    refine ⟨sameVar, fun isLocal => (version isLocal).trans ?_⟩
    rw [tops ref.var, List.take_left]

theorem le_of_mem_usesFrom {term : Option Terminator} {start : ℕ} (member : (ref, k) ∈ usesFrom term start sts) :
    start ≤ k ∧ k ≤ start + (definedVars sts).length := by
  induction sts generalizing start with
  | nil =>
    obtain ⟨_, -, same⟩ := List.mem_map.mp member
    obtain ⟨-, rfl⟩ := Prod.mk.inj same
    exact ⟨le_rfl, by simp⟩
  | cons st sts ih =>
    have more : (definedVars (st :: sts)).length = st.dstVars.length + (definedVars sts).length := by simp [definedVars]
    rw [more]
    rcases List.mem_append.mp member with here | later
    · obtain ⟨_, -, same⟩ := List.mem_map.mp here
      obtain ⟨-, rfl⟩ := Prod.mk.inj same
      omega
    · have := ih later
      omega

/-- A variable is read first in a block that reads it behind no definition of it. -/
theorem readsFirst_iff {term : Option Terminator} (bare : ∀ st ∈ sts, ∀ ref ∈ st.srcVars, ref.version = none)
    (isLocal : v.isGlobal = false) (start : ℕ) : PhiPlace.readsFirst v term sts = true ↔
      ∃ ref k, (ref, start + k) ∈ usesFrom term start sts ∧ ref.var = v ∧ lastBefore (definedVars sts) v k = none := by
  induction sts generalizing start with
  | nil =>
    have known : v ∈ (term.map PhiPlace.termVars).getD [] ↔ ∃ ref ∈ (term.map Terminator.srcVars).getD [], ref.var = v := by
      cases term with
      | none => simp
      | some term =>
        simp only [Option.map_some, Option.getD_some, PhiPlace.termVars, List.mem_map, List.mem_filter]
        constructor
        · rintro ⟨ref, ⟨source, -⟩, same⟩
          exact ⟨ref, source, same⟩
        · rintro ⟨ref, source, rfl⟩
          exact ⟨ref, ⟨source, by simp [isLocal]⟩, rfl⟩
    rw [PhiPlace.readsFirst, decide_eq_true_eq, known]
    constructor
    · rintro ⟨ref, source, same⟩
      exact ⟨ref, 0, List.mem_map.mpr ⟨ref, source, rfl⟩, same, rfl⟩
    · rintro ⟨ref, k, member, same, -⟩
      obtain ⟨_, source, isRef⟩ := List.mem_map.mp member
      exact ⟨ref, (Prod.mk.inj isRef).1 ▸ source, same⟩
  | cons st sts ih =>
    have split : definedVars (st :: sts) = st.dstVars.map VariableRef.var ++ definedVars sts := rfl
    have reads : v ∈ PhiPlace.useVars st ↔ ∃ ref ∈ st.srcVars, ref.var = v := by
      simp only [PhiPlace.useVars, List.mem_map, List.mem_filter]
      constructor
      · rintro ⟨ref, ⟨source, -⟩, same⟩
        exact ⟨ref, source, same⟩
      · rintro ⟨ref, source, rfl⟩
        exact ⟨ref, ⟨source, by simp [isLocal, bare st (.head _) ref source]⟩, rfl⟩
    have apart : ∀ k, lastBefore (definedVars (st :: sts)) v (st.dstVars.length + k) = none ↔
        v ∉ st.dstVars.map VariableRef.var ∧ lastBefore (definedVars sts) v k = none := by
      intro k
      rw [split, lastBefore_eq_none, lastBefore_eq_none]
      constructor
      · intro before
        refine ⟨fun defined => ?_, fun j less here => ?_⟩
        · obtain ⟨j, here⟩ := List.mem_iff_getElem?.mp defined
          have inside := (List.getElem?_eq_some_iff.mp here).1
          refine before j ?_ (by rw [List.getElem?_append_left inside, here])
          rw [List.length_map] at inside
          omega
        · refine before (st.dstVars.length + j) (by omega) ?_
          rw [List.getElem?_append_right (by simp), List.length_map, Nat.add_sub_cancel_left, here]
      · rintro ⟨absent, before⟩ j less here
        by_cases inside : j < st.dstVars.length
        · rw [List.getElem?_append_left (by simpa using inside)] at here
          exact absent (List.mem_of_getElem? here)
        · rw [List.getElem?_append_right (by simpa using inside), List.length_map] at here
          exact before (j - st.dstVars.length) (by omega) here
    simp only [PhiPlace.readsFirst, Bool.or_eq_true, decide_eq_true_eq, Bool.and_eq_true, reads,
      ih (fun s later => bare s (.tail _ later)) (start + st.dstVars.length), usesFrom, List.mem_append]
    constructor
    · rintro (⟨ref, source, same⟩ | ⟨absent, ref, k, later, same, clear⟩)
      · exact ⟨ref, 0, .inl (List.mem_map.mpr ⟨ref, source, rfl⟩), same, rfl⟩
      · refine ⟨ref, st.dstVars.length + k, .inr (by rwa [← Nat.add_assoc]), same, (apart k).mpr ⟨absent, clear⟩⟩
    · rintro ⟨ref, k, here | later, same, clear⟩
      · obtain ⟨_, source, isRef⟩ := List.mem_map.mp here
        exact .inl ⟨ref, (Prod.mk.inj isRef).1 ▸ source, same⟩
      · obtain ⟨j, rfl⟩ : ∃ j, k = st.dstVars.length + j := ⟨k - st.dstVars.length, by have := (le_of_mem_usesFrom later).1; omega⟩
        obtain ⟨absent, clear⟩ := (apart j).mp clear
        exact .inr ⟨absent, ref, j, by rwa [Nat.add_assoc], same, clear⟩

end Uses

section Tokens

variable {blocks : List BasicBlockData} {v : Variable} {start u w : ℕ} {parent : ℕ → ℕ} {phi : ℕ → Prop} {t : Token ℕ}

theorem site_ne_none : site blocks v u ≠ none ↔ lastSite blocks v u ≠ none := not_congr lastSite_eq_none.symm

/-- Which of its definitions is the last one of a block makes no difference to what is on top. -/
theorem topExit_lastSite :
    TopExit start parent (lastSite blocks v) phi u t ↔ TopExit start parent (site blocks v) phi u t := by
  constructor
  · intro top
    induction top with
    | last defines => exact .last (site_ne_none.mpr defines)
    | phi clear placed => exact .phi (lastSite_eq_none.mp clear) placed
    | entry clear bare => exact .entry (lastSite_eq_none.mp clear) bare
    | up clear bare inner _ ih => exact .up (lastSite_eq_none.mp clear) bare inner ih
  · intro top
    induction top with
    | last defines => exact .last (site_ne_none.mp defines)
    | phi clear placed => exact .phi (lastSite_eq_none.mpr clear) placed
    | entry clear bare => exact .entry (lastSite_eq_none.mpr clear) bare
    | up clear bare inner _ ih => exact .up (lastSite_eq_none.mpr clear) bare inner ih

theorem topEntry_lastSite :
    TopEntry start parent (lastSite blocks v) phi w t ↔ TopEntry start parent (site blocks v) phi w t := by
  simp only [TopEntry, topExit_lastSite]

/-- The placement of phis, with the last definitions of the blocks. -/
theorem placement_lastSite {tree : DominatorTree} (of : DominatorTree.Of (cfg blocks) tree) (reachable : (cfg blocks).AllReachable)
    (wellFormed : (cfg blocks).WellFormed) (mode : PhiMode) (v : Variable) :
    Placement (cfg blocks).Edge 0 tree.idom (lastSite blocks v) (Placed blocks mode tree v) tree.dfnum
      (fun z w => w ∈ (DominanceFrontier.new (cfg blocks) tree).frontier z)
      (· ∈ PhiPlace.iteratedFrontier blocks (DominanceFrontier.new (cfg blocks) tree) v)
      (fun y => mode = .minimal ∨ y ∈ PhiPlace.liveIn blocks v) where
  table := (placement of reachable wellFormed mode v).table
  source_reachable := (placement of reachable wellFormed mode v).source_reachable
  frontier_or_above := (placement of reachable wellFormed mode v).frontier_or_above
  iterated_closed source member :=
    (placement of reachable wellFormed mode v).iterated_closed (source.imp_left site_ne_none.mpr) member
  iterated_source inside := by
    obtain ⟨z, defines, path⟩ := (placement of reachable wellFormed mode v).iterated_source inside
    exact ⟨z, site_ne_none.mp defines, path⟩
  phi_iff := Iff.rfl
  live_back out isLive clear := (placement of reachable wellFormed mode v).live_back out isLive (lastSite_eq_none.mp clear)

end Tokens

section Resolution

/-- A run of the walk with pruned phis over the blocks of a function, and the versions it gives. -/
structure PrunedRan (f : FunctionData) (tree : DominatorTree) (out : List BasicBlockData) (entry exit : ℕ → SsaRename) : Prop where
  pre : PreSsa f
  nonempty : f.blocks ≠ []
  reachable : (cfg f.blocks).AllReachable
  of : DominatorTree.Of (cfg f.blocks) tree
  ran : Ran f.blocks .pruned tree out entry exit
  single : (definitions out).Nodup
  versioned : ∀ d ∈ definitions out, d.version.isSome ∧ d.version ≠ some 0

variable {f : FunctionData} {tree : DominatorTree} {out : List BasicBlockData} {entry exit : ℕ → SsaRename} {v : Variable}
  {b k : ℕ} {t : Token ℕ} {ref : VariableRef} {version : Option ℕ} {d : Option (ℕ × ℕ)} {b₀ b₁ : BasicBlockData}

namespace PrunedRan

variable (run : PrunedRan f tree out entry exit)
include run

theorem wellFormed : (cfg f.blocks).WellFormed := run.pre.wellFormed run.nonempty

theorem placement (v : Variable) :
    Placement (cfg f.blocks).Edge 0 tree.idom (lastSite f.blocks v) (Placed f.blocks .pruned tree v) tree.dfnum
      (fun z w => w ∈ (DominanceFrontier.new (cfg f.blocks) tree).frontier z)
      (· ∈ PhiPlace.iteratedFrontier f.blocks (DominanceFrontier.new (cfg f.blocks) tree) v)
      (fun y => PhiMode.pruned = .minimal ∨ y ∈ PhiPlace.liveIn f.blocks v) :=
  placement_lastSite run.of run.reachable run.wellFormed .pruned v

theorem isSome_of_standsFor (stands : StandsFor out ref d) : ref.version.isSome := by
  cases stands with
  | incoming v => rfl
  | definition here defines => exact (run.versioned _ (mem_definitions_of_plainDefs here (List.mem_of_getElem? defines))).1
  | operand phi _ _ => exact (run.versioned _ phi.mem_definitions).1

theorem vars_eq (here : f.blocks[b]? = some b₀) (there : out[b]? = some b₁) :
    (plainDefs b₁).map VariableRef.var = definedVars b₀.statements := by
  obtain ⟨c, phis, rest, mid, same, ran⟩ := run.ran.block here
  obtain rfl := Option.some.inj (there.symm.trans same)
  exact ran.plainDefs_vars (run.pre.plain _ (List.mem_of_getElem? here))

/-- The version of a definition stands for that definition. -/
theorem standsFor_definition (there : out[b]? = some b₁) (defines : (plainDefs b₁)[k]? = some ref) :
    StandsFor out ref d ↔ d = some (b, k) := by
  constructor
  · intro stands
    cases stands with
    | incoming v =>
      exact absurd rfl (run.versioned _ (mem_definitions_of_plainDefs there (List.mem_of_getElem? defines))).2
    | definition here defines' =>
      obtain ⟨rfl, rfl⟩ := plainDefs_unique run.single here there defines' defines
      rfl
    | operand phi _ _ => exact (phi.not_plainDefs run.single there (List.mem_of_getElem? defines)).elim
  · rintro rfl
    exact .definition there defines

/-- The last definition of a block has the version that the token for it names. -/
theorem names_last (names : Names out v version (.last b)) : ∃ b₁ k, out[b]? = some b₁ ∧ (plainDefs b₁)[k]? = some ⟨v, version⟩ ∧
    lastSite f.blocks v b = some (b, k) := by
  obtain ⟨b₁, there, defined, rfl⟩ := names
  have here := List.getElem?_eq_getElem (run.ran.length ▸ (List.getElem?_eq_some_iff.mp there).1 : b < f.blocks.length)
  have vars := run.vars_eq here there
  have top := topAfter_take (plainDefs b₁) v (plainDefs b₁).length none
  rw [List.take_length] at top
  cases last : lastBefore ((plainDefs b₁).map VariableRef.var) v (plainDefs b₁).length with
  | none =>
    rw [← List.length_map (f := VariableRef.var), lastBefore_length] at last
    exact absurd defined last
  | some k =>
    have isV := getElem?_of_lastBefore last
    rw [List.getElem?_map, Option.map_eq_some_iff] at isV
    obtain ⟨ref, defines, rfl⟩ := isV
    simp only [last, defines, Option.bind_some] at top
    refine ⟨b₁, k, there, ?_, ?_⟩
    · rw [defines, top]
    · rw [lastSite, varsAt_eq here, ← vars, List.length_map, last]
      rfl

/-- What a version stands for is what its token resolves to. -/
theorem standsFor_iff (known : v ∈ PhiPlace.collectVars f.blocks) (names : Names out v version t) : StandsFor out ⟨v, version⟩ d ↔
    Flowgraph.Resolves (cfg f.blocks).Edge 0 tree.idom (lastSite f.blocks v) (Placed f.blocks .pruned tree v) t d := by
  constructor
  · intro stands
    generalize same : (⟨v, version⟩ : VariableRef) = ref at stands
    induction stands generalizing version t with
    | incoming w =>
      obtain ⟨rfl, rfl⟩ := VariableRef.mk.inj same
      cases t with
      | entry => exact .entry
      | phi y =>
        obtain ⟨-, ops, phi⟩ := names
        exact absurd rfl (run.versioned _ phi.mem_definitions).2
      | last y =>
        obtain ⟨b₁, k, there, defines, -⟩ := run.names_last names
        exact absurd rfl (run.versioned _ (mem_definitions_of_plainDefs there (List.mem_of_getElem? defines))).2
    | @definition ref y k block here defines =>
      obtain rfl := same
      cases t with
      | entry =>
        obtain rfl : version = some 0 := names
        exact absurd rfl (run.versioned _ (mem_definitions_of_plainDefs here (List.mem_of_getElem? defines))).2
      | phi z =>
        obtain ⟨-, ops, phi⟩ := names
        exact (phi.not_plainDefs run.single here (List.mem_of_getElem? defines)).elim
      | last z =>
        obtain ⟨b₁, j, there, defines', last⟩ := run.names_last names
        obtain ⟨rfl, rfl⟩ := plainDefs_unique run.single here there defines defines'
        exact .last last
    | @operand ref y ops op d phi member stands ih =>
      obtain rfl := same
      cases t with
      | entry =>
        obtain rfl : version = some 0 := names
        exact absurd rfl (run.versioned _ phi.mem_definitions).2
      | last z =>
        obtain ⟨b₁, j, there, defines, -⟩ := run.names_last names
        exact (phi.not_plainDefs run.single there (List.mem_of_getElem? defines)).elim
      | phi z =>
        obtain ⟨-, ops', phi'⟩ := names
        obtain ⟨rfl, rfl⟩ := phi.unique run.single phi'
        obtain ⟨j, atPlace⟩ := List.mem_iff_getElem?.mp member
        obtain ⟨edge, sameVar, -, filled⟩ := BothRan.operand_spec run.ran run.pre phi atPlace
        have isSome := run.isSome_of_standsFor stands
        have isTop := filled.resolve_left fun isNone => by simp [isNone] at isSome
        obtain ⟨t, top⟩ := (run.placement v).exists_topExit (run.reachable op.1 (run.wellFormed.successors_lt edge).1)
        refine .phi edge top (ih (run.ran.names_of_topExit run.pre.plain run.of run.reachable run.wellFormed known
          (run.wellFormed.successors_lt edge).1 (topExit_lastSite.mp top)) ?_)
        have sameVar : op.2.var = v := sameVar
        rw [← isTop, ← sameVar]
  · intro resolves
    induction resolves generalizing version with
    | entry =>
      obtain rfl : version = some 0 := names
      exact .incoming v
    | last defines =>
      obtain ⟨b₁, k, there, here, last⟩ := run.names_last names
      obtain rfl := Option.some.inj (defines.symm.trans last)
      exact .definition there here
    | @phi u w t d edge top _ ih =>
      obtain ⟨-, ops, phi⟩ := names
      have node := (run.wellFormed.successors_lt edge).1
      obtain ⟨-, -, -, preds, vars⟩ := BothRan.origin run.ran run.pre phi
      obtain ⟨b₁, there, isPhi⟩ := id phi
      obtain ⟨op, member, rfl, filled, -⟩ :=
        run.ran.filled u node w edge b₁ there _ ops isPhi (preds ▸ mem_predecessors.mpr edge)
      refine .operand phi member ?_
      have stands := ih (run.ran.names_of_topExit run.pre.plain run.of run.reachable run.wellFormed known node
        (topExit_lastSite.mp top))
      have isRef : op.2 = ⟨v, (exit op.1).top v⟩ := by
        have sameVar : op.2.var = v := vars op member
        rw [← sameVar, filled]
      rwa [isRef]

/-- A block reads first what no definition of it stands before. -/
theorem readsFirst_of_first (here : f.blocks[b]? = some b₀) (member : (ref, k) ∈ uses b₀) (isLocal : ref.var.isGlobal = false)
    (last : lastBefore (definedVars b₀.statements) ref.var k = none) :
    PhiPlace.readsFirst ref.var b₀.terminator b₀.statements = true := by
  have bare : ∀ st ∈ b₀.statements, ∀ ref ∈ st.srcVars, ref.version = none := fun st isSt ref source =>
    (run.pre.unversioned b₀ (List.mem_of_getElem? here)).1 st isSt ref (List.mem_append_left _ source)
  exact (readsFirst_iff bare isLocal 0).mpr ⟨ref, k, by rwa [Nat.zero_add], rfl, last⟩

/-- What reaches a use that no definition of its block stands before is what its token is for. -/
theorem use_spec (here : f.blocks[b]? = some b₀) (there : out[b]? = some b₁) {use : VariableRef × ℕ} {used : VariableRef}
    (member : use ∈ uses b₀) (isLocal : use.1.var.isGlobal = false) {phis rest : List Statement} {mid : SsaRename}
    (ran : BlockRan f.blocks .pruned tree b (entry b) (exit b) b₀ b₁ phis rest mid)
    (isUsed : used = ⟨use.1.var, topAfter use.1.var ((plainDefs b₁).take use.2) (mid.top use.1.var)⟩) :
    (∀ d, StandsFor out used d ↔ Reaches f.blocks use.1.var b use.2 d) ∧ ¬ Reaches f.blocks use.1.var b use.2 none ∨
      lastBefore (definedVars b₀.statements) use.1.var use.2 = none ∧ b ∈ PhiPlace.liveIn f.blocks use.1.var ∧ ∃ t,
        TopEntry 0 tree.idom (lastSite f.blocks use.1.var) (Placed f.blocks .pruned tree use.1.var) b t ∧
        (∀ d, StandsFor out used d ↔ Flowgraph.Resolves (cfg f.blocks).Edge 0 tree.idom (lastSite f.blocks use.1.var)
          (Placed f.blocks .pruned tree use.1.var) t d) ∧
        ∀ d, Reaches f.blocks use.1.var b use.2 d ↔
          ReachesEntry (cfg f.blocks).Edge 0 (lastSite f.blocks use.1.var) b d := by
  obtain ⟨ref, k⟩ := use
  simp only at isLocal isUsed ⊢
  have inBlocks := List.mem_of_getElem? here
  have inside : k ≤ (definedVars b₀.statements).length := by
    have := (le_of_mem_usesFrom member).2
    omega
  rw [topAfter_take, run.vars_eq here there] at isUsed
  cases last : lastBefore (definedVars b₀.statements) ref.var k with
  | some j =>
    have isV := getElem?_of_lastBefore last
    rw [← run.vars_eq here there, List.getElem?_map, Option.map_eq_some_iff] at isV
    obtain ⟨dest, defines, sameVar⟩ := isV
    simp only [last, defines, Option.bind_some] at isUsed
    obtain rfl : used = dest := by rw [isUsed, ← sameVar]
    refine .inl ⟨fun d => ?_, fun reaches => ?_⟩
    · rw [run.standsFor_definition there defines, reaches_of_last here inside last]
    · exact nomatch (reaches_of_last here inside last).mp reaches
  | none =>
    simp only [last] at isUsed
    subst isUsed
    have reads := run.readsFirst_of_first here member isLocal last
    have known : ref.var ∈ PhiPlace.collectVars f.blocks := mem_collectVars.mpr ⟨b₀, inBlocks, mem_blockVars_of_readsFirst reads⟩
    have reached := run.reachable b (List.getElem?_eq_some_iff.mp here).1
    obtain ⟨t, top⟩ := (run.placement ref.var).exists_topEntry reached
    refine .inr ⟨rfl, (mem_liveIn run.wellFormed).mpr ⟨b, mem_upwardUses.mpr ⟨b₀, here, reads⟩, .refl⟩, t, top, fun d => ?_,
      fun d => ?_⟩
    · exact run.standsFor_iff known (run.ran.names_of_topEntry run.pre.plain run.of run.reachable run.wellFormed known here there ran
        (topEntry_lastSite.mp top))
    · exact reaches_of_clear here inside last

/-- The references of a renamed block, by their versions. -/
theorem forall₂_uses (here : f.blocks[b]? = some b₀) (there : out[b]? = some b₁) : ∃ phis rest mid,
    BlockRan f.blocks .pruned tree b (entry b) (exit b) b₀ b₁ phis rest mid ∧
    List.Forall₂ (fun use used => used.var = use.1.var ∧ (use.1.var.isGlobal = false →
      used = ⟨use.1.var, topAfter use.1.var ((plainDefs b₁).take use.2) (mid.top use.1.var)⟩)) (uses b₀) (plainUses b₁) := by
  obtain ⟨c, phis, rest, mid, same, ran⟩ := run.ran.block here
  obtain rfl := Option.some.inj (there.symm.trans same)
  have inBlocks := List.mem_of_getElem? here
  have plain := run.pre.plain b₀ inBlocks
  obtain ⟨term, rewriting, last, found, isTerm⟩ := ran.terminator
  refine ⟨phis, rest, mid, ran, ?_⟩
  have related := forall₂_usesFrom mid.top [] ran.renamesRest found plain (fun st isSt ref source =>
    (run.pre.unversioned b₀ inBlocks).1 st isSt ref (List.mem_append_left _ source)) fun v => rfl
  rw [uses, last, plainUses, ran.plainStatements_eq plain, isTerm, ran.plainDefs_eq plain]
  refine related.imp fun use used isUsed => ⟨isUsed.1, fun isLocal => ?_⟩
  have version := isUsed.2 isLocal
  rw [List.nil_append] at version
  rw [← version, ← isUsed.1]

omit run in
/-- A variable that reaches a block with its incoming value is carried there by a walk that passes no definition of it. -/
theorem walk_of_reachesEntry (reaches : ReachesEntry (cfg f.blocks).Edge 0 (lastSite f.blocks v) b none) :
    ReflTransGen (fun a c => (cfg f.blocks).Edge a c ∧ lastSite f.blocks v a = none) 0 b := by
  have atEnd : ∀ {u d}, ReachesExit (cfg f.blocks).Edge 0 (lastSite f.blocks v) u d → d = none → lastSite f.blocks v u = none ∧
      ReflTransGen (fun a c => (cfg f.blocks).Edge a c ∧ lastSite f.blocks v a = none) 0 u := by
    intro u d reaches isEntry
    induction reaches with
    | entry clear => exact ⟨clear, .refl⟩
    | last _ => exact nomatch isEntry
    | pass out clear _ ih =>
      obtain ⟨before, walk⟩ := ih isEntry
      exact ⟨clear, walk.tail ⟨out, before⟩⟩
  rcases reaches with ⟨rfl, -⟩ | ⟨u, out, reaches⟩
  · exact .refl
  · obtain ⟨clear, walk⟩ := atEnd reaches rfl
    exact walk.tail ⟨out, clear⟩

omit run in
theorem reachesEntry_of_walk (walk : ReflTransGen (fun a c => (cfg f.blocks).Edge a c ∧ lastSite f.blocks v a = none) 0 b) :
    ReachesEntry (cfg f.blocks).Edge 0 (lastSite f.blocks v) b none := by
  induction walk with
  | refl => exact .inl ⟨rfl, rfl⟩
  | tail _ step ih => exact .of_exit step.1 (ih.exit step.2)

theorem mem_liveIn_start : 0 ∈ PhiPlace.liveIn f.blocks v ↔ ∃ b ∈ PhiPlace.upwardUses f.blocks v,
    ReflTransGen (fun a c => (cfg f.blocks).Edge a c ∧ lastSite f.blocks v a = none) 0 b := by
  simp only [mem_liveIn run.wellFormed, lastSite_eq_none, site_eq_none]

/-- Every use stands for exactly what reaches it, unless a variable that is read with its incoming value has a definition that
comes back to the start. -/
theorem exact_iff : (∀ b b₀ b₁, f.blocks[b]? = some b₀ → out[b]? = some b₁ →
    List.Forall₂ (Exact f.blocks out b) (uses b₀) (plainUses b₁)) ↔ ∀ v, ¬ Rejoins f.blocks v := by
  constructor
  · rintro exact v ⟨isLocal, ⟨b, b₀, ref, k, here, member, rfl, reaches⟩, s, returns⟩
    have there := List.getElem?_eq_getElem (run.ran.length.symm ▸ (List.getElem?_eq_some_iff.mp here).1 : b < out.length)
    obtain ⟨phis, rest, mid, ran, related⟩ := run.forall₂_uses here there
    obtain ⟨i, place⟩ := List.mem_iff_getElem?.mp member
    have inside := (List.getElem?_eq_some_iff.mp place).1
    have paired := related.length_eq ▸ inside
    have isUsed := List.forall₂_iff_get.mp related |>.2 i inside paired
    have isExact := List.forall₂_iff_get.mp (exact b b₀ _ here there) |>.2 i inside paired
    simp only [List.get_eq_getElem, (List.getElem?_eq_some_iff.mp place).2] at isUsed isExact
    rcases run.use_spec here there member isLocal ran (isUsed.2 isLocal) with ⟨-, missed⟩ | ⟨-, isLive, t, top, stands, reached⟩
    · exact missed reaches
    have walk := walk_of_reachesEntry ((reached none).mp reaches)
    have upward : b ∈ PhiPlace.upwardUses f.blocks ref.var := by
      refine mem_upwardUses.mpr ⟨b₀, here, (readsFirst_iff (fun st isSt ref source => ?_) isLocal 0).mpr
        ⟨ref, k, by rwa [Nat.zero_add], rfl, ?_⟩⟩
      · exact (run.pre.unversioned b₀ (List.mem_of_getElem? here)).1 st isSt ref (List.mem_append_left _ source)
      · rcases reaches.spec with ⟨j, -, isDef⟩ | ⟨clear, -⟩
        · exact nomatch isDef
        · rwa [varsAt_eq here] at clear
    obtain ⟨d, reachesB, missed⟩ := (run.placement ref.var).live_start_unresolved
      (.inr (run.mem_liveIn_start.mpr ⟨b, upward, walk⟩)) (reaches_zero.mp returns) walk top
    exact missed ((stands d).mp ((isExact.2 isLocal d).mpr ((reached d).mpr reachesB)))
  · intro apart b b₀ b₁ here there
    obtain ⟨phis, rest, mid, ran, related⟩ := run.forall₂_uses here there
    refine List.forall₂_iff_get.mpr ⟨related.length_eq, fun i inside paired => ?_⟩
    have isUsed := (List.forall₂_iff_get.mp related).2 i inside paired
    refine ⟨isUsed.1, fun isLocal d => ?_⟩
    have member : (uses b₀).get ⟨i, inside⟩ ∈ uses b₀ := List.get_mem _ _
    generalize (uses b₀).get ⟨i, inside⟩ = use at isUsed isLocal member ⊢
    rcases run.use_spec here there member isLocal ran (isUsed.2 isLocal) with ⟨exact, -⟩ | ⟨-, isLive, t, top, stands, reached⟩
    · exact exact d
    rw [stands, reached]
    refine (run.placement use.1.var).resolves_iff_reaches (fun liveStart d returns => ?_)
      (run.reachable b (List.getElem?_eq_some_iff.mp here).1) (.inr isLive) top
    cases d with
    | none => rfl
    | some s =>
      obtain ⟨c, upward, walk⟩ := run.mem_liveIn_start.mp (liveStart.resolve_left (by simp))
      obtain ⟨c₀, atC, reads⟩ := mem_upwardUses.mp upward
      have bare : ∀ st ∈ c₀.statements, ∀ ref ∈ st.srcVars, ref.version = none := fun st isSt ref source =>
        (run.pre.unversioned c₀ (List.mem_of_getElem? atC)).1 st isSt ref (List.mem_append_left _ source)
      obtain ⟨ref, k, isUse, sameVar, clear⟩ := (readsFirst_iff bare isLocal 0).mp reads
      rw [Nat.zero_add] at isUse
      have within := (le_of_mem_usesFrom isUse).2
      refine absurd ⟨isLocal, ⟨c, c₀, ref, k, atC, isUse, sameVar, ?_⟩, s, reaches_zero.mpr returns⟩ (apart use.1.var)
      exact (reaches_of_clear atC (by omega) clear).mpr (reachesEntry_of_walk walk)

end PrunedRan

end Resolution

/-- A return reads a local with the name of the variable that carries an earlier one of its values. -/
def ReadsReturned (f : FunctionData) : Prop :=
  ∃ block ∈ f.blocks, ∃ args, block.terminator = some (.ret args) ∧ ∃ (i j : ℕ) (arg : Exp) (ref retvar : VariableRef), j < i ∧
    args[i]? = some arg ∧ arg.baseVariable = some ref ∧ (internRetvars f.locals f.returnArity).2[j]? = some retvar ∧
      retvar.var = ref.var

section Completion

variable {f g : FunctionData} {retvars : List VariableRef} {v w : Variable} {b k : ℕ} {b₀ : BasicBlockData} {term : Terminator}
  {d : Option (ℕ × ℕ)}

theorem definedVars_append (sts sts' : List Statement) : definedVars (sts ++ sts') = definedVars sts ++ definedVars sts' :=
  List.flatMap_append

theorem definedVars_exitAssigns {args : List (Exp Int64)} (same : args.length = retvars.length) :
    definedVars (exitAssigns retvars (.ret args)) = retvars.map VariableRef.var := by
  induction retvars generalizing args with
  | nil => rfl
  | cons retvar retvars ih =>
    cases args with
    | nil => exact nomatch same
    | cons arg args =>
      have rest : definedVars (exitAssigns retvars (.ret args)) = retvars.map VariableRef.var := ih (by simpa using same)
      simp only [definedVars, exitAssigns] at rest ⊢
      rw [List.zipWith_cons_cons, List.flatMap_cons, rest]
      rfl

/-- Uses of statements that follow others. -/
theorem usesFrom_append (term : Option Terminator) (k : ℕ) (sts sts' : List Statement) : usesFrom term k (sts ++ sts') =
    usesFrom none k sts ++ usesFrom term (k + (definedVars sts).length) sts' := by
  induction sts generalizing k with
  | nil => simp [usesFrom, definedVars]
  | cons st sts ih =>
    rw [List.cons_append, usesFrom, usesFrom, ih, List.append_assoc]
    simp [definedVars, Nat.add_assoc]

/-- Past a definition of another variable the same definitions reach. -/
theorem reaches_succ {blocks : List BasicBlockData} (here : blocks[b]? = some b₀) (defines : (definedVars b₀.statements)[k]? = some w)
    (other : w ≠ v) : Reaches blocks v b (k + 1) d ↔ Reaches blocks v b k d := by
  constructor
  · intro reaches
    cases reaches with
    | define there isV =>
      obtain rfl := Option.some.inj (here.symm.trans there)
      exact absurd (Option.some.inj (defines.symm.trans isV)) other
    | pass _ _ _ before => exact before
  · exact .pass here defines other

/-- A definition that reaches is one of its block. -/
theorem Reaches.place_lt {blocks : List BasicBlockData} (reaches : Reaches blocks v b k d) :
    ∀ c j, d = some (c, j) → j < (varsAt blocks c).length := by
  induction reaches with
  | entry => exact nofun
  | define here defines =>
    rintro c j ⟨⟩
    rw [varsAt_eq here]
    exact (List.getElem?_eq_some_iff.mp defines).1
  | pass _ _ _ _ ih => exact ih
  | flow _ _ _ ih => exact ih

namespace Completes

variable (completes : Completes f g retvars)
include completes

/-- A block that has a successor is completed by at most the exit block among its targets. -/
theorem block_of_edge {c : ℕ} (here : f.blocks[b]? = some b₀) (out : c ∈ b₀.successors) :
    ∃ b₁, g.blocks[b]? = some b₁ ∧ b₁.statements = b₀.statements ∧ c ∈ b₁.successors := by
  obtain ⟨term, targets, last, there, same⟩ := completes.block here
  rw [BasicBlockData.successors, last] at out
  cases term with
  | ret args => exact absurd out List.not_mem_nil
  | goto old => exact ⟨_, there, List.append_nil _, (same c).mpr (.inl out)⟩

/-- What reaches a point of the function reaches it in the completed function, and nothing else does. -/
theorem reaches_iff (here : f.blocks[b]? = some b₀) (inside : k ≤ (definedVars b₀.statements).length) :
    Reaches g.blocks v b k d ↔ Reaches f.blocks v b k d := by
  have front : ∀ {b : ℕ} {b₀ : BasicBlockData}, f.blocks[b]? = some b₀ → ∃ rest, ∃ b₁ : BasicBlockData, g.blocks[b]? = some b₁ ∧
      definedVars b₁.statements = definedVars b₀.statements ++ rest := by
    intro b b₀ here
    obtain ⟨term, targets, -, there, -⟩ := completes.block here
    exact ⟨_, _, there, definedVars_append _ _⟩
  constructor
  · intro reaches
    induction reaches generalizing b₀ with
    | entry => exact .entry
    | @define b k b₁ there defines =>
      obtain ⟨rest, _, same, vars⟩ := front here
      obtain rfl := Option.some.inj (there.symm.trans same)
      rw [vars, List.getElem?_append_left (by omega)] at defines
      exact .define here defines
    | @pass b k b₁ w d there defines other _ ih =>
      obtain ⟨rest, _, same, vars⟩ := front here
      obtain rfl := Option.some.inj (there.symm.trans same)
      rw [vars, List.getElem?_append_left (by omega)] at defines
      exact .pass here defines other (ih here (by omega))
    | @flow a c b₁ d there out _ ih =>
      have less : c < f.blocks.length := (List.getElem?_eq_some_iff.mp here).1
      have edge : (cfg g.blocks).Edge a c := mem_successors.mpr ⟨b₁, there, out⟩
      obtain old | ⟨rfl, -⟩ := completes.edge_iff.mp edge
      · obtain ⟨a₀, atA, onto⟩ := mem_successors.mp old
        obtain ⟨_, same, statements, -⟩ := completes.block_of_edge atA onto
        obtain rfl := Option.some.inj (there.symm.trans same)
        rw [statements] at ih
        exact .flow atA onto (ih atA le_rfl)
      · omega
  · intro reaches
    clear inside
    induction reaches generalizing b₀ with
    | entry => exact .entry
    | @define b k b₁ there defines =>
      obtain ⟨rest, c, same, vars⟩ := front there
      refine .define same ?_
      rw [vars, List.getElem?_append_left (List.getElem?_eq_some_iff.mp defines).1, defines]
    | @pass b k b₁ w d there defines other _ ih =>
      obtain ⟨rest, c, same, vars⟩ := front there
      refine .pass same ?_ other (ih there)
      rw [vars, List.getElem?_append_left (List.getElem?_eq_some_iff.mp defines).1, defines]
    | @flow a c b₁ d there out _ ih =>
      obtain ⟨a₁, same, statements, onto⟩ := completes.block_of_edge there out
      refine .flow same onto ?_
      rw [statements]
      exact ih there

end Completes

/-- The values a terminator returns. -/
def returnArgs : Terminator → List Exp
  | .ret args => args
  | .goto _ => []

/-- A use of a block and what has become of it in the completed block: where it was, or in the assignment to a return variable,
behind the assignments to those before. -/
def Moved (total : ℕ) (args : List Exp) (use use' : VariableRef × ℕ) : Prop :=
  use'.1 = use.1 ∧ (use'.2 = use.2 ∧ use.2 ≤ total ∨ use.2 = total ∧ ∃ (i : ℕ) (arg : Exp), use'.2 = total + i ∧
    args[i]? = some arg ∧ arg.baseVariable = some use.1)

theorem srcVars_exitAssign (retvar : VariableRef) (arg : Exp) :
    (Statement.assign (.ofRef retvar) [arg]).srcVars = arg.baseVariable.toList := by
  cases isRef : arg.baseVariable <;> simp [Statement.srcVars, AccessPath.ofRef, AccessPath.isPathless, isRef]

theorem forall₂_returned {targets : List ℕ} {args : List Exp} {total start : ℕ} (same : args.length = retvars.length) :
    List.Forall₂ (fun use use' => use'.1 = use.1 ∧ use.2 = total ∧ ∃ (i : ℕ) (arg : Exp), use'.2 = start + i ∧
        args[i]? = some arg ∧ arg.baseVariable = some use.1)
      ((args.filterMap Exp.baseVariable).map (·, total))
      (usesFrom (some (.goto targets)) start (exitAssigns retvars (.ret args))) := by
  induction args generalizing retvars start with
  | nil =>
    obtain rfl : retvars = [] := List.eq_nil_of_length_eq_zero same.symm
    exact .nil
  | cons arg args ih =>
    cases retvars with
    | nil => exact nomatch same
    | cons retvar retvars =>
      have later := @ih retvars (start + 1) (by simpa using same)
      have rest : usesFrom (some (.goto targets)) start (exitAssigns (retvar :: retvars) (.ret (arg :: args))) =
          arg.baseVariable.toList.map (·, start) ++
            usesFrom (some (.goto targets)) (start + 1) (exitAssigns retvars (.ret args)) := by
        rw [← srcVars_exitAssign retvar]
        rfl
      have onward := later.imp fun use use' moved => by
        obtain ⟨sameRef, atEnd, i, other, place, isArg, isRef⟩ := moved
        exact (⟨sameRef, atEnd, i + 1, other, by omega, isArg, isRef⟩ : use'.1 = use.1 ∧ use.2 = total ∧
          ∃ (i : ℕ) (other : Exp), use'.2 = start + i ∧ (arg :: args)[i]? = some other ∧ other.baseVariable = some use.1)
      rw [rest]
      cases isRef : arg.baseVariable with
      | none => simpa [List.filterMap_cons, isRef] using onward
      | some ref =>
        rw [List.filterMap_cons_some isRef, List.map_cons]
        exact .cons ⟨rfl, rfl, 0, arg, rfl, rfl, isRef⟩ onward

theorem mem_usesFrom_returned {targets : List ℕ} {args : List Exp} {start i : ℕ} {arg : Exp} {ref : VariableRef}
    (same : args.length = retvars.length) (isArg : args[i]? = some arg) (isRef : arg.baseVariable = some ref) :
    (ref, start + i) ∈ usesFrom (some (.goto targets)) start (exitAssigns retvars (.ret args)) := by
  induction args generalizing retvars start i with
  | nil => exact nomatch isArg
  | cons head args ih =>
    cases retvars with
    | nil => exact nomatch same
    | cons retvar retvars =>
      change _ ∈ (Statement.assign (.ofRef retvar) [head]).srcVars.map (·, start) ++
        usesFrom (some (.goto targets)) (start + 1) (exitAssigns retvars (.ret args))
      cases i with
      | zero =>
        obtain rfl : head = arg := Option.some.inj isArg
        rw [srcVars_exitAssign, isRef]
        exact List.mem_append_left _ (List.mem_singleton_self _)
      | succ i =>
        have later := @ih retvars (start + 1) i (by simpa using same) (by simpa using isArg)
        rw [Nat.add_right_comm] at later
        exact List.mem_append_right _ later

namespace Completes

variable (completes : Completes f g retvars) (pre : PreSsa f)
include completes pre

theorem returned_length (member : b₀ ∈ f.blocks) {args : List Exp} (last : b₀.terminator = some (.ret args)) :
    args.length = retvars.length := (pre.ok.returns b₀ member args last).2.2.trans completes.retvars_length.symm

/-- The uses of a block, and those of the completed block. -/
theorem forall₂_moved (here : f.blocks[b]? = some b₀) (last : b₀.terminator = some term) {b₁ : BasicBlockData}
    (there : g.blocks[b]? = some b₁) :
    List.Forall₂ (Moved (definedVars b₀.statements).length (returnArgs term)) (uses b₀) (uses b₁) := by
  obtain ⟨term', targets, last', same, -⟩ := completes.block here
  obtain rfl := Option.some.inj (last.symm.trans last')
  obtain rfl := Option.some.inj (there.symm.trans same)
  have split : uses b₀ = usesFrom none 0 b₀.statements ++ usesFrom (some term) (0 + (definedVars b₀.statements).length) [] := by
    rw [← usesFrom_append, List.append_nil, uses, last]
  rw [split]
  change List.Forall₂ _ _ (usesFrom _ 0 (b₀.statements ++ _))
  rw [usesFrom_append]
  refine List.rel_append ?_ ?_
  · refine List.forall₂_same.mpr fun use member => ⟨rfl, .inl ⟨rfl, ?_⟩⟩
    have inside : (use.1, use.2) ∈ usesFrom none 0 b₀.statements := member
    have bound := (le_of_mem_usesFrom inside).2
    omega
  rw [Nat.zero_add]
  cases term with
  | goto old => exact .nil
  | ret args =>
    refine (forall₂_returned (completes.returned_length pre (List.mem_of_getElem? here) last)).imp fun use use' moved => ?_
    obtain ⟨sameRef, atEnd, i, arg, place, isArg, isRef⟩ := moved
    exact ⟨sameRef, .inr ⟨atEnd, i, arg, place, isArg, isRef⟩⟩

/-- The variables a completed block defines: those of the block, and the return variables in turn if it returns. -/
theorem getElem?_returned (here : f.blocks[b]? = some b₀) {args : List Exp} (last : b₀.terminator = some (.ret args))
    {b₁ : BasicBlockData} (there : g.blocks[b]? = some b₁) (i : ℕ) :
    (definedVars b₁.statements)[(definedVars b₀.statements).length + i]? = retvars[i]?.map VariableRef.var := by
  obtain ⟨term', targets, last', same, -⟩ := completes.block here
  obtain rfl := Option.some.inj (last.symm.trans last')
  obtain rfl := Option.some.inj (there.symm.trans same)
  rw [definedVars_append, definedVars_exitAssigns (completes.returned_length pre (List.mem_of_getElem? here) last),
    List.getElem?_append_right (by omega), Nat.add_sub_cancel_left, List.getElem?_map]

/-- Behind the assignments to other return variables the same definitions reach as at the end of the block. -/
theorem reaches_returned (here : f.blocks[b]? = some b₀) {args : List Exp} (last : b₀.terminator = some (.ret args)) {i : ℕ}
    (inside : i ≤ retvars.length) (other : ∀ j < i, ∀ retvar, retvars[j]? = some retvar → retvar.var ≠ v) :
    Reaches g.blocks v b ((definedVars b₀.statements).length + i) d ↔
      Reaches f.blocks v b (definedVars b₀.statements).length d := by
  obtain ⟨_, _, -, there, -⟩ := completes.block here
  induction i with
  | zero => exact completes.reaches_iff here le_rfl
  | succ i ih =>
    have isVar := List.getElem?_eq_getElem (by omega : i < retvars.length)
    have defines := completes.getElem?_returned pre here last there i
    rw [isVar, Option.map_some] at defines
    rw [← Nat.add_assoc, reaches_succ there defines (other i i.lt_succ_self _ isVar)]
    exact ih (by omega) fun j less => other j (by omega)

end Completes

end Completion

section Original

variable {f g : FunctionData} {retvars : List VariableRef} {tree : DominatorTree} {out : List BasicBlockData}
  {entry exit : ℕ → SsaRename} {b : ℕ} {b₀ b₁ b₂ : BasicBlockData} {term : Terminator}

/-- Unless a return reads what it has set, a use and what has become of it are reached by the same definitions. -/
theorem Completes.exact_moved (completes : Completes f g (internRetvars f.locals f.returnArity).2) (pre : PreSsa f)
    (apart : ¬ ReadsReturned f) (here : f.blocks[b]? = some b₀) (last : b₀.terminator = some term) {use use' : VariableRef × ℕ}
    (moved : Moved (definedVars b₀.statements).length (returnArgs term) use use') (used : VariableRef) :
    Exact f.blocks out b use used ↔ Exact g.blocks out b use' used := by
  obtain ⟨ref, k⟩ := use
  obtain ⟨_, k'⟩ := use'
  obtain ⟨rfl, place⟩ := moved
  refine and_congr_right fun _ => imp_congr_right fun _ => forall_congr' fun d => iff_congr Iff.rfl ?_
  simp only at place ⊢
  rcases place with ⟨rfl, inside⟩ | ⟨rfl, i, arg, rfl, isArg, isRef⟩
  · exact (completes.reaches_iff here inside).symm
  · cases term with
    | goto targets => exact nomatch isArg
    | ret args =>
      have within := (List.getElem?_eq_some_iff.mp isArg).1
      have same := completes.returned_length pre (List.mem_of_getElem? here) last
      refine (completes.reaches_returned pre here last (by change i < args.length at within; omega) ?_).symm
      intro j less retvar isVar isSame
      exact apart ⟨b₀, List.mem_of_getElem? here, args, last, i, j, arg, _, retvar, less, isArg, isRef, isVar, isSame⟩

/-- Every use of a function stands for exactly the definitions that reach it, and so does every return variable at the exit block,
exactly if no variable that is read with its incoming value has a definition that comes back to the start, and no return reads what
it has set. -/
theorem PrunedRan.resolves_iff (run : PrunedRan g tree out entry exit)
    (completes : Completes f g (internRetvars f.locals f.returnArity).2) (pre : PreSsa f) :
    ((∀ b b₀ b₁, f.blocks[b]? = some b₀ → out[b]? = some b₁ → List.Forall₂ (Exact f.blocks out b) (uses b₀) (plainUses b₁)) ∧
      ∀ b₀ b₁, g.blocks[f.blocks.length]? = some b₀ → out[f.blocks.length]? = some b₁ →
        List.Forall₂ (Exact g.blocks out f.blocks.length) (uses b₀) (plainUses b₁)) ↔
      (∀ v, ¬ Rejoins g.blocks v) ∧ ¬ ReadsReturned f := by
  rw [← run.exact_iff]
  constructor
  · rintro ⟨own, last⟩
    have apart : ¬ ReadsReturned f := by
      rintro ⟨b₀, member, args, isRet, i, j, arg, ref, retvar, less, isArg, isRef, isVar, sameVar⟩
      obtain ⟨b, here⟩ := List.mem_iff_getElem?.mp member
      obtain ⟨_, targets, isTerm, there, -⟩ := completes.block here
      obtain rfl := Option.some.inj (isRet.symm.trans isTerm)
      obtain ⟨b₂, atOut⟩ : ∃ b₂, out[b]? = some b₂ :=
        ⟨_, List.getElem?_eq_getElem (run.ran.length.symm ▸ (List.getElem?_eq_some_iff.mp there).1)⟩
      obtain ⟨phis, rest, mid, ran, renamed⟩ := run.forall₂_uses there atOut
      have moved := completes.forall₂_moved pre here isRet there
      have isUse : (ref, (definedVars b₀.statements).length + i) ∈ uses
          ⟨b₀.statements ++ exitAssigns (internRetvars f.locals f.returnArity).2 (.ret args), some (.goto targets)⟩ := by
        rw [uses, usesFrom_append, Nat.zero_add]
        exact List.mem_append_right _ (mem_usesFrom_returned (completes.returned_length pre member isRet) isArg isRef)
      obtain ⟨n, place⟩ := List.mem_iff_getElem?.mp isUse
      obtain ⟨inside, isUse'⟩ := List.getElem?_eq_some_iff.mp place
      have paired := renamed.length_eq ▸ inside
      have isUsed := (List.forall₂_iff_get.mp renamed).2 n inside paired
      have was := (List.forall₂_iff_get.mp moved).2 n (moved.length_eq.symm ▸ inside) inside
      have isExact := (List.forall₂_iff_get.mp (own b b₀ b₂ here atOut)).2 n (moved.length_eq.symm ▸ inside) paired
      simp only [List.get_eq_getElem, isUse'] at isUsed was isExact
      obtain ⟨sameRef, atEnd⟩ := was
      rcases atEnd with ⟨same, within⟩ | ⟨atEnd, -⟩
      · simp only at same
        omega
      simp only at sameRef
      rw [Exact, ← sameRef, atEnd] at isExact
      have isLocal : ref.var.isGlobal = false := by
        obtain ⟨idx, -, rfl⟩ := completes.declared retvar (List.mem_of_getElem? isVar)
        rw [← sameVar]
        rfl
      -- the last of the assignments to the local before the use is what the use stands for
      have sets := completes.getElem?_returned pre here isRet there j
      rw [isVar, Option.map_some, sameVar] at sets
      rcases run.use_spec there atOut isUse isLocal ran (isUsed.2 isLocal) with ⟨stands, -⟩ | ⟨clear, -⟩
      · cases isLast : lastBefore (definedVars (b₀.statements ++ exitAssigns (internRetvars f.locals f.returnArity).2 (.ret args))) ref.var
            ((definedVars b₀.statements).length + i) with
        | none => exact lastBefore_eq_none.mp isLast _ (by omega) sets
        | some m =>
          have behind := le_of_lastBefore isLast (by omega) sets
          have within := (le_of_mem_usesFrom isUse).2
          rw [Nat.zero_add] at within
          have reaches := (isExact.2 isLocal _).mp ((stands (some (b, m))).mpr (.of_last there within isLast))
          have := reaches.place_lt b m rfl
          rw [varsAt_eq here] at this
          omega
      · exact lastBefore_eq_none.mp clear _ (by simp only; omega) sets
    refine ⟨fun b b₀ b₁ there atOut => ?_, apart⟩
    rcases completes.origin there with ⟨b₂, term, targets, here, isTerm, -, -⟩ | ⟨rfl, -⟩
    · have moved := completes.forall₂_moved pre here isTerm there
      have exact' := own b b₂ b₁ here atOut
      refine List.forall₂_iff_get.mpr ⟨moved.length_eq.symm.trans exact'.length_eq, fun n inside paired => ?_⟩
      exact (completes.exact_moved pre apart here isTerm ((List.forall₂_iff_get.mp moved).2 n (moved.length_eq.symm ▸ inside) inside)
        _).mp ((List.forall₂_iff_get.mp exact').2 n (moved.length_eq.symm ▸ inside) paired)
    · exact last b₀ b₁ there atOut
  · rintro ⟨exact', apart⟩
    refine ⟨fun b b₀ b₁ here atOut => ?_, fun b₀ b₁ there atOut => exact' _ b₀ b₁ there atOut⟩
    obtain ⟨term, targets, isTerm, there, -⟩ := completes.block here
    have moved := completes.forall₂_moved pre here isTerm there
    have all := exact' b _ b₁ there atOut
    refine List.forall₂_iff_get.mpr ⟨moved.length_eq.trans all.length_eq, fun n inside paired => ?_⟩
    exact (completes.exact_moved pre apart here isTerm ((List.forall₂_iff_get.mp moved).2 n inside (moved.length_eq ▸ inside)) _).mpr
      ((List.forall₂_iff_get.mp all).2 n (moved.length_eq ▸ inside) paired)

end Original

section Conversion

/-- The blocks without the bindings of the parameters at the front of the start block. -/
def withoutBindings (params : ℕ) (blocks : List BasicBlockData) : List BasicBlockData :=
  blocks.modify 0 fun block => { block with statements := block.statements.drop params }

/-- The blocks once every return is a jump to the exit block. -/
def completedBlocks (f : FunctionData) : List BasicBlockData := ((complete f).map FunctionData.blocks).getD []

/-- Every use of the converted function that is not in a phi stands for exactly the definitions that reach it: the uses of the
function over its own paths, those of the exit block over the paths that lead to it. -/
structure ResolvesUses (f g : FunctionData) : Prop where
  length : g.blocks.length = (completedBlocks f).length
  own : ∀ b b₀ b₁, f.blocks[b]? = some b₀ → (withoutBindings f.params.length g.blocks)[b]? = some b₁ →
    List.Forall₂ (Exact f.blocks (withoutBindings f.params.length g.blocks) b) (uses b₀) (plainUses b₁)
  exit : ∀ b₀ b₁, (completedBlocks f)[f.blocks.length]? = some b₀ →
    (withoutBindings f.params.length g.blocks)[f.blocks.length]? = some b₁ →
    List.Forall₂ (Exact (completedBlocks f) (withoutBindings f.params.length g.blocks) f.blocks.length) (uses b₀) (plainUses b₁)

variable {f g : FunctionData} {blocks : List BasicBlockData}

theorem length_bindParams (n : ℕ) (blocks : List BasicBlockData) : (bindParams n blocks).length = blocks.length := by
  induction n with
  | zero => rfl
  | succ n ih => rw [bindParams_succ, bindParam, List.length_modify, ih]

theorem withoutBindings_bindParams (n : ℕ) (blocks : List BasicBlockData) : withoutBindings n (bindParams n blocks) = blocks := by
  cases blocks with
  | nil =>
    induction n with
    | zero => rfl
    | succ n ih => simpa [bindParams_succ, bindParam, withoutBindings] using ih
  | cons start blocks =>
    have bound : ∀ n, ∃ bindings : List Statement, bindings.length = n ∧
        bindParams n (start :: blocks) = { start with statements := bindings ++ start.statements } :: blocks := by
      intro n
      induction n with
      | zero => exact ⟨[], rfl, rfl⟩
      | succ n ih =>
        obtain ⟨bindings, length, same⟩ := ih
        refine ⟨entryBinding n :: bindings, by simp [length], ?_⟩
        rw [bindParams_succ, same]
        rfl
    obtain ⟨bindings, length, same⟩ := bound n
    rw [same, withoutBindings, List.modify_zero_cons, List.drop_left' length]

/-- Where every block is reachable, pruning has nothing to do. -/
theorem pruneUnreachableNodes_of_reachable (wellFormed : (cfg f.blocks).WellFormed) (reachable : (cfg f.blocks).AllReachable) :
    pruneUnreachableNodes f = some f := by
  have perm : (Ssa.reachable (cfg f.blocks)).Perm (List.range f.blocks.length) := by
    refine (List.perm_ext_iff_of_nodup (reachable_nodup wellFormed) List.nodup_range).mpr fun n => ?_
    rw [mem_reachable wellFormed, List.mem_range]
    exact ⟨wellFormed.lt_of_reachable, reachable n⟩
  exact if_pos (perm.length_eq.trans List.length_range)

/-- The conversion of a completed function whose blocks are all reachable runs, with pruned phis. -/
theorem exists_prunedRan (pre : PreSsa g) (nonempty : g.blocks ≠ []) (reachable : (cfg g.blocks).AllReachable) (hash : HashOrder) :
    ∃ place placed out names tree entry exit, PhiPlace.new g.blocks .pruned hash = some (place, placed) ∧
      SsaRename.new placed place = some (out, names) ∧ PrunedRan g tree out entry exit := by
  obtain ⟨place, placed, out, names, _, _, _, _, tree, _, entry, exit, _, _, isPlaced, renamed, _, _, both⟩ :=
    exists_bothRan pre nonempty reachable hash hash
  exact ⟨place, placed, out, names, tree, entry, exit, isPlaced, renamed, pre, nonempty, reachable, both.of, both.ran, both.single,
    both.versioned⟩

/-- With a block to start from, the conversion renames the completed function and binds the parameters. -/
theorem exists_transformed (pre : PreSsa f) (nonempty : f.blocks ≠ []) (reachable : (cfg f.blocks).AllReachable) (prune : Bool)
    (hash : HashOrder) : ∃ f₂ tree out entry exit, completedBlocks f = f₂.blocks ∧
      Completes f f₂ (internRetvars f.locals f.returnArity).2 ∧ PrunedRan f₂ tree out entry exit ∧
      transformWith f prune .pruned hash = some { f₂ with blocks := bindParams f.params.length out } := by
  obtain ⟨f₂, completed, completes⟩ := exists_complete pre.ok.finished nonempty
  have nonempty₂ : f₂.blocks ≠ [] := List.ne_nil_of_length_pos (by rw [completes.length]; omega)
  obtain ⟨place, placed, out, names, tree, entry, exit, isPlaced, renamed, run⟩ :=
    exists_prunedRan (completes.preSsa pre) nonempty₂ (completes.allReachable nonempty reachable) hash
  have pruned := pruneUnreachableNodes_of_reachable (pre.wellFormed nonempty) reachable
  refine ⟨f₂, tree, out, entry, exit, by simp [completedBlocks, completed], completes, run, ?_⟩
  unfold transformWith
  rw [if_neg (by simpa using nonempty), ← completes.params]
  cases prune <;>
    simp only [if_true, Bool.false_eq_true, if_false, Option.bind_eq_bind, pruned, completed, isPlaced, renamed, Option.bind_some]

/-- The conversion goes through, and when the uses of its result stand for what reaches them. -/
theorem exists_converted (verified : f.verify = []) (unversioned : Unversioned f.blocks)
    (plain : ∀ block ∈ f.blocks, ∀ st ∈ block.statements, st.isPhi = false) (reachable : (cfg f.blocks).AllReachable)
    (prune : Bool) (hash : HashOrder) : ∃ g, transformWith f prune .pruned hash = some g ∧
      (ResolvesUses f g ↔ (∀ v, ¬ Rejoins (completedBlocks f) v) ∧ ¬ ReadsReturned f) := by
  by_cases nonempty : f.blocks = []
  · have completed : completedBlocks f = [] := by simp [completedBlocks, complete, nonempty]
    refine ⟨f, by simp [transformWith, nonempty], iff_of_true ⟨?_, ?_, ?_⟩ ⟨?_, ?_⟩⟩
    · rw [completed, nonempty]
    · simp [nonempty]
    · simp [completed]
    · rintro v ⟨-, ⟨b, block, ref, k, here, -⟩, -⟩
      simp [completed] at here
    · rintro ⟨block, member, -⟩
      simp [nonempty] at member
  · have pre : PreSsa f := ⟨(CirVerify.visitFunctionData_eq_nil.mp verified).2, unversioned, plain⟩
    obtain ⟨f₂, tree, out, entry, exit, sameBlocks, completes, run, converted⟩ :=
      exists_transformed pre nonempty reachable prune hash
    refine ⟨_, converted, ?_⟩
    rw [sameBlocks, ← run.resolves_iff completes pre]
    constructor
    · rintro ⟨-, own, exit⟩
      rw [withoutBindings_bindParams] at own exit
      rw [sameBlocks] at exit
      exact ⟨own, exit⟩
    · rintro ⟨own, exit⟩
      refine ⟨?_, ?_, ?_⟩
      · rw [sameBlocks, length_bindParams, run.ran.length]
      · rw [withoutBindings_bindParams]
        exact own
      · rw [withoutBindings_bindParams, sameBlocks]
        exact exit

/-- Uses stand for what reaches them exactly if no variable that is read with its incoming value, the return variables at the exit
block included, has a definition that comes back to the start block, and no return reads a local that it has set as a return
variable. -/
theorem transform_resolvesUses_iff (verified : f.verify = []) (unversioned : Unversioned f.blocks)
    (plain : ∀ block ∈ f.blocks, ∀ st ∈ block.statements, st.isPhi = false) (reachable : (cfg f.blocks).AllReachable)
    (prune : Bool) (hash : HashOrder) : ∃ g, transformWith f prune .pruned hash = some g ∧
      (∀ g', transform f prune hash = some g' → g' = g) ∧
      (ResolvesUses f g ↔ (∀ v, ¬ Rejoins (completedBlocks f) v) ∧ ¬ ReadsReturned f) := by
  obtain ⟨g, converted, exact⟩ := exists_converted verified unversioned plain reachable prune hash
  refine ⟨g, converted, fun g' transformed => ?_, exact⟩
  exact Option.some.inj ((transform_eq_some transformed).1.symm.trans converted)

end Conversion

section Swapping

/-- A loop at the start that copies `x` to `y` and back. -/
def swapping : FunctionData where
  name := "f"
  params := []
  returnArity := 0
  blocks :=
    [⟨[.assign (.ofRef (.new (.localVar 1))) [.path (.ofRef (.new (.localVar 0)))],
        .assign (.ofRef (.new (.localVar 0))) [.path (.ofRef (.new (.localVar 1)))]], some (.goto [0, 1])⟩,
      ⟨[], some (.ret [])⟩]
  locals := ["x", "y"]

theorem verified_swapping : swapping.verify = [] := by decide +kernel

theorem unversioned_swapping : Unversioned swapping.blocks := by
  intro block member
  simp only [swapping, List.mem_cons, List.not_mem_nil, or_false] at member
  rcases member with rfl | rfl
  · refine ⟨by decide, ?_⟩
    rintro _ ⟨⟩
    simp [Terminator.srcVars]
  · refine ⟨by simp, ?_⟩
    rintro _ ⟨⟩
    simp [Terminator.srcVars]

theorem plain_swapping : ∀ block ∈ swapping.blocks, ∀ st ∈ block.statements, st.isPhi = false := by decide

theorem reachable_swapping : (cfg swapping.blocks).AllReachable := by
  intro n node
  match n, node with
  | 0, _ => exact .refl
  | 1, _ => exact .single (mem_successors.mpr ⟨_, rfl, by decide⟩)

private theorem rejoins_swapping : Rejoins (completedBlocks swapping) (.localVar 0) where
  isLocal := rfl
  readsEntry := ⟨0, _, .new (.localVar 0), 0, rfl, .head _, rfl, .entry⟩
  returns := ⟨(0, 1), .flow (b := 0) rfl (.head _) (.define rfl rfl)⟩

theorem transform_resolvesUses_iff_swapping : ∃ g, transformWith swapping true .pruned ⟨id, fun nodes => .refl nodes⟩ = some g ∧
    (∀ g', transform swapping true ⟨id, fun nodes => .refl nodes⟩ = some g' → g' = g) ∧
    (ResolvesUses swapping g ↔ (∀ v, ¬ Rejoins (completedBlocks swapping) v) ∧ ¬ ReadsReturned swapping) :=
  transform_resolvesUses_iff verified_swapping unversioned_swapping plain_swapping reachable_swapping true _

/-- In the loop, the read of `x` stands for its incoming value only, though the copy back reaches it too. -/
theorem not_resolvesUses_swapping : ¬ ∀ (f g : FunctionData) (prune : Bool) (hash : HashOrder), f.verify = [] → Unversioned f.blocks →
    (∀ block ∈ f.blocks, ∀ st ∈ block.statements, st.isPhi = false) → (cfg f.blocks).AllReachable →
    transformWith f prune .pruned hash = some g → ResolvesUses f g := by
  intro resolves
  obtain ⟨g, converted, exact⟩ := exists_converted verified_swapping unversioned_swapping plain_swapping reachable_swapping true
    ⟨id, fun nodes => .refl nodes⟩
  have resolved := resolves swapping g true _ verified_swapping unversioned_swapping plain_swapping reachable_swapping converted
  exact (exact.mp resolved).1 _ rejoins_swapping

end Swapping

end Ctadl.Ssa
