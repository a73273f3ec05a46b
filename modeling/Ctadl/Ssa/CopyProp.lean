import Ctadl.Flowgraph.Links
import Ctadl.Ssa.Numbering

/-! # Copy propagation

A copy of one version into another makes the second an alias of the first, and so does a phi whose
operands all come down to one version. Every use of an alias is rewritten to its representative and the
definitions of the aliases are deleted. The map of aliases is an association list with one entry a key.
-/

namespace Ctadl.Ssa

open Cir Flowgraph

/-- What each version was found equal to. -/
structure Aliases where
  parent : List (VariableRef × VariableRef)
deriving DecidableEq, Repr

namespace Aliases

def get (aliases : Aliases) (v : VariableRef) : Option VariableRef := aliases.parent.lookup v

def containsKey (aliases : Aliases) (v : VariableRef) : Bool := (aliases.get v).isSome

def insert (aliases : Aliases) (v u : VariableRef) : Aliases :=
  ⟨(v, u) :: aliases.parent.filter fun entry => entry.1 ≠ v⟩

/-- The representative: follow the links to the end. The cap makes this total on a cycle too. -/
def resolve (aliases : Aliases) (v : VariableRef) : VariableRef :=
  follow aliases.get (aliases.parent.length + 1) v

end Aliases

/-- The variable an operand reads whole. -/
def variableRef : Exp → Option VariableRef
  | .path ap => if ap.isPathless then some ap.base else none
  | .value _ | .objectRef _ | .str _ | .int _ | .bytes _ => none

namespace CopyProp

/-- The alias an unconditional copy makes. -/
def copyOf : Statement → Option (VariableRef × VariableRef)
  | .assign dest [source] =>
    if dest.isPathless && dest.base.version.isSome then
      (variableRef source).bind fun src =>
        if src.version.isSome && src ≠ dest.base then some (dest.base, src) else none
    else none
  | .assign _ _ | .callAssign _ _ _ _ | .phi _ _ | .nop => none

/-- A phi of a versioned variable, with its operands. -/
def phiOf : Statement → Option (VariableRef × List VariableRef)
  | .phi dest operands => if dest.version.isSome then some (dest, operands.map Prod.snd) else none
  | .assign _ _ | .callAssign _ _ _ _ | .nop => none

/-- The copies of a function go straight in. -/
def copies (statements : List Statement) : Aliases :=
  (statements.filterMap copyOf).foldl (fun aliases copy => aliases.insert copy.1 copy.2) ⟨[]⟩

/-- The one value, besides `dest`, that the operands come down to: `none` for two or more of them, and
`some none` for none at all. -/
def unique (aliases : Aliases) (dest : VariableRef) : Option VariableRef → List VariableRef → Option (Option VariableRef)
  | found, [] => some found
  | found, op :: operands =>
    let r := aliases.resolve op
    if r = dest then unique aliases dest found operands
    else
      match found with
      | none => unique aliases dest (some r) operands
      | some u => if u = r then unique aliases dest (some u) operands else none

/-- Settle one phi if it is trivial. -/
def settle (state : Aliases × Bool) (phi : VariableRef × List VariableRef) : Aliases × Bool :=
  if state.1.containsKey phi.1 then state
  else
    match unique state.1 phi.1 none phi.2 with
    | some (some u) => (state.1.insert phi.1 u, true)
    | some none | none => state

/-- Sweeps over the phis until one settles nothing new. A sweep that changes something settles a phi, so
one sweep more than there are phis is enough. -/
def fixpoint (phis : List (VariableRef × List VariableRef)) : ℕ → Aliases → Aliases
  | 0, aliases => aliases
  | fuel + 1, aliases =>
    match phis.foldl settle (aliases, false) with
    | (aliases, true) => fixpoint phis fuel aliases
    | (aliases, false) => aliases

/-- A copy or phi whose destination was aliased away. -/
def isAliasedDef (aliases : Aliases) : Statement → Bool
  | .assign dest _ => dest.isPathless && aliases.containsKey dest.base
  | .phi dest _ => aliases.containsKey dest
  | .callAssign _ _ _ _ | .nop => false

/-- The statements of a function, block by block. -/
def statements (blocks : List BasicBlockData) : List Statement := blocks.flatMap BasicBlockData.statements

/-- The alias relation of a function. -/
def aliasesOf (blocks : List BasicBlockData) : Aliases :=
  let phis := (statements blocks).filterMap phiOf
  fixpoint phis (phis.length + 1) (copies (statements blocks))

/-- Rewrite the uses of a block to representatives and delete the definitions of the aliases. -/
def rewriteBlock (aliases : Aliases) (block : BasicBlockData) : BasicBlockData where
  statements := (block.statements.map (Statement.mapSrc aliases.resolve)).filter fun st => !isAliasedDef aliases st
  terminator := block.terminator.map (Terminator.mapSrc aliases.resolve)

end CopyProp

open CopyProp in
/-- The pass on one function, with the number of statements it deletes. -/
def propagateCopiesFunction (function : FunctionData) : FunctionData × ℕ :=
  let aliases := aliasesOf function.blocks
  if aliases.parent.isEmpty then (function, 0)
  else
    ({ function with blocks := function.blocks.map (rewriteBlock aliases) },
      ((statements function.blocks).filter (isAliasedDef aliases)).length)

/-- The pass on every function of a program. -/
def propagateCopies (program : Program) : Program :=
  { program with functions := program.functions.map fun f => (propagateCopiesFunction f).1 }

namespace Aliases

variable {aliases : Aliases} {v w u : VariableRef} {rank : VariableRef → ℕ}

theorem get_insert : (aliases.insert v u).get = Function.update aliases.get v (some u) := by
  funext w
  by_cases same : w = v
  · subst same
    simp [get, insert]
  · rw [Function.update_of_ne same]
    have skip : (w == v) = false := by simpa using same
    simp only [get, insert, List.lookup_cons, skip]
    induction aliases.parent with
    | nil => rfl
    | cons entry rest ih =>
      obtain ⟨k, x⟩ := entry
      by_cases gone : k = v
      · subst gone
        rw [List.filter_cons_of_neg (by simp), List.lookup_cons, skip]
        exact ih
      · rw [List.filter_cons_of_pos (by simpa using gone)]
        simp only [List.lookup_cons, ih]

theorem containsKey_insert : (aliases.insert v u).containsKey w = true ↔ w = v ∨ aliases.containsKey w = true := by
  unfold containsKey
  rw [get_insert]
  by_cases same : w = v
  · simp [same]
  · simp [same]

theorem roots (falling : Falling aliases.get rank) : Roots aliases.get aliases.resolve := by
  have complete : ∀ {v u}, aliases.get v = some u → v ∈ aliases.parent.map Prod.fst := by
    intro v u found
    obtain ⟨before, after, split, -⟩ := List.lookup_eq_some_iff.mp found
    simp [split]
  have ends : ∀ v, aliases.get (aliases.resolve v) = none := fun v => by
    refine root_follow falling complete ?_
    have short := List.length_filter_le (fun w => decide (rank w ≤ rank v)) (aliases.parent.map Prod.fst)
    rw [List.length_map] at short
    omega
  exact ⟨ends, fun root => follow_of_root root, fun linked => follow_of_link linked (ends _)⟩

end Aliases

namespace CopyProp

/-- A statement that copies equals to equals. -/
def Folded (resolve : VariableRef → VariableRef) : Statement → Prop
  | .assign dest [.path source] =>
    dest.segments = [] ∧ source.segments = [] ∧ resolve source.base = resolve dest.base
  | .phi dest operands => ∀ op ∈ operands, resolve op.2 = resolve dest
  | .assign _ _ | .callAssign _ _ _ _ | .nop => False

theorem Folded.coarser {resolve resolve' : VariableRef → VariableRef} {st : Statement} {g : VariableRef → VariableRef}
    (coarser : ∀ v, resolve' v = g (resolve v)) (folded : Folded resolve st) : Folded resolve' st := by
  unfold Folded at folded
  split at folded
  · obtain ⟨dest, source, same⟩ := folded
    exact ⟨dest, source, by rw [coarser, coarser, same]⟩
  · intro op member
    rw [coarser, coarser, folded op member]
  all_goals exact folded.elim

/-- What the map of aliases is worth: it has no cycle, and each entry is a statement that copies equals to
equals. -/
structure Sound (sts : List Statement) (aliases : Aliases) : Prop where
  acyclic : ∃ rank, Falling aliases.get rank
  versioned : ∀ {v u}, aliases.get v = some u → v.version.isSome
  folded : ∀ {v u}, aliases.get v = some u → ∃ st ∈ sts, st.dstVars = [v] ∧ Folded aliases.resolve st

theorem Sound.roots {sts : List Statement} {aliases : Aliases} (sound : Sound sts aliases) :
    Roots aliases.get aliases.resolve :=
  have ⟨_, falling⟩ := sound.acyclic
  Aliases.roots falling

theorem copyOf_eq_some {st : Statement} {v u : VariableRef} (copy : copyOf st = some (v, u)) :
    st = .assign (.ofRef v) [.path (.ofRef u)] ∧ v.version.isSome ∧ u.version.isSome ∧ u ≠ v := by
  unfold copyOf at copy
  split at copy
  · rename_i dest source
    split_ifs at copy with whole
    obtain ⟨src, reads, copy⟩ := Option.bind_eq_some_iff.mp copy
    split_ifs at copy with other
    simp only [Option.some.injEq, Prod.mk.injEq] at copy
    obtain ⟨rfl, rfl⟩ := copy
    simp only [Bool.and_eq_true, decide_eq_true_eq] at whole other
    unfold variableRef at reads
    split at reads
    · rename_i ap
      split_ifs at reads with bare
      obtain rfl := Option.some.inj reads
      obtain ⟨base, segments⟩ := ap
      obtain ⟨dbase, dsegments⟩ := dest
      obtain rfl : segments = [] := by simpa [AccessPath.isPathless] using bare
      obtain rfl : dsegments = [] := by simpa [AccessPath.isPathless] using whole.1
      exact ⟨rfl, whole.2, other.1, other.2⟩
    all_goals simp at reads
  all_goals simp at copy

theorem phiOf_eq_some {st : Statement} {dest : VariableRef} {reads : List VariableRef}
    (phi : phiOf st = some (dest, reads)) :
    ∃ operands, st = .phi dest operands ∧ reads = operands.map Prod.snd ∧ dest.version.isSome := by
  unfold phiOf at phi
  split at phi
  · split_ifs at phi with versioned
    simp only [Option.some.injEq, Prod.mk.injEq] at phi
    obtain ⟨rfl, rfl⟩ := phi
    exact ⟨_, rfl, rfl, versioned⟩
  all_goals simp at phi

theorem get_copies {sts : List Statement} {v u : VariableRef} (found : (copies sts).get v = some u) :
    (v, u) ∈ sts.filterMap copyOf := by
  have all : ∀ v u, (copies sts).get v = some u → (v, u) ∈ sts.filterMap copyOf := by
    unfold copies
    refine List.foldlRecOn _ _ (motive := fun aliases : Aliases =>
      ∀ v u, aliases.get v = some u → (v, u) ∈ sts.filterMap copyOf) (by simp [Aliases.get]) ?_
    rintro aliases known ⟨w, x⟩ member v u found
    rw [Aliases.get_insert] at found
    by_cases same : v = w
    · subst same
      rw [Function.update_self] at found
      exact Option.some.inj found ▸ member
    · exact known v u (by rwa [Function.update_of_ne same] at found)
  exact all v u found

variable {sts : List Statement} {aliases : Aliases} {dest u : VariableRef} {operands : List VariableRef}

/-- The copies of a function in static single assignment form have no cycle: ranks fall along them. -/
theorem sound_copies (rank : VariableRef → ℕ)
    (older : ∀ st ∈ sts, st.isPhi = false → ∀ s ∈ st.srcVars, s.version.isSome → ∀ d ∈ st.dstVars, d.version.isSome →
      rank s < rank d) : Sound sts (copies sts) := by
  have falling : Falling (copies sts).get rank := by
    intro v u found
    obtain ⟨st, member, copy⟩ := List.mem_filterMap.mp (get_copies found)
    obtain ⟨rfl, versioned, numbered, -⟩ := copyOf_eq_some copy
    exact older _ member rfl u (List.mem_singleton_self u) numbered v (List.mem_singleton_self v) versioned
  refine ⟨⟨rank, falling⟩, fun found => ?_, fun {v u} found => ?_⟩
  · obtain ⟨st, -, copy⟩ := List.mem_filterMap.mp (get_copies found)
    exact (copyOf_eq_some copy).2.1
  · obtain ⟨st, member, copy⟩ := List.mem_filterMap.mp (get_copies found)
    obtain ⟨rfl, -⟩ := copyOf_eq_some copy
    exact ⟨_, member, rfl, rfl, rfl, ((Aliases.roots falling).linked found).symm⟩

/-- What the scan of the operands of a phi finds. -/
theorem unique_eq_some {found result : Option VariableRef} (scanned : unique aliases dest found operands = some result) :
    (∀ op ∈ operands, aliases.resolve op = dest ∨ result = some (aliases.resolve op)) ∧
      (∀ x, found = some x → result = some x) ∧
      ∀ x, result = some x → found = some x ∨ ∃ op ∈ operands, aliases.resolve op = x ∧ x ≠ dest := by
  induction operands generalizing found with
  | nil =>
    obtain rfl := Option.some.inj scanned
    exact ⟨by simp, fun _ => id, fun _ => .inl⟩
  | cons op rest ih =>
    simp only [unique] at scanned
    split_ifs at scanned with self
    · obtain ⟨each, kept, origin⟩ := ih scanned
      refine ⟨fun op' member => ?_, kept, fun x same => ?_⟩
      · rcases List.mem_cons.mp member with rfl | later
        · exact .inl self
        · exact each op' later
      · exact (origin x same).imp_right fun ⟨op', later, here⟩ => ⟨op', .tail _ later, here⟩
    · cases found with
      | none =>
        obtain ⟨each, kept, origin⟩ := ih scanned
        refine ⟨fun op' member => ?_, by simp, fun x same => .inr ?_⟩
        · rcases List.mem_cons.mp member with rfl | later
          · exact .inr (kept _ rfl)
          · exact each op' later
        · rcases origin x same with first | ⟨op', later, here⟩
          · exact ⟨op, .head _, Option.some.inj first, Option.some.inj first ▸ self⟩
          · exact ⟨op', .tail _ later, here⟩
      | some x =>
        simp only at scanned
        split_ifs at scanned with same
        obtain ⟨each, kept, origin⟩ := ih scanned
        refine ⟨fun op' member => ?_, kept, fun x same => ?_⟩
        · rcases List.mem_cons.mp member with rfl | later
          · exact .inr (same ▸ kept _ rfl)
          · exact each op' later
        · exact (origin x same).imp_right fun ⟨op', later, here⟩ => ⟨op', .tail _ later, here⟩

/-- Settling a phi keeps the map sound. -/
theorem Sound.settle (sound : Sound sts aliases) {changed : Bool} {phi : VariableRef × List VariableRef}
    (member : phi ∈ sts.filterMap phiOf) : Sound sts (CopyProp.settle (aliases, changed) phi).1 := by
  obtain ⟨st, inside, isPhi⟩ := List.mem_filterMap.mp member
  obtain ⟨dest, reads⟩ := phi
  obtain ⟨operands, rfl, rfl, versioned⟩ := phiOf_eq_some isPhi
  unfold CopyProp.settle
  simp only
  split_ifs with known
  · exact sound
  split
  · rename_i u scanned
    obtain ⟨each, -, origin⟩ := unique_eq_some scanned
    obtain ⟨rank, falling⟩ := sound.acyclic
    have roots := sound.roots
    obtain ⟨op, -, rfl, apart⟩ := (origin u rfl).resolve_left (by simp)
    have free : aliases.get dest = none := by simpa [Aliases.containsKey] using known
    have top := roots.isRoot op
    obtain ⟨rank', falling'⟩ : ∃ rank', Falling (aliases.insert dest (aliases.resolve op)).get rank' := by
      rw [Aliases.get_insert]
      exact ⟨_, falling.link roots free top apart⟩
    have merged := Roots.link falling roots (Aliases.get_insert ▸ Aliases.roots falling') free top apart
    refine ⟨⟨rank', falling'⟩, fun {v w} found => ?_, fun {v w} found => ?_⟩
    · rw [Aliases.get_insert] at found
      by_cases same : v = dest
      · exact same ▸ versioned
      · exact sound.versioned (by rwa [Function.update_of_ne same] at found)
    · rw [Aliases.get_insert] at found
      by_cases same : v = dest
      · subst same
        refine ⟨_, inside, rfl, fun operand here => ?_⟩
        rw [merged, merged, if_pos (roots.fixed free)]
        rcases each operand.2 (List.mem_map_of_mem here) with self | other
        · rw [if_pos self]
        · rw [← Option.some.inj other, if_neg apart]
      · rw [Function.update_of_ne same] at found
        obtain ⟨st, inside, defines, folded⟩ := sound.folded found
        exact ⟨st, inside, defines, folded.coarser (g := fun r => if r = dest then aliases.resolve op else r) merged⟩
  · exact sound
  · exact sound

section Fixpoint

variable {phis : List (VariableRef × List VariableRef)} {state : Aliases × Bool}

/-- The two ways a phi is settled. -/
theorem settle_cases (state : Aliases × Bool) (phi : VariableRef × List VariableRef) :
    settle state phi = state ∧ (state.1.containsKey phi.1 = false → ∀ u, unique state.1 phi.1 none phi.2 ≠ some (some u)) ∨
      state.1.containsKey phi.1 = false ∧ ∃ u, settle state phi = (state.1.insert phi.1 u, true) := by
  unfold settle
  split_ifs with known
  · exact .inl ⟨rfl, fun unknown => by simp [known] at unknown⟩
  · split
    · rename_i u scanned
      exact .inr ⟨by simpa using known, u, rfl⟩
    · rename_i scanned
      exact .inl ⟨rfl, fun _ u => by simp [scanned]⟩
    · rename_i scanned
      exact .inl ⟨rfl, fun _ u => by simp [scanned]⟩

/-- A sweep keeps the keys, and says whether it settled anything. -/
theorem sweep_spec (phis : List (VariableRef × List VariableRef)) (state : Aliases × Bool) :
    (∀ w, state.1.containsKey w = true → (phis.foldl settle state).1.containsKey w = true) ∧
      (state.2 = true → (phis.foldl settle state).2 = true) ∧
      ((phis.foldl settle state).2 = false → phis.foldl settle state = state ∧
        ∀ phi ∈ phis, state.1.containsKey phi.1 = false → ∀ u, unique state.1 phi.1 none phi.2 ≠ some (some u)) ∧
      (state.2 = false → (phis.foldl settle state).2 = true →
        ∃ phi ∈ phis, state.1.containsKey phi.1 = false ∧ (phis.foldl settle state).1.containsKey phi.1 = true) := by
  induction phis generalizing state with
  | nil => exact ⟨fun _ => id, id, fun _ => ⟨rfl, by simp⟩, fun off on => by simp [off] at on⟩
  | cons phi rest ih =>
    simp only [List.foldl_cons]
    obtain ⟨keys, stays, quiet, moved⟩ := ih (settle state phi)
    rcases settle_cases state phi with ⟨same, stuck⟩ | ⟨fresh, u, inserted⟩
    · rw [same] at keys stays quiet moved ⊢
      refine ⟨keys, stays, fun off => ?_, fun off on => ?_⟩
      · obtain ⟨ends, others⟩ := quiet off
        refine ⟨ends, fun phi' member => ?_⟩
        rcases List.mem_cons.mp member with rfl | later
        · exact stuck
        · exact others phi' later
      · obtain ⟨phi', later, here⟩ := moved off on
        exact ⟨phi', .tail _ later, here⟩
    · rw [inserted] at keys stays quiet moved ⊢
      have settled := keys phi.1 (Aliases.containsKey_insert.mpr (.inl rfl))
      refine ⟨fun w known => keys w (Aliases.containsKey_insert.mpr (.inr known)), fun _ => stays rfl, fun off => ?_,
        fun _ _ => ⟨phi, .head _, fresh, settled⟩⟩
      simp [stays rfl] at off

/-- The sweeps end, at a map that none of the phis changes. -/
theorem fixpoint_settled {fuel : ℕ} (enough : (phis.filter fun phi => !aliases.containsKey phi.1).length < fuel) :
    ∀ phi ∈ phis, (fixpoint phis fuel aliases).containsKey phi.1 = false →
      ∀ u, unique (fixpoint phis fuel aliases) phi.1 none phi.2 ≠ some (some u) := by
  induction fuel generalizing aliases with
  | zero => omega
  | succ fuel ih =>
    obtain ⟨keys, -, quiet, moved⟩ := sweep_spec phis (aliases, false)
    unfold fixpoint
    cases swept : phis.foldl settle (aliases, false) with
    | mk aliases' changed =>
      rw [swept] at keys quiet moved
      cases changed with
      | true =>
        obtain ⟨phi, member, fresh, settled⟩ := moved rfl rfl
        refine ih ((length_filter_lt (fun phi' _ unknown => ?_) member (by simpa using fresh) (by simpa using settled)).trans_le
          (Nat.lt_succ_iff.mp enough))
        by_contra known
        simp only [Bool.not_eq_true', Bool.not_eq_false] at unknown known
        simp [keys phi'.1 known] at unknown
      | false =>
        obtain ⟨same, stuck⟩ := quiet rfl
        obtain rfl : aliases' = aliases := congrArg Prod.fst same
        exact stuck

/-- What settling a phi keeps, the sweeps keep. -/
theorem fixpoint_keeps {P : Aliases → Prop} {fuel : ℕ} (holds : P aliases)
    (each : ∀ state : Aliases × Bool, P state.1 → ∀ phi ∈ phis, P (settle state phi).1) :
    P (fixpoint phis fuel aliases) := by
  induction fuel generalizing aliases with
  | zero => exact holds
  | succ fuel ih =>
    have swept : P (phis.foldl settle (aliases, false)).1 :=
      List.foldlRecOn _ _ (motive := fun state : Aliases × Bool => P state.1) holds each
    unfold fixpoint
    split
    · rename_i aliases' same
      rw [same] at swept
      exact ih swept
    · rename_i aliases' same
      rw [same] at swept
      exact swept

theorem sound_fixpoint {fuel : ℕ} (sound : Sound sts aliases) :
    Sound sts (fixpoint (sts.filterMap phiOf) fuel aliases) :=
  fixpoint_keeps sound fun _ sound _ member => sound.settle member

/-- No key is ever removed. -/
theorem containsKey_fixpoint {fuel : ℕ} {w : VariableRef} (known : aliases.containsKey w = true) :
    (fixpoint phis fuel aliases).containsKey w = true := by
  refine fixpoint_keeps (P := fun aliases => aliases.containsKey w = true) known fun state known phi _ => ?_
  rcases settle_cases state phi with ⟨same, -⟩ | ⟨-, u, inserted⟩
  · rwa [same]
  · rw [inserted]
    exact Aliases.containsKey_insert.mpr (.inr known)

end Fixpoint

/-- Every copy of the function makes an alias. -/
theorem containsKey_copies {v u : VariableRef} (member : (v, u) ∈ sts.filterMap copyOf) :
    (copies sts).containsKey v = true := by
  have all : ∀ (entries : List (VariableRef × VariableRef)) (start : Aliases),
      ((v, u) ∈ entries ∨ start.containsKey v = true) →
      (entries.foldl (fun aliases copy => aliases.insert copy.1 copy.2) start).containsKey v = true := by
    intro entries
    induction entries with
    | nil => exact fun start known => known.resolve_left (by simp)
    | cons entry rest ih =>
      intro start known
      refine ih _ ?_
      rw [Aliases.containsKey_insert]
      rcases known with here | known
      · rcases List.mem_cons.mp here with rfl | later
        · exact .inr (.inl rfl)
        · exact .inl later
      · exact .inr (.inr known)
  exact all _ _ (.inl member)

/-- The scan of a phi sees its operands only through their representatives. -/
theorem unique_map {found : Option VariableRef} (fixed : ∀ v, (⟨[]⟩ : Aliases).resolve v = v) :
    unique ⟨[]⟩ dest found (operands.map aliases.resolve) = unique aliases dest found operands := by
  induction operands generalizing found with
  | nil => rfl
  | cons op rest ih => simp only [List.map_cons, unique, fixed, ih]

/-- Links among the variables that satisfy a property. -/
def Within (good : VariableRef → Prop) (aliases : Aliases) : Prop := ∀ v u, aliases.get v = some u → good v ∧ good u

theorem Within.resolve {good : VariableRef → Prop} (within : Within good aliases) {v : VariableRef} (here : good v) :
    good (aliases.resolve v) := by
  have all : ∀ (steps : ℕ) (v : VariableRef), good v → good (follow aliases.get steps v) := by
    intro steps
    induction steps with
    | zero => exact fun v here => here
    | succ steps ih =>
      intro v here
      unfold follow
      split
      · exact here
      · rename_i u linked
        exact ih u (within v u linked).2
  exact all _ v here

theorem within_fixpoint {good : VariableRef → Prop} {fuel : ℕ} (within : Within good aliases)
    (phis : ∀ dest operands, .phi dest operands ∈ sts → good dest ∧ ∀ op ∈ operands, good op.2) :
    Within good (fixpoint (sts.filterMap phiOf) fuel aliases) := by
  refine fixpoint_keeps within ?_
  rintro ⟨aliases, changed⟩ within ⟨dest, reads⟩ member
  obtain ⟨st, isStatement, isPhi⟩ := List.mem_filterMap.mp member
  obtain ⟨operands, rfl, rfl, -⟩ := phiOf_eq_some isPhi
  obtain ⟨goodDest, goodOps⟩ := phis dest operands isStatement
  unfold settle
  simp only
  split_ifs with known
  · exact within
  split
  · rename_i u scanned
    obtain ⟨op, here, rfl, -⟩ := ((unique_eq_some scanned).2.2 u rfl).resolve_left (by simp)
    obtain ⟨operand, inside, rfl⟩ := List.mem_map.mp here
    intro v w found
    rw [Aliases.get_insert] at found
    by_cases same : v = dest
    · subst same
      rw [Function.update_self] at found
      exact ⟨goodDest, Option.some.inj found ▸ within.resolve (goodOps operand inside)⟩
    · exact within v w (by rwa [Function.update_of_ne same] at found)
  · exact within
  · exact within

section Pass

variable {blocks : List BasicBlockData} {rank : VariableRef → ℕ} {st st' : Statement}

theorem mem_statements : st ∈ statements blocks ↔ ∃ block ∈ blocks, st ∈ block.statements := List.mem_flatMap

theorem sound_aliasesOf (inSsa : InSsa blocks rank) : Sound (statements blocks) (aliasesOf blocks) := by
  refine sound_fixpoint (sound_copies rank fun st member plain => ?_)
  obtain ⟨block, inside, here⟩ := mem_statements.mp member
  exact inSsa.older block inside st here plain

/-- A version has one definition. -/
theorem eq_of_defines (inSsa : InSsa blocks rank) (member : st ∈ statements blocks) (member' : st' ∈ statements blocks)
    {d : VariableRef} (versioned : d.version.isSome) (defines : d ∈ st.dstVars) (defines' : d ∈ st'.dstVars) : st = st' := by
  have distinct := inSsa.distinct
  have flat : (definitions blocks).filter (fun d => d.version.isSome) =
      (statements blocks).flatMap fun st => st.dstVars.filter fun d => d.version.isSome := by
    simp only [definitions, statements, List.filter_flatMap, List.flatMap_assoc]
  rw [flat, List.nodup_flatMap] at distinct
  by_contra apart
  have : Std.Symm (Function.onFun List.Disjoint fun st : Statement => st.dstVars.filter fun d => d.version.isSome) :=
    ⟨fun _ _ disjoint => disjoint.symm⟩
  exact distinct.2.forall member member' apart
    (List.mem_filter.mpr ⟨defines, versioned⟩) (List.mem_filter.mpr ⟨defines', versioned⟩)

/-- The definitions the pass deletes copy equals to equals. -/
theorem folded_of_isAliasedDef (inSsa : InSsa blocks rank) (member : st ∈ statements blocks)
    (dead : isAliasedDef (aliasesOf blocks) st = true) : Folded (aliasesOf blocks).resolve st := by
  have sound := sound_aliasesOf inSsa
  have known : ∀ {d}, d ∈ st.dstVars → (aliasesOf blocks).containsKey d = true → Folded (aliasesOf blocks).resolve st := by
    intro d defines key
    obtain ⟨u, found⟩ := Option.isSome_iff_exists.mp key
    obtain ⟨st', member', defines', folded⟩ := sound.folded found
    rwa [eq_of_defines inSsa member member' (sound.versioned found) defines (defines' ▸ List.mem_singleton_self d)]
  cases st with
  | assign dest sources =>
    simp only [isAliasedDef, Bool.and_eq_true] at dead
    exact known (by simp [Statement.dstVars, dead.1]) dead.2
  | phi dest operands => exact known (List.mem_singleton_self dest) dead
  | callAssign info style rets args => simp [isAliasedDef] at dead
  | nop => simp [isAliasedDef] at dead

/-- What the statements that stay define is no alias. -/
theorem get_of_kept (inSsa : InSsa blocks rank) (member : st ∈ statements blocks)
    (kept : isAliasedDef (aliasesOf blocks) st = false) {d : VariableRef} (defines : d ∈ st.dstVars) :
    (aliasesOf blocks).get d = none := by
  have sound := sound_aliasesOf inSsa
  by_contra found
  obtain ⟨u, found⟩ := Option.ne_none_iff_exists'.mp found
  have key : (aliasesOf blocks).containsKey d = true := by simp [Aliases.containsKey, found]
  obtain ⟨st', member', defines', folded⟩ := sound.folded found
  obtain rfl := eq_of_defines inSsa member member' (sound.versioned found) defines (defines' ▸ List.mem_singleton_self d)
  unfold Folded at folded
  split at folded
  · rename_i dest source
    obtain ⟨bare, -⟩ := folded
    obtain rfl : d = dest.base := by simpa [Statement.dstVars, AccessPath.isPathless, bare] using defines
    simp [isAliasedDef, key, AccessPath.isPathless, bare] at kept
  · obtain rfl : d = _ := List.mem_singleton.mp defines
    simp [isAliasedDef, key] at kept
  all_goals exact folded

theorem isAliasedDef_mapSrc (aliases : Aliases) (st : Statement) (f : VariableRef → VariableRef) :
    isAliasedDef aliases (st.mapSrc f) = isAliasedDef aliases st := by
  cases st with
  | assign dest sources =>
    by_cases bare : dest.isPathless
    · simp [isAliasedDef, Statement.mapSrc, bare]
    · have bare' : ({ dest with base := f dest.base } : AccessPath).isPathless = dest.isPathless := rfl
      simp [isAliasedDef, Statement.mapSrc, bare, bare']
  | callAssign _ _ _ _ | phi _ _ | nop => rfl

/-- Without aliases a block stays as it is. -/
theorem rewriteBlock_nil {aliases : Aliases} (empty : aliases.parent = []) (block : BasicBlockData) :
    rewriteBlock aliases block = block := by
  have unknown : ∀ v, aliases.get v = none := fun v => by simp [Aliases.get, empty]
  have fixed : aliases.resolve = id := funext fun v => follow_of_root (unknown v)
  have alive : ∀ st, isAliasedDef aliases st = false := fun st => by
    cases st <;> simp [isAliasedDef, Aliases.containsKey, unknown]
  simp [rewriteBlock, fixed, alive]

/-- The pass rewrites every block by the aliases of the function. -/
theorem propagateCopiesFunction_eq (f : FunctionData) :
    (propagateCopiesFunction f).1 = { f with blocks := f.blocks.map (rewriteBlock (aliasesOf f.blocks)) } := by
  unfold propagateCopiesFunction
  by_cases empty : (aliasesOf f.blocks).parent = []
  · have same : f.blocks.map (rewriteBlock (aliasesOf f.blocks)) = f.blocks := by
      rw [List.map_congr_left fun block _ => rewriteBlock_nil empty block, List.map_id']
    simp [empty, same]
  · simp [empty]

/-- The alias relation is acyclic. -/
theorem aliasesOf_acyclic (inSsa : InSsa blocks rank) (v : VariableRef) :
    ¬ Relation.TransGen (fun v u => (aliasesOf blocks).get v = some u) v v := by
  obtain ⟨rank, falling⟩ := (sound_aliasesOf inSsa).acyclic
  have falls : ∀ {v u}, Relation.TransGen (fun v u => (aliasesOf blocks).get v = some u) v u → rank u < rank v := by
    intro v u chain
    induction chain with
    | single link => exact falling link
    | tail _ link ih => exact (falling link).trans ih
  exact fun cycle => (falls cycle).false

/-- The variables a block reads. -/
def uses (block : BasicBlockData) : List VariableRef :=
  block.statements.flatMap Statement.srcVars ++ (block.terminator.map Terminator.srcVars).getD []

/-- Every use names a representative. -/
theorem get_of_uses (inSsa : InSsa blocks rank) {block : BasicBlockData} {ref : VariableRef}
    (used : ref ∈ uses (rewriteBlock (aliasesOf blocks) block)) : (aliasesOf blocks).get ref = none := by
  have roots := (sound_aliasesOf inSsa).roots
  rcases List.mem_append.mp used with source | last
  · obtain ⟨st, inside, mentioned⟩ := List.mem_flatMap.mp source
    obtain ⟨old, -, rfl⟩ := List.mem_map.mp (List.mem_of_mem_filter inside)
    rw [Statement.srcVars_mapSrc] at mentioned
    obtain ⟨v, -, rfl⟩ := List.mem_map.mp mentioned
    exact roots.isRoot v
  · cases here : block.terminator with
    | none => simp [rewriteBlock, here] at last
    | some term =>
      simp only [rewriteBlock, here, Option.map_some, Option.getD_some, Terminator.srcVars_mapSrc] at last
      obtain ⟨v, -, rfl⟩ := List.mem_map.mp last
      exact roots.isRoot v

/-- The definition of a representative stays. -/
theorem mem_rewriteBlock_of_root {block : BasicBlockData} (inside : st ∈ block.statements)
    {ref : VariableRef} (root : (aliasesOf blocks).get ref = none) (defines : ref ∈ st.dstVars) :
    st.mapSrc (aliasesOf blocks).resolve ∈ (rewriteBlock (aliasesOf blocks) block).statements := by
  refine List.mem_filter.mpr ⟨List.mem_map_of_mem inside, ?_⟩
  rw [isAliasedDef_mapSrc]
  cases st with
  | assign dest sources =>
    by_cases bare : dest.isPathless
    · obtain rfl : ref = dest.base := by simpa [Statement.dstVars, bare] using defines
      simp [isAliasedDef, Aliases.containsKey, root]
    · simp [isAliasedDef, bare]
  | phi dest operands =>
    obtain rfl := List.mem_singleton.mp defines
    simp [isAliasedDef, Aliases.containsKey, root]
  | callAssign _ _ _ _ | nop => rfl

theorem mem_statements_rewriteBlock {aliases : Aliases} (member : st' ∈ statements (blocks.map (rewriteBlock aliases))) :
    ∃ st ∈ statements blocks, st' = st.mapSrc aliases.resolve ∧ isAliasedDef aliases st = false := by
  obtain ⟨block', inside, here⟩ := mem_statements.mp member
  obtain ⟨block, blockIn, rfl⟩ := List.mem_map.mp inside
  obtain ⟨mapped, alive⟩ := List.mem_filter.mp here
  obtain ⟨st, stIn, rfl⟩ := List.mem_map.mp mapped
  rw [isAliasedDef_mapSrc] at alive
  exact ⟨st, mem_statements.mpr ⟨block, blockIn, stIn⟩, rfl, by simpa using alive⟩

/-- The output has no copy left to propagate. -/
theorem copyOf_rewritten (inSsa : InSsa blocks rank)
    (member : st' ∈ statements (blocks.map (rewriteBlock (aliasesOf blocks)))) : copyOf st' = none := by
  obtain ⟨st, inside, rfl, alive⟩ := mem_statements_rewriteBlock member
  have sound := sound_aliasesOf inSsa
  by_contra copies
  obtain ⟨⟨v, u⟩, copy⟩ := Option.ne_none_iff_exists'.mp copies
  obtain ⟨same, versioned, numbered, apart⟩ := copyOf_eq_some copy
  cases st with
  | assign dest sources =>
    simp only [Statement.mapSrc, Statement.assign.injEq] at same
    obtain ⟨target, reads⟩ := same
    have bare : dest = .ofRef v := by
      split_ifs at target with bare
      · exact target
      · simp only [AccessPath.ofRef, AccessPath.mk.injEq] at target
        simp [AccessPath.isPathless, target.2] at bare
    obtain ⟨source, rest, rfl, first, only⟩ := List.map_eq_cons_iff.mp reads
    obtain rfl := List.map_eq_nil_iff.mp only
    subst bare
    cases source with
    | path ap =>
      simp only [Exp.mapBase, Exp.path.injEq, AccessPath.ofRef, AccessPath.mk.injEq] at first
      obtain ⟨base, segments⟩ := ap
      obtain ⟨rfl, rfl⟩ := first
      cases old : base.version with
      | none =>
        -- an unversioned source has no alias and stays unversioned
        have root : (aliasesOf blocks).get base = none := by
          by_contra found
          obtain ⟨w, found⟩ := Option.ne_none_iff_exists'.mp found
          simpa [old] using sound.versioned found
        rw [sound.roots.fixed root, old] at numbered
        simp at numbered
      | some k =>
        obtain ⟨block, blockIn, stIn⟩ := mem_statements.mp inside
        have less := inSsa.older block blockIn _ stIn rfl base (by simp [Statement.srcVars, Exp.baseVariable, Exp.accessPath])
          (by simp [old]) v (by simp [Statement.dstVars, AccessPath.ofRef, AccessPath.isPathless]) versioned
        have differ : base ≠ v := by
          rintro rfl
          exact less.false
        have here : (v, base) ∈ (statements blocks).filterMap copyOf := by
          refine List.mem_filterMap.mpr ⟨_, inside, ?_⟩
          simp [copyOf, AccessPath.ofRef, AccessPath.isPathless, versioned, variableRef, old, differ]
        have known : (aliasesOf blocks).containsKey v = true := containsKey_fixpoint (containsKey_copies here)
        simp [isAliasedDef, AccessPath.ofRef, AccessPath.isPathless, known] at alive
    | value ap | objectRef object | str text | int number | bytes data => simp [Exp.mapBase] at first
  | callAssign _ _ _ _ | phi _ _ | nop => simp [Statement.mapSrc] at same

/-- On the output there is nothing left to alias. -/
theorem aliasesOf_rewritten (inSsa : InSsa blocks rank) :
    aliasesOf (blocks.map (rewriteBlock (aliasesOf blocks))) = ⟨[]⟩ := by
  have fixed : ∀ v, (⟨[]⟩ : Aliases).resolve v = v := fun v => follow_of_root rfl
  have noCopies : copies (statements (blocks.map (rewriteBlock (aliasesOf blocks)))) = ⟨[]⟩ := by
    have none : (statements (blocks.map (rewriteBlock (aliasesOf blocks)))).filterMap copyOf = [] :=
      List.filterMap_eq_nil_iff.mpr fun st member => copyOf_rewritten inSsa member
    unfold copies
    rw [none]
    rfl
  have stuck : ∀ phi ∈ (statements (blocks.map (rewriteBlock (aliasesOf blocks)))).filterMap phiOf,
      settle (⟨[]⟩, false) phi = (⟨[]⟩, false) := by
    rintro ⟨dest, reads⟩ member
    obtain ⟨st', inside, isPhi⟩ := List.mem_filterMap.mp member
    obtain ⟨st, old, rfl, alive⟩ := mem_statements_rewriteBlock inside
    obtain ⟨operands', same, rfl, versioned⟩ := phiOf_eq_some isPhi
    cases st with
    | phi dest' operands =>
      simp only [Statement.mapSrc, Statement.phi.injEq] at same
      obtain ⟨rfl, rfl⟩ := same
      have here : (dest', operands.map Prod.snd) ∈ (statements blocks).filterMap phiOf :=
        List.mem_filterMap.mpr ⟨_, old, by simp [phiOf, versioned]⟩
      have enough : (((statements blocks).filterMap phiOf).filter fun phi =>
          !(copies (statements blocks)).containsKey phi.1).length < ((statements blocks).filterMap phiOf).length + 1 :=
        Nat.lt_succ_of_le (List.length_filter_le _ _)
      have settled := fixpoint_settled enough _ here alive
      have reads : (operands.map fun operand => (operand.1, (aliasesOf blocks).resolve operand.2)).map Prod.snd =
          (operands.map Prod.snd).map (aliasesOf blocks).resolve := by simp [Function.comp_def]
      simp only [settle, Aliases.containsKey, Aliases.get, List.lookup_nil, Option.isSome_none, Bool.false_eq_true,
        if_false, reads, unique_map fixed]
      split
      · rename_i u scanned
        exact absurd scanned (settled u)
      · rfl
      · rfl
    | assign _ _ | callAssign _ _ _ _ | nop => simp [Statement.mapSrc] at same
  generalize blocks.map (rewriteBlock (aliasesOf blocks)) = output at noCopies stuck ⊢
  have swept : ((statements output).filterMap phiOf).foldl settle (⟨[]⟩, false) = (⟨[]⟩, false) :=
    List.foldlRecOn _ _ (motive := fun state : Aliases × Bool => state = (⟨[]⟩, false)) rfl
      fun state same phi member => by rw [same]; exact stuck phi member
  unfold aliasesOf
  simp only [noCopies, fixpoint, swept]

/-- Running the pass again changes nothing. -/
theorem propagateCopiesFunction_idem {f : FunctionData} (inSsa : InSsa f.blocks rank) :
    propagateCopiesFunction (propagateCopiesFunction f).1 = ((propagateCopiesFunction f).1, 0) := by
  have again : aliasesOf (propagateCopiesFunction f).1.blocks = ⟨[]⟩ := by
    rw [propagateCopiesFunction_eq]
    exact aliasesOf_rewritten inSsa
  rw [propagateCopiesFunction, again]
  rfl

end Pass

end CopyProp

end Ctadl.Ssa
