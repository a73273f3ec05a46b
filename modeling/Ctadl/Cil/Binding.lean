import Ctadl.Cil.Opcodes
import Ctadl.Cil.Running

/-! # Binding operands to stack variables

The operands of an instruction lie on the stack from some depth on, and its results go to the same depths. A result that
is written while the operand at its depth is still to be read goes to a temporary, which is copied to its depth last.
-/

namespace Ctadl.Cil

namespace InsEffects

variable (flow : InsEffects)

/-- The first temporary the effects do not use. -/
def nextTemp : ℕ :=
  (flow.effects.flatMap fun e => e.reads ++ e.writes).foldl
    (fun next s => match s with
      | .temp t => max next (t + 1)
      | _ => next) 0

/-- The effect copies an operand to the result at its depth. -/
def isIdentity (j : ℕ) (e : Effect Slot) : Bool := e = .assign (.output j) [.input j] .copy

/-- The result is written while the operand at its depth is still to be read. -/
def collides (j : ℕ) : Bool :=
  decide (j < flow.inputs.length) &&
    match flow.effects.findIdx? fun e => e.writes.contains (.output j) with
    | none => false
    | some k => (flow.effects.drop (k + 1)).any (fun e => e.reads.contains (.input j)) &&
        !flow.effects[k]?.any (isIdentity j)

/-- The variables of the results so far, the copies that come last and the next temporary. -/
structure Outs where
  next : ℕ
  vars : List Var := []
  copies : List (Effect Var) := []

/-- The variable of one more result. -/
def addOut (base : ℕ) (outs : Outs) (j : ℕ) : Outs :=
  if flow.collides j then
    { next := outs.next + 1
      vars := outs.vars ++ [.temp outs.next]
      copies := outs.copies ++ [.assign (.stack (base + j)) [.temp outs.next] .copy] }
  else { outs with vars := outs.vars ++ [.stack (base + j)] }

def outs (base : ℕ) : Outs := (List.range flow.outputs).foldl (flow.addOut base) { next := flow.nextTemp }

def bindSlot (base : ℕ) (caught : Option ℕ) : Slot → Var
  | .input i => .stack (base + i)
  | .output j => (flow.outs base).vars.getD j (.stack (base + j))
  | .arg n => .arg n
  | .loc n => .loc n
  | .temp t => .temp t
  | .thrown => .thrown
  | .caught => .caught (caught.getD 0xFFFF)

/-- The effects over variables, the variables of the operands and those of the results. -/
def bindEffects (base : ℕ) (caught : Option ℕ) : List (Effect Var) × List Var × List Var :=
  (flow.effects.map (Effect.map (flow.bindSlot base caught)) ++ (flow.outs base).copies,
    (List.range flow.inputs.length).map fun i => .stack (base + i),
    (List.range flow.outputs).map fun j => .stack (base + j))

section Outs

/-- The temporary of a result that collides. -/
def tempOf (j : ℕ) : ℕ := flow.nextTemp + ((List.range j).filter flow.collides).length

def outVar (base j : ℕ) : Var := if flow.collides j then .temp (flow.tempOf j) else .stack (base + j)

variable {flow} {base j j' : ℕ}

theorem foldl_addOut (n : ℕ) : (List.range n).foldl (flow.addOut base) { next := flow.nextTemp } =
    { next := flow.tempOf n
      vars := (List.range n).map (flow.outVar base)
      copies := ((List.range n).filter flow.collides).map fun j => .assign (.stack (base + j)) [flow.outVar base j] .copy } := by
  induction n with
  | zero => rfl
  | succ n ih =>
    rw [List.range_succ, List.foldl_append, ih, List.foldl_cons, List.foldl_nil, addOut]
    split_ifs with collides
    · simp [tempOf, outVar, collides, List.range_succ, Nat.add_assoc]
    · simp [tempOf, outVar, collides, List.range_succ]

theorem bindSlot_output (caught : Option ℕ) (bound : j < flow.outputs) :
    flow.bindSlot base caught (.output j) = flow.outVar base j := by
  rw [bindSlot, outs, foldl_addOut]
  simp [bound]

theorem tempOf_lt (collides : flow.collides j) (before : j < j') : flow.tempOf j < flow.tempOf j' := by
  have sub : (List.range (j + 1)).Sublist (List.range j') := List.range_sublist.mpr before
  have more := (sub.filter flow.collides).length_le
  rw [List.range_succ, List.filter_append, List.length_append, List.filter_cons_of_pos collides] at more
  simp only [List.filter_nil, List.length_cons, List.length_nil] at more
  unfold tempOf
  omega

/-- Different results have different variables. -/
theorem outVar_inj (same : flow.outVar base j = flow.outVar base j') : j = j' := by
  unfold outVar at same
  split_ifs at same with collides collides'
  · have temps : flow.tempOf j = flow.tempOf j' := Var.temp.inj same
    rcases Nat.lt_trichotomy j j' with before | rfl | after
    · exact absurd temps (tempOf_lt collides before).ne
    · rfl
    · exact absurd temps (tempOf_lt collides' after).ne'
  · have depths := Var.stack.inj same
    omega

/-- A result lies at its depth or in a temporary that the effects do not use. -/
theorem outVar_cases : flow.outVar base j = .stack (base + j) ∧ flow.collides j = false ∨
    ∃ t, flow.outVar base j = .temp t ∧ flow.nextTemp ≤ t := by
  unfold outVar
  split_ifs with collides
  · exact .inr ⟨_, rfl, Nat.le_add_right _ _⟩
  · exact .inl ⟨rfl, by simpa using collides⟩

end Outs

/-- The slots of the record are used as positions: an operand is only read, a result is written once and read only
after that. -/
structure WellPlaced : Prop where
  read : ∀ e ∈ flow.effects, ∀ i, .input i ∈ e.reads → i < flow.inputs.length
  input : ∀ e ∈ flow.effects, ∀ i, .input i ∉ e.writes
  caught : ∀ e ∈ flow.effects, .caught ∉ e.writes
  output : ∀ e ∈ flow.effects, ∀ j, .output j ∈ e.writes → j < flow.outputs
  once : ∀ done e rest, flow.effects = done ++ e :: rest → ∀ j, .output j ∈ e.writes → ∀ e' ∈ done, .output j ∉ e'.writes
  before : ∀ done e rest, flow.effects = done ++ e :: rest → ∀ j, .output j ∈ e.reads → ∃ e' ∈ done, .output j ∈ e'.writes
  pushed : ∀ j < flow.outputs, ∃ e ∈ flow.effects, .output j ∈ e.writes

section Checking

/-- A slot may be read once the results in `written` have been. -/
def readable (inputs : ℕ) (written : List ℕ) : Slot → Bool
  | .input i => i < inputs
  | .output j => written.contains j
  | _ => true

def writable (outputs : ℕ) (written : List ℕ) : Slot → Bool
  | .input _ | .caught => false
  | .output j => j < outputs && !written.contains j
  | _ => true

def resultsOf (e : Effect Slot) : List ℕ :=
  e.writes.filterMap fun s => match s with
    | .output j => some j
    | _ => none

/-- Decides `WellPlaced`, the results in `written` having been written before. -/
def checkPlaces (inputs outputs : ℕ) : List ℕ → List (Effect Slot) → Bool
  | written, [] => (List.range outputs).all written.contains
  | written, e :: rest =>
    e.reads.all (readable inputs written) && e.writes.all (writable outputs written) &&
      checkPlaces inputs outputs (written ++ resultsOf e) rest

variable {inputs outputs : ℕ} {written : List ℕ} {effects : List (Effect Slot)}

theorem mem_resultsOf {e : Effect Slot} {j : ℕ} : j ∈ resultsOf e ↔ .output j ∈ e.writes := by
  rw [resultsOf, List.mem_filterMap]
  constructor
  · rintro ⟨s, inside, same⟩
    cases s with
    | output j' => exact Option.some.inj same ▸ inside
    | _ => exact nomatch same
  · exact fun inside => ⟨_, inside, rfl⟩

theorem checkPlaces_split {done rest : List (Effect Slot)} {e : Effect Slot}
    (checked : checkPlaces inputs outputs written (done ++ e :: rest)) :
    e.reads.all (readable inputs (written ++ done.flatMap resultsOf)) ∧
      e.writes.all (writable outputs (written ++ done.flatMap resultsOf)) := by
  induction done generalizing written with
  | nil =>
    rw [List.nil_append, checkPlaces, Bool.and_eq_true, Bool.and_eq_true] at checked
    rw [List.flatMap_nil, List.append_nil]
    exact checked.1
  | cons e' done ih =>
    rw [List.cons_append, checkPlaces, Bool.and_eq_true] at checked
    rw [List.flatMap_cons, ← List.append_assoc]
    exact ih checked.2

theorem checkPlaces_pushed (checked : checkPlaces inputs outputs written effects) {j : ℕ} (pushed : j < outputs) :
    j ∈ written ∨ ∃ e ∈ effects, .output j ∈ e.writes := by
  induction effects generalizing written with
  | nil =>
    rw [checkPlaces, List.all_eq_true] at checked
    exact .inl (by simpa using checked j (List.mem_range.mpr pushed))
  | cons e effects ih =>
    rw [checkPlaces, Bool.and_eq_true] at checked
    rcases ih checked.2 with inside | ⟨e', inside, writes⟩
    · rcases List.mem_append.mp inside with before | here
      · exact .inl before
      · exact .inr ⟨e, List.mem_cons_self, mem_resultsOf.mp here⟩
    · exact .inr ⟨e', List.mem_cons_of_mem _ inside, writes⟩

variable {flow} in
theorem wellPlaced_of_check (checked : checkPlaces flow.inputs.length flow.outputs [] flow.effects) : flow.WellPlaced := by
  have splits : ∀ e ∈ flow.effects, ∃ done rest, flow.effects = done ++ e :: rest := fun e inside => List.append_of_mem inside
  have places : ∀ done e rest, flow.effects = done ++ e :: rest →
      (∀ s ∈ e.reads, readable flow.inputs.length (done.flatMap resultsOf) s) ∧
        ∀ s ∈ e.writes, writable flow.outputs (done.flatMap resultsOf) s := by
    intro done e rest split
    have both := checkPlaces_split (split ▸ checked)
    rw [List.nil_append, List.all_eq_true, List.all_eq_true] at both
    exact both
  constructor
  · intro e inside i reads
    obtain ⟨done, rest, split⟩ := splits e inside
    simpa [readable] using (places done e rest split).1 _ reads
  · intro e inside i writes
    obtain ⟨done, rest, split⟩ := splits e inside
    exact nomatch (places done e rest split).2 _ writes
  · intro e inside writes
    obtain ⟨done, rest, split⟩ := splits e inside
    exact nomatch (places done e rest split).2 _ writes
  · intro e inside j writes
    obtain ⟨done, rest, split⟩ := splits e inside
    have fits := (places done e rest split).2 _ writes
    simp only [writable, Bool.and_eq_true, decide_eq_true_eq] at fits
    exact fits.1
  · intro done e rest split j writes e' earlier again
    have fresh := (places done e rest split).2 _ writes
    simp only [writable, Bool.and_eq_true, Bool.not_eq_true', List.contains_eq_mem, decide_eq_false_iff_not] at fresh
    exact fresh.2 (List.mem_flatMap.mpr ⟨e', earlier, mem_resultsOf.mpr again⟩)
  · intro done e rest split j reads
    have earlier := (places done e rest split).1 _ reads
    simp only [readable, List.contains_eq_mem, decide_eq_true_eq] at earlier
    obtain ⟨e', inside, writes⟩ := List.mem_flatMap.mp earlier
    exact ⟨e', inside, mem_resultsOf.mp writes⟩
  · intro j pushed
    exact (checkPlaces_pushed checked pushed).resolve_left List.not_mem_nil

end Checking

/-- The slots whose values are still to be used, between the effects that were run and the ones to come. -/
def Wanted (done rest : List (Effect Slot)) : Slot → Prop
  | .input i => ∃ e ∈ rest, .input i ∈ e.reads
  | .output j => ∃ e ∈ done, .output j ∈ e.writes
  | .temp t => t < flow.nextTemp
  | _ => True

section Simulation

variable {flow} {base : ℕ} {caught : Option ℕ} {done rest : List (Effect Slot)} {e : Effect Slot}

theorem lt_nextTemp {t : ℕ} (inside : e ∈ flow.effects) (used : .temp t ∈ e.reads ++ e.writes) : t < flow.nextTemp := by
  have member : .temp t ∈ flow.effects.flatMap fun e => e.reads ++ e.writes := List.mem_flatMap.mpr ⟨e, inside, used⟩
  have rule : ∀ (slots : List Slot) (next : ℕ), next ≤ slots.foldl (fun next s => match s with
        | .temp t => max next (t + 1)
        | _ => next) next ∧
      (.temp t ∈ slots → t < slots.foldl (fun next s => match s with
        | .temp t => max next (t + 1)
        | _ => next) next) := by
    intro slots
    induction slots with
    | nil => exact fun next => ⟨le_rfl, nofun⟩
    | cons s slots ih =>
      intro next
      rw [List.foldl_cons]
      refine ⟨le_trans ?_ (ih _).1, fun member => ?_⟩
      · split <;> omega
      · rcases List.mem_cons.mp member with rfl | later
        · exact lt_of_lt_of_le (by dsimp only; omega) (ih _).1
        · exact (ih _).2 later
  exact (rule _ 0).2 member

theorem home_bindSlot (s : Slot) : FrameSlot.home (flow.bindSlot base caught s) = FrameSlot.home s := by
  cases s with
  | output j =>
    rw [bindSlot, outs, foldl_addOut, List.getD_eq_getElem?_getD, List.getElem?_map]
    cases (List.range flow.outputs)[j]? with
    | none => rfl
    | some j' =>
      simp only [Option.map_some, Option.getD_some, outVar]
      split_ifs <;> rfl
  | _ => rfl

/-- An operand read behind the first write of the result at its depth makes that result collide. -/
theorem collides_of {j : ℕ} (split : flow.effects = done ++ e :: rest) (first : ∀ e' ∈ done, .output j ∉ e'.writes)
    (written : .output j ∈ e.writes) (later : ∃ e' ∈ rest, .input j ∈ e'.reads) (operand : j < flow.inputs.length)
    (other : isIdentity j e = false) : flow.collides j = true := by
  have found : flow.effects.findIdx? (fun e => e.writes.contains (.output j)) = some done.length := by
    rw [split, List.findIdx?_append, List.findIdx?_eq_none_iff.mpr (by simpa using first), Option.none_or,
      List.findIdx?_cons, if_pos (by simpa using written), Option.map_some, Nat.zero_add]
  obtain ⟨e', inside, reads⟩ := later
  have behind : (flow.effects.drop (done.length + 1)).any (fun e => e.reads.contains (.input j)) = true := by
    rw [split, List.drop_append, List.any_eq_true]
    refine ⟨e', List.mem_append_right _ ?_, by simpa using reads⟩
    rw [Nat.add_sub_cancel_left]
    exact inside
  have here : flow.effects[done.length]? = some e := by
    rw [split]
    simp
  rw [collides, found]
  simp only [behind, here, Option.any_some, other, Bool.not_false, Bool.and_true, decide_eq_true_eq]
  exact operand

variable {Value World : Type} {sem : Semantics Value World} {st : State Slot Value World} {st' : State Var Value World}

/-- A copy of an operand to the depth it lies at changes nothing there. -/
theorem step_identity (d : ℕ) : sem.step st' (.assign (.stack d) [.stack d] .copy) = st' := by
  rw [sem.step_copy rfl rfl, Function.update_eq_self]

theorem bindSlot_input (i : ℕ) : flow.bindSlot base caught (.input i) = .stack (base + i) := rfl

/-- A slot that is still wanted does not share its variable with one that is written. -/
theorem WellPlaced.apart (placed : flow.WellPlaced) (split : flow.effects = done ++ e :: rest)
    (general : ¬ ∃ j, e = .assign (.output j) [.input j] .copy ∧ flow.collides j = false) {s s' : Slot}
    (wanted : flow.Wanted (done ++ [e]) rest s') (written : s ∈ e.writes) (other : s' ≠ s) :
    flow.bindSlot base caught s' ≠ flow.bindSlot base caught s := by
  have inside : e ∈ flow.effects := split ▸ List.mem_append_right _ List.mem_cons_self
  have used : ∀ j, flow.Wanted (done ++ [e]) rest (.output j) → j < flow.outputs := by
    rintro j ⟨e', earlier, writes⟩
    refine placed.output e' ?_ j writes
    rw [split]
    rcases List.mem_append.mp earlier with earlier | this
    · exact List.mem_append_left _ earlier
    · exact List.mem_append_right _ (List.mem_singleton.mp this ▸ List.mem_cons_self)
  cases s with
  | input i => exact absurd written (placed.input e inside i)
  | caught => exact absurd written (placed.caught e inside)
  | output j =>
    rw [bindSlot_output caught (placed.output e inside j written)]
    rcases outVar_cases with ⟨depth, free⟩ | ⟨t, temp, fresh⟩
    · rw [depth]
      cases s' with
      | input i =>
        intro same
        obtain rfl : i = j := by
          have depths := Var.stack.inj same
          omega
        obtain ⟨e', later, reads⟩ := wanted
        have operand : i < flow.inputs.length :=
          placed.read e' (split ▸ List.mem_append_right _ (List.mem_cons_of_mem _ later)) i reads
        have notIdentity : isIdentity i e = false := by
          simp only [isIdentity, decide_eq_false_iff_not]
          exact fun same => general ⟨i, same, free⟩
        have first : ∀ e' ∈ done, .output i ∉ e'.writes := placed.once done e rest split i written
        have collides := collides_of split first written ⟨e', later, reads⟩ operand notIdentity
        exact absurd (free.symm.trans collides) nofun
      | output j' =>
        rw [bindSlot_output caught (used j' wanted), ← depth]
        exact fun same => other (congrArg Slot.output (outVar_inj same))
      | _ => exact nofun
    · cases s' with
      | output j' =>
        rw [bindSlot_output caught (used j' wanted)]
        exact fun same => other (congrArg Slot.output (outVar_inj same))
      | temp t' =>
        rw [temp]
        intro same
        have bound : t' < flow.nextTemp := wanted
        have temps := Var.temp.inj same
        omega
      | _ =>
        rw [temp]
        exact nofun
  | temp t =>
    have bound : t < flow.nextTemp := lt_nextTemp inside (List.mem_append_right _ written)
    cases s' with
    | output j' =>
      rw [bindSlot_output caught (used j' wanted)]
      rcases @outVar_cases flow base j' with ⟨depth, -⟩ | ⟨t', temp, fresh⟩
      · rw [depth]
        exact nofun
      · rw [temp]
        intro same
        have temps := Var.temp.inj same
        omega
    | temp t' => exact fun same => other (congrArg Slot.temp (Var.temp.inj same))
    | _ => exact nofun
  | _ =>
    cases s' with
    | output j' =>
      rw [bindSlot_output caught (used j' wanted)]
      rcases @outVar_cases flow base j' with ⟨depth, -⟩ | ⟨t', temp, -⟩
      · rw [depth]
        exact nofun
      · rw [temp]
        exact nofun
    | _ =>
      intro same
      first
        | exact other rfl
        | simp only [bindSlot, Var.arg.injEq, Var.loc.injEq, reduceCtorEq] at same
          exact other (by rw [same])
        | simp only [bindSlot, reduceCtorEq] at same

/-- What one effect leaves is what its bound form leaves, for every slot that is still wanted. -/
theorem WellPlaced.step (placed : flow.WellPlaced) (split : flow.effects = done ++ e :: rest)
    (renamed : Renamed (flow.bindSlot base caught) (flow.Wanted done (e :: rest)) st st') :
    Renamed (flow.bindSlot base caught) (flow.Wanted (done ++ [e]) rest) (sem.step st e)
      (sem.step st' (e.map (flow.bindSlot base caught))) := by
  have inside : e ∈ flow.effects := split ▸ List.mem_append_right _ List.mem_cons_self
  have kept : ∀ s, flow.Wanted (done ++ [e]) rest s → s ∉ e.writes → flow.Wanted done (e :: rest) s := by
    intro s wanted unwritten
    cases s with
    | input i =>
      obtain ⟨e', later, reads⟩ := wanted
      exact ⟨e', List.mem_cons_of_mem _ later, reads⟩
    | output j =>
      obtain ⟨e', earlier, writes⟩ := wanted
      rcases List.mem_append.mp earlier with earlier | this
      · exact ⟨e', earlier, writes⟩
      · obtain rfl := List.mem_singleton.mp this
        exact absurd writes unwritten
    | temp t => exact wanted
    | arg n => trivial
    | loc n => trivial
    | thrown => trivial
    | caught => trivial
  rcases Classical.em (∃ j, e = .assign (.output j) [.input j] .copy ∧ flow.collides j = false) with ⟨j, rfl, free⟩ | general
  · have bound : j < flow.outputs := placed.output _ inside j List.mem_cons_self
    have depth : flow.bindSlot base caught (.output j) = .stack (base + j) := by
      rw [bindSlot_output caught bound, outVar, if_neg (by simp [free])]
    have operand : flow.Wanted done (.assign (.output j) [.input j] .copy :: rest) (.input j) :=
      ⟨_, List.mem_cons_self, List.mem_cons_self⟩
    rw [sem.step_copy rfl rfl, Effect.map, List.map_singleton, depth, bindSlot_input, step_identity]
    refine ⟨renamed.world, fun s wanted => ?_⟩
    dsimp only
    rcases eq_or_ne s (.output j) with rfl | other
    · rw [depth, Function.update_self]
      exact renamed.cells (.input j) operand
    · rw [Function.update_of_ne other]
      exact renamed.cells s (kept s wanted (by simpa [Effect.writes] using other))
  · apply renamed.step home_bindSlot
    · intro s reads
      cases s with
      | input i => exact ⟨e, List.mem_cons_self, reads⟩
      | output j => exact placed.before done e rest split j reads
      | temp t => exact lt_nextTemp inside (List.mem_append_left _ reads)
      | arg n => trivial
      | loc n => trivial
      | thrown => trivial
      | caught => trivial
    · exact kept
    · intro s v home _
      cases s with
      | arg n => trivial
      | loc n => trivial
      | input i => cases home
      | output j => cases home
      | temp t => cases home
      | thrown => trivial
      | caught => trivial
    · intro s' wanted s written other
      exact placed.apart split general wanted written other

/-- The whole record. -/
theorem WellPlaced.run (placed : flow.WellPlaced) (split : flow.effects = done ++ rest)
    (renamed : Renamed (flow.bindSlot base caught) (flow.Wanted done rest) st st') :
    Renamed (flow.bindSlot base caught) (flow.Wanted flow.effects []) (sem.run st rest)
      (sem.run st' (rest.map (Effect.map (flow.bindSlot base caught)))) := by
  induction rest generalizing done st st' with
  | nil =>
    rw [List.append_nil] at split
    rw [split]
    exact renamed
  | cons e rest ih =>
    exact ih (split.trans (List.append_cons done e rest)) (placed.step split renamed)

/-- The last copies bring every result that went to a temporary to its depth. -/
theorem run_copies {js : List ℕ} (temps : ∀ j ∈ js, flow.collides j = true) (st' : State Var Value World) :
    (sem.run st' (js.map fun j => .assign (.stack (base + j)) [flow.outVar base j] .copy)).world = st'.world ∧
      (∀ j ∈ js, (sem.run st' (js.map fun j => .assign (.stack (base + j)) [flow.outVar base j] .copy)).cells
        (.stack (base + j)) = st'.cells (flow.outVar base j)) ∧
      ∀ v, (∀ j ∈ js, v ≠ .stack (base + j)) →
        (sem.run st' (js.map fun j => .assign (.stack (base + j)) [flow.outVar base j] .copy)).cells v = st'.cells v := by
  induction js generalizing st' with
  | nil => exact ⟨rfl, nofun, fun _ _ => rfl⟩
  | cons j js ih =>
    have temp : ∀ j ∈ js, flow.collides j = true := fun j' later => temps j' (List.mem_cons_of_mem _ later)
    have source : ∀ j', flow.collides j' = true → ∃ t, flow.outVar base j' = .temp t := by
      intro j' collides
      exact ⟨flow.tempOf j', if_pos collides⟩
    obtain ⟨t, isTemp⟩ := source j (temps j List.mem_cons_self)
    have first : sem.step st' (.assign (.stack (base + j)) [flow.outVar base j] .copy) =
        ⟨Function.update st'.cells (.stack (base + j)) (st'.cells (flow.outVar base j)), st'.world⟩ :=
      sem.step_copy rfl (by rw [isTemp]; rfl)
    rw [List.map_cons, Semantics.run, List.foldl_cons, first]
    obtain ⟨world, copied, others⟩ := ih temp
      ⟨Function.update st'.cells (.stack (base + j)) (st'.cells (flow.outVar base j)), st'.world⟩
    refine ⟨world, fun j' inside => ?_, fun v apart => ?_⟩
    · rcases Classical.em (j' ∈ js) with later | last
      · obtain ⟨t', isTemp'⟩ := source j' (temp j' later)
        refine (copied j' later).trans (Function.update_of_ne ?_ _ _)
        rw [isTemp']
        exact (Var.noConfusion ·)
      · obtain rfl : j' = j := (List.mem_cons.mp inside).resolve_right last
        refine (others (.stack (base + j')) fun j'' later same => ?_).trans (Function.update_self _ _ _)
        have depths := Var.stack.inj same
        obtain rfl : j' = j'' := by omega
        exact last later
    · refine (others v fun j' later => apart j' (List.mem_cons_of_mem _ later)).trans ?_
      exact Function.update_of_ne (apart j List.mem_cons_self) _ _

end Simulation

/-- The operands of the instruction by position: what lies on the stack from `base` on. -/
def operands {Value World : Type} (base : ℕ) (caught : Option ℕ) (vars : State Var Value World) : State Slot Value World where
  cells s := vars.cells (match s with
    | .input i => .stack (base + i)
    | .output j => .stack (base + j)
    | .arg n => .arg n
    | .loc n => .loc n
    | .temp t => .temp t
    | .thrown => .thrown
    | .caught => .caught (caught.getD 0xFFFF))
  world := vars.world

/-- The bound effects do to the stack what the instruction does by position: its operands stay what they were before it
as long as it runs, its results end at their depths, and what lies below is not touched. -/
structure OnStack (base : ℕ) (caught : Option ℕ) : Prop where
  kept : ∀ {Value World : Type} (sem : Semantics Value World) (vars : State Var Value World) (done rest : List (Effect Slot)),
    flow.effects = done ++ rest → ∀ i,
    (sem.run (operands base caught vars) done).cells (.input i) = vars.cells (.stack (base + i))
  world : ∀ {Value World : Type} (sem : Semantics Value World) (vars : State Var Value World),
    (sem.run vars (flow.bindEffects base caught).1).world = (sem.run (operands base caught vars) flow.effects).world
  results : ∀ {Value World : Type} (sem : Semantics Value World) (vars : State Var Value World), ∀ j < flow.outputs,
    (sem.run vars (flow.bindEffects base caught).1).cells (.stack (base + j)) =
      (sem.run (operands base caught vars) flow.effects).cells (.output j)
  below : ∀ {Value World : Type} (sem : Semantics Value World) (vars : State Var Value World), ∀ d < base,
    (sem.run vars (flow.bindEffects base caught).1).cells (.stack d) = vars.cells (.stack d)

variable {flow} in
theorem WellPlaced.onStack (placed : flow.WellPlaced) (base : ℕ) (caught : Option ℕ) : flow.OnStack base caught := by
  have ran : ∀ {Value World : Type} (sem : Semantics Value World) (vars : State Var Value World),
      Renamed (flow.bindSlot base caught) (flow.Wanted flow.effects []) (sem.run (operands base caught vars) flow.effects)
        (sem.run vars (flow.effects.map (Effect.map (flow.bindSlot base caught)))) := by
    intro Value World sem vars
    refine placed.run (List.nil_append flow.effects).symm ⟨rfl, fun s wanted => ?_⟩
    cases s with
    | output j =>
      obtain ⟨e, inside, -⟩ := wanted
      exact nomatch inside
    | _ => rfl
  have bound : ∀ {Value World : Type} (sem : Semantics Value World) (vars : State Var Value World),
      sem.run vars (flow.bindEffects base caught).1 =
        sem.run (sem.run vars (flow.effects.map (Effect.map (flow.bindSlot base caught))))
          (((List.range flow.outputs).filter flow.collides).map fun j => .assign (.stack (base + j)) [flow.outVar base j] .copy) := by
    intro Value World sem vars
    rw [bindEffects, outs, foldl_addOut]
    exact List.foldl_append
  have colliding : ∀ j ∈ (List.range flow.outputs).filter flow.collides, flow.collides j = true :=
    fun j inside => (List.mem_filter.mp inside).2
  constructor
  · intro Value World sem vars done rest split i
    exact sem.run_cells fun e earlier => placed.input e (split ▸ List.mem_append_left _ earlier) i
  · intro Value World sem vars
    rw [bound, (run_copies colliding _).1, (ran sem vars).world]
  · intro Value World sem vars j pushed
    have positions := (ran sem vars).cells (.output j) (placed.pushed j pushed)
    rw [bindSlot_output caught pushed] at positions
    rw [bound, ← positions]
    rcases Bool.eq_false_or_eq_true (flow.collides j) with collides | free
    · exact (run_copies colliding _).2.1 j (List.mem_filter.mpr ⟨List.mem_range.mpr pushed, collides⟩)
    · rw [outVar, if_neg (by simp [free])]
      refine (run_copies colliding _).2.2 _ fun j' inside same => ?_
      have depths := Var.stack.inj same
      obtain rfl : j = j' := by omega
      exact absurd (free.symm.trans (colliding j inside)) nofun
  · intro Value World sem vars d below
    rw [bound, (run_copies colliding _).2.2 _ fun j' inside same => ?_]
    · refine sem.run_cells fun e inside written => ?_
      obtain ⟨e', inside', rfl⟩ := List.mem_map.mp inside
      rw [Effect.writes_map] at written
      obtain ⟨s, writes, same⟩ := List.mem_map.mp written
      cases s with
      | input i => exact placed.input e' inside' i writes
      | output j =>
        rw [bindSlot_output caught (placed.output e' inside' j writes)] at same
        rcases @outVar_cases flow base j with ⟨depth, -⟩ | ⟨t, temp, -⟩
        · have depths := Var.stack.inj (depth.symm.trans same)
          omega
        · exact nomatch temp.symm.trans same
      | _ => exact nomatch same
    · have depths := Var.stack.inj same
      omega

end InsEffects

end Ctadl.Cil
