import Ctadl.Jvm.Meaning

/-! # The slots of an instruction

What the simulation of a block makes of the data flow of an instruction: depths become slots, and outputs the slots
above what stays on the stack.
-/

namespace Ctadl.Jvm

namespace FlowLocation

/-- A location on a stack of some height. -/
def slotted (stackLen : ℕ) : FlowLocation → FlowLocation
  | stackInput depth => stackSlot (stackLen - 1 - depth)
  | arrayElement base offset => arrayElement (base.slotted stackLen) (offset.slotted stackLen)
  | loc => loc

end FlowLocation

variable {context : InstructionContext} {stackLen : ℕ}

theorem rewriteLocation_eq {loc loc' : FlowLocation}
    (rewritten : rewriteLocationStackInputs context stackLen loc = .ok loc') : loc' = loc.slotted stackLen := by
  induction loc generalizing loc' with
  | stackInput depth =>
    simp only [rewriteLocationStackInputs] at rewritten
    split_ifs at rewritten with under
    exact (Except.ok.inj rewritten).symm
  | arrayElement base offset ihBase ihOffset =>
    simp only [rewriteLocationStackInputs] at rewritten
    obtain ⟨base', baseOk, rewritten⟩ := Collections.bind_eq_ok.mp rewritten
    obtain ⟨offset', offsetOk, rewritten⟩ := Collections.bind_eq_ok.mp rewritten
    rw [← Except.ok.inj rewritten, ihBase baseOk, ihOffset offsetOk]
    rfl
  | register slot => exact (Except.ok.inj rewritten).symm
  | parameter ordinal => exact (Except.ok.inj rewritten).symm
  | constant value => exact (Except.ok.inj rewritten).symm
  | stackSlot id => exact (Except.ok.inj rewritten).symm
  | stackOutput => exact (Except.ok.inj rewritten).symm
  | fieldRef field => exact (Except.ok.inj rewritten).symm
  | allocation cls => exact (Except.ok.inj rewritten).symm

/-- A traversal that acts like a function where it succeeds. -/
theorem mapM_eq_map {α β : Type} {f : α → ClassFileResult β} {g : α → β} (acts : ∀ a b, f a = .ok b → b = g a)
    {as : List α} {bs : List β} (traversed : as.mapM f = .ok bs) : bs = as.map g := by
  induction as generalizing bs with
  | nil => exact (Except.ok.inj traversed).symm
  | cons a as ih =>
    rw [List.mapM_cons] at traversed
    obtain ⟨b, first, traversed⟩ := Collections.bind_eq_ok.mp traversed
    obtain ⟨bs', rest, traversed⟩ := Collections.bind_eq_ok.mp traversed
    rw [← Except.ok.inj traversed, acts a b first, ih rest]
    rfl

def DataflowInfo.slotted (stackLen : ℕ) (df : DataflowInfo) : DataflowInfo :=
  ⟨df.sources.map (·.slotted stackLen), df.destination.slotted stackLen⟩

theorem rewriteDataflow_eq {df df' : DataflowInfo} (rewritten : rewriteDataflow context stackLen df = .ok df') :
    df' = df.slotted stackLen := by
  obtain ⟨sources, sourcesOk, rewritten⟩ := Collections.bind_eq_ok.mp rewritten
  obtain ⟨destination, destinationOk, rewritten⟩ := Collections.bind_eq_ok.mp rewritten
  rw [← Except.ok.inj rewritten, mapM_eq_map (fun _ _ => rewriteLocation_eq) sourcesOk,
    rewriteLocation_eq destinationOk]
  rfl

/-- Everything the simulation of an instruction says. -/
theorem simulateDataflow_eq {inst : InstructionFlowInfo} {dfs : List DataflowInfo}
    (simulates : simulateDataflow context stackLen inst = .ok dfs) :
    inst.consume ≤ stackLen ∧
      dfs = numberOutputs (stackLen - inst.consume) (inst.dataflow.map (·.slotted stackLen)) := by
  obtain ⟨dataflow, rewritten, simulates⟩ := Collections.bind_eq_ok.mp simulates
  split_ifs at simulates with under
  rw [← Except.ok.inj simulates, mapM_eq_map (fun _ _ => rewriteDataflow_eq) rewritten]
  exact ⟨by omega, rfl⟩

/-! ## Shapes of data flow -/

/-- How many operands some sources need on the stack. -/
def sourcesDepth (sources : List FlowLocation) : ℕ := (sources.map FlowLocation.depth).foldl max 0

theorem foldl_max_eq (l : List ℕ) (a : ℕ) : l.foldl max a = max a (l.foldl max 0) := by
  induction l generalizing a with
  | nil => simp
  | cons b l ih =>
    rw [List.foldl_cons, List.foldl_cons, ih (max a b), ih (max 0 b)]
    omega

@[simp] theorem sourcesDepth_stackInputs (count : ℕ) : sourcesDepth (stackInputs count) = count := by
  induction count with
  | zero => rfl
  | succ count ih =>
    rw [sourcesDepth, stackInputs, List.range_succ, List.map_append, List.map_append, List.foldl_append]
    rw [sourcesDepth, stackInputs] at ih
    rw [ih]
    simp [FlowLocation.depth]

/-- An entry with a destination of its own. -/
theorem simulate_single {kind : InstructionKind} {opcode : ℕ} {sources : List FlowLocation}
    {destination : FlowLocation} {dfs : List DataflowInfo} (placed : destination.slotted stackLen ≠ .stackOutput)
    (simulates : simulateDataflow context stackLen ⟨kind, opcode, [⟨sources, destination⟩]⟩ = .ok dfs) :
    max (sourcesDepth sources) destination.depth ≤ stackLen ∧
      dfs = [⟨sources.map (·.slotted stackLen), destination.slotted stackLen⟩] := by
  obtain ⟨enough, same⟩ := simulateDataflow_eq simulates
  refine ⟨enough, ?_⟩
  rw [same, List.map_singleton, DataflowInfo.slotted, numberOutputs, if_neg placed]
  rfl

theorem consume_outputs {kind : InstructionKind} {opcode width : ℕ} {sources : List FlowLocation}
    (some_output : width = 1 ∨ width = 2) :
    InstructionFlowInfo.consume ⟨kind, opcode, splitDataflowInfos (sources, stackOutputs width)⟩ =
      sourcesDepth sources := by
  rcases some_output with rfl | rfl
  · exact Nat.max_zero _
  · have again : max ((sources.map FlowLocation.depth).foldl max (max (sourcesDepth sources) 0)) 0 =
        sourcesDepth sources := by
      rw [Nat.max_zero, Nat.max_zero, foldl_max_eq]
      exact Nat.max_self _
    exact again

/-- Entries with the same sources whose destinations are outputs. -/
theorem simulate_outputs {kind : InstructionKind} {opcode width : ℕ} {sources : List FlowLocation}
    {dfs : List DataflowInfo} (some_output : width = 1 ∨ width = 2)
    (simulates : simulateDataflow context stackLen
      ⟨kind, opcode, splitDataflowInfos (sources, stackOutputs width)⟩ = .ok dfs) :
    dfs = (List.range width).map fun i =>
      ⟨sources.map (·.slotted stackLen), .stackSlot (stackLen - sourcesDepth sources + i)⟩ := by
  obtain ⟨-, same⟩ := simulateDataflow_eq simulates
  rw [same, consume_outputs some_output]
  rcases some_output with rfl | rfl <;> rfl

/-- The entries of a shuffle. -/
theorem simulate_shuffle {kind : InstructionKind} {opcode : ℕ} {depths : List ℕ} {dfs : List DataflowInfo}
    (simulates : simulateDataflow context stackLen ⟨kind, opcode, stackShuffleDataflow depths⟩ = .ok dfs) :
    dfs = depths.zipIdx.map fun (depth, i) =>
      ⟨[.stackSlot (stackLen - 1 - depth)],
        .stackSlot (stackLen - InstructionFlowInfo.consume ⟨kind, opcode, stackShuffleDataflow depths⟩ + i)⟩ := by
  obtain ⟨-, same⟩ := simulateDataflow_eq simulates
  rw [same]
  generalize stackLen - InstructionFlowInfo.consume ⟨kind, opcode, stackShuffleDataflow depths⟩ = next
  have numbered : ∀ k, numberOutputs (next + k) ((stackShuffleDataflow depths).map (·.slotted stackLen)) =
      (depths.zipIdx k).map fun (depth, i) => ⟨[.stackSlot (stackLen - 1 - depth)], .stackSlot (next + i)⟩ := by
    clear same simulates
    induction depths with
    | nil => exact fun _ => rfl
    | cons depth depths ih =>
      intro k
      rw [List.zipIdx_cons, List.map_cons, ← ih (k + 1)]
      rfl
  exact numbered 0

end Ctadl.Jvm
