import Ctadl.Cil.StackKinds
import Ctadl.Graph.Dataflow

/-! # The stack on entry to each block

The stack a block starts with is met over what its predecessors end with, by a worklist from the first block and the
handlers. A handler starts with a stack of its own. A block that nothing reaches starts with an empty stack, and what it
ends with counts for its successors like that of any other.
-/

namespace Ctadl.Cil

open Graph Dataflow

open List (Forall₂)

/-- Whether the handler, or the filter, starts with the exception on the stack. -/
def Handler.receivesException (h : Handler) : Bool := h.kind = .onCatch || h.kind = .onFilter

/-- The records, clauses and blocks of a method. The successors of a block are blocks. -/
structure Body extends KindCx where
  records : List InsEffects
  handlers : List Handler
  blocks : List Block
  inside : ∀ block ∈ blocks, ∀ s ∈ block.succs, s < blocks.length

namespace Body

variable (m : Body)

def recordsOf (block : Block) : List InsEffects :=
  let first := partitionPoint (fun r : InsEffects => r.offset < block.start) m.records
  let stop := partitionPoint (fun r : InsEffects => r.offset < block.stop) m.records
  (m.records.take stop).drop first

/-- Whether an instruction empties the stack. -/
def empties : Control → Bool
  | .leave _ | .endFinally | .endFilter => true
  | _ => false

/-- The stack behind an instruction. Heights are 16 bits wide. -/
def execute (state : List StackKind) (flow : InsEffects) : List StackKind :=
  let height := state.length % 0x10000
  let pops := flow.inputs.length % 0x10000
  let base := height - pops
  let inputKinds := (List.range pops).map fun i => state.getD (base + i) .unknown
  let pushed := state.take base ++ m.outKinds flow inputKinds
  if empties flow.control then [] else pushed

/-- The stack a block ends with, given the one it starts with. -/
def runBlock (block : Block) (state : Stack) : Stack := (m.recordsOf block).foldl m.execute state

/-- The fixed stack of a block where a clause starts. -/
def handlerEntryState (block : Block) : Option Stack :=
  block.handlerEntry.map fun h => if m.handlers[h]?.any Handler.receivesException then .caught else .empty

/-- The successors of a block that take their stack from it: a handler has its own, whatever leads to it. -/
def targets (block : Block) : List ℕ := block.succs.filter fun s => (m.blocks[s]?.bind Block.handlerEntry).isNone

/-- What the worklist solves. -/
def problem : Problem Stack where
  size := m.blocks.length
  succs b := m.blocks[b]?.elim [] m.targets
  bounded b s target := by
    cases found : m.blocks[b]? with
    | none =>
      rw [found] at target
      exact nomatch target
    | some block =>
      rw [found] at target
      exact m.inside block (List.mem_of_getElem? found) s (List.mem_filter.mp target).1
  transfer b state := m.blocks[b]?.elim state fun block => m.runBlock block state

/-- Gives a block its first stack, unless it has one. -/
def seed (st : Dataflow.State Stack) (b : ℕ) (s : Stack) : Dataflow.State Stack :=
  if (st.entry b).isNone then Problem.start s st b else st

/-- The first block and the handlers wait. -/
def seeded : Dataflow.State Stack :=
  let empty : Dataflow.State Stack := ⟨fun _ => none, []⟩
  let first := if m.blocks.isEmpty then empty else seed empty 0 .empty
  m.blocks.zipIdx.foldl (fun st block => (m.handlerEntryState block.1).elim st (seed st block.2)) first

/-- The entry stacks of the blocks. -/
def simulate : List Stack :=
  let final := m.problem.settle .empty 0 m.seeded
  (List.range m.blocks.length).map fun b => (final.entry b).getD .empty

variable {m} {block : Block} {b c : ℕ}

section Monotone

variable {s t : List StackKind}

/-- Over stacks of one height, the less is known before an instruction, the less is known behind it. -/
theorem execute_mono (below : Forall₂ (· ≤ ·) s t) (flow : InsEffects) :
    Forall₂ (· ≤ ·) (m.execute s flow) (m.execute t flow) := by
  have inputs : ∀ base pops, Forall₂ (· ≤ ·) ((List.range pops).map fun i => s.getD (base + i) .unknown)
      ((List.range pops).map fun i => t.getD (base + i) .unknown) := by
    intro base pops
    rw [List.forall₂_map_left_iff, List.forall₂_map_right_iff, List.forall₂_same]
    exact fun i _ => getD_mono below (base + i)
  unfold execute
  dsimp only
  rw [below.length_eq]
  split_ifs
  · exact .nil
  · exact List.rel_append (List.forall₂_take _ below) (outKinds_mono (inputs _ _))

theorem runBlock_mono (below : Forall₂ (· ≤ ·) s t) : Forall₂ (· ≤ ·) (m.runBlock block s) (m.runBlock block t) := by
  unfold runBlock
  induction m.recordsOf block generalizing s t with
  | nil => exact below
  | cons flow flows ih => exact ih (execute_mono below flow)

end Monotone

section Seeds

variable {st : Dataflow.State Stack} {s : Stack}

theorem seed_of_none (unknown : st.entry b = none) : seed st b s = Problem.start s st b := by
  unfold seed
  rw [unknown, Option.isNone_none, if_pos rfl]

theorem seed_of_some {old : Stack} (known : st.entry b = some old) : seed st b s = st := by
  unfold seed
  rw [known, Option.isNone_some, if_neg Bool.false_ne_true]

theorem entry_seed_self : (seed st b s).entry b = some ((st.entry b).getD s) := by
  cases known : st.entry b with
  | none =>
    rw [seed_of_none known]
    exact Problem.entry_start_self
  | some old =>
    rw [seed_of_some known]
    exact known

theorem entry_seed_of_ne (other : c ≠ b) : (seed st b s).entry c = st.entry c := by
  cases known : st.entry b with
  | none =>
    rw [seed_of_none known]
    exact Problem.entry_start_of_ne other
  | some old => rw [seed_of_some known]

/-- Exactly the blocks with a stack wait. -/
def Queued (st : Dataflow.State Stack) : Prop := ∀ b, b ∈ st.queue ↔ (st.entry b).isSome

theorem Queued.seed (queued : Queued st) : Queued (seed st b s) := by
  cases known : st.entry b with
  | some old =>
    rw [seed_of_some known]
    exact queued
  | none =>
    intro c
    rw [seed_of_none known]
    change c ∈ st.queue ++ [b] ↔ _
    rw [List.mem_append, List.mem_singleton, queued c]
    rcases eq_or_ne c b with rfl | other
    · rw [Problem.entry_start_self]
      exact iff_of_true (.inr rfl) rfl
    · rw [Problem.entry_start_of_ne other]
      exact or_iff_left other

variable (m) in
/-- Seeds the handlers among the blocks from the `n`-th on. -/
def seedHandlers (st : Dataflow.State Stack) (blocks : List Block) (n : ℕ) : Dataflow.State Stack :=
  (blocks.zipIdx n).foldl (fun st block => (m.handlerEntryState block.1).elim st (Body.seed st block.2)) st

theorem seedHandlers_cons (blocks : List Block) (n : ℕ) : m.seedHandlers st (block :: blocks) n =
    m.seedHandlers ((m.handlerEntryState block).elim st (Body.seed st n)) blocks (n + 1) := rfl

theorem Queued.seedHandlers (queued : Queued st) (blocks : List Block) (n : ℕ) : Queued (m.seedHandlers st blocks n) := by
  induction blocks generalizing st n with
  | nil => exact queued
  | cons block blocks ih =>
    rw [seedHandlers_cons]
    cases m.handlerEntryState block with
    | none => exact ih queued (n + 1)
    | some s => exact ih queued.seed (n + 1)

theorem entry_seedHandlers_of_lt (blocks : List Block) {n : ℕ} (before : c < n) :
    (m.seedHandlers st blocks n).entry c = st.entry c := by
  induction blocks generalizing st n with
  | nil => rfl
  | cons block blocks ih =>
    rw [seedHandlers_cons, ih (by omega)]
    cases m.handlerEntryState block with
    | none => rfl
    | some s => exact entry_seed_of_ne (by omega)

theorem entry_seedHandlers (blocks : List Block) (n k : ℕ) : (m.seedHandlers st blocks n).entry (n + k) =
    (st.entry (n + k)).or ((blocks[k]?).bind m.handlerEntryState) := by
  induction blocks generalizing st n k with
  | nil => exact (Option.or_none ..).symm
  | cons block blocks ih =>
    rw [seedHandlers_cons]
    cases k with
    | zero =>
      rw [entry_seedHandlers_of_lt _ (by omega), List.getElem?_cons_zero, Option.bind_some]
      cases m.handlerEntryState block with
      | none => exact (Option.or_none ..).symm
      | some s =>
        refine entry_seed_self.trans ?_
        cases st.entry (n + 0) with
        | none => rfl
        | some old => rfl
    | succ k =>
      rw [show n + (k + 1) = n + 1 + k by omega, ih, List.getElem?_cons_succ]
      cases m.handlerEntryState block with
      | none => rfl
      | some s => rw [Option.elim, entry_seed_of_ne (by omega)]

theorem seeded_eq : m.seeded = m.seedHandlers (if m.blocks.isEmpty then ⟨fun _ => none, []⟩
    else seed ⟨fun _ => none, []⟩ 0 .empty) m.blocks 0 := rfl

theorem seeded_queued : Queued m.seeded := by
  have empty : Queued ⟨fun _ => none, []⟩ := fun b => iff_of_false List.not_mem_nil Bool.false_ne_true
  rw [seeded_eq]
  split_ifs
  · exact empty.seedHandlers _ _
  · exact empty.seed.seedHandlers _ _

/-- What a block is seeded with: nothing at the first block, its own stack at another handler. -/
theorem entry_seeded : m.seeded.entry b =
    if b = 0 ∧ m.blocks ≠ [] then some .empty else (m.blocks[b]?).bind m.handlerEntryState := by
  rw [seeded_eq]
  have all := @entry_seedHandlers m (if m.blocks.isEmpty then ⟨fun _ => none, []⟩
    else seed ⟨fun _ => none, []⟩ 0 .empty) m.blocks 0 b
  rw [Nat.zero_add] at all
  rw [all]
  rcases eq_or_ne m.blocks [] with nothing | some
  · rw [nothing, if_pos List.isEmpty_nil, if_neg fun first => absurd rfl first.2]
    rfl
  · rw [if_neg (mt List.isEmpty_iff.mp some)]
    rcases eq_or_ne b 0 with rfl | other
    · rw [entry_seed_self, if_pos ⟨rfl, some⟩]
      rfl
    · rw [entry_seed_of_ne other, if_neg fun same => other same.1]
      rfl

end Seeds

/-- A run of the worklist that has ended, whatever order the blocks were taken in: what the blocks were seeded with, and
the blocks that were run, each with the stack it was run from. -/
structure Finished (m : Body) (st : Dataflow.State Stack) (seeds : ℕ → Option Stack) (ran : List (ℕ × Stack)) : Prop where
  run : m.problem.Reaches m.seeded.entry m.seeded.queue .empty st seeds ran
  idle : st.queue = []
  all : ∀ b < m.blocks.length, (st.entry b).isSome

/-- Nothing leads to the block from the first block, the handlers or the blocks before it. -/
def Cut (m : Body) (b : ℕ) : Prop := m.problem.Cut m.seeded.entry b

/-- A block and one of its successors. -/
def Feeds (m : Body) (p : ℕ) (block : Block) (b : ℕ) : Prop := m.blocks[p]? = some block ∧ b ∈ block.succs

/-- The heights of the stacks agree wherever blocks meet. -/
structure Balanced (m : Body) (height : ℕ → ℕ) : Prop where
  first : height 0 = 0
  handler : ∀ b block s, b ≠ 0 → m.blocks[b]? = some block → m.handlerEntryState block = some s → height b = s.length
  cut : ∀ b, m.Cut b → height b = 0
  passes : ∀ p block b, m.Feeds p block b → b ∈ m.targets block →
    ∀ s : Stack, s.length = height p → (m.runBlock block s).length = height b

section Runs

variable {st : Dataflow.State Stack} {seeds : ℕ → Option Stack} {ran : List (ℕ × Stack)} {a : Stack}

theorem mem_succs_problem {p : ℕ} (plain : m.blocks[b]? = some block) (entry : block.handlerEntry = none) :
    b ∈ m.problem.succs p ↔ ∃ from', m.Feeds p from' b := by
  change b ∈ m.blocks[p]?.elim [] m.targets ↔ _
  unfold Feeds
  cases m.blocks[p]? with
  | none => exact iff_of_false List.not_mem_nil fun ⟨_, feeds⟩ => nomatch feeds.1
  | some source =>
    have passes : b ∈ m.targets source ↔ b ∈ source.succs := by
      refine List.mem_filter.trans (and_iff_left ?_)
      rw [plain, Option.bind_some, entry, Option.isNone_none]
    refine passes.trans ⟨fun target => ⟨source, rfl, target⟩, ?_⟩
    rintro ⟨_, ⟨rfl⟩, target⟩
    exact target

theorem transfer_problem {p : ℕ} (found : m.blocks[p]? = some block) (s : Stack) :
    m.problem.transfer p s = m.runBlock block s := by
  change m.blocks[p]?.elim s _ = _
  rw [found]
  rfl

theorem Finished.inv (finished : m.Finished st seeds ran) : m.problem.Inv st seeds ran := finished.run.inv seeded_queued

/-- A handler takes its stack from no block. -/
theorem not_mem_succs_problem {p : ℕ} {s : Stack} (found : m.blocks[b]? = some block)
    (handler : m.handlerEntryState block = some s) : b ∉ m.problem.succs p := by
  intro target
  change b ∈ m.blocks[p]?.elim [] m.targets at target
  cases source : m.blocks[p]? with
  | none =>
    rw [source] at target
    exact nomatch target
  | some source' =>
    rw [source] at target
    have plain := (List.mem_filter.mp target).2
    rw [found, Option.bind_some, Option.isNone_iff_eq_none] at plain
    rw [handlerEntryState, plain] at handler
    exact nomatch handler

theorem seeded_handler {s : Stack} (other : b ≠ 0) (found : m.blocks[b]? = some block)
    (handler : m.handlerEntryState block = some s) : m.seeded.entry b = some s := by
  rw [entry_seeded, if_neg fun first => other first.1, found, Option.bind_some, handler]

/-- A handler keeps its fixed stack. -/
theorem Finished.handler (finished : m.Finished st seeds ran) {s : Stack} (other : b ≠ 0)
    (found : m.blocks[b]? = some block) (handler : m.handlerEntryState block = some s) : st.entry b = some s := by
  have seed : seeds b = some s := finished.run.seeds_initial (seeded_handler other found handler)
  obtain ⟨a, known⟩ := Option.isSome_iff_exists.mp (finished.inv.seeded b s seed)
  obtain ⟨below, greatest⟩ := finished.inv.meet b a known
  have above : s ≤ a := by
    apply greatest
    rintro x (same | ⟨p, -, target, -⟩)
    · rw [seed] at same
      exact (Option.some.inj same).le
    · exact absurd target (not_mem_succs_problem found handler)
  rw [known, above.antisymm (below (.inl seed))]

/-- Another block has the meet over what its predecessors ended with, each time they were run, and what it was seeded
with. -/
theorem Finished.meet (finished : m.Finished st seeds ran) (found : m.blocks[b]? = some block)
    (plain : block.handlerEntry = none) (known : st.entry b = some a) :
    IsGLB {x | seeds b = some x ∨ ∃ p source s, m.Feeds p source b ∧ (p, s) ∈ ran ∧ x = m.runBlock source s} a := by
  have same : {x | seeds b = some x ∨ ∃ p source s, m.Feeds p source b ∧ (p, s) ∈ ran ∧ x = m.runBlock source s} =
      m.problem.delivered seeds ran b := by
    ext x
    refine or_congr_right ⟨?_, ?_⟩
    · rintro ⟨p, source, s, feeds, inside, rfl⟩
      exact ⟨(p, s), inside, (mem_succs_problem found plain).mpr ⟨source, feeds⟩, (transfer_problem feeds.1 s).symm⟩
    · rintro ⟨⟨p, s⟩, inside, target, rfl⟩
      obtain ⟨source, feeds⟩ := (mem_succs_problem found plain).mp target
      exact ⟨p, source, s, feeds, inside, transfer_problem feeds.1 s⟩
  rw [same]
  exact finished.inv.meet b a known

/-- A block is seeded with the empty stack, and only if it is the first one or nothing leads to it. -/
theorem Finished.seed_cases (finished : m.Finished st seeds ran) (found : m.blocks[b]? = some block)
    (plain : block.handlerEntry = none) {x : Stack} (seed : seeds b = some x) : x = .empty ∧ (b = 0 ∨ m.Cut b) := by
  rcases finished.run.seed_cases seeded_queued seed with initial | ⟨cut, rfl⟩
  · rw [entry_seeded] at initial
    split_ifs at initial with first
    · exact ⟨(Option.some.inj initial).symm, .inl first.1⟩
    · rw [found, Option.bind_some, handlerEntryState, plain] at initial
      exact nomatch initial
  · exact ⟨rfl, .inr cut⟩

/-- Every predecessor was run from the stack it has, and the block's stack lies below what it ended with. -/
theorem Finished.feeds (finished : m.Finished st seeds ran) (found : m.blocks[b]? = some block)
    (plain : block.handlerEntry = none) (known : st.entry b = some a) {p : ℕ} {source : Block}
    (feeds : m.Feeds p source b) : ∃ s, st.entry p = some s ∧ (p, s) ∈ ran ∧ a ≤ m.runBlock source s := by
  obtain ⟨s, known'⟩ := Option.isSome_iff_exists.mp (finished.all p (List.getElem?_eq_some_iff.mp feeds.1).1)
  have target : b ∈ m.problem.succs p := (mem_succs_problem found plain).mpr ⟨source, feeds⟩
  obtain ⟨inside, a', same, below⟩ := finished.inv.settled finished.idle known' target
  obtain rfl : a = a' := Option.some.inj (known.symm.trans same)
  exact ⟨s, known', inside, (transfer_problem feeds.1 s) ▸ below⟩

end Runs

section Heights

variable {height : ℕ → ℕ} {st st' : Dataflow.State Stack} {seeds seeds' : ℕ → Option Stack} {ran ran' : List (ℕ × Stack)} {a : Stack}

theorem feeds_of_mem_succs {p : ℕ} (target : b ∈ m.problem.succs p) :
    ∃ source, m.Feeds p source b ∧ b ∈ m.targets source := by
  change b ∈ m.blocks[p]?.elim [] m.targets at target
  cases source : m.blocks[p]? with
  | none =>
    rw [source] at target
    exact nomatch target
  | some source' =>
    rw [source] at target
    exact ⟨source', ⟨source, (List.mem_filter.mp target).1⟩, target⟩

/-- Where heights agree every stack has the height of its block, and over those running a block is monotone. -/
theorem Balanced.tame (balanced : m.Balanced height) :
    m.problem.Tame m.seeded.entry .empty fun b s => List.length s = height b where
  goodInitial b s seed := by
    rw [entry_seeded] at seed
    split_ifs at seed with first
    · rw [first.1, balanced.first, ← Option.some.inj seed]
      rfl
    · obtain ⟨block, found, handler⟩ := Option.bind_eq_some_iff.mp seed
      have other : b ≠ 0 := fun same => first ⟨same, List.ne_nil_of_mem (List.mem_of_getElem? found)⟩
      exact (balanced.handler b block s other found handler).symm
  goodFresh b cut := (balanced.cut b cut).symm
  inf b s t first second := by
    refine Stack.length_meet.trans ?_
    rw [first, second, min_self]
  transfer p s good b target := by
    obtain ⟨source, feeds, passes⟩ := feeds_of_mem_succs target
    rw [transfer_problem feeds.1]
    exact balanced.passes p source b feeds passes s good
  mono p s t good good' below := by
    cases found : m.blocks[p]? with
    | none =>
      change m.blocks[p]?.elim s _ ≤ m.blocks[p]?.elim t _
      rw [found]
      exact below
    | some block =>
      rw [transfer_problem found, transfer_problem found]
      have pointwise := (Stack.le_iff_forall₂ (good.trans good'.symm)).mp below
      have ran := @runBlock_mono m block s t pointwise
      exact (Stack.le_iff_forall₂ ran.length_eq).mpr ran

/-- Every stack has the height of its block. -/
theorem Balanced.length_eq (balanced : m.Balanced height) (finished : m.Finished st seeds ran)
    (known : st.entry b = some a) : List.length a = height b :=
  (balanced.tame.good finished.run seeded_queued).1 b a known

/-- The first block and the blocks that nothing leads to start with an empty stack. -/
theorem Balanced.empty (balanced : m.Balanced height) (finished : m.Finished st seeds ran)
    (known : st.entry b = some a) (low : b = 0 ∨ m.Cut b) : a = .empty := by
  apply List.eq_nil_of_length_eq_zero
  rw [balanced.length_eq finished known]
  rcases low with rfl | cut
  · exact balanced.first
  · exact balanced.cut b cut

/-- Where heights agree a block that something leads to starts with the meet over what its predecessors end with. -/
theorem Balanced.meet (balanced : m.Balanced height) (finished : m.Finished st seeds ran)
    (found : m.blocks[b]? = some block) (plain : block.handlerEntry = none) (high : ¬ (b = 0 ∨ m.Cut b))
    (known : st.entry b = some a) :
    IsGLB {x | ∃ p source s, m.Feeds p source b ∧ st.entry p = some s ∧ x = m.runBlock source s} a := by
  have same : {x | ∃ p source s, m.Feeds p source b ∧ st.entry p = some s ∧ x = m.runBlock source s} =
      {x | seeds b = some x ∨ ∃ p s, st.entry p = some s ∧ b ∈ m.problem.succs p ∧ x = m.problem.transfer p s} := by
    ext x
    constructor
    · rintro ⟨p, source, s, feeds, known', rfl⟩
      exact .inr ⟨p, s, known', (mem_succs_problem found plain).mpr ⟨source, feeds⟩, (transfer_problem feeds.1 s).symm⟩
    · rintro (seed | ⟨p, s, known', target, rfl⟩)
      · exact absurd (finished.seed_cases found plain seed).2 high
      · obtain ⟨source, feeds⟩ := (mem_succs_problem found plain).mp target
        exact ⟨p, source, s, feeds, known', transfer_problem feeds.1 s⟩
  rw [same]
  exact balanced.tame.meet finished.run seeded_queued finished.idle known

/-- Where heights agree no order of the worklist finds more than another. -/
theorem Balanced.le (balanced : m.Balanced height) (finished : m.Finished st seeds ran)
    (finished' : m.Finished st' seeds' ran') {a' : Stack} (known : st.entry b = some a) (known' : st'.entry b = some a') :
    a' ≤ a := by
  let other : ℕ → Stack := fun c => List.replicate (height c) .unknown
  let value : ℕ → Stack := fun c => (st'.entry c).getD (other c)
  have value_eq : ∀ c x, st'.entry c = some x → value c = x := fun c x known => by
    change (st'.entry c).getD (other c) = x
    rw [known]
    rfl
  have good : ∀ c, List.length (value c) = height c := by
    intro c
    cases known : st'.entry c with
    | none =>
      change List.length ((st'.entry c).getD (other c)) = _
      rw [known]
      exact List.length_replicate
    | some x =>
      rw [value_eq c x known]
      exact balanced.length_eq finished' known
  have seeded : ∀ c x, m.seeded.entry c = some x → value c ≤ x := by
    intro c x seed
    have seed' := finished'.run.seeds_initial seed
    obtain ⟨y, known⟩ := Option.isSome_iff_exists.mp (finished'.inv.seeded c x seed')
    rw [value_eq c y known]
    exact (finished'.inv.meet c y known).1 (.inl seed')
  have cut : ∀ c, m.problem.Cut m.seeded.entry c → value c ≤ .empty := by
    intro c cut
    have low : value c = .empty := List.eq_nil_of_length_eq_zero ((good c).trans (balanced.cut c cut))
    exact low.le
  have solves : ∀ p, ∀ c ∈ m.problem.succs p, value c ≤ m.problem.transfer p (value p) := by
    intro p c target
    obtain ⟨source, feeds, -⟩ := feeds_of_mem_succs target
    obtain ⟨x, known⟩ := Option.isSome_iff_exists.mp (finished'.all p (List.getElem?_eq_some_iff.mp feeds.1).1)
    obtain ⟨-, y, reached, below⟩ := finished'.inv.settled finished'.idle known target
    rw [value_eq p x known, value_eq c y reached]
    exact below
  rw [← value_eq b a' known']
  exact balanced.tame.greatest finished.run seeded_queued good seeded cut solves known

/-- Where heights agree every order of the worklist finds the same stacks. -/
theorem Balanced.entry_eq (balanced : m.Balanced height) (finished : m.Finished st seeds ran)
    (finished' : m.Finished st' seeds' ran') (inside : b < m.blocks.length) : st.entry b = st'.entry b := by
  obtain ⟨a, known⟩ := Option.isSome_iff_exists.mp (finished.all b inside)
  obtain ⟨a', known'⟩ := Option.isSome_iff_exists.mp (finished'.all b inside)
  have below := balanced.le finished finished' known known'
  have above := balanced.le finished' finished known' known
  rw [known, known', above.antisymm below]

end Heights

theorem getElem?_simulate (inside : b < m.blocks.length) :
    m.simulate[b]? = some (((m.problem.settle .empty 0 m.seeded).entry b).getD .empty) := by
  rw [simulate, List.getElem?_map, List.getElem?_range inside, Option.map_some]

variable (m) in
/-- The worklist, taken from the front, is one that ends. -/
theorem finished_simulate : ∃ st seeds ran, m.Finished st seeds ran ∧ ∀ b < m.blocks.length, m.simulate[b]? = st.entry b := by
  obtain ⟨idle, all, seeds, ran, run⟩ := Problem.Reaches.settle (.init : m.problem.Reaches m.seeded.entry m.seeded.queue
    .empty ⟨m.seeded.entry, m.seeded.queue⟩ m.seeded.entry []) seeded_queued (fun c before => absurd before (Nat.not_lt_zero c))
  refine ⟨_, seeds, ran, ⟨run, idle, all⟩, fun b inside => ?_⟩
  obtain ⟨a, known⟩ := Option.isSome_iff_exists.mp (all b inside)
  have final : (m.problem.settle .empty 0 m.seeded).entry b = some a := known
  rw [getElem?_simulate inside, final]
  rfl

/-- The worklist ends, whatever order the blocks are taken in. Every handler but the first block has its own stack. Every
other block has the meet over what its predecessors ended with each time they were run, among them from the stack they
have now; the first block and blocks that nothing leads to are seeded with an empty stack. Where the heights agree that is
the meet over what the predecessors end with now, and it is the same whatever the order. -/
theorem entryStacks (m : Body) : (WellFounded fun st' st => m.problem.Step .empty st st') ∧
    (∃ st seeds ran, m.Finished st seeds ran ∧ ∀ b < m.blocks.length, m.simulate[b]? = st.entry b) ∧
    ∀ st seeds ran, m.problem.Reaches m.seeded.entry m.seeded.queue .empty st seeds ran →
      (∀ st', ¬ m.problem.Step .empty st st') →
      (∀ b block s, b ≠ 0 → m.blocks[b]? = some block → m.handlerEntryState block = some s → st.entry b = some s) ∧
      (∀ b block, m.blocks[b]? = some block → block.handlerEntry = none → ∃ a, st.entry b = some a ∧
        IsGLB {x | seeds b = some x ∨ ∃ p source s, m.Feeds p source b ∧ (p, s) ∈ ran ∧ x = m.runBlock source s} a ∧
        (∀ x, seeds b = some x → x = .empty ∧ (b = 0 ∨ m.Cut b)) ∧
        ∀ p source, m.Feeds p source b → ∃ s, st.entry p = some s ∧ (p, s) ∈ ran ∧ a ≤ m.runBlock source s) ∧
      ∀ height, m.Balanced height →
        (∀ b < m.blocks.length, st.entry b = m.simulate[b]?) ∧
        ∀ b block, m.blocks[b]? = some block → block.handlerEntry = none → ∃ a, st.entry b = some a ∧
          (b = 0 ∨ m.Cut b → a = .empty) ∧
          (¬ (b = 0 ∨ m.Cut b) →
            IsGLB {x | ∃ p source s, m.Feeds p source b ∧ st.entry p = some s ∧ x = m.runBlock source s} a) := by
  obtain ⟨st', seeds', ran', finished', simulated⟩ := m.finished_simulate
  refine ⟨Problem.wellFounded_step, ⟨st', seeds', ran', finished', simulated⟩, fun st seeds ran run stuck => ?_⟩
  obtain ⟨idle, all⟩ := run.ended seeded_queued stuck
  have finished : m.Finished st seeds ran := ⟨run, idle, all⟩
  have known : ∀ b block, m.blocks[b]? = some block → ∃ a, st.entry b = some a := fun b block found =>
    Option.isSome_iff_exists.mp (all b (List.getElem?_eq_some_iff.mp found).1)
  refine ⟨fun b block s other found handler => finished.handler other found handler, fun b block found plain => ?_,
    fun height balanced => ⟨fun b inside => ?_, fun b block found plain => ?_⟩⟩
  · obtain ⟨a, known⟩ := known b block found
    exact ⟨a, known, finished.meet found plain known, fun x seed => finished.seed_cases found plain seed,
      fun p source feeds => finished.feeds found plain known feeds⟩
  · rw [simulated b inside]
    exact balanced.entry_eq finished finished' inside
  · obtain ⟨a, known⟩ := known b block found
    exact ⟨a, known, balanced.empty finished known, fun high => balanced.meet finished found plain high known⟩

/-- A way leads to the block from the first block or a handler. -/
def Reachable (m : Body) (b : ℕ) : Prop :=
  ∃ c, (m.seeded.entry c).isSome ∧ Relation.ReflTransGen (fun p b => ∃ source, m.Feeds p source b) c b

/-- Every other block that something leads to has the meet over what the blocks end with that lead to it and that something
leads to. -/
def MeetsReachable (m : Body) : Prop :=
  ∀ b block a, m.blocks[b]? = some block → block.handlerEntry = none → b ≠ 0 → m.Reachable b → m.simulate[b]? = some a →
    IsGLB {x | ∃ p source s, m.Reachable p ∧ m.Feeds p source b ∧ m.simulate[p]? = some s ∧ x = m.runBlock source s} a

def number (offset : ℕ) : InsEffects :=
  { offset, size := 1, code := some .ldcI40, prefixes := {}, outputs := 1, effects := [.const (.output 0) (.i4 0)] }

def null (offset : ℕ) : InsEffects :=
  { offset, size := 1, code := some .ldnull, prefixes := {}, outputs := 1, effects := [.const (.output 0) .null] }

def branch (offset target : ℕ) : InsEffects := { offset, size := 2, code := some .brS, prefixes := {}, control := .goto target }

def ret (offset : ℕ) : InsEffects := { offset, size := 1, code := some .ret, prefixes := {}, control := .ret }

/-- A number is pushed, and a branch leads over a null that falls into the block it leads to. -/
def overNull : Body where
  isValueType _ := none
  entity _ := none
  method _ := none
  instructions := []
  argKinds := []
  localKinds := []
  records := [number 0, branch 1 4, null 3,
    { offset := 4, size := 1, code := some .pop, prefixes := {}, inputs := [.discarded] }, ret 5]
  handlers := []
  blocks := [{ start := 0, stop := 3, succs := [2] }, { start := 3, stop := 4, succs := [2] }, { start := 4, stop := 6 }]
  inside := by decide

def overNullHeight : ℕ → ℕ
  | 2 => 1
  | _ => 0

theorem overNull_feeds {p b : ℕ} {source : Block} (feeds : overNull.Feeds p source b) :
    b = 2 ∧ (p = 0 ∧ source = { start := 0, stop := 3, succs := [2] } ∨ p = 1 ∧ source = { start := 3, stop := 4, succs := [2] }) := by
  obtain ⟨found, target⟩ := feeds
  match p with
  | 0 =>
    obtain rfl := Option.some.inj found
    exact ⟨List.mem_singleton.mp target, .inl ⟨rfl, rfl⟩⟩
  | 1 =>
    obtain rfl := Option.some.inj found
    exact ⟨List.mem_singleton.mp target, .inr ⟨rfl, rfl⟩⟩
  | 2 =>
    obtain rfl := Option.some.inj found
    exact nomatch target
  | p + 3 => exact nomatch found

theorem overNull_balanced : overNull.Balanced overNullHeight where
  first := rfl
  handler b block s _ found handler := by
    match b with
    | 0 | 1 | 2 =>
      obtain rfl := Option.some.inj found
      exact nomatch handler
    | b + 3 => exact nomatch found
  cut b cut := by
    rcases eq_or_ne b 2 with rfl | other
    · exact absurd (.single (by decide)) (cut 0 (.inl (by decide)))
    · unfold overNullHeight
      split
      · exact absurd rfl other
      · rfl
  passes p source b feeds _ s low := by
    obtain ⟨rfl, ⟨rfl, rfl⟩ | ⟨rfl, rfl⟩⟩ := overNull_feeds feeds
    · obtain rfl := List.eq_nil_of_length_eq_zero low
      rfl
    · obtain rfl := List.eq_nil_of_length_eq_zero low
      rfl

theorem overNull_not_reachable : ¬ overNull.Reachable 1 := by
  rintro ⟨c, seeded, way⟩
  rcases way.cases_tail with rfl | ⟨p, -, source, feeds⟩
  · exact absurd seeded (by decide)
  · exact absurd (overNull_feeds feeds).1 (by decide)

/-- The block is met with what the block ends with that nothing leads to. -/
theorem overNull_not_meets : ¬ overNull.MeetsReachable := by
  intro claim
  obtain ⟨st, seeds, ran, finished, simulated⟩ := overNull.finished_simulate
  have dead : overNull.Feeds 1 { start := 3, stop := 4, succs := [2] } 2 := ⟨rfl, by decide⟩
  have joined : overNull.blocks[2]? = some { start := 4, stop := 6 } := rfl
  obtain ⟨a, known⟩ := Option.isSome_iff_exists.mp (finished.all 2 (by decide))
  obtain ⟨s, known', -, below⟩ := finished.feeds joined rfl known dead
  obtain rfl := List.eq_nil_of_length_eq_zero (overNull_balanced.length_eq finished known')
  have reachable : overNull.Reachable 2 := ⟨0, by decide, .single ⟨_, rfl, List.mem_singleton.mpr rfl⟩⟩
  have meet := claim 2 _ a joined rfl (by decide) reachable ((simulated 2 (by decide)).trans known)
  have number : Stack.of [.int32] ≤ a := by
    apply meet.2
    rintro x ⟨p, source, s, way, feeds, stack, rfl⟩
    obtain ⟨-, ⟨rfl, rfl⟩ | ⟨rfl, rfl⟩⟩ := overNull_feeds feeds
    · have start := (simulated 0 (by decide)).symm.trans stack
      obtain rfl := List.eq_nil_of_length_eq_zero (overNull_balanced.length_eq finished start)
      exact le_rfl
    · exact absurd way overNull_not_reachable
  have wrong : Stack.le [.int32] [.objRef] := number.trans below
  obtain ⟨same | same, -⟩ := wrong
  · exact nomatch same
  · exact nomatch same

/-- A block that copies the top of the stack is reached with two values, and with one after it has been run. -/
def twoHeights : Body where
  isValueType _ := none
  entity _ := none
  method _ := none
  instructions := []
  argKinds := []
  localKinds := []
  records := [number 0, { offset := 1, size := 2, code := some .brtrueS, prefixes := {}, inputs := [.condition], control := .cond [7] },
    { offset := 3, size := 1, code := some .nop, prefixes := {} }, number 4, branch 5 9, number 7, null 8,
    { offset := 9, size := 1, code := some .dup, prefixes := {}, inputs := [.value], outputs := 2,
      effects := [copy (.output 0) (.input 0), copy (.output 1) (.input 0)] }, ret 10]
  handlers := []
  blocks := [{ start := 0, stop := 3, succs := [3, 1] }, { start := 3, stop := 4, succs := [2] },
    { start := 4, stop := 7, succs := [4] }, { start := 7, stop := 9, succs := [4] }, { start := 9, stop := 10, succs := [5] },
    { start := 10, stop := 11 }]
  inside := by decide

theorem twoHeights_reachable : ∀ b < twoHeights.blocks.length, twoHeights.Reachable b := by
  have edge : ∀ {p b : ℕ} {source : Block}, twoHeights.Feeds p source b → twoHeights.Reachable p → twoHeights.Reachable b := by
    rintro p b source feeds ⟨c, seeded, way⟩
    exact ⟨c, seeded, way.tail ⟨source, feeds⟩⟩
  have first : twoHeights.Reachable 0 := ⟨0, by decide, .refl⟩
  have third := edge (b := 3) ⟨rfl, by decide⟩ first
  have second := edge (b := 1) ⟨rfl, by decide⟩ first
  have fourth := edge (b := 4) ⟨rfl, by decide⟩ third
  intro b inside
  match b with
  | 0 => exact first
  | 1 => exact second
  | 2 => exact edge (b := 2) ⟨rfl, by decide⟩ second
  | 3 => exact third
  | 4 => exact fourth
  | 5 => exact edge (b := 5) ⟨rfl, by decide⟩ fourth
  | b + 6 => exact absurd inside (by simp [twoHeights])

theorem twoHeights_final : ∃ st, twoHeights.problem.settle .empty 0 twoHeights.seeded = st ∧
    st.entry 4 = some (.of [.int32]) ∧ st.entry 5 = some (.of [.int32, .unknown]) := by
  have drained : ∃ st, twoHeights.problem.drain twoHeights.seeded = st ∧ (∀ b < 6, (st.entry b).isSome) ∧
      st.entry 4 = some (.of [.int32]) ∧ st.entry 5 = some (.of [.int32, .unknown]) := by
    rw [Problem.drain_of_cons (b := 0) (a := .empty) rfl rfl]
    rw [Problem.drain_of_cons (b := 3) (a := .empty) rfl rfl]
    rw [Problem.drain_of_cons (b := 1) (a := .empty) rfl rfl]
    rw [Problem.drain_of_cons (b := 4) (a := .of [.int32, .objRef]) rfl rfl]
    rw [Problem.drain_of_cons (b := 2) (a := .empty) rfl rfl]
    rw [Problem.drain_of_cons (b := 5) (a := .of [.int32, .objRef, .objRef]) rfl rfl]
    rw [Problem.drain_of_cons (b := 4) (a := .of [.int32]) rfl rfl]
    rw [Problem.drain_of_cons (b := 5) (a := .of [.int32, .unknown]) rfl rfl]
    rw [Problem.drain_of_nil rfl]
    exact ⟨_, rfl, by decide, rfl, rfl⟩
  obtain ⟨st, same, all, final⟩ := drained
  refine ⟨st, (Problem.settle_of_reached ?_).trans same, final⟩
  rw [same]
  exact all

/-- The block behind is met with what was delivered to it before its predecessor's stack became lower. -/
theorem twoHeights_not_meets : ¬ twoHeights.MeetsReachable := by
  intro claim
  obtain ⟨st, same, fourth, fifth⟩ := twoHeights_final
  have simulated : ∀ b < 6, twoHeights.simulate[b]? = some ((st.entry b).getD .empty) := by
    intro b inside
    have at' := @getElem?_simulate twoHeights b inside
    rwa [same] at at'
  have last := claim 5 _ (.of [.int32, .unknown]) rfl rfl (by decide) (twoHeights_reachable 5 (by decide))
    (by rw [simulated 5 (by decide), fifth]; rfl)
  have wrong : Stack.of [.int32, .int32] ≤ .of [.int32, .unknown] := by
    apply last.2
    rintro x ⟨p, source, s, -, ⟨found, target⟩, stack, rfl⟩
    match p with
    | 0 | 1 | 2 | 3 | 5 =>
      obtain rfl := Option.some.inj found
      exact absurd target (by decide)
    | 4 =>
      obtain rfl := Option.some.inj found
      rw [simulated 4 (by decide), fourth] at stack
      obtain rfl := Option.some.inj stack
      exact le_rfl
    | p + 6 => exact nomatch found
  obtain ⟨-, same | same, -⟩ := wrong
  · exact nomatch same
  · exact nomatch same

/-- With blocks that nothing leads to, and with heights that differ, a stack is not the meet over what the reached
predecessors end with. -/
theorem reachable_meet_fails : ¬ overNull.MeetsReachable ∧ (∀ b < twoHeights.blocks.length, twoHeights.Reachable b) ∧
    ¬ twoHeights.MeetsReachable := ⟨overNull_not_meets, twoHeights_reachable, twoHeights_not_meets⟩

end Body

end Ctadl.Cil
