import Mathlib.Data.DFinsupp.WellFounded

/-! # Dataflow by a worklist

Every node has a value on entry, which is met with what its predecessors pass on. A node whose value fell waits in a queue
until what it passes on now has been delivered. When the queue is empty a node that nothing reached is started, if there
is one.

Whatever the order, a node's value is the meet of everything that was delivered to it, and what every node passed on last
it passed on from its final value. Where passing on is monotone that is the meet of what its predecessors pass on from
their final values.
-/

namespace Ctadl.Graph.Dataflow

/-- The nodes, where each goes and what it makes of a value. -/
structure Problem (L : Type*) where
  size : ℕ
  succs : ℕ → List ℕ
  bounded : ∀ b, ∀ s ∈ succs b, s < size
  transfer : ℕ → L → L

/-- The values known so far and the nodes that wait. -/
structure State (L : Type*) where
  entry : ℕ → Option L
  queue : List ℕ

variable {L : Type*} [SemilatticeInf L] [DecidableEq L]

namespace State

/-- Gives a node a value and has it wait. -/
def change (st : State L) (s : ℕ) (a : L) : State L where
  entry := Function.update st.entry s (some a)
  queue := if s ∈ st.queue then st.queue else st.queue ++ [s]

/-- Meets the value of a node with one that is delivered to it. -/
def deliver (exit : L) (st : State L) (s : ℕ) : State L :=
  match st.entry s with
  | none => st.change s exit
  | some old => if old ⊓ exit = old then st else st.change s (old ⊓ exit)

def deliverAll (exit : L) (st : State L) (targets : List ℕ) : State L := targets.foldl (deliver exit) st

/-- The value of a node after a delivery. -/
def met (exit : L) : Option L → L
  | none => exit
  | some old => old ⊓ exit

variable {st : State L} {exit : L} {s c : ℕ} {targets : List ℕ}

theorem entry_deliver : (st.deliver exit s).entry = Function.update st.entry s (some (met exit (st.entry s))) := by
  unfold deliver
  cases known : st.entry s with
  | none => rfl
  | some old =>
    dsimp only [met]
    split_ifs with same
    · rw [same, ← known, Function.update_eq_self]
    · rfl

omit [SemilatticeInf L] [DecidableEq L] in
theorem mem_queue_change {a : L} : c ∈ (st.change s a).queue ↔ c ∈ st.queue ∨ c = s := by
  unfold change
  dsimp only
  split_ifs with waits
  · exact ⟨.inl, fun member => member.elim id fun same => same ▸ waits⟩
  · rw [List.mem_append, List.mem_singleton]

theorem queue_deliver (waits : c ∈ st.queue) : c ∈ (st.deliver exit s).queue := by
  unfold deliver
  split
  · exact mem_queue_change.mpr (.inl waits)
  · split_ifs
    · exact waits
    · exact mem_queue_change.mpr (.inl waits)

theorem mem_queue_deliver (waits : c ∈ (st.deliver exit s).queue) : c ∈ st.queue ∨ c = s := by
  unfold deliver at waits
  split at waits
  · exact mem_queue_change.mp waits
  · split_ifs at waits
    · exact .inl waits
    · exact mem_queue_change.mp waits

/-- A node whose value changes waits. -/
theorem waits_deliver (changed : (st.deliver exit s).entry c ≠ st.entry c) : c ∈ (st.deliver exit s).queue := by
  have here : c = s := by
    by_contra other
    rw [entry_deliver, Function.update_of_ne other] at changed
    exact changed rfl
  subst here
  unfold deliver at changed ⊢
  split at changed
  · exact mem_queue_change.mpr (.inr rfl)
  · split_ifs at changed ⊢
    · exact absurd rfl changed
    · exact mem_queue_change.mpr (.inr rfl)

omit [DecidableEq L] in
theorem met_met (known : Option L) : met exit (some (met exit known)) = met exit known := by
  cases known with
  | none => exact inf_idem exit
  | some old => exact inf_right_idem old exit

theorem entry_deliverAll : (st.deliverAll exit targets).entry c =
    if c ∈ targets then some (met exit (st.entry c)) else st.entry c := by
  induction targets generalizing st with
  | nil => rfl
  | cons s targets ih =>
    change ((st.deliver exit s).deliverAll exit targets).entry c = _
    rw [ih, entry_deliver]
    rcases eq_or_ne c s with rfl | other
    · rw [Function.update_self, met_met, if_pos List.mem_cons_self, ite_self]
    · simp only [Function.update_of_ne other, List.mem_cons, other, false_or]

theorem queue_deliverAll (waits : c ∈ st.queue) : c ∈ (st.deliverAll exit targets).queue := by
  induction targets generalizing st with
  | nil => exact waits
  | cons s targets ih => exact ih (queue_deliver waits)

theorem mem_queue_deliverAll (waits : c ∈ (st.deliverAll exit targets).queue) : c ∈ st.queue ∨ c ∈ targets := by
  induction targets generalizing st with
  | nil => exact .inl waits
  | cons s targets ih =>
    rcases ih waits with before | later
    · rcases mem_queue_deliver before with before | rfl
      · exact .inl before
      · exact .inr List.mem_cons_self
    · exact .inr (List.mem_cons_of_mem _ later)

theorem deliver_of_met (same : some (met exit (st.entry s)) = st.entry s) : st.deliver exit s = st := by
  unfold deliver
  cases known : st.entry s with
  | none =>
    rw [known] at same
    exact nomatch same
  | some old =>
    rw [known] at same
    exact if_pos (Option.some.inj same)

theorem deliverAll_of_met (same : ∀ s ∈ targets, some (met exit (st.entry s)) = st.entry s) :
    st.deliverAll exit targets = st := by
  induction targets with
  | nil => rfl
  | cons s targets ih =>
    change (st.deliver exit s).deliverAll exit targets = st
    rw [deliver_of_met (same s List.mem_cons_self)]
    exact ih fun c inside => same c (List.mem_cons_of_mem _ inside)

theorem waits_deliverAll (changed : (st.deliverAll exit targets).entry c ≠ st.entry c) :
    c ∈ (st.deliverAll exit targets).queue := by
  induction targets generalizing st with
  | nil => exact absurd rfl changed
  | cons s targets ih =>
    rcases eq_or_ne ((st.deliver exit s).entry c) (st.entry c) with same | first
    · exact ih fun unchanged => changed (unchanged.trans same)
    · have waits : c ∈ (st.deliver exit s).queue := waits_deliver first
      exact @queue_deliverAll _ _ _ (st.deliver exit s) exit c targets waits

end State

namespace Problem

variable (P : Problem L)

/-- Takes a node from the queue and delivers what it passes on. -/
def visit (st : State L) (b : ℕ) (a : L) : State L :=
  ({ st with queue := st.queue.erase b }).deliverAll (P.transfer b a) (P.succs b)

/-- Starts a node that nothing reached. -/
def start (a : L) (st : State L) (b : ℕ) : State L where
  entry := Function.update st.entry b (some a)
  queue := st.queue ++ [b]

/-- The states of a run, whatever node is taken from the queue: the values that nodes were started with, and the nodes that
were visited with the values they had. -/
inductive Reaches (initial : ℕ → Option L) (queue : List ℕ) (fresh : L) :
    State L → (ℕ → Option L) → List (ℕ × L) → Prop
  | init : Reaches initial queue fresh ⟨initial, queue⟩ initial []
  | visit {st seeds log b a} : Reaches initial queue fresh st seeds log → b ∈ st.queue → st.entry b = some a →
      Reaches initial queue fresh (P.visit st b a) seeds ((b, a) :: log)
  | start {st seeds log b} : Reaches initial queue fresh st seeds log → st.queue = [] → st.entry b = none → b < P.size →
      (∀ c < b, (st.entry c).isSome) →
      Reaches initial queue fresh (start fresh st b) (Function.update seeds b (some fresh)) log

/-- What was delivered to a node, and what it was started with. -/
def delivered (seeds : ℕ → Option L) (log : List (ℕ × L)) (s : ℕ) : Set L :=
  {x | seeds s = some x ∨ ∃ p ∈ log, s ∈ P.succs p.1 ∧ x = P.transfer p.1 p.2}

/-- What holds all along a run. -/
structure Inv (st : State L) (seeds : ℕ → Option L) (log : List (ℕ × L)) : Prop where
  waits : ∀ b ∈ st.queue, (st.entry b).isSome
  visited : ∀ b a, st.entry b = some a → b ∉ st.queue → (b, a) ∈ log
  seeded : ∀ s x, seeds s = some x → (st.entry s).isSome
  fed : ∀ p ∈ log, ∀ s ∈ P.succs p.1, (st.entry s).isSome
  fell : ∀ p ∈ log, ∃ a, st.entry p.1 = some a ∧ a ≤ p.2
  meet : ∀ s a, st.entry s = some a → IsGLB (P.delivered seeds log s) a

variable {P} {st : State L} {seeds : ℕ → Option L} {log : List (ℕ × L)} {b : ℕ} {a : L}

omit [DecidableEq L] in
theorem Inv.init {initial : ℕ → Option L} {queue : List ℕ} (queued : ∀ b, b ∈ queue ↔ (initial b).isSome) :
    P.Inv ⟨initial, queue⟩ initial [] where
  waits b inside := (queued b).mp inside
  visited _ _ known outside := absurd ((queued _).mpr (Option.isSome_of_eq_some known)) outside
  seeded _ _ known := Option.isSome_of_eq_some known
  fed := nofun
  fell := nofun
  meet s a known := by
    have known : initial s = some a := known
    have only : P.delivered initial [] s = {a} := by
      ext x
      simp only [delivered, List.not_mem_nil, false_and, exists_false, or_false, Set.mem_ofPred_eq, Set.mem_singleton_iff]
      rw [known, Option.some_inj, eq_comm]
    rw [only]
    exact isGLB_singleton

theorem entry_visit (s : ℕ) : (P.visit st b a).entry s =
    if s ∈ P.succs b then some (State.met (P.transfer b a) (st.entry s)) else st.entry s := State.entry_deliverAll

/-- A value only falls. -/
theorem le_of_visit {s : ℕ} {old : L} (known : st.entry s = some old) : ∃ a', (P.visit st b a).entry s = some a' ∧ a' ≤ old := by
  rw [entry_visit, known]
  split_ifs
  · exact ⟨_, rfl, inf_le_left⟩
  · exact ⟨old, rfl, le_rfl⟩

theorem isSome_visit {s : ℕ} (known : (st.entry s).isSome) : ((P.visit st b a).entry s).isSome := by
  obtain ⟨old, known⟩ := Option.isSome_iff_exists.mp known
  obtain ⟨a', now, -⟩ := @le_of_visit _ _ _ P _ b a _ _ known
  exact Option.isSome_of_eq_some now

theorem Inv.visit (inv : P.Inv st seeds log) (known : st.entry b = some a) : P.Inv (P.visit st b a) seeds ((b, a) :: log) where
  waits c inside := by
    rcases State.mem_queue_deliverAll inside with before | target
    · exact isSome_visit (inv.waits c (List.mem_of_mem_erase before))
    · rw [entry_visit, if_pos target]
      rfl
  visited c a' now outside := by
    have same : (P.visit st b a).entry c = st.entry c := by
      by_contra changed
      exact outside (State.waits_deliverAll changed)
    rw [same] at now
    rcases eq_or_ne c b with rfl | other
    · obtain rfl : a = a' := Option.some.inj (known.symm.trans now)
      exact List.mem_cons_self
    · refine List.mem_cons_of_mem _ (inv.visited c a' now fun inside => outside ?_)
      exact State.queue_deliverAll ((List.mem_erase_of_ne other).mpr inside)
  seeded s x seed := isSome_visit (inv.seeded s x seed)
  fed p inside s target := by
    rcases List.mem_cons.mp inside with rfl | before
    · rw [entry_visit, if_pos target]
      rfl
    · exact isSome_visit (inv.fed p before s target)
  fell p inside := by
    rcases List.mem_cons.mp inside with rfl | before
    · exact le_of_visit known
    · obtain ⟨old, was, below⟩ := inv.fell p before
      obtain ⟨a', now, lower⟩ := @le_of_visit _ _ _ P _ b a _ _ was
      exact ⟨a', now, lower.trans below⟩
  meet s a' now := by
    rw [entry_visit] at now
    split_ifs at now with target
    · obtain rfl := Option.some.inj now
      have more : P.delivered seeds ((b, a) :: log) s = insert (P.transfer b a) (P.delivered seeds log s) := by
        ext x
        simp only [delivered, List.mem_cons, Set.mem_ofPred_eq, Set.mem_insert_iff, exists_eq_or_imp, target, true_and]
        tauto
      rw [more]
      cases was : st.entry s with
      | none =>
        have nothing : P.delivered seeds log s = ∅ := by
          rw [Set.eq_empty_iff_forall_notMem]
          rintro x (seed | ⟨p, inside, target, -⟩)
          · have some' := inv.seeded s x seed
            rw [was] at some'
            exact nomatch some'
          · have some' := inv.fed p inside s target
            rw [was] at some'
            exact nomatch some'
        rw [nothing, insert_empty_eq]
        exact isGLB_singleton
      | some old =>
        have glb := (inv.meet s old was).insert (P.transfer b a)
        rwa [inf_comm] at glb
    · have same : P.delivered seeds ((b, a) :: log) s = P.delivered seeds log s := by
        ext x
        simp only [delivered, List.mem_cons, Set.mem_ofPred_eq, exists_eq_or_imp, target, false_and, false_or]
      rw [same]
      exact inv.meet s a' now

omit [DecidableEq L] in
theorem Inv.start (inv : P.Inv st seeds log) (unreached : st.entry b = none) :
    P.Inv (start a st b) (Function.update seeds b (some a)) log := by
  have kept : ∀ s, (st.entry s).isSome → s ≠ b := by
    rintro s known rfl
    rw [unreached] at known
    exact nomatch known
  have same : ∀ s, s ≠ b → (Problem.start a st b).entry s = st.entry s := fun s other => Function.update_of_ne other _ _
  have isSome : ∀ s, (st.entry s).isSome → ((Problem.start a st b).entry s).isSome := by
    intro s known
    rw [same s (kept s known)]
    exact known
  have here : (Problem.start a st b).entry b = some a := Function.update_self _ _ _
  constructor
  · intro c inside
    rcases List.mem_append.mp inside with before | last
    · exact isSome c (inv.waits c before)
    · rw [List.mem_singleton.mp last, here]
      rfl
  · intro c a' now outside
    have other : c ≠ b := fun same => outside (List.mem_append_right _ (same ▸ List.mem_cons_self))
    rw [same c other] at now
    exact inv.visited c a' now fun inside => outside (List.mem_append_left _ inside)
  · intro s x seed
    rcases eq_or_ne s b with rfl | other
    · rw [here]
      rfl
    · rw [Function.update_of_ne other] at seed
      exact isSome s (inv.seeded s x seed)
  · exact fun p inside s target => isSome s (inv.fed p inside s target)
  · intro p inside
    obtain ⟨old, was, below⟩ := inv.fell p inside
    exact ⟨old, by rw [same p.1 (kept p.1 (by rw [was]; rfl)), was], below⟩
  · intro s a' now
    rcases eq_or_ne s b with rfl | other
    · obtain rfl := Option.some.inj (here.symm.trans now)
      have only : P.delivered (Function.update seeds s (some a)) log s = {a} := by
        ext x
        simp only [delivered, Function.update_self, Option.some_inj, Set.mem_ofPred_eq, Set.mem_singleton_iff]
        constructor
        · rintro (rfl | ⟨p, inside, target, -⟩)
          · rfl
          · have fed := inv.fed p inside s target
            rw [unreached] at fed
            exact nomatch fed
        · exact fun same => .inl same.symm
      rw [only]
      exact isGLB_singleton
    · rw [same s other] at now
      have others : P.delivered (Function.update seeds b (some a)) log s = P.delivered seeds log s := by
        unfold delivered
        rw [Function.update_of_ne other]
      rw [others]
      exact inv.meet s a' now

section Runs

variable {initial : ℕ → Option L} {queue : List ℕ} {fresh : L}

omit [SemilatticeInf L] [DecidableEq L] in
theorem entry_start_self : (start a st b).entry b = some a := by
  unfold start
  exact Function.update_self ..

omit [SemilatticeInf L] [DecidableEq L] in
theorem entry_start_of_ne {s : ℕ} (other : s ≠ b) : (start a st b).entry s = st.entry s := by
  unfold start
  exact Function.update_of_ne other ..

theorem Reaches.inv (reached : P.Reaches initial queue fresh st seeds log) (queued : ∀ b, b ∈ queue ↔ (initial b).isSome) :
    P.Inv st seeds log := by
  induction reached with
  | init => exact .init queued
  | visit _ _ known ih => exact ih.visit known
  | start _ _ unreached _ _ ih => exact ih.start unreached

omit [DecidableEq L] in
/-- Once the queue is empty, what every node passed on last it passed on from the value it has. -/
theorem Inv.settled (inv : P.Inv st seeds log) (empty : st.queue = []) {s : ℕ} (known : st.entry b = some a)
    (target : s ∈ P.succs b) : (b, a) ∈ log ∧ ∃ a', st.entry s = some a' ∧ a' ≤ P.transfer b a := by
  have last : (b, a) ∈ log := inv.visited b a known (by rw [empty]; exact List.not_mem_nil)
  obtain ⟨a', reached⟩ := Option.isSome_iff_exists.mp (inv.fed (b, a) last s target)
  exact ⟨last, a', reached, (inv.meet s a' reached).1 (.inr ⟨(b, a), last, target, rfl⟩)⟩

/-- No way leads to the node from the initial nodes or the ones before it. -/
def Cut (P : Problem L) (initial : ℕ → Option L) (b : ℕ) : Prop :=
  ∀ c, (initial c).isSome ∨ c < b → ¬ Relation.ReflTransGen (fun b s => s ∈ P.succs b) c b

omit [DecidableEq L] in
theorem Inv.reached (inv : P.Inv st seeds log) (empty : st.queue = []) {c : ℕ} (source : (st.entry c).isSome)
    (way : Relation.ReflTransGen (fun b s => s ∈ P.succs b) c b) : (st.entry b).isSome := by
  induction way with
  | refl => exact source
  | tail _ edge ih =>
    obtain ⟨a, known⟩ := Option.isSome_iff_exists.mp ih
    obtain ⟨-, a', reached, -⟩ := inv.settled empty known edge
    exact Option.isSome_of_eq_some reached

theorem Reaches.isSome_initial (reached : P.Reaches initial queue fresh st seeds log) {c : ℕ} (known : (initial c).isSome) :
    (st.entry c).isSome := by
  induction reached with
  | init => exact known
  | visit _ _ _ ih => exact isSome_visit ih
  | @start st _ _ b _ _ unreached _ _ ih =>
    rcases eq_or_ne c b with rfl | other
    · rw [entry_start_self]
      rfl
    · rw [entry_start_of_ne other]
      exact ih

/-- A node is started if nothing leads to it. -/
theorem Reaches.cut (reached : P.Reaches initial queue fresh st seeds log) (queued : ∀ b, b ∈ queue ↔ (initial b).isSome)
    (empty : st.queue = []) (unreached : st.entry b = none) (before : ∀ c < b, (st.entry c).isSome) : P.Cut initial b := by
  intro c source way
  have known : (st.entry c).isSome := source.elim reached.isSome_initial (before c)
  have found := (reached.inv queued).reached empty known way
  rw [unreached] at found
  exact nomatch found

/-- What a node was started with: its initial value, or the fresh one if nothing leads to it. -/
theorem Reaches.seed_cases (reached : P.Reaches initial queue fresh st seeds log)
    (queued : ∀ b, b ∈ queue ↔ (initial b).isSome) {x : L} (seed : seeds b = some x) :
    initial b = some x ∨ P.Cut initial b ∧ x = fresh := by
  induction reached with
  | init => exact .inl seed
  | visit _ _ _ ih => exact ih seed
  | @start st _ _ c before empty unreached _ least ih =>
    rcases eq_or_ne b c with rfl | other
    · rw [Function.update_self] at seed
      exact .inr ⟨before.cut queued empty unreached least, (Option.some.inj seed).symm⟩
    · rw [Function.update_of_ne other] at seed
      exact ih seed

/-- The initial value of a node is among what it was started with. -/
theorem Reaches.seeds_initial (reached : P.Reaches initial queue fresh st seeds log) {x : L} (known : initial b = some x) :
    seeds b = some x := by
  induction reached with
  | init => exact known
  | visit _ _ _ ih => exact ih
  | @start st _ _ c before _ unreached _ _ ih =>
    have other : b ≠ c := by
      rintro rfl
      have reached := before.isSome_initial (Option.isSome_of_eq_some known)
      rw [unreached] at reached
      exact nomatch reached
    rw [Function.update_of_ne other]
    exact ih

/-- Values on which passing on is monotone, which the values of a run are among. -/
structure Tame (P : Problem L) (initial : ℕ → Option L) (fresh : L) (Good : ℕ → L → Prop) : Prop where
  goodInitial : ∀ s x, initial s = some x → Good s x
  goodFresh : ∀ s, P.Cut initial s → Good s fresh
  inf : ∀ s x y, Good s x → Good s y → Good s (x ⊓ y)
  transfer : ∀ b a, Good b a → ∀ s ∈ P.succs b, Good s (P.transfer b a)
  mono : ∀ b a a', Good b a → Good b a' → a ≤ a' → P.transfer b a ≤ P.transfer b a'

variable {Good : ℕ → L → Prop}

theorem Tame.good (tame : P.Tame initial fresh Good) (reached : P.Reaches initial queue fresh st seeds log)
    (queued : ∀ b, b ∈ queue ↔ (initial b).isSome) :
    (∀ s a, st.entry s = some a → Good s a) ∧ ∀ p ∈ log, Good p.1 p.2 := by
  induction reached with
  | init => exact ⟨tame.goodInitial, nofun⟩
  | @visit st _ _ b a _ _ known ih =>
    refine ⟨fun s a' now => ?_, fun p inside => ?_⟩
    · rw [entry_visit] at now
      split_ifs at now with target
      · obtain rfl := Option.some.inj now
        have passed := tame.transfer b a (ih.1 b a known) s target
        cases was : st.entry s with
        | none => exact passed
        | some old => exact tame.inf s _ _ (ih.1 s old was) passed
      · exact ih.1 s a' now
    · rcases List.mem_cons.mp inside with rfl | before
      · exact ih.1 b a known
      · exact ih.2 p before
  | @start st _ _ b before empty unreached _ least ih =>
    refine ⟨fun s a' now => ?_, ih.2⟩
    rcases eq_or_ne s b with rfl | other
    · obtain rfl := Option.some.inj (entry_start_self.symm.trans now)
      exact tame.goodFresh s (before.cut queued empty unreached least)
    · exact ih.1 s a' ((entry_start_of_ne other).symm.trans now)

/-- Where passing on is monotone, the value of a node is the meet of what its predecessors pass on from their final
values, and of what it was started with. -/
theorem Tame.meet (tame : P.Tame initial fresh Good) (reached : P.Reaches initial queue fresh st seeds log)
    (queued : ∀ b, b ∈ queue ↔ (initial b).isSome) (empty : st.queue = []) {s : ℕ} (known : st.entry s = some a) :
    IsGLB {x | seeds s = some x ∨ ∃ b a', st.entry b = some a' ∧ s ∈ P.succs b ∧ x = P.transfer b a'} a := by
  have inv := reached.inv queued
  obtain ⟨good, goodLog⟩ := tame.good reached queued
  obtain ⟨below, greatest⟩ := inv.meet s a known
  constructor
  · rintro x (seed | ⟨b, a', final, target, rfl⟩)
    · exact below (.inl seed)
    · exact below (.inr ⟨(b, a'), (inv.settled empty final target).1, target, rfl⟩)
  · intro y lower
    apply greatest
    rintro x (seed | ⟨p, inside, target, rfl⟩)
    · exact lower (.inl seed)
    · obtain ⟨a', final, fell⟩ := inv.fell p inside
      exact (lower (.inr ⟨p.1, a', final, target, rfl⟩)).trans
        (tame.mono p.1 a' p.2 (good p.1 a' final) (goodLog p inside) fell)

/-- A solution lies below every value of a run that starts above it. -/
theorem Tame.greatest (tame : P.Tame initial fresh Good) (reached : P.Reaches initial queue fresh st seeds log)
    (queued : ∀ b, b ∈ queue ↔ (initial b).isSome) {value : ℕ → L} (good : ∀ s, Good s (value s))
    (start : ∀ s x, initial s = some x → value s ≤ x) (cut : ∀ s, P.Cut initial s → value s ≤ fresh)
    (solves : ∀ b, ∀ s ∈ P.succs b, value s ≤ P.transfer b (value b)) {s : ℕ} (known : st.entry s = some a) :
    value s ≤ a := by
  induction reached generalizing s a with
  | init => exact start s a known
  | @visit st _ _ b old before _ was ih =>
    rw [entry_visit] at known
    split_ifs at known with target
    · obtain rfl := Option.some.inj known
      have passed : value s ≤ P.transfer b old :=
        (solves b s target).trans (tame.mono b _ _ (good b) ((tame.good before queued).1 b old was) (ih was))
      cases there : st.entry s with
      | none => exact passed
      | some known => exact le_inf (ih there) passed
    · exact ih known
  | @start st _ _ b before empty unreached _ least ih =>
    rcases eq_or_ne s b with rfl | other
    · obtain rfl := Option.some.inj (entry_start_self.symm.trans known)
      exact cut s (before.cut queued empty unreached least)
    · exact ih ((entry_start_of_ne other).symm.trans known)

end Runs

section Termination

variable (P) {fresh : L}

/-- A step of a run: a node that waits is visited, or one that nothing reached is started. -/
inductive Step (fresh : L) : State L → State L → Prop
  | visit {st : State L} {b : ℕ} {a : L} : b ∈ st.queue → st.entry b = some a → Step fresh st (P.visit st b a)
  | start {st : State L} {b : ℕ} : st.queue = [] → st.entry b = none → b < P.size → (∀ c < b, (st.entry c).isSome) →
      Step fresh st (Problem.start fresh st b)

/-- The value of every node, an unknown one being above all others. -/
def level (st : State L) (i : Fin P.size) : WithTop L := st.entry i

variable {P}

theorem level_visit_le : P.level (P.visit st b a) ≤ P.level st := by
  intro i
  unfold level
  cases known : st.entry i with
  | none => exact le_top
  | some old =>
    obtain ⟨a', now, below⟩ := @le_of_visit _ _ _ P st b a i old known
    rw [now]
    exact WithTop.coe_le_coe.mpr below

/-- A visit makes values fall, or it makes the queue shorter. -/
theorem level_visit (waits : b ∈ st.queue) : P.level (P.visit st b a) < P.level st ∨
    P.level (P.visit st b a) = P.level st ∧ (P.visit st b a).queue.length < st.queue.length := by
  by_cases same : ∀ s ∈ P.succs b, some (State.met (P.transfer b a) (st.entry s)) = st.entry s
  · have kept : P.visit st b a = { st with queue := st.queue.erase b } := State.deliverAll_of_met same
    rw [kept]
    refine .inr ⟨rfl, ?_⟩
    have nonempty : 0 < st.queue.length := List.length_pos_of_mem waits
    calc (st.queue.erase b).length
      _ = st.queue.length - 1 := List.length_erase_of_mem waits
      _ < st.queue.length := Nat.sub_lt nonempty Nat.one_pos
  · push Not at same
    obtain ⟨s, target, fell⟩ := same
    refine .inl (lt_of_le_of_ne level_visit_le fun same => fell ?_)
    have here := congrFun same ⟨s, P.bounded b s target⟩
    change (P.visit st b a).entry s = st.entry s at here
    rwa [entry_visit, if_pos target] at here

omit [DecidableEq L] in
theorem level_start (unreached : st.entry b = none) (inside : b < P.size) : P.level (Problem.start a st b) < P.level st := by
  have elsewhere : ∀ i : Fin P.size, (i : ℕ) ≠ b → P.level (Problem.start a st b) i = P.level st i :=
    fun i other => entry_start_of_ne other
  have here : P.level (Problem.start a st b) ⟨b, inside⟩ = some a := entry_start_self
  have top : P.level st ⟨b, inside⟩ = ⊤ := unreached
  refine lt_of_le_of_ne (fun i => ?_) fun same => ?_
  · rcases eq_or_ne (i : ℕ) b with rfl | other
    · exact le_top.trans_eq top.symm
    · exact (elsewhere i other).le
  · have now := congrFun same ⟨b, inside⟩
    rw [here, top] at now
    exact WithTop.coe_ne_top now

variable (P) in
/-- What falls in every step. -/
def measure (st : State L) : (Fin P.size → WithTop L) ×ₗ ℕ := toLex (P.level st, st.queue.length)

theorem measure_visit (waits : b ∈ st.queue) : P.measure (P.visit st b a) < P.measure st := by
  rcases @level_visit _ _ _ P st b a waits with fell | ⟨same, shorter⟩
  · exact Prod.Lex.toLex_lt_toLex.mpr (.inl fell)
  · exact Prod.Lex.toLex_lt_toLex.mpr (.inr ⟨same, shorter⟩)

/-- Every run ends, whatever node is taken from the queue. -/
theorem wellFounded_step [WellFoundedLT L] : WellFounded fun st' st => P.Step fresh st st' := by
  refine Subrelation.wf ?_ (InvImage.wf P.measure wellFounded_lt)
  rintro st' st (⟨waits, -⟩ | ⟨-, unreached, inside, -⟩)
  · exact measure_visit waits
  · exact Prod.Lex.toLex_lt_toLex.mpr (.inl (level_start unreached inside))

variable (P) in
/-- Visits the nodes in the order of the queue until none waits. -/
def drain [WellFoundedLT L] (st : State L) : State L :=
  match _ : st.queue with
  | [] => st
  | b :: _ =>
    match st.entry b with
    | none => st
    | some a => drain (P.visit st b a)
termination_by wellFounded_lt.wrap (P.measure st)
decreasing_by
  exact measure_visit (by rw [‹st.queue = _›]; exact List.mem_cons_self)

variable (P) in
/-- Starts the nodes that nothing reached, the first one first. -/
def settle [WellFoundedLT L] (fresh : L) (next : ℕ) (st : State L) : State L :=
  match _ : (List.range' next (P.size - next)).find? fun b => ((P.drain st).entry b).isNone with
  | none => P.drain st
  | some b => settle fresh (b + 1) (Problem.start fresh (P.drain st) b)
termination_by P.size - next
decreasing_by
  rename_i found
  have inside := List.mem_range'_1.mp (List.mem_of_find?_eq_some found)
  omega

variable [WellFoundedLT L] {initial : ℕ → Option L} {queue : List ℕ}

theorem drain_of_nil (empty : st.queue = []) : P.drain st = st := by
  rw [Problem.drain]
  split
  · rfl
  · rename_i waiting
    rw [empty] at waiting
    exact nomatch waiting

theorem drain_of_cons {rest : List ℕ} (waiting : st.queue = b :: rest) (known : st.entry b = some a) :
    P.drain st = P.drain (P.visit st b a) := by
  rw [Problem.drain]
  split
  · rename_i empty
    rw [empty] at waiting
    exact nomatch waiting
  · rename_i first _ same
    obtain ⟨rfl, rfl⟩ := List.cons.inj (same.symm.trans waiting)
    rw [known]

theorem Reaches.drain (reached : P.Reaches initial queue fresh st seeds log)
    (queued : ∀ b, b ∈ queue ↔ (initial b).isSome) :
    (P.drain st).queue = [] ∧ ∃ log', P.Reaches initial queue fresh (P.drain st) seeds log' := by
  fun_induction Problem.drain P st generalizing log with
  | case1 st empty => exact ⟨empty, log, reached⟩
  | case2 st b rest waiting unknown =>
    have known := (reached.inv queued).waits b (waiting ▸ List.mem_cons_self)
    rw [unknown] at known
    exact nomatch known
  | case3 st b rest waiting a known ih =>
    exact ih (reached.visit (waiting ▸ List.mem_cons_self) known)

theorem isSome_drain {c : ℕ} (known : (st.entry c).isSome) : ((P.drain st).entry c).isSome := by
  fun_induction Problem.drain P st with
  | case1 st empty => exact known
  | case2 st b rest waiting unknown => exact known
  | case3 st b rest waiting a _ ih => exact ih (isSome_visit known)

/-- Starting what nothing reached ends in a run in which every node has been visited with the value it has. -/
theorem Reaches.settle {next : ℕ} (reached : P.Reaches initial queue fresh st seeds log)
    (queued : ∀ b, b ∈ queue ↔ (initial b).isSome) (before : ∀ c < next, (st.entry c).isSome) :
    (P.settle fresh next st).queue = [] ∧ (∀ b < P.size, ((P.settle fresh next st).entry b).isSome) ∧
      ∃ seeds' log', P.Reaches initial queue fresh (P.settle fresh next st) seeds' log' := by
  fun_induction Problem.settle P fresh next st generalizing seeds log with
  | case1 next st found =>
    obtain ⟨empty, log', drained⟩ := reached.drain queued
    refine ⟨empty, fun b inside => ?_, seeds, log', drained⟩
    rcases lt_or_ge b next with early | late
    · exact isSome_drain (before b early)
    · have reached := List.find?_range'_eq_none.mp found b late (by omega)
      rwa [Option.not_isNone] at reached
  | case2 next st b found ih =>
    obtain ⟨empty, log', drained⟩ := reached.drain queued
    obtain ⟨unreached, inside, least⟩ := List.find?_range'_eq_some.mp found
    have inside := List.mem_range'_1.mp inside
    have known : ∀ c < b, ((P.drain st).entry c).isSome := by
      intro c here
      rcases lt_or_ge c next with early | late
      · exact isSome_drain (before c early)
      · have reached := least c late here
        rwa [Option.not_isNone] at reached
    have started := drained.start empty (Option.isNone_iff_eq_none.mp unreached) (by omega) known
    refine ih started fun c here => ?_
    rcases eq_or_ne c b with rfl | other
    · rw [entry_start_self]
      rfl
    · rw [entry_start_of_ne other]
      exact known c (by omega)

/-- Where everything is reached nothing is started. -/
theorem settle_of_reached {next : ℕ} (all : ∀ b < P.size, ((P.drain st).entry b).isSome) :
    P.settle fresh next st = P.drain st := by
  rw [Problem.settle]
  split
  · rfl
  · rename_i b found
    obtain ⟨unreached, inside, -⟩ := List.find?_range'_eq_some.mp found
    have inside := List.mem_range'_1.mp inside
    have reached := all b (by omega)
    rw [Option.isNone_iff_eq_none.mp unreached] at reached
    exact nomatch reached

omit [WellFoundedLT L] in
/-- A run that can go no further has visited every node with the value it has. -/
theorem Reaches.ended (reached : P.Reaches initial queue fresh st seeds log) (queued : ∀ b, b ∈ queue ↔ (initial b).isSome)
    (stuck : ∀ st', ¬ P.Step fresh st st') : st.queue = [] ∧ ∀ b < P.size, (st.entry b).isSome := by
  have empty : st.queue = [] := by
    rw [List.eq_nil_iff_forall_not_mem]
    intro b waits
    obtain ⟨a, known⟩ := Option.isSome_iff_exists.mp ((reached.inv queued).waits b waits)
    exact stuck _ (.visit waits known)
  refine ⟨empty, fun b => ?_⟩
  induction b using Nat.strong_induction_on with
  | _ b ih =>
    intro inside
    by_contra unreached
    rw [Option.not_isSome_iff_eq_none] at unreached
    exact stuck _ (.start empty unreached inside fun c before => ih c before (before.trans inside))

end Termination

end Problem

end Ctadl.Graph.Dataflow
