import Mathlib.Algebra.BigOperators.Group.Finset.Basic
import Mathlib.Data.Finset.Card
import Mathlib.Data.Finset.Filter
import Mathlib.Logic.Relation

/-! # Searches that thread an annotation

A graph whose edges carry labels, and an annotation that every edge may change or be pruned by. A
state of a search is a node with the annotation it was reached with. The breadth-first search from a
set of nodes visits every state the nodes reach, and keeps the state each was first reached from; the
depth-first search from one node finds a path to a target state exactly when one is reached.
-/

namespace Ctadl.Graph

/-- Labelled edges, the annotation of a start, and how an edge changes an annotation, or prunes. -/
structure AnnotatedGraph (N L A : Type*) where
  labeledSuccessors : N → List (N × L)
  start : A
  expand : A → N → L → N → Option A

namespace AnnotatedGraph

variable {N L A : Type*}

/-- One step of a search: an edge that the annotation may cross. -/
def Step (g : AnnotatedGraph N L A) (s t : N × A) : Prop :=
  ∃ label, (t.1, label) ∈ g.labeledSuccessors s.1 ∧ g.expand s.2 s.1 label t.1 = some t.2

/-- The states some nodes reach. -/
def Reached (g : AnnotatedGraph N L A) (starts : List N) (s : N × A) : Prop :=
  ∃ n ∈ starts, Relation.ReflTransGen g.Step (n, g.start) s

theorem Reached.start {g : AnnotatedGraph N L A} {starts : List N} {n : N} (mem : n ∈ starts) :
    g.Reached starts (n, g.start) := ⟨n, mem, .refl⟩

theorem Reached.tail {g : AnnotatedGraph N L A} {starts : List N} {s t : N × A} (reached : g.Reached starts s)
    (step : g.Step s t) : g.Reached starts t := by
  obtain ⟨n, mem, walk⟩ := reached
  exact ⟨n, mem, walk.tail step⟩

/-- A property that starts have and steps keep holds of every state reached. -/
theorem Reached.rule {g : AnnotatedGraph N L A} {starts : List N} {p : N × A → Prop}
    (begins : ∀ n ∈ starts, p (n, g.start)) (keeps : ∀ s t, p s → g.Step s t → p t) {s : N × A}
    (reached : g.Reached starts s) : p s := by
  obtain ⟨n, mem, walk⟩ := reached
  induction walk with
  | refl => exact begins n mem
  | tail _ step ih => exact keeps _ _ ih step

/-- A finite set that holds the starts and every step out of it. -/
structure Bounds (g : AnnotatedGraph N L A) (starts : List N) (bound : Finset (N × A)) : Prop where
  start : ∀ n ∈ starts, (n, g.start) ∈ bound
  step : ∀ s ∈ bound, ∀ t, g.Step s t → t ∈ bound

theorem Bounds.reached {g : AnnotatedGraph N L A} {starts : List N} {bound : Finset (N × A)}
    (bounds : g.Bounds starts bound) {s : N × A} (reached : g.Reached starts s) : s ∈ bound :=
  reached.rule bounds.start fun s t mem step => bounds.step s mem t step

end AnnotatedGraph

/-- One state reached by a search, linked to the state it was first reached from. -/
structure SearchState (N L A : Type*) where
  node : N
  annot : A
  parent : Option ℕ
  edge : Option L

namespace SearchState

/-- What a state is visited under. -/
def key {N L A : Type*} (st : SearchState N L A) : N × A := (st.node, st.annot)

end SearchState

/-- The states reached so far in discovery order, those that are targets, and those to expand. -/
structure AnnotatedSetSearch (N L A : Type*) where
  states : List (SearchState N L A)
  targets : List ℕ
  queue : List ℕ

namespace AnnotatedSetSearch

variable {N L A : Type*} [DecidableEq N] [DecidableEq A] {g : AnnotatedGraph N L A} {isTarget : N → A → Bool}
  {search : AnnotatedSetSearch N L A} {starts : List N} {st : SearchState N L A}

/-- The visited keys are those of the states. -/
def Visited (search : AnnotatedSetSearch N L A) (k : N × A) : Prop := k ∈ search.states.map SearchState.key

instance (search : AnnotatedSetSearch N L A) (k : N × A) : Decidable (search.Visited k) :=
  inferInstanceAs (Decidable (k ∈ search.states.map SearchState.key))

/-- Reach a state, unless its key was reached before. -/
def visit (isTarget : N → A → Bool) (search : AnnotatedSetSearch N L A) (st : SearchState N L A) :
    AnnotatedSetSearch N L A :=
  if search.Visited st.key then search
  else
    { states := search.states ++ [st]
      targets :=
        if isTarget st.node st.annot then search.targets ++ [search.states.length] else search.targets
      queue := search.queue ++ [search.states.length] }

/-- Follow one edge out of a state. -/
def follow (g : AnnotatedGraph N L A) (isTarget : N → A → Bool) (cur : ℕ) (st : SearchState N L A)
    (search : AnnotatedSetSearch N L A) (succ : N × L) : AnnotatedSetSearch N L A :=
  match g.expand st.annot st.node succ.2 succ.1 with
  | none => search
  | some annot => search.visit isTarget ⟨succ.1, annot, some cur, some succ.2⟩

/-- Expand states from the front of the queue until it is empty or the fuel is gone. -/
def drain (g : AnnotatedGraph N L A) (isTarget : N → A → Bool) :
    ℕ → AnnotatedSetSearch N L A → AnnotatedSetSearch N L A
  | 0, search => search
  | fuel + 1, search =>
    match search.queue with
    | [] => search
    | cur :: queue =>
      match search.states[cur]? with
      | none => drain g isTarget fuel { search with queue }
      | some st =>
        drain g isTarget fuel ((g.labeledSuccessors st.node).foldl (follow g isTarget cur st) { search with queue })

/-- Reach a start node. -/
def seed (g : AnnotatedGraph N L A) (isTarget : N → A → Bool) (search : AnnotatedSetSearch N L A) (node : N) :
    AnnotatedSetSearch N L A :=
  search.visit isTarget ⟨node, g.start, none, none⟩

/-- Find annotated paths from a set of start nodes to every reachable target, breadth first. -/
def findAnnotatedPathsFromSet (g : AnnotatedGraph N L A) (isTarget : N → A → Bool) (fuel : ℕ) (starts : List N) :
    AnnotatedSetSearch N L A :=
  drain g isTarget fuel (starts.foldl (seed g isTarget) ⟨[], [], []⟩)

/-- The states from `cur` up to its start. -/
def pathUp (states : List (SearchState N L A)) : ℕ → ℕ → List ℕ
  | 0, cur => [cur]
  | fuel + 1, cur =>
    match states[cur]?.bind SearchState.parent with
    | none => [cur]
    | some parent => cur :: pathUp states fuel parent

/-- The path from a start state to `state`, start first. A parent is older than its children, so
`state` bounds the walk. -/
def pathTo (search : AnnotatedSetSearch N L A) (state : ℕ) : List ℕ := (pathUp search.states state state).reverse

/-- Where a state came from: a start, or an older state by an edge. -/
inductive Grown (g : AnnotatedGraph N L A) (starts : List N) (states : List (SearchState N L A)) (i : ℕ) :
    SearchState N L A → Prop
  | start {n : N} (mem : n ∈ starts) : Grown g starts states i ⟨n, g.start, none, none⟩
  | edge {p : ℕ} {origin : SearchState N L A} {next : N} {annot : A} {label : L} (older : p < i)
      (stored : states[p]? = some origin) (succ : (next, label) ∈ g.labeledSuccessors origin.node)
      (crosses : g.expand origin.annot origin.node label next = some annot) :
      Grown g starts states i ⟨next, annot, some p, some label⟩

omit [DecidableEq N] [DecidableEq A] in
theorem Grown.append {states : List (SearchState N L A)} {i : ℕ} (grown : Grown g starts states i st)
    (more : List (SearchState N L A)) : Grown g starts (states ++ more) i st := by
  cases grown with
  | start mem => exact .start mem
  | @edge p origin next annot label older stored succ crosses =>
    have kept : (states ++ more)[p]? = some origin :=
      (List.getElem?_append_left (List.getElem?_eq_some_iff.mp stored).1).trans stored
    exact .edge older kept succ crosses

/-- What every visit keeps, given the states that are expanded or in the queue. -/
structure Inv (g : AnnotatedGraph N L A) (isTarget : N → A → Bool) (starts : List N) (search : AnnotatedSetSearch N L A) :
    Prop where
  distinct : (search.states.map SearchState.key).Nodup
  grown : ∀ i st, search.states[i]? = some st → Grown g starts search.states i st
  targets : ∀ i, i ∈ search.targets ↔ ∃ st, search.states[i]? = some st ∧ isTarget st.node st.annot
  queued : ∀ i ∈ search.queue, i < search.states.length

/-- Every state but those in the queue and `busy` has its successors visited. -/
def Closed (g : AnnotatedGraph N L A) (busy : Option ℕ) (search : AnnotatedSetSearch N L A) : Prop :=
  ∀ i st, search.states[i]? = some st → i ∉ search.queue → busy ≠ some i → ∀ t, g.Step st.key t → search.Visited t

theorem visit_of_visited (visited : search.Visited st.key) : search.visit isTarget st = search := if_pos visited

theorem states_visit_of_not (fresh : ¬ search.Visited st.key) :
    (search.visit isTarget st).states = search.states ++ [st] := by
  rw [visit, if_neg fresh]

theorem queue_visit_of_not (fresh : ¬ search.Visited st.key) :
    (search.visit isTarget st).queue = search.queue ++ [search.states.length] := by
  rw [visit, if_neg fresh]

theorem prefix_visit : search.states <+: (search.visit isTarget st).states := by
  by_cases visited : search.Visited st.key
  · rw [visit_of_visited visited]
  · rw [states_visit_of_not visited]
    exact List.prefix_append ..

omit [DecidableEq N] [DecidableEq A] in
theorem stored_of_initial {more : AnnotatedSetSearch N L A} (grows : search.states <+: more.states) {i : ℕ}
    (inside : i < search.states.length) : more.states[i]? = search.states[i]? := by
  obtain ⟨rest, eq⟩ := grows
  rw [← eq, List.getElem?_append_left inside]

omit [DecidableEq N] [DecidableEq A] in
theorem visited_of_initial {more : AnnotatedSetSearch N L A} (grows : search.states <+: more.states) {k : N × A}
    (visited : search.Visited k) : more.Visited k :=
  (grows.map SearchState.key).subset visited

theorem visited_visit {k : N × A} : (search.visit isTarget st).Visited k ↔ k = st.key ∨ search.Visited k := by
  by_cases old : search.Visited st.key
  · rw [visit_of_visited old]
    constructor
    · exact .inr
    · rintro (rfl | visited)
      exacts [old, visited]
  · simp only [Visited, states_visit_of_not old, List.map_append, List.mem_append, List.map_cons, List.map_nil,
      List.mem_singleton]
    exact or_comm

theorem Inv.visit (inv : Inv g isTarget starts search) (grown : Grown g starts search.states search.states.length st) :
    Inv g isTarget starts (search.visit isTarget st) := by
  by_cases visited : search.Visited st.key
  · rw [visit_of_visited visited]
    exact inv
  · have at_end (i : ℕ) (other : SearchState N L A) : (search.states ++ [st])[i]? = some other ↔
        search.states[i]? = some other ∨ i = search.states.length ∧ other = st := by
      rw [List.getElem?_append]
      split_ifs with inside
      · simp [Nat.ne_of_lt inside]
      · rw [List.getElem?_singleton, List.getElem?_eq_none (by omega)]
        split_ifs with last
        · have same : i = search.states.length := by omega
          simp [same, eq_comm]
        · have differs : i ≠ search.states.length := by omega
          simp [differs]
    refine ⟨?_, ?_, ?_, ?_⟩
    · rw [states_visit_of_not visited, List.map_append]
      exact inv.distinct.append (List.nodup_singleton _) (List.disjoint_singleton.mpr visited)
    · intro i other stored
      rw [states_visit_of_not visited] at stored ⊢
      rcases (at_end i other).mp stored with old | ⟨rfl, rfl⟩
      · exact (inv.grown i other old).append [st]
      · exact grown.append [_]
    · intro i
      have at_target : i ∈ (search.visit isTarget st).targets ↔
          i ∈ search.targets ∨ i = search.states.length ∧ isTarget st.node st.annot := by
        rw [AnnotatedSetSearch.visit, if_neg visited]
        split_ifs with target
        · simp [target]
        · simp [target]
      rw [at_target, inv.targets, states_visit_of_not visited]
      simp only [at_end]
      constructor
      · rintro (⟨other, stored, target⟩ | ⟨rfl, target⟩)
        · exact ⟨other, .inl stored, target⟩
        · exact ⟨st, .inr ⟨rfl, rfl⟩, target⟩
      · rintro ⟨other, stored | ⟨rfl, rfl⟩, target⟩
        · exact .inl ⟨other, stored, target⟩
        · exact .inr ⟨rfl, target⟩
    · intro i mem
      rw [queue_visit_of_not visited, List.mem_append, List.mem_singleton] at mem
      rw [states_visit_of_not visited, List.length_append, List.length_singleton]
      rcases mem with old | rfl
      · have := inv.queued i old
        omega
      · omega

theorem Closed.visit {busy : Option ℕ} (closed : Closed g busy search) :
    Closed g busy (search.visit isTarget st) := by
  by_cases visited : search.Visited st.key
  · rw [visit_of_visited visited]
    exact closed
  · intro i other stored off idle t step
    rw [queue_visit_of_not visited, List.mem_append, List.mem_singleton, not_or] at off
    rw [states_visit_of_not visited] at stored
    have inside : i < search.states.length := by
      have := (List.getElem?_eq_some_iff.mp stored).1
      rw [List.length_append, List.length_singleton] at this
      omega
    rw [List.getElem?_append_left inside] at stored
    exact visited_visit.mpr (.inr (closed i other stored off.1 idle t step))

/-- A property that following each of some edges keeps is kept by following all of them. -/
theorem foldl_follow {cur : ℕ} (keeps : AnnotatedSetSearch N L A → Prop) (succs : List (N × L))
    (step : ∀ search, ∀ succ ∈ succs, ∀ annot, g.expand st.annot st.node succ.2 succ.1 = some annot → keeps search →
      keeps (search.visit isTarget ⟨succ.1, annot, some cur, some succ.2⟩)) (before : keeps search) :
    keeps (succs.foldl (follow g isTarget cur st) search) := by
  induction succs generalizing search with
  | nil => exact before
  | cons succ succs ih =>
    refine ih (fun other s mem => step other s (.tail _ mem)) ?_
    unfold follow
    split
    · exact before
    · next annot crosses => exact step search succ (.head _) annot crosses before

theorem prefix_foldl_follow (search : AnnotatedSetSearch N L A) {cur : ℕ} (succs : List (N × L)) :
    search.states <+: (succs.foldl (follow g isTarget cur st) search).states :=
  foldl_follow (fun other => search.states <+: other.states) succs
    (fun _ _ _ _ _ grows => grows.trans prefix_visit) List.prefix_rfl

/-- Following the edges of a state visits every state they lead to. -/
theorem visited_foldl_follow {cur : ℕ} {succs : List (N × L)} {succ : N × L} {annot : A} (mem : succ ∈ succs)
    (crosses : g.expand st.annot st.node succ.2 succ.1 = some annot) :
    (succs.foldl (follow g isTarget cur st) search).Visited (succ.1, annot) := by
  induction succs generalizing search with
  | nil => exact absurd mem List.not_mem_nil
  | cons other succs ih =>
    rw [List.foldl_cons]
    rcases List.mem_cons.mp mem with rfl | later
    · apply visited_of_initial (prefix_foldl_follow _ succs)
      unfold follow
      rw [crosses]
      exact visited_visit.mpr (.inl rfl)
    · exact ih later

/-- What one turn of the loop keeps. -/
theorem Inv.turn {cur : ℕ} {queue : List ℕ} (inv : Inv g isTarget starts search) (front : search.queue = cur :: queue)
    (stored : search.states[cur]? = some st) :
    Inv g isTarget starts ((g.labeledSuccessors st.node).foldl (follow g isTarget cur st) { search with queue }) := by
  have kept : Inv g isTarget starts { search with queue } ∧
      ({ search with queue } : AnnotatedSetSearch N L A).states[cur]? = some st :=
    ⟨⟨inv.distinct, inv.grown, inv.targets, fun i mem => inv.queued i (front ▸ .tail _ mem)⟩, stored⟩
  refine (foldl_follow (fun other => Inv g isTarget starts other ∧ other.states[cur]? = some st) _ ?_ kept).1
  rintro other succ mem annot crosses ⟨holds, there⟩
  have inside := (List.getElem?_eq_some_iff.mp there).1
  refine ⟨holds.visit (.edge inside there mem crosses), ?_⟩
  have grows : other.states <+: (other.visit isTarget ⟨succ.1, annot, some cur, some succ.2⟩).states := prefix_visit
  exact (stored_of_initial grows inside).trans there

theorem Closed.turn {cur : ℕ} {queue : List ℕ} (closed : Closed g none search) (front : search.queue = cur :: queue)
    (stored : search.states[cur]? = some st) :
    Closed g none ((g.labeledSuccessors st.node).foldl (follow g isTarget cur st) { search with queue }) := by
  have busy : Closed g (some cur) { search with queue } := by
    intro i other there off idle t step
    refine closed i other there ?_ nofun t step
    rw [front, List.mem_cons, not_or]
    exact ⟨fun same => idle (congrArg some same.symm), off⟩
  have after : Closed g (some cur)
      ((g.labeledSuccessors st.node).foldl (follow g isTarget cur st) { search with queue }) :=
    foldl_follow (Closed g (some cur)) _ (fun _ _ _ _ _ holds => holds.visit) busy
  intro i other there off _ t step
  by_cases same : cur = i
  · subst same
    have inside := (List.getElem?_eq_some_iff.mp stored).1
    have grows : search.states <+:
        ((g.labeledSuccessors st.node).foldl (follow g isTarget cur st) { search with queue }).states :=
      prefix_foldl_follow { search with queue } _
    cases (stored_of_initial grows inside).symm.trans there |>.symm.trans stored
    obtain ⟨label, mem, crosses⟩ := step
    exact visited_foldl_follow mem crosses
  · exact after i other there off (fun busy => same (Option.some.inj busy)) t step

/-- The states a bound still allows, and those in the queue. -/
def measure (bound : Finset (N × A)) (search : AnnotatedSetSearch N L A) : ℕ :=
  search.queue.length + (bound.filter fun k => ¬ search.Visited k).card

theorem measure_visit {bound : Finset (N × A)} (inside : st.key ∈ bound) :
    (search.visit isTarget st).measure bound ≤ search.measure bound := by
  by_cases visited : search.Visited st.key
  · rw [visit_of_visited visited]
  · have fewer : (bound.filter fun k => ¬ (search.visit isTarget st).Visited k).card <
        (bound.filter fun k => ¬ search.Visited k).card := by
      apply Finset.card_lt_card
      refine ⟨fun k kept => ?_, fun all => ?_⟩
      · simp only [Finset.mem_filter, visited_visit, not_or] at kept ⊢
        exact ⟨kept.1, kept.2.2⟩
      · have still := all (Finset.mem_filter.mpr ⟨inside, visited⟩)
        simp [visited_visit] at still
    simp only [measure, queue_visit_of_not visited, List.length_append, List.length_singleton]
    omega

omit [DecidableEq N] [DecidableEq A] in
/-- Every state of a search is reached. -/
theorem Inv.reached (inv : Inv g isTarget starts search) {i : ℕ} (stored : search.states[i]? = some st) :
    g.Reached starts st.key := by
  induction i using Nat.strong_induction_on generalizing st with
  | _ i ih =>
    cases inv.grown i st stored with
    | start mem => exact .start mem
    | edge older there succ crosses => exact (ih _ older there).tail ⟨_, succ, crosses⟩

omit [DecidableEq N] [DecidableEq A] in
theorem Inv.visited_reached (inv : Inv g isTarget starts search) {k : N × A} (visited : search.Visited k) :
    g.Reached starts k := by
  obtain ⟨st, mem, rfl⟩ := List.mem_map.mp visited
  obtain ⟨i, stored⟩ := List.mem_iff_getElem?.mp mem
  exact inv.reached stored

theorem measure_pop (bound : Finset (N × A)) {cur : ℕ} {queue : List ℕ} (front : search.queue = cur :: queue) :
    ({ search with queue } : AnnotatedSetSearch N L A).measure bound + 1 = search.measure bound := by
  simp only [measure, front, List.length_cons]
  change queue.length + (bound.filter fun k => ¬ search.Visited k).card + 1 = _
  omega

/-- With enough fuel draining empties the queue, keeps the invariant and closes the states. -/
theorem Inv.drain {bound : Finset (N × A)} {fuel : ℕ} (inv : Inv g isTarget starts search) (closed : Closed g none search)
    (bounds : g.Bounds starts bound) (enough : search.measure bound ≤ fuel) :
    Inv g isTarget starts (drain g isTarget fuel search) ∧ Closed g none (drain g isTarget fuel search) ∧
      (AnnotatedSetSearch.drain g isTarget fuel search).queue = [] ∧
      search.states <+: (AnnotatedSetSearch.drain g isTarget fuel search).states := by
  induction fuel generalizing search with
  | zero =>
    have empty : search.queue = [] := by
      simp only [measure] at enough
      exact List.length_eq_zero_iff.mp (by omega)
    exact ⟨inv, closed, empty, List.prefix_rfl⟩
  | succ fuel ih =>
    unfold AnnotatedSetSearch.drain
    split
    · next empty => exact ⟨inv, closed, empty, List.prefix_rfl⟩
    · next cur queue front =>
      have popped := measure_pop bound front
      split
      · next missing =>
        have inside := inv.queued cur (front ▸ .head _)
        rw [List.getElem?_eq_none_iff] at missing
        omega
      · next st stored =>
        have here := bounds.reached (inv.reached stored)
        have shrinks : ((g.labeledSuccessors st.node).foldl (follow g isTarget cur st) { search with queue }).measure
            bound ≤ ({ search with queue } : AnnotatedSetSearch N L A).measure bound :=
          foldl_follow (fun other => other.measure bound ≤ _) _
            (fun other succ mem annot crosses le =>
              (measure_visit (bounds.step _ here (succ.1, annot) ⟨succ.2, mem, crosses⟩)).trans le)
            le_rfl
        obtain ⟨kept, shut, empty, grows⟩ := ih (inv.turn front stored) (closed.turn front stored) (by omega)
        exact ⟨kept, shut, empty, (prefix_foldl_follow { search with queue } _).trans grows⟩

/-- Visiting starts keeps what a search keeps, and visits them. -/
theorem Inv.seed {seeds : List N} (inv : Inv g isTarget starts search) (closed : Closed g none search)
    (subset : seeds ⊆ starts) :
    Inv g isTarget starts (seeds.foldl (seed g isTarget) search) ∧ Closed g none (seeds.foldl (seed g isTarget) search) ∧
      search.states <+: (seeds.foldl (seed g isTarget) search).states ∧
      ∀ n ∈ seeds, (seeds.foldl (seed g isTarget) search).Visited (n, g.start) := by
  induction seeds generalizing search with
  | nil => exact ⟨inv, closed, List.prefix_rfl, fun _ mem => absurd mem List.not_mem_nil⟩
  | cons n seeds ih =>
    have grown : Grown g starts search.states search.states.length ⟨n, g.start, none, none⟩ :=
      .start (subset (.head _))
    obtain ⟨kept, shut, grows, visited⟩ := ih (inv.visit grown) closed.visit fun _ mem => subset (.tail _ mem)
    refine ⟨kept, shut, prefix_visit.trans grows, fun m mem => ?_⟩
    rcases List.mem_cons.mp mem with rfl | later
    · exact visited_of_initial grows (visited_visit.mpr (.inl rfl))
    · exact visited m later

theorem measure_seed {bound : Finset (N × A)} {seeds : List N} (inside : ∀ n ∈ seeds, (n, g.start) ∈ bound) :
    (seeds.foldl (seed g isTarget) search).measure bound ≤ search.measure bound := by
  induction seeds generalizing search with
  | nil => exact le_rfl
  | cons n seeds ih =>
    exact (ih fun m mem => inside m (.tail _ mem)).trans (measure_visit (inside n (.head _)))

/-- A finished search keeps the invariant, and visits exactly the states its starts reach. -/
structure Finished (g : AnnotatedGraph N L A) (isTarget : N → A → Bool) (starts : List N)
    (search : AnnotatedSetSearch N L A) : Prop extends Inv g isTarget starts search where
  visited_iff : ∀ k, search.Visited k ↔ g.Reached starts k

theorem inv_seeds (g : AnnotatedGraph N L A) (isTarget : N → A → Bool) (starts : List N) :
    Inv g isTarget starts (starts.foldl (seed g isTarget) ⟨[], [], []⟩) ∧
      Closed g none (starts.foldl (seed g isTarget) ⟨[], [], []⟩) ∧
      ∀ n ∈ starts, (starts.foldl (seed g isTarget) ⟨[], [], []⟩).Visited (n, g.start) := by
  have none_yet : Inv g isTarget starts ⟨[], [], []⟩ := ⟨List.nodup_nil, by simp, by simp, by simp⟩
  have nothing_open : Closed g none (⟨[], [], []⟩ : AnnotatedSetSearch N L A) := by simp [Closed]
  obtain ⟨inv, closed, -, visited⟩ := none_yet.seed nothing_open (List.Subset.refl starts)
  exact ⟨inv, closed, visited⟩

/-- With fuel for a bound of the states the search runs to its end. -/
theorem drained (isTarget : N → A → Bool) {bound : Finset (N × A)} {fuel : ℕ} (bounds : g.Bounds starts bound)
    (enough : bound.card ≤ fuel) :
    Inv g isTarget starts (findAnnotatedPathsFromSet g isTarget fuel starts) ∧
      Closed g none (findAnnotatedPathsFromSet g isTarget fuel starts) ∧
      (findAnnotatedPathsFromSet g isTarget fuel starts).queue = [] ∧
      (starts.foldl (seed g isTarget) ⟨[], [], []⟩).states <+:
        (findAnnotatedPathsFromSet g isTarget fuel starts).states := by
  obtain ⟨inv, closed, -⟩ := inv_seeds g isTarget starts
  refine inv.drain closed bounds ((measure_seed bounds.start).trans ?_)
  have fewer := Finset.card_filter_le bound fun k => ¬ (⟨[], [], []⟩ : AnnotatedSetSearch N L A).Visited k
  simp only [measure, List.length_nil]
  omega

/-- With fuel for a bound of the states the search finishes. -/
theorem finished {bound : Finset (N × A)} {fuel : ℕ} (bounds : g.Bounds starts bound) (enough : bound.card ≤ fuel) :
    Finished g isTarget starts (findAnnotatedPathsFromSet g isTarget fuel starts) := by
  obtain ⟨-, -, visited⟩ := inv_seeds g isTarget starts
  obtain ⟨kept, shut, empty, grows⟩ := drained isTarget bounds enough
  refine ⟨kept, fun k => ⟨kept.visited_reached, fun reached => ?_⟩⟩
  refine reached.rule (fun n mem => visited_of_initial grows (visited n mem)) fun s t visited step => ?_
  obtain ⟨st, mem, rfl⟩ := List.mem_map.mp visited
  obtain ⟨i, stored⟩ := List.mem_iff_getElem?.mp mem
  refine shut i st stored ?_ nofun t step
  simp only [empty, List.not_mem_nil, not_false_eq_true]

omit [DecidableEq N] [DecidableEq A] in
theorem Finished.exists_state (done : Finished g isTarget starts search) {k : N × A} (reached : g.Reached starts k) :
    ∃ (i : ℕ) (st : SearchState N L A), search.states[i]? = some st ∧ st.key = k := by
  obtain ⟨st, mem, same⟩ := List.mem_map.mp ((done.visited_iff k).mpr reached)
  obtain ⟨i, stored⟩ := List.mem_iff_getElem?.mp mem
  exact ⟨i, st, stored, same⟩

section Paths

omit [DecidableEq N] [DecidableEq A] in
theorem Inv.parent_lt (inv : Inv g isTarget starts search) {c p : ℕ}
    (child : search.states[c]?.bind SearchState.parent = some p) : p < c := by
  obtain ⟨st, stored, parent⟩ := Option.bind_eq_some_iff.mp child
  cases inv.grown c st stored with
  | start => cases parent
  | edge older =>
    cases parent
    exact older

omit [DecidableEq N] [DecidableEq A] in
theorem Inv.pathUp_eq (inv : Inv g isTarget starts search) {cur fuel more : ℕ} (enough : cur ≤ fuel)
    (enoughMore : cur ≤ more) : pathUp search.states fuel cur = pathUp search.states more cur := by
  induction cur using Nat.strong_induction_on generalizing fuel more with
  | _ cur ih =>
    cases parent : search.states[cur]?.bind SearchState.parent with
    | none =>
      have alone (n : ℕ) : pathUp search.states n cur = [cur] := by
        cases n with
        | zero => rfl
        | succ n => rw [pathUp, parent]
      rw [alone, alone]
    | some p =>
      have older := inv.parent_lt parent
      obtain ⟨fuel, rfl⟩ := Nat.exists_eq_add_one_of_ne_zero (show fuel ≠ 0 by omega)
      obtain ⟨more, rfl⟩ := Nat.exists_eq_add_one_of_ne_zero (show more ≠ 0 by omega)
      rw [pathUp, pathUp, parent]
      exact congrArg (cur :: ·) (ih p older (by omega) (by omega))

omit [DecidableEq N] [DecidableEq A] in
/-- The path to a start is the start. -/
theorem pathTo_root {i : ℕ} (root : search.states[i]?.bind SearchState.parent = none) : search.pathTo i = [i] := by
  unfold pathTo
  cases i with
  | zero => rfl
  | succ i => rw [pathUp, root, List.reverse_singleton]

omit [DecidableEq N] [DecidableEq A] in
/-- The path to a state goes through its parent. -/
theorem Inv.pathTo_child (inv : Inv g isTarget starts search) {i p : ℕ}
    (child : search.states[i]?.bind SearchState.parent = some p) : search.pathTo i = search.pathTo p ++ [i] := by
  have older := inv.parent_lt child
  obtain ⟨i, rfl⟩ := Nat.exists_eq_add_one_of_ne_zero (show i ≠ 0 by omega)
  rw [pathTo, pathUp, child, List.reverse_cons, pathTo, inv.pathUp_eq (show p ≤ i by omega) le_rfl]

omit [DecidableEq N] [DecidableEq A] in
/-- An induction along the path to a state. -/
theorem Inv.path_rule (inv : Inv g isTarget starts search) {p : ℕ → List ℕ → Prop}
    (root : ∀ i n, search.states[i]? = some ⟨n, g.start, none, none⟩ → n ∈ starts → p i [i])
    (child : ∀ i q origin next annot label, search.states[i]? = some ⟨next, annot, some q, some label⟩ →
      search.states[q]? = some origin → (next, label) ∈ g.labeledSuccessors origin.node →
      g.expand origin.annot origin.node label next = some annot → p q (search.pathTo q) → p i (search.pathTo q ++ [i]))
    {i : ℕ} (inside : i < search.states.length) : p i (search.pathTo i) := by
  induction i using Nat.strong_induction_on with
  | _ i ih =>
    obtain ⟨st, stored⟩ : ∃ st, search.states[i]? = some st := ⟨_, List.getElem?_eq_getElem inside⟩
    cases inv.grown i st stored with
    | @start n mem =>
      rw [pathTo_root (by rw [stored]; rfl)]
      exact root i n stored mem
    | @edge q origin next annot label older there succ crosses =>
      rw [inv.pathTo_child (by rw [stored]; rfl)]
      exact child i q origin next annot label stored there succ crosses
        (ih q older (List.getElem?_eq_some_iff.mp there).1)

omit [DecidableEq N] [DecidableEq A] in
theorem Inv.getLast?_pathTo (inv : Inv g isTarget starts search) {i : ℕ} (inside : i < search.states.length) :
    (search.pathTo i).getLast? = some i :=
  inv.path_rule (p := fun i path => path.getLast? = some i) (fun _ _ _ _ => rfl)
    (fun _ _ _ _ _ _ _ _ _ _ _ => List.getLast?_concat) inside

end Paths

end AnnotatedSetSearch

/-- The depth-first search for one target: the states visited, the state each was last found from, and
the stack, its top first. -/
structure AnnotatedPathSearch (N A : Type*) where
  visited : List (N × A)
  parent : List ((N × A) × (N × A))
  stack : List (N × A)

namespace AnnotatedPathSearch

variable {N L A : Type*} [DecidableEq N] [DecidableEq A] {g : AnnotatedGraph N L A} {isTarget : N → A → Bool}
  {search : AnnotatedPathSearch N A} {start : N}

/-- Put the state one edge leads to on the stack, unless it is visited. -/
def push (g : AnnotatedGraph N L A) (state : N × A) (search : AnnotatedPathSearch N A) (succ : N × L) :
    AnnotatedPathSearch N A :=
  match g.expand state.2 state.1 succ.2 succ.1 with
  | none => search
  | some b =>
    if (succ.1, b) ∈ search.visited then search
    else
      { search with
        parent := ((succ.1, b), state) :: search.parent
        stack := (succ.1, b) :: search.stack }

/-- The path back from `last`, dropping each parent as it is used. -/
def pathBack : ℕ → List ((N × A) × (N × A)) → N × A → List (N × A)
  | 0, _, last => [last]
  | fuel + 1, parent, last =>
    match parent.lookup last with
    | none => [last]
    | some before => last :: pathBack fuel (parent.filter fun entry => entry.1 ≠ last) before

/-- Pop states until a target is popped, the stack is empty or the fuel is gone. -/
def drain (g : AnnotatedGraph N L A) (isTarget : N → A → Bool) :
    ℕ → AnnotatedPathSearch N A → Option (List (N × A))
  | 0, _ => none
  | fuel + 1, search =>
    match search.stack with
    | [] => none
    | state :: stack =>
      if state ∈ search.visited then drain g isTarget fuel { search with stack }
      else if isTarget state.1 state.2 then some (pathBack search.parent.length search.parent state).reverse
      else
        drain g isTarget fuel
          ((g.labeledSuccessors state.1).foldl (push g state)
            { search with visited := state :: search.visited, stack })

/-- Find a path from `start` to some state that is a target, depth first. -/
def findAnnotatedPathToSet (g : AnnotatedGraph N L A) (isTarget : N → A → Bool) (fuel : ℕ) (start : N) :
    Option (List (N × A)) :=
  drain g isTarget fuel ⟨[], [], [(start, g.start)]⟩

/-- What every turn keeps: states are reached, none visited is a target, and what a visited state
leads to is visited or on the stack. -/
structure Inv (g : AnnotatedGraph N L A) (isTarget : N → A → Bool) (start : N) (search : AnnotatedPathSearch N A) :
    Prop where
  reached : ∀ s, s ∈ search.visited ∨ s ∈ search.stack → g.Reached [start] s
  missed : ∀ s ∈ search.visited, isTarget s.1 s.2 = false
  closed : ∀ s ∈ search.visited, ∀ t, g.Step s t → t ∈ search.visited ∨ t ∈ search.stack
  started : (start, g.start) ∈ search.visited ∨ (start, g.start) ∈ search.stack

theorem visited_push {state : N × A} {succ : N × L} : (push g state search succ).visited = search.visited := by
  unfold push
  split
  · rfl
  · split_ifs <;> rfl

theorem visited_foldl_push {state : N × A} (succs : List (N × L)) :
    (succs.foldl (push g state) search).visited = search.visited := by
  induction succs generalizing search with
  | nil => rfl
  | cons succ succs ih => exact ih.trans visited_push

theorem mem_stack_push {state t : N × A} {next : N} {label : L} :
    t ∈ (push g state search (next, label)).stack ↔ t ∈ search.stack ∨
      t ∉ search.visited ∧ t.1 = next ∧ g.expand state.2 state.1 label next = some t.2 := by
  obtain ⟨m, b⟩ := t
  unfold push
  split
  · next pruned => simp [pruned]
  · next c crosses =>
    split_ifs with old
    · refine ⟨.inl, ?_⟩
      rintro (kept | ⟨fresh, rfl, same⟩)
      · exact kept
      · cases crosses.symm.trans same
        exact absurd old fresh
    · simp only [List.mem_cons, Prod.mk.injEq, crosses, Option.some.injEq]
      constructor
      · rintro (⟨rfl, rfl⟩ | kept)
        · exact .inr ⟨old, rfl, rfl⟩
        · exact .inl kept
      · rintro (kept | ⟨-, rfl, rfl⟩)
        · exact .inr kept
        · exact .inl ⟨rfl, rfl⟩

/-- The stack after the successors of a state are pushed. -/
theorem mem_stack_foldl_push {state t : N × A} {succs : List (N × L)} :
    t ∈ (succs.foldl (push g state) search).stack ↔ t ∈ search.stack ∨
      t ∉ search.visited ∧ ∃ label, (t.1, label) ∈ succs ∧ g.expand state.2 state.1 label t.1 = some t.2 := by
  induction succs generalizing search with
  | nil => simp
  | cons succ succs ih =>
    obtain ⟨next, label⟩ := succ
    rw [List.foldl_cons, ih, mem_stack_push, visited_push]
    simp only [List.mem_cons, Prod.mk.injEq]
    constructor
    · rintro ((kept | ⟨fresh, rfl, crosses⟩) | ⟨fresh, other, mem, crosses⟩)
      · exact .inl kept
      · exact .inr ⟨fresh, label, .inl ⟨rfl, rfl⟩, crosses⟩
      · exact .inr ⟨fresh, other, .inr mem, crosses⟩
    · rintro (kept | ⟨fresh, other, ⟨rfl, rfl⟩ | mem, crosses⟩)
      · exact .inl (.inl kept)
      · exact .inl (.inr ⟨fresh, rfl, crosses⟩)
      · exact .inr ⟨fresh, other, mem, crosses⟩

theorem length_stack_foldl_push {state : N × A} {succs : List (N × L)} :
    (succs.foldl (push g state) search).stack.length ≤ search.stack.length + succs.length := by
  induction succs generalizing search with
  | nil => exact le_rfl
  | cons succ succs ih =>
    have one : (push g state search succ).stack.length ≤ search.stack.length + 1 := by
      unfold push
      split
      · exact Nat.le_succ _
      · split_ifs
        · exact Nat.le_succ _
        · exact le_rfl
    rw [List.foldl_cons, List.length_cons]
    apply le_trans ih
    omega

omit [DecidableEq N] [DecidableEq A] in
/-- Popping a state that was visited before keeps the invariant. -/
theorem Inv.skip {state : N × A} {stack : List (N × A)} (inv : Inv g isTarget start search)
    (top : search.stack = state :: stack) (old : state ∈ search.visited) :
    Inv g isTarget start { search with stack } := by
  have kept (t : N × A) (mem : t ∈ search.visited ∨ t ∈ search.stack) : t ∈ search.visited ∨ t ∈ stack := by
    rw [top, List.mem_cons] at mem
    rcases mem with visited | rfl | waiting
    · exact .inl visited
    · exact .inl old
    · exact .inr waiting
  refine ⟨fun s mem => inv.reached s (mem.imp_right fun waiting => top ▸ .tail _ waiting), inv.missed, ?_, ?_⟩
  · exact fun s visited t step => kept t (inv.closed s visited t step)
  · exact kept _ inv.started

/-- Visiting a state that is no target and pushing its successors keeps the invariant. -/
theorem Inv.expand {state : N × A} {stack : List (N × A)} (inv : Inv g isTarget start search)
    (top : search.stack = state :: stack) (miss : isTarget state.1 state.2 = false) :
    Inv g isTarget start ((g.labeledSuccessors state.1).foldl (push g state)
      { search with visited := state :: search.visited, stack }) := by
  have here := inv.reached state (.inr (top ▸ .head _))
  have kept (t : N × A) (mem : t ∈ search.visited ∨ t ∈ search.stack) :
      t ∈ state :: search.visited ∨ t ∈ stack := by
    rw [top, List.mem_cons] at mem
    rcases mem with visited | rfl | waiting
    · exact .inl (.tail _ visited)
    · exact .inl (.head _)
    · exact .inr waiting
  refine ⟨fun s mem => ?_, fun s mem => ?_, fun s mem t step => ?_, ?_⟩
  · rw [visited_foldl_push, mem_stack_foldl_push] at mem
    rcases mem with visited | waiting | ⟨-, label, mem, crosses⟩
    · rcases List.mem_cons.mp visited with rfl | visited
      · exact here
      · exact inv.reached s (.inl visited)
    · exact inv.reached s (.inr (top ▸ .tail _ waiting))
    · exact here.tail ⟨label, mem, crosses⟩
  · rw [visited_foldl_push] at mem
    rcases List.mem_cons.mp mem with rfl | visited
    · exact miss
    · exact inv.missed s visited
  · rw [visited_foldl_push] at mem ⊢
    rw [mem_stack_foldl_push]
    rcases List.mem_cons.mp mem with rfl | visited
    · by_cases old : t ∈ s :: search.visited
      · exact .inl old
      · obtain ⟨label, mem, crosses⟩ := step
        exact .inr (.inr ⟨old, label, mem, crosses⟩)
    · exact (kept t (inv.closed s visited t step)).imp_right .inl
  · rw [visited_foldl_push, mem_stack_foldl_push]
    exact (kept _ inv.started).imp_right .inl

/-- The stack, and the edges out of states of the bound that are not visited. -/
def measure (g : AnnotatedGraph N L A) (bound : Finset (N × A)) (search : AnnotatedPathSearch N A) : ℕ :=
  search.stack.length + ∑ s ∈ bound.filter (· ∉ search.visited), (g.labeledSuccessors s.1).length

omit [DecidableEq N] [DecidableEq A] in
/-- With the stack empty, no target is reached. -/
theorem Inv.exhausted (inv : Inv g isTarget start search) (empty : search.stack = []) :
    ¬ ∃ s, g.Reached [start] s ∧ isTarget s.1 s.2 := by
  rintro ⟨s, reached, target⟩
  have off (t : N × A) (mem : t ∈ search.visited ∨ t ∈ search.stack) : t ∈ search.visited :=
    mem.resolve_right (by simp [empty])
  have visited : s ∈ search.visited := by
    apply reached.rule (p := (· ∈ search.visited))
    · intro n mem
      rw [List.mem_singleton.mp mem]
      exact off _ inv.started
    · exact fun s t visited step => off t (inv.closed s visited t step)
  rw [inv.missed s visited] at target
  exact Bool.false_ne_true target

/-- Visiting a state of the bound pays for the edges it pushes. -/
theorem measure_expand {bound : Finset (N × A)} {state : N × A} {stack : List (N × A)} (inside : state ∈ bound)
    (top : search.stack = state :: stack) (fresh : state ∉ search.visited) :
    ((g.labeledSuccessors state.1).foldl (push g state)
      { search with visited := state :: search.visited, stack }).measure g bound < search.measure g bound := by
  have unvisited : state ∈ bound.filter (· ∉ search.visited) := Finset.mem_filter.mpr ⟨inside, fresh⟩
  have split : bound.filter (· ∉ state :: search.visited) = (bound.filter (· ∉ search.visited)).erase state := by
    ext t
    simp only [Finset.mem_filter, Finset.mem_erase, List.mem_cons, not_or]
    tauto
  have paid := Finset.add_sum_erase (bound.filter (· ∉ search.visited)) (fun s => (g.labeledSuccessors s.1).length)
    unvisited
  have pushed : ((g.labeledSuccessors state.1).foldl (push g state)
      { search with visited := state :: search.visited, stack }).stack.length ≤
        stack.length + (g.labeledSuccessors state.1).length := length_stack_foldl_push
  simp only [measure, visited_foldl_push, split, top, List.length_cons]
  omega

/-- Draining with enough fuel finds a path exactly when a target is reached. -/
theorem Inv.isSome_drain {bound : Finset (N × A)} {fuel : ℕ} (inv : Inv g isTarget start search)
    (bounds : g.Bounds [start] bound) (enough : search.measure g bound ≤ fuel) :
    (drain g isTarget fuel search).isSome ↔ ∃ s, g.Reached [start] s ∧ isTarget s.1 s.2 := by
  induction fuel generalizing search with
  | zero =>
    have empty : search.stack = [] := by
      simp only [measure] at enough
      exact List.length_eq_zero_iff.mp (by omega)
    simpa [drain] using inv.exhausted empty
  | succ fuel ih =>
    unfold drain
    split
    · next empty => simpa using inv.exhausted empty
    · next state stack top =>
      split_ifs with old target
      · apply ih (inv.skip top old)
        have popped : ({ search with stack } : AnnotatedPathSearch N A).measure g bound + 1 = search.measure g bound := by
          simp only [measure, top, List.length_cons]
          omega
        omega
      · refine iff_of_true rfl ⟨state, inv.reached state (.inr (top ▸ .head _)), target⟩
      · apply ih (inv.expand top (by simpa using target))
        have inside := bounds.reached (inv.reached state (.inr (top ▸ .head _)))
        have shrinks := measure_expand (g := g) inside top old
        omega

/-- The search finds a path exactly when its start reaches a target. -/
theorem isSome_findAnnotatedPathToSet {bound : Finset (N × A)} {fuel : ℕ} (bounds : g.Bounds [start] bound)
    (enough : 1 + ∑ s ∈ bound, (g.labeledSuccessors s.1).length ≤ fuel) :
    (findAnnotatedPathToSet g isTarget fuel start).isSome ↔ ∃ s, g.Reached [start] s ∧ isTarget s.1 s.2 := by
  apply Inv.isSome_drain _ bounds
  · simpa [measure] using enough
  · refine ⟨fun s mem => ?_, by simp, by simp, by simp⟩
    obtain rfl := by simpa using mem
    exact .start (.head _)

end AnnotatedPathSearch

end Ctadl.Graph
