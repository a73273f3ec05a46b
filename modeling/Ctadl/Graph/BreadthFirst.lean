import Ctadl.Graph.AnnotatedSearch
import Mathlib.Data.Set.Card

/-! # Breadth-first exploration

A search discovers its states by layers: the queue holds the states not yet expanded in the order of
their discovery, and a state is never reached from a later state than the states found after it are.
So the path back from a state is a shortest chain to it, and a search that has run to its end has
recorded exactly the states its starts reach.

The source keeps indices in 32 bits. Its search explores as it should exactly while that many bits
number every state.
-/

namespace Ctadl.Graph

namespace AnnotatedGraph

variable {N L A : Type*}

/-- A chain of steps from a start to a state. -/
structure Leads (g : AnnotatedGraph N L A) (starts : List N) (chain : List (N × A)) (s : N × A) : Prop where
  begins : ∃ n ∈ starts, chain.head? = some (n, g.start)
  steps : chain.IsChain g.Step
  ends : chain.getLast? = some s

end AnnotatedGraph

namespace AnnotatedSetSearch

variable {N L A : Type*} {g : AnnotatedGraph N L A} {isTarget : N → A → Bool} {search : AnnotatedSetSearch N L A}
  {starts : List N} {st : SearchState N L A}

/-- The state a state was first reached from. -/
def parentAt (search : AnnotatedSetSearch N L A) (i : ℕ) : Option ℕ := search.states[i]?.bind SearchState.parent

/-- What a search from `starts` that has run to its end is to give. -/
structure Explores (g : AnnotatedGraph N L A) (isTarget : N → A → Bool) (starts : List N)
    (search : AnnotatedSetSearch N L A) : Prop where
  ended : search.queue = []
  recorded : ∀ s, s ∈ search.states.map SearchState.key ↔ g.Reached starts s
  once : (search.states.map SearchState.key).Nodup
  grown : ∀ i st, search.states[i]? = some st → Grown g starts search.states i st
  targets : ∀ i, i ∈ search.targets ↔ ∃ st, search.states[i]? = some st ∧ isTarget st.node st.annot
  targets_sorted : search.targets.Pairwise (· < ·)
  shortest : ∀ i st, search.states[i]? = some st → ∃ chain : List (N × A),
    (search.pathTo i).map (fun j => search.states[j]?.map SearchState.key) = chain.map some ∧
      g.Leads starts chain st.key ∧ ∀ other, g.Leads starts other st.key → chain.length ≤ other.length

section Layers

/-- With the states before `h` expanded: the queue holds the rest in order, and parents are expanded
and no later than those of the states found after. -/
structure Layered (h : ℕ) (search : AnnotatedSetSearch N L A) : Prop where
  waiting : search.queue = List.range' h (search.states.length - h)
  expanded : h ≤ search.states.length
  older : ∀ i p, search.parentAt i = some p → p < h
  sorted : ∀ i j p, i < j → j < search.states.length → search.parentAt i = some p →
    ∃ q, search.parentAt j = some q ∧ p ≤ q
  targets_lt : ∀ i ∈ search.targets, i < search.states.length
  targets_sorted : search.targets.Pairwise (· < ·)

/-- What an expanded state leads to was found by then. -/
def Covered (g : AnnotatedGraph N L A) (h : ℕ) (search : AnnotatedSetSearch N L A) : Prop :=
  ∀ i < h, ∀ st, search.states[i]? = some st → ∀ t, g.Step st.key t →
    ∃ (j : ℕ) (other : SearchState N L A), search.states[j]? = some other ∧ other.key = t ∧
      ∀ p, search.parentAt j = some p → p ≤ i

theorem parentAt_of_initial {more : AnnotatedSetSearch N L A} (grows : search.states <+: more.states) {i : ℕ}
    (inside : i < search.states.length) : more.parentAt i = search.parentAt i := by
  rw [parentAt, stored_of_initial grows inside, parentAt]

theorem Covered.of_initial {more : AnnotatedSetSearch N L A} {h : ℕ} (covered : Covered g h search)
    (grows : search.states <+: more.states) (expanded : h ≤ search.states.length) : Covered g h more := by
  intro i below st stored t step
  rw [stored_of_initial grows (by omega)] at stored
  obtain ⟨j, other, there, same, first⟩ := covered i below st stored t step
  have inside := (List.getElem?_eq_some_iff.mp there).1
  refine ⟨j, other, (stored_of_initial grows inside).trans there, same, fun p parent => first p ?_⟩
  rwa [parentAt_of_initial grows inside] at parent

variable [DecidableEq N] [DecidableEq A]

theorem parentAt_visit_of_not (fresh : ¬ search.Visited st.key) (i : ℕ) :
    (search.visit isTarget st).parentAt i =
      if i < search.states.length then search.parentAt i else if i = search.states.length then st.parent else none := by
  rw [parentAt, states_visit_of_not fresh]
  split_ifs with inside last
  · rw [List.getElem?_append_left inside, parentAt]
  · rw [last, List.getElem?_concat_length]
    rfl
  · rw [List.getElem?_eq_none (by rw [List.length_append, List.length_singleton]; omega)]
    rfl

/-- A state that is reached from an expanded state, the last one so far, keeps the layers. -/
theorem Layered.visit {h : ℕ} (layered : Layered h search) (fits : ∀ p, st.parent = some p → p < h)
    (last : ∀ i p, search.parentAt i = some p → ∃ q, st.parent = some q ∧ p ≤ q) :
    Layered h (search.visit isTarget st) := by
  by_cases visited : search.Visited st.key
  · rwa [visit_of_visited visited]
  · have expanded := layered.expanded
    have longer : (search.visit isTarget st).states.length = search.states.length + 1 := by
      rw [states_visit_of_not visited, List.length_append, List.length_singleton]
    have found : (search.visit isTarget st).targets = search.targets ∨
        (search.visit isTarget st).targets = search.targets ++ [search.states.length] := by
      rw [AnnotatedSetSearch.visit, if_neg visited]
      split_ifs
      · exact .inr rfl
      · exact .inl rfl
    refine ⟨?_, by omega, fun i p parent => ?_, fun i j p before inside parent => ?_, fun i mem => ?_, ?_⟩
    · rw [queue_visit_of_not visited, layered.waiting, longer, Nat.sub_add_comm expanded, List.range'_1_concat,
        Nat.add_sub_cancel' expanded]
    · rw [parentAt_visit_of_not visited] at parent
      split_ifs at parent with old new
      · exact layered.older i p parent
      · exact fits p parent
    · rw [parentAt_visit_of_not visited, if_pos (by omega)] at parent
      rw [parentAt_visit_of_not visited]
      split_ifs with old new
      · exact layered.sorted i j p before old parent
      · exact last i p parent
      · omega
    · rw [longer]
      rcases found with same | more
      · exact (layered.targets_lt i (same ▸ mem)).trans (Nat.lt_succ_self _)
      · rw [more, List.mem_append, List.mem_singleton] at mem
        rcases mem with old | rfl
        · exact (layered.targets_lt i old).trans (Nat.lt_succ_self _)
        · exact Nat.lt_succ_self _
    · rcases found with same | more
      · rw [same]
        exact layered.targets_sorted
      · rw [more, List.pairwise_append]
        refine ⟨layered.targets_sorted, List.pairwise_singleton _ _, fun i mem j new => ?_⟩
        rw [List.mem_singleton.mp new]
        exact layered.targets_lt i mem

theorem Layered.turn (g : AnnotatedGraph N L A) (isTarget : N → A → Bool) (st : SearchState N L A) {h cur : ℕ}
    {queue : List ℕ} (layered : Layered h search) (front : search.queue = cur :: queue) :
    cur = h ∧ Layered (h + 1)
      ((g.labeledSuccessors st.node).foldl (follow g isTarget cur st) { search with queue }) := by
  have more : h < search.states.length := by
    by_contra all
    have none_left := front.symm.trans layered.waiting
    rw [show search.states.length - h = 0 by omega] at none_left
    cases none_left
  have first := front.symm.trans layered.waiting
  rw [show search.states.length - h = search.states.length - (h + 1) + 1 by omega, List.range'_succ] at first
  obtain ⟨rfl, rest⟩ := List.cons.inj first
  have popped : Layered (cur + 1) ({ search with queue } : AnnotatedSetSearch N L A) :=
    ⟨rest, more, fun i p parent => (layered.older i p parent).trans (Nat.lt_succ_self cur), layered.sorted,
      layered.targets_lt, layered.targets_sorted⟩
  refine ⟨rfl, foldl_follow (Layered (cur + 1)) _ (fun other succ mem annot crosses holds => ?_) popped⟩
  refine holds.visit (fun p parent => ?_) fun i p parent => ⟨cur, rfl, ?_⟩
  · cases parent
    exact Nat.lt_succ_self cur
  · exact Nat.le_of_lt_succ (holds.older i p parent)

theorem Covered.turn {cur : ℕ} {queue : List ℕ} (covered : Covered g cur search)
    (stored : search.states[cur]? = some st)
    (after : Layered (cur + 1) ((g.labeledSuccessors st.node).foldl (follow g isTarget cur st) { search with queue })) :
    Covered g (cur + 1)
      ((g.labeledSuccessors st.node).foldl (follow g isTarget cur st) { search with queue }) := by
  have inside := (List.getElem?_eq_some_iff.mp stored).1
  have grows : search.states <+:
      ((g.labeledSuccessors st.node).foldl (follow g isTarget cur st) { search with queue }).states :=
    prefix_foldl_follow { search with queue } _
  intro i below other there t step
  rcases Nat.lt_succ_iff_lt_or_eq.mp below with before | rfl
  · exact covered.of_initial grows inside.le i before other there t step
  · cases (stored_of_initial grows inside).symm.trans there |>.symm.trans stored
    obtain ⟨label, mem, crosses⟩ := step
    have visited : ((g.labeledSuccessors st.node).foldl (follow g isTarget i st) { search with queue }).Visited t :=
      visited_foldl_follow mem crosses
    obtain ⟨found, mem, same⟩ := List.mem_map.mp visited
    obtain ⟨j, here⟩ := List.mem_iff_getElem?.mp mem
    exact ⟨j, found, here, same, fun p parent => Nat.le_of_lt_succ (after.older j p parent)⟩

/-- Draining keeps the layers and what they cover. -/
theorem Layered.drain (fuel : ℕ) {h : ℕ} (inv : Inv g isTarget starts search) (layered : Layered h search)
    (covered : Covered g h search) :
    ∃ h, Layered h (drain g isTarget fuel search) ∧ Covered g h (AnnotatedSetSearch.drain g isTarget fuel search) := by
  induction fuel generalizing search h with
  | zero => exact ⟨h, layered, covered⟩
  | succ fuel ih =>
    unfold AnnotatedSetSearch.drain
    split
    · exact ⟨h, layered, covered⟩
    · next cur queue front =>
      split
      · next missing =>
        have inside := inv.queued cur (front ▸ .head _)
        rw [List.getElem?_eq_none_iff] at missing
        omega
      · next st stored =>
        obtain ⟨rfl, after⟩ := layered.turn g isTarget st front
        exact ih (inv.turn front stored) after (covered.turn stored after)

/-- Visiting starts on their own gives no state a parent. -/
theorem Layered.seed {seeds : List N} (layered : Layered 0 search) :
    Layered 0 (seeds.foldl (seed g isTarget) search) := by
  induction seeds generalizing search with
  | nil => exact layered
  | cons n seeds ih =>
    apply ih
    refine layered.visit (fun p parent => by cases parent) fun i p parent => ?_
    exact absurd (layered.older i p parent) (Nat.not_lt_zero p)

omit [DecidableEq N] [DecidableEq A] in
/-- A state found later has no shorter path. -/
theorem Layered.length_pathTo_le {h : ℕ} (inv : Inv g isTarget starts search) (layered : Layered h search) {i j : ℕ}
    (before : i ≤ j) (inside : j < search.states.length) : (search.pathTo i).length ≤ (search.pathTo j).length := by
  induction j using Nat.strong_induction_on generalizing i with
  | _ j ih =>
    rcases before.eq_or_lt with rfl | earlier
    · exact le_rfl
    · cases above : search.parentAt i with
      | none =>
        rw [pathTo_root above, List.length_singleton]
        cases up : search.parentAt j with
        | none => rw [pathTo_root up, List.length_singleton]
        | some q => rw [inv.pathTo_child up, List.length_append]; exact Nat.le_add_left _ _
      | some p =>
        obtain ⟨q, up, le⟩ := layered.sorted i j p earlier inside above
        have older := inv.parent_lt up
        rw [inv.pathTo_child above, inv.pathTo_child up, List.length_append, List.length_append]
        exact Nat.add_le_add_right (ih q older le (older.trans inside)) 1

omit [DecidableEq N] [DecidableEq A] in
/-- With every state expanded, no chain to a state is shorter than the path back from it. -/
theorem Covered.shortest {h : ℕ} (covered : Covered g h search) (inv : Inv g isTarget starts search)
    (layered : Layered h search) (all : search.states.length ≤ h)
    (begun : ∀ n ∈ starts, ∃ (i : ℕ) (st : SearchState N L A),
      search.states[i]? = some st ∧ st.key = (n, g.start) ∧ search.parentAt i = none)
    {chain : List (N × A)} {s : N × A} (leads : g.Leads starts chain s) :
    ∃ (i : ℕ) (st : SearchState N L A),
      search.states[i]? = some st ∧ st.key = s ∧ (search.pathTo i).length ≤ chain.length := by
  induction chain using List.reverseRecOn generalizing s with
  | nil => cases leads.ends
  | append_singleton chain last ih =>
    obtain rfl : last = s := by simpa using leads.ends
    obtain ⟨n, mem, first⟩ := leads.begins
    cases before : chain.getLast? with
    | none =>
      rw [List.getLast?_eq_none_iff.mp before] at first ⊢
      obtain rfl : last = (n, g.start) := by simpa using first
      obtain ⟨i, st, stored, same, root⟩ := begun n mem
      refine ⟨i, st, stored, same, ?_⟩
      rw [pathTo_root root]
      exact le_rfl
    | some t =>
      have steps := List.isChain_append.mp leads.steps
      have shorter : g.Leads starts chain t := by
        refine ⟨⟨n, mem, ?_⟩, steps.1, before⟩
        cases chain with
        | nil => cases before
        | cons head rest => exact first
      obtain ⟨i, st, stored, rfl, le⟩ := ih shorter
      have inside := (List.getElem?_eq_some_iff.mp stored).1
      have step : g.Step st.key last := steps.2.2 _ before last rfl
      obtain ⟨j, other, there, same, near⟩ := covered i (by omega) st stored last step
      refine ⟨j, other, there, same, ?_⟩
      rw [List.length_append, List.length_singleton]
      cases up : search.parentAt j with
      | none =>
        rw [pathTo_root up, List.length_singleton]
        exact Nat.le_add_left _ _
      | some p =>
        have close := layered.length_pathTo_le inv (near p up) inside
        rw [inv.pathTo_child up, List.length_append, List.length_singleton]
        omega

omit [DecidableEq N] [DecidableEq A] in
/-- The path back from a state, read forwards, is a chain to it. -/
theorem Inv.leads_pathTo (inv : Inv g isTarget starts search) {i : ℕ} (stored : search.states[i]? = some st) :
    ∃ chain : List (N × A), (search.pathTo i).map (fun j => search.states[j]?.map SearchState.key) = chain.map some ∧
      g.Leads starts chain st.key := by
  refine inv.path_rule (p := fun i path => ∀ st, search.states[i]? = some st → ∃ chain : List (N × A),
    path.map (fun j => search.states[j]?.map SearchState.key) = chain.map some ∧ g.Leads starts chain st.key)
    ?_ ?_ (List.getElem?_eq_some_iff.mp stored).1 st stored
  · intro i n here mem st stored
    cases here.symm.trans stored
    refine ⟨[(n, g.start)], ?_, ⟨n, mem, rfl⟩, List.isChain_singleton _, rfl⟩
    rw [List.map_singleton, here]
    rfl
  · intro i q origin next annot label here there succ crosses ih st stored
    cases here.symm.trans stored
    obtain ⟨chain, same, ⟨n, mem, first⟩, steps, ends⟩ := ih origin there
    refine ⟨chain ++ [(next, annot)], ?_, ⟨n, mem, ?_⟩, ?_, List.getLast?_concat⟩
    · rw [List.map_append, same, List.map_append, List.map_singleton, here]
      rfl
    · rw [List.head?_append, first]
      rfl
    · refine List.isChain_append.mpr ⟨steps, List.isChain_singleton _, fun s last t only => ?_⟩
      cases ends.symm.trans last
      cases only
      exact ⟨label, succ, crosses⟩

/-- With fuel for a bound of the states a search explores what its starts reach. -/
theorem explores {bound : Finset (N × A)} {fuel : ℕ} (bounds : g.Bounds starts bound) (enough : bound.card ≤ fuel) :
    Explores g isTarget starts (findAnnotatedPathsFromSet g isTarget fuel starts) := by
  obtain ⟨kept, -, empty, grows⟩ := drained isTarget bounds enough
  obtain ⟨inv, -, visited⟩ := inv_seeds g isTarget starts
  have nothing : Layered 0 (⟨[], [], []⟩ : AnnotatedSetSearch N L A) :=
    ⟨rfl, le_rfl, fun i p parent => (by cases parent), fun i j p _ inside => absurd inside (Nat.not_lt_zero j),
      fun i mem => absurd mem List.not_mem_nil, List.Pairwise.nil⟩
  have seeded : Layered 0 (starts.foldl (seed g isTarget) ⟨[], [], []⟩) := nothing.seed
  have uncovered : Covered g 0 (starts.foldl (seed g isTarget) ⟨[], [], []⟩) :=
    fun i below => absurd below (Nat.not_lt_zero i)
  obtain ⟨h, layered, covered⟩ : ∃ h, Layered h (findAnnotatedPathsFromSet g isTarget fuel starts) ∧
      Covered g h (findAnnotatedPathsFromSet g isTarget fuel starts) := seeded.drain fuel inv uncovered
  have all : (findAnnotatedPathsFromSet g isTarget fuel starts).states.length ≤ h := by
    have none_left := congrArg List.length (layered.waiting.symm.trans empty)
    rw [List.length_range', List.length_nil] at none_left
    exact Nat.sub_eq_zero_iff_le.mp none_left
  have begun : ∀ n ∈ starts, ∃ (i : ℕ) (st : SearchState N L A),
      (findAnnotatedPathsFromSet g isTarget fuel starts).states[i]? = some st ∧ st.key = (n, g.start) ∧
        (findAnnotatedPathsFromSet g isTarget fuel starts).parentAt i = none := by
    intro n mem
    obtain ⟨st, found, same⟩ := List.mem_map.mp (visited n mem)
    obtain ⟨i, stored⟩ := List.mem_iff_getElem?.mp found
    have inside := (List.getElem?_eq_some_iff.mp stored).1
    refine ⟨i, st, (stored_of_initial grows inside).trans stored, same, ?_⟩
    rw [parentAt_of_initial grows inside, Option.eq_none_iff_forall_ne_some]
    exact fun p parent => absurd (seeded.older i p parent) (Nat.not_lt_zero p)
  refine ⟨empty, (finished bounds enough).visited_iff, kept.distinct, kept.grown, kept.targets, layered.targets_sorted,
    fun i st stored => ?_⟩
  obtain ⟨chain, same, leads⟩ := kept.leads_pathTo stored
  refine ⟨chain, same, leads, fun other shorter => ?_⟩
  obtain ⟨j, twin, there, key, le⟩ := covered.shortest kept layered all begun shorter
  have again : i = j := by
    have inside := (List.getElem?_eq_some_iff.mp stored).1
    apply (List.getElem?_inj (by rwa [List.length_map]) kept.distinct).mp
    rw [List.getElem?_map, List.getElem?_map, stored, there, Option.map_some, Option.map_some, key]
  have long := congrArg List.length same
  rw [List.length_map, List.length_map] at long
  rw [← long, again]
  exact le

end Layers

section Initial

variable [DecidableEq N] [DecidableEq A]

theorem prefix_drain (fuel : ℕ) (search : AnnotatedSetSearch N L A) :
    search.states <+: (drain g isTarget fuel search).states := by
  induction fuel generalizing search with
  | zero => exact List.prefix_rfl
  | succ fuel ih =>
    unfold drain
    split
    · exact List.prefix_rfl
    · next cur queue front =>
      split
      · exact ih { search with queue }
      · next st stored =>
        have grows : search.states <+:
            ((g.labeledSuccessors st.node).foldl (follow g isTarget cur st) { search with queue }).states :=
          prefix_foldl_follow { search with queue } _
        exact grows.trans (ih _)

theorem prefix_seeds (seeds : List N) (search : AnnotatedSetSearch N L A) :
    search.states <+: (seeds.foldl (seed g isTarget) search).states := by
  induction seeds generalizing search with
  | nil => exact List.prefix_rfl
  | cons n seeds ih => exact prefix_visit.trans (ih _)

end Initial

/-- The index of the next state, kept in 32 bits. -/
def stateIndex (n : ℕ) : ℕ := n % 2 ^ 32

theorem stateIndex_lt (n : ℕ) : stateIndex n < 2 ^ 32 := Nat.mod_lt _ (Nat.two_pow_pos 32)

theorem stateIndex_of_lt {n : ℕ} (few : n < 2 ^ 32) : stateIndex n = n := Nat.mod_eq_of_lt few

namespace Wrapped

variable [DecidableEq N] [DecidableEq A]

/-- Reach a state under the index the source gives it, unless its key was reached before. -/
def visit (isTarget : N → A → Bool) (search : AnnotatedSetSearch N L A) (st : SearchState N L A) :
    AnnotatedSetSearch N L A :=
  if search.Visited st.key then search
  else
    { states := search.states ++ [st]
      targets :=
        if isTarget st.node st.annot then search.targets ++ [stateIndex search.states.length] else search.targets
      queue := search.queue ++ [stateIndex search.states.length] }

def follow (g : AnnotatedGraph N L A) (isTarget : N → A → Bool) (cur : ℕ) (st : SearchState N L A)
    (search : AnnotatedSetSearch N L A) (succ : N × L) : AnnotatedSetSearch N L A :=
  match g.expand st.annot st.node succ.2 succ.1 with
  | none => search
  | some annot => visit isTarget search ⟨succ.1, annot, some cur, some succ.2⟩

def drain (g : AnnotatedGraph N L A) (isTarget : N → A → Bool) :
    ℕ → AnnotatedSetSearch N L A → AnnotatedSetSearch N L A
  | 0, search => search
  | fuel + 1, search =>
    match search.queue with
    | [] => search
    | cur :: queue =>
      match search.states[cur]? with
      | none => drain g isTarget fuel { search with queue }
      | some st =>
        drain g isTarget fuel ((g.labeledSuccessors st.node).foldl (follow g isTarget cur st) { search with queue })

def seed (g : AnnotatedGraph N L A) (isTarget : N → A → Bool) (search : AnnotatedSetSearch N L A) (node : N) :
    AnnotatedSetSearch N L A :=
  visit isTarget search ⟨node, g.start, none, none⟩

/-- The search as the source runs it. -/
def findAnnotatedPathsFromSet (g : AnnotatedGraph N L A) (isTarget : N → A → Bool) (fuel : ℕ) (starts : List N) :
    AnnotatedSetSearch N L A :=
  drain g isTarget fuel (starts.foldl (seed g isTarget) ⟨[], [], []⟩)

section Few

theorem visit_eq (few : (search.visit isTarget st).states.length ≤ 2 ^ 32) :
    visit isTarget search st = search.visit isTarget st := by
  by_cases visited : search.Visited st.key
  · rw [visit_of_visited visited, visit, if_pos visited]
  · rw [states_visit_of_not visited, List.length_append, List.length_singleton] at few
    rw [visit, AnnotatedSetSearch.visit, if_neg visited, if_neg visited, stateIndex_of_lt few]

theorem foldl_follow_eq {cur : ℕ} (succs : List (N × L))
    (few : (succs.foldl (AnnotatedSetSearch.follow g isTarget cur st) search).states.length ≤ 2 ^ 32) :
    succs.foldl (follow g isTarget cur st) search =
      succs.foldl (AnnotatedSetSearch.follow g isTarget cur st) search := by
  induction succs generalizing search with
  | nil => rfl
  | cons succ succs ih =>
    have one : follow g isTarget cur st search succ = AnnotatedSetSearch.follow g isTarget cur st search succ := by
      have first := (prefix_foldl_follow (AnnotatedSetSearch.follow g isTarget cur st search succ)
        succs).length_le.trans few
      cases crosses : g.expand st.annot st.node succ.2 succ.1 with
      | none => simp only [follow, AnnotatedSetSearch.follow, crosses]
      | some annot =>
        simp only [follow, AnnotatedSetSearch.follow, crosses] at first ⊢
        exact visit_eq first
    rw [List.foldl_cons, List.foldl_cons, one]
    exact ih few

theorem drain_eq (fuel : ℕ) (few : (AnnotatedSetSearch.drain g isTarget fuel search).states.length ≤ 2 ^ 32) :
    drain g isTarget fuel search = AnnotatedSetSearch.drain g isTarget fuel search := by
  induction fuel generalizing search with
  | zero => rfl
  | succ fuel ih =>
    cases front : search.queue with
    | nil => simp only [drain, AnnotatedSetSearch.drain, front]
    | cons cur queue =>
      cases stored : search.states[cur]? with
      | none =>
        simp only [drain, AnnotatedSetSearch.drain, front, stored] at few ⊢
        exact ih few
      | some st =>
        simp only [drain, AnnotatedSetSearch.drain, front, stored] at few ⊢
        rw [foldl_follow_eq _ ((prefix_drain fuel _).length_le.trans few)]
        exact ih few

theorem seeds_eq (seeds : List N)
    (few : (seeds.foldl (AnnotatedSetSearch.seed g isTarget) search).states.length ≤ 2 ^ 32) :
    seeds.foldl (seed g isTarget) search = seeds.foldl (AnnotatedSetSearch.seed g isTarget) search := by
  induction seeds generalizing search with
  | nil => rfl
  | cons n seeds ih =>
    have one : seed g isTarget search n = AnnotatedSetSearch.seed g isTarget search n :=
      visit_eq ((prefix_seeds seeds (AnnotatedSetSearch.seed g isTarget search n)).length_le.trans few)
    rw [List.foldl_cons, List.foldl_cons, one]
    exact ih few

/-- While 32 bits number the states, the indices are the positions. -/
theorem findAnnotatedPathsFromSet_eq {fuel : ℕ}
    (few : (AnnotatedSetSearch.findAnnotatedPathsFromSet g isTarget fuel starts).states.length ≤ 2 ^ 32) :
    findAnnotatedPathsFromSet g isTarget fuel starts =
      AnnotatedSetSearch.findAnnotatedPathsFromSet g isTarget fuel starts := by
  unfold findAnnotatedPathsFromSet AnnotatedSetSearch.findAnnotatedPathsFromSet
  rw [seeds_eq starts ((prefix_drain fuel _).length_le.trans few)]
  exact drain_eq fuel few

end Few

section Many

/-- A property that following each of some edges keeps is kept by following all of them. -/
theorem foldl_follow {cur : ℕ} (keeps : AnnotatedSetSearch N L A → Prop) (succs : List (N × L))
    (step : ∀ search, ∀ succ ∈ succs, ∀ annot, g.expand st.annot st.node succ.2 succ.1 = some annot → keeps search →
      keeps (visit isTarget search ⟨succ.1, annot, some cur, some succ.2⟩)) (before : keeps search) :
    keeps (succs.foldl (follow g isTarget cur st) search) := by
  induction succs generalizing search with
  | nil => exact before
  | cons succ succs ih =>
    refine ih (fun other s mem => step other s (.tail _ mem)) ?_
    unfold follow
    split
    · exact before
    · next annot crosses => exact step search succ (.head _) annot crosses before

/-- A property that visits and pops keep holds of a whole run. -/
theorem rule {fuel : ℕ} (keeps : AnnotatedSetSearch N L A → Prop) (empty : keeps ⟨[], [], []⟩)
    (step : ∀ search st, keeps search → keeps (visit isTarget search st))
    (pop : ∀ search queue, keeps search → keeps { search with queue }) :
    keeps (findAnnotatedPathsFromSet g isTarget fuel starts) := by
  have drained (fuel : ℕ) (search : AnnotatedSetSearch N L A) (before : keeps search) :
      keeps (drain g isTarget fuel search) := by
    induction fuel generalizing search with
    | zero => exact before
    | succ fuel ih =>
      unfold drain
      split
      · exact before
      · next cur queue front =>
        split
        · exact ih _ (pop search queue before)
        · next st stored =>
          exact ih _ (foldl_follow keeps _ (fun other _ _ _ _ holds => step other _ holds) (pop search queue before))
  have seeded (seeds : List N) (search : AnnotatedSetSearch N L A) (before : keeps search) :
      keeps (seeds.foldl (seed g isTarget) search) := by
    induction seeds generalizing search with
    | nil => exact before
    | cons n seeds ih => exact ih _ (step search _ before)
  exact drained fuel _ (seeded starts _ empty)

/-- A target is reported under an index of 32 bits. -/
theorem targets_lt {fuel : ℕ} : ∀ i ∈ (findAnnotatedPathsFromSet g isTarget fuel starts).targets, i < 2 ^ 32 := by
  apply rule (fun search => ∀ i ∈ search.targets, i < 2 ^ 32)
  · exact fun i mem => absurd mem List.not_mem_nil
  · intro search st before i mem
    unfold visit at mem
    split_ifs at mem with old target
    · exact before i mem
    · rcases List.mem_append.mp mem with earlier | new
      · exact before i earlier
      · rw [List.mem_singleton.mp new]
        exact stateIndex_lt _
    · exact before i mem
  · exact fun search queue before => before

theorem states_visit : (visit isTarget search st).states = (search.visit isTarget st).states := by
  unfold visit AnnotatedSetSearch.visit
  split_ifs <;> rfl

theorem visited_visit {k : N × A} : (visit isTarget search st).Visited k ↔ k = st.key ∨ search.Visited k := by
  rw [Visited, states_visit]
  exact AnnotatedSetSearch.visited_visit

theorem measure_visit {bound : Finset (N × A)} (inside : st.key ∈ bound) :
    (visit isTarget search st).measure bound ≤ search.measure bound := by
  have queued : (visit isTarget search st).queue.length = (search.visit isTarget st).queue.length := by
    unfold visit AnnotatedSetSearch.visit
    split_ifs
    · rfl
    · simp only [List.length_append, List.length_singleton]
    · simp only [List.length_append, List.length_singleton]
  have same : (visit isTarget search st).measure bound = (search.visit isTarget st).measure bound := by
    simp only [measure, queued, visited_visit, AnnotatedSetSearch.visited_visit]
  exact same.trans_le (AnnotatedSetSearch.measure_visit inside)

theorem queue_drain {bound : Finset (N × A)} {fuel : ℕ} (closed : ∀ s ∈ bound, ∀ t, g.Step s t → t ∈ bound)
    (inside : ∀ k, search.Visited k → k ∈ bound) (enough : search.measure bound ≤ fuel) :
    (drain g isTarget fuel search).queue = [] := by
  induction fuel generalizing search with
  | zero =>
    simp only [measure] at enough
    have empty : search.queue.length = 0 := by omega
    exact List.length_eq_zero_iff.mp empty
  | succ fuel ih =>
    unfold drain
    split
    · next empty => exact empty
    · next cur queue front =>
      have popped := AnnotatedSetSearch.measure_pop bound front
      split
      · exact ih inside (by omega)
      · next st stored =>
        have here : st.key ∈ bound := inside _ (List.mem_map_of_mem (List.mem_of_getElem? stored))
        have kept : (∀ k, ((g.labeledSuccessors st.node).foldl (follow g isTarget cur st)
              { search with queue }).Visited k → k ∈ bound) ∧
            ((g.labeledSuccessors st.node).foldl (follow g isTarget cur st) { search with queue }).measure bound ≤
              ({ search with queue } : AnnotatedSetSearch N L A).measure bound := by
          refine foldl_follow (fun other => (∀ k, other.Visited k → k ∈ bound) ∧ other.measure bound ≤ _) _
            (fun other succ mem annot crosses holds => ?_) ⟨inside, le_rfl⟩
          have next := closed _ here (succ.1, annot) ⟨succ.2, mem, crosses⟩
          refine ⟨fun k visited => ?_, (measure_visit next).trans holds.2⟩
          rcases visited_visit.mp visited with rfl | old
          · exact next
          · exact holds.1 k old
        exact ih kept.1 (by omega)

/-- A run over finitely many states empties its queue. -/
theorem queue_findAnnotatedPathsFromSet {bound : Finset (N × A)} {fuel : ℕ} (bounds : g.Bounds starts bound)
    (enough : bound.card ≤ fuel) : (findAnnotatedPathsFromSet g isTarget fuel starts).queue = [] := by
  have seeded (seeds : List N) (search : AnnotatedSetSearch N L A) (subset : seeds ⊆ starts)
      (inside : ∀ k, search.Visited k → k ∈ bound) :
      (∀ k, (seeds.foldl (seed g isTarget) search).Visited k → k ∈ bound) ∧
        (seeds.foldl (seed g isTarget) search).measure bound ≤ search.measure bound := by
    induction seeds generalizing search with
    | nil => exact ⟨inside, le_rfl⟩
    | cons n seeds ih =>
      have first := bounds.start n (subset (.head _))
      obtain ⟨kept, le⟩ := ih (seed g isTarget search n) (fun _ mem => subset (.tail _ mem)) fun k visited => by
        rcases visited_visit.mp visited with rfl | old
        · exact first
        · exact inside k old
      exact ⟨kept, le.trans (measure_visit first)⟩
  obtain ⟨inside, le⟩ := seeded starts ⟨[], [], []⟩ (List.Subset.refl _) fun k visited => by cases visited
  refine queue_drain bounds.step inside (le.trans ?_)
  have fewer := Finset.card_filter_le bound fun k => ¬ (⟨[], [], []⟩ : AnnotatedSetSearch N L A).Visited k
  simp only [measure, List.length_nil]
  omega

end Many

end Wrapped

section Exact

variable [DecidableEq N] [DecidableEq A]

theorem length_states (explored : Explores g isTarget starts search) :
    search.states.length = {s | g.Reached starts s}.ncard := by
  classical
  have same : {s | g.Reached starts s} = (search.states.map SearchState.key).toFinset := by
    ext s
    rw [List.coe_toFinset]
    exact (explored.recorded s).symm
  rw [same, Set.ncard_coe_finset, List.toFinset_card_of_nodup explored.once, List.length_map]

/-- A search for every state misses one that 32 bits do not number. -/
theorem not_explores_wrapped {fuel : ℕ} (many : 2 ^ 32 < {s | g.Reached starts s}.ncard) :
    ¬ Explores g (fun _ _ => true) starts (Wrapped.findAnnotatedPathsFromSet g (fun _ _ => true) fuel starts) := by
  intro explored
  have inside := many.trans_eq (length_states explored).symm
  have reported := (explored.targets (2 ^ 32)).mpr ⟨_, List.getElem?_eq_getElem inside, rfl⟩
  exact absurd (Wrapped.targets_lt _ reported) (Nat.lt_irrefl _)

omit [DecidableEq N] [DecidableEq A] in
theorem bounds_of_finite (finite : {s | g.Reached starts s}.Finite) : g.Bounds starts finite.toFinset :=
  ⟨fun _ mem => finite.mem_toFinset.mpr (.start mem),
    fun _ mem _ step => finite.mem_toFinset.mpr ((finite.mem_toFinset.mp mem).tail step)⟩

/-- The numbers up to `last`, each an edge from the next. -/
def line (last : ℕ) : AnnotatedGraph ℕ Unit Unit where
  labeledSuccessors n := if n < last then [(n + 1, ())] else []
  start := ()
  expand _ _ _ _ := some ()

theorem reached_line {last : ℕ} :
    {s | (line last).Reached [0] s} = (Finset.range (last + 1) ×ˢ {()} : Finset (ℕ × Unit)) := by
  ext ⟨n, u⟩
  simp only [Set.mem_ofPred_eq, Finset.coe_product, Set.mem_prod, Finset.coe_range, Set.mem_Iio, Finset.coe_singleton,
    Set.mem_singleton_iff, and_true]
  constructor
  · intro reached
    refine Nat.lt_succ_of_le (reached.rule (p := fun s => s.1 ≤ last) (by simp) fun s t _ step => ?_)
    obtain ⟨label, mem, -⟩ := step
    simp only [line] at mem
    split_ifs at mem with below
    · have next := congrArg Prod.fst (List.mem_singleton.mp mem)
      dsimp only at next
      omega
    · cases mem
  · intro below
    induction n with
    | zero => exact .start (.head _)
    | succ n ih =>
      refine (ih (by omega)).tail ⟨(), ?_, rfl⟩
      simp only [line]
      rw [if_pos (by omega)]
      exact .head _

theorem ncard_reached_line (last : ℕ) : {s | (line last).Reached [0] s}.ncard = last + 1 := by
  rw [reached_line, Set.ncard_coe_finset, Finset.card_product, Finset.card_range, Finset.card_singleton, Nat.mul_one]

theorem finite_reached_line (last : ℕ) : {s | (line last).Reached [0] s}.Finite := by
  rw [reached_line]
  exact Finset.finite_toSet _

/-- The search of the source explores what its starts reach, whatever the targets, exactly when 32 bits
number the states reached. -/
theorem explores_wrapped_iff {fuel : ℕ} (finite : {s | g.Reached starts s}.Finite)
    (enough : {s | g.Reached starts s}.ncard ≤ fuel) :
    (∀ isTarget, Explores g isTarget starts (Wrapped.findAnnotatedPathsFromSet g isTarget fuel starts)) ↔
      {s | g.Reached starts s}.ncard ≤ 2 ^ 32 := by
  constructor
  · intro explored
    by_contra! many
    exact not_explores_wrapped many (explored _)
  · intro few isTarget
    have explored : Explores g isTarget starts (findAnnotatedPathsFromSet g isTarget fuel starts) :=
      explores (bounds_of_finite finite) (by rwa [← Set.ncard_eq_toFinset_card _ finite])
    rwa [Wrapped.findAnnotatedPathsFromSet_eq ((length_states explored).trans_le few)]

theorem line_explored : (∀ isTarget, Explores (line 2) isTarget [0]
      (Wrapped.findAnnotatedPathsFromSet (line 2) isTarget 3 [0])) ↔
    {s | (line 2).Reached [0] s}.ncard ≤ 2 ^ 32 :=
  explores_wrapped_iff (finite_reached_line 2) (ncard_reached_line 2).le

/-- With `2 ^ 32 + 1` states in a line the search ends and reports the last one under the first one's index. -/
theorem line_not_explored : {s | (line (2 ^ 32)).Reached [0] s}.ncard ≤ 2 ^ 32 + 1 ∧
    (Wrapped.findAnnotatedPathsFromSet (line (2 ^ 32)) (fun _ _ => true) (2 ^ 32 + 1) [0]).queue = [] ∧
      ¬ Explores (line (2 ^ 32)) (fun _ _ => true) [0]
        (Wrapped.findAnnotatedPathsFromSet (line (2 ^ 32)) (fun _ _ => true) (2 ^ 32 + 1) [0]) := by
  have finite := finite_reached_line (2 ^ 32)
  have card := ncard_reached_line (2 ^ 32)
  refine ⟨card.le, ?_, not_explores_wrapped (by omega)⟩
  apply Wrapped.queue_findAnnotatedPathsFromSet (bounds_of_finite finite)
  rw [← Set.ncard_eq_toFinset_card _ finite, card]

end Exact

end AnnotatedSetSearch

end Ctadl.Graph
