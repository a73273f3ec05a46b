import Mathlib.Data.Finset.Card
import Mathlib.Data.Finset.Filter
import Mathlib.Logic.Relation

/-! # Draining a worklist

A stack of nodes to visit, the set of nodes ever put on it and the set of nodes found so far. Visiting
a node finds each of its successors; one found for the first time goes on the stack unless it has
been there already. Starting with the seeds on the stack and nothing found yields the nodes
downstream of the seeds; starting with the seeds also found yields the closure of the seeds.
-/

namespace Ctadl.Flowgraph

/-- The nodes found, those ever put on the stack, and the stack, its top first. -/
structure Worklist (α : Type*) where
  found : List α
  work : List α
  stack : List α

namespace Worklist

variable {α : Type*} [DecidableEq α] {next : α → List α} {w : Worklist α} {x y : α}

/-- Record a node, and put it on the stack if it has never been there. -/
def find (w : Worklist α) (y : α) : Worklist α :=
  if y ∈ w.found then w
  else if y ∈ w.work then { w with found := y :: w.found }
  else { found := y :: w.found, work := y :: w.work, stack := y :: w.stack }

/-- Visit nodes from the top of the stack until it is empty or the fuel is gone. -/
def drain (next : α → List α) : ℕ → Worklist α → Worklist α
  | 0, w => w
  | fuel + 1, w =>
    match w.stack with
    | [] => w
    | x :: stack => drain next fuel ((next x).foldl find { w with stack })

/-- What every visit keeps: found nodes have been on the stack, and a node off the stack has had its
successors found. -/
structure Inv (next : α → List α) (w : Worklist α) : Prop where
  found_work : ∀ y ∈ w.found, y ∈ w.work
  stack_work : ∀ y ∈ w.stack, y ∈ w.work
  visited : ∀ x ∈ w.work, x ∉ w.stack → ∀ y ∈ next x, y ∈ w.found

/-- The fuel a worklist needs when every node lies in `bound`: its stack and the nodes to come. -/
def measure (bound : Finset α) (w : Worklist α) : ℕ :=
  w.stack.length + (bound.filter (· ∉ w.work)).card

theorem mem_find_found {z : α} : z ∈ (w.find y).found ↔ z = y ∨ z ∈ w.found := by
  unfold find
  split_ifs with old seen
  · constructor
    · exact .inr
    · rintro (rfl | kept)
      exacts [old, kept]
  · simp
  · simp

theorem mem_foldl_found {ys : List α} {z : α} : z ∈ (ys.foldl find w).found ↔ z ∈ ys ∨ z ∈ w.found := by
  induction ys generalizing w with
  | nil => simp
  | cons y ys ih =>
    rw [List.foldl_cons, ih, mem_find_found, List.mem_cons]
    tauto

theorem subset_find_work : w.work ⊆ (w.find y).work := by
  unfold find
  split_ifs
  · exact List.Subset.refl _
  · exact List.Subset.refl _
  · exact List.subset_cons_self _ _

/-- A property that finding each of some nodes keeps is kept by finding all of them. -/
private theorem foldl_find (keeps : Worklist α → Prop) (ys : List α)
    (step : ∀ w, ∀ y ∈ ys, keeps w → keeps (w.find y)) (before : keeps w) : keeps (ys.foldl find w) := by
  induction ys generalizing w with
  | nil => exact before
  | cons y ys ih => exact ih (fun w z kept => step w z (.tail _ kept)) (step w y (.head _) before)

/-- A property that every visit keeps holds after draining. -/
theorem drain_rule (keeps : Worklist α → Prop) {fuel : ℕ}
    (visit : ∀ w x stack, w.stack = x :: stack → keeps w → keeps ((next x).foldl find { w with stack }))
    (before : keeps w) : keeps (drain next fuel w) := by
  induction fuel generalizing w with
  | zero => exact before
  | succ fuel ih =>
    unfold drain
    split
    · exact before
    · next x stack top => exact ih (visit w x stack top before)

/-- The invariant while the successors of `x` are being found. -/
private structure Visiting (next : α → List α) (x : α) (w : Worklist α) : Prop where
  found_work : ∀ y ∈ w.found, y ∈ w.work
  stack_work : ∀ y ∈ w.stack, y ∈ w.work
  visited : ∀ z ∈ w.work, z ∉ w.stack → z ≠ x → ∀ y ∈ next z, y ∈ w.found

private theorem Visiting.find (inv : Visiting next x w) (y : α) : Visiting next x (w.find y) := by
  unfold Worklist.find
  split_ifs with old seen
  · exact inv
  · refine ⟨?_, inv.stack_work, fun z worked off other u isNext => .tail _ (inv.visited z worked off other u isNext)⟩
    rintro z (_ | ⟨_, kept⟩)
    exacts [seen, inv.found_work z kept]
  · refine ⟨?_, ?_, ?_⟩
    · rintro z (_ | ⟨_, kept⟩)
      exacts [.head _, .tail _ (inv.found_work z kept)]
    · rintro z (_ | ⟨_, kept⟩)
      exacts [.head _, .tail _ (inv.stack_work z kept)]
    · intro z worked off other u isNext
      simp only [List.mem_cons, not_or] at worked off
      rcases worked with same | worked
      · exact absurd same off.1
      · exact .tail _ (inv.visited z worked off.2 other u isNext)

/-- Visiting the node on top of the stack keeps the invariant. -/
theorem Inv.visit {stack : List α} (inv : Inv next w) (top : w.stack = x :: stack) :
    Inv next ((next x).foldl find { w with stack }) := by
  have visiting : Visiting next x { w with stack } :=
    ⟨inv.found_work, fun y kept => inv.stack_work y (top ▸ .tail _ kept),
      fun z worked off other => inv.visited z worked (by simp [top, other, off])⟩
  have done := foldl_find (Visiting next x) (next x) (fun _ y _ inv => inv.find y) visiting
  refine ⟨done.found_work, done.stack_work, fun z worked off y isNext => ?_⟩
  by_cases same : z = x
  · subst same
    exact mem_foldl_found.mpr (.inl isNext)
  · exact done.visited z worked off same y isNext

private theorem measure_find {bound : Finset α} (inside : y ∈ bound) :
    (w.find y).measure bound ≤ w.measure bound := by
  unfold find
  split_ifs with old seen
  · exact le_rfl
  · exact le_rfl
  · have fewer : (bound.filter (· ∉ y :: w.work)).card < (bound.filter (· ∉ w.work)).card := by
      apply Finset.card_lt_card
      refine ⟨fun z kept => ?_, fun all => ?_⟩
      · simp only [Finset.mem_filter, List.mem_cons, not_or] at kept ⊢
        exact ⟨kept.1, kept.2.2⟩
      · have still := all (Finset.mem_filter.mpr ⟨inside, seen⟩)
        simp at still
    simp only [measure, List.length_cons]
    omega

/-- With enough fuel the stack is emptied. -/
theorem drain_stack {bound : Finset α} {fuel : ℕ} (inside : ∀ x, ∀ y ∈ next x, y ∈ bound)
    (enough : w.measure bound ≤ fuel) : (drain next fuel w).stack = [] := by
  induction fuel generalizing w with
  | zero =>
    simp only [measure] at enough
    rw [drain]
    exact List.length_eq_zero_iff.mp (by omega)
  | succ fuel ih =>
    unfold drain
    split
    · next empty => exact empty
    · next x stack top =>
      have popped : ({ w with stack } : Worklist α).measure bound + 1 = w.measure bound := by
        simp only [measure, top, List.length_cons]
        omega
      have shrinks := foldl_find (fun v => v.measure bound ≤ ({ w with stack } : Worklist α).measure bound)
        (next x) (fun v y isNext le => (measure_find (inside x y isNext)).trans le) le_rfl
      exact ih (by omega)

/-- What draining leaves behind: the successors of the seeds and of everything found are found. -/
theorem Inv.drain_closed {bound : Finset α} {fuel : ℕ} (inv : Inv next w)
    (inside : ∀ x, ∀ y ∈ next x, y ∈ bound) (enough : w.measure bound ≤ fuel)
    (source : x ∈ w.work ∨ x ∈ (drain next fuel w).found) (isNext : y ∈ next x) :
    y ∈ (drain next fuel w).found := by
  have done : Inv next (drain next fuel w) ∧ w.work ⊆ (drain next fuel w).work := by
    refine drain_rule (fun v => Inv next v ∧ w.work ⊆ v.work) ?_ ⟨inv, List.Subset.refl _⟩
    rintro v x stack top ⟨kept, grows⟩
    refine ⟨kept.visit top, ?_⟩
    exact foldl_find (fun u => w.work ⊆ u.work) (next x)
      (fun u y _ below => List.Subset.trans below subset_find_work) grows
  have worked : x ∈ (drain next fuel w).work := source.elim (fun seed => done.2 seed) (done.1.found_work x)
  have empty := drain_stack inside enough
  exact done.1.visited x worked (by simp [empty]) y isNext

/-- Everything found was found before or has a property of the successors of worked nodes. -/
theorem drain_induction {fuel : ℕ} {p : α → Prop} (seeds : ∀ x ∈ w.work, ∀ y ∈ next x, p y)
    (step : ∀ x y, p x → y ∈ next x → p y) (stack_work : ∀ x ∈ w.stack, x ∈ w.work)
    (found : ∀ y ∈ w.found, p y) : ∀ y ∈ (drain next fuel w).found, p y := by
  let Sound := fun v : Worklist α => (∀ z ∈ v.work, ∀ y ∈ next z, p y) ∧ (∀ z ∈ v.stack, z ∈ v.work) ∧
    ∀ y ∈ v.found, p y
  have one : ∀ v y, p y → Sound v → Sound (v.find y) := by
    rintro v y holds ⟨worked, stacked, all⟩
    unfold find
    split_ifs
    · exact ⟨worked, stacked, all⟩
    · exact ⟨worked, stacked, List.forall_mem_cons.mpr ⟨holds, all⟩⟩
    · exact ⟨List.forall_mem_cons.mpr ⟨fun u => step y u holds, worked⟩,
        List.forall_mem_cons.mpr ⟨.head _, fun z kept => .tail _ (stacked z kept)⟩,
        List.forall_mem_cons.mpr ⟨holds, all⟩⟩
  have sound : Sound (drain next fuel w) := by
    refine drain_rule Sound ?_ ⟨seeds, stack_work, found⟩
    rintro v x stack top ⟨worked, stacked, all⟩
    refine foldl_find Sound (next x) (fun u y isNext => one u y (worked x (stacked x (top ▸ .head _)) y isNext)) ?_
    exact ⟨worked, fun z kept => stacked z (top ▸ .tail _ kept), all⟩
  exact sound.2.2

private theorem measure_seeds {bound : Finset α} {found seeds : List α} :
    (⟨found, seeds, seeds.reverse⟩ : Worklist α).measure bound ≤ seeds.length + bound.card := by
  have fewer := Finset.card_filter_le bound (· ∉ seeds)
  simp only [measure, List.length_reverse]
  omega

/-- Draining from seeds that count as found closes them. -/
theorem mem_drain_closure {bound : Finset α} {fuel : ℕ} {seeds : List α} (inside : ∀ x, ∀ y ∈ next x, y ∈ bound)
    (enough : seeds.length + bound.card ≤ fuel) :
    y ∈ (drain next fuel ⟨seeds, seeds, seeds.reverse⟩).found ↔
      ∃ x ∈ seeds, Relation.ReflTransGen (fun a b => b ∈ next a) x y := by
  have inv : Inv next ⟨seeds, seeds, seeds.reverse⟩ :=
    ⟨fun _ => id, fun _ => List.mem_reverse.mp, fun x worked off => absurd (List.mem_reverse.mpr worked) off⟩
  constructor
  · refine drain_induction (p := fun y => ∃ x ∈ seeds, Relation.ReflTransGen (fun a b => b ∈ next a) x y)
      (fun x seed y isNext => ⟨x, seed, .single isNext⟩) ?_ inv.stack_work (fun x seed => ⟨x, seed, .refl⟩) y
    rintro y z ⟨x, seed, path⟩ isNext
    exact ⟨x, seed, path.tail isNext⟩
  · rintro ⟨x, seed, path⟩
    have grows : seeds ⊆ (drain next fuel ⟨seeds, seeds, seeds.reverse⟩).found :=
      drain_rule (fun v => seeds ⊆ v.found) (fun v z stack _ below u kept => mem_foldl_found.mpr (.inr (below kept)))
        (List.Subset.refl _)
    induction path with
    | refl => exact grows seed
    | tail _ isNext ih => exact inv.drain_closed inside (measure_seeds.trans enough) (.inr ih) isNext

/-- Draining from seeds of which none counts as found finds what is downstream of them. -/
theorem mem_drain_seeds {bound : Finset α} {fuel : ℕ} {seeds : List α} (inside : ∀ x, ∀ y ∈ next x, y ∈ bound)
    (enough : seeds.length + bound.card ≤ fuel) :
    y ∈ (drain next fuel ⟨[], seeds, seeds.reverse⟩).found ↔
      ∃ x ∈ seeds, Relation.TransGen (fun a b => b ∈ next a) x y := by
  have inv : Inv next ⟨[], seeds, seeds.reverse⟩ :=
    ⟨by simp, fun _ => List.mem_reverse.mp, fun x worked off => absurd (List.mem_reverse.mpr worked) off⟩
  constructor
  · refine drain_induction (p := fun y => ∃ x ∈ seeds, Relation.TransGen (fun a b => b ∈ next a) x y)
      (fun x seed y isNext => ⟨x, seed, .single isNext⟩) ?_ inv.stack_work (by simp) y
    rintro y z ⟨x, seed, path⟩ isNext
    exact ⟨x, seed, path.tail isNext⟩
  · rintro ⟨x, seed, path⟩
    induction path with
    | single isNext => exact inv.drain_closed inside (measure_seeds.trans enough) (.inl seed) isNext
    | tail _ isNext ih => exact inv.drain_closed inside (measure_seeds.trans enough) (.inr ih) isNext

/-- Draining from one node that counts as never visited finds the nodes downstream of it. -/
theorem mem_drain_downstream {bound : Finset α} {fuel : ℕ} (inside : ∀ x, ∀ y ∈ next x, y ∈ bound)
    (enough : bound.card ≤ fuel) :
    y ∈ (drain next (fuel + 1) ⟨[], [], [x]⟩).found ↔ Relation.TransGen (fun a b => b ∈ next a) x y := by
  let first : Worklist α := (next x).foldl find ⟨[], [], []⟩
  change y ∈ (drain next fuel first).found ↔ _
  have visiting : Visiting next x first :=
    foldl_find (Visiting next x) (next x) (fun _ y _ inv => inv.find y) ⟨by simp, by simp, by simp⟩
  have seeds : ∀ z, z ∈ first.found ↔ z ∈ next x := fun z => by simp [first, mem_foldl_found]
  have inv : Inv next first := by
    refine ⟨visiting.found_work, visiting.stack_work, fun z worked off u isNext => ?_⟩
    by_cases same : z = x
    · subst same
      exact (seeds u).mpr isNext
    · exact visiting.visited z worked off same u isNext
  have work_found : first.work ⊆ first.found := by
    refine foldl_find (fun w => w.work ⊆ w.found) (next x) (fun w z _ below => ?_) (List.Subset.refl _)
    unfold find
    split_ifs
    · exact below
    · exact fun u kept => .tail _ (below kept)
    · exact fun u kept => List.mem_cons.mpr ((List.mem_cons.mp kept).imp_right (below ·))
  have fuelled : first.measure bound ≤ fuel := by
    have shrinks := foldl_find (fun v => v.measure bound ≤ (⟨[], [], []⟩ : Worklist α).measure bound) (next x)
      (fun v z isNext le => (measure_find (inside x z isNext)).trans le) le_rfl
    refine shrinks.trans ?_
    simpa [measure] using enough
  constructor
  · refine drain_induction (fun z worked u isNext => ?_) (fun z u path isNext => path.tail isNext)
      inv.stack_work (fun z found => .single ((seeds z).mp found)) y
    exact (Relation.TransGen.single ((seeds z).mp (work_found worked))).tail isNext
  · intro path
    have grows : first.found ⊆ (drain next fuel first).found :=
      drain_rule (fun v => first.found ⊆ v.found) (fun v z stack _ below u kept =>
        mem_foldl_found.mpr (.inr (below kept))) (List.Subset.refl _)
    induction path with
    | single isNext => exact grows ((seeds _).mpr isNext)
    | tail _ isNext ih => exact inv.drain_closed inside fuelled (.inr ih) isNext

end Worklist

end Ctadl.Flowgraph
