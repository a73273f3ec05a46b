import Ctadl.Collections.Loops
import Mathlib.Data.List.Forall2

/-! # Walks over trees on an explicit stack

A tree of any depth is visited, copied and compared by a loop that keeps what is left to do on a stack. Each loop ends, with
what the recursion over the tree answers.
-/

namespace Ctadl.Collections

/-- A value with trees below it. -/
inductive Tree (α : Type*)
  | node (value : α) (children : List (Tree α))

namespace Tree

variable {α : Type*}

def value : Tree α → α
  | node value _ => value

def children : Tree α → List (Tree α)
  | node _ children => children

/-- A tree is built from trees that are built before it. -/
@[elab_as_elim, induction_eliminator]
theorem induct {motive : Tree α → Prop} (node : ∀ a ts, (∀ t ∈ ts, motive t) → motive (node a ts)) (t : Tree α) : motive t :=
  @Tree.rec α motive (fun ts => ∀ t ∈ ts, motive t) (fun a ts ih => node a ts ih) nofun
    (fun _ _ first rest => List.forall_mem_cons.mpr ⟨first, rest⟩) t

/-- Every value in a tree satisfies `p`. -/
inductive All (p : α → Prop) : Tree α → Prop
  | node {a : α} {ts : List (Tree α)} : p a → (∀ t ∈ ts, All p t) → All p (node a ts)

theorem all_node {p : α → Prop} {a : α} {ts : List (Tree α)} : All p (node a ts) ↔ p a ∧ ∀ t ∈ ts, All p t :=
  ⟨fun | .node here below => ⟨here, below⟩, fun both => .node both.1 both.2⟩

@[simp] theorem value_node (a : α) (ts : List (Tree α)) : (node a ts).value = a := rfl

@[simp] theorem children_node (a : α) (ts : List (Tree α)) : (node a ts).children = ts := rfl

/-- A step of a visit. -/
inductive Visit (α : Type*)
  /-- A tree, before what is below it. -/
  | opening (t : Tree α)
  /-- Between two trees below the same. -/
  | between
  /-- A tree, after what is below it. -/
  | closing (t : Tree α)

section Visits

mutual

/-- The visits of a tree, in order. -/
def visits : Tree α → List (Visit α)
  | node a ts => .opening (node a ts) :: (visitsBelow ts ++ [.closing (node a ts)])

def visitsBelow : List (Tree α) → List (Visit α)
  | [] => []
  | [t] => visits t
  | t :: t' :: ts => visits t ++ .between :: visitsBelow (t' :: ts)

end

/-- Puts a tree and what is below it on the stack. -/
def expand (t : Tree α) (pending : List (Visit α)) : List (Visit α) :=
  t.children.zipIdx.foldr (fun child pending =>
    let pending := .opening child.1 :: pending
    if child.2 > 0 then .between :: pending else pending) (.closing t :: pending)

variable {σ ε : Type} (f : σ → Visit α → Except ε σ)

/-- The stack behind a visit. -/
def Visit.after (pending : List (Visit α)) : Visit α → List (Visit α)
  | opening t => t.expand pending
  | between | closing _ => pending

def visitStep : List (Visit α) × σ → (List (Visit α) × σ) ⊕ Except ε σ
  | ([], acc) => .inr (.ok acc)
  | (visit :: pending, acc) =>
    match f acc visit with
    | .ok acc => .inl (visit.after pending, acc)
    | .error e => .inr (.error e)

/-- The visits that one on the stack stands for. -/
def Visit.all : Visit α → List (Visit α)
  | opening t => t.visits
  | between => [between]
  | closing t => [closing t]

theorem visitsBelow_cons (t : Tree α) (ts : List (Tree α)) :
    visitsBelow (t :: ts) = t.visits ++ ts.flatMap fun t => .between :: t.visits := by
  induction ts generalizing t with
  | nil => rw [visitsBelow, List.flatMap_nil, List.append_nil]
  | cons t' ts ih => rw [visitsBelow, ih, List.flatMap_cons, List.cons_append]

/-- Puts the trees below another on the stack, from the `n`-th on. -/
def push (ts : List (Tree α)) (n : ℕ) (pending : List (Visit α)) : List (Visit α) :=
  (ts.zipIdx n).foldr (fun child pending =>
    let pending := .opening child.1 :: pending
    if child.2 > 0 then .between :: pending else pending) pending

theorem push_cons (t : Tree α) (ts : List (Tree α)) (n : ℕ) (pending : List (Visit α)) :
    push (t :: ts) n pending = if n > 0 then .between :: .opening t :: push ts (n + 1) pending
      else .opening t :: push ts (n + 1) pending := rfl

theorem all_push_succ (ts : List (Tree α)) (n : ℕ) (pending : List (Visit α)) :
    (push ts (n + 1) pending).flatMap Visit.all =
      (ts.flatMap fun t => .between :: t.visits) ++ pending.flatMap Visit.all := by
  induction ts generalizing n with
  | nil => rfl
  | cons t ts ih =>
    rw [push_cons, if_pos (Nat.succ_pos n), List.flatMap_cons, List.flatMap_cons, ih]
    simp only [Visit.all, List.flatMap_cons, List.cons_append, List.nil_append, List.append_assoc]

theorem all_expand (t : Tree α) (pending : List (Visit α)) :
    (t.expand pending).flatMap Visit.all = visitsBelow t.children ++ .closing t :: pending.flatMap Visit.all := by
  change (push t.children 0 (.closing t :: pending)).flatMap Visit.all = _
  cases t.children with
  | nil =>
    rw [visitsBelow]
    rfl
  | cons t' ts =>
    rw [push_cons, if_neg (Nat.lt_irrefl 0), List.flatMap_cons, all_push_succ, visitsBelow_cons]
    simp only [Visit.all, List.flatMap_cons, List.cons_append, List.nil_append, List.append_assoc]

theorem visits_eq (t : Tree α) : t.visits = .opening t :: (visitsBelow t.children ++ [.closing t]) := by
  cases t with
  | node a ts => rw [visits, children]

theorem all_cons (visit : Visit α) (pending : List (Visit α)) :
    (visit :: pending).flatMap Visit.all = visit :: (visit.after pending).flatMap Visit.all := by
  rw [List.flatMap_cons]
  cases visit with
  | opening t =>
    rw [Visit.all, visits_eq, Visit.after, all_expand, List.cons_append, List.append_assoc, List.singleton_append]
  | between => rfl
  | closing t => rfl

/-- What is left to visit loses its first visit in every step. -/
theorem answers_visit (pending : List (Visit α)) (acc : σ) :
    Answers (visitStep f) (pending, acc) ((pending.flatMap Visit.all).foldlM f acc) := by
  generalize rest : pending.flatMap Visit.all = visits
  induction visits generalizing pending acc with
  | nil =>
    cases pending with
    | nil => exact .intro rfl
    | cons visit pending =>
      rw [all_cons] at rest
      exact nomatch rest
  | cons visit visits ih =>
    cases pending with
    | nil => exact nomatch rest
    | cons first pending =>
      obtain ⟨rfl, rest'⟩ := List.cons.inj ((all_cons first pending).symm.trans rest)
      have here : visitStep f (first :: pending, acc) = match f acc first with
        | .ok acc => .inl (first.after pending, acc)
        | .error e => .inr (.error e) := rfl
      rw [List.foldlM_cons]
      cases called : f acc first with
      | error e =>
        rw [called] at here
        exact .intro here
      | ok acc =>
        rw [called] at here
        exact .after here (ih (first.after pending) acc rest')

/-- The loop visits what the recursion does, and stops where the function fails. -/
theorem answers_visits (t : Tree α) (acc : σ) : Answers (visitStep f) ([.opening t], acc) (t.visits.foldlM f acc) := by
  have all := answers_visit f [.opening t] acc
  rwa [List.flatMap_cons, List.flatMap_nil, List.append_nil] at all

end Visits

section Copies

/-- A tree without what is below it. -/
def bare (t : Tree α) : Tree α := node t.value []

/-- A tree with one more below it. -/
def attach (t child : Tree α) : Tree α := node t.value (t.children ++ [child])

/-- The trees being copied, each with its copy so far, the innermost first. -/
def copyStep : (Tree α × Tree α) × List (Tree α × Tree α) → ((Tree α × Tree α) × List (Tree α × Tree α)) ⊕ Tree α
  | ((source, copy), opened) =>
    match source.children[copy.children.length]? with
    | some child => .inl ((child, child.bare), (source, copy) :: opened)
    | none => match opened with
      | [] => .inr copy
      | parent :: opened => .inl ((parent.1, parent.2.attach copy), opened)

/-- Copying a tree leads from its bare copy to itself, whatever is being copied around it. -/
theorem leads_copy (t : Tree α) (opened : List (Tree α × Tree α)) :
    Leads copyStep ((t, t.bare), opened) ((t, t), opened) := by
  induction t generalizing opened with
  | node a ts ih =>
    have some' : ∀ k ≤ ts.length, Leads copyStep ((node a ts, node a []), opened) ((node a ts, node a (ts.take k)), opened) := by
      intro k le
      induction k with
      | zero => exact .refl
      | succ k before =>
        have inside : k < ts.length := le
        have length : (ts.take k).length = k := List.length_take_of_le (Nat.le_of_lt inside)
        have opens : copyStep ((node a ts, node a (ts.take k)), opened) =
            .inl ((ts[k], ts[k].bare), (node a ts, node a (ts.take k)) :: opened) := by
          unfold copyStep
          simp only [children_node, length, List.getElem?_eq_getElem inside]
        have closes : copyStep ((ts[k], ts[k]), (node a ts, node a (ts.take k)) :: opened) =
            .inl ((node a ts, node a (ts.take (k + 1))), opened) := by
          unfold copyStep
          simp only [List.getElem?_length, attach, value_node, children_node, List.take_append_getElem inside]
        exact (((before (Nat.le_of_lt inside)).tail opens).trans
          (ih ts[k] (List.getElem_mem inside) _)).tail closes
    have all := some' ts.length (Nat.le_refl _)
    rwa [List.take_length] at all

/-- The copy of a tree is the tree. -/
theorem answers_copy (t : Tree α) : Answers copyStep ((t, t.bare), []) t := by
  have done : copyStep ((t, t), []) = .inr t := by
    unfold copyStep
    simp only [List.getElem?_length]
  exact (leads_copy t []).answers (.intro done)

end Copies

section Comparisons

variable [DecidableEq α]

/-- The pairs of trees left to compare. -/
def sameStep : List (Tree α × Tree α) → List (Tree α × Tree α) ⊕ Bool
  | [] => .inr true
  | (a, b) :: pending =>
    if a.value ≠ b.value ∨ a.children.length ≠ b.children.length then .inr false
    else .inl ((a.children.zip b.children).reverse ++ pending)

/-- Pairs on the stack are compared before what is below them. -/
theorem answers_pairs {pairs pending : List (Tree α × Tree α)} {r : Bool}
    (each : ∀ p ∈ pairs, ∀ pending r, (p.1 = p.2 → Answers sameStep pending r) → (p.1 ≠ p.2 → r = false) →
      Answers sameStep (p :: pending) r)
    (same : (∀ p ∈ pairs, p.1 = p.2) → Answers sameStep pending r) (other : (¬ ∀ p ∈ pairs, p.1 = p.2) → r = false) :
    Answers sameStep (pairs ++ pending) r := by
  induction pairs with
  | nil => exact same nofun
  | cons p pairs ih =>
    refine each p List.mem_cons_self _ _ (fun equal => ?_) fun differ => other fun all => differ (all p List.mem_cons_self)
    refine ih (fun q inside => each q (List.mem_cons_of_mem _ inside)) (fun all => ?_) fun some' => other fun all => ?_
    · exact same (List.forall_mem_cons.mpr ⟨equal, all⟩)
    · exact some' (List.forall_mem_cons.mp all).2

/-- A pair on the stack is answered by the stack below it if it is equal, and in the negative if not. -/
theorem answers_pair (a b : Tree α) (pending : List (Tree α × Tree α)) (r : Bool)
    (same : a = b → Answers sameStep pending r) (other : a ≠ b → r = false) : Answers sameStep ((a, b) :: pending) r := by
  induction a generalizing b pending r with
  | node v ts ih =>
    obtain ⟨w, us⟩ := b
    by_cases here : v ≠ w ∨ ts.length ≠ us.length
    · have differ : node v ts ≠ node w us := by
        rintro ⟨rfl, rfl⟩
        exact here.elim (absurd rfl) (absurd rfl)
      obtain rfl := other differ
      exact .intro (if_pos here)
    · have next : sameStep ((node v ts, node w us) :: pending) = .inl ((ts.zip us).reverse ++ pending) := if_neg here
      push Not at here
      obtain ⟨rfl, length⟩ := here
      have pairs : (∀ p ∈ (ts.zip us).reverse, p.1 = p.2) ↔ node v ts = node v us := by
        rw [node.injEq, ← List.forall₂_eq_eq_eq, List.forall₂_iff_zip]
        simp only [List.mem_reverse, Prod.forall, true_and, length]
      refine .after next (answers_pairs (fun p inside => ?_) (fun all => same (pairs.mp all)) fun some' => ?_)
      · exact ih p.1 (List.of_mem_zip (List.mem_reverse.mp inside)).1 p.2
      · exact other fun equal => some' (pairs.mpr equal)

/-- The comparison of two trees says whether they are equal. -/
theorem answers_same (a b : Tree α) : ∃ r, Answers sameStep [(a, b)] r ∧ (r = true ↔ a = b) := by
  by_cases equal : a = b
  · exact ⟨true, answers_pair a b [] true (fun _ => .intro rfl) fun differ => absurd equal differ, iff_of_true rfl equal⟩
  · exact ⟨false, answers_pair a b [] false (fun same => absurd same equal) fun _ => rfl, iff_of_false Bool.false_ne_true equal⟩

end Comparisons

end Tree

end Ctadl.Collections
