import Mathlib.Order.Nat

/-! # Dominance in a rooted graph

`Avoids edge start x n` says that some walk from `start` reaches `n` without ever standing on `x`, and
`Dominates` is its negation: every walk from the start to `n` meets `x`. Walks are never cut or
glued as lists; each fact is an induction along the reachability of one node, with the walk so far
described by the disjunct it has reached.

A table of parents need not hold *immediate* dominators to be useful. `Above` is the chain of
parents of a node, and `ParentTable` only asks that each parent be a dominator and come earlier in
some ranking.
-/

namespace Ctadl.Flowgraph

open Relation

variable {N : Type*} {edge : N → N → Prop} {start x y z n m : N}

/-- A walk from the start leads to the node. -/
def Reachable (edge : N → N → Prop) (start n : N) : Prop := ReflTransGen edge start n

/-- A walk from the start leads to the node and never stands on `x`. -/
def Avoids (edge : N → N → Prop) (start x n : N) : Prop :=
  start ≠ x ∧ ReflTransGen (fun a b => edge a b ∧ b ≠ x) start n

/-- Every walk from the start to the node stands on `x` somewhere. -/
def Dominates (edge : N → N → Prop) (start x n : N) : Prop := ¬ Avoids edge start x n

theorem Avoids.root (other : start ≠ x) : Avoids edge start x start := ⟨other, .refl⟩

theorem Avoids.step (avoids : Avoids edge start x n) (out : edge n m) (other : m ≠ x) :
    Avoids edge start x m := ⟨avoids.1, avoids.2.tail ⟨out, other⟩⟩

theorem Avoids.ne (avoids : Avoids edge start x n) : n ≠ x := by
  obtain ⟨other, walk⟩ := avoids
  cases walk with
  | refl => exact other
  | tail _ last => exact last.2

theorem Dominates.refl (n : N) : Dominates edge start n n := fun avoids => avoids.ne rfl

theorem Dominates.of_start (n : N) : Dominates edge start start n := fun avoids => avoids.1 rfl

/-- A walk that avoids `x` either avoids `y` too or shows how to get to `y` without `x`. -/
theorem Avoids.avoids_or (avoids : Avoids edge start x n) :
    Avoids edge start y n ∨ Avoids edge start x y := by
  obtain ⟨other, walk⟩ := avoids
  induction walk with
  | refl =>
    by_cases same : start = y
    · exact .inr (same ▸ .root other)
    · exact .inl (.root same)
  | @tail _ c sofar last ih =>
    by_cases same : c = y
    · exact .inr (same ▸ ⟨other, sofar.tail last⟩)
    · exact ih.imp_left fun avoided => avoided.step last.1 same

theorem Dominates.trans (first : Dominates edge start x y) (second : Dominates edge start y n) :
    Dominates edge start x n :=
  fun avoids => avoids.avoids_or.elim second first

/-- A dominator of a node that is not the dominator's own successor dominates the predecessor. -/
theorem Dominates.of_edge (dominates : Dominates edge start x m) (out : edge n m) (other : m ≠ x) :
    Dominates edge start x n :=
  fun avoids => dominates (avoids.step out other)

/-- Two different nodes cannot dominate each other: one of the two is met first. -/
theorem Dominates.avoids_of_ne (dominates : Dominates edge start x z) (other : x ≠ z)
    (reachable : Reachable edge start z) : Avoids edge start z x := by
  have first : ∀ n, Reachable edge start n →
      (Avoids edge start z n ∧ Avoids edge start x n) ∨ Avoids edge start z x ∨ Avoids edge start x z := by
    intro n walk
    induction walk with
    | refl =>
      by_cases atX : start = x
      · exact .inr (.inl (atX ▸ .root (atX ▸ other)))
      · by_cases atZ : start = z
        · exact .inr (.inr (atZ ▸ .root (atZ ▸ Ne.symm other)))
        · exact .inl ⟨.root atZ, .root atX⟩
    | @tail _ c _ out ih =>
      rcases ih with ⟨avoidsZ, avoidsX⟩ | found
      · by_cases atX : c = x
        · exact .inr (.inl (atX ▸ avoidsZ.step out (atX ▸ other)))
        · by_cases atZ : c = z
          · exact .inr (.inr (atZ ▸ avoidsX.step out (atZ ▸ Ne.symm other)))
          · exact .inl ⟨avoidsZ.step out atZ, avoidsX.step out atX⟩
      · exact .inr found
  rcases first z reachable with ⟨avoidsZ, -⟩ | avoidsZ | avoidsX
  · exact absurd rfl avoidsZ.ne
  · exact avoidsZ
  · exact absurd avoidsX dominates

/-- A walk to a node leads on from each of its dominators. -/
theorem Dominates.leads (dominates : Dominates edge start x n) (reachable : Reachable edge start n) :
    ReflTransGen edge x n := by
  have along : ∀ n, Reachable edge start n → Avoids edge start x n ∨ ReflTransGen edge x n := by
    intro n walk
    induction walk with
    | refl =>
      by_cases same : start = x
      · exact .inr (same ▸ .refl)
      · exact .inl (.root same)
    | @tail _ c _ out ih =>
      by_cases same : c = x
      · exact .inr (same ▸ .refl)
      · exact ih.imp (fun avoids => avoids.step out same) fun walk => walk.tail out
  exact (along n reachable).resolve_left dominates

/-- A table of parents, each of which dominates its child and is ranked before it. -/
structure ParentTable (edge : N → N → Prop) (start : N) (parent : N → N) (rank : N → ℕ) : Prop where
  /-- The start is its own parent. -/
  root : parent start = start
  rank_lt : ∀ {n}, Reachable edge start n → n ≠ start → rank (parent n) < rank n
  reachable : ∀ {n}, Reachable edge start n → Reachable edge start (parent n)
  dominates : ∀ {n}, Reachable edge start n → n ≠ start → Dominates edge start (parent n) n

/-- `Above parent start z n`: `z` is `n` or one of its parents, up to the start. -/
inductive Above (parent : N → N) (start z : N) : N → Prop
  | refl : Above parent start z z
  | up {n : N} (inner : n ≠ start) (above : Above parent start z (parent n)) : Above parent start z n

namespace Above

variable {parent : N → N} {rank : N → ℕ}

theorem trans (lower : Above parent start y n) (upper : Above parent start x y) :
    Above parent start x n := by
  induction lower with
  | refl => exact upper
  | up inner _ ih => exact .up inner ih

theorem at_start (above : Above parent start z start) : z = start := by
  cases above with
  | refl => rfl
  | up inner _ => exact absurd rfl inner

/-- Either the chain stops here or it goes on from the parent. -/
theorem eq_or_parent (above : Above parent start z n) :
    z = n ∨ (n ≠ start ∧ Above parent start z (parent n)) := by
  cases above with
  | refl => exact .inl rfl
  | up inner above => exact .inr ⟨inner, above⟩

/-- Two nodes above one node are above each other, one way or the other. -/
theorem total (first : Above parent start x n) (second : Above parent start y n) :
    Above parent start x y ∨ Above parent start y x := by
  induction first with
  | refl => exact .inr second
  | up inner above ih =>
    rcases second.eq_or_parent with rfl | ⟨-, rest⟩
    · exact .inl (.up inner above)
    · exact ih rest

/-- Either the chain starts here or it starts with a child. -/
theorem eq_or_child (above : Above parent start z n) :
    n = z ∨ ∃ c, c ≠ start ∧ parent c = z ∧ Above parent start c n := by
  induction above with
  | refl => exact .inl rfl
  | @up n inner _ ih =>
    rcases ih with same | ⟨c, cInner, child, above⟩
    · exact .inr ⟨n, inner, same, .refl⟩
    · exact .inr ⟨c, cInner, child, .up inner above⟩

variable (table : ParentTable edge start parent rank)
include table

theorem reachable (above : Above parent start z n) (reached : Reachable edge start n) :
    Reachable edge start z := by
  induction above with
  | refl => exact reached
  | up inner _ ih => exact ih (table.reachable reached)

theorem rank_le (above : Above parent start z n) (reached : Reachable edge start n) :
    rank z ≤ rank n := by
  induction above with
  | refl => exact le_rfl
  | up inner _ ih =>
    have later := table.rank_lt reached inner
    have earlier := ih (table.reachable reached)
    omega

/-- A node strictly above another is ranked strictly before it. -/
theorem rank_lt (above : Above parent start z n) (other : z ≠ n) (reached : Reachable edge start n) :
    rank z < rank n := by
  rcases above.eq_or_parent with same | ⟨inner, rest⟩
  · exact absurd same other
  · exact Nat.lt_of_le_of_lt (rank_le table rest (table.reachable reached)) (table.rank_lt reached inner)

theorem dominates (above : Above parent start z n) (reached : Reachable edge start n) :
    Dominates edge start z n := by
  induction above with
  | refl => exact .refl _
  | up inner _ ih => exact (ih (table.reachable reached)).trans (table.dominates reached inner)

theorem antisymm (first : Above parent start x y) (second : Above parent start y x)
    (reached : Reachable edge start x) : x = y := by
  by_contra other
  have later := rank_lt table second (Ne.symm other) reached
  have earlier := rank_lt table first other (second.reachable table reached)
  omega

/-- A child is never above its own parent. -/
theorem not_parent (inner : n ≠ start) (reached : Reachable edge start n) :
    ¬ Above parent start n (parent n) := by
  intro above
  have later := rank_le table above (table.reachable reached)
  have earlier := table.rank_lt reached inner
  omega

/-- What is below two children of one node is below one child. -/
theorem same_child (xInner : x ≠ start) (yInner : y ≠ start) (siblings : parent x = parent y)
    (first : Above parent start x n) (second : Above parent start y n) (reached : Reachable edge start n) : x = y := by
  rcases first.total second with above | above
  · rcases above.eq_or_parent with same | ⟨-, above⟩
    · exact same
    · exact absurd (siblings ▸ above) (not_parent table xInner (first.reachable table reached))
  · rcases above.eq_or_parent with same | ⟨-, above⟩
    · exact same.symm
    · exact absurd (siblings ▸ above) (not_parent table yInner (second.reachable table reached))

theorem of_reachable (reached : Reachable edge start n) : Above parent start start n := by
  induction measure : rank n using Nat.strong_induction_on generalizing n with
  | _ r ih =>
    by_cases atStart : n = start
    · exact atStart ▸ .refl
    · exact .up atStart (ih _ (measure ▸ table.rank_lt reached atStart) (table.reachable reached) rfl)

/-- The nearest node above `n` with a property that the start has. -/
theorem exists_nearest (p : N → Prop) (atStart : p start) (reached : Reachable edge start n) :
    ∃ z, Above parent start z n ∧ p z ∧ ∀ y, Above parent start y n → p y → Above parent start y z := by
  have toStart := of_reachable table reached
  induction toStart with
  | refl => exact ⟨_, .refl, atStart, fun _ above _ => above⟩
  | @up n inner _ ih =>
    by_cases here : p n
    · exact ⟨n, .refl, here, fun _ above _ => above⟩
    · obtain ⟨z, above, has, nearest⟩ := ih (table.reachable reached)
      refine ⟨z, .up inner above, has, fun y higher holds => ?_⟩
      rcases higher.eq_or_parent with rfl | ⟨-, rest⟩
      · exact absurd holds here
      · exact nearest y rest holds

end Above

end Ctadl.Flowgraph
