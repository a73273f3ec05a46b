import Mathlib.Logic.Relation
import Mathlib.Order.Preorder.Finite
import Mathlib.Data.List.Nodup
import Mathlib.Data.Finset.Card
import Mathlib.Data.Finset.Dedup
import Mathlib.Tactic.Common

/-! # Inheritance along a relation

What a node inherits is what the nodes above it declare, and a declaration is overridden by one strictly below it: on a cycle
neither of two declarations overrides the other. A list of nodes is closed in place by appending, node by node, the parents
it does not hold.
-/

namespace Ctadl.Graph

open Relation

section MostSpecific

variable {α : Type*} (super : α → α → Prop) (declares : α → Prop)

/-- A declaration at or above the start that no declaration strictly below it overrides. -/
structure MostSpecific (start c : α) : Prop where
  above : ReflTransGen super start c
  declared : declares c
  specific : ∀ d, ReflTransGen super start d → declares d → ReflTransGen super d c → ReflTransGen super c d

variable {super declares} {start c : α}

/-- Below every declaration there is a most specific one. -/
theorem exists_mostSpecific (finite : {c | ReflTransGen super start c}.Finite) (above : ReflTransGen super start c)
    (declared : declares c) : ∃ d, ReflTransGen super d c ∧ MostSpecific super declares start d := by
  let _ : Preorder α :=
    { le := ReflTransGen super, le_refl := fun _ => .refl, le_trans := fun _ _ _ => ReflTransGen.trans }
  have inherited : {c | ReflTransGen super start c ∧ declares c}.Finite := finite.subset fun _ both => both.1
  obtain ⟨d, below, minimal⟩ := inherited.exists_le_minimal ⟨above, declared⟩
  exact ⟨d, below, minimal.prop.1, minimal.prop.2, fun e above declared below => minimal.le_of_le ⟨above, declared⟩ below⟩

/-- A property all declarations have is one of a most specific one. -/
theorem MostSpecific.exists_of_forall {p : α → Prop} (finite : {c | ReflTransGen super start c}.Finite)
    (above : ReflTransGen super start c) (declared : declares c) (all : ∀ d, ReflTransGen super start d → declares d → p d) :
    ∃ d, MostSpecific super declares start d ∧ p d := by
  obtain ⟨d, -, specific⟩ := exists_mostSpecific finite above declared
  exact ⟨d, specific, all d specific.above specific.declared⟩

end MostSpecific

section Closing

variable {α : Type*} [DecidableEq α]

/-- Appends the nodes the list does not hold. -/
def appendNew (closure nodes : List α) : List α := nodes.foldl (fun closure node => if node ∈ closure then closure else closure ++ [node]) closure

/-- Closes a list under `next` from an index on: a node's successors are appended when its turn comes. -/
def closeFrom (next : α → List α) : ℕ → List α → ℕ → List α
  | 0, closure, _ => closure
  | fuel + 1, closure, index =>
    match closure[index]? with
    | none => closure
    | some node => closeFrom next fuel (appendNew closure (next node)) (index + 1)

variable {next : α → List α} {closure nodes : List α} {start x y : α} {fuel index : ℕ}

theorem mem_appendNew : x ∈ appendNew closure nodes ↔ x ∈ closure ∨ x ∈ nodes := by
  induction nodes generalizing closure with
  | nil => simp [appendNew]
  | cons node nodes ih =>
    rw [appendNew, List.foldl_cons]
    split_ifs with held
    · rw [← appendNew, ih, List.mem_cons]
      constructor
      · rintro (old | new)
        · exact .inl old
        · exact .inr (.inr new)
      · rintro (old | rfl | new)
        · exact .inl old
        · exact .inl held
        · exact .inr new
    · rw [← appendNew, ih, List.mem_append, List.mem_singleton, List.mem_cons, or_assoc]

theorem isPrefix_appendNew (closure nodes : List α) : closure <+: appendNew closure nodes := by
  induction nodes generalizing closure with
  | nil => exact List.prefix_rfl
  | cons node nodes ih =>
    rw [appendNew, List.foldl_cons]
    split_ifs
    · exact ih closure
    · exact (List.prefix_append closure [node]).trans (ih _)

theorem nodup_appendNew (nodup : closure.Nodup) : (appendNew closure nodes).Nodup := by
  induction nodes generalizing closure with
  | nil => exact nodup
  | cons node nodes ih =>
    rw [appendNew, List.foldl_cons]
    split_ifs with held
    · exact ih nodup
    · exact ih (List.nodup_append.mpr ⟨nodup, List.nodup_singleton node, by grind⟩)

/-- The nodes before the index have their successors in the list, which holds only what is reached. -/
structure Closing (next : α → List α) (start : α) (closure : List α) (index : ℕ) : Prop where
  nodup : closure.Nodup
  start_mem : start ∈ closure
  reached : ∀ x ∈ closure, ReflTransGen (fun x y => y ∈ next x) start x
  closed : ∀ j < index, ∀ x, closure[j]? = some x → ∀ y ∈ next x, y ∈ closure
  index_le : index ≤ closure.length

theorem Closing.step {node : α} (closing : Closing next start closure index) (here : closure[index]? = some node) :
    Closing next start (appendNew closure (next node)) (index + 1) := by
  obtain ⟨rest, extended⟩ := isPrefix_appendNew closure (next node)
  obtain ⟨bound, -⟩ := List.getElem?_eq_some_iff.mp here
  refine ⟨nodup_appendNew closing.nodup, mem_appendNew.mpr (.inl closing.start_mem), ?_, ?_, ?_⟩
  · intro x member
    rcases mem_appendNew.mp member with old | new
    · exact closing.reached x old
    · exact (closing.reached node (List.mem_of_getElem? here)).tail new
  · intro j before x at_j y member
    rw [← extended, List.getElem?_append_left (by omega)] at at_j
    rcases Nat.lt_succ_iff_lt_or_eq.mp before with earlier | rfl
    · exact mem_appendNew.mpr (.inl (closing.closed j earlier x at_j y member))
    · obtain rfl := Option.some.inj (here.symm.trans at_j)
      exact mem_appendNew.mpr (.inr member)
  · rw [← extended, List.length_append]
    omega

theorem closeFrom_closing {bound : List α} (closing : Closing next start closure index)
    (inside : ∀ x, ReflTransGen (fun x y => y ∈ next x) start x → x ∈ bound) (enough : bound.length ≤ index + fuel) :
    ∃ stop, Closing next start (closeFrom next fuel closure index) stop ∧ (closeFrom next fuel closure index).length = stop := by
  induction fuel generalizing closure index with
  | zero =>
    rw [closeFrom]
    refine ⟨index, closing, ?_⟩
    have card : closure.length ≤ bound.length :=
      (List.subperm_of_subset closing.nodup fun x member => inside x (closing.reached x member)).length_le
    have index_le := closing.index_le
    omega
  | succ fuel ih =>
    rw [closeFrom]
    split
    · rename_i past
      have length_le := List.getElem?_eq_none_iff.mp past
      exact ⟨index, closing, Nat.le_antisymm length_le closing.index_le⟩
    · rename_i node here
      exact ih (closing.step here) (by omega)

/-- Closing one node yields what it reaches. -/
theorem mem_closeFrom_iff (bound : List α) (inside : ∀ x, ReflTransGen (fun x y => y ∈ next x) start x → x ∈ bound)
    (enough : bound.length ≤ fuel) : x ∈ closeFrom next fuel [start] 0 ↔ ReflTransGen (fun x y => y ∈ next x) start x := by
  have initial : Closing next start [start] 0 :=
    ⟨List.nodup_singleton start, List.mem_singleton_self start, fun x same => List.mem_singleton.mp same ▸ .refl,
      nofun, Nat.zero_le _⟩
  obtain ⟨stop, closing, all⟩ := closeFrom_closing initial inside ((Nat.zero_add fuel).symm ▸ enough)
  constructor
  · exact closing.reached x
  · intro reached
    induction reached with
    | refl => exact closing.start_mem
    | @tail y z _ edge ih =>
      obtain ⟨j, bound, at_j⟩ := List.getElem_of_mem ih
      exact closing.closed j (by omega) y (List.getElem?_eq_some_iff.mpr ⟨bound, at_j⟩) z edge

end Closing

end Ctadl.Graph
