import Mathlib.Data.List.Basic

/-! # Greedy segmentation of a list

A list is cut into runs from the left: a run takes the next element as long as the predicate holds of
the run with it, and a new run starts where it does not. A run of one element is always allowed.
-/

namespace Ctadl.Jni

variable {α : Type*} (fits : List α → Bool)

/-- The runs of the elements to come, `run` being the one that is open. -/
def runsFrom : List α → List α → List (List α)
  | run, [] => [run]
  | run, x :: xs => if fits (run ++ [x]) then runsFrom (run ++ [x]) xs else run :: runsFrom [x] xs

/-- The longest runs from the left. -/
def runsOf : List α → List (List α)
  | [] => []
  | x :: xs => runsFrom fits [x] xs

variable {fits}

theorem flatten_runsFrom {run xs : List α} : (runsFrom fits run xs).flatten = run ++ xs := by
  induction xs generalizing run with
  | nil => simp [runsFrom]
  | cons x xs ih =>
    unfold runsFrom
    split_ifs
    · rw [ih, List.append_assoc, List.singleton_append]
    · rw [List.flatten_cons, ih, List.singleton_append]

/-- The runs are the list, cut. -/
theorem flatten_runsOf {xs : List α} : (runsOf fits xs).flatten = xs := by
  cases xs with
  | nil => rfl
  | cons x xs => exact flatten_runsFrom

/-- What holds of every run: it holds of one element, and a run that fits keeps it. -/
theorem runsOf_rule (p : List α → Prop) {xs : List α} (one : ∀ x ∈ xs, p [x])
    (grow : ∀ run x, p run → fits (run ++ [x]) = true → p (run ++ [x])) : ∀ run ∈ runsOf fits xs, p run := by
  have rule : ∀ (xs run : List α), (∀ x ∈ xs, p [x]) → p run → ∀ r ∈ runsFrom fits run xs, p r := by
    intro xs
    induction xs with
    | nil =>
      intro run _ holds r member
      obtain rfl := List.mem_singleton.mp member
      exact holds
    | cons x xs ih =>
      intro run one holds r member
      have later : ∀ y ∈ xs, p [y] := fun y inside => one y (List.mem_cons_of_mem _ inside)
      unfold runsFrom at member
      split_ifs at member with more
      · exact ih _ later (grow run x holds more) r member
      · rcases List.mem_cons.mp member with rfl | member
        exacts [holds, ih _ later (one x List.mem_cons_self) r member]
  cases xs with
  | nil => exact fun _ member => by cases member
  | cons x xs => exact rule xs [x] (fun y inside => one y (List.mem_cons_of_mem _ inside)) (one x List.mem_cons_self)

end Ctadl.Jni
