import Ctadl.Cir.PathAlgebra
import Ctadl.Collections.Bits
import Ctadl.Collections.Fallible
import Ctadl.Facts.Build
import Ctadl.Facts.PathSet
import Mathlib.Logic.Equiv.List

/-! # The frozen table of the admissible paths

The table keeps every member under its suffix hash, a fold of its segments, and a bit for every member's handle. `concat`
asks for `start · [adjust] · rest` without building it: it finds what is left at the junction, folds the new segments onto
the hash of the rest and compares what it finds with the candidate segment by segment. The hash of a segment is a
parameter, as are the handles, of which only that they tell paths apart counts.
-/

namespace Ctadl.Facts

open Cir PathSegment

/-- The bits of the handles paths are interned at. -/
structure Handles where
  raw : Path → ℕ
  injective : Function.Injective raw

def EMPTY_PATH_HASH : UInt32 := 0

/-- The hash a path's node stores. -/
def Path.suffixHash (suffixHash : PathSegment → UInt32 → UInt32) (p : Path) : UInt32 :=
  p.segs.foldr suffixHash EMPTY_PATH_HASH

def Path.headOffset (p : Path) : Option Int64 :=
  match p.head with
  | some (.offset n) => some n
  | _ => none

/-- The offset a path ends in. -/
def Path.lastOffset (p : Path) : Option Int64 :=
  match p.segs.getLast? with
  | some (.offset o) => some o
  | _ => none

/-- The table hash of a stored suffix hash. -/
def wide (h : UInt32) : UInt64 := h.toUInt64 ||| h.toUInt64 <<< 32

/-- The candidate `body[..n] · [junction] · base`. -/
structure Candidate where
  body : Path
  n : ℕ
  junction : Option Int64
  base : Path

/-- The first `n` segments folded onto `h`. -/
def fold (suffixHash : PathSegment → UInt32 → UInt32) : List PathSegment → ℕ → UInt32 → Except Panic UInt32
  | _, 0, h => .ok h
  | [], _ + 1, _ => .error .expect
  | head :: tail, n + 1, h => do return suffixHash head (← fold suffixHash tail n h)

namespace Candidate

def hash (suffixHash : PathSegment → UInt32 → UInt32) (c : Candidate) : Except Panic UInt32 :=
  let h := c.base.suffixHash suffixHash
  let h := match c.junction with
    | some s => suffixHash (.offset s) h
    | none => h
  fold suffixHash c.body.segs c.n h

/-- What is left of `p` after the first `n` segments, which have to be those of `body`. -/
def walk : ℕ → List PathSegment → List PathSegment → Option (List PathSegment)
  | 0, p, _ => some p
  | n + 1, a :: p, b :: body => if a = b then walk n p body else none
  | _ + 1, _, _ => none

/-- Whether `p` is the candidate. -/
def is (c : Candidate) (p : Path) : Bool :=
  match walk c.n p.segs c.body.segs with
  | none => false
  | some p =>
    match c.junction, p with
    | none, p => p = c.base.segs
    | some s, .offset o :: tail => o = s && tail = c.base.segs
    | some _, _ => false

/-- The candidate of `start · [adjust] · rest`, put in normal form at the junction. -/
def assemble (build : Build) (start : Path) (adjust : Option Int64) (rest : Path) : Except Panic Candidate :=
  let len := start.segs.length
  let lastOff := start.lastOffset
  let lastValue := start.segs.getLast? = some .value
  let restOff := rest.headOffset
  let restValue := rest.head = some .value
  if lastValue then .ok ⟨start, len, none, if restOff.isSome ∨ restValue then rest.tail else rest⟩
  else if restValue then .ok ⟨start, len - lastOff.isSome.toNat, none, rest⟩
  else if lastOff.isSome ∨ adjust.isSome then do
    let sum ← build.add (← build.add (lastOff.getD 0) (adjust.getD 0)) (restOff.getD 0)
    return ⟨start, len - lastOff.isSome.toNat, if sum ≠ 0 then some sum else none,
      if restOff.isSome then rest.tail else rest⟩
  else .ok ⟨start, len, none, rest⟩

/-- The segments of the candidate. -/
def segs (c : Candidate) : List PathSegment := c.body.segs.take c.n ++ PathSet.adjustment c.junction ++ c.base.segs

end Candidate

/-- The frozen table: every member but the empty one under its hash, and a bit for each handle. -/
structure PathTable where
  table : List (UInt64 × Path)
  bits : List (BitVec 64)
  maxDepth : ℕ

namespace PathTable

variable (handles : Handles) (suffixHash : PathSegment → UInt32 → UInt32)

def freeze (set : PathTable) (p : Path) : PathTable where
  table := if p.isEmpty then set.table else set.table ++ [(wide (p.suffixHash suffixHash), p)]
  bits := Collections.Bits.insert set.bits (handles.raw p)
  maxDepth := max set.maxDepth p.segs.length

/-- Freezes `paths`. -/
def fromPaths (paths : List Path) : PathTable :=
  let members := (paths.mergeSort fun p q => handles.raw p ≤ handles.raw q).dedup
  let words := members.getLast?.elim 0 fun p => handles.raw p / 64 + 1
  members.foldl (freeze handles suffixHash) ⟨[], List.replicate words 0#64, 0⟩

def contains (set : PathTable) (p : Path) : Bool := Collections.Bits.contains set.bits (handles.raw p)

/-- The member the candidate is, if there is one. -/
def find (set : PathTable) (c : Candidate) : Except Panic (Option Path) :=
  if c.n = 0 ∧ c.junction.isNone then .ok (if set.contains handles c.base then some c.base else none)
  else if set.maxDepth < c.n + c.junction.isSome.toNat then .ok none
  else do
    let h ← c.hash suffixHash
    return (set.table.find? fun entry =>
      entry.1 = wide h ∧ entry.2.suffixHash suffixHash = h ∧ c.is entry.2).map Prod.snd

/-- The member equal to `start · [adjust] · rest`, if there is one. -/
def concat (build : Build) (set : PathTable) (start : Path) (adjust : Option Int64) (rest : Path) :
    Except Panic (Option Path) := do
  set.find handles suffixHash (← Candidate.assemble build start adjust rest)

end PathTable

section Candidates

variable {suffixHash : PathSegment → UInt32 → UInt32} {c : Candidate} {p : Path}

theorem fold_eq {l : List PathSegment} {n : ℕ} (inside : n ≤ l.length) (h : UInt32) :
    fold suffixHash l n h = .ok ((l.take n).foldr suffixHash h) := by
  induction n generalizing l with
  | zero => simp [fold]
  | succ n ih =>
    cases l with
    | nil => simp at inside
    | cons head tail =>
      rw [fold, ih (by simpa using inside)]
      rfl

/-- The hash is the one the candidate's node would store. -/
theorem Candidate.hash_eq (inside : c.n ≤ c.body.segs.length) :
    c.hash suffixHash = .ok (c.segs.foldr suffixHash EMPTY_PATH_HASH) := by
  rw [hash, fold_eq inside, segs, List.foldr_append, List.foldr_append]
  cases junction : c.junction <;> simp [PathSet.adjustment, Path.suffixHash]

theorem Candidate.walk_eq_some_iff {n : ℕ} {l body tail : List PathSegment} (inside : n ≤ body.length) :
    walk n l body = some tail ↔ l = body.take n ++ tail := by
  induction n generalizing l body with
  | zero => simp [walk]
  | succ n ih =>
    cases body with
    | nil => simp at inside
    | cons b body =>
      cases l with
      | nil => simp [walk]
      | cons a l =>
        rw [walk, List.take_succ_cons, List.cons_append, List.cons.injEq]
        split_ifs with same
        · rw [ih (by simpa using inside), and_iff_right same]
        · simp [same]

theorem Candidate.is_iff (inside : c.n ≤ c.body.segs.length) : c.is p ↔ p.segs = c.segs := by
  unfold is
  split
  · rename_i stops
    refine iff_of_false (by simp) fun same => ?_
    have walked := (walk_eq_some_iff inside).mpr (same.trans (List.append_assoc ..))
    rw [stops] at walked
    exact nomatch walked
  · rename_i tail walked
    rw [(walk_eq_some_iff inside).mp walked, segs, List.append_assoc, List.append_cancel_left_eq]
    cases junction : c.junction with
    | none => simp [PathSet.adjustment]
    | some s =>
      cases tail with
      | nil => simp [PathSet.adjustment]
      | cons a tail => cases a <;> simp [PathSet.adjustment]

end Candidates

section Junction

variable {start rest : Path} {adjust : Option Int64} {body : List PathSegment} {k : Int64} {build : Build} {c : Candidate}

/-- The sums at the junction stay within the 64-bit range, or a `#value` there leaves none to take. -/
def JunctionInRange (start : Path) (adjust : Option Int64) (rest : Path) : Prop :=
  start.segs.getLast? = some .value ∨ rest.head = some .value ∨
    InRange ((start.lastOffset.getD 0).toInt + (adjust.getD 0).toInt) ∧
      InRange ((start.lastOffset.getD 0 + adjust.getD 0).toInt + (rest.headOffset.getD 0).toInt)

theorem Path.lastOffset_of_residue (hard : HardEnd body) (shape : start.segs = body ++ residue k) :
    start.lastOffset = if k = 0 then none else some k := by
  rw [lastOffset, shape]
  split_ifs with zero
  · cases last : body.getLast? with
    | none => simp [residue, zero, last]
    | some a =>
      have soft := hard a last
      cases a <;> simp_all [residue, PathSegment.soft]
  · simp [residue, zero]

theorem last_ne_value (hard : HardEnd body) (shape : start.segs = body ++ residue k) : start.segs.getLast? ≠ some .value := by
  rw [shape]
  intro last
  by_cases zero : k = 0
  · have soft := hard .value (by simpa [residue, zero] using last)
    cases soft
  · simp [residue, zero] at last

theorem body_eq (hard : HardEnd body) (shape : start.segs = body ++ residue k) :
    (if start.lastOffset.isSome then start.segs.dropLast else start.segs) = body := by
  rw [Path.lastOffset_of_residue hard shape, shape]
  by_cases zero : k = 0 <;> simp [residue, zero]

/-- A rest is the residue of its leading offset and what stands after it. -/
theorem rest_eq (rest : Path) :
    residue (rest.headOffset.getD 0) ++ (if rest.headOffset.isSome then rest.tail.segs else rest.segs) = rest.segs := by
  cases segs : rest.segs with
  | nil => simp [Path.headOffset, Path.head, segs, residue]
  | cons a t =>
    have nonzero := (segs ▸ rest.clear).head_ne
    cases a <;> simp_all [Path.headOffset, Path.head, residue]

/-- The candidate in terms of the offsets at the two sides of the junction. -/
theorem candidate_eq_ite (start : Path) (adjust : Option Int64) (rest : Path) :
    PathSet.candidate start adjust rest =
      if start.segs.getLast? = some .value then
        start.segs ++ if rest.headOffset.isSome ∨ rest.head = some .value then rest.tail.segs else rest.segs
      else if rest.head = some .value then
        (if start.lastOffset.isSome then start.segs.dropLast else start.segs) ++ rest.segs
      else if start.lastOffset.isSome ∨ adjust.isSome then
        (if start.lastOffset.isSome then start.segs.dropLast else start.segs) ++
          residue (start.lastOffset.getD 0 + adjust.getD 0 + rest.headOffset.getD 0) ++
          if rest.headOffset.isSome then rest.tail.segs else rest.segs
      else start.segs ++ rest.segs := by
  have sum (x : Int64) : residue x = if x ≠ 0 then [.offset x] else [] := (ite_not ..).symm
  simp only [sum]
  rfl

/-- Where neither side has a `#value` at the junction, the candidate is the body of the start, the residue of the three
offsets and what stands after the rest's own. -/
theorem candidate_of_residue (hard : HardEnd body) (shape : start.segs = body ++ residue k) (unvalued : rest.head ≠ some .value) :
    PathSet.candidate start adjust rest = body ++ residue (k + adjust.getD 0 + rest.headOffset.getD 0) ++
      if rest.headOffset.isSome then rest.tail.segs else rest.segs := by
  have offset := Path.lastOffset_of_residue hard shape
  rw [candidate_eq_ite, if_neg (last_ne_value hard shape), if_neg unvalued, body_eq hard shape]
  by_cases merges : start.lastOffset.isSome ∨ adjust.isSome
  · have value : start.lastOffset.getD 0 = k := by
      rw [offset]
      split_ifs with zero <;> simp [zero]
    rw [if_pos merges, value]
  · -- no offset before the rest: its own is the sum
    obtain ⟨bare, unadjusted⟩ := not_or.mp merges
    have zero : k = 0 := by
      rw [offset] at bare
      by_contra nonzero
      simp [nonzero] at bare
    obtain rfl : adjust = none := by simpa using unadjusted
    have whole := rest_eq rest
    rw [if_neg merges, shape, zero, Option.getD_none, Int64.add_zero, Int64.zero_add,
      List.append_assoc body (residue (rest.headOffset.getD 0)), whole]
    simp [residue]

/-- The equations give the same. -/
theorem normalize_of_residue (hard : HardEnd body) (shape : start.segs = body ++ residue k) (unvalued : rest.head ≠ some .value) :
    normalize (start.segs ++ PathSet.adjustment adjust ++ rest.segs) =
      body ++ residue (k + adjust.getD 0 + rest.headOffset.getD 0) ++
        if rest.headOffset.isSome then rest.tail.segs else rest.segs := by
  have adjusted : Cir.concat start.segs (PathSet.adjustment adjust) = body ++ residue (k + adjust.getD 0) := by
    cases adjust with
    | none => simpa [PathSet.adjustment, Cir.concat] using shape
    | some a =>
      rw [shape]
      exact pushNormalized_residue_offset hard
  have clear : Clear (body ++ residue (k + adjust.getD 0)) := adjusted ▸ clear_concat start.clear _
  rw [List.append_assoc, normalize_append, start.normal, concat_append, adjusted]
  cases segs : rest.segs with
  | nil => simp [Path.headOffset, Path.head, segs, Cir.concat]
  | cons s t =>
    rw [concat_cons_of_clear clear (segs ▸ rest.clear)]
    cases s with
    | offset b =>
      rw [pushNormalized_residue_offset hard]
      simp [Path.headOffset, Path.head, segs]
    | value => simp [Path.head, segs] at unvalued
    | field name | deref => simp [Path.headOffset, Path.head, segs, pushNormalized]

/-- The candidate is the normal form, whatever meets at the junction. -/
theorem candidate_eq_normalize (start : Path) (adjust : Option Int64) (rest : Path) :
    PathSet.candidate start adjust rest = normalize (start.segs ++ PathSet.adjustment adjust ++ rest.segs) := by
  obtain ⟨body, hard, ⟨k, shape⟩ | shape⟩ := start.clear.exists_body
  · by_cases valued : rest.head = some .value
    · obtain ⟨t, segs⟩ : ∃ t, rest.segs = .value :: t := List.head?_eq_some_iff.mp valued
      have adjusted : ∃ j, Cir.concat start.segs (PathSet.adjustment adjust) = body ++ residue j := by
        cases adjust with
        | none => exact ⟨k, by simpa [PathSet.adjustment, Cir.concat] using shape⟩
        | some a => exact ⟨k + a, by rw [shape]; exact pushNormalized_residue_offset hard⟩
      obtain ⟨j, adjusted⟩ := adjusted
      have clear : Clear (body ++ residue j) := adjusted ▸ clear_concat start.clear _
      rw [List.append_assoc, normalize_append, start.normal, concat_append, adjusted, segs,
        concat_cons_of_clear clear (segs ▸ rest.clear), pushNormalized_residue_value hard]
      rw [candidate_eq_ite, if_neg (last_ne_value hard shape), if_pos valued, body_eq hard shape, segs, List.append_assoc,
        List.singleton_append]
    · rw [candidate_of_residue hard shape valued, normalize_of_residue hard shape valued]
  · have adjusted : Cir.concat start.segs (PathSet.adjustment adjust) = start.segs := by
      cases adjust with
      | none => rfl
      | some a =>
        rw [shape]
        exact pushNormalized_value_offset
    have last : start.segs.getLast? = some .value := by simp [shape]
    rw [List.append_assoc, normalize_append, start.normal, concat_append, adjusted]
    cases segs : rest.segs with
    | nil => simp [PathSet.candidate, last, Path.head, segs, Cir.concat]
    | cons s t =>
      rw [concat_cons_of_clear start.clear (segs ▸ rest.clear), shape]
      cases s with
      | offset b => simp [PathSet.candidate, Path.head, segs, pushNormalized_value_offset, shape]
      | value => simp [PathSet.candidate, Path.head, segs, pushNormalized_value_value, shape]
      | field name | deref => simp [PathSet.candidate, Path.head, segs, pushNormalized, shape]

namespace Candidate

theorem segs_of_assemble (assembled : assemble build start adjust rest = .ok c) :
    c.segs = PathSet.candidate start adjust rest ∧ c.n ≤ c.body.segs.length := by
  have front : start.segs.take (start.segs.length - start.lastOffset.isSome.toNat) =
      if start.lastOffset.isSome then start.segs.dropLast else start.segs := by
    cases start.lastOffset <;> simp [List.dropLast_eq_take]
  have optional (k : Int64) : PathSet.adjustment (if k ≠ 0 then some k else none) = residue k := by
    by_cases zero : k = 0 <;> simp [PathSet.adjustment, residue, zero]
  rw [candidate_eq_ite]
  unfold assemble at assembled
  simp only at assembled
  by_cases last : start.segs.getLast? = some .value
  · rw [if_pos last] at assembled ⊢
    obtain rfl := Except.ok.inj assembled
    refine ⟨?_, le_rfl⟩
    simp only [segs, PathSet.adjustment, List.take_length, Option.map_none, Option.toList_none, List.append_nil,
      apply_ite Path.segs]
  rw [if_neg last] at assembled ⊢
  by_cases valued : rest.head = some .value
  · rw [if_pos valued] at assembled ⊢
    obtain rfl := Except.ok.inj assembled
    refine ⟨?_, Nat.sub_le _ _⟩
    simp only [segs, front, PathSet.adjustment, Option.map_none, Option.toList_none, List.append_nil]
  rw [if_neg valued] at assembled ⊢
  by_cases merges : start.lastOffset.isSome ∨ adjust.isSome
  · rw [if_pos merges] at assembled ⊢
    obtain ⟨sum, first, assembled⟩ := Collections.bind_eq_ok.mp assembled
    obtain ⟨total, second, assembled⟩ := Collections.bind_eq_ok.mp assembled
    obtain ⟨rfl, -⟩ := Build.add_eq_ok.mp first
    obtain ⟨rfl, -⟩ := Build.add_eq_ok.mp second
    obtain rfl := Except.ok.inj assembled
    refine ⟨?_, Nat.sub_le _ _⟩
    simp only [segs, front, optional, apply_ite Path.segs]
  · rw [if_neg merges] at assembled ⊢
    obtain rfl := Except.ok.inj assembled
    refine ⟨?_, le_rfl⟩
    simp only [segs, PathSet.adjustment, List.take_length, Option.map_none, Option.toList_none, List.append_nil]

/-- A candidate is made unless a `dev` build stops at a sum. -/
theorem exists_assemble_iff :
    (∃ c, assemble build start adjust rest = .ok c) ↔ build = .release ∨ JunctionInRange start adjust rest := by
  unfold assemble JunctionInRange
  simp only
  by_cases last : start.segs.getLast? = some .value
  · simp [last]
  by_cases valued : rest.head = some .value
  · simp [last, valued]
  rw [if_neg last, if_neg valued]
  by_cases merges : start.lastOffset.isSome ∨ adjust.isSome
  · rw [if_pos merges]
    constructor
    · rintro ⟨c, assembled⟩
      obtain ⟨sum, first, assembled⟩ := Collections.bind_eq_ok.mp assembled
      obtain ⟨total, second, -⟩ := Collections.bind_eq_ok.mp assembled
      obtain ⟨rfl, inner⟩ := Build.add_eq_ok.mp first
      obtain ⟨-, outer⟩ := Build.add_eq_ok.mp second
      exact inner.elim .inl fun inner => outer.imp_right fun outer => .inr (.inr ⟨inner, outer⟩)
    · intro inRange
      have sums : build = .release ∨ InRange ((start.lastOffset.getD 0).toInt + (adjust.getD 0).toInt) ∧
          InRange ((start.lastOffset.getD 0 + adjust.getD 0).toInt + (rest.headOffset.getD 0).toInt) := by
        simpa [last, valued] using inRange
      rw [Collections.bind_of_ok (Build.add_of_inRange (sums.imp_right And.left)),
        Collections.bind_of_ok (Build.add_of_inRange (sums.imp_right And.right))]
      exact ⟨_, rfl⟩
  · obtain ⟨bare, unadjusted⟩ := not_or.mp merges
    have zero : start.lastOffset.getD 0 = 0 := by simp_all
    have none : adjust.getD 0 = 0 := by simp_all
    have sums : InRange ((0 : Int64).toInt + (0 : Int64).toInt) ∧ InRange ((0 + 0 : Int64).toInt + (rest.headOffset.getD 0).toInt) := by
      refine ⟨by decide, ?_⟩
      simpa using inRange_toInt (rest.headOffset.getD 0)
    rw [if_neg merges, zero, none]
    exact iff_of_true ⟨_, rfl⟩ (.inr (.inr (.inr sums)))

end Candidate

end Junction

namespace PathTable

variable {handles : Handles} {suffixHash : PathSegment → UInt32 → UInt32} {build : Build} {paths : List Path}
  {start rest p : Path} {adjust : Option Int64} {c : Candidate}

/-- What a frozen table holds of its members. -/
structure Frozen (handles : Handles) (suffixHash : PathSegment → UInt32 → UInt32) (set : PathTable) (paths : List Path) :
    Prop where
  entry : ∀ entry, entry ∈ set.table ↔ ∃ p ∈ paths, p.isEmpty = false ∧ entry = (wide (p.suffixHash suffixHash), p)
  depth : ∀ p ∈ paths, p.segs.length ≤ set.maxDepth
  bits : ∀ p, set.contains handles p ↔ p ∈ paths

section Run

variable (set : PathTable) (members : List Path)

theorem table_foldl_freeze : (members.foldl (freeze handles suffixHash) set).table =
    set.table ++ (members.filter fun p => !p.isEmpty).map fun p => (wide (p.suffixHash suffixHash), p) := by
  induction members generalizing set with
  | nil => simp
  | cons p members ih =>
    rw [List.foldl_cons, ih]
    cases blank : p.isEmpty <;> simp [freeze, blank]

theorem bits_foldl_freeze : (members.foldl (freeze handles suffixHash) set).bits =
    (members.map handles.raw).foldl Collections.Bits.insert set.bits := by
  induction members generalizing set with
  | nil => rfl
  | cons p members ih =>
    rw [List.foldl_cons, ih]
    rfl

theorem depth_foldl_freeze : set.maxDepth ≤ (members.foldl (freeze handles suffixHash) set).maxDepth ∧
    ∀ p ∈ members, p.segs.length ≤ (members.foldl (freeze handles suffixHash) set).maxDepth := by
  induction members generalizing set with
  | nil => simp
  | cons p members ih =>
    obtain ⟨grows, each⟩ := ih (freeze handles suffixHash set p)
    rw [List.foldl_cons]
    have first : max set.maxDepth p.segs.length = (freeze handles suffixHash set p).maxDepth := rfl
    refine ⟨by omega, fun q member => ?_⟩
    rcases List.mem_cons.mp member with rfl | later
    · omega
    · exact each q later

end Run

theorem frozen_fromPaths (paths : List Path) : (fromPaths handles suffixHash paths).Frozen handles suffixHash paths := by
  have same (p : Path) : p ∈ (paths.mergeSort fun p q => handles.raw p ≤ handles.raw q).dedup ↔ p ∈ paths := by
    rw [List.mem_dedup, List.mem_mergeSort]
  have sorted : (paths.mergeSort fun p q => handles.raw p ≤ handles.raw q).dedup.Pairwise fun p q => handles.raw p ≤ handles.raw q := by
    have trans (a b c : Path) (first : decide (handles.raw a ≤ handles.raw b)) (second : decide (handles.raw b ≤ handles.raw c)) :
        decide (handles.raw a ≤ handles.raw c) := by
      simp only [decide_eq_true_eq] at *
      omega
    have total (a b : Path) : decide (handles.raw a ≤ handles.raw b) || decide (handles.raw b ≤ handles.raw a) := by
      simp only [Bool.or_eq_true, decide_eq_true_eq]
      omega
    have whole := List.pairwise_mergeSort trans total paths
    exact (whole.imp fun le => by simpa using le).sublist (List.dedup_sublist _)
  unfold fromPaths
  generalize (paths.mergeSort fun p q => handles.raw p ≤ handles.raw q).dedup = members at same sorted
  refine ⟨fun entry => ?_, fun p member => ?_, fun p => ?_⟩
  · rw [table_foldl_freeze, List.nil_append, List.mem_map]
    refine exists_congr fun p => ?_
    rw [List.mem_filter, same, Bool.not_eq_true', and_assoc, @eq_comm _ entry]
  · exact (depth_foldl_freeze _ members).2 p ((same p).mpr member)
  · have room : ∀ b ∈ members.map handles.raw,
        b / 64 < (List.replicate (members.getLast?.elim 0 fun p => handles.raw p / 64 + 1) (0#64)).length := by
      intro b member
      obtain ⟨q, inside, rfl⟩ := List.mem_map.mp member
      -- the last member has the greatest handle
      cases greatest : members.getLast? with
      | none => simp [List.getLast?_eq_none_iff.mp greatest] at inside
      | some last =>
        obtain ⟨init, rfl⟩ := List.getLast?_eq_some_iff.mp greatest
        have least : handles.raw q ≤ handles.raw last := by
          rcases List.mem_append.mp inside with before | here
          · exact (List.pairwise_append.mp sorted).2.2 q before last List.mem_cons_self
          · rw [List.mem_singleton.mp here]
        simp only [Option.elim_some, List.length_replicate]
        omega
    change Collections.Bits.contains (members.foldl (freeze handles suffixHash) _).bits (handles.raw p) ↔ _
    rw [bits_foldl_freeze, Collections.Bits.contains_foldl_insert (by omega) room,
      Collections.Bits.contains_replicate_zero, List.mem_map]
    constructor
    · rintro (impossible | ⟨q, member, handle⟩)
      · exact nomatch impossible
      · exact handles.injective handle ▸ (same q).mp member
    · exact fun member => .inr ⟨p, (same p).mpr member, rfl⟩

/-- Asking the set for a path itself. -/
theorem Frozen.find_base {set : PathTable} (frozen : set.Frozen handles suffixHash paths) (base q : Path) :
    (if set.contains handles base then some base else none) = some q ↔ q ∈ paths ∧ q.segs = base.segs := by
  have member := frozen.bits base
  rw [← Path.ext_iff]
  split_ifs with present
  · rw [Option.some_inj]
    constructor
    · rintro rfl
      exact ⟨member.mp present, rfl⟩
    · exact fun found => found.2.symm
  · refine iff_of_false nofun ?_
    rintro ⟨found, rfl⟩
    exact present (member.mpr found)

/-- A probe of the table meets the member a candidate that is not empty is, and stops nowhere else. -/
theorem Frozen.find_entry {set : PathTable} (frozen : set.Frozen handles suffixHash paths) (inside : c.n ≤ c.body.segs.length)
    (nonempty : c.segs ≠ []) (q : Path) :
    (set.table.find? fun entry => entry.1 = wide (c.segs.foldr suffixHash EMPTY_PATH_HASH) ∧
        entry.2.suffixHash suffixHash = c.segs.foldr suffixHash EMPTY_PATH_HASH ∧ c.is entry.2).map Prod.snd = some q ↔
      q ∈ paths ∧ q.segs = c.segs := by
  constructor
  · intro found
    obtain ⟨entry, hit, rfl⟩ := Option.map_eq_some_iff.mp found
    obtain ⟨p, member, -, rfl⟩ := (frozen.entry entry).mp (List.mem_of_find?_eq_some hit)
    have same := List.find?_some hit
    simp only [decide_eq_true_eq, Candidate.is_iff inside] at same
    exact ⟨member, same.2.2⟩
  · rintro ⟨member, same⟩
    have filled : q.isEmpty = false := by simpa [Path.isEmpty, same] using nonempty
    have entry := (frozen.entry (wide (q.suffixHash suffixHash), q)).mpr ⟨q, member, filled, rfl⟩
    have hash : q.suffixHash suffixHash = c.segs.foldr suffixHash EMPTY_PATH_HASH := congrArg _ same
    rw [hash] at entry
    -- the probe meets the entry of `q`, so it stops at one, and whatever it stops at has the same segments
    cases hit : set.table.find? fun entry => entry.1 = wide (c.segs.foldr suffixHash EMPTY_PATH_HASH) ∧
        entry.2.suffixHash suffixHash = c.segs.foldr suffixHash EMPTY_PATH_HASH ∧ c.is entry.2 with
    | none =>
      have misses := List.find?_eq_none.mp hit _ entry
      simp [hash, Candidate.is_iff inside, same] at misses
    | some other =>
      have stops := List.find?_some hit
      simp only [decide_eq_true_eq, Candidate.is_iff inside] at stops
      rw [Option.map_some, Option.some_inj]
      exact Path.ext (stops.2.2.trans same.symm)

/-- The probe finds the member the candidate is. -/
theorem find_eq {set : PathTable} (frozen : set.Frozen handles suffixHash paths) (inside : c.n ≤ c.body.segs.length) :
    ∃ found, set.find handles suffixHash c = .ok found ∧ ∀ q, found = some q ↔ q ∈ paths ∧ q.segs = c.segs := by
  have middle : (PathSet.adjustment c.junction).length = c.junction.isSome.toNat := by
    cases c.junction <;> rfl
  have whole : c.segs.length = c.n + c.junction.isSome.toNat + c.base.segs.length := by
    rw [Candidate.segs, List.length_append, List.length_append, List.length_take_of_le inside, middle]
  unfold find
  by_cases bare : c.n = 0 ∧ c.junction.isNone
  · -- the candidate is its base, which may be the empty path
    have alone : c.segs = c.base.segs := by
      rw [Candidate.segs, bare.1, Option.isNone_iff_eq_none.mp bare.2]
      rfl
    rw [if_pos bare, alone]
    exact ⟨_, rfl, frozen.find_base c.base⟩
  rw [if_neg bare]
  by_cases deep : set.maxDepth < c.n + c.junction.isSome.toNat
  · rw [if_pos deep]
    refine ⟨none, rfl, fun q => iff_of_false nofun fun ⟨member, same⟩ => ?_⟩
    have bound := frozen.depth q member
    rw [same] at bound
    omega
  rw [if_neg deep, Collections.bind_of_ok (c.hash_eq inside)]
  refine ⟨_, rfl, frozen.find_entry inside ?_⟩
  intro empty
  have short : c.n + c.junction.isSome.toNat + c.base.segs.length = 0 := by
    rw [← whole, empty]
    rfl
  apply bare
  cases junction : c.junction with
  | none => exact ⟨by omega, rfl⟩
  | some s =>
    rw [junction, Option.isSome_some, Bool.toNat_true] at short
    omega

theorem exists_concat (paths : List Path) (inRange : build = .release ∨ JunctionInRange start adjust rest) :
    ∃ found, concat handles suffixHash build (fromPaths handles suffixHash paths) start adjust rest = .ok found ∧
      ∀ q, found = some q ↔ q ∈ paths ∧ q.segs = PathSet.candidate start adjust rest := by
  obtain ⟨c, assembled⟩ := Candidate.exists_assemble_iff.mpr inRange
  obtain ⟨content, inside⟩ := Candidate.segs_of_assemble assembled
  obtain ⟨found, returned, each⟩ := find_eq (frozen_fromPaths paths) inside
  refine ⟨found, ?_, content ▸ each⟩
  rw [concat, Collections.bind_of_ok assembled, returned]

/-- `concat` is the lookup of the normal form exactly where the sums at the junction fit, or wrap. -/
theorem concat_eq_normalize_iff (handles : Handles) (suffixHash : PathSegment → UInt32 → UInt32) (build : Build)
    (paths : List Path) (start : Path) (adjust : Option Int64) (rest : Path) :
    (∃ found, concat handles suffixHash build (fromPaths handles suffixHash paths) start adjust rest = .ok found ∧
      ∀ q, found = some q ↔ q ∈ paths ∧ q = .fromAccesses (start.segs ++ PathSet.adjustment adjust ++ rest.segs)) ↔
      build = .release ∨ JunctionInRange start adjust rest := by
  constructor
  · rintro ⟨found, returned, -⟩
    obtain ⟨c, assembled, -⟩ := Collections.bind_eq_ok.mp returned
    exact Candidate.exists_assemble_iff.mp ⟨c, assembled⟩
  · intro inRange
    obtain ⟨found, returned, each⟩ := exists_concat paths inRange
    refine ⟨found, returned, fun q => ?_⟩
    rw [each q, candidate_eq_normalize, Path.ext_iff, Path.segs_fromAccesses]

end PathTable

section Overflow

/-- A segment as a list of numbers. -/
def segmentCode : PathSegment → List ℕ
  | .field name => 0 :: name.toList.map Char.toNat
  | .offset k => [1, k.toBitVec.toNat]
  | .deref => [2]
  | .value => [3]

theorem segmentCode_injective : Function.Injective segmentCode := by
  intro a b same
  cases a with
  | field name =>
    cases b with
    | field other =>
      have chars : Function.Injective Char.toNat := fun c d equal => Char.ext (UInt32.toNat_inj.mp equal)
      have lists := List.map_injective_iff.mpr chars (List.cons.inj same).2
      rw [String.toList_inj.mp lists]
    | offset | deref | value => simp [segmentCode] at same
  | offset k =>
    cases b with
    | offset l =>
      have words : k.toBitVec.toNat = l.toBitVec.toNat := by simpa [segmentCode] using same
      rw [Int64.toBitVec_inj.mp (BitVec.toNat_inj.mp words)]
    | field | deref | value => simp [segmentCode] at same
  | deref => cases b <;> simp_all [segmentCode]
  | value => cases b <;> simp_all [segmentCode]

/-- Handles numbered by content. -/
def Handles.byContent : Handles where
  raw p := Encodable.encode (p.segs.map segmentCode)
  injective _ _ same := Path.ext (List.map_injective_iff.mpr segmentCode_injective (Encodable.encode_injective same))

/-- Of `[i64::MAX]` and `[1]` a `dev` build does not find the normal form `[i64::MIN]`, which is a member. -/
theorem concat_stops : ¬ ∃ found,
    PathTable.concat .byContent (fun _ h => h) .dev
        (.fromPaths .byContent (fun _ h => h) [.fromAccesses [.offset (-9223372036854775808)]])
        (.fromAccesses [.offset 9223372036854775807]) none (.fromAccesses [.offset 1]) = .ok found ∧
      ∀ q, found = some q ↔ q ∈ ([.fromAccesses [.offset (-9223372036854775808)]] : List Path) ∧
        q = .fromAccesses ((Path.fromAccesses [.offset 9223372036854775807]).segs ++ PathSet.adjustment none ++
          (Path.fromAccesses [.offset 1]).segs) := by
  rintro ⟨found, returned, -⟩
  obtain ⟨c, assembled, -⟩ := Collections.bind_eq_ok.mp returned
  have stops : Candidate.assemble .dev (.fromAccesses [.offset 9223372036854775807]) none (.fromAccesses [.offset 1]) =
      .error .overflow := by rfl
  rw [stops] at assembled
  exact nomatch assembled

end Overflow

end Ctadl.Facts
