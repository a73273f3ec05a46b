import Mathlib.Data.List.Chain
import Mathlib.Data.List.Basic

/-! # The path algebra

Segments of an access path and their normal form: offsets add and a zero offset vanishes, and
`#value` absorbs itself and the offsets beside it. Every operation is built from `pushNormalized`.
Offsets are 64-bit and wrap; the algebra needs only their sum and zero. `Clear` is the normal form read off the list: no zero offset, and no
two neighbours that an equation could still combine.
-/

namespace Ctadl.Cir

/-- One segment of an access path, with offsets in `O`: 64-bit words that wrap in the program itself. -/
inductive PathSegment (O : Type := Int64) where
  /-- A symbolic field; no layout. -/
  | field (name : String)
  /-- Address arithmetic by a constant. -/
  | offset (k : O)
  /-- The step from an address to the memory there. -/
  | deref
  /-- What a variable's value was computed from. -/
  | value
deriving DecidableEq, Repr

namespace PathSegment

variable {O : Type}

def isOffset : PathSegment O → Bool
  | offset _ => true
  | field _ | deref | value => false

def isValue : PathSegment O → Bool
  | value => true
  | field _ | offset _ | deref => false

/-- The segments some equation rewrites against a neighbour: offsets and `#value`. -/
def soft : PathSegment O → Bool
  | offset _ | value => true
  | field _ | deref => false

end PathSegment

open PathSegment

variable {O : Type}

section Operations

variable [Add O] [OfNat O 0] [DecidableEq O]

/-- Appends a segment to a normal path, keeping it normal. -/
def pushNormalized (out : List (PathSegment O)) : PathSegment O → List (PathSegment O)
  | .offset k =>
    match out.getLast? with
    | some .value => out
    | some (.offset prev) =>
      if prev + k = 0 then out.dropLast else out.dropLast ++ [.offset (prev + k)]
    | _ => if k = 0 then out else out ++ [.offset k]
  | .value =>
    let popped := if (out.getLast?.map isOffset).getD false then out.dropLast else out
    if popped.getLast? = some .value then popped else popped ++ [.value]
  | .field name => out ++ [.field name]
  | .deref => out ++ [.deref]

/-- The normal form of a list of segments. -/
def normalize (segments : List (PathSegment O)) : List (PathSegment O) :=
  segments.foldl pushNormalized []

/-- The normal form of `start · suffix`, for a normal `start`. -/
def concat (start suffix : List (PathSegment O)) : List (PathSegment O) :=
  suffix.foldl pushNormalized start

end Operations

/-- No zero offset, and never two soft segments in a row. -/
def Clear [OfNat O 0] (segments : List (PathSegment O)) : Prop :=
  segments.IsChain (fun a b => ¬ (a.soft ∧ b.soft)) ∧ PathSegment.offset 0 ∉ segments

namespace Clear

variable [OfNat O 0]

theorem nil : Clear ([] : List (PathSegment O)) := ⟨.nil, by simp⟩

theorem singleton {s : PathSegment O} (nonzero : s ≠ .offset 0) : Clear [s] :=
  ⟨.singleton s, by simpa using nonzero.symm⟩

theorem append_iff {l r : List (PathSegment O)} :
    Clear (l ++ r) ↔ Clear l ∧ Clear r ∧
      ∀ a ∈ l.getLast?, ∀ b ∈ r.head?, ¬ (a.soft ∧ b.soft) := by
  unfold Clear
  rw [List.isChain_append, List.mem_append]
  tauto

theorem left {l r : List (PathSegment O)} (clear : Clear (l ++ r)) : Clear l := (append_iff.mp clear).1

theorem right {l r : List (PathSegment O)} (clear : Clear (l ++ r)) : Clear r :=
  (append_iff.mp clear).2.1

theorem tail {s : PathSegment O} {l : List (PathSegment O)} (clear : Clear (s :: l)) : Clear l :=
  right (l := [s]) clear

theorem head_ne {s : PathSegment O} {l : List (PathSegment O)} (clear : Clear (s :: l)) :
    s ≠ .offset 0 := fun zero => clear.2 (by simp [zero])

/-- A soft segment is followed by a field or a `deref`. -/
theorem hard_of_soft {s t : PathSegment O} {l : List (PathSegment O)} (clear : Clear (s :: t :: l))
    (soft : s.soft) : t.soft = false := by
  have chain := clear.1
  rw [List.isChain_cons_cons] at chain
  simpa [soft] using chain.1

theorem of_isInfix {l r : List (PathSegment O)} (clear : Clear r) (sub : l <:+: r) : Clear l := by
  obtain ⟨before, after, rfl⟩ := sub
  exact right (left clear)

end Clear

variable [Add O] [OfNat O 0] [DecidableEq O]

/-- Appending a segment that meets no equation only appends it. -/
theorem pushNormalized_of_clear {out : List (PathSegment O)} {s : PathSegment O}
    (clear : Clear (out ++ [s])) : pushNormalized out s = out ++ [s] := by
  obtain ⟨-, single, apart⟩ := Clear.append_iff.mp clear
  have nonzero := single.head_ne
  cases s with
  | field name => rfl
  | deref => rfl
  | offset k =>
    have nonzero : k ≠ 0 := by simpa using nonzero
    cases last : out.getLast? with
    | none => simp [pushNormalized, last, nonzero]
    | some a =>
      have hard := apart a last (.offset k) rfl
      cases a <;> simp_all [pushNormalized, soft]
  | value =>
    cases last : out.getLast? with
    | none => simp [pushNormalized, last]
    | some a =>
      have hard := apart a last .value rfl
      cases a <;> simp_all [pushNormalized, soft, isOffset]

theorem concat_of_clear {p t : List (PathSegment O)} (clear : Clear (p ++ t)) : concat p t = p ++ t := by
  induction t generalizing p with
  | nil => simp [concat]
  | cons s t ih =>
    have split : Clear ((p ++ [s]) ++ t) := by simpa using clear
    have step := pushNormalized_of_clear split.left
    have rest := ih split
    simp only [concat, List.foldl_cons, step] at rest ⊢
    simpa using rest

theorem normalize_of_clear {l : List (PathSegment O)} (clear : Clear l) : normalize l = l :=
  concat_of_clear (p := []) (by simpa using clear)

omit [Add O] [DecidableEq O] in
private theorem clear_dropLast {out : List (PathSegment O)} (clear : Clear out) : Clear out.dropLast :=
  clear.of_isInfix <| List.IsPrefix.isInfix <| List.dropLast_prefix out

omit [Add O] [DecidableEq O] in
/-- Before a soft last segment stands a hard one, or nothing. -/
private theorem getLast_dropLast_hard {out : List (PathSegment O)} {a b : PathSegment O}
    (clear : Clear out) (last : out.getLast? = some a) (soft : a.soft)
    (before : out.dropLast.getLast? = some b) : b.soft = false := by
  obtain ⟨init, rfl⟩ : ∃ init, out = init ++ [a] := List.getLast?_eq_some_iff.mp last
  rw [List.dropLast_concat] at before
  have apart := (Clear.append_iff.mp clear).2.2 b before a rfl
  simpa [soft] using apart

/-- A push keeps a normal path normal. -/
theorem clear_pushNormalized {out : List (PathSegment O)} (clear : Clear out) (s : PathSegment O) :
    Clear (pushNormalized out s) := by
  have snoc {init : List (PathSegment O)} {t : PathSegment O} (ok : Clear init) (nonzero : t ≠ .offset 0)
      (apart : ∀ a ∈ init.getLast?, ¬ (a.soft ∧ t.soft)) : Clear (init ++ [t]) :=
    Clear.append_iff.mpr ⟨ok, .singleton nonzero, by simpa using apart⟩
  cases s with
  | field name => exact snoc clear (by simp) (by simp [soft])
  | deref => exact snoc clear (by simp) (by simp [soft])
  | offset k =>
    unfold pushNormalized
    cases last : out.getLast? with
    | none =>
      obtain rfl := List.getLast?_eq_none_iff.mp last
      by_cases zero : k = 0
      · simpa [zero] using clear
      · simpa [zero] using Clear.singleton (s := .offset k) (by simpa using zero)
    | some a =>
      cases a with
      | value => simpa using clear
      | offset prev =>
        simp only
        split_ifs with zero
        · exact clear_dropLast clear
        · refine snoc (clear_dropLast clear) (by simpa using zero) fun b before => ?_
          simp [getLast_dropLast_hard clear last rfl before]
      | field name | deref =>
        simp only
        split_ifs with zero
        · exact clear
        · exact snoc clear (by simpa using zero) (by simp [last, soft])
  | value =>
    cases last : out.getLast? with
    | none =>
      obtain rfl := List.getLast?_eq_none_iff.mp last
      simpa [pushNormalized] using Clear.singleton (s := .value) (by simp)
    | some a =>
      cases a with
      | value => simpa [pushNormalized, last, isOffset] using clear
      | offset prev =>
        simp only [pushNormalized, last, isOffset, Option.map_some, Option.getD_some, if_true]
        split_ifs with valued
        · exact clear_dropLast clear
        · refine snoc (clear_dropLast clear) (by simp) fun b before => ?_
          simp [getLast_dropLast_hard clear last rfl before]
      | field name | deref =>
        simpa [pushNormalized, last, isOffset] using snoc clear (t := .value) (by simp) (by simp [last, soft])

theorem clear_concat {p : List (PathSegment O)} (clear : Clear p) (t : List (PathSegment O)) :
    Clear (concat p t) := by
  induction t generalizing p with
  | nil => exact clear
  | cons s t ih => exact ih (clear_pushNormalized clear s)

theorem clear_normalize (l : List (PathSegment O)) : Clear (normalize l) := clear_concat .nil l

theorem normalize_eq_self_iff {l : List (PathSegment O)} : normalize l = l ↔ Clear l :=
  ⟨fun same => same ▸ clear_normalize l, normalize_of_clear⟩

theorem normalize_append (p t : List (PathSegment O)) : normalize (p ++ t) = concat (normalize p) t := by
  simp [normalize, concat]

/-- Only the junction of two normal paths can need rewriting, and one push settles it. -/
theorem concat_cons_of_clear {p t : List (PathSegment O)} {s : PathSegment O} (start : Clear p)
    (suffix : Clear (s :: t)) : concat p (s :: t) = pushNormalized p s ++ t := by
  have pushed := clear_pushNormalized start s
  change concat (pushNormalized p s) t = _
  cases t with
  | nil => simp [concat]
  | cons u t =>
    by_cases soft : s.soft
    · have hard := suffix.hard_of_soft soft
      exact concat_of_clear (Clear.append_iff.mpr ⟨pushed, suffix.tail, by simp [hard]⟩)
    · have pushes : pushNormalized p s = p ++ [s] := by cases s <;> simp_all [pushNormalized, PathSegment.soft]
      rw [pushes]
      exact concat_of_clear (Clear.append_iff.mpr ⟨pushes ▸ pushed, suffix.tail, by simp_all⟩)

end Ctadl.Cir
