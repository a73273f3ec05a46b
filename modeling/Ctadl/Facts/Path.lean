import Ctadl.Cir.Path
import Mathlib.Data.Finset.Basic
import Mathlib.Data.List.Infix

/-! # Interned paths and prefix matching

`Path` is the fact-level path: always in normal form, so a path and its content are one. The
matching of a path against a shorter one does offset arithmetic on its last component, and comes in
two spellings: `matchPrefix` walks the two paths, and the join keys `prefixKeys` and
`prefixKeysWild` enumerate the splits it accepts. `matchPrefixSplit_iff` says that they agree.
-/

namespace Ctadl.Facts

open Cir PathSegment

/-- A path in normal form. -/
structure Path where
  segs : List PathSegment
  normal : normalize segs = segs
deriving DecidableEq

namespace Path

theorem ext {p q : Path} (same : p.segs = q.segs) : p = q := by
  cases p; cases q; cases same; rfl

theorem ext_iff {p q : Path} : p = q ↔ p.segs = q.segs := ⟨congrArg segs, ext⟩

theorem clear (p : Path) : Clear p.segs := normalize_eq_self_iff.mp p.normal

def ofClear (segs : List PathSegment) (clear : Clear segs) : Path := ⟨segs, normalize_of_clear clear⟩

/-- Creates a path from a sequence of accesses, putting it in normal form. -/
def fromAccesses (segments : List PathSegment) : Path :=
  ofClear (normalize segments) (clear_normalize segments)

def empty : Path := ofClear [] .nil

def isEmpty (p : Path) : Bool := p.segs.isEmpty

@[simp] theorem segs_ofClear (l : List PathSegment) (clear : Clear l) : (ofClear l clear).segs = l := rfl

@[simp] theorem segs_empty : empty.segs = [] := rfl

@[simp] theorem segs_fromAccesses (l : List PathSegment) : (fromAccesses l).segs = normalize l := rfl

theorem isEmpty_iff {p : Path} : p.isEmpty ↔ p = empty := by
  simp [isEmpty, ext_iff]

/-- Concatenates two paths, normalizing the whole. -/
def concat (p q : Path) : Path := fromAccesses (p.segs ++ q.segs)

/-- The first component. -/
def head (p : Path) : Option PathSegment := p.segs.head?

/-- The path without its first component. -/
def tail (p : Path) : Path :=
  ofClear p.segs.tail (p.clear.of_isInfix (List.tail_suffix p.segs).isInfix)

@[simp] theorem segs_tail (p : Path) : p.tail.segs = p.segs.tail := rfl

/-- True for the path `#value` itself. -/
def isValue (p : Path) : Bool := p.segs == [.value]

/-- Every component-wise split `(key, rest)` of the path. -/
def prefixKeys (p : Path) : List (Path × Path) :=
  (List.range (p.segs.length + 1)).map fun k =>
    (fromAccesses (p.segs.take k),
      ofClear (p.segs.drop k) (p.clear.of_isInfix (List.drop_suffix k p.segs).isInfix))

/-- The splits before an offset or a `#value` component. -/
def prefixKeysWild (p : Path) : List (Path × Path) :=
  p.prefixKeys.filter fun split => (split.2.head.map soft).getD false

/-- The match of a wild split's `rest` against a shorter path `key.[m]`: the adjustment of the
offset and the suffix after it. -/
def wildRest (rest : Path) (m : Int64) : Option (Int64 × Path) :=
  match rest.head with
  | some (.offset n) => if n ≠ m then some (n - m, rest.tail) else none
  | some .value => some (0, rest)
  | _ => none

/-- Splits off a trailing offset component. -/
def splitTrailingOffset (p : Path) : Option (Path × Int64) :=
  match p.segs.getLast? with
  | some (.offset m) => some (fromAccesses p.segs.dropLast, m)
  | _ => none

end Path

/-- The last component of the shorter path: exact, an offset that differs, or an offset that a
`#value` absorbs. -/
def matchLast : List PathSegment → PathSegment → Option (Option Int64 × List PathSegment)
  | .offset an :: rest, .offset pn =>
    if an ≠ pn then some (some (an - pn), rest) else some (none, rest)
  | .value :: rest, .offset _ => some (none, .value :: rest)
  | a :: rest, p => if a = p then some (none, rest) else none
  | [], _ => none

/-- The walk of `matchPrefixSplit`: every component of the shorter path but the last must match
exactly. -/
def matchPrefixSegs : List PathSegment → List PathSegment → Option (Option Int64 × List PathSegment)
  | path, [] => some (none, path)
  | path, [p] => matchLast path p
  | [], _ :: _ :: _ => none
  | a :: path, p :: q :: shorter => if a = p then matchPrefixSegs path (q :: shorter) else none

/-- The three ways a path matches a shorter one. -/
inductive Matches (path shorter : List PathSegment) : Option Int64 → List PathSegment → Prop
  | exact {rest} (split : path = shorter ++ rest) : Matches path shorter none rest
  | adjusted {key rest m n} (short : shorter = key ++ [.offset m])
      (long : path = key ++ .offset n :: rest) (differs : n ≠ m) :
      Matches path shorter (some (n - m)) rest
  | absorbed {key rest m} (short : shorter = key ++ [.offset m])
      (long : path = key ++ .value :: rest) : Matches path shorter none (.value :: rest)

theorem Matches.cons {path shorter rest : List PathSegment} {adjust : Option Int64}
    (found : Matches path shorter adjust rest) (a : PathSegment) :
    Matches (a :: path) (a :: shorter) adjust rest := by
  cases found with
  | exact split => exact .exact (by simp [split])
  | @adjusted key _ m n short long differs =>
    exact @Matches.adjusted _ _ (a :: key) _ m n (by simp [short]) (by simp [long]) differs
  | @absorbed key _ m short long =>
    exact @Matches.absorbed _ _ (a :: key) _ m (by simp [short]) (by simp [long])

theorem Matches.of_cons {path shorter rest : List PathSegment} {adjust : Option Int64}
    {a p q : PathSegment} (found : Matches (a :: path) (p :: q :: shorter) adjust rest) :
    a = p ∧ Matches path (q :: shorter) adjust rest := by
  cases found with
  | exact split =>
    simp only [List.cons_append, List.cons.injEq] at split
    exact ⟨split.1, .exact (by simp [split.2])⟩
  | @adjusted key _ m n short long differs =>
    cases key with
    | nil => simp at short
    | cons k key =>
      simp only [List.cons_append, List.cons.injEq] at short long
      exact ⟨long.1.trans short.1.symm, .adjusted short.2 long.2 differs⟩
  | @absorbed key _ m short long =>
    cases key with
    | nil => simp at short
    | cons k key =>
      simp only [List.cons_append, List.cons.injEq] at short long
      exact ⟨long.1.trans short.1.symm, .absorbed short.2 long.2⟩

private theorem matchLast_eq_some_iff {path rest : List PathSegment} {p : PathSegment}
    {adjust : Option Int64} :
    matchLast path p = some (adjust, rest) ↔ Matches path [p] adjust rest := by
  constructor
  · intro found
    unfold matchLast at found
    split at found
    · split_ifs at found with differs
      · obtain ⟨rfl, rfl⟩ := by simpa using found
        exact @Matches.adjusted _ _ [] _ _ _ rfl rfl differs
      · obtain ⟨rfl, rfl⟩ := by simpa using found
        exact .exact (by simp_all)
    · obtain ⟨rfl, rfl⟩ := by simpa using found
      exact @Matches.absorbed _ _ [] _ _ rfl rfl
    · split_ifs at found with same
      obtain ⟨rfl, rfl⟩ := by simpa using found
      exact .exact (by simp [same])
    · simp at found
  · intro found
    cases found with
    | exact split =>
      subst split
      cases p <;> simp [matchLast]
    | @adjusted key _ m n short long differs =>
      obtain ⟨rfl, rfl⟩ : key = [] ∧ p = .offset m := by cases key <;> simp_all
      simp [long, matchLast, differs]
    | @absorbed key _ m short long =>
      obtain ⟨rfl, rfl⟩ : key = [] ∧ p = .offset m := by cases key <;> simp_all
      simp [long, matchLast]

theorem matchPrefixSegs_eq_some_iff {path shorter rest : List PathSegment} {adjust : Option Int64} :
    matchPrefixSegs path shorter = some (adjust, rest) ↔ Matches path shorter adjust rest := by
  induction path, shorter using matchPrefixSegs.induct with
  | case1 path =>
    constructor
    · intro found
      obtain ⟨rfl, rfl⟩ := by simpa [matchPrefixSegs] using found
      exact .exact rfl
    · intro found
      cases found with
      | exact split => simp [matchPrefixSegs, split]
      | adjusted short | absorbed short => simp at short
  | case2 path p => simpa only [matchPrefixSegs] using matchLast_eq_some_iff
  | case3 p q shorter =>
    constructor
    · simp [matchPrefixSegs]
    · intro found
      cases found with
      | exact split => simp at split
      | adjusted short long | absorbed short long => simp at long
  | case4 path p q shorter ih =>
    rw [matchPrefixSegs, if_pos rfl, ih]
    exact ⟨fun found => found.cons p, fun found => found.of_cons.2⟩
  | case5 a path p q shorter differs =>
    rw [matchPrefixSegs, if_neg differs]
    exact ⟨nofun, fun found => absurd found.of_cons.1 differs⟩

theorem Matches.isSuffix {path shorter rest : List PathSegment} {adjust : Option Int64}
    (found : Matches path shorter adjust rest) : rest <:+ path := by
  cases found with
  | exact split => exact split ▸ List.suffix_append ..
  | adjusted _ long => exact long ▸ (List.suffix_cons ..).trans (List.suffix_append ..)
  | absorbed _ long => exact long ▸ List.suffix_append ..

/-- The suffix of `path` after `shorter`, as an adjustment and a tail of `path`. -/
def matchPrefixSplit (path shorter : Path) : Option (Option Int64 × Path) :=
  match found : matchPrefixSegs path.segs shorter.segs with
  | none => none
  | some (adjust, rest) =>
    some (adjust, .ofClear rest
      (path.clear.of_isInfix (matchPrefixSegs_eq_some_iff.mp found).isSuffix.isInfix))

theorem matchPrefixSplit_eq_some_iff {path shorter rest : Path} {adjust : Option Int64} :
    matchPrefixSplit path shorter = some (adjust, rest) ↔
      Matches path.segs shorter.segs adjust rest.segs := by
  rw [← matchPrefixSegs_eq_some_iff]
  unfold matchPrefixSplit
  split
  · simp_all
  · rename_i found
    simp [found, Path.ext_iff]

/-- The suffix solving `path = shorter · suffix`, with offset arithmetic on the last component. -/
def matchPrefix (path shorter : Path) : Option Path :=
  (matchPrefixSplit path shorter).map fun (adjust, rest) =>
    match adjust with
    | some adj => .fromAccesses (.offset adj :: rest.segs)
    | none => rest

/-- Prepends `front` onto a suffix, rewriting only where the two meet. -/
def prependOnto (front suffix : Path) : Path :=
  let consAll (comps : List PathSegment) (acc : Path) : Path :=
    comps.foldr (fun comp acc => .fromAccesses (comp :: acc.segs)) acc
  match front.segs.getLast?, suffix.head with
  | none, _ => suffix
  | some (.offset a), some (.offset b) =>
    consAll front.segs.dropLast
      (if a + b = 0 then suffix.tail else .fromAccesses (.offset (a + b) :: suffix.tail.segs))
  | some (.offset _), some .value => consAll front.segs.dropLast suffix
  | some .value, some (.offset _) => consAll front.segs suffix.tail
  | some .value, some .value => consAll front.segs suffix.tail
  | _, _ => consAll front.segs suffix

private theorem foldr_fromAccesses {comps : List PathSegment} (acc : Path)
    (clear : Clear (comps ++ acc.segs)) :
    (comps.foldr (fun comp acc => Path.fromAccesses (comp :: acc.segs)) acc).segs = comps ++ acc.segs := by
  induction comps with
  | nil => rfl
  | cons comp comps ih =>
    rw [List.foldr_cons, Path.segs_fromAccesses, ih clear.tail]
    exact normalize_of_clear clear

/-- Prepending is concatenation in normal form. -/
theorem segs_prependOnto (front suffix : Path) :
    (prependOnto front suffix).segs = Cir.concat front.segs suffix.segs := by
  obtain ⟨rest, normal⟩ := suffix
  have clear : Clear rest := normalize_eq_self_iff.mp normal
  cases rest with
  | nil =>
    have whole : Clear (front.segs ++ []) := by simpa using front.clear
    cases last : front.segs.getLast? with
    | none =>
      have none := List.getLast?_eq_none_iff.mp last
      simp [prependOnto, none, Path.head, Cir.concat]
    | some a =>
      have plain := foldr_fromAccesses ⟨[], normal⟩ whole
      cases a <;> simpa [prependOnto, last, Path.head, Cir.concat] using plain
  | cons s t =>
    have joined := clear_concat front.clear (s :: t)
    rw [concat_cons_of_clear front.clear clear] at joined ⊢
    cases last : front.segs.getLast? with
    | none =>
      have none := List.getLast?_eq_none_iff.mp last
      have single : pushNormalized [] s = [] ++ [s] :=
        pushNormalized_of_clear (Clear.singleton clear.head_ne)
      simp [prependOnto, none, Path.head, single]
    | some a =>
      have built {comps : List PathSegment} {acc : Path}
          (same : comps ++ acc.segs = pushNormalized front.segs s ++ t) :
          (comps.foldr (fun comp acc => Path.fromAccesses (comp :: acc.segs)) acc).segs =
            pushNormalized front.segs s ++ t :=
        (foldr_fromAccesses acc (same ▸ joined)).trans same
      have apart : ∀ b, b.soft → front.segs = front.segs.dropLast ++ [b] →
          front.segs.dropLast.getLast? ≠ some .value := by
        intro b soft split valued
        have parts := split ▸ front.clear
        exact (Clear.append_iff.mp parts).2.2 .value valued b rfl ⟨rfl, soft⟩
      have split : front.segs = front.segs.dropLast ++ [a] := by
        obtain ⟨init, eq⟩ := List.getLast?_eq_some_iff.mp last
        rw [eq, List.dropLast_concat]
      cases a with
      | offset x =>
        cases s with
        | offset y =>
          simp only [prependOnto, last, Path.head, List.head?_cons]
          apply built
          have sumClear (nonzero : x + y ≠ 0) : Clear (.offset (x + y) :: t) := by
            simpa [pushNormalized, last, nonzero] using joined.of_isInfix
              (l := .offset (x + y) :: t) ⟨front.segs.dropLast, [], by simp [pushNormalized, last, nonzero]⟩
          split_ifs with zero
          · simp [pushNormalized, last, zero]
          · simp [pushNormalized, last, zero, normalize_of_clear (sumClear zero)]
        | value =>
          simp only [prependOnto, last, Path.head, List.head?_cons]
          apply built
          simp [pushNormalized, last, isOffset, apart (.offset x) rfl split]
        | field name | deref =>
          simp only [prependOnto, last, Path.head, List.head?_cons]
          exact built (by simp [pushNormalized])
      | value =>
        cases s with
        | offset y =>
          simp only [prependOnto, last, Path.head, List.head?_cons]
          exact built (by simp [pushNormalized, last])
        | value =>
          simp only [prependOnto, last, Path.head, List.head?_cons]
          exact built (by simp [pushNormalized, last, isOffset])
        | field name | deref =>
          simp only [prependOnto, last, Path.head, List.head?_cons]
          exact built (by simp [pushNormalized])
      | field name | deref =>
        have pushes : pushNormalized front.segs s = front.segs ++ [s] :=
          pushNormalized_of_clear (Clear.append_iff.mpr
            ⟨front.clear, .singleton clear.head_ne, by simp [last, soft]⟩)
        cases s <;> simp only [prependOnto, last, Path.head, List.head?_cons] <;>
          exact built (by rw [pushes]; simp)

/-- Replaces the beginning `shorter` of a path by `front`. -/
def Path.substitutePrefix (path shorter front : Path) : Option Path :=
  (matchPrefix path shorter).map (prependOnto front)

theorem Path.segs_concat (p q : Path) : (p.concat q).segs = Cir.concat p.segs q.segs := by
  rw [concat, segs_fromAccesses, normalize_append, p.normal]

theorem prependOnto_eq_concat (front suffix : Path) : prependOnto front suffix = front.concat suffix :=
  Path.ext ((segs_prependOnto front suffix).trans (front.segs_concat suffix).symm)

/-- The adjustment a match leaves is a nonzero offset before a field or `deref`. -/
theorem Matches.clear_adjusted {path shorter : List PathSegment} {adj : Int64}
    {rest : List PathSegment} (found : Matches path shorter (some adj) rest) (normal : Clear path) :
    Clear (.offset adj :: rest) := by
  cases found with
  | @adjusted key _ m n short long differs =>
    have inner : Clear (.offset n :: rest) := (long ▸ normal).right
    have nonzero : n - m ≠ 0 := by grind
    refine Clear.append_iff (l := [.offset (n - m)]).mpr
      ⟨.singleton (by simpa using nonzero), inner.tail, ?_⟩
    have apart := (Clear.append_iff (l := [.offset n]) (r := rest)).mp inner
    simpa [PathSegment.soft] using apart.2.2

namespace Path

theorem mem_prefixKeys {p key rest : Path} :
    (key, rest) ∈ p.prefixKeys ↔ p.segs = key.segs ++ rest.segs := by
  simp only [prefixKeys, List.mem_map, List.mem_range, Prod.mk.injEq, ext_iff, segs_fromAccesses,
    segs_ofClear]
  constructor
  · rintro ⟨k, -, left, right⟩
    rw [normalize_of_clear (p.clear.of_isInfix (List.IsPrefix.isInfix <| List.take_prefix k p.segs))] at left
    rw [← left, ← right, List.take_append_drop]
  · intro split
    refine ⟨key.segs.length, ?_, ?_, ?_⟩
    · rw [split, List.length_append]
      omega
    · rw [split, List.take_left, key.normal]
    · rw [split, List.drop_left]

theorem mem_prefixKeysWild {p key rest : Path} :
    (key, rest) ∈ p.prefixKeysWild ↔
      p.segs = key.segs ++ rest.segs ∧ ∃ s t, rest.segs = s :: t ∧ s.soft := by
  simp only [prefixKeysWild, List.mem_filter, mem_prefixKeys, head]
  refine and_congr_right fun _ => ?_
  cases rest.segs <;> simp

theorem splitTrailingOffset_eq_some {p key : Path} {m : Int64} :
    p.splitTrailingOffset = some (key, m) ↔ p.segs = key.segs ++ [.offset m] := by
  unfold splitTrailingOffset
  constructor
  · intro found
    split at found
    · rename_i m' last
      obtain ⟨init, eq⟩ := List.getLast?_eq_some_iff.mp last
      simp only [Option.some.injEq, Prod.mk.injEq, ext_iff, segs_fromAccesses] at found
      rw [eq, List.dropLast_concat, normalize_of_clear (eq ▸ p.clear).left] at found
      rw [eq, found.1, found.2]
    · simp at found
  · intro split
    simp [split, ext_iff, key.normal]

theorem wildRest_eq_some {rest tail : Path} {m adj : Int64} :
    rest.wildRest m = some (adj, tail) ↔
      (∃ n, rest.segs = .offset n :: tail.segs ∧ n ≠ m ∧ adj = n - m) ∨
      (rest.head = some .value ∧ adj = 0 ∧ tail = rest) := by
  obtain ⟨segs, normal⟩ := rest
  cases segs with
  | nil => simp [wildRest, head]
  | cons s t =>
    cases s with
    | offset n =>
      simp only [wildRest, head, List.head?_cons]
      by_cases differs : n = m
      · simp [differs]
      · simp only [ne_eq, differs, not_false_eq_true, ↓reduceIte, Option.some.injEq, Prod.mk.injEq,
          ext_iff, segs_tail, List.tail_cons, List.cons.injEq, PathSegment.offset.injEq, reduceCtorEq,
          false_and, or_false]
        constructor
        · rintro ⟨rfl, rfl⟩
          exact ⟨n, ⟨rfl, rfl⟩, differs, rfl⟩
        · rintro ⟨_, ⟨rfl, rfl⟩, -, rfl⟩
          exact ⟨rfl, rfl⟩
    | value => simp [wildRest, head, eq_comm]
    | field name | deref => simp [wildRest, head]

end Path

end Ctadl.Facts
