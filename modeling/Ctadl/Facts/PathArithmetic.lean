import Ctadl.Cir.Quotient
import Ctadl.Collections.Fallible
import Ctadl.Facts.Build
import Ctadl.Facts.PathSet

/-! # The offset arithmetic of a build

Matching a path against a shorter one subtracts two offsets and prepending a front adds two, both with the plain
operators. Where the result fits, or a `release` build lets it wrap, the functions are the ones on wrapping words; a `dev`
build stops at any other. What follows of the join keys, of the agreement with the path algebra and of walking an edge
back holds of every build.
-/

namespace Ctadl.Facts

open Cir PathSegment
open Collections (bind_eq_ok bind_of_ok)

namespace Build

/-- The last component of the shorter path. -/
def matchLast (build : Build) : List PathSegment → PathSegment →
    Except Panic (Option (Option Int64 × List PathSegment))
  | .offset an :: rest, .offset pn =>
    if an ≠ pn then do return some (some (← build.sub an pn), rest) else .ok (some (none, rest))
  | .value :: rest, .offset _ => .ok (some (none, .value :: rest))
  | a :: rest, p => .ok (if a = p then some (none, rest) else none)
  | [], _ => .ok none

/-- The walk: every component of the shorter path but the last must match exactly. -/
def matchPrefixSplit (build : Build) : List PathSegment → List PathSegment →
    Except Panic (Option (Option Int64 × List PathSegment))
  | path, [] => .ok (some (none, path))
  | path, [p] => build.matchLast path p
  | [], _ :: _ :: _ => .ok none
  | a :: path, p :: q :: shorter => if a = p then build.matchPrefixSplit path (q :: shorter) else .ok none

/-- The suffix solving `path = shorter · suffix`. -/
def matchPrefix (build : Build) (path shorter : Path) : Except Panic (Option Path) := do
  match ← build.matchPrefixSplit path.segs shorter.segs with
  | none => return none
  | some (some adj, rest) => return some (.fromAccesses (.offset adj :: rest))
  | some (none, rest) => return some (.fromAccesses rest)

/-- Prepends `front` onto a suffix, rewriting only where the two meet. -/
def prependOnto (build : Build) (front suffix : Path) : Except Panic Path :=
  let consAll (comps : List PathSegment) (acc : Path) : Path :=
    comps.foldr (fun comp acc => .fromAccesses (comp :: acc.segs)) acc
  match front.segs.getLast?, suffix.head with
  | none, _ => .ok suffix
  | some (.offset a), some (.offset b) => do
    let sum ← build.add a b
    let rest := if sum = 0 then suffix.tail else .fromAccesses (.offset sum :: suffix.tail.segs)
    return consAll front.segs.dropLast rest
  | some (.offset _), some .value => .ok (consAll front.segs.dropLast suffix)
  | some .value, some (.offset _) => .ok (consAll front.segs suffix.tail)
  | some .value, some .value => .ok (consAll front.segs suffix.tail)
  | _, _ => .ok (consAll front.segs suffix)

/-- Replaces the beginning `shorter` of a path by `front`. -/
def substitutePrefix (build : Build) (path shorter front : Path) : Except Panic (Option Path) := do
  match ← build.matchPrefix path shorter with
  | none => return none
  | some suffix => return some (← build.prependOnto front suffix)

/-- The match of a wild split's `rest` against a shorter path `key.[m]`. -/
def wildRest (build : Build) (rest : Path) (m : Int64) : Except Panic (Option (Int64 × Path)) :=
  match rest.head with
  | some (.offset n) => if n ≠ m then do return some (← build.sub n m, rest.tail) else .ok none
  | some .value => .ok (some (0, rest))
  | _ => .ok none

/-- The remainders the wild splits give against `key.[m]`. -/
def wildRests (build : Build) (m : Int64) : List (Path × Path) → Except Panic (List Path)
  | [] => .ok []
  | (_, rest) :: splits => do
    let found ← build.wildRest rest m
    let others ← build.wildRests m splits
    match found with
    | some (adj, tail) => return .fromAccesses (.offset adj :: tail.segs) :: others
    | none => return others

/-- The remainders found by looking `shorter` up among the exact and the wild keys of `path`. -/
def lookups (build : Build) (path shorter : Path) : Except Panic (List Path) := do
  let exact := (path.prefixKeys.filter fun split => split.1 = shorter).map Prod.snd
  match shorter.splitTrailingOffset with
  | none => return exact
  | some (key, m) => return exact ++ (← build.wildRests m (path.prefixKeysWild.filter fun split => split.1 = key))

end Build

/-- Where the walk comes to two offsets, their difference is within the 64-bit range. -/
def DifferenceInRange (path shorter : List PathSegment) : Prop :=
  ∀ key m n rest, shorter = key ++ [.offset m] → path = key ++ .offset n :: rest → InRange (n.toInt - m.toInt)

/-- The offsets at the junction have a sum within the 64-bit range. -/
def SumInRange (front suffix : Path) : Prop :=
  ∀ a b, front.segs.getLast? = some (.offset a) → suffix.head = some (.offset b) → InRange (a.toInt + b.toInt)

section Walk

variable {build : Build} {path shorter rest : List PathSegment} {a p q : PathSegment} {m n : Int64}

theorem DifferenceInRange.of_last (unpaired : ∀ m n rest, p = .offset m → path ≠ .offset n :: rest) :
    DifferenceInRange path [p] := by
  intro key m n rest short long
  cases key with
  | nil => exact absurd long (unpaired m n rest (List.cons.inj short).1)
  | cons k key => simp at short

theorem differenceInRange_offset_iff :
    DifferenceInRange (.offset n :: rest) [.offset m] ↔ InRange (n.toInt - m.toInt) := by
  constructor
  · exact fun inRange => inRange [] m n rest rfl rfl
  · intro inRange key m' n' rest' short long
    cases key with
    | nil =>
      obtain rfl : m = m' := by simpa using short
      obtain ⟨rfl, -⟩ : n = n' ∧ rest = rest' := by simpa using long
      exact inRange
    | cons k key => simp at short

theorem differenceInRange_cons_iff :
    DifferenceInRange (a :: path) (p :: q :: shorter) ↔ (a = p → DifferenceInRange path (q :: shorter)) := by
  constructor
  · rintro inRange rfl key m n rest short long
    exact inRange (a :: key) m n rest (by rw [short, List.cons_append]) (by rw [long, List.cons_append])
  · intro inRange key m n rest short long
    cases key with
    | nil => simp at short
    | cons k key =>
      rw [List.cons_append, List.cons.injEq] at short long
      exact inRange (long.1.trans short.1.symm) key m n rest short.2 long.2

theorem inRange_sub_self (n : Int64) : InRange (n.toInt - n.toInt) := by
  rw [Int.sub_self]
  decide

private theorem matchLast_eq_ok {found : Option (Option Int64 × List PathSegment)} :
    build.matchLast path p = .ok found ↔
      found = Facts.matchLast path p ∧ (build = .release ∨ DifferenceInRange path [p]) := by
  have plain (same : build.matchLast path p = .ok (Facts.matchLast path p))
      (unpaired : ∀ m n rest, p = .offset m → path ≠ .offset n :: rest) :
      build.matchLast path p = .ok found ↔
        found = Facts.matchLast path p ∧ (build = .release ∨ DifferenceInRange path [p]) := by
    have inRange : DifferenceInRange path [p] := .of_last unpaired
    rw [same, Except.ok.injEq, eq_comm]
    simp [inRange]
  cases path with
  | nil => exact plain rfl (by simp)
  | cons a rest =>
    cases a with
    | field name | deref | value => cases p <;> exact plain rfl (by simp)
    | offset an =>
      cases p with
      | field name | deref | value => exact plain rfl (by simp)
      | offset pn =>
        simp only [Build.matchLast, Facts.matchLast, differenceInRange_offset_iff]
        split_ifs with differs
        · constructor
          · intro returned
            obtain ⟨difference, subtracted, returned⟩ := bind_eq_ok.mp returned
            obtain ⟨rfl, inRange⟩ := Build.sub_eq_ok.mp subtracted
            exact ⟨(Except.ok.inj returned).symm, inRange⟩
          · rintro ⟨rfl, inRange⟩
            rw [bind_of_ok (Build.sub_of_inRange inRange)]
            rfl
        · obtain rfl := not_not.mp differs
          have inRange := inRange_sub_self an
          rw [Except.ok.injEq, eq_comm, and_iff_left (.inr inRange)]

/-- The walk of a build is the walk on wrapping words, unless it stops at the difference. -/
theorem matchPrefixSplit_eq_ok {found : Option (Option Int64 × List PathSegment)} :
    build.matchPrefixSplit path shorter = .ok found ↔
      found = matchPrefixSegs path shorter ∧ (build = .release ∨ DifferenceInRange path shorter) := by
  induction path, shorter using matchPrefixSegs.induct with
  | case1 path =>
    have inRange : DifferenceInRange path [] := fun key m n rest short _ => by simp at short
    simp [Build.matchPrefixSplit, matchPrefixSegs, inRange, eq_comm]
  | case2 path p => simpa only [Build.matchPrefixSplit, matchPrefixSegs] using matchLast_eq_ok
  | case3 p q shorter =>
    have inRange : DifferenceInRange [] (p :: q :: shorter) := fun key m n rest _ long => by simp at long
    simp [Build.matchPrefixSplit, matchPrefixSegs, inRange, eq_comm]
  | case4 path p q shorter ih =>
    rw [Build.matchPrefixSplit, matchPrefixSegs, if_pos rfl, if_pos rfl, ih, differenceInRange_cons_iff]
    simp
  | case5 a path p q shorter differs =>
    rw [Build.matchPrefixSplit, matchPrefixSegs, if_neg differs, if_neg differs, differenceInRange_cons_iff]
    simp [differs, eq_comm]

end Walk

section Operations

variable {build : Build} {path shorter front suffix p q r : Path}

/-- The suffix a walk stands for. -/
def suffixOf : Option (Option Int64 × List PathSegment) → Option Path
  | none => none
  | some (some adj, rest) => some (.fromAccesses (.offset adj :: rest))
  | some (none, rest) => some (.fromAccesses rest)

theorem matchPrefix_eq_suffixOf (path shorter : Path) :
    Facts.matchPrefix path shorter = suffixOf (matchPrefixSegs path.segs shorter.segs) := by
  cases walked : matchPrefixSegs path.segs shorter.segs with
  | none =>
    have unmatched : matchPrefixSplit path shorter = none := by
      rw [Option.eq_none_iff_forall_ne_some]
      rintro ⟨adjust, rest⟩ found
      have matched := matchPrefixSegs_eq_some_iff.mpr (matchPrefixSplit_eq_some_iff.mp found)
      rw [walked] at matched
      exact nomatch matched
    rw [Facts.matchPrefix, unmatched]
    rfl
  | some found =>
    obtain ⟨adjust, rest⟩ := found
    have matched := matchPrefixSegs_eq_some_iff.mp walked
    have clear := path.clear.of_isInfix matched.isSuffix.isInfix
    have split : matchPrefixSplit path shorter = some (adjust, .ofClear rest clear) :=
      matchPrefixSplit_eq_some_iff.mpr matched
    rw [Facts.matchPrefix, split]
    cases adjust with
    | none => exact congrArg some (Path.ext (normalize_of_clear clear).symm)
    | some adj => rfl

theorem matchPrefix_eq_ok {found : Option Path} : build.matchPrefix path shorter = .ok found ↔
    found = Facts.matchPrefix path shorter ∧ (build = .release ∨ DifferenceInRange path.segs shorter.segs) := by
  have after (walked : Option (Option Int64 × List PathSegment)) : (match walked with
      | none => return none
      | some (some adj, rest) => return some (.fromAccesses (.offset adj :: rest))
      | some (none, rest) => return some (.fromAccesses rest) : Except Panic (Option Path)) = .ok (suffixOf walked) := by
    match walked with
    | none => rfl
    | some (some adj, rest) => rfl
    | some (none, rest) => rfl
  rw [matchPrefix_eq_suffixOf]
  constructor
  · intro returned
    obtain ⟨walked, split, returned⟩ := bind_eq_ok.mp returned
    obtain ⟨rfl, inRange⟩ := matchPrefixSplit_eq_ok.mp split
    exact ⟨(Except.ok.inj ((after _).symm.trans returned)).symm, inRange⟩
  · rintro ⟨rfl, inRange⟩
    rw [Build.matchPrefix, bind_of_ok (matchPrefixSplit_eq_ok.mpr ⟨rfl, inRange⟩)]
    exact after _

theorem prependOnto_eq_ok {found : Path} : build.prependOnto front suffix = .ok found ↔
    found = Facts.prependOnto front suffix ∧ (build = .release ∨ SumInRange front suffix) := by
  have plain (same : build.prependOnto front suffix = .ok (Facts.prependOnto front suffix))
      (unpaired : ∀ a b, front.segs.getLast? = some (.offset a) → suffix.head ≠ some (.offset b)) :
      build.prependOnto front suffix = .ok found ↔
        found = Facts.prependOnto front suffix ∧ (build = .release ∨ SumInRange front suffix) := by
    have inRange : SumInRange front suffix := fun a b last head => absurd head (unpaired a b last)
    rw [same, Except.ok.injEq, eq_comm]
    simp [inRange]
  cases last : front.segs.getLast? with
  | none => exact plain (by simp [Build.prependOnto, Facts.prependOnto, last]) (by simp [last])
  | some a =>
    cases head : suffix.head with
    | none =>
      refine plain ?_ (by simp [head])
      cases a <;> simp [Build.prependOnto, Facts.prependOnto, last, head]
    | some b =>
      cases a with
      | field name | deref | value =>
        refine plain ?_ (by simp [last])
        cases b <;> simp [Build.prependOnto, Facts.prependOnto, last, head]
      | offset m =>
        cases b with
        | field name | deref | value =>
          refine plain ?_ (by simp [head])
          simp [Build.prependOnto, Facts.prependOnto, last, head]
        | offset n =>
          have range : SumInRange front suffix ↔ InRange (m.toInt + n.toInt) := by
            simp [SumInRange, last, head]
          simp only [Build.prependOnto, Facts.prependOnto, last, head, range]
          constructor
          · intro returned
            obtain ⟨sum, added, returned⟩ := bind_eq_ok.mp returned
            obtain ⟨rfl, inRange⟩ := Build.add_eq_ok.mp added
            exact ⟨(Except.ok.inj returned).symm, inRange⟩
          · rintro ⟨rfl, inRange⟩
            rw [bind_of_ok (Build.add_of_inRange inRange)]
            rfl

/-- What a substitution that answers went through. -/
theorem substitutePrefix_eq_ok_some {found : Path} : build.substitutePrefix path shorter front = .ok (some found) ↔
    ∃ suffix, build.matchPrefix path shorter = .ok (some suffix) ∧ build.prependOnto front suffix = .ok found := by
  constructor
  · intro returned
    obtain ⟨answer, matched, returned⟩ := bind_eq_ok.mp returned
    cases answer with
    | none => exact nomatch (Except.ok.inj returned)
    | some suffix =>
      obtain ⟨whole, prepended, returned⟩ := bind_eq_ok.mp returned
      obtain rfl := Option.some.inj (Except.ok.inj returned)
      exact ⟨suffix, matched, prepended⟩
  · rintro ⟨suffix, matched, prepended⟩
    rw [Build.substitutePrefix, bind_of_ok matched]
    exact bind_eq_ok.mpr ⟨found, prepended, rfl⟩

end Operations

section Agreement

variable {build : Build} {path shorter p q r : Path} {key rest : List PathSegment} {m n : Int64}

/-- Before a last offset of a normal path stands a body. -/
theorem hardEnd_of_last (clear : Clear (key ++ [.offset m])) : HardEnd key := by
  intro a last
  have apart := (Clear.append_iff.mp clear).2.2 a last (.offset m) rfl
  simpa [soft] using apart

theorem residue_of_last (clear : Clear (key ++ [.offset m])) : [PathSegment.offset m] = residue m := by
  have nonzero : m ≠ 0 := by
    rintro rfl
    exact clear.2 (by simp)
  simp [residue, nonzero]

/-- The suffix a match finds completes the shorter path, in the algebra of paths. -/
theorem concat_of_matchPrefix {suffix : Path} (found : matchPrefix path shorter = some suffix) :
    Cir.concat shorter.segs suffix.segs = path.segs := by
  obtain ⟨adjust, rest, matched, whole⟩ := matchPrefix_eq_some_iff.mp found
  have clear := suffix.clear
  rw [whole] at clear ⊢
  generalize rest.segs = segs at matched clear
  cases matched with
  | exact split => exact split ▸ concat_of_clear (split ▸ path.clear)
  | @adjusted key _ m n short long differs =>
    have front := short ▸ shorter.clear
    have sum : m + (n - m) = n := by grind
    have body : Clear (key ++ [.offset n]) := by
      have along := path.clear
      rw [long, ← List.singleton_append, ← List.append_assoc] at along
      exact along.left
    change Clear (.offset (n - m) :: segs) at clear
    rw [short, long, residue_of_last front]
    change Cir.concat _ (.offset (n - m) :: segs) = _
    rw [concat_cons_of_clear (residue_of_last front ▸ front) clear, pushNormalized_residue_offset (hardEnd_of_last front), sum,
      ← residue_of_last body, List.append_assoc, List.singleton_append]
  | @absorbed key segs m short long =>
    have front := short ▸ shorter.clear
    change Clear (.value :: segs) at clear
    rw [short, long, residue_of_last front]
    change Cir.concat _ (.value :: segs) = _
    rw [concat_cons_of_clear (residue_of_last front ▸ front) clear, pushNormalized_residue_value (hardEnd_of_last front),
      List.append_assoc, List.singleton_append]

/-- The suffix a match finds is the one the left quotient finds. -/
theorem stripPrefix_of_matchPrefix {suffix : Path} (found : matchPrefix path shorter = some suffix) :
    stripPrefix path.segs shorter.segs = some suffix.segs := by
  have completes := concat_of_matchPrefix found
  by_cases rebased : ∃ m, shorter.segs.getLast? = some (.offset m)
  · obtain ⟨m, last⟩ := rebased
    obtain ⟨init, split⟩ := List.getLast?_eq_some_iff.mp last
    have clear := shorter.clear
    rw [split] at clear completes
    rw [split, ← completes, stripPrefix_concat_offset clear, suffix.normal]
  · have fixed : ∀ m, shorter.segs.getLast? ≠ some (.offset m) := not_exists.mp rebased
    obtain ⟨adjust, rest, matched, whole⟩ := matchPrefix_eq_some_iff.mp found
    rw [whole]
    generalize rest.segs = segs at matched
    cases matched with
    | exact split =>
      rw [split]
      exact stripPrefix_of_fixed fixed segs
    | adjusted short | absorbed short => exact (rebased ⟨_, by rw [short, List.getLast?_concat]⟩).elim

/-- The path operations are those of the algebra, exactly where the sum at the junction fits, or wraps: prepending is
concatenation, a suffix that is found is one the left quotient has and completes the shorter path, and a substitution
exchanges the beginnings of one suffix. -/
theorem path_operations_iff (build : Build) (p q : Path) :
    ((∃ r, build.prependOnto p q = .ok r ∧ r.segs = Cir.concat p.segs q.segs) ∧
      (∀ rest, build.matchPrefix p q = .ok (some rest) →
        stripPrefix p.segs q.segs = some rest.segs ∧ Cir.concat q.segs rest.segs = p.segs) ∧
      ∀ r found, build.substitutePrefix p q r = .ok (some found) →
        ∃ t : Path, p.segs = Cir.concat q.segs t.segs ∧ found.segs = Cir.concat r.segs t.segs) ↔
      build = .release ∨ SumInRange p q := by
  constructor
  · rintro ⟨⟨r, returned, -⟩, -⟩
    exact (prependOnto_eq_ok.mp returned).2
  · intro inRange
    refine ⟨⟨_, prependOnto_eq_ok.mpr ⟨rfl, inRange⟩, segs_prependOnto p q⟩, fun rest matched => ?_, fun r found returned => ?_⟩
    · have answers := (matchPrefix_eq_ok.mp matched).1.symm
      exact ⟨stripPrefix_of_matchPrefix answers, concat_of_matchPrefix answers⟩
    · obtain ⟨suffix, matched, prepended⟩ := substitutePrefix_eq_ok_some.mp returned
      obtain ⟨rfl, -⟩ := prependOnto_eq_ok.mp prepended
      exact ⟨suffix, (concat_of_matchPrefix (matchPrefix_eq_ok.mp matched).1.symm).symm, segs_prependOnto r suffix⟩

/-- Of `[i64::MAX]` and `[1]` a `dev` build does not make the concatenation `[i64::MIN]`. -/
theorem prependOnto_stops : ¬ ((∃ r, Build.dev.prependOnto (.fromAccesses [.offset 9223372036854775807]) (.fromAccesses [.offset 1]) = .ok r ∧
      r.segs = Cir.concat (Path.fromAccesses [.offset 9223372036854775807]).segs (Path.fromAccesses [.offset 1]).segs) ∧
    (∀ rest, Build.dev.matchPrefix (.fromAccesses [.offset 9223372036854775807]) (.fromAccesses [.offset 1]) = .ok (some rest) →
      stripPrefix (Path.fromAccesses [.offset 9223372036854775807]).segs (Path.fromAccesses [.offset 1]).segs = some rest.segs ∧
        Cir.concat (Path.fromAccesses [.offset 1]).segs rest.segs = (Path.fromAccesses [.offset 9223372036854775807]).segs) ∧
    ∀ r found, Build.dev.substitutePrefix (.fromAccesses [.offset 9223372036854775807]) (.fromAccesses [.offset 1]) r = .ok (some found) →
      ∃ t : Path, (Path.fromAccesses [.offset 9223372036854775807]).segs = Cir.concat (Path.fromAccesses [.offset 1]).segs t.segs ∧
        found.segs = Cir.concat r.segs t.segs) := by
  rintro ⟨⟨r, returned, -⟩, -⟩
  have stops : Build.dev.prependOnto (.fromAccesses [.offset 9223372036854775807]) (.fromAccesses [.offset 1]) =
      .error .overflow := by rfl
  rw [stops] at returned
  exact nomatch returned

end Agreement

section Keys

variable {build : Build} {path shorter key rest tail r : Path} {m adj : Int64} {splits : List (Path × Path)}

theorem wildRest_eq_ok {found : Option (Int64 × Path)} : build.wildRest rest m = .ok found ↔
    found = rest.wildRest m ∧ (build = .release ∨ ∀ n t, rest.segs = .offset n :: t → InRange (n.toInt - m.toInt)) := by
  have plain (same : build.wildRest rest m = .ok (rest.wildRest m)) (unpaired : ∀ n t, rest.segs ≠ .offset n :: t) :
      build.wildRest rest m = .ok found ↔ found = rest.wildRest m ∧
        (build = .release ∨ ∀ n t, rest.segs = .offset n :: t → InRange (n.toInt - m.toInt)) := by
    rw [same, Except.ok.injEq, eq_comm, and_iff_left (.inr fun n t shape => absurd shape (unpaired n t))]
  obtain ⟨segs, normal⟩ := rest
  cases segs with
  | nil => exact plain rfl (by simp)
  | cons a t =>
    cases a with
    | field name | deref | value => exact plain rfl (by simp)
    | offset n =>
      have range : (∀ n' t', PathSegment.offset n :: t = .offset n' :: t' → InRange (n'.toInt - m.toInt)) ↔
          InRange (n.toInt - m.toInt) := by
        constructor
        · exact fun inRange => inRange n t rfl
        · rintro inRange n' t' same
          obtain ⟨rfl, -⟩ : n = n' ∧ t = t' := by simpa using same
          exact inRange
      simp only [Build.wildRest, Path.wildRest, Path.head, List.head?_cons, range]
      split_ifs with differs
      · constructor
        · intro returned
          obtain ⟨difference, subtracted, returned⟩ := bind_eq_ok.mp returned
          obtain ⟨rfl, inRange⟩ := Build.sub_eq_ok.mp subtracted
          exact ⟨(Except.ok.inj returned).symm, inRange⟩
        · rintro ⟨rfl, inRange⟩
          rw [bind_of_ok (Build.sub_of_inRange inRange)]
          rfl
      · obtain rfl := not_not.mp differs
        have inRange := inRange_sub_self n
        rw [Except.ok.injEq, eq_comm, and_iff_left (.inr inRange)]

/-- The wild splits return unless one of them stops at its difference. -/
theorem exists_wildRests_iff : (∃ found, build.wildRests m splits = .ok found) ↔
    build = .release ∨ ∀ split ∈ splits, ∀ n t, split.2.segs = .offset n :: t → InRange (n.toInt - m.toInt) := by
  induction splits with
  | nil => simp [Build.wildRests]
  | cons split splits ih =>
    rw [List.forall_mem_cons, or_and_left, ← ih]
    constructor
    · rintro ⟨found, returned⟩
      obtain ⟨first, here, returned⟩ := bind_eq_ok.mp returned
      obtain ⟨others, later, -⟩ := bind_eq_ok.mp returned
      exact ⟨(wildRest_eq_ok.mp here).2, others, later⟩
    · rintro ⟨inRange, others, later⟩
      rw [Build.wildRests, bind_of_ok (wildRest_eq_ok.mpr ⟨rfl, inRange⟩), bind_of_ok later]
      cases split.2.wildRest m with
      | none => exact ⟨_, rfl⟩
      | some found => exact ⟨_, rfl⟩

theorem mem_wildRests {found : List Path} (returned : build.wildRests m splits = .ok found) :
    r ∈ found ↔ ∃ split ∈ splits, ∃ adj tail, split.2.wildRest m = some (adj, tail) ∧
      r = .fromAccesses (.offset adj :: tail.segs) := by
  induction splits generalizing found with
  | nil =>
    obtain rfl := Except.ok.inj returned
    simp
  | cons split splits ih =>
    obtain ⟨first, here, returned⟩ := bind_eq_ok.mp returned
    obtain ⟨others, later, returned⟩ := bind_eq_ok.mp returned
    obtain ⟨rfl, -⟩ := wildRest_eq_ok.mp here
    rw [List.exists_mem_cons_iff, ← ih later]
    cases matched : split.2.wildRest m with
    | none =>
      rw [matched] at returned
      obtain rfl := Except.ok.inj returned
      simp
    | some answer =>
      obtain ⟨adj, tail⟩ := answer
      rw [matched] at returned
      obtain rfl := Except.ok.inj returned
      simp

/-- The keys are looked up unless a `dev` build stops at the difference the walk takes. -/
theorem exists_lookups_iff : (∃ found, build.lookups path shorter = .ok found) ↔
    build = .release ∨ DifferenceInRange path.segs shorter.segs := by
  unfold Build.lookups
  cases trailing : shorter.splitTrailingOffset with
  | none =>
    refine iff_of_true ⟨_, rfl⟩ (.inr fun key m n rest short _ => ?_)
    have clear := shorter.clear
    rw [short] at clear
    have split : shorter.splitTrailingOffset = some (.ofClear key clear.left, m) :=
      Path.splitTrailingOffset_eq_some.mpr short
    rw [trailing] at split
    exact nomatch split
  | some split =>
    obtain ⟨key, m⟩ := split
    have short := Path.splitTrailingOffset_eq_some.mp trailing
    have same : (∀ split ∈ path.prefixKeysWild.filter fun split => split.1 = key, ∀ n t, split.2.segs = .offset n :: t →
        InRange (n.toInt - m.toInt)) ↔ DifferenceInRange path.segs shorter.segs := by
      constructor
      · intro each front m' n tail short' long
        obtain ⟨rfl, rfl⟩ : key.segs = front ∧ m = m' := by simpa using short.symm.trans short'
        have clear := path.clear
        rw [long] at clear
        have member : (key, Path.ofClear (.offset n :: tail) clear.right) ∈ path.prefixKeysWild :=
          Path.mem_prefixKeysWild.mpr ⟨long, .offset n, tail, rfl, rfl⟩
        exact each _ (List.mem_filter.mpr ⟨member, by simp⟩) n tail rfl
      · intro inRange split member n tail shape
        obtain ⟨wild, same⟩ := List.mem_filter.mp member
        obtain rfl : split.1 = key := by simpa using same
        have long := (Path.mem_prefixKeysWild.mp wild).1
        exact inRange split.1.segs m n tail short (long.trans (by rw [shape]))
    rw [← same, ← exists_wildRests_iff]
    constructor
    · rintro ⟨found, returned⟩
      obtain ⟨rests, here, -⟩ := bind_eq_ok.mp returned
      exact ⟨rests, here⟩
    · rintro ⟨rests, here⟩
      exact ⟨_, bind_eq_ok.mpr ⟨rests, here, rfl⟩⟩

theorem mem_lookups {found : List Path} (returned : build.lookups path shorter = .ok found) :
    r ∈ found ↔ path.segs = shorter.segs ++ r.segs ∨
      ∃ key rest m adj tail, WildMatch path shorter key rest m adj tail ∧ r = .fromAccesses (.offset adj :: tail.segs) := by
  have exact : r ∈ (path.prefixKeys.filter fun split => split.1 = shorter).map Prod.snd ↔
      path.segs = shorter.segs ++ r.segs := by
    simp [Path.mem_prefixKeys]
  unfold Build.lookups at returned
  cases trailing : shorter.splitTrailingOffset with
  | none =>
    rw [trailing] at returned
    obtain rfl := Except.ok.inj returned
    rw [exact, iff_self_or]
    rintro ⟨key, rest, m, adj, tail, wild, -⟩
    have split := Path.splitTrailingOffset_eq_some.mpr wild.short
    rw [trailing] at split
    exact nomatch split
  | some split =>
    obtain ⟨key, m⟩ := split
    have short := Path.splitTrailingOffset_eq_some.mp trailing
    rw [trailing] at returned
    obtain ⟨rests, here, returned⟩ := bind_eq_ok.mp returned
    obtain rfl := Except.ok.inj returned
    rw [List.mem_append, exact, mem_wildRests here]
    refine or_congr_right ?_
    constructor
    · rintro ⟨split, member, adj, tail, wild, rfl⟩
      obtain ⟨inside, same⟩ := List.mem_filter.mp member
      obtain rfl : split.1 = key := by simpa using same
      obtain ⟨long, soft⟩ := Path.mem_prefixKeysWild.mp inside
      exact ⟨split.1, split.2, m, adj, tail, ⟨long, soft, short, wild⟩, rfl⟩
    · rintro ⟨key', rest, m', adj, tail, wild, rfl⟩
      obtain ⟨same, rfl⟩ : key.segs = key'.segs ∧ m = m' := by simpa using short.symm.trans wild.short
      obtain rfl := Path.ext same
      have member := Path.mem_prefixKeysWild.mpr ⟨wild.long, wild.soft⟩
      exact ⟨_, List.mem_filter.mpr ⟨member, by simp⟩, adj, tail, wild.wild, rfl⟩

/-- The remainder of a wild match is the suffix of the match. -/
theorem WildMatch.matchPrefix_eq (found : WildMatch path shorter key rest m adj tail) :
    Facts.matchPrefix path shorter = some (.fromAccesses (.offset adj :: tail.segs)) := by
  rcases Path.wildRest_eq_some.mp found.wild with ⟨n, shape, differs, rfl⟩ | ⟨valued, rfl, rfl⟩
  · have matched : Matches path.segs shorter.segs (some (n - m)) tail.segs :=
      .adjusted found.short (found.long.trans (by rw [shape])) differs
    exact matchPrefix_eq_some_iff.mpr ⟨_, tail, matched, normalize_of_clear (matched.clear_adjusted path.clear)⟩
  · obtain ⟨t, shape⟩ : ∃ t, tail.segs = .value :: t := List.head?_eq_some_iff.mp valued
    have matched : Matches path.segs shorter.segs none tail.segs :=
      shape ▸ .absorbed found.short (found.long.trans (by rw [shape]))
    -- the zero offset before the `#value` vanishes
    exact matchPrefix_eq_some_iff.mpr ⟨none, tail, matched, tail.normal⟩

/-- The keys of a path are an index of the paths it matches exactly where no difference overflows: then in every build the
remainders looked up are the one suffix that matching finds, or there are none. -/
theorem prefixKeys_index_iff (path shorter : Path) :
    (∀ build : Build, ∃ found answer, build.lookups path shorter = .ok found ∧
      build.matchPrefix path shorter = .ok answer ∧ ∀ r, r ∈ found ↔ answer = some r) ↔
      DifferenceInRange path.segs shorter.segs := by
  constructor
  · intro indexed
    obtain ⟨found, -, returned, -⟩ := indexed .dev
    exact (exists_lookups_iff.mp ⟨found, returned⟩).elim nofun id
  · intro inRange build
    obtain ⟨found, returned⟩ := exists_lookups_iff.mpr (.inr inRange)
    refine ⟨found, _, returned, matchPrefix_eq_ok.mpr ⟨rfl, .inr inRange⟩, fun r => ?_⟩
    rw [mem_lookups returned]
    constructor
    · rintro (split | ⟨key, rest, m, adj, tail, wild, rfl⟩)
      · exact matchPrefix_of_exact split
      · exact wild.matchPrefix_eq
    · intro answer
      refine (exact_or_wild_of_matchPrefix answer).imp_right ?_
      rintro ⟨key, rest, m, adj, tail, wild⟩
      exact ⟨key, rest, m, adj, tail, wild, Option.some.inj (answer.symm.trans wild.matchPrefix_eq)⟩

/-- A `dev` build stops at the difference of `[i64::MIN]` and `[1]`. -/
theorem prefixKeys_stops : ¬ ∀ build : Build, ∃ found answer,
    build.lookups (.fromAccesses [.offset (-9223372036854775808)]) (.fromAccesses [.offset 1]) = .ok found ∧
      build.matchPrefix (.fromAccesses [.offset (-9223372036854775808)]) (.fromAccesses [.offset 1]) = .ok answer ∧
      ∀ r, r ∈ found ↔ answer = some r := by
  intro indexed
  obtain ⟨found, answer, -, returned, -⟩ := indexed .dev
  have stops : Build.dev.matchPrefix (.fromAccesses [.offset (-9223372036854775808)]) (.fromAccesses [.offset 1]) =
      .error .overflow := by rfl
  rw [stops] at returned
  exact nomatch returned

end Keys

section Reversal

variable {build : Build} {p q r t found : Path} {front suffix whole key : List PathSegment} {m k : Int64}

/-- The ways a front and a suffix can meet. -/
inductive Meets : List PathSegment → List PathSegment → List PathSegment → Prop
  | glued {l r : List PathSegment} (clear : Clear (l ++ r)) : Meets l r (l ++ r)
  | summed {key rest : List PathSegment} {m k : Int64} (nonzero : m + k ≠ 0) :
      Meets (key ++ [.offset m]) (.offset k :: rest) (key ++ .offset (m + k) :: rest)
  | absorbed {key rest : List PathSegment} {m : Int64} :
      Meets (key ++ [.offset m]) (.value :: rest) (key ++ .value :: rest)
  | cancelled {key rest : List PathSegment} {m : Int64} :
      Meets (key ++ [.offset m]) (.offset (-m) :: rest) (key ++ rest)
  | valued {key rest : List PathSegment} {a : PathSegment} (soft : a.soft) :
      Meets (key ++ [.value]) (a :: rest) (key ++ .value :: rest)

theorem meets_concat (clearF : Clear front) (clearS : Clear suffix) : Meets front suffix (Cir.concat front suffix) := by
  have plain (apart : ∀ a ∈ front.getLast?, ∀ b ∈ suffix.head?, ¬ (a.soft ∧ b.soft)) :
      Meets front suffix (Cir.concat front suffix) := by
    have clear := Clear.append_iff.mpr ⟨clearF, clearS, apart⟩
    rw [concat_of_clear clear]
    exact .glued clear
  cases suffix with
  | nil => exact plain (by simp)
  | cons b rest =>
    cases last : front.getLast? with
    | none => exact plain (by simp [last])
    | some a =>
      obtain ⟨key, rfl⟩ := List.getLast?_eq_some_iff.mp last
      cases a with
      | field name | deref => exact plain (by simp [soft])
      | value =>
        cases b with
        | field name | deref => exact plain (by simp [soft])
        | offset k =>
          rw [concat_cons_of_clear clearF clearS, pushNormalized_value_offset, List.append_assoc]
          exact .valued rfl
        | value =>
          rw [concat_cons_of_clear clearF clearS, pushNormalized_value_value, List.append_assoc]
          exact .valued rfl
      | offset m =>
        have hard := hardEnd_of_last clearF
        cases b with
        | field name | deref => exact plain (by simp [soft])
        | value =>
          rw [concat_cons_of_clear clearF clearS, residue_of_last clearF, pushNormalized_residue_value hard,
            ← residue_of_last clearF, List.append_assoc]
          exact .absorbed
        | offset k =>
          rw [concat_cons_of_clear clearF clearS, residue_of_last clearF, pushNormalized_residue_offset hard,
            ← residue_of_last clearF, List.append_assoc]
          by_cases zero : m + k = 0
          · obtain rfl : k = -m := by grind
            rw [zero]
            exact .cancelled
          · simpa [residue, zero] using Meets.summed zero

/-- The suffix is lost behind the front: a last `#value` absorbs its first segment, or a last offset cancels it. -/
def Lost (front suffix : Path) : Prop :=
  (front.segs.getLast? = some .value ∧ ∃ s, suffix.head = some s ∧ s.soft) ∨
    ∃ m, front.segs.getLast? = some (.offset m) ∧ suffix.head = some (.offset (-m))

/-- An offset is not matched where a field, a `deref` or nothing follows. -/
theorem not_matches_of_hard {key rest tail : List PathSegment} {m : Int64} {adjust : Option Int64}
    (hard : ∀ b ∈ rest.head?, b.soft = false) : ¬ Matches (key ++ rest) (key ++ [.offset m]) adjust tail := by
  intro found
  cases found with
  | exact split =>
    have after : rest = .offset m :: tail := by simpa using split
    exact nomatch hard (.offset m) (by rw [after]; rfl)
  | @adjusted key' _ m' n short long =>
    obtain ⟨rfl, rfl⟩ : key = key' ∧ m = m' := by simpa using short
    have after : rest = .offset n :: tail := by simpa using long
    exact nomatch hard (.offset n) (by rw [after]; rfl)
  | @absorbed key' tail m' short long =>
    obtain ⟨rfl, rfl⟩ : key = key' ∧ m = m' := by simpa using short
    have after : rest = .value :: tail := by simpa using long
    exact nomatch hard .value (by rw [after]; rfl)

/-- Behind its front a suffix is found again, unless it is lost: then what is found, if anything, is shorter. -/
theorem matchPrefix_of_meets (meets : Meets r.segs t.segs found.segs) :
    (¬ Lost r t ∧ matchPrefix found r = some t) ∨
      (Lost r t ∧ ∀ suffix, matchPrefix found r = some suffix → suffix.segs.length < t.segs.length) := by
  have along : ∀ {l s w : List PathSegment}, Meets l s w → r.segs = l → t.segs = s → found.segs = w →
      (¬ Lost r t ∧ matchPrefix found r = some t) ∨
        (Lost r t ∧ ∀ suffix, matchPrefix found r = some suffix → suffix.segs.length < t.segs.length) := by
    intro l s w meets short suffix long
    cases meets with
    | glued clear =>
      have apart := (Clear.append_iff.mp clear).2.2
      rw [← short, ← suffix] at apart
      refine .inl ⟨?_, matchPrefix_of_exact (by rw [long, short, suffix])⟩
      rintro (⟨last, s, head, soft⟩ | ⟨m, last, head⟩)
      · exact apart .value last s head ⟨rfl, soft⟩
      · exact apart (.offset m) last (.offset (-m)) head ⟨rfl, rfl⟩
    | @summed key rest m k nonzero =>
      have differs : m + k ≠ m := by
        intro same
        have zero : k = 0 := by grind
        exact (suffix ▸ t.clear).head_ne (by rw [zero])
      have undone : m + k - m = k := by grind
      refine .inl ⟨?_, matchPrefix_eq_some_iff.mpr ⟨some (m + k - m), t.tail, ?_, ?_⟩⟩
      · rintro (⟨last, -⟩ | ⟨m', last, head⟩)
        · simp [short] at last
        · obtain rfl : m = m' := by simpa [short] using last
          obtain rfl : k = -m := by simpa [Path.head, suffix] using head
          exact nonzero (by grind)
      · exact .adjusted short (by rw [long, Path.segs_tail, suffix, List.tail_cons]) differs
      · rw [undone, Path.segs_tail, suffix]
        rfl
    | @absorbed key rest m =>
      refine .inl ⟨?_, matchPrefix_eq_some_iff.mpr ⟨none, t, ?_, rfl⟩⟩
      · rintro (⟨last, -⟩ | ⟨m', -, head⟩)
        · simp [short] at last
        · simp [Path.head, suffix] at head
      · rw [suffix]
        exact .absorbed short long
    | @cancelled key rest m =>
      refine .inr ⟨.inr ⟨m, by simp [short], by simp [Path.head, suffix]⟩, fun answer matched => ?_⟩
      -- what follows the cancelled offset is a field, a `deref` or nothing
      have hard : ∀ b ∈ rest.head?, b.soft = false := by
        intro b head
        obtain ⟨rest, rfl⟩ := List.head?_eq_some_iff.mp head
        exact (suffix ▸ t.clear).hard_of_soft rfl
      obtain ⟨adjust, tail, matches', -⟩ := matchPrefix_eq_some_iff.mp matched
      rw [short, long] at matches'
      exact absurd matches' (not_matches_of_hard hard)
    | @valued key rest a soft =>
      refine .inr ⟨.inl ⟨by simp [short], a, by simp [Path.head, suffix], soft⟩, fun answer matched => ?_⟩
      have exact : matchPrefix found r = some t.tail := by
        apply matchPrefix_of_exact
        rw [long, short, Path.segs_tail, suffix, List.tail_cons, List.append_assoc, List.singleton_append]
      obtain rfl := Option.some.inj (matched.symm.trans exact)
      simp [suffix]
  exact along meets rfl rfl rfl

theorem differenceInRange_of_meets (meets : Meets front suffix whole) (clear : Clear suffix)
    (sums : ∀ a b, front.getLast? = some (.offset a) → suffix.head? = some (.offset b) → InRange (a.toInt + b.toInt)) :
    DifferenceInRange whole front := by
  intro key m n rest short long
  cases meets with
  | glued clear =>
    -- the front stands there itself
    obtain ⟨rfl, -⟩ : m = n ∧ suffix = rest := by simpa [short] using long
    exact inRange_sub_self m
  | @summed key' rest' a b nonzero =>
    obtain ⟨rfl, rfl⟩ : key' = key ∧ a = m := by simpa using short
    obtain ⟨rfl, -⟩ : a + b = n ∧ rest' = rest := by simpa using long
    have range := sums a b (by simp) rfl
    have value : (a + b).toInt - a.toInt = b.toInt := by
      rw [toInt_add_of_inRange range]
      omega
    rw [value]
    exact inRange_toInt b
  | @absorbed key' rest' a =>
    obtain ⟨rfl, rfl⟩ : key' = key ∧ a = m := by simpa using short
    simp at long
  | @cancelled key' rest' a =>
    obtain ⟨rfl, rfl⟩ : key' = key ∧ a = m := by simpa using short
    obtain rfl : rest' = .offset n :: rest := by simpa using long
    exact nomatch clear.hard_of_soft rfl
  | valued => simp at short

/-- A difference that fits leads back to the offset it was taken from. -/
theorem sumInRange_of_matchPrefix (matched : matchPrefix p q = some t) (inRange : DifferenceInRange p.segs q.segs) :
    SumInRange q t := by
  intro a b last head
  obtain ⟨adjust, rest, matches', wholeT⟩ := matchPrefix_eq_some_iff.mp matched
  rw [Path.head, wholeT] at head
  generalize rest.segs = segs at matches' head
  cases matches' with
  | exact split =>
    have apart := (Clear.append_iff.mp (split ▸ p.clear)).2.2
    exact absurd ⟨rfl, rfl⟩ (apart (.offset a) last (.offset b) head)
  | @adjusted key _ m n short long differs =>
    obtain rfl : m = a := by simpa [short] using last
    obtain rfl : n - m = b := by simpa [PathSet.adjustment] using head
    have value : m.toInt + (n - m).toInt = n.toInt := by
      rw [toInt_sub_of_inRange (inRange key m n segs short long)]
      omega
    rw [value]
    exact inRange_toInt n
  | absorbed => simp [PathSet.adjustment] at head

/-- Walking an edge back leads to where the walk began, exactly where the suffix is not lost behind the edge's other end. -/
theorem substitutePrefix_back_iff (forward : build.substitutePrefix p q r = .ok (some found))
    (matched : build.matchPrefix p q = .ok (some t)) :
    build.substitutePrefix found r q = .ok (some p) ↔ ¬ Lost r t := by
  obtain ⟨answers, differences⟩ := matchPrefix_eq_ok.mp matched
  obtain ⟨suffix, same, prepended⟩ := substitutePrefix_eq_ok_some.mp forward
  obtain rfl : t = suffix := Option.some.inj (Except.ok.inj (matched.symm.trans same))
  obtain ⟨content, sums⟩ := prependOnto_eq_ok.mp prepended
  have meets : Meets r.segs t.segs found.segs := by
    rw [content, segs_prependOnto]
    exact meets_concat r.clear t.clear
  rw [substitutePrefix_eq_ok_some]
  constructor
  · rintro ⟨other, back, returned⟩ lost
    obtain ⟨kept, -⟩ | ⟨-, shorter⟩ := matchPrefix_of_meets meets
    · exact kept lost
    · have less := shorter other (matchPrefix_eq_ok.mp back).1.symm
      have completes := congrArg Path.segs (prependOnto_eq_ok.mp returned).1
      rw [segs_prependOnto] at completes
      have least := length_le_of_stripPrefix q.clear (stripPrefix_of_matchPrefix answers.symm) other.clear completes.symm
      omega
  · intro kept
    obtain ⟨-, back⟩ | ⟨lost, -⟩ := matchPrefix_of_meets meets
    · refine ⟨t, matchPrefix_eq_ok.mpr ⟨back.symm, ?_⟩, prependOnto_eq_ok.mpr ⟨?_, ?_⟩⟩
      · exact sums.imp_right fun sums => differenceInRange_of_meets meets t.clear sums
      · apply Path.ext
        rw [segs_prependOnto, concat_of_matchPrefix answers.symm]
      · exact differences.imp_right (sumInRange_of_matchPrefix answers.symm)
    · exact absurd lost kept

/-- Along an edge from `x.[4]` to `y.[1]` and back. -/
theorem substitutePrefix_back_rebased :
    Build.dev.substitutePrefix (.fromAccesses [.field "x", .offset 8]) (.fromAccesses [.field "x", .offset 4])
        (.fromAccesses [.field "y", .offset 1]) = .ok (some (.fromAccesses [.field "y", .offset 5])) ∧
      (Build.dev.substitutePrefix (.fromAccesses [.field "y", .offset 5]) (.fromAccesses [.field "y", .offset 1])
          (.fromAccesses [.field "x", .offset 4]) = .ok (some (.fromAccesses [.field "x", .offset 8])) ↔
        ¬ Lost (.fromAccesses [.field "y", .offset 1]) (.fromAccesses [.offset 4])) :=
  ⟨by rfl, substitutePrefix_back_iff (by rfl) (by rfl)⟩

/-- An edge from the empty path to `[-4]` takes `[4]` to the empty path, which `[-4]` does not match. -/
theorem substitutePrefix_cancels : ¬ ∀ (build : Build) (p q r found : Path),
    build.substitutePrefix p q r = .ok (some found) → build.substitutePrefix found r q = .ok (some p) := by
  intro reversible
  have back := reversible .dev (.fromAccesses [.offset 4]) .empty (.fromAccesses [.offset (-4)]) .empty (by rfl)
  have unmatched : Build.dev.substitutePrefix .empty (.fromAccesses [.offset (-4)]) .empty = .ok none := by rfl
  rw [unmatched] at back
  exact nomatch Except.ok.inj back

end Reversal

end Ctadl.Facts
