import Ctadl.Facts.Path

/-! # The admissible paths

`PathSet` is the frozen set of paths the index may name. Its `concat` answers whether
`start · [adjust] · rest` is a member without building it: it assembles the candidate around the
junction and looks it up. `concat_eq_some_iff` says that the candidate is the concatenation in normal
form, so the lookup is the membership test it stands for.
-/

namespace Ctadl.Facts

open Cir PathSegment

/-- The admissible paths of one index. -/
structure PathSet where
  members : List Path

/-- The splits of one admissible path. -/
structure Splits where
  exact : List (Path × Path)
  wild : List (Path × Path)

namespace PathSet

instance : Membership Path PathSet := ⟨fun ps p => p ∈ ps.members⟩

theorem mem_def {ps : PathSet} {p : Path} : p ∈ ps ↔ p ∈ ps.members := Iff.rfl

instance (ps : PathSet) (p : Path) : Decidable (p ∈ ps) := inferInstanceAs (Decidable (p ∈ ps.members))

/-- The splits of a member; a path that is not a member has none. -/
def splits (ps : PathSet) (p : Path) : Splits :=
  if p ∈ ps then ⟨p.prefixKeys, p.prefixKeysWild⟩ else ⟨[], []⟩

/-- The trailing-offset split of a member. -/
def splitTrailingOffset (ps : PathSet) (p : Path) : Option (Path × Int64) :=
  if p.isEmpty then none else if p ∈ ps then p.splitTrailingOffset else none

/-- The segments of `start · [adjust] · rest`, rewritten only at the junction. -/
def candidate (start : Path) (adjust : Option Int64) (rest : Path) : List PathSegment :=
  let lastOff := match start.segs.getLast? with
    | some (.offset o) => some o
    | _ => none
  let restOff := match rest.head with
    | some (.offset o) => some o
    | _ => none
  let body := if lastOff.isSome then start.segs.dropLast else start.segs
  if start.segs.getLast? = some .value then
    start.segs ++ if restOff.isSome ∨ rest.head = some .value then rest.tail.segs else rest.segs
  else if rest.head = some .value then
    body ++ rest.segs
  else if lastOff.isSome ∨ adjust.isSome then
    let sum := lastOff.getD 0 + adjust.getD 0 + restOff.getD 0
    body ++ (if sum ≠ 0 then [.offset sum] else []) ++
      if restOff.isSome then rest.tail.segs else rest.segs
  else
    start.segs ++ rest.segs

/-- The member equal to `start · [adjust] · rest`, if there is one. -/
def concat (ps : PathSet) (start : Path) (adjust : Option Int64) (rest : Path) : Option Path :=
  ps.members.find? fun p => p.segs = candidate start adjust rest

/-- The member equal to `p` with its beginning `shorter` replaced by `front`. -/
def substitutePrefix (ps : PathSet) (p shorter front : Path) : Option Path :=
  (matchPrefixSplit p shorter).bind fun (adjust, rest) => ps.concat front adjust rest

/-- The segments an adjustment stands for. -/
def adjustment (adjust : Option Int64) : List PathSegment := (adjust.map PathSegment.offset).toList

theorem mem_splits_exact {ps : PathSet} {p key rest : Path} :
    (key, rest) ∈ (ps.splits p).exact ↔ p ∈ ps ∧ p.segs = key.segs ++ rest.segs := by
  unfold splits
  split_ifs with member
  · simp [member, Path.mem_prefixKeys]
  · simp [member]

theorem mem_splits_wild {ps : PathSet} {p key rest : Path} :
    (key, rest) ∈ (ps.splits p).wild ↔
      p ∈ ps ∧ p.segs = key.segs ++ rest.segs ∧ ∃ s t, rest.segs = s :: t ∧ s.soft := by
  unfold splits
  split_ifs with member
  · simp [member, Path.mem_prefixKeysWild]
  · simp [member]

theorem splitTrailingOffset_eq_some {ps : PathSet} {p key : Path} {m : Int64} :
    ps.splitTrailingOffset p = some (key, m) ↔ p ∈ ps ∧ p.segs = key.segs ++ [.offset m] := by
  unfold splitTrailingOffset
  split_ifs with blank member
  · simp [Path.isEmpty_iff.mp blank]
  · simp [member, Path.splitTrailingOffset_eq_some]
  · simp [member]

/-- Before a trailing offset of a normal path stands no `#value`. -/
private theorem dropLast_not_value {p : Path} {o : Int64} (last : p.segs.getLast? = some (.offset o)) :
    p.segs.dropLast.getLast? ≠ some .value := by
  obtain ⟨init, eq⟩ := List.getLast?_eq_some_iff.mp last
  intro valued
  rw [eq, List.dropLast_concat] at valued
  exact (Clear.append_iff.mp (eq ▸ p.clear)).2.2 .value valued (.offset o) rfl ⟨rfl, rfl⟩

private theorem dropLast_append_last {p : Path} {a : PathSegment} (last : p.segs.getLast? = some a) :
    p.segs.dropLast ++ [a] = p.segs := by
  obtain ⟨init, eq⟩ := List.getLast?_eq_some_iff.mp last
  rw [eq, List.dropLast_concat]

private theorem last_offset_ne_zero {p : Path} {o : Int64} (last : p.segs.getLast? = some (.offset o)) :
    o ≠ 0 := by
  rintro rfl
  exact p.clear.2 (List.mem_of_getLast? last)

/-- The candidate assembled at the junction is the concatenation in normal form. -/
theorem candidate_eq {start rest : Path} {adjust : Option Int64}
    (whole : Clear (adjustment adjust ++ rest.segs)) :
    candidate start adjust rest = Cir.concat start.segs (adjustment adjust ++ rest.segs) := by
  obtain ⟨segs, normal⟩ := rest
  cases adjust with
  | none =>
    simp only [adjustment, Option.map_none, Option.toList_none, List.nil_append] at whole ⊢
    cases segs with
    | nil =>
      cases last : start.segs.getLast? with
      | none => simp [candidate, last, Path.head, Cir.concat]
      | some a =>
        cases a with
        | offset o =>
          simpa [candidate, last, Path.head, Cir.concat, last_offset_ne_zero last] using
            dropLast_append_last last
        | _ => simp [candidate, last, Path.head, Cir.concat]
    | cons s t =>
      rw [concat_cons_of_clear start.clear whole]
      have nonzero := whole.head_ne
      cases last : start.segs.getLast? with
      | none =>
        have blank := List.getLast?_eq_none_iff.mp last
        cases s <;> simp_all [candidate, Path.head, pushNormalized]
      | some a =>
        cases a with
        | offset o =>
          have parts := dropLast_append_last last
          have valueless := dropLast_not_value last
          have present := last_offset_ne_zero last
          cases s with
          | offset n => by_cases zero : o + n = 0 <;> simp [candidate, last, Path.head, pushNormalized, zero]
          | value => simp [candidate, last, Path.head, pushNormalized, isOffset, valueless]
          | field name =>
            simpa [candidate, last, Path.head, pushNormalized, present] using
              congrArg (· ++ .field name :: t) parts
          | deref =>
            simpa [candidate, last, Path.head, pushNormalized, present] using
              congrArg (· ++ .deref :: t) parts
        | value => cases s <;> simp [candidate, last, Path.head, pushNormalized, isOffset]
        | field name | deref =>
          cases s with
          | offset n => simp_all [candidate, Path.head, pushNormalized]
          | _ => simp [candidate, last, Path.head, pushNormalized, isOffset]
  | some adj =>
    have shape : adjustment (some adj) ++ segs = .offset adj :: segs := rfl
    rw [shape] at whole
    have nonzero : adj ≠ 0 := by simpa using whole.head_ne
    have hard : ∀ b ∈ segs.head?, b.soft = false := by
      intro b head
      cases segs with
      | nil => simp at head
      | cons c t =>
        obtain rfl : c = b := by simpa using head
        exact whole.hard_of_soft rfl
    have unvalued : segs.head? ≠ some .value := fun head => by simpa [soft] using hard _ head
    have unoffset : ∀ o, segs.head? ≠ some (.offset o) := fun o head => by simpa [soft] using hard _ head
    rw [shape, concat_cons_of_clear start.clear whole]
    cases last : start.segs.getLast? with
    | none => simp [candidate, last, Path.head, pushNormalized, unvalued, nonzero]
    | some a =>
      cases a with
      | offset o =>
        by_cases zero : o + adj = 0 <;>
          simp [candidate, last, Path.head, pushNormalized, unvalued, zero]
      | value => simp [candidate, last, Path.head, pushNormalized, unvalued]
      | field name | deref =>
        simp [candidate, last, Path.head, pushNormalized, unvalued, nonzero]

/-- A leading `#value` of the rest absorbs the adjustment. -/
theorem candidate_of_value {start rest : Path} {adjust : Option Int64}
    (valued : rest.head = some .value) : candidate start adjust rest = candidate start none rest := by
  simp [candidate, valued]

/-- The lookup finds the member the candidate is. -/
theorem concat_eq_some_iff_candidate {ps : PathSet} {start rest q : Path} {adjust : Option Int64} :
    ps.concat start adjust rest = some q ↔ q ∈ ps ∧ q.segs = candidate start adjust rest := by
  unfold concat
  constructor
  · intro found
    exact ⟨List.mem_of_find?_eq_some found, by simpa using List.find?_some found⟩
  · rintro ⟨member, same⟩
    cases found : ps.members.find? fun p => p.segs = candidate start adjust rest with
    | none => exact absurd same (by simpa using List.find?_eq_none.mp found q member)
    | some r =>
      have content : r.segs = q.segs := by simpa [same] using List.find?_some found
      rw [Path.ext content]

theorem concat_eq_some_iff {ps : PathSet} {start rest q : Path} {adjust : Option Int64}
    (whole : Clear (adjustment adjust ++ rest.segs)) :
    ps.concat start adjust rest = some q ↔
      q ∈ ps ∧ q.segs = Cir.concat start.segs (adjustment adjust ++ rest.segs) := by
  rw [concat_eq_some_iff_candidate, candidate_eq whole]

theorem concat_of_value {ps : PathSet} {start rest : Path} {adjust : Option Int64}
    (valued : rest.head = some .value) : ps.concat start adjust rest = ps.concat start none rest := by
  simp only [concat, candidate_of_value valued]

theorem mem_of_concat {ps : PathSet} {start rest q : Path} {adjust : Option Int64}
    (found : ps.concat start adjust rest = some q) : q ∈ ps := List.mem_of_find?_eq_some found

theorem concat_none_eq_some_iff {ps : PathSet} {start rest q : Path} :
    ps.concat start none rest = some q ↔ q ∈ ps ∧ q = start.concat rest := by
  have whole : Clear (adjustment none ++ rest.segs) := rest.clear
  rw [concat_eq_some_iff whole, Path.ext_iff, Path.segs_concat]
  rfl

end PathSet

open PathSet

theorem matchPrefix_eq_some_iff {path shorter suffix : Path} :
    matchPrefix path shorter = some suffix ↔ ∃ (adjust : Option Int64) (rest : Path), Matches path.segs shorter.segs adjust rest.segs ∧
      suffix.segs = adjustment adjust ++ rest.segs := by
  simp only [matchPrefix, Option.map_eq_some_iff, Prod.exists, matchPrefixSplit_eq_some_iff]
  refine exists_congr fun adjust => exists_congr fun rest => and_congr_right fun found => ?_
  rw [Path.ext_iff]
  cases adjust with
  | none => exact eq_comm
  | some adj =>
    rw [Path.segs_fromAccesses, normalize_of_clear (found.clear_adjusted path.clear)]
    exact eq_comm

theorem PathSet.concat_of_suffix {ps : PathSet} {suffix rest front q : Path} {adjust : Option Int64}
    (whole : suffix.segs = adjustment adjust ++ rest.segs) :
    ps.concat front adjust rest = some q ↔ q ∈ ps ∧ q = front.concat suffix := by
  rw [concat_eq_some_iff (whole ▸ suffix.clear), Path.ext_iff, Path.segs_concat, whole]

/-- Substituting within the admissible paths is substituting and then asking for membership. -/
theorem PathSet.substitutePrefix_eq_some_iff {ps : PathSet} {p shorter front q : Path} :
    ps.substitutePrefix p shorter front = some q ↔ q ∈ ps ∧ p.substitutePrefix shorter front = some q := by
  simp only [PathSet.substitutePrefix, Path.substitutePrefix, Option.bind_eq_some_iff, Prod.exists,
    matchPrefixSplit_eq_some_iff, Option.map_eq_some_iff, matchPrefix_eq_some_iff, prependOnto_eq_concat]
  constructor
  · rintro ⟨adjust, rest, found, concat⟩
    have clear : Clear (adjustment adjust ++ rest.segs) := by
      cases adjust with
      | none => exact rest.clear
      | some adj => exact found.clear_adjusted p.clear
    obtain ⟨member, rfl⟩ := (concat_of_suffix (show (Path.ofClear _ clear).segs = _ from rfl)).mp concat
    exact ⟨member, _, ⟨adjust, rest, found, rfl⟩, rfl⟩
  · rintro ⟨member, suffix, ⟨adjust, rest, found, whole⟩, rfl⟩
    exact ⟨adjust, rest, found, (concat_of_suffix whole).mpr ⟨member, rfl⟩⟩

/-- A wild split of `path` meets the trailing offset of `shorter`. -/
structure WildMatch (path shorter key rest : Path) (m adj : Int64) (tail : Path) : Prop where
  long : path.segs = key.segs ++ rest.segs
  soft : ∃ s t, rest.segs = s :: t ∧ s.soft
  short : shorter.segs = key.segs ++ [.offset m]
  wild : rest.wildRest m = some (adj, tail)

theorem matchPrefix_of_exact {path key rest : Path} (split : path.segs = key.segs ++ rest.segs) :
    matchPrefix path key = some rest :=
  matchPrefix_eq_some_iff.mpr ⟨none, rest, .exact split, rfl⟩

/-- The suffix of a wild match, and the lookup the engine does for it. -/
theorem WildMatch.suffix {path shorter key rest tail : Path} {m adj : Int64}
    (found : WildMatch path shorter key rest m adj tail) :
    ∃ suffix, matchPrefix path shorter = some suffix ∧ ∀ (ps : PathSet) (front q : Path),
      ps.concat front (some adj) tail = some q ↔ q ∈ ps ∧ q = front.concat suffix := by
  rcases Path.wildRest_eq_some.mp found.wild with ⟨n, shape, differs, rfl⟩ | ⟨valued, rfl, rfl⟩
  · have matched : Matches path.segs shorter.segs (some (n - m)) tail.segs :=
      .adjusted found.short (found.long.trans (by rw [shape])) differs
    have clear := matched.clear_adjusted path.clear
    exact ⟨.ofClear _ clear, matchPrefix_eq_some_iff.mpr ⟨_, tail, matched, rfl⟩,
      fun ps front q => concat_of_suffix rfl⟩
  · obtain ⟨t, shape⟩ : ∃ t, tail.segs = .value :: t := by
      cases segs : tail.segs with
      | nil => simp [Path.head, segs] at valued
      | cons s t => exact ⟨t, by simpa [Path.head, segs] using valued⟩
    have matched : Matches path.segs shorter.segs none tail.segs :=
      shape ▸ .absorbed found.short (found.long.trans (by rw [shape]))
    refine ⟨tail, matchPrefix_eq_some_iff.mpr ⟨none, tail, matched, rfl⟩, fun ps front q => ?_⟩
    rw [concat_of_value valued]
    exact concat_of_suffix rfl

/-- A path matches a shorter one exactly, or by one of its wild splits. -/
theorem exact_or_wild_of_matchPrefix {path shorter suffix : Path} (found : matchPrefix path shorter = some suffix) :
    path.segs = shorter.segs ++ suffix.segs ∨
      ∃ key rest m adj tail, WildMatch path shorter key rest m adj tail := by
  obtain ⟨adjust, rest, matched, whole⟩ := matchPrefix_eq_some_iff.mp found
  have piece : ∀ {l r : List PathSegment}, path.segs = l ++ r →
      ∃ key rest : Path, key.segs = l ∧ rest.segs = r := by
    intro l r split
    exact ⟨.ofClear l (split ▸ path.clear).left, .ofClear r (split ▸ path.clear).right, rfl, rfl⟩
  obtain ⟨segs, shape⟩ : ∃ segs, rest.segs = segs := ⟨_, rfl⟩
  rw [shape] at matched
  cases matched with
  | exact split =>
    left
    simpa [adjustment, whole, shape] using split
  | @adjusted init _ m n short long differs =>
    right
    obtain ⟨key, tail, rfl, split⟩ := piece long
    exact ⟨key, tail, m, n - m, rest, by rw [long, split], ⟨_, _, split, rfl⟩, short,
      Path.wildRest_eq_some.mpr (.inl ⟨n, by rw [split, shape], differs, rfl⟩)⟩
  | @absorbed init _ m short long =>
    right
    obtain ⟨key, tail, rfl, split⟩ := piece long
    exact ⟨key, tail, m, 0, tail, by rw [long, split], ⟨_, _, split, rfl⟩, short,
      Path.wildRest_eq_some.mpr (.inr ⟨by simp [Path.head, split], rfl, rfl⟩)⟩

end Ctadl.Facts
