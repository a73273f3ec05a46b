import Ctadl.Collections.Fallible
import Ctadl.Collections.Ranks
import Ctadl.Collections.Rows
import Ctadl.Facts.Build
import Ctadl.Facts.PathSet
import Mathlib.Algebra.BigOperators.Fin
import Mathlib.Algebra.BigOperators.Intervals
import Mathlib.Algebra.Order.BigOperators.Group.List

/-! # The rank structure of the frozen path set

The members are numbered by rank, their order by handle, and what is precomputed of each stands in arrays the rank
indexes: the trailing-offset split, and the splits as rows kept one after another. The rank is read off the bitset of the
members. Where a row begins is kept in a `u32`, which a long enough set of splits does not fit.
-/

namespace Ctadl.Facts

open Cir Collections

/-- The handle of an interned path. -/
structure Handle where
  raw : UInt32
  nonzero : raw ≠ 0
deriving DecidableEq

def Handle.EMPTY : Handle := ⟨1, by decide⟩

theorem Handle.raw_injective : Function.Injective fun p : Handle => p.raw.toNat := by
  rintro ⟨raw, nonzero⟩ ⟨other, _⟩ same
  obtain rfl := UInt32.toNat_inj.mp same
  rfl

/-- The interned paths. -/
structure Arena where
  content : Handle → Path
  injective : Function.Injective content
  content_empty : content .EMPTY = .empty

/-- The frozen set, less the table `concat` probes. -/
structure PathRanks where
  bits : List (BitVec 64)
  /-- The number of members in the words before each word. -/
  ranks : List UInt32
  /-- Each member's trailing-offset split, with offset zero when it has none. -/
  trailing : List (Path × Int64)
  /-- `exact_at` and `exact`. -/
  exact : Rows (Path × Path)
  /-- `wild_at` and `wild`. -/
  wild : Rows (Path × Path)
  splitMisses : UInt64

namespace PathRanks

/-- Why a call does not return. -/
inductive Panic where
  | overflow
  | assertion
  | outOfRange
deriving DecidableEq, Repr

/-- `x + y` of two `u32`. -/
def addU32 (build : Build) (x y : UInt32) : Except Panic UInt32 :=
  if build = .dev ∧ 2 ^ 32 ≤ x.toNat + y.toNat then .error .overflow else .ok (x + y)

def index {α : Type} (l : List α) (i : ℕ) : Except Panic α := l[i]?.elim (.error .outOfRange) .ok

def row {α : Type} (table : Rows α) (r : ℕ) : Except Panic (List α) := (table.get r).elim (.error .outOfRange) .ok

def freeze (arena : Arena) (set : PathRanks) (p : Handle) : PathRanks where
  bits := Bits.insert set.bits p.raw.toNat
  ranks := set.ranks
  trailing := set.trailing ++ [(arena.content p).splitTrailingOffset.getD (.empty, 0)]
  exact := set.exact.push (2 ^ 32) (arena.content p).prefixKeys
  wild := set.wild.push (2 ^ 32) (arena.content p).prefixKeysWild
  splitMisses := set.splitMisses

/-- The running count of the members, for each word. -/
def ranksFrom (build : Build) : UInt32 → List (BitVec 64) → Except Panic (List UInt32)
  | _, [] => .ok []
  | before, word :: words => do
    let after ← addU32 build before (.ofNat (Bits.countOnes word))
    return before :: (← ranksFrom build after words)

/-- The members in rank order. -/
def members (paths : List Handle) : List Handle := (paths.mergeSort fun p q => p.raw.toNat ≤ q.raw.toNat).dedup

/-- Freezes `paths`. -/
def fromPaths (arena : Arena) (build : Build) (paths : List Handle) : Except Panic PathRanks := do
  let words := (members paths).getLast?.elim 0 fun p => p.raw.toNat / 64 + 1
  let set := (members paths).foldl (freeze arena) ⟨List.replicate words 0#64, [], [], ⟨[], []⟩, ⟨[], []⟩, 0⟩
  let ranks ← ranksFrom build 0 set.bits
  return { set with ranks, exact := set.exact.close (2 ^ 32), wild := set.wild.close (2 ^ 32) }

/-- The rank of a member. -/
def rank (set : PathRanks) (p : Handle) : Except Panic (Option ℕ) :=
  let b := p.raw.toNat
  match set.bits[b / 64]? with
  | none => .ok none
  | some word =>
    let bit := 1#64 <<< (b % 64)
    if word &&& bit ≠ 0#64 then do
      return some ((← index set.ranks (b / 64)).toNat + Bits.countOnes (word &&& (bit - 1#64)))
    else .ok none

/-- The splits of `p`; a path that is not a member has none. -/
def splits (set : PathRanks) (p : Handle) : Except Panic Splits := do
  match ← set.rank p with
  | some r => return ⟨← row set.exact r, ← row set.wild r⟩
  | none => return ⟨[], []⟩

/-- The trailing-offset split of `p`, and the set with a call on a path that is not a member counted. -/
def splitTrailingOffset (build : Build) (set : PathRanks) (p : Handle) :
    Except Panic (Option (Path × Int64) × PathRanks) :=
  if p = .EMPTY then .ok (none, set)
  else do
    match ← set.rank p with
    | some r =>
      let (key, m) ← index set.trailing r
      return (if m ≠ 0 then some (key, m) else none, set)
    | none =>
      if build = .dev then .error .assertion
      else return (none, { set with splitMisses := set.splitMisses + 1 })

def contains (set : PathRanks) (p : Handle) : Except Panic Bool := do
  return (← set.rank p).isSome

/-- The set answers for every handle what the paths themselves do. -/
structure Exact (arena : Arena) (build : Build) (paths : List Handle) (set : PathRanks) : Prop where
  contains : ∀ p, set.contains p = .ok (decide (p ∈ paths))
  splits : ∀ p, set.splits p =
    .ok (if p ∈ paths then ⟨(arena.content p).prefixKeys, (arena.content p).prefixKeysWild⟩ else ⟨[], []⟩)
  trailing : ∀ p, p ∈ paths ∨ p = .EMPTY →
    set.splitTrailingOffset build p = .ok ((arena.content p).splitTrailingOffset, set)
  missing : ∀ p, p ∉ paths → p ≠ .EMPTY → set.splitTrailingOffset build p =
    if build = .dev then .error .assertion else .ok (none, { set with splitMisses := set.splitMisses + 1 })

section Members

variable {paths : List Handle} {p : Handle}

theorem mem_members : p ∈ members paths ↔ p ∈ paths := by rw [members, List.mem_dedup, List.mem_mergeSort]

theorem nodup_members (paths : List Handle) : (members paths).Nodup := List.nodup_dedup _

/-- Rank order is handle order. -/
theorem ascending_members (paths : List Handle) : ((members paths).map fun p => p.raw.toNat).Pairwise (· < ·) := by
  have trans (a b c : Handle) (first : decide (a.raw.toNat ≤ b.raw.toNat)) (second : decide (b.raw.toNat ≤ c.raw.toNat)) :
      decide (a.raw.toNat ≤ c.raw.toNat) := by
    simp only [decide_eq_true_eq] at *
    omega
  have total (a b : Handle) : decide (a.raw.toNat ≤ b.raw.toNat) || decide (b.raw.toNat ≤ a.raw.toNat) := by
    simp only [Bool.or_eq_true, decide_eq_true_eq]
    omega
  have sorted := (List.pairwise_mergeSort trans total paths).sublist (List.dedup_sublist _)
  rw [List.pairwise_map]
  apply (sorted.and (nodup_members paths)).imp
  rintro a b ⟨le, apart⟩
  have differs : a.raw.toNat ≠ b.raw.toNat := fun same => apart (Handle.raw_injective same)
  have le : a.raw.toNat ≤ b.raw.toNat := by simpa using le
  omega

end Members

section Freeze

variable {arena : Arena} {build : Build} (set : PathRanks) (ps : List Handle)

theorem bits_foldl_freeze : (ps.foldl (freeze arena) set).bits = (ps.map fun p => p.raw.toNat).foldl Bits.insert set.bits := by
  induction ps generalizing set with
  | nil => rfl
  | cons p ps ih =>
    rw [List.foldl_cons, ih]
    rfl

theorem trailing_foldl_freeze : (ps.foldl (freeze arena) set).trailing =
    set.trailing ++ ps.map fun p => (arena.content p).splitTrailingOffset.getD (.empty, 0) := by
  induction ps generalizing set with
  | nil => simp
  | cons p ps ih =>
    rw [List.foldl_cons, ih]
    simp [freeze]

theorem exact_foldl_freeze : (ps.foldl (freeze arena) set).exact =
    (ps.map fun p => (arena.content p).prefixKeys).foldl (Rows.push (2 ^ 32)) set.exact := by
  induction ps generalizing set with
  | nil => rfl
  | cons p ps ih =>
    rw [List.foldl_cons, ih]
    rfl

theorem wild_foldl_freeze : (ps.foldl (freeze arena) set).wild =
    (ps.map fun p => (arena.content p).prefixKeysWild).foldl (Rows.push (2 ^ 32)) set.wild := by
  induction ps generalizing set with
  | nil => rfl
  | cons p ps ih =>
    rw [List.foldl_cons, ih]
    rfl

end Freeze

section Ranks

variable {build : Build} {words : List (BitVec 64)} {before : UInt32}

theorem addU32_of_lt {x y : UInt32} (fits : x.toNat + y.toNat < 2 ^ 32) : addU32 build x y = .ok (x + y) := by
  rw [addU32, if_neg]
  rintro ⟨-, exceeds⟩
  omega

/-- The running counts are those of the words before, as long as the last of them fits. -/
theorem ranksFrom_eq (fits : before.toNat + (words.map Bits.countOnes).sum < 2 ^ 32) :
    ranksFrom build before words =
      .ok ((List.range words.length).map fun k => .ofNat (before.toNat + ((words.take k).map Bits.countOnes).sum)) := by
  induction words generalizing before with
  | nil => rfl
  | cons word words ih =>
    rw [List.map_cons, List.sum_cons] at fits
    have ones : (UInt32.ofNat (Bits.countOnes word)).toNat = Bits.countOnes word :=
      UInt32.toNat_ofNat_of_lt' (show _ < 2 ^ 32 by omega)
    have after : (before + .ofNat (Bits.countOnes word)).toNat = before.toNat + Bits.countOnes word := by
      rw [UInt32.toNat_add, ones]
      exact Nat.mod_eq_of_lt (show _ < 2 ^ 32 by omega)
    have rest := @ih (before + .ofNat (Bits.countOnes word)) (by omega)
    rw [ranksFrom, bind_of_ok (addU32_of_lt (by omega)), bind_of_ok rest, after, List.length_cons,
      List.range_succ_eq_map, List.map_cons, List.map_map]
    simp [Function.comp_def, Nat.add_assoc, pure, Except.pure]

theorem exists_ranks (build : Build) (fits : (words.map Bits.countOnes).sum < 2 ^ 32) :
    ∃ ranks, ranksFrom build 0 words = .ok ranks ∧ ∀ k < words.length, ∃ rank : UInt32, ranks[k]? = some rank ∧
      rank.toNat = ((words.take k).map Bits.countOnes).sum := by
  refine ⟨_, ranksFrom_eq (by simpa using fits), ?_⟩
  intro k inside
  have part : ((words.take k).map Bits.countOnes).sum ≤ (words.map Bits.countOnes).sum := by
    rw [← congrArg (fun l => (l.map Bits.countOnes).sum) (List.take_append_drop k words), List.map_append, List.sum_append]
    exact Nat.le_add_right _ _
  refine ⟨_, by rw [List.getElem?_map, List.getElem?_range inside, Option.map_some], ?_⟩
  rw [UInt32.toNat_zero, Nat.zero_add]
  exact UInt32.toNat_ofNat_of_lt' (show _ < 2 ^ 32 by omega)

end Ranks

/-- What the frozen set holds of its members. -/
structure Frozen (arena : Arena) (paths : List Handle) (set : PathRanks) : Prop where
  bits : ∀ b, Bits.contains set.bits b = true ↔ b ∈ (members paths).map fun p => p.raw.toNat
  ranks : ∀ k < set.bits.length, ∃ rank : UInt32, set.ranks[k]? = some rank ∧
    rank.toNat = ((set.bits.take k).map Bits.countOnes).sum
  trailing : set.trailing = (members paths).map fun p => (arena.content p).splitTrailingOffset.getD (.empty, 0)
  exact : set.exact = .pack (2 ^ 32) ((members paths).map fun p => (arena.content p).prefixKeys)
  wild : set.wild = .pack (2 ^ 32) ((members paths).map fun p => (arena.content p).prefixKeysWild)

section Frozen

variable {arena : Arena} {build : Build} {paths : List Handle} {set : PathRanks} {p : Handle} {r : ℕ}

theorem mem_raw_members : p.raw.toNat ∈ (members paths).map (fun q => q.raw.toNat) ↔ p ∈ paths := by
  rw [List.mem_map_of_injective Handle.raw_injective, mem_members]

/-- The bitset has a word for every member. -/
theorem lt_words (member : p ∈ members paths) :
    p.raw.toNat / 64 < (members paths).getLast?.elim 0 fun p => p.raw.toNat / 64 + 1 := by
  have ascending := ascending_members paths
  cases greatest : (members paths).getLast? with
  | none => simp [List.getLast?_eq_none_iff.mp greatest] at member
  | some last =>
    obtain ⟨init, whole⟩ := List.getLast?_eq_some_iff.mp greatest
    rw [whole, List.map_append, List.pairwise_append] at ascending
    rw [whole, List.mem_append] at member
    have least : p.raw.toNat ≤ last.raw.toNat := by
      rcases member with before | here
      · exact (ascending.2.2 _ (List.mem_map_of_mem before) _ (by simp)).le
      · rw [List.mem_singleton.mp here]
    simp only [Option.elim_some]
    omega

theorem words_le (paths : List Handle) :
    64 * ((members paths).getLast?.elim 0 fun p => p.raw.toNat / 64 + 1) ≤ 2 ^ 32 := by
  cases (members paths).getLast? with
  | none => simp
  | some last =>
    have below := last.raw.toNat_lt
    simp only [Option.elim_some]
    omega

/-- The members are fewer than the values of a `u32`: no handle is zero. -/
theorem sum_countOnes_lt {words : List (BitVec 64)} (room : 64 * words.length ≤ 2 ^ 32) (zero : Bits.contains words 0 = false) :
    (words.map Bits.countOnes).sum < 2 ^ 32 := by
  have total := @Bits.sum_countOnes_take _ words _ (Nat.le_refl _)
  rw [List.take_length] at total
  rw [total]
  cases count : 64 * words.length with
  | zero => simp
  | succ n =>
    have first := Nat.count_succ' (fun c => Bits.contains words c = true) n
    have rest := @Nat.count_le (fun c => Bits.contains words (c + 1) = true) _ n
    rw [if_neg (by simp [zero])] at first
    omega

theorem exists_frozen (arena : Arena) (build : Build) (paths : List Handle) :
    ∃ set, fromPaths arena build paths = .ok set ∧ Frozen arena paths set := by
  let words := (members paths).getLast?.elim 0 fun p => p.raw.toNat / 64 + 1
  let set := (members paths).foldl (freeze arena) ⟨List.replicate words 0#64, [], [], ⟨[], []⟩, ⟨[], []⟩, 0⟩
  have filled : set.bits = ((members paths).map fun p => p.raw.toNat).foldl Bits.insert (List.replicate words 0#64) :=
    bits_foldl_freeze _ _
  have length : set.bits.length = words := by
    rw [filled, Bits.length_foldl_insert, List.length_replicate]
  have bits (b : ℕ) : Bits.contains set.bits b = true ↔ b ∈ (members paths).map fun p => p.raw.toNat := by
    have room : ∀ b ∈ (members paths).map (fun p => p.raw.toNat), b / 64 < (List.replicate words 0#64).length := by
      intro b member
      obtain ⟨p, inside, rfl⟩ := List.mem_map.mp member
      rw [List.length_replicate]
      exact lt_words inside
    rw [filled, Bits.contains_foldl_insert (by omega) room, Bits.contains_replicate_zero]
    simp
  have zero : Bits.contains set.bits 0 = false := by
    rw [Bool.eq_false_iff, ne_eq, bits, List.mem_map]
    rintro ⟨p, -, same⟩
    exact p.nonzero (UInt32.toNat_inj.mp same)
  have fits := sum_countOnes_lt (length ▸ words_le paths) zero
  obtain ⟨ranks, counted, each⟩ := exists_ranks build fits
  refine ⟨_, bind_of_ok counted, bits, each, ?_, ?_, ?_⟩
  · exact (trailing_foldl_freeze _ _).trans (List.nil_append _)
  · exact congrArg (Rows.close (2 ^ 32)) (exact_foldl_freeze _ _)
  · exact congrArg (Rows.close (2 ^ 32)) (wild_foldl_freeze _ _)

theorem Frozen.rank_of_not_mem (frozen : Frozen arena paths set) (outside : p ∉ paths) : set.rank p = .ok none := by
  have clear : ¬ Bits.contains set.bits p.raw.toNat = true := fun inside =>
    outside (mem_raw_members.mp ((frozen.bits _).mp inside))
  unfold rank
  simp only
  split
  · rfl
  · rename_i word here
    rw [if_neg]
    intro bit
    exact clear (by simpa [Bits.contains, here] using bit)

/-- The rank of the member at a place is the place. -/
theorem Frozen.rank_of_getElem? (frozen : Frozen arena paths set) (here : (members paths)[r]? = some p) :
    set.rank p = .ok (some r) := by
  have inside := (frozen.bits p.raw.toNat).mpr (List.mem_map_of_mem (List.mem_of_getElem? here))
  obtain ⟨word, found, bit⟩ := (Bits.contains_iff (by omega)).mp inside
  obtain ⟨room, -⟩ := List.getElem?_eq_some_iff.mp found
  obtain ⟨before, stored, sum⟩ := frozen.ranks _ room
  have count := Bits.rank_eq_count (by omega) found
  have same : Nat.count (fun c => Bits.contains set.bits c = true) p.raw.toNat = r := by
    have ascending := ascending_members paths
    have place := Bits.getElem?_count ascending (List.mem_map_of_mem (List.mem_of_getElem? here))
    have own : ((members paths).map fun p => p.raw.toNat)[r]? = some p.raw.toNat := by
      rw [List.getElem?_map, here, Option.map_some]
    obtain ⟨lt, -⟩ := List.getElem?_eq_some_iff.mp own
    rw [Bits.count_congr fun c _ => frozen.bits c]
    exact ((List.getElem?_inj lt (ascending.imp Nat.ne_of_lt)).mp (own.trans place.symm)).symm
  rw [rank, found]
  simp only
  rw [if_pos ((Bits.and_shift_ne_zero_iff (Nat.mod_lt _ (by omega))).mpr bit), index, stored]
  refine (bind_of_ok rfl).trans ?_
  rw [sum, count, same]
  rfl

theorem exists_getElem?_members (member : p ∈ paths) : ∃ r : ℕ, (members paths)[r]? = some p :=
  List.mem_iff_getElem?.mp (mem_members.mpr member)

theorem Frozen.contains_eq (frozen : Frozen arena paths set) (p : Handle) : set.contains p = .ok (decide (p ∈ paths)) := by
  by_cases member : p ∈ paths
  · obtain ⟨r, here⟩ := exists_getElem?_members member
    rw [contains, bind_of_ok (frozen.rank_of_getElem? here), decide_eq_true member]
    rfl
  · rw [contains, bind_of_ok (frozen.rank_of_not_mem member), decide_eq_false member]
    rfl

theorem splitTrailingOffset_ne_zero {path key : Path} {m : Int64} (split : path.splitTrailingOffset = some (key, m)) : m ≠ 0 := by
  have shape := Path.splitTrailingOffset_eq_some.mp split
  have clear : Clear [PathSegment.offset m] := Clear.right (shape ▸ path.clear)
  simpa using clear.head_ne

/-- A zero offset stands for no split, since no path holds one. -/
theorem Frozen.splitTrailingOffset_eq (frozen : Frozen arena paths set) (asked : p ∈ paths ∨ p = .EMPTY) :
    set.splitTrailingOffset build p = .ok ((arena.content p).splitTrailingOffset, set) := by
  by_cases empty : p = .EMPTY
  · have none : (arena.content p).splitTrailingOffset = none := by
      rw [empty, arena.content_empty]
      rfl
    rw [splitTrailingOffset, if_pos empty, none]
  · obtain ⟨r, here⟩ := exists_getElem?_members (asked.resolve_right empty)
    have stored : set.trailing[r]? = some ((arena.content p).splitTrailingOffset.getD (.empty, 0)) := by
      rw [frozen.trailing, List.getElem?_map, here, Option.map_some]
    have read : index set.trailing r = .ok ((arena.content p).splitTrailingOffset.getD (.empty, 0)) := by
      rw [index, stored, Option.elim_some]
    rw [splitTrailingOffset, if_neg empty, bind_of_ok (frozen.rank_of_getElem? here)]
    refine (bind_of_ok read).trans ?_
    cases split : (arena.content p).splitTrailingOffset with
    | none => simp [pure, Except.pure]
    | some found => simp [splitTrailingOffset_ne_zero split, pure, Except.pure]

theorem Frozen.splitTrailingOffset_missing (frozen : Frozen arena paths set) (outside : p ∉ paths) (filled : p ≠ .EMPTY) :
    set.splitTrailingOffset build p =
      if build = .dev then .error .assertion else .ok (none, { set with splitMisses := set.splitMisses + 1 }) := by
  rw [splitTrailingOffset, if_neg filled, bind_of_ok (frozen.rank_of_not_mem outside)]
  rfl

theorem Frozen.splits_missing (frozen : Frozen arena paths set) (outside : p ∉ paths) : set.splits p = .ok ⟨[], []⟩ := by
  rw [splits, bind_of_ok (frozen.rank_of_not_mem outside)]
  rfl

/-- The splits of a member are what is read at its place in the two tables. -/
theorem Frozen.splits_eq_ok (frozen : Frozen arena paths set) (here : (members paths)[r]? = some p) {exact wild : List (Path × Path)} :
    set.splits p = .ok ⟨exact, wild⟩ ↔
      (Rows.pack (2 ^ 32) ((members paths).map fun p => (arena.content p).prefixKeys)).get r = some exact ∧
        (Rows.pack (2 ^ 32) ((members paths).map fun p => (arena.content p).prefixKeysWild)).get r = some wild := by
  rw [splits, bind_of_ok (frozen.rank_of_getElem? here), ← frozen.exact, ← frozen.wild]
  simp only [row]
  cases set.exact.get r <;> cases set.wild.get r <;> simp [bind, Except.bind, pure, Except.pure]

theorem length_prefixKeys (path : Path) : path.prefixKeys.length = path.segs.length + 1 := by
  rw [Path.prefixKeys, List.length_map, List.length_range]

/-- The number of splits, the wild ones apart. -/
theorem length_flatten_prefixKeys : ((members paths).map fun p => (arena.content p).prefixKeys).flatten.length =
    ∑ p ∈ paths.toFinset, ((arena.content p).segs.length + 1) := by
  have same : (members paths).toFinset = paths.toFinset := by
    ext p
    rw [List.mem_toFinset, List.mem_toFinset, mem_members]
  rw [← same, List.sum_toFinset _ (nodup_members paths), List.length_flatten, List.map_map]
  simp only [Function.comp_def, length_prefixKeys]

theorem length_flatten_prefixKeysWild : ((members paths).map fun p => (arena.content p).prefixKeysWild).flatten.length ≤
    ((members paths).map fun p => (arena.content p).prefixKeys).flatten.length := by
  rw [List.length_flatten, List.length_flatten, List.map_map, List.map_map]
  apply List.sum_le_sum
  intro p _
  exact List.length_filter_le _ _

/-- The calls that were counted make no difference to the members. -/
theorem Frozen.of_misses (frozen : Frozen arena paths set) (misses : UInt64) :
    Frozen arena paths { set with splitMisses := misses } :=
  ⟨frozen.bits, frozen.ranks, frozen.trailing, frozen.exact, frozen.wild⟩

theorem Frozen.exact_of_lt (frozen : Frozen arena paths set)
    (short : ∑ p ∈ paths.toFinset, ((arena.content p).segs.length + 1) < 2 ^ 32) : Exact arena build paths set where
  contains := frozen.contains_eq
  splits p := by
    by_cases member : p ∈ paths
    · obtain ⟨r, here⟩ := exists_getElem?_members member
      have row {f : Handle → List (Path × Path)} : ((members paths).map f)[r]? = some (f p) := by
        rw [List.getElem?_map, here, Option.map_some]
      rw [← length_flatten_prefixKeys] at short
      rw [if_pos member, frozen.splits_eq_ok here]
      exact ⟨Rows.get_pack_of_lt short row, Rows.get_pack_of_lt (length_flatten_prefixKeysWild.trans_lt short) row⟩
    · rw [if_neg member, frozen.splits_missing member]
  trailing _ asked := frozen.splitTrailingOffset_eq asked
  missing _ outside filled := frozen.splitTrailingOffset_missing outside filled

/-- The member in whose row the places leave the `u32` range is answered wrongly, or not at all. -/
theorem Frozen.lt_of_exact (frozen : Frozen arena paths set) (right : Exact arena build paths set) :
    ∑ p ∈ paths.toFinset, ((arena.content p).segs.length + 1) < 2 ^ 32 := by
  rw [← length_flatten_prefixKeys, ← Rows.forall_get_pack_iff (by omega)]
  intro r row here
  rw [List.getElem?_map] at here
  obtain ⟨p, place, rfl⟩ := Option.map_eq_some_iff.mp here
  have answered := right.splits p
  rw [if_pos (mem_members.mp (List.mem_of_getElem? place)), frozen.splits_eq_ok place] at answered
  exact answered.1

end Frozen

section PathSet

variable {arena : Arena} {build : Build} {paths : List Handle} {set : PathRanks}

/-- A set answers for every handle as the admissible paths do, and gives the trailing offset of every member. -/
def Refines (arena : Arena) (build : Build) (paths : List Handle) (set : PathRanks) : Prop := ∀ p,
  set.contains p = .ok (decide (arena.content p ∈ PathSet.mk (paths.map arena.content))) ∧
    set.splits p = .ok (PathSet.splits ⟨paths.map arena.content⟩ (arena.content p)) ∧
    (p ∈ paths → set.splitTrailingOffset build p =
      .ok (PathSet.splitTrailingOffset ⟨paths.map arena.content⟩ (arena.content p), set))

theorem Exact.refines (right : Exact arena build paths set) : Refines arena build paths set := by
  intro p
  have member : arena.content p ∈ PathSet.mk (paths.map arena.content) ↔ p ∈ paths := by
    rw [PathSet.mem_def, List.mem_map_of_injective arena.injective]
  refine ⟨?_, ?_, fun inside => ?_⟩
  · rw [right.contains p]
    simp only [member]
  · rw [right.splits p, PathSet.splits]
    simp only [member]
  · rw [right.trailing p (.inl inside), PathSet.splitTrailingOffset, if_pos (member.mpr inside)]
    split_ifs with blank
    · rw [Path.isEmpty_iff.mp blank]
      rfl
    · rfl

/-- The set frozen from paths with fewer than `2 ^ 32` splits is the set of admissible paths, whatever it has counted. -/
theorem fromPaths_refines (arena : Arena) (build : Build) (paths : List Handle)
    (short : ∑ p ∈ paths.toFinset, ((arena.content p).segs.length + 1) < 2 ^ 32) :
    ∃ set, fromPaths arena build paths = .ok set ∧ ∀ misses, Refines arena build paths { set with splitMisses := misses } := by
  obtain ⟨set, made, frozen⟩ := exists_frozen arena build paths
  exact ⟨set, made, fun misses => ((frozen.of_misses misses).exact_of_lt short).refines⟩

/-- Whatever is counted meanwhile, the frozen set answers for every handle as the paths themselves do exactly when the
splits of its members are fewer than `2 ^ 32`. -/
theorem exact_fromPaths_iff (arena : Arena) (build : Build) (paths : List Handle) :
    (∃ set, fromPaths arena build paths = .ok set ∧ ∀ misses, Exact arena build paths { set with splitMisses := misses }) ↔
      ∑ p ∈ paths.toFinset, ((arena.content p).segs.length + 1) < 2 ^ 32 := by
  obtain ⟨set, made, frozen⟩ := exists_frozen arena build paths
  constructor
  · rintro ⟨other, returned, right⟩
    obtain rfl := Except.ok.inj (returned.symm.trans made)
    exact (frozen.of_misses 0).lt_of_exact (right 0)
  · intro short
    exact ⟨set, made, fun misses => (frozen.of_misses misses).exact_of_lt short⟩

end PathSet

end PathRanks

section Overflow

open PathRanks

theorem clear_replicate_deref (n : ℕ) : Clear (List.replicate n (PathSegment.deref : PathSegment Int64)) := by
  refine ⟨?_, by simp [List.mem_replicate]⟩
  apply List.Pairwise.isChain
  rw [List.pairwise_replicate]
  exact .inr (by simp [PathSegment.soft])

/-- The path of as many dereferences as there are handles before this one. -/
def derefContent (p : Handle) : Path := .ofClear (List.replicate (p.raw.toNat - 1) .deref) (clear_replicate_deref _)

theorem derefContent_injective : Function.Injective derefContent := by
  intro p q same
  have lengths := congrArg (fun path => path.segs.length) same
  simp only [derefContent, Path.segs_ofClear, List.length_replicate] at lengths
  have nonzero (h : Handle) : h.raw.toNat ≠ 0 := fun zero => h.nonzero (UInt32.toNat_inj.mp zero)
  have first := nonzero p
  have second := nonzero q
  exact Handle.raw_injective (show p.raw.toNat = q.raw.toNat by omega)

theorem derefContent_empty : derefContent .EMPTY = .empty := rfl

/-- The paths of pointers to pointers, interned one after another. -/
def Arena.derefs : Arena := ⟨derefContent, derefContent_injective, derefContent_empty⟩

section Chain

variable {n : ℕ} (room : n < 2 ^ 32)

/-- The handle of the path of `i` dereferences. -/
def Handle.deref (i : Fin n) : Handle where
  raw := .ofNat (i + 1)
  nonzero zero := by
    have value := congrArg UInt32.toNat zero
    rw [UInt32.toNat_ofNat_of_lt' (show _ < 2 ^ 32 by omega)] at value
    simp at value

/-- The paths of fewer than `n` dereferences. -/
def derefs : List Handle := (List.finRange n).map (.deref room)

theorem length_deref (i : Fin n) : (Arena.derefs.content (.deref room i)).segs.length = i := by
  have raw : (Handle.deref room i).raw.toNat = i + 1 := UInt32.toNat_ofNat_of_lt' (show _ < 2 ^ 32 by omega)
  change (List.replicate ((Handle.deref room i).raw.toNat - 1) PathSegment.deref).length = _
  rw [raw, List.length_replicate, Nat.add_sub_cancel]

theorem sum_derefs : (∑ p ∈ (derefs room).toFinset, ((Arena.derefs.content p).segs.length + 1)) * 2 = (n + 1) * n := by
  have injective : Function.Injective (Handle.deref room) := by
    intro i j same
    have lengths := length_deref room i
    rw [same, length_deref] at lengths
    exact Fin.ext lengths.symm
  have each : (fun p => (Arena.derefs.content p).segs.length + 1) ∘ Handle.deref room = fun i : Fin n => i.val + 1 := by
    funext i
    exact congrArg (· + 1) (length_deref room i)
  have shift := Finset.sum_range_succ' (fun i => i) n
  have gauss := Finset.sum_range_id_mul_two (n + 1)
  rw [Nat.add_sub_cancel] at gauss
  rw [derefs, List.sum_toFinset _ ((List.nodup_finRange n).map injective), List.map_map, each, ← Fin.sum_univ_def,
    Fin.sum_univ_eq_sum_range (fun i => i + 1) n]
  omega

end Chain

theorem PathRanks.fromPaths_refines_derefs :
    ∃ set, fromPaths .derefs .release (derefs (show 3 < 2 ^ 32 by decide)) = .ok set ∧
      ∀ misses, Refines .derefs .release (derefs (show 3 < 2 ^ 32 by decide)) { set with splitMisses := misses } := by
  apply fromPaths_refines
  have sum := sum_derefs (show 3 < 2 ^ 32 by decide)
  omega

/-- The longest of the 92682 paths is not answered: its splits begin after they end. -/
theorem PathRanks.not_exact_derefs :
    ¬ ∃ set, fromPaths .derefs .release (derefs (show 92682 < 2 ^ 32 by decide)) = .ok set ∧
      ∀ misses, Exact .derefs .release (derefs (show 92682 < 2 ^ 32 by decide)) { set with splitMisses := misses } := by
  rintro ⟨set, returned, right⟩
  obtain ⟨other, made, frozen⟩ := exists_frozen .derefs .release (derefs (show 92682 < 2 ^ 32 by decide))
  obtain rfl := Except.ok.inj (returned.symm.trans made)
  have short := (frozen.of_misses 0).lt_of_exact (right 0)
  have sum := sum_derefs (show 92682 < 2 ^ 32 by decide)
  omega

end Overflow

end Ctadl.Facts
