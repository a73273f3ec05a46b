import Mathlib.Algebra.Group.Nat.Defs
import Mathlib.Data.List.Pairwise
import Mathlib.Data.Nat.Log
import Mathlib.Order.Nat

/-! # Doubling buckets and the bump arena

Slots and arena units are numbered; bucket `b` holds `first << b` of them, so `split` finds the bucket
of a number and the index within it from the leading bit. The arena hands out spans of consecutive
numbers, each inside one chunk. A chunk is allocated uninitialized: a read outside it, of a null
pointer or of a unit never written is `none`, and `Stored` says why none of these happens.
-/

namespace Ctadl.Immortal

open Function

/-- Slots in a shard's first bucket; bucket `b` holds `FIRST_BUCKET << b`. -/
def FIRST_BUCKET : ℕ := 64

/-- Enough buckets for `2^32` slots. -/
def BUCKETS : ℕ := 27

/-- Units in a shard's first arena chunk; chunk `c` holds `FIRST_CHUNK << c`. -/
def FIRST_CHUNK : ℕ := 1024

/-- Enough chunks to cover every `u32` offset. -/
def CHUNKS : ℕ := 23

/-- Bucket and index within it of the `n`th slot or unit. -/
def split (n first : ℕ) : ℕ × ℕ :=
  let x := n + first
  let b := x.log2 - first.log2
  (b, x - first <<< b)

/-- Bucket `b` starts at number `(first << b) - first`. -/
theorem split_eq_iff {n k b i : ℕ} :
    split n (2 ^ k) = (b, i) ↔ n + 2 ^ k = 2 ^ k <<< b + i ∧ i < 2 ^ k <<< b := by
  have positive := Nat.two_pow_pos k
  have some : n + 2 ^ k ≠ 0 := by omega
  have leading : k ≤ (n + 2 ^ k).log2 := (Nat.le_log2 some).mpr (by omega)
  have power : ∀ b, 2 ^ k <<< b = 2 ^ (k + b) := fun b => by rw [Nat.shiftLeft_eq, Nat.pow_add]
  simp only [split, Nat.log2_two_pow, power, Prod.mk.injEq]
  constructor
  · rintro ⟨rfl, rfl⟩
    have bucket : k + ((n + 2 ^ k).log2 - k) = (n + 2 ^ k).log2 := by omega
    have low := Nat.log2_self_le some
    have high := @Nat.lt_log2_self (n + 2 ^ k)
    rw [bucket]
    rw [Nat.pow_succ] at high
    omega
  · rintro ⟨total, inside⟩
    have exact_ : (n + 2 ^ k).log2 = k + b := by
      rw [Nat.log2_eq_iff some, Nat.pow_succ]
      omega
    have bucket : (n + 2 ^ k).log2 - k = b := by omega
    rw [bucket]
    omega

theorem split_lt {n k b i m : ℕ} (at_ : split n (2 ^ k) = (b, i)) (lt : n + 2 ^ k < 2 ^ (k + m)) : b < m := by
  have total := (split_eq_iff.mp at_).1
  rw [Nat.shiftLeft_eq, ← Nat.pow_add] at total
  have less : 2 ^ (k + b) < 2 ^ (k + m) := by omega
  have exponents := (Nat.pow_lt_pow_iff_right (by decide : 1 < 2)).mp less
  omega

/-- A pointer to uninitialized memory that is written unit by unit. -/
abbrev Memory (U : Type) := ℕ → Option U

/-- The chunk pointers, null at first, and the next free offset. -/
structure Bump (U : Type) where
  chunks : ℕ → Option (Memory U)
  next : ℕ

/-- An unsized value's place in its shard's arena. -/
structure Span where
  off : ℕ
  len : ℕ
deriving DecidableEq

namespace Bump

variable {U : Type}

def empty : Bump U := ⟨fun _ => none, 0⟩

def writeUnits (chunk : Memory U) (i : ℕ) (v : List U) : Memory U :=
  fun k => if i ≤ k ∧ k < i + v.length then v[k - i]? else chunk k

/-- Find a chunk whose rest has room, from the next free offset on. -/
def storeFrom (v : List U) : ℕ → Bump U → Option Span × Bump U
  | 0, bump => (none, bump)
  | fuel + 1, bump =>
    let (c, i) := split bump.next FIRST_CHUNK
    if CHUNKS ≤ c then (none, bump)
    else
      let size := FIRST_CHUNK <<< c
      if size < i + v.length then storeFrom v fuel { bump with next := bump.next + (size - i) }
      else if 2 ^ 32 ≤ bump.next then (none, bump)
      else
        let chunk := (bump.chunks c).getD fun _ => none
        (some ⟨bump.next, v.length⟩,
          { chunks := update bump.chunks c (some (writeUnits chunk i v)), next := bump.next + v.length })

/-- Copy a slice into the arena, or run out of offsets. Every turn of the loop is one chunk on. -/
def storeSlice (v : List U) (bump : Bump U) : Option Span × Bump U :=
  if 2 ^ 32 ≤ v.length then (none, bump)
  else if v.length = 0 then (some ⟨0, 0⟩, bump)
  else storeFrom v (CHUNKS + 1) bump

end Bump

/-- Read a slice back. -/
def loadSlice {U : Type} (slot : Span) (chunks : ℕ → Option (Memory U)) : Option (List U) :=
  if slot.len = 0 then some []
  else
    let (c, i) := split slot.off FIRST_CHUNK
    if CHUNKS ≤ c ∨ FIRST_CHUNK <<< c < i + slot.len then none
    else (chunks c).bind fun chunk => (List.range slot.len).mapM fun k => chunk (i + k)

namespace Bump

variable {U : Type} {bump : Bump U} {v : List U} {slots : List (Span × List U)}

theorem split_next (n : ℕ) : ∃ c i, split n FIRST_CHUNK = (c, i) ∧ n + FIRST_CHUNK = FIRST_CHUNK <<< c + i ∧
    i < FIRST_CHUNK <<< c := by
  obtain ⟨c, i, same⟩ : ∃ c i, split n FIRST_CHUNK = (c, i) := ⟨_, _, rfl⟩
  have power : FIRST_CHUNK = 2 ^ 10 := rfl
  rw [power] at same ⊢
  exact ⟨c, i, same, split_eq_iff.mp same⟩

/-- What a store did: nothing but to move on, or to write the units right after a free offset. -/
def StoredAt (v : List U) (bump bump' : Bump U) (result : Option Span) : Prop :=
  (result = none ∧ bump'.chunks = bump.chunks ∧ bump.next ≤ bump'.next) ∨
  ∃ off c i, result = some ⟨off, v.length⟩ ∧ bump.next ≤ off ∧ off < 2 ^ 32 ∧ split off FIRST_CHUNK = (c, i) ∧
    c < CHUNKS ∧ i + v.length ≤ FIRST_CHUNK <<< c ∧ bump'.next = off + v.length ∧
    bump'.chunks = update bump.chunks c (some (writeUnits ((bump.chunks c).getD fun _ => none) i v))

theorem storeFrom_spec (v : List U) (fuel : ℕ) (bump : Bump U) :
    StoredAt v bump (storeFrom v fuel bump).2 (storeFrom v fuel bump).1 := by
  induction fuel generalizing bump with
  | zero => exact .inl ⟨rfl, rfl, le_rfl⟩
  | succ fuel ih =>
    obtain ⟨c, i, same, total, inside⟩ := split_next bump.next
    rw [storeFrom, same]
    dsimp only
    split_ifs with beyond full last
    · exact .inl ⟨rfl, rfl, le_rfl⟩
    · rcases ih { bump with next := bump.next + (FIRST_CHUNK <<< c - i) } with
        ⟨isNone, chunks, le⟩ | ⟨off, c', i', isSome, le, rest⟩
      · exact .inl ⟨isNone, chunks, (Nat.le_add_right _ _).trans le⟩
      · exact .inr ⟨off, c', i', isSome, (Nat.le_add_right _ _).trans le, rest⟩
    · exact .inl ⟨rfl, rfl, le_rfl⟩
    · exact .inr ⟨bump.next, c, i, rfl, le_rfl, not_le.mp last, same, not_le.mp beyond, not_lt.mp full, rfl, rfl⟩

end Bump

namespace Span

/-- The numbers of the units of a span. -/
def Has (span : Span) (n : ℕ) : Prop := span.off ≤ n ∧ n < span.off + span.len

/-- No unit is in both spans. -/
def Apart (a b : Span) : Prop := ∀ n, a.Has n → ¬ b.Has n

/-- A span that has units has all of them in one chunk. -/
def InChunk (span : Span) : Prop :=
  span.len ≠ 0 → ∃ c i, split span.off FIRST_CHUNK = (c, i) ∧ c < CHUNKS ∧ i + span.len ≤ FIRST_CHUNK <<< c

theorem Apart.symm {a b : Span} (apart : a.Apart b) : b.Apart a := fun n inB inA => apart n inA inB

end Span

namespace Bump

variable {U : Type} {bump bump' : Bump U} {v w : List U} {span : Span} {slots : List (Span × List U)}

/-- The units of a span that was handed out hold the slice. -/
structure Placed (bump : Bump U) (span : Span) (v : List U) : Prop where
  len : span.len = v.length
  inChunk : span.InChunk
  before : span.len ≠ 0 → span.off + span.len ≤ bump.next
  written : span.len ≠ 0 → ∃ chunk, bump.chunks (split span.off FIRST_CHUNK).1 = some chunk ∧
    ∀ k < v.length, chunk ((split span.off FIRST_CHUNK).2 + k) = v[k]?

/-- All slices handed out, each in units of its own. -/
structure Stored (bump : Bump U) (slots : List (Span × List U)) : Prop where
  placed : ∀ e ∈ slots, Placed bump e.1 e.2
  apart : slots.Pairwise fun e f => e.1.Apart f.1

/-- A store leaves the units handed out before alone. -/
theorem StoredAt.placed {result : Option Span} (stored : StoredAt w bump bump' result) (placed : Placed bump span v) :
    Placed bump' span v := by
  rcases stored with ⟨-, chunks, le⟩ | ⟨off, c, i, -, le, -, at_, -, -, next, chunks⟩
  · exact ⟨placed.len, placed.inChunk, fun some => (placed.before some).trans le, fun some => chunks ▸ placed.written some⟩
  · refine ⟨placed.len, placed.inChunk, fun some => ?_, fun some => ?_⟩
    · have early := placed.before some
      omega
    · obtain ⟨chunk, isChunk, units⟩ := placed.written some
      obtain ⟨c', i', at', total', -⟩ := split_next span.off
      obtain ⟨c₂, i₂, same, total, -⟩ := split_next off
      obtain ⟨rfl, rfl⟩ := Prod.mk.inj (same.symm.trans at_)
      rw [at'] at isChunk units ⊢
      rw [chunks]
      by_cases here : c' = c₂
      · subst here
        refine ⟨_, update_self .., fun k lt => ?_⟩
        have early := placed.before some
        have len := placed.len
        dsimp only at isChunk
        rw [isChunk, Option.getD_some, writeUnits, if_neg (by omega), units k lt]
      · exact ⟨chunk, by rw [update_of_ne here, isChunk], units⟩

/-- The slice is in the units it was given. -/
theorem StoredAt.placed_new (stored : StoredAt v bump bump' (some span)) : Placed bump' span v := by
  rcases stored with ⟨isNone, -⟩ | ⟨off, c, i, isSome, -, -, at_, lt, inside, next, chunks⟩
  · cases isNone
  · obtain rfl := Option.some.inj isSome
    refine ⟨rfl, fun _ => ⟨c, i, at_, lt, inside⟩, fun _ => next.ge, fun _ => ?_⟩
    rw [chunks, at_]
    refine ⟨_, update_self .., fun k lt => ?_⟩
    rw [writeUnits, if_pos (by omega), Nat.add_sub_cancel_left]

theorem StoredAt.apart_new {other : Span} (stored : StoredAt v bump bump' (some span)) (placed : Placed bump other w) :
    span.Apart other := by
  rcases stored with ⟨isNone, -⟩ | ⟨off, c, i, isSome, le, -⟩
  · cases isNone
  · obtain rfl := Option.some.inj isSome
    rintro n ⟨low, -⟩ ⟨low', high'⟩
    have early := placed.before (by omega)
    dsimp only at low
    omega

theorem storeSlice_stored (stored : Stored bump slots) (v : List U) :
    Stored (storeSlice v bump).2
      (match (storeSlice v bump).1 with
        | some span => (span, v) :: slots
        | none => slots) := by
  unfold storeSlice
  split_ifs with long zero
  · exact stored
  · refine ⟨fun e mem => ?_, List.pairwise_cons.mpr ⟨fun e _ n has => ?_, stored.apart⟩⟩
    · rcases List.mem_cons.mp mem with rfl | old
      · exact ⟨zero.symm, fun some => absurd rfl some, fun some => absurd rfl some, fun some => absurd rfl some⟩
      · exact stored.placed e old
    · obtain ⟨low, high⟩ := has
      dsimp only at low high
      omega
  · have spec := storeFrom_spec v (CHUNKS + 1) bump
    cases result : (storeFrom v (CHUNKS + 1) bump).1 with
    | none => exact ⟨fun e mem => spec.placed (stored.placed e mem), stored.apart⟩
    | some span =>
      rw [result] at spec
      refine ⟨fun e mem => ?_, List.pairwise_cons.mpr ⟨fun e mem => ?_, stored.apart⟩⟩
      · rcases List.mem_cons.mp mem with rfl | old
        · exact spec.placed_new
        · exact spec.placed (stored.placed e old)
      · exact spec.apart_new (stored.placed e mem)

theorem Stored.some (stored : Stored bump slots) (ran : storeSlice v bump = (some span, bump')) :
    Stored bump' ((span, v) :: slots) := by
  have after := storeSlice_stored stored v
  rwa [ran] at after

theorem Stored.none (stored : Stored bump slots) (ran : storeSlice v bump = (none, bump')) : Stored bump' slots := by
  have after := storeSlice_stored stored v
  rwa [ran] at after

theorem stored_empty : Stored (empty : Bump U) [] := ⟨fun _ mem => absurd mem List.not_mem_nil, .nil⟩

/-- Reading a span back gives the slice. -/
theorem Placed.load (placed : Placed bump span v) : loadSlice span bump.chunks = some v := by
  unfold loadSlice
  split_ifs with zero
  · rw [placed.len] at zero
    rw [List.length_eq_zero_iff.mp zero]
  · obtain ⟨chunk, isChunk, units⟩ := placed.written zero
    obtain ⟨c, i, at_, lt, inside⟩ := placed.inChunk zero
    rw [at_] at isChunk units ⊢
    dsimp only at isChunk units ⊢
    have within : ¬ (CHUNKS ≤ c ∨ FIRST_CHUNK <<< c < i + span.len) := by omega
    rw [if_neg within, isChunk, Option.bind_some, placed.len]
    have read : ∀ n ≤ v.length, (List.range n).mapM (fun k => chunk (i + k)) = some (v.take n) := by
      intro n le
      induction n with
      | zero => rfl
      | succ n ih =>
        have unit := units n le
        rw [List.range_succ, List.mapM_append, ih (Nat.le_of_succ_le le), List.take_add_one, List.getElem?_eq_getElem le]
        rw [List.getElem?_eq_getElem le] at unit
        simp only [List.mapM_cons, List.mapM_nil, unit, Option.bind_eq_bind, Option.bind_some, Option.pure_def,
          Option.toList_some]
    rw [read v.length le_rfl, List.take_length]

end Bump

end Ctadl.Immortal
