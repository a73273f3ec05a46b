import Mathlib.Data.List.Basic
import Mathlib.Data.List.Infix
import Mathlib.Logic.Function.Basic
import Mathlib.Order.Basic
import Mathlib.Order.Defs.LinearOrder
import Mathlib.Order.Lattice

/-! # Indexes over the rows of a table

A table is a list of rows and an index answers a key with row numbers. Three ways to build one: push every
row's entry under its keys (`grouped`), keep one number a key (`lastOf`), and, for a table that keeps equal
keys together, stretch one range a key (`spans`). A sorted stretch of rows is searched by halving
(`partitionPoint`). Each is characterized by the rows it reaches.
-/

namespace Ctadl.Collections

variable {α β κ : Type*} {key : α → κ} {rows seen : List α} {r : α} {i j s e : ℕ}

/-- The rows numbered from `s` up to `e`. -/
def slice (rows : List α) (s e : ℕ) : List α := (rows.drop s).take (e - s)

theorem mem_slice : r ∈ slice rows s e ↔ ∃ j, s ≤ j ∧ j < e ∧ rows[j]? = some r := by
  unfold slice
  rw [List.mem_iff_getElem?]
  constructor
  · rintro ⟨j, here⟩
    rw [List.getElem?_take] at here
    split_ifs at here with inside
    rw [List.getElem?_drop] at here
    exact ⟨s + j, by omega, by omega, here⟩
  · rintro ⟨j, after, before, here⟩
    refine ⟨j - s, ?_⟩
    rw [List.getElem?_take, if_pos (by omega), List.getElem?_drop, ← here]
    congr 1
    omega

theorem slice_append (inside : e ≤ rows.length) (more : List α) : slice (rows ++ more) s e = slice rows s e := by
  unfold slice
  rcases Nat.lt_or_ge rows.length s with beyond | within
  · rw [Nat.sub_eq_zero_of_le (by omega), List.take_zero, List.take_zero]
  · rw [List.drop_append_of_le_length within, List.take_append_of_le_length (by simp; omega)]

theorem length_slice_le : (slice rows s e).length ≤ e - s := by
  unfold slice
  rw [List.length_take]
  exact Nat.min_le_left _ _

theorem slice_slice (inside : j ≤ e - s) : slice (slice rows s e) i j = slice rows (s + i) (s + j) := by
  unfold slice
  rw [List.drop_take, List.take_take, List.drop_drop]
  congr 1
  omega

theorem slice_sublist : (slice rows s e).Sublist rows := (List.take_sublist _ _).trans (List.drop_sublist _ _)

section Keys

variable [DecidableEq κ] {k : κ}

/-- Every row's entry, pushed under each key of the row. -/
def pushRows (keys : α → List κ) (entry : α → ℕ → β) : List α → ℕ → (κ → List β) → κ → List β
  | [], _, index => index
  | r :: rows, i, index =>
    pushRows keys entry rows (i + 1)
      ((keys r).foldl (fun index k => Function.update index k (index k ++ [entry r i])) index)

def grouped (keys : α → List κ) (entry : α → ℕ → β) (rows : List α) : κ → List β :=
  pushRows keys entry rows 0 fun _ => []

theorem mem_foldl_push {ks : List κ} {index : κ → List β} {b c : β} :
    c ∈ ks.foldl (fun index k => Function.update index k (index k ++ [b])) index k ↔
      c ∈ index k ∨ c = b ∧ k ∈ ks := by
  induction ks generalizing index with
  | nil => simp
  | cons k' ks ih =>
    rw [List.foldl_cons, ih]
    by_cases same : k = k'
    · subst same
      simp only [Function.update_self, List.mem_append, List.mem_cons, true_or]
      tauto
    · simp only [Function.update_of_ne same, List.mem_cons, same, false_or]

theorem mem_pushRows {keys : α → List κ} {entry : α → ℕ → β} {index : κ → List β} {c : β} :
    c ∈ pushRows keys entry rows i index k ↔
      c ∈ index k ∨ ∃ n r, rows[n]? = some r ∧ c = entry r (i + n) ∧ k ∈ keys r := by
  induction rows generalizing i index with
  | nil => simp [pushRows]
  | cons r rows ih =>
    rw [pushRows, ih, mem_foldl_push]
    constructor
    · rintro ((old | ⟨rfl, mem⟩) | ⟨n, r', here, rfl, mem⟩)
      · exact .inl old
      · exact .inr ⟨0, r, rfl, rfl, mem⟩
      · exact .inr ⟨n + 1, r', here, by rw [Nat.add_right_comm, Nat.add_assoc], mem⟩
    · rintro (old | ⟨_ | n, r', here, rfl, mem⟩)
      · exact .inl (.inl old)
      · obtain rfl := Option.some.inj here
        exact .inl (.inr ⟨rfl, mem⟩)
      · exact .inr ⟨n, r', here, by rw [Nat.add_right_comm, Nat.add_assoc], mem⟩

theorem mem_grouped {keys : α → List κ} {entry : α → ℕ → β} {c : β} :
    c ∈ grouped keys entry rows k ↔ ∃ j r, rows[j]? = some r ∧ c = entry r j ∧ k ∈ keys r := by
  unfold grouped
  rw [mem_pushRows]
  simp

/-- The rows a key's numbers stand for. -/
theorem mem_rows_grouped {keys : α → List κ} :
    r ∈ (grouped keys (fun _ j => j) rows k).filterMap (rows[·]?) ↔ r ∈ rows ∧ k ∈ keys r := by
  rw [List.mem_filterMap]
  constructor
  · rintro ⟨j, listed, here⟩
    obtain ⟨j', r', there, rfl, mem⟩ := mem_grouped.mp listed
    obtain rfl := Option.some.inj (there.symm.trans here)
    exact ⟨List.mem_of_getElem? here, mem⟩
  · rintro ⟨listed, mem⟩
    obtain ⟨j, here⟩ := List.mem_iff_getElem?.mp listed
    exact ⟨j, mem_grouped.mpr ⟨j, r, here, rfl, mem⟩, here⟩

theorem pushRows_singleton {val : α → β} {index : κ → List β} :
    pushRows (fun r => [key r]) (fun r _ => val r) rows i index k =
      index k ++ (rows.filter fun r => key r = k).map val := by
  induction rows generalizing i index with
  | nil => simp [pushRows]
  | cons r rows ih =>
    rw [pushRows, ih, List.foldl_cons, List.foldl_nil, List.filter_cons]
    by_cases same : k = key r
    · subst same
      simp
    · rw [Function.update_of_ne same, if_neg (by simpa using Ne.symm same)]

/-- Entries pushed under one key each stand in table order. -/
theorem grouped_singleton {val : α → β} :
    grouped (fun r => [key r]) (fun r _ => val r) rows k = (rows.filter fun r => key r = k).map val :=
  pushRows_singleton

/-- Each key's number, a later row's in place of an earlier one's. -/
def insertRows (key : α → κ) : List α → ℕ → (κ → Option ℕ) → κ → Option ℕ
  | [], _, index => index
  | r :: rows, i, index => insertRows key rows (i + 1) (Function.update index (key r) (some i))

def lastOf (key : α → κ) (rows : List α) : κ → Option ℕ := insertRows key rows 0 fun _ => none

theorem insertRows_some {index : κ → Option ℕ} (found : insertRows key rows i index k = some j) :
    index k = some j ∨ ∃ n r, rows[n]? = some r ∧ j = i + n ∧ key r = k := by
  induction rows generalizing i index with
  | nil => exact .inl found
  | cons r rows ih =>
    obtain old | ⟨n, r', here, rfl, same⟩ := ih found
    · by_cases same : k = key r
      · subst same
        rw [Function.update_self] at old
        exact .inr ⟨0, r, rfl, by have := Option.some.inj old; omega, rfl⟩
      · rw [Function.update_of_ne same] at old
        exact .inl old
    · exact .inr ⟨n + 1, r', here, by omega, same⟩

theorem insertRows_isSome {index : κ → Option ℕ} (listed : (index k).isSome ∨ ∃ r ∈ rows, key r = k) :
    (insertRows key rows i index k).isSome := by
  induction rows generalizing i index with
  | nil => simpa [insertRows] using listed
  | cons r rows ih =>
    apply ih
    by_cases same : k = key r
    · subst same
      simp
    · rw [Function.update_of_ne same]
      refine listed.imp_right ?_
      rintro ⟨r', _ | ⟨_, later⟩, key⟩
      · exact absurd key.symm same
      · exact ⟨r', later, key⟩

theorem lastOf_some (found : lastOf key rows k = some j) : ∃ r, rows[j]? = some r ∧ key r = k := by
  obtain none | ⟨n, r, here, rfl, same⟩ := insertRows_some found
  · cases none
  · exact ⟨r, by rwa [Nat.zero_add], same⟩

/-- The row a key's number stands for, where rows with one key are equal. -/
theorem row_lastOf (only : ∀ r ∈ rows, ∀ r' ∈ rows, key r = key r' → r = r') :
    (lastOf key rows k).bind (rows[·]?) = some r ↔ r ∈ rows ∧ key r = k := by
  constructor
  · intro found
    obtain ⟨j, number, here⟩ := Option.bind_eq_some_iff.mp found
    obtain ⟨r', there, same⟩ := lastOf_some number
    obtain rfl := Option.some.inj (there.symm.trans here)
    exact ⟨List.mem_of_getElem? here, same⟩
  · rintro ⟨listed, rfl⟩
    have found : (lastOf key rows (key r)).isSome := insertRows_isSome (.inr ⟨r, listed, rfl⟩)
    obtain ⟨j, number⟩ := Option.isSome_iff_exists.mp found
    obtain ⟨r', here, same⟩ := lastOf_some number
    rw [number, Option.bind_some, here, only r' (List.mem_of_getElem? here) r listed same]

/-- Each key's range of numbers, stretched to every row that has it. -/
def spanRows (key : α → κ) : List α → ℕ → (κ → Option (ℕ × ℕ)) → κ → Option (ℕ × ℕ)
  | [], _, index => index
  | r :: rows, i, index =>
    spanRows key rows (i + 1)
      (Function.update index (key r) (some (((index (key r)).map Prod.fst).getD i, i + 1)))

def spans (key : α → κ) (rows : List α) : κ → Option (ℕ × ℕ) := spanRows key rows 0 fun _ => none

/-- What the ranges say of the rows seen: a key's first and last row are its range's ends. -/
def Spanned (key : α → κ) (seen : List α) (index : κ → Option (ℕ × ℕ)) : Prop :=
  ∀ k, (∀ s e, index k = some (s, e) → (seen[s]?).map key = some k ∧ s < e ∧ (seen[e - 1]?).map key = some k) ∧
    ∀ j, (seen[j]?).map key = some k → ∃ s e, index k = some (s, e) ∧ s ≤ j ∧ j < e

theorem Spanned.stretch {index : κ → Option (ℕ × ℕ)} (spanned : Spanned key seen index) (r : α) :
    Spanned key (seen ++ [r])
      (Function.update index (key r) (some (((index (key r)).map Prod.fst).getD seen.length, seen.length + 1))) := by
  have kept : ∀ {j k}, (seen[j]?).map key = some k → ((seen ++ [r])[j]?).map key = some k := fun {j k} here => by
    obtain ⟨r', there, same⟩ := Option.map_eq_some_iff.mp here
    rw [List.getElem?_append_left (List.getElem?_eq_some_iff.mp there).1, there, Option.map_some, same]
  have last : ((seen ++ [r])[seen.length]?).map key = some (key r) := by simp
  have before : ∀ {j k}, ((seen ++ [r])[j]?).map key = some k →
      (seen[j]?).map key = some k ∨ j = seen.length ∧ key r = k := fun {j k} here => by
    obtain ⟨r', there, same⟩ := Option.map_eq_some_iff.mp here
    rcases Nat.lt_trichotomy j seen.length with less | rfl | more
    · rw [List.getElem?_append_left less] at there
      exact .inl (by rw [there, Option.map_some, same])
    · simp only [List.getElem?_concat_length, Option.some.injEq] at there
      exact .inr ⟨rfl, there ▸ same⟩
    · rw [List.getElem?_eq_none (by simp; omega)] at there
      cases there
  intro k
  by_cases same : k = key r
  · subst same
    rw [Function.update_self]
    refine ⟨?_, ?_⟩
    · rintro s e ⟨⟩
      cases old : index (key r) with
      | none => exact ⟨by simp, by simp, by simp⟩
      | some range =>
        obtain ⟨first, less, -⟩ := (spanned (key r)).1 range.1 range.2 old
        have inside := (List.getElem?_eq_some_iff.mp (Option.map_eq_some_iff.mp first).choose_spec.1).1
        exact ⟨kept first, by simp; omega, by simp⟩
    · intro j here
      refine ⟨_, _, rfl, ?_⟩
      obtain old | ⟨rfl, -⟩ := before here
      · obtain ⟨s, e, range, after, -⟩ := (spanned (key r)).2 j old
        have inside := (List.getElem?_eq_some_iff.mp (Option.map_eq_some_iff.mp old).choose_spec.1).1
        exact ⟨by simpa [range] using after, by omega⟩
      · cases old : index (key r) with
        | none => simp
        | some range =>
          have first := ((spanned (key r)).1 range.1 range.2 old).1
          have inside := (List.getElem?_eq_some_iff.mp (Option.map_eq_some_iff.mp first).choose_spec.1).1
          exact ⟨by simp; omega, by omega⟩
  · rw [Function.update_of_ne same]
    refine ⟨fun s e range => ?_, fun j here => ?_⟩
    · obtain ⟨first, less, final⟩ := (spanned k).1 s e range
      exact ⟨kept first, less, kept final⟩
    · obtain old | ⟨-, eq⟩ := before here
      · exact (spanned k).2 j old
      · exact absurd eq.symm same

theorem spanned_spanRows {index : κ → Option (ℕ × ℕ)} (spanned : Spanned key seen index) :
    Spanned key (seen ++ rows) (spanRows key rows seen.length index) := by
  induction rows generalizing seen index with
  | nil => simpa [spanRows] using spanned
  | cons r rows ih =>
    have next := ih (spanned.stretch r)
    rwa [List.append_assoc, List.singleton_append, List.length_append, List.length_singleton] at next

/-- Rows with one key stand together. -/
def Together (key : α → κ) (rows : List α) : Prop :=
  ∀ (i j l : ℕ) (k : κ), i ≤ j → j ≤ l → (rows[i]?).map key = some k → (rows[l]?).map key = some k → (rows[j]?).map key = some k

omit [DecidableEq κ] in
theorem Together.append {more : List α} (left : Together key rows) (right : Together key more)
    (apart : ∀ r ∈ rows, ∀ r' ∈ more, key r ≠ key r') : Together key (rows ++ more) := by
  intro i j l k le le' first last
  rcases Nat.lt_or_ge l rows.length with within | beyond
  · rw [List.getElem?_append_left (by omega)] at first last ⊢
    exact left i j l k le le' first last
  · rcases Nat.lt_or_ge i rows.length with within | after
    · rw [List.getElem?_append_left within] at first
      rw [List.getElem?_append_right beyond] at last
      obtain ⟨r, here, rfl⟩ := Option.map_eq_some_iff.mp first
      obtain ⟨r', there, same⟩ := Option.map_eq_some_iff.mp last
      exact absurd same.symm (apart r (List.mem_of_getElem? here) r' (List.mem_of_getElem? there))
    · rw [List.getElem?_append_right (by omega)] at first last ⊢
      exact right (i - rows.length) (j - rows.length) (l - rows.length) k (by omega) (by omega) first last

omit [DecidableEq κ] in
/-- Rows listed group by group, each group under a key of its own. -/
theorem together_flatMap {γ : Type*} {groups : List γ} {name : γ → κ} {f : γ → List α}
    (named : ∀ g, ∀ r ∈ f g, key r = name g) (nodup : (groups.map name).Nodup) : Together key (groups.flatMap f) := by
  induction groups with
  | nil => intro i j l k _ _ first; simp at first
  | cons g groups ih =>
    rw [List.map_cons, List.nodup_cons] at nodup
    rw [List.flatMap_cons]
    refine Together.append ?_ (ih nodup.2) fun r inside r' later same => ?_
    · intro i j l k le le' first last
      obtain ⟨r, here, rfl⟩ := Option.map_eq_some_iff.mp first
      obtain ⟨r', there, -⟩ := Option.map_eq_some_iff.mp last
      have bound := (List.getElem?_eq_some_iff.mp there).1
      rw [List.getElem?_eq_getElem (by omega), Option.map_some, named g r (List.mem_of_getElem? here),
        named g _ (List.getElem_mem _)]
    · obtain ⟨g', present, inside'⟩ := List.mem_flatMap.mp later
      rw [named g r inside, named g' r' inside'] at same
      exact nodup.1 (List.mem_map.mpr ⟨g', present, same.symm⟩)

/-- The rows of a key's range, where rows with one key stand together. -/
theorem mem_slice_spans (together : Together key rows) :
    (∃ s e, spans key rows k = some (s, e) ∧ r ∈ slice rows s e) ↔ r ∈ rows ∧ key r = k := by
  have nothing : Spanned key [] fun _ => none := fun k => ⟨by simp, by simp⟩
  have spanned : Spanned key rows (spans key rows) := spanned_spanRows nothing
  constructor
  · rintro ⟨s, e, range, mem⟩
    obtain ⟨j, after, before, here⟩ := mem_slice.mp mem
    obtain ⟨first, less, final⟩ := (spanned k).1 s e range
    have at' := together s j (e - 1) k after (by omega) first final
    rw [here] at at'
    exact ⟨List.mem_of_getElem? here, Option.some.inj at'⟩
  · rintro ⟨listed, same⟩
    obtain ⟨j, here⟩ := List.mem_iff_getElem?.mp listed
    obtain ⟨s, e, range, after, before⟩ := (spanned k).2 j (by rw [here, Option.map_some, same])
    exact ⟨s, e, range, mem_slice.mpr ⟨j, after, before, here⟩⟩

end Keys

/-! ## Binary search -/

/-- Halves the stretch from `lo` to `hi` until it is empty. -/
def bisect (p : ℕ → Bool) : ℕ → ℕ → ℕ → ℕ
  | 0, lo, _ => lo
  | fuel + 1, lo, hi =>
    if lo < hi then
      if p (lo + (hi - lo) / 2) then bisect p fuel (lo + (hi - lo) / 2 + 1) hi
      else bisect p fuel lo (lo + (hi - lo) / 2)
    else lo

/-- How many rows the predicate holds of, where it holds of no row after one it fails on. -/
def partitionPoint (p : α → Bool) (rows : List α) : ℕ :=
  bisect (fun i => (rows[i]?).any p) rows.length 0 rows.length

theorem bisect_le {p : ℕ → Bool} {fuel lo hi : ℕ} (le : lo ≤ hi) : bisect p fuel lo hi ≤ hi := by
  induction fuel generalizing lo hi with
  | zero => exact le
  | succ fuel ih =>
    unfold bisect
    split_ifs with more middle
    · exact ih (by omega)
    · exact (ih (by omega)).trans (by omega)
    · exact le

theorem partitionPoint_le {p : α → Bool} : partitionPoint p rows ≤ rows.length := bisect_le (Nat.zero_le _)

theorem bisect_spec {p : ℕ → Bool} {fuel lo hi bound : ℕ} (enough : hi - lo ≤ fuel) (le : lo ≤ hi) (inside : hi ≤ bound)
    (below : ∀ i < lo, p i) (above : ∀ i, hi ≤ i → i < bound → p i = false)
    (falls : ∀ i j, i ≤ j → j < bound → p j → p i) (i : ℕ) (here : i < bound) :
    i < bisect p fuel lo hi ↔ p i := by
  induction fuel generalizing lo hi with
  | zero =>
    obtain rfl : lo = hi := by omega
    constructor
    · exact below i
    · intro holds
      by_contra after
      simp [above i (by simpa [bisect] using after) here] at holds
  | succ fuel ih =>
    unfold bisect
    split_ifs with more middle
    · exact ih (by omega) (by omega) inside (fun i less => falls i _ (by omega) (by omega) middle) above
    · refine ih (by omega) (by omega) (by omega) below fun i after less => ?_
      by_contra holds
      exact middle (falls _ i after less (by simpa using holds))
    · constructor
      · exact below i
      · intro holds
        by_contra after
        simp [above i (by omega) here] at holds

/-- The rows before the partition point are those the predicate holds of. -/
theorem lt_partitionPoint {p : α → Bool} (falls : rows.Pairwise fun r r' => p r' → p r) (here : rows[i]? = some r) :
    i < partitionPoint p rows ↔ p r := by
  have bound := (List.getElem?_eq_some_iff.mp here).1
  have falls : ∀ i j, i ≤ j → j < rows.length → (rows[j]?).any p → (rows[i]?).any p := by
    intro i j le less
    rcases Nat.lt_or_eq_of_le le with before | rfl
    · have := List.pairwise_iff_getElem.mp falls i j (by omega) less before
      simpa [List.getElem?_eq_getElem less, List.getElem?_eq_getElem (show i < rows.length by omega)] using this
    · exact id
  unfold partitionPoint
  rw [bisect_spec (by omega) (by omega) le_rfl (by simp) (by omega) falls i bound]
  simp [here]

/-- The rows two searches cut out of a table sorted by position: those at the position. -/
theorem mem_equal_range {P : Type*} [LinearOrder P] {position : α → P} {at' : P} {start : ℕ}
    (sorted : rows.Pairwise fun r r' => position r ≤ position r')
    (first : start = partitionPoint (fun r => decide (position r < at')) rows) :
    r ∈ slice rows start (start + partitionPoint (fun r => decide (position r = at')) (rows.drop start)) ↔
      r ∈ rows ∧ position r = at' := by
  have before : ∀ {j r}, rows[j]? = some r → (j < start ↔ position r < at') := fun {j r} here => by
    rw [first, lt_partitionPoint (sorted.imp fun le less => by simp only [decide_eq_true_eq] at less ⊢; exact le.trans_lt less)
      here, decide_eq_true_eq]
  have falls : (rows.drop start).Pairwise fun r r' => decide (position r' = at') → decide (position r = at') := by
    refine List.Pairwise.imp_of_mem (fun left _ le eq => ?_) (sorted.sublist (List.drop_sublist start rows))
    simp only [decide_eq_true_eq] at eq ⊢
    obtain ⟨j, here⟩ := List.mem_iff_getElem?.mp left
    rw [List.getElem?_drop] at here
    exact le_antisymm (eq ▸ le) (not_lt.mp fun less => by have := (before here).mpr less; omega)
  constructor
  · intro listed
    obtain ⟨j, after, less, here⟩ := mem_slice.mp listed
    have there : (rows.drop start)[j - start]? = some r := by
      rw [List.getElem?_drop, ← here]
      congr 1
      omega
    exact ⟨List.mem_of_getElem? here, by simpa using (lt_partitionPoint falls there).mp (by omega)⟩
  · rintro ⟨listed, same⟩
    obtain ⟨j, here⟩ := List.mem_iff_getElem?.mp listed
    have after : start ≤ j := not_lt.mp fun less => absurd same ((before here).mp less).ne
    have there : (rows.drop start)[j - start]? = some r := by
      rw [List.getElem?_drop, ← here]
      congr 1
      omega
    have less := (lt_partitionPoint falls there).mpr (by simpa using same)
    exact mem_slice.mpr ⟨j, after, by omega, here⟩

end Ctadl.Collections
