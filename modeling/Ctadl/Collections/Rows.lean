import Mathlib.Data.List.Basic
import Mathlib.Data.Nat.Find

/-! # Rows kept one after another

The rows of a table stand in one list, beside the places they begin at and, at the end, the place the last one ends at.
The places are kept modulo `m`, so a row can be read back as long as the list has not grown to `m` entries.
-/

namespace Ctadl.Collections

structure Rows (α : Type*) where
  starts : List ℕ
  entries : List α

namespace Rows

variable {α : Type*} {m r s : ℕ} {row : List α} {rows : List (List α)}

def push (m : ℕ) (table : Rows α) (row : List α) : Rows α where
  starts := table.starts ++ [table.entries.length % m]
  entries := table.entries ++ row

/-- Notes where the last row ends. -/
def close (m : ℕ) (table : Rows α) : Rows α := { table with starts := table.starts ++ [table.entries.length % m] }

def pack (m : ℕ) (rows : List (List α)) : Rows α := close m (rows.foldl (push m) ⟨[], []⟩)

/-- The entries from `s` up to `e`, if they are a range of the list. -/
def slice (l : List α) (s e : ℕ) : Option (List α) := if s ≤ e ∧ e ≤ l.length then some ((l.take e).drop s) else none

def get (table : Rows α) (r : ℕ) : Option (List α) :=
  table.starts[r]?.bind fun s => table.starts[r + 1]?.bind fun e => slice table.entries s e

/-- Where row `r` begins. -/
def start (rows : List (List α)) (r : ℕ) : ℕ := (rows.take r).flatten.length

theorem start_zero (rows : List (List α)) : start rows 0 = 0 := rfl

theorem start_succ (here : rows[r]? = some row) : start rows (r + 1) = start rows r + row.length := by
  rw [start, start, List.take_add_one, here, List.flatten_append, List.length_append]
  simp

theorem start_length : start rows rows.length = rows.flatten.length := by rw [start, List.take_length]

theorem start_le (r : ℕ) : start rows r ≤ rows.flatten.length := by
  have whole := congrArg (fun l => l.flatten.length) (List.take_append_drop r rows)
  simp only [List.flatten_append, List.length_append] at whole
  rw [start]
  omega

/-- Between its own start and the next stands the row. -/
theorem slice_start (here : rows[r]? = some row) :
    slice rows.flatten (start rows r) (start rows (r + 1)) = some row := by
  have next := start_succ here
  obtain ⟨inside, rfl⟩ := List.getElem?_eq_some_iff.mp here
  have split : rows.flatten = (rows.take r).flatten ++ (rows[r] ++ (rows.drop (r + 1)).flatten) := by
    rw [← List.flatten_cons, List.getElem_cons_drop, ← List.flatten_append, List.take_append_drop]
  rw [slice, if_pos ⟨by omega, start_le _⟩, Option.some_inj, next, split, start, ← List.append_assoc,
    ← List.length_append, List.take_left, List.drop_left]

theorem length_of_slice {l : List α} {e : ℕ} (read : slice l s e = some row) : row.length + s = e := by
  unfold slice at read
  split_ifs at read with inside
  obtain rfl := Option.some.inj read
  rw [List.length_drop, List.length_take]
  omega

section Pack

theorem entries_foldl_push (table : Rows α) :
    (rows.foldl (push m) table).entries = table.entries ++ rows.flatten := by
  induction rows generalizing table with
  | nil => simp
  | cons row rows ih =>
    rw [List.foldl_cons, ih, List.flatten_cons, ← List.append_assoc]
    rfl

theorem starts_foldl_push (table : Rows α) :
    (rows.foldl (push m) table).starts =
      table.starts ++ (List.range rows.length).map fun r => (table.entries.length + start rows r) % m := by
  induction rows generalizing table with
  | nil => simp
  | cons row rows ih =>
    have shift (r : ℕ) : start (row :: rows) (r + 1) = row.length + start rows r := by
      rw [start, List.take_succ_cons, List.flatten_cons, List.length_append, start]
    rw [List.foldl_cons, ih, List.length_cons, List.range_succ_eq_map, List.map_cons, List.map_map]
    simp [push, shift, start_zero, Function.comp_def, Nat.add_assoc]

theorem entries_pack : (pack m rows).entries = rows.flatten := by
  rw [pack, close, entries_foldl_push, List.nil_append]

theorem starts_pack : (pack m rows).starts = (List.range (rows.length + 1)).map fun r => start rows r % m := by
  rw [pack, close, entries_foldl_push, starts_foldl_push, List.range_succ, List.map_append]
  simp [start_length]

/-- What is read for a row of the packed table. -/
theorem get_pack (inside : r < rows.length) :
    (pack m rows).get r = slice rows.flatten (start rows r % m) (start rows (r + 1) % m) := by
  have first : (pack m rows).starts[r]? = some (start rows r % m) := by
    rw [starts_pack, List.getElem?_map, List.getElem?_range (by omega), Option.map_some]
  have second : (pack m rows).starts[r + 1]? = some (start rows (r + 1) % m) := by
    rw [starts_pack, List.getElem?_map, List.getElem?_range (by omega), Option.map_some]
  rw [Rows.get, first, second, entries_pack]
  rfl

/-- As long as the entries stay below the modulus every row is read back. -/
theorem get_pack_of_lt (short : rows.flatten.length < m) (here : rows[r]? = some row) : (pack m rows).get r = some row := by
  obtain ⟨inside, -⟩ := List.getElem?_eq_some_iff.mp here
  have first := @start_le _ rows r
  have second := @start_le _ rows (r + 1)
  rw [get_pack inside, Nat.mod_eq_of_lt (by omega), Nat.mod_eq_of_lt (by omega), slice_start here]

/-- Entries that reach `m` do so within one of the rows. -/
theorem exists_crossing (long : m ≤ rows.flatten.length) (pos : 0 < m) :
    ∃ r row, rows[r]? = some row ∧ start rows r < m ∧ m ≤ start rows (r + 1) := by
  have reaches : ∃ n, m ≤ start rows n := ⟨rows.length, start_length.symm ▸ long⟩
  classical
  have least := Nat.find_spec reaches
  have below : ∀ n < Nat.find reaches, start rows n < m := fun n less => Nat.lt_of_not_le (Nat.find_min reaches less)
  have upper : Nat.find reaches ≤ rows.length := Nat.find_min' reaches (start_length.symm ▸ long)
  cases at_ : Nat.find reaches with
  | zero =>
    rw [at_] at least
    rw [start_zero] at least
    omega
  | succ r =>
    rw [at_] at least below upper
    exact ⟨r, rows[r], List.getElem?_eq_getElem (by omega), below r (by omega), least⟩

/-- The rows are read back, all of them, exactly when the entries stay below the modulus: the row in which they reach it
ends before it begins, or is cut short. -/
theorem forall_get_pack_iff (pos : 0 < m) :
    (∀ r row, rows[r]? = some row → (pack m rows).get r = some row) ↔ rows.flatten.length < m := by
  constructor
  · intro each
    by_contra long
    obtain ⟨r, row, here, before, crossed⟩ := exists_crossing (Nat.le_of_not_lt long) pos
    obtain ⟨inside, -⟩ := List.getElem?_eq_some_iff.mp here
    have read := each r row here
    rw [get_pack inside] at read
    have short := length_of_slice read
    have next := start_succ here
    have wrapped := Nat.mod_lt (start rows (r + 1)) pos
    rw [Nat.mod_eq_of_lt before] at short
    omega
  · exact fun short r row here => get_pack_of_lt short here

end Pack

end Rows

end Ctadl.Collections
