import Std.Data.HashMap.Lemmas
import Std.Data.HashSet.Lemmas
import Mathlib.Data.List.Nodup
import Mathlib.Data.Finset.Card
import Mathlib.Data.Finset.Insert

/-! # The rows of a map of collections

A map from keys to collections of rows lists every row of every collection under its key. The listing
repeats nothing when no collection does, so a counter can be compared with it one row at a time.
-/

namespace Ctadl.Datalog

open Std

variable {K V L : Type} [BEq K] [LawfulBEq K] [Hashable K]

/-- Every row of every collection, with its key. -/
def keyedRows (m : HashMap K V) (rows : V → List L) : List (K × L) :=
  m.toList.flatMap fun entry => (rows entry.2).map (entry.1, ·)

theorem mem_keyedRows {m : HashMap K V} {rows : V → List L} {k : K} {row : L} :
    (k, row) ∈ keyedRows m rows ↔ ∃ v, m[k]? = some v ∧ row ∈ rows v := by
  simp only [keyedRows, List.mem_flatMap, List.mem_map, Prod.mk.injEq, Prod.exists,
    HashMap.mem_toList_iff_getElem?_eq_some]
  constructor
  · rintro ⟨_, v, found, _, member, rfl, rfl⟩
    exact ⟨v, found, member⟩
  · rintro ⟨v, found, member⟩
    exact ⟨k, v, found, row, member, rfl, rfl⟩

theorem nodup_keyedRows {m : HashMap K V} {rows : V → List L} (each : ∀ (k : K) (v : V), m[k]? = some v → (rows v).Nodup) :
    (keyedRows m rows).Nodup := by
  refine List.nodup_flatMap.mpr ⟨fun entry member => ?_, ?_⟩
  · exact (each entry.1 entry.2 (HashMap.mem_toList_iff_getElem?_eq_some.mp member)).map
      fun _ _ same => (Prod.mk.inj same).2
  · refine HashMap.distinct_keys_toList.imp fun {a b} other => ?_
    intro pair left right
    obtain ⟨_, -, rfl⟩ := List.mem_map.mp left
    obtain ⟨_, -, same⟩ := List.mem_map.mp right
    exact absurd (Prod.mk.inj same).1.symm (by simpa using other)

theorem nodup_toList (set : HashSet K) : set.toList.Nodup :=
  HashSet.distinct_toList.imp fun other => by simpa using other

theorem nodup_keys_toList (m : HashMap K V) : (m.toList.map Prod.fst).Nodup := by
  rw [HashMap.map_fst_toList_eq_keys]
  exact HashMap.nodup_keys

/-- A listing without repetition that gains one row is one longer. -/
theorem length_of_mem_iff {xs ys : List L} {row : L} (nodup : xs.Nodup) (nodup' : ys.Nodup) (fresh : row ∉ xs)
    (mem : ∀ y, y ∈ ys ↔ y = row ∨ y ∈ xs) : ys.length = xs.length + 1 := by
  refine (List.perm_ext_iff_of_nodup nodup' (List.nodup_cons.mpr ⟨fresh, nodup⟩)).mpr (fun y => ?_) |>.length_eq
  rw [mem, List.mem_cons]

/-- Two listings without repetition of the same rows are as long. -/
theorem length_eq_of_mem_iff {xs ys : List L} (nodup : xs.Nodup) (nodup' : ys.Nodup) (mem : ∀ y, y ∈ ys ↔ y ∈ xs) :
    ys.length = xs.length :=
  ((List.perm_ext_iff_of_nodup nodup' nodup).mpr mem).length_eq

/-- Replacing the collection at a key changes the number of rows by the difference of the two. -/
theorem length_keyedRows_insert {m : HashMap K V} {rows : V → List L} {k : K} {v : V}
    (each : ∀ (k : K) (v : V), m[k]? = some v → (rows v).Nodup) (nodup : (rows v).Nodup) :
    (keyedRows (m.insert k v) rows).length + (m[k]?.elim [] rows).length =
      (keyedRows m rows).length + (rows v).length := by
  let rest := (keyedRows m rows).filter fun row => !(row.1 == k)
  have keyed : ∀ xs : List L, xs.Nodup → (rest ++ xs.map (k, ·)).Nodup := fun xs distinct => by
    refine List.nodup_append.mpr ⟨(nodup_keyedRows each).filter _, distinct.map fun _ _ same => (Prod.mk.inj same).2, ?_⟩
    rintro a left b right rfl
    obtain ⟨x, -, rfl⟩ := List.mem_map.mp right
    simpa using (List.mem_filter.mp left).2
  have old : (m[k]?.elim [] rows).Nodup := by
    cases found : m[k]? with
    | none => exact List.nodup_nil
    | some w => exact each k w found
  have before : (keyedRows m rows).Perm (rest ++ (m[k]?.elim [] rows).map (k, ·)) := by
    refine (List.perm_ext_iff_of_nodup (nodup_keyedRows each) (keyed _ old)).mpr fun row => ?_
    obtain ⟨k', x⟩ := row
    by_cases here : k = k'
    · subst here
      cases found : m[k]? <;> simp [rest, mem_keyedRows, found]
    · simp [rest, here, Ne.symm here]
  have each' : ∀ (k' : K) (w : V), (m.insert k v)[k']? = some w → (rows w).Nodup := fun k' w found => by
    by_cases here : k = k'
    · subst here
      obtain rfl : v = w := by simpa using found
      exact nodup
    · exact each k' w (by simpa [HashMap.getElem?_insert, here] using found)
  have after : (keyedRows (m.insert k v) rows).Perm (rest ++ (rows v).map (k, ·)) := by
    refine (List.perm_ext_iff_of_nodup (nodup_keyedRows each') (keyed _ nodup)).mpr fun row => ?_
    obtain ⟨k', x⟩ := row
    by_cases here : k = k'
    · subst here
      simp [rest, mem_keyedRows]
    · simp [rest, mem_keyedRows, HashMap.getElem?_insert, here, Ne.symm here]
  have left := before.length_eq
  have right := after.length_eq
  simp only [List.length_append, List.length_map] at left right
  omega

end Ctadl.Datalog
