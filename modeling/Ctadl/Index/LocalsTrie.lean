import Ctadl.Index.PathGroup

/-! # The store of unconditional rows

A forward map from the first two columns to the group of the other three, with a count of the rows.
-/

namespace Ctadl.Index

open Std Datalog

variable {K1 K2 P A B : Type} [DecidableEq K1] [Hashable K1] [DecidableEq K2] [Hashable K2] [DecidableEq P] [Hashable P]
  [DecidableEq A] [Hashable A] [DecidableEq B] [Hashable B]

/-- The five columns of a row, grouped as the store keys them. -/
abbrev Fact (K1 K2 P A B : Type) := (K1 × K2) × P × A × B

structure LocalsIndCommon (K1 K2 P A B : Type) [DecidableEq K1] [Hashable K1] [DecidableEq K2] [Hashable K2]
    [DecidableEq P] [Hashable P] [DecidableEq A] [Hashable A] [DecidableEq B] [Hashable B] where
  fwd : HashMap (K1 × K2) (PathGroup P A B) := ∅
  len : Nat := 0

namespace LocalsIndCommon

def contains (s : LocalsIndCommon K1 K2 P A B) (f : Fact K1 K2 P A B) : Bool :=
  s.fwd[f.1]?.any (·.contains f.2.1 f.2.2.1 f.2.2.2)

/-- Inserts a row; whether it was new to this store. -/
def insert (s : LocalsIndCommon K1 K2 P A B) (f : Fact K1 K2 P A B) : LocalsIndCommon K1 K2 P A B × Bool :=
  let inserted := (s.fwd.getD f.1 .empty).insert f.2
  (⟨s.fwd.insert f.1 inserted.1, if inserted.2 then s.len + 1 else s.len⟩, inserted.2)

/-- One group of a merge. -/
def absorbGroup (s : LocalsIndCommon K1 K2 P A B) (entry : (K1 × K2) × PathGroup P A B) :
    LocalsIndCommon K1 K2 P A B :=
  match s.fwd[entry.1]? with
  | some group =>
    let merged := group.merge entry.2
    ⟨s.fwd.insert entry.1 merged.1, s.len + merged.2⟩
  | none => ⟨s.fwd.insert entry.1 entry.2, s.len + entry.2.len⟩

/-- The union with `other`, which the source empties. -/
def absorb (s other : LocalsIndCommon K1 K2 P A B) : LocalsIndCommon K1 K2 P A B :=
  other.fwd.toList.foldl absorbGroup s

/-- Every row. -/
def rows (s : LocalsIndCommon K1 K2 P A B) : List (Fact K1 K2 P A B) := keyedRows s.fwd PathGroup.iter

/-- The count is that of the rows, and no group is kept without one. -/
structure Wf (s : LocalsIndCommon K1 K2 P A B) : Prop where
  groups : ∀ (k : K1 × K2) g, s.fwd[k]? = some g → g.Wf ∧ g.iter ≠ []
  len : s.len = s.rows.length

variable {s : LocalsIndCommon K1 K2 P A B} {f : Fact K1 K2 P A B}

@[simp] theorem contains_empty : ({} : LocalsIndCommon K1 K2 P A B).contains f = false := by
  simp [contains]

theorem wf_empty : ({} : LocalsIndCommon K1 K2 P A B).Wf := ⟨by simp, by simp [rows, keyedRows]⟩

theorem mem_rows : f ∈ s.rows ↔ s.contains f = true := by
  obtain ⟨k, p, a, b⟩ := f
  simp only [rows, contains, mem_keyedRows, Option.any_eq_true]
  exact exists_congr fun g => and_congr_right fun _ => PathGroup.mem_iter

theorem nodup_rows : s.rows.Nodup := nodup_keyedRows fun _ _ _ => PathGroup.nodup_iter

/-- The group at a key, empty where there is none. -/
theorem contains_getD : s.contains f = (s.fwd.getD f.1 .empty).contains f.2.1 f.2.2.1 f.2.2.2 := by
  unfold contains
  rw [HashMap.getD_eq_getD_getElem?]
  cases s.fwd[f.1]? <;> simp

theorem Wf.group (wf : s.Wf) (k : K1 × K2) : (s.fwd.getD k .empty).Wf := by
  rw [HashMap.getD_eq_getD_getElem?]
  cases found : s.fwd[k]? with
  | none => exact PathGroup.wf_empty
  | some g => exact (wf.groups k g found).1

/-- The store with one group replaced by `g`. -/
theorem contains_replace {k : K1 × K2} {g : PathGroup P A B} {n : Nat} :
    (⟨s.fwd.insert k g, n⟩ : LocalsIndCommon K1 K2 P A B).contains f =
      if f.1 = k then g.contains f.2.1 f.2.2.1 f.2.2.2 else s.contains f := by
  unfold contains
  by_cases here : k = f.1
  · simp [here]
  · simp [HashMap.getElem?_insert, here, Ne.symm here]

theorem wf_groups_replace {k : K1 × K2} {g : PathGroup P A B} (wf : s.Wf) (good : g.Wf) (some : g.iter ≠ []) :
    ∀ (k' : K1 × K2) g', (s.fwd.insert k g)[k']? = .some g' → g'.Wf ∧ g'.iter ≠ [] := by
  intro k' g' found
  by_cases here : k = k'
  · subst here
    obtain rfl : g = g' := by simpa using found
    exact ⟨good, some⟩
  · exact wf.groups k' g' (by simpa [HashMap.getElem?_insert, here] using found)

/-- What an insertion does. -/
theorem insert_spec (wf : s.Wf) : (s.insert f).1.Wf ∧ (s.insert f).2 = !s.contains f ∧
    ∀ f', (s.insert f).1.contains f' = true ↔ f' = f ∨ s.contains f' = true := by
  have one := PathGroup.insert_spec f.2 (wf.group f.1)
  have contains : ∀ f', (s.insert f).1.contains f' = true ↔ f' = f ∨ s.contains f' = true := fun f' => by
    rw [insert, contains_replace]
    split_ifs with here
    · rw [one.contains, contains_getD (s := s) (f := f'), here]
      exact or_congr_left ⟨fun same => Prod.ext here same, fun same : f' = f => congrArg Prod.snd same⟩
    · exact (or_iff_right fun same : f' = f => here (congrArg Prod.fst same)).symm
  have added : (s.insert f).2 = !s.contains f := one.added.trans (by rw [contains_getD])
  refine ⟨⟨wf_groups_replace wf one.wf ?_, ?_⟩, added, contains⟩
  · exact List.ne_nil_of_mem (PathGroup.mem_iter.mpr ((one.contains f.2.1 f.2.2.1 f.2.2.2).mpr (.inl rfl)))
  · have mem : ∀ f', f' ∈ (s.insert f).1.rows ↔ f' = f ∨ f' ∈ s.rows := fun f' => by
      rw [mem_rows, contains, mem_rows]
    have len : (s.insert f).1.len = if (s.insert f).2 then s.len + 1 else s.len := rfl
    rw [len, added, wf.len]
    cases old : s.contains f with
    | false =>
      have fresh : f ∉ s.rows := fun member => by simp [mem_rows.mp member] at old
      exact (length_of_mem_iff nodup_rows nodup_rows fresh mem).symm
    | true =>
      exact (length_eq_of_mem_iff nodup_rows nodup_rows fun y =>
        (mem y).trans (or_iff_right_of_imp fun eq => eq ▸ mem_rows.mpr old)).symm

/-- One group of a merge adds its rows. -/
theorem absorbGroup_spec {k : K1 × K2} {g : PathGroup P A B} (wf : s.Wf) (good : g.Wf) (some : g.iter ≠ []) :
    (s.absorbGroup (k, g)).Wf ∧ ∀ f', (s.absorbGroup (k, g)).contains f' = true ↔
      s.contains f' = true ∨ (f'.1 = k ∧ g.contains f'.2.1 f'.2.2.1 f'.2.2.2 = true) := by
  have counts : ∀ h : PathGroup P A B, (keyedRows (s.fwd.insert k h) PathGroup.iter).length +
      (s.fwd[k]?.elim [] PathGroup.iter).length = s.len + h.iter.length := fun h => by
    rw [length_keyedRows_insert (fun _ _ _ => PathGroup.nodup_iter) PathGroup.nodup_iter, wf.len, rows]
  unfold absorbGroup
  dsimp only
  cases found : s.fwd[k]? with
  | none =>
    refine ⟨⟨wf_groups_replace wf good some, ?_⟩, fun f' => ?_⟩
    · have count := counts g
      simp only [found, Option.elim_none, List.length_nil, Nat.add_zero] at count
      exact (congrArg (s.len + ·) (PathGroup.len_eq good)).trans count.symm
    · rw [contains_replace]
      split_ifs with here
      · simp [contains, here, found]
      · simp [here]
  | some group =>
    obtain ⟨fine, -⟩ := wf.groups k group found
    obtain ⟨done, merged, len⟩ := PathGroup.merge_spec fine good
    have nonempty : (group.merge g).1.iter ≠ [] := by
      obtain ⟨⟨p, a, b⟩, member⟩ := List.exists_mem_of_ne_nil _ some
      exact List.ne_nil_of_mem (PathGroup.mem_iter.mpr ((merged p a b).mpr (.inr (PathGroup.mem_iter.mp member))))
    refine ⟨⟨wf_groups_replace wf done nonempty, ?_⟩, fun f' => ?_⟩
    · have count := counts (group.merge g).1
      simp only [found, Option.elim_some] at count
      rw [PathGroup.len_eq done, PathGroup.len_eq fine] at len
      change s.len + (group.merge g).2 = (keyedRows (s.fwd.insert k (group.merge g).1) PathGroup.iter).length
      omega
    · rw [contains_replace]
      split_ifs with here
      · simp [contains, here, found, merged]
      · simp [here]

/-- A merge is the union. -/
theorem absorb_spec {other : LocalsIndCommon K1 K2 P A B} (wf : s.Wf) (wf' : other.Wf) : (s.absorb other).Wf ∧
    ∀ f', (s.absorb other).contains f' = true ↔ s.contains f' = true ∨ other.contains f' = true := by
  have groups : ∀ (entries : List ((K1 × K2) × PathGroup P A B)) (s : LocalsIndCommon K1 K2 P A B), s.Wf →
      (∀ entry ∈ entries, entry.2.Wf ∧ entry.2.iter ≠ []) → (entries.foldl absorbGroup s).Wf ∧
      ∀ f', (entries.foldl absorbGroup s).contains f' = true ↔ s.contains f' = true ∨
        ∃ entry ∈ entries, f'.1 = entry.1 ∧ entry.2.contains f'.2.1 f'.2.2.1 f'.2.2.2 = true := by
    intro entries
    induction entries with
    | nil => exact fun s wf _ => ⟨wf, by simp⟩
    | cons entry entries ih =>
      intro s wf all
      obtain ⟨here, later⟩ := List.forall_mem_cons.mp all
      obtain ⟨one, contains⟩ := absorbGroup_spec (k := entry.1) wf here.1 here.2
      obtain ⟨done, contains'⟩ := ih _ one later
      refine ⟨done, fun f' => (contains' f').trans ?_⟩
      rw [contains, or_assoc, List.exists_mem_cons_iff]
  obtain ⟨done, contains⟩ := groups other.fwd.toList s wf fun entry member =>
    wf'.groups entry.1 entry.2 (HashMap.mem_toList_iff_getElem?_eq_some.mp member)
  refine ⟨done, fun f' => (contains f').trans (or_congr_right ?_)⟩
  unfold LocalsIndCommon.contains
  rw [Option.any_eq_true]
  constructor
  · rintro ⟨⟨k, g⟩, member, here, has⟩
    exact ⟨g, here ▸ HashMap.mem_toList_iff_getElem?_eq_some.mp member, has⟩
  · rintro ⟨g, found, has⟩
    exact ⟨(f'.1, g), HashMap.mem_toList_iff_getElem?_eq_some.mpr found, rfl, has⟩

end LocalsIndCommon

end Ctadl.Index
