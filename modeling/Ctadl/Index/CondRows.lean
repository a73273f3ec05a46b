import Ctadl.Index.CondTrie

/-! # Reading the store

Between merges a fact may be in both halves of a store; after one it is in at most one of them. Then the
rows give each fact once, the length counts them, and a group or the rows at a path are those of the whole
store with that key.
-/

namespace Ctadl.Index

open Std Datalog

variable {h : HybridContext} {K1 K2 P A B L X Y : Type} [DecidableEq K1] [Hashable K1] [DecidableEq K2] [Hashable K2]
  [DecidableEq P] [Hashable P] [DecidableEq A] [Hashable A] [DecidableEq B] [Hashable B]

/-- A lookup lists some rows: each key once, under its condition, and nothing only if there are none. -/
def Lists (found : Option (List (L × CondOf h))) (row : L → CondOf h → Prop) : Prop :=
  match found with
  | none => ∀ l c, ¬row l c
  | some rows => rows ≠ [] ∧ (rows.map Prod.fst).Nodup ∧ ∀ l c, (l, c) ∈ rows ↔ row l c

theorem Lists.congr {found : Option (List (L × CondOf h))} {row row' : L → CondOf h → Prop} (lists : Lists found row)
    (same : ∀ l c, row l c ↔ row' l c) : Lists found row' := by
  obtain rfl : row = row' := funext fun l => funext fun c => propext (same l c)
  exact lists

/-- Unconditional rows. -/
theorem mem_unconditional {xs : List L} {l : L} {c : CondOf h} : (l, c) ∈ xs.map (·, ⊤) ↔ c = ⊤ ∧ l ∈ xs := by
  rw [List.mem_map]
  constructor
  · rintro ⟨_, member, same⟩
    obtain ⟨rfl, rfl⟩ := Prod.mk.inj same
    exact ⟨rfl, member⟩
  · rintro ⟨rfl, member⟩
    exact ⟨l, member, rfl⟩

theorem fst_unconditional {xs : List L} : xs.map (Prod.fst ∘ fun l => (l, (⊤ : CondOf h))) = xs := List.map_id _

/-- A lookup in the two halves of the store, where no key is in both. -/
theorem lists_halves {always : Option X} {xs : X → List L} {cond : Option Y} {ys : Y → List (L × CondOf h)}
    (left : ∀ x, always = some x → xs x ≠ [] ∧ (xs x).Nodup)
    (right : ∀ y, cond = some y → ys y ≠ [] ∧ ((ys y).map Prod.fst).Nodup)
    (apart : ∀ x y l c, always = some x → cond = some y → l ∈ xs x → (l, c) ∉ ys y) :
    Lists (if always.isNone && cond.isNone then none
      else some ((always.toList.flatMap fun x => (xs x).map (·, ⊤)) ++ cond.toList.flatMap ys))
      fun l c => (c = ⊤ ∧ ∃ x, always = some x ∧ l ∈ xs x) ∨ ∃ y, cond = some y ∧ (l, c) ∈ ys y := by
  cases always with
  | none =>
    cases cond with
    | none => simp [Lists]
    | some y =>
      obtain ⟨some, nodup⟩ := right y rfl
      simp [Lists, some, nodup]
  | some x =>
    obtain ⟨some, nodup⟩ := left x rfl
    cases cond with
    | none => simp [Lists, some, nodup, fst_unconditional, mem_unconditional]
    | some y =>
      obtain ⟨-, nodup'⟩ := right y rfl
      have both : (xs x ++ (ys y).map Prod.fst).Nodup := by
        refine List.nodup_append.mpr ⟨nodup, nodup', ?_⟩
        rintro l inside _ member rfl
        obtain ⟨⟨l', c⟩, leaf, rfl⟩ := List.mem_map.mp member
        exact apart x y l' c rfl rfl inside leaf
      simp [Lists, some, both, fst_unconditional, mem_unconditional]

namespace CondTrie

variable {s : CondTrie h K1 K2 P A B} {f : Fact K1 K2 P A B} {c : CondOf h} {k : K1 × K2} {p : P}

theorem condAt_eq_some (exact : s.Exact) : s.condAt f = some c ↔
    (c = ⊤ ∧ s.always.contains f = true) ∨ CondLeaves.at' s.cond f = some c := by
  rw [condAt_eq]
  split_ifs with inside
  · simp [inside, exact.apart f inside, eq_comm]
  · simp [inside]

theorem mem_rows (exact : s.Exact) : (f, c) ∈ s.rows ↔ s.condAt f = some c := by
  rw [condAt_eq_some exact, rows, List.mem_append, mem_unconditional, LocalsIndCommon.mem_rows, CondLeaves.mem_rows]

/-- Every fact has at most one row. -/
theorem nodup_rows (exact : s.Exact) : (s.rows.map Prod.fst).Nodup := by
  rw [rows, List.map_append, List.map_map, fst_unconditional]
  refine List.nodup_append.mpr ⟨LocalsIndCommon.nodup_rows, CondLeaves.nodup_rows_fst, ?_⟩
  rintro f inside _ member rfl
  have leaf := exact.apart f (LocalsIndCommon.mem_rows.mp inside)
  have held := CondLeaves.mem_facts.mp member
  simp [leaf] at held

theorem len_eq (wf : s.Wf) : s.len = s.rows.length := by
  rw [len, rows, wf.always.len, wf.len]
  simp

/-- The leaves of a group. -/
theorem group_leaves (k : K1 × K2) : (if s.cond.isEmpty then none else s.cond[k]?) = s.cond[k]? := by
  split_ifs with empty
  · exact (CondLeaves.getElem?_of_isEmpty empty).symm
  · rfl

/-- The conditional rows of a group, as the group lists them. -/
theorem mem_leaves {leaves : HashMap P (HashMap (A × B) (CondOf h))} {l : P × A × B} :
    (l, c) ∈ (keyedRows leaves HashMap.toList).map (fun row => ((row.1, row.2.1), row.2.2)) ↔
      leaves[l.1]?.bind (·[l.2]?) = some c := by
  obtain ⟨p, ab⟩ := l
  rw [Option.bind_eq_some_iff]
  simp only [List.mem_map, Prod.mk.injEq]
  constructor
  · rintro ⟨⟨p', ab', c'⟩, member, ⟨rfl, rfl⟩, rfl⟩
    obtain ⟨abs, path, member⟩ := mem_keyedRows.mp member
    exact ⟨abs, path, HashMap.mem_toList_iff_getElem?_eq_some.mp member⟩
  · rintro ⟨abs, path, found⟩
    exact ⟨(p, ab, c), mem_keyedRows.mpr ⟨abs, path, HashMap.mem_toList_iff_getElem?_eq_some.mpr found⟩, ⟨rfl, rfl⟩, rfl⟩

theorem nodup_leaves {leaves : HashMap P (HashMap (A × B) (CondOf h))} :
    (((keyedRows leaves HashMap.toList).map fun row => ((row.1, row.2.1), row.2.2)).map Prod.fst).Nodup := by
  refine List.Nodup.map_on ?_ (List.Nodup.map ?_ (nodup_keyedRows fun _ abs _ => (nodup_keys_toList abs).of_map))
  · rintro ⟨l, c⟩ member ⟨_, c'⟩ member' rfl
    rw [mem_leaves] at member member'
    rw [Option.some.inj (member.symm.trans member')]
  · rintro ⟨p, ab, c⟩ ⟨p', ab', c'⟩ same
    simpa [and_assoc] using same

/-- A map that is not empty has something to look up. -/
theorem exists_getElem? {K V : Type} [BEq K] [LawfulBEq K] [Hashable K] {m : HashMap K V} (some : m.isEmpty = false) :
    ∃ (k : K) (v : V), m[k]? = .some v := by
  obtain ⟨k, member⟩ := HashMap.isEmpty_eq_false_iff_exists_mem.mp some
  exact ⟨k, m[k], HashMap.getElem?_eq_some_getElem member⟩

/-- A group lists the rows of the store with its key. -/
theorem group_lists (exact : s.Exact) : Lists (s.group k) fun l c => s.condAt (k, l) = some c := by
  have always : ∀ l : P × A × B, s.always.contains (k, l) = true ↔ ∃ g, s.always.fwd[k]? = some g ∧ l ∈ g.iter := by
    rintro ⟨p, a, b⟩
    simp only [LocalsIndCommon.contains, Option.any_eq_true, PathGroup.mem_iter]
  have cond : ∀ (l : P × A × B) c, CondLeaves.at' s.cond (k, l) = some c ↔ ∃ leaves, s.cond[k]? = some leaves ∧
      (l, c) ∈ (keyedRows leaves HashMap.toList).map (fun row => ((row.1, row.2.1), row.2.2)) := by
    intro l c
    simp only [mem_leaves, CondLeaves.at', Option.bind_assoc]
    exact Option.bind_eq_some_iff
  unfold group
  rw [group_leaves]
  refine (lists_halves (fun g found => ?_) (fun leaves found => ⟨?_, nodup_leaves⟩)
    fun g leaves l c found found' inside member => ?_).congr fun l c => ?_
  · exact ⟨(exact.always.groups k g found).2, PathGroup.nodup_iter⟩
  · obtain ⟨nonempty, paths⟩ := exact.full k leaves found
    obtain ⟨p, abs, path⟩ := exists_getElem? nonempty
    obtain ⟨ab, c, leaf⟩ := exists_getElem? (paths p abs path)
    exact List.ne_nil_of_mem (mem_leaves.mpr (by rw [path]; exact leaf : leaves[(p, ab).1]?.bind (·[(p, ab).2]?) = some c))
  · have none := exact.apart (k, l) ((always l).mpr ⟨g, found, inside⟩)
    have some := (cond l c).mpr ⟨leaves, found', member⟩
    simp [none] at some
  · rw [condAt_eq_some exact, always, cond]

/-- So do the rows at a path. -/
theorem get_lists (exact : s.Exact) : Lists (s.get k p) fun l c => s.condAt (k, p, l) = some c := by
  have always : ∀ l : A × B, s.always.contains (k, p, l) = true ↔
      ∃ leaves, s.always.fwd[k]?.bind (·.get p) = some leaves ∧ l ∈ leaves := by
    rintro ⟨a, b⟩
    unfold LocalsIndCommon.contains
    dsimp only
    cases found : s.always.fwd[k]? with
    | none => simp
    | some g =>
      have spec := PathGroup.get_spec (exact.always.groups k g found).1 p
      cases got : g.get p with
      | none => simp_all
      | some leaves => simp_all
  have cond : ∀ (l : A × B) c, CondLeaves.at' s.cond (k, p, l) = some c ↔
      ∃ abs, s.cond[k]?.bind (·[p]?) = some abs ∧ (l, c) ∈ abs.toList := by
    intro l c
    simp only [HashMap.mem_toList_iff_getElem?_eq_some, CondLeaves.at']
    exact Option.bind_eq_some_iff
  have leaves : (if s.cond.isEmpty then none else s.cond[k]?.bind (·[p]?)) = s.cond[k]?.bind (·[p]?) := by
    split_ifs with empty
    · rw [CondLeaves.getElem?_of_isEmpty empty]
      rfl
    · rfl
  unfold get
  rw [leaves]
  refine (lists_halves (fun leaves found => ?_) (fun abs found => ⟨?_, ?_⟩)
    fun leaves abs l c found found' inside member => ?_).congr fun l c => ?_
  · obtain ⟨g, group, got⟩ := Option.bind_eq_some_iff.mp found
    have spec := PathGroup.get_spec (exact.always.groups k g group).1 p
    rw [got] at spec
    exact ⟨spec.1, spec.2.1⟩
  · obtain ⟨leaves, group, path⟩ := Option.bind_eq_some_iff.mp found
    obtain ⟨ab, c, leaf⟩ := exists_getElem? ((exact.full k leaves group).2 p abs path)
    exact List.ne_nil_of_mem (HashMap.mem_toList_iff_getElem?_eq_some.mpr leaf)
  · exact nodup_keys_toList abs
  · have none := exact.apart (k, p, l) ((always l).mpr ⟨leaves, found, inside⟩)
    have some := (cond l c).mpr ⟨abs, found', member⟩
    simp [none] at some
  · rw [condAt_eq_some exact, always, cond]

/-- Everything that reads the store reads the same rows, and no fact has two. -/
structure Consistent (s : CondTrie h K1 K2 P A B) : Prop where
  unique : (s.rows.map Prod.fst).Nodup
  counted : s.len = s.rows.length
  condAt : ∀ f c, (f, c) ∈ s.rows ↔ s.condAt f = some c
  group : ∀ k, Lists (s.group k) fun l c => ((k, l), c) ∈ s.rows
  get : ∀ k p, Lists (s.get k p) fun l c => ((k, p, l), c) ∈ s.rows

theorem Exact.consistent (exact : s.Exact) : s.Consistent where
  unique := nodup_rows exact
  counted := len_eq exact.toWf
  condAt _ _ := mem_rows exact
  group _ := (group_lists exact).congr fun _ _ => (mem_rows exact).symm
  get _ _ := (get_lists exact).congr fun _ _ => (mem_rows exact).symm

end CondTrie

end Ctadl.Index
