import Ctadl.Cir.Location
import Ctadl.Cir.PathAlgebra
import Ctadl.Index.Admissible

/-! # The admissible paths are closed under a last `#value`

The paths of the program and the models and their concatenations one level deep go into one set. Once any of them mentions
`#value`, every member that does not is a base, and so is what stands before a last `#value`; the set is the bases and
each base's `#value`. So a path that was put in is a member exactly if it is not void, and `#value` can be appended to any.
-/

namespace Ctadl.Index

open Facts Cir PathSegment

/-- The model paths, with `deref` among them for a native-language import. -/
def modelPathsWith (modelPaths : List Path) (derefPaths : Bool) : List Path :=
  if derefPaths then modelPaths ++ [Path.fromAccesses [.deref]] else modelPaths

/-- The paths before they are closed under `#value`. -/
def combinedPaths (programPaths modelPaths : List Path) (derefPaths : Bool) : List Path :=
  programPaths ++ modelPathsWith modelPaths derefPaths ++
    (modelPathsWith modelPaths derefPaths).flatMap fun m => programPaths.flatMap fun p => [m.concat p, p.concat m]

theorem computePaths_eq (programPaths modelPaths : List Path) (derefPaths : Bool) :
    computePaths programPaths modelPaths derefPaths = withValuePaths (combinedPaths programPaths modelPaths derefPaths) := rfl

section Mentions

variable {out q : List PathSegment} {a : PathSegment}

/-- Normalisation neither makes nor loses a `#value`. -/
theorem value_mem_pushNormalized : .value ∈ pushNormalized out a ↔ .value ∈ out ∨ a = .value := by
  have popped {k : Int64} (last : out.getLast? = some (.offset k)) : .value ∈ out.dropLast ↔ .value ∈ out := by
    obtain ⟨init, rfl⟩ := List.getLast?_eq_some_iff.mp last
    simp
  cases a with
  | field name => simp [pushNormalized]
  | deref => simp [pushNormalized]
  | offset k =>
    simp only [pushNormalized, reduceCtorEq, or_false]
    split
    · rfl
    · rename_i last
      split_ifs <;> simp [popped last]
    · split_ifs <;> simp
  | value =>
    simp only [pushNormalized, or_true, iff_true]
    split_ifs with valued twice last
    · exact List.mem_of_getLast? twice
    · simp
    · exact List.mem_of_getLast? last
    · simp

theorem value_mem_concat (out q : List PathSegment) : .value ∈ concat out q ↔ .value ∈ out ∨ .value ∈ q := by
  induction q generalizing out with
  | nil => simp [concat]
  | cons a q ih =>
    change .value ∈ concat (pushNormalized out a) q ↔ _
    rw [ih, value_mem_pushNormalized, or_assoc, List.mem_cons, @eq_comm _ a]

/-- Some path of the program or the models mentions `#value` as soon as a concatenation does. -/
theorem combinedPaths_mention_iff (programPaths modelPaths : List Path) (derefPaths : Bool) :
    (∃ p ∈ combinedPaths programPaths modelPaths derefPaths, .value ∈ p.segs) ↔
      ∃ p ∈ programPaths ++ modelPathsWith modelPaths derefPaths, .value ∈ p.segs := by
  constructor
  · rintro ⟨c, member, value⟩
    rcases List.mem_append.mp member with plain | combined
    · exact ⟨c, plain, value⟩
    · obtain ⟨m, model, later⟩ := List.mem_flatMap.mp combined
      obtain ⟨p, program, shape⟩ := List.mem_flatMap.mp later
      have either : .value ∈ m.segs ∨ .value ∈ p.segs := by
        rcases List.mem_cons.mp shape with rfl | shape
        · rwa [Path.segs_concat, value_mem_concat] at value
        · rw [List.mem_singleton.mp shape, Path.segs_concat, value_mem_concat] at value
          exact value.symm
      rcases either with here | here
      · exact ⟨m, List.mem_append_right _ model, here⟩
      · exact ⟨p, List.mem_append_left _ program, here⟩
  · rintro ⟨p, member, value⟩
    exact ⟨p, List.mem_append_left _ member, value⟩

end Mentions

section Bases

variable {paths : List Path} {p b : Path}

theorem segs_concat_value (p : Path) : (p.concat VALUE_PATH).segs = pushNormalized p.segs .value := by
  have alone : VALUE_PATH.segs = [.value] := by decide
  rw [Path.segs_concat, alone]
  rfl

/-- `#value` absorbs itself. -/
theorem concat_value_idem (p : Path) : (p.concat VALUE_PATH).concat VALUE_PATH = p.concat VALUE_PATH := by
  apply Facts.Path.ext
  rw [segs_concat_value, segs_concat_value]
  obtain ⟨body, hard, ⟨k, shape⟩ | shape⟩ := p.clear.exists_body
  · rw [shape, pushNormalized_residue_value hard, pushNormalized_value_value]
  · rw [shape, pushNormalized_value_value, pushNormalized_value_value]

/-- A base's `#value` is its last segment. -/
theorem value_notMem_dropLast (free : .value ∉ b.segs) : .value ∉ (b.concat VALUE_PATH).segs.dropLast := by
  rw [segs_concat_value]
  obtain ⟨body, hard, ⟨k, shape⟩ | shape⟩ := b.clear.exists_body
  · rw [shape, pushNormalized_residue_value hard, List.dropLast_concat]
    rw [shape] at free
    exact fun member => free (List.mem_append_left _ member)
  · exact absurd (by simp [shape]) free

theorem isValue_iff {a : PathSegment} : a.isValue ↔ a = .value := by
  cases a <;> simp [isValue]

/-- A path contributes itself, or what stands before its last segment where that is its only `#value`. -/
theorem valueBase_eq_some_iff : valueBase p = some b ↔ .value ∉ b.segs ∧ (p = b ∨ p.segs = b.segs ++ [.value]) := by
  unfold valueBase
  cases found : p.segs.findIdx? (·.isValue) with
  | none =>
    have free : .value ∉ p.segs := fun member => by
      simpa [isValue] using List.findIdx?_eq_none_iff.mp found .value member
    constructor
    · intro same
      obtain rfl := Option.some.inj same
      exact ⟨free, .inl rfl⟩
    · rintro ⟨-, rfl | shape⟩
      · rfl
      · exact absurd (by simp [shape]) free
  | some i =>
    obtain ⟨bound, here, before⟩ := List.findIdx?_eq_some_iff_getElem.mp found
    have free : .value ∉ p.segs.take i := by
      intro member
      obtain ⟨j, less, at_j⟩ := List.mem_iff_getElem.mp member
      rw [List.getElem_take] at at_j
      exact before j (by simp only [List.length_take] at less; omega) (isValue_iff.mpr at_j)
    have split : p.segs = p.segs.take i ++ .value :: p.segs.drop (i + 1) := by
      rw [← isValue_iff.mp here, ← List.drop_eq_getElem_cons bound, List.take_append_drop]
    have front : (Path.fromAccesses (p.segs.take i)).segs = p.segs.take i :=
      normalize_of_clear (p.clear.of_isInfix (List.take_prefix i p.segs).isInfix)
    have mentions : .value ∈ p.segs := by
      rw [split]
      simp
    simp only
    split_ifs with last
    · have tail : p.segs.drop (i + 1) = [] := List.drop_eq_nil_of_le (by omega)
      rw [tail] at split
      constructor
      · intro same
        obtain rfl := Option.some.inj same
        exact ⟨front.symm ▸ free, .inr (front.symm ▸ split)⟩
      · rintro ⟨bare, rfl | shape⟩
        · exact absurd mentions bare
        · exact congrArg some (Facts.Path.ext (front.trans (List.append_cancel_right (split.symm.trans shape))))
    · refine iff_of_false id ?_
      rintro ⟨bare, rfl | shape⟩
      · exact bare mentions
      · -- the first `#value` is not in the base, so it is the last segment
        have length : p.segs.length = b.segs.length + 1 := by rw [shape, List.length_append, List.length_singleton]
        have inside : i < b.segs.length := by omega
        have value := isValue_iff.mp here
        simp only [shape, List.getElem_append_left inside] at value
        exact bare (value ▸ List.getElem_mem inside)

theorem mem_withValuePaths_iff (mentioned : ∃ p ∈ paths, .value ∈ p.segs) : p ∈ withValuePaths paths ↔
    ∃ b, (b = .empty ∨ ∃ q ∈ paths, valueBase q = some b) ∧ (p = b ∨ p = b.concat VALUE_PATH) := by
  have any : (paths.any fun p => p.segs.any (·.isValue)) = true := by
    simpa [List.any_eq_true, isValue_iff] using mentioned
  rw [withValuePaths, if_pos any]
  simp [List.mem_flatMap, List.mem_filterMap, or_assoc]

/-- Paths that do not mention `#value` are left alone. -/
theorem withValuePaths_of_unmentioned (unmentioned : ¬ ∃ p ∈ paths, .value ∈ p.segs) : withValuePaths paths = paths := by
  have none : ¬ (paths.any fun p => p.segs.any (·.isValue)) = true := by
    simpa [List.any_eq_true, isValue_iff] using unmentioned
  rw [withValuePaths, if_neg none]

/-- Nothing of the closed set has a segment after a `#value`. -/
theorem dropLast_of_mem_withValuePaths (mentioned : ∃ p ∈ paths, .value ∈ p.segs) (member : p ∈ withValuePaths paths) :
    .value ∉ p.segs.dropLast := by
  obtain ⟨b, base, shape⟩ := (mem_withValuePaths_iff mentioned).mp member
  have free : .value ∉ b.segs := by
    rcases base with rfl | ⟨q, -, based⟩
    · simp
    · exact (valueBase_eq_some_iff.mp based).1
  rcases shape with rfl | rfl
  · exact fun inside => free (List.dropLast_subset _ inside)
  · exact value_notMem_dropLast free

/-- A path that was put in stays unless a segment follows its `#value`. -/
theorem mem_withValuePaths_of_mem (member : p ∈ paths) : p ∈ withValuePaths paths ↔ .value ∉ p.segs.dropLast := by
  by_cases mentioned : ∃ p ∈ paths, .value ∈ p.segs
  · refine ⟨dropLast_of_mem_withValuePaths mentioned, fun last => ?_⟩
    rw [mem_withValuePaths_iff mentioned]
    by_cases value : .value ∈ p.segs
    · -- the only `#value` is the last segment
      obtain ⟨init, shape⟩ : ∃ init, p.segs = init ++ [.value] := by
        have nonempty := List.ne_nil_of_mem value
        have split := List.dropLast_append_getLast nonempty
        rw [← split, List.mem_append, List.mem_singleton] at value
        exact ⟨p.segs.dropLast, by rw [value.resolve_left last, split]⟩
      have clear : Clear (init ++ [.value]) := shape ▸ p.clear
      have free : .value ∉ init := by simpa [shape] using last
      refine ⟨.ofClear init clear.left, .inr ⟨p, member, valueBase_eq_some_iff.mpr ⟨free, .inr shape⟩⟩, .inr ?_⟩
      apply Facts.Path.ext
      rw [segs_concat_value, shape, Path.segs_ofClear, pushNormalized_of_clear clear]
    · exact ⟨p, .inr ⟨p, member, valueBase_eq_some_iff.mpr ⟨value, .inl rfl⟩⟩, .inl rfl⟩
  · rw [withValuePaths_of_unmentioned mentioned]
    exact iff_of_true member fun inside => mentioned ⟨p, member, List.dropLast_subset _ inside⟩

theorem concat_value_mem_withValuePaths (mentioned : ∃ p ∈ paths, .value ∈ p.segs)
    (member : p = .empty ∨ p ∈ withValuePaths paths) : p.concat VALUE_PATH ∈ withValuePaths paths := by
  rw [mem_withValuePaths_iff mentioned]
  rcases member with rfl | member
  · exact ⟨.empty, .inl rfl, .inr rfl⟩
  · obtain ⟨b, base, rfl | rfl⟩ := (mem_withValuePaths_iff mentioned).mp member
    · exact ⟨p, base, .inr rfl⟩
    · exact ⟨b, base, .inr (concat_value_idem b)⟩

end Bases

/-- What the admissible paths are: of the paths of the program and the models and their concatenations every one but the
void ones, and if `#value` is mentioned its closure under a last `#value`. -/
theorem computePaths_closed (programPaths modelPaths : List Path) (derefPaths : Bool) :
    (∀ p ∈ computePaths programPaths modelPaths derefPaths, isNormal p.segs) ∧
    (∀ p ∈ programPaths ++ modelPathsWith modelPaths derefPaths,
      p ∈ computePaths programPaths modelPaths derefPaths ↔ classify p.segs ≠ .void) ∧
    (∀ m ∈ modelPathsWith modelPaths derefPaths, ∀ p ∈ programPaths, ∀ c ∈ [m.concat p, p.concat m],
      c ∈ computePaths programPaths modelPaths derefPaths ↔ classify c.segs ≠ .void) ∧
    ((∃ p ∈ programPaths ++ modelPathsWith modelPaths derefPaths, .value ∈ p.segs) →
      (∀ p, p = .empty ∨ p ∈ computePaths programPaths modelPaths derefPaths →
        p.concat VALUE_PATH ∈ computePaths programPaths modelPaths derefPaths) ∧
      ∀ p ∈ computePaths programPaths modelPaths derefPaths, ∀ front rest, p.segs = front ++ .value :: rest → rest = []) ∧
    ((¬ ∃ p ∈ programPaths ++ modelPathsWith modelPaths derefPaths, .value ∈ p.segs) →
      computePaths programPaths modelPaths derefPaths = combinedPaths programPaths modelPaths derefPaths) := by
  rw [computePaths_eq, ← combinedPaths_mention_iff]
  have stays {p : Path} (member : p ∈ combinedPaths programPaths modelPaths derefPaths) :
      p ∈ withValuePaths (combinedPaths programPaths modelPaths derefPaths) ↔ classify p.segs ≠ .void := by
    rw [mem_withValuePaths_of_mem member, Ne, classify_eq_void_iff p.clear]
  refine ⟨fun p _ => isNormal_iff.mpr p.clear, fun p member => stays (List.mem_append_left _ member), ?_, ?_, ?_⟩
  · intro m model p program c shape
    exact stays (List.mem_append_right _ (List.mem_flatMap.mpr ⟨m, model, List.mem_flatMap.mpr ⟨p, program, shape⟩⟩))
  · intro mentioned
    refine ⟨fun p => concat_value_mem_withValuePaths mentioned, fun p member front rest split => ?_⟩
    have last := dropLast_of_mem_withValuePaths mentioned member
    by_contra more
    rw [split, List.dropLast_append_of_ne_nil (by simp), List.dropLast_cons_of_ne_nil more] at last
    simp at last
  · exact withValuePaths_of_unmentioned

/-- Of a native program that names `f.#value`: `deref.f.#value` is admissible, and so is `#value` alone. -/
theorem computePaths_closed_field :
    Path.fromAccesses [.deref, .field "f", .value] ∈ computePaths [.fromAccesses [.field "f", .value]] [] true ∧
      Path.empty.concat VALUE_PATH ∈ computePaths [.fromAccesses [.field "f", .value]] [] true := by
  obtain ⟨-, -, combined, closed, -⟩ := computePaths_closed [.fromAccesses [.field "f", .value]] [] true
  refine ⟨?_, (closed ⟨.fromAccesses [.field "f", .value], by decide, by decide⟩).1 .empty (.inl rfl)⟩
  exact (combined (.fromAccesses [.deref]) (by decide) (.fromAccesses [.field "f", .value]) (by decide)
    (.fromAccesses [.deref, .field "f", .value]) (by decide)).mpr (by decide)

end Ctadl.Index
