import Ctadl.Cir.Path

/-! # Locations, addresses and suffixes

A normal path is void when a field or `deref` follows its `#value`, an address when it ends in an
offset, and a location, a cell that holds labels, otherwise. `stripPrefix` recovers the suffix that a
front leaves of a path: a front that ends in an offset is rebased, and of the suffixes that a last
`#value` absorbs the shortest is taken. `concat_eq_iff` lists them all.
-/

namespace Ctadl.Cir

open PathSegment

variable {O : Type}

/-- What a normal path denotes. -/
inductive PathClass where
  /-- A field or `deref` after `#value`: it holds nothing and propagates nothing. -/
  | void
  /-- It ends in an offset: not a cell, its labels are its base's. -/
  | address
  /-- A cell carrying labels. -/
  | location
deriving DecidableEq, Repr

/-- Void, else address, else location. -/
def classify (segments : List (PathSegment O)) : PathClass :=
  if (segments.dropWhile fun s => !s.isValue).tail.any fun s => !s.soft then .void
  else
    match segments.getLast? with
    | some (.offset _) => .address
    | _ => .location

/-- The path before the trailing offset of an address; any other path as it is. -/
def locationOf (segments : List (PathSegment O)) : List (PathSegment O) :=
  match segments.getLast? with
  | some (.offset _) => segments.dropLast
  | _ => segments

/-- The shortest `t` with `front · t = path`, where both are normal. -/
def stripPrefix [Add O] [Neg O] [OfNat O 0] [DecidableEq O] (path front : List (PathSegment O)) :
    Option (List (PathSegment O)) :=
  match front.getLast? with
  | none => some path
  | some last =>
    let init := front.dropLast
    if path.take init.length = init then
      let rest := path.drop init.length
      match last with
      | .offset m =>
        let t := concat (normalize [.offset (-m)]) rest
        if concat front t = path then some t else none
      | seg =>
        match rest with
        | [] => none
        | head :: tail => if head = seg then some tail else none
    else none

section Classes

variable [OfNat O 0] {l : List (PathSegment O)}

omit [OfNat O 0] in
private theorem tail_dropWhile_any_iff {l : List (PathSegment O)} :
    ((l.dropWhile fun s => !s.isValue).tail.any fun s => !s.soft) ↔
      ∃ front rest s, l = front ++ .value :: rest ∧ s ∈ rest ∧ s.soft = false := by
  induction l with
  | nil => simp
  | cons a l ih =>
    by_cases value : a = .value
    · subst value
      have kept : ((.value :: l : List (PathSegment O)).dropWhile fun s => !s.isValue) = .value :: l := rfl
      simp only [kept, List.tail_cons, List.any_eq_true, Bool.not_eq_eq_eq_not, Bool.not_true]
      constructor
      · rintro ⟨s, here, hard⟩
        exact ⟨[], l, s, rfl, here, hard⟩
      · rintro ⟨front, rest, s, split, here, hard⟩
        cases front with
        | nil => exact ⟨s, by simp_all, hard⟩
        | cons b front => exact ⟨s, by simp_all, hard⟩
    · have skipped : ((a :: l).dropWhile fun s => !s.isValue) = l.dropWhile fun s => !s.isValue := by
        cases a <;> simp_all [isValue]
      rw [skipped, ih]
      constructor
      · rintro ⟨front, rest, s, rfl, here⟩
        exact ⟨a :: front, rest, s, rfl, here⟩
      · rintro ⟨front, rest, s, split, here⟩
        cases front with
        | nil => simp_all
        | cons b front =>
          simp only [List.cons_append, List.cons.injEq] at split
          exact ⟨front, rest, s, split.2, here⟩

/-- A normal path is void exactly when something follows a `#value`. -/
theorem classify_eq_void_iff (clear : Clear l) : classify l = .void ↔ .value ∈ l.dropLast := by
  have iff : classify l = .void ↔ ((l.dropWhile fun s => !s.isValue).tail.any fun s => !s.soft) := by
    unfold classify
    split_ifs with h
    · simp [h]
    · simp only [h, Bool.false_eq_true, iff_false]
      split <;> simp
  rw [iff, tail_dropWhile_any_iff]
  constructor
  · rintro ⟨front, rest, s, rfl, here, -⟩
    rw [List.dropLast_append_of_ne_nil (by simp), List.dropLast_cons_of_ne_nil (List.ne_nil_of_mem here)]
    simp
  · intro member
    obtain ⟨front, rest, split⟩ := List.append_of_mem member
    have nonempty : l ≠ [] := by rintro rfl; simp at member
    have whole : l = front ++ .value :: (rest ++ [l.getLast nonempty]) := by
      conv_lhs => rw [← List.dropLast_append_getLast nonempty, split]
      simp
    have after : Clear (.value :: (rest ++ [l.getLast nonempty])) := (whole ▸ clear).right
    cases rest with
    | nil => exact ⟨_, _, _, whole, .head _, after.hard_of_soft rfl⟩
    | cons b rest => exact ⟨_, _, _, whole, .head _, after.hard_of_soft rfl⟩

/-- A normal path is a location exactly when it ends at its `#value` and not in an offset. -/
theorem classify_eq_location_iff (clear : Clear l) :
    classify l = .location ↔ .value ∉ l.dropLast ∧ ∀ k, l.getLast? ≠ some (.offset k) := by
  rw [← classify_eq_void_iff clear]
  unfold classify
  split_ifs with void
  · simp
  · split <;> simp_all

theorem classify_eq_address_iff (clear : Clear l) :
    classify l = .address ↔ .value ∉ l.dropLast ∧ ∃ k, l.getLast? = some (.offset k) := by
  rw [← classify_eq_void_iff clear]
  unfold classify
  split_ifs with void
  · simp
  · split <;> simp_all

omit [OfNat O 0] in
private theorem mem_dropLast_append {a : PathSegment O} {l r : List (PathSegment O)} (member : a ∈ l.dropLast) :
    a ∈ (l ++ r).dropLast := by
  cases r with
  | nil => simpa using member
  | cons b r =>
    rw [List.dropLast_append_of_ne_nil (by simp)]
    exact List.mem_append_left _ (List.dropLast_subset l member)

/-- Nothing that is appended brings a void path back. -/
theorem classify_concat_of_void [Add O] [DecidableEq O] {t : List (PathSegment O)} (clear : Clear l)
    (void : classify l = .void) : classify (concat l t) = .void := by
  induction t generalizing l with
  | nil => exact void
  | cons a t ih =>
    refine ih (clear_pushNormalized clear a) ?_
    rw [classify_eq_void_iff (clear_pushNormalized clear a)]
    rw [classify_eq_void_iff clear] at void
    have extended : ∀ r, .value ∈ (l ++ r).dropLast := fun r => mem_dropLast_append void
    -- A popped last offset leaves a hard segment last, so the `#value` is still before it.
    have popped : ∀ k, l.getLast? = some (.offset k) → .value ∈ l.dropLast.dropLast := by
      intro k last
      obtain ⟨init, rfl⟩ := List.getLast?_eq_some_iff.mp last
      simp only [List.dropLast_concat] at void ⊢
      have nonempty : init ≠ [] := List.ne_nil_of_mem void
      have hard := (Clear.append_iff.mp clear).2.2 _ (List.getLast?_eq_some_getLast nonempty) (.offset k) rfl
      rw [← List.dropLast_append_getLast nonempty, List.mem_append, List.mem_singleton] at void
      refine void.resolve_right fun valued => hard ?_
      rw [← valued]
      exact ⟨rfl, rfl⟩
    have replaced : ∀ x, .value ∈ (l.dropLast ++ [x]).dropLast := by
      intro x
      rw [List.dropLast_concat]
      exact void
    cases a with
    | field name | deref => exact extended _
    | offset k =>
      simp only [pushNormalized]
      cases last : l.getLast? with
      | none => split_ifs <;> [exact void; exact extended _]
      | some b =>
        cases b with
        | value => exact void
        | offset prev =>
          simp only
          split_ifs <;> [exact popped prev last; exact replaced _]
        | field name | deref =>
          simp only
          split_ifs <;> [exact void; exact extended _]
    | value =>
      simp only [pushNormalized]
      cases last : l.getLast? with
      | none => simpa [last] using extended [.value]
      | some b =>
        cases b with
        | value => simpa [last, isOffset] using void
        | offset prev =>
          simp only [isOffset, Option.map_some, Option.getD_some, if_true]
          split_ifs <;> [exact popped prev last; exact replaced _]
        | field name | deref => simpa [last, isOffset] using extended [.value]

end Classes

section Suffixes

variable {p s t init : List PathSegment} {m : Int64}

/-- Before a last offset or `#value` of a normal path stands neither. -/
private theorem init_hard {a b : PathSegment} (clear : Clear (init ++ [a])) (soft : a.soft)
    (before : init.getLast? = some b) : b.soft = false := by
  have apart := (Clear.append_iff.mp clear).2.2 b before a rfl
  simpa [soft] using apart

private theorem push_offset_offset (init : List PathSegment) (m n : Int64) :
    pushNormalized (init ++ [.offset m]) (.offset n) =
      if m + n = 0 then init else init ++ [.offset (m + n)] := by
  simp [pushNormalized]

private theorem push_offset_value (init : List PathSegment) (clear : Clear (init ++ [.offset m])) :
    pushNormalized (init ++ [.offset m]) .value = init ++ [.value] := by
  have plain : init.getLast? ≠ some .value := fun last => by simpa [soft] using init_hard clear rfl last
  simp [pushNormalized, isOffset, plain]

private theorem push_hard {a : PathSegment} (hard : a.soft = false) (l : List PathSegment) :
    pushNormalized l a = l ++ [a] := by
  cases a <;> simp_all [pushNormalized, soft]

/-- Rebasing the front's offset undoes it. -/
private theorem rebase_eq (clearS : Clear (init ++ [.offset m])) (clearT : Clear t)
    (ends : ∀ k, (concat (init ++ [.offset m]) t).getLast? ≠ some (.offset k)) :
    ∃ rest, concat (init ++ [.offset m]) t = init ++ rest ∧ concat (normalize [.offset (-m)]) rest = t := by
  have nonzero : m ≠ 0 := by
    rintro rfl
    exact clearS.2 (by simp)
  have away : -m ≠ 0 := by
    intro zero
    exact nonzero (by rw [← Int64.neg_neg (a := m), zero]; rfl)
  have single : Clear [PathSegment.offset (-m)] := Clear.singleton (by simpa using away)
  rw [normalize_of_clear single]
  cases t with
  | nil => simp [concat] at ends
  | cons a t =>
    have whole := clear_concat clearS (a :: t)
    have split := concat_cons_of_clear clearS clearT
    have back : ∀ {b : PathSegment} {l : List PathSegment}, Clear (b :: l) →
        concat [PathSegment.offset (-m)] (b :: l) = pushNormalized [.offset (-m)] b ++ l :=
      fun clear => concat_cons_of_clear single clear
    have hardCase : a.soft = false → ∃ rest, concat (init ++ [.offset m]) (a :: t) = init ++ rest ∧
        concat [.offset (-m)] rest = a :: t := by
      intro hard
      rw [push_hard hard, List.append_assoc, List.append_assoc] at split
      refine ⟨.offset m :: a :: t, split, ?_⟩
      rw [back (Clear.right (split ▸ whole))]
      have undone := push_offset_offset [] (-m) m
      simp only [List.nil_append, Int64.add_left_neg, ↓reduceIte] at undone
      rw [undone, List.nil_append]
    cases a with
    | field name => exact hardCase rfl
    | deref => exact hardCase rfl
    | value =>
      rw [push_offset_value init clearS, List.append_assoc] at split
      refine ⟨.value :: t, split, ?_⟩
      rw [back (Clear.right (split ▸ whole))]
      have absorbed := push_offset_value [] single
      rw [List.nil_append] at absorbed
      rw [absorbed, List.nil_append, List.singleton_append]
    | offset n =>
      rw [push_offset_offset] at split
      split_ifs at split with cancel
      · have opposite : n = -m := by
          have := congrArg (-m + ·) cancel
          simpa [← Int64.add_assoc, Int64.add_left_neg] using this
        refine ⟨t, split, ?_⟩
        rw [← opposite]
        exact concat_of_clear clearT
      · rw [List.append_assoc] at split
        refine ⟨.offset (m + n) :: t, split, ?_⟩
        rw [back (Clear.right (split ▸ whole))]
        have undone := push_offset_offset [] (-m) (m + n)
        rw [← Int64.add_assoc, Int64.add_left_neg, Int64.zero_add] at undone
        have nonzeroN : n ≠ 0 := by
          rintro rfl
          exact clearT.head_ne rfl
        rw [if_neg nonzeroN, List.nil_append, List.nil_append] at undone
        rw [undone, List.singleton_append]

/-- What `stripPrefix` finds completes the front to the path. -/
theorem concat_of_stripPrefix (clear : Clear p) (found : stripPrefix p s = some t) : concat s t = p := by
  unfold stripPrefix at found
  cases last : s.getLast? with
  | none =>
    obtain rfl := List.getLast?_eq_none_iff.mp last
    simp only [last, Option.some.injEq] at found
    subst found
    exact normalize_of_clear clear
  | some a =>
    obtain ⟨init, rfl⟩ := List.getLast?_eq_some_iff.mp last
    simp only [last, List.dropLast_concat] at found
    split_ifs at found with front
    have whole : p = init ++ p.drop init.length := by
      conv_lhs => rw [← List.take_append_drop init.length p, front]
    cases a with
    | offset m =>
      simp only [Option.ite_none_right_eq_some, Option.some.injEq] at found
      obtain ⟨same, rfl⟩ := found
      exact same
    | field name | deref | value =>
      cases rest : p.drop init.length with
      | nil => simp [rest] at found
      | cons head tail =>
        simp only [rest, Option.ite_none_right_eq_some, Option.some.injEq] at found
        obtain ⟨rfl, rfl⟩ := found
        rw [rest, List.append_cons] at whole
        rw [whole]
        exact concat_of_clear (whole ▸ clear)

/-- A suffix of a normal path is normal. -/
theorem clear_of_stripPrefix (clear : Clear p) (found : stripPrefix p s = some t) : Clear t := by
  unfold stripPrefix at found
  split at found
  · simp only [Option.some.injEq] at found
    exact found ▸ clear
  · next last _ =>
    simp only at found
    split_ifs at found with front
    cases last with
    | offset m =>
      simp only [Option.ite_none_right_eq_some, Option.some.injEq] at found
      exact found.2 ▸ clear_concat (clear_normalize _) _
    | field name | deref | value =>
      cases rest : p.drop s.dropLast.length with
      | nil => simp only [rest, reduceCtorEq] at found
      | cons head tail =>
        simp only [rest, Option.ite_none_right_eq_some, Option.some.injEq] at found
        have after : Clear (head :: tail) := rest ▸ clear.of_isInfix (List.drop_suffix _ _).isInfix
        exact found.2 ▸ after.tail

private theorem stripPrefix_append {a : PathSegment} (fixed : a.isOffset = false) (init tail : List PathSegment) :
    stripPrefix (init ++ [a] ++ tail) (init ++ [a]) = some tail := by
  cases a <;> simp_all [stripPrefix, isOffset]

private theorem stripPrefix_offset {rest : List PathSegment} (split : p = init ++ rest)
    (rebased : concat (normalize [.offset (-m)]) rest = t) (whole : concat (init ++ [.offset m]) t = p) :
    stripPrefix p (init ++ [.offset m]) = some t := by
  subst split
  simp [stripPrefix, rebased, whole]

/-- The suffixes that complete a normal front to a location: the one `stripPrefix` finds and, where the
front ends in `#value` and is the location itself, those it absorbs. -/
theorem concat_eq_iff (clearS : Clear s) (clearT : Clear t) (clearP : Clear p)
    (location : classify p = .location) :
    concat s t = p ↔ stripPrefix p s = some t ∨
      (s.getLast? = some .value ∧ p = s ∧ (t = [.value] ∨ ∃ k, t = [.offset k])) := by
  obtain ⟨valueLast, ends⟩ := (classify_eq_location_iff clearP).mp location
  constructor
  · rintro rfl
    cases last : s.getLast? with
    | none =>
      obtain rfl := List.getLast?_eq_none_iff.mp last
      refine .inl ?_
      simp only [stripPrefix, last, Option.some.injEq]
      exact normalize_of_clear clearT
    | some a =>
      obtain ⟨init, rfl⟩ := List.getLast?_eq_some_iff.mp last
      have hardCase : a.soft = false → stripPrefix (concat (init ++ [a]) t) (init ++ [a]) = some t := by
        intro hard
        have glued : Clear (init ++ [a] ++ t) :=
          Clear.append_iff.mpr ⟨clearS, clearT, by simp [hard]⟩
        rw [concat_of_clear glued]
        exact stripPrefix_append (by cases a <;> simp_all [soft, isOffset]) init t
      cases a with
      | field name => exact .inl (hardCase rfl)
      | deref => exact .inl (hardCase rfl)
      | offset m =>
        obtain ⟨rest, split, rebased⟩ := rebase_eq clearS clearT ends
        exact .inl (stripPrefix_offset split rebased rfl)
      | value =>
        cases t with
        | nil =>
          refine .inl ?_
          have := stripPrefix_append (a := .value) rfl init []
          simpa [concat] using this
        | cons b t =>
          have pushed : pushNormalized (init ++ [.value]) b =
              init ++ [.value] ++ if b.soft then [] else [b] := by
            cases b <;> simp [pushNormalized, soft, isOffset]
          have split := concat_cons_of_clear clearS clearT
          rw [pushed] at split
          -- Anything left after the `#value` would make the path void.
          have alone : (if b.soft then [] else [b]) ++ t = [] := by
            by_contra more
            refine valueLast ?_
            rw [split, List.append_assoc, List.dropLast_append_of_ne_nil more]
            simp
          obtain ⟨pushedNothing, rfl⟩ := List.append_eq_nil_iff.mp alone
          refine .inr ⟨rfl, by simpa [pushedNothing] using split, ?_⟩
          cases b <;> simp_all [soft]
  · rintro (found | ⟨last, rfl, rfl | ⟨k, rfl⟩⟩)
    · exact concat_of_stripPrefix clearP found
    · simp [concat, pushNormalized, last, isOffset]
    · simp [concat, pushNormalized, last]

end Suffixes

section Fields

variable [Add O] [Neg O] [OfNat O 0] [DecidableEq O] {p s t : List (PathSegment O)} {name : String}

omit [Neg O] in
/-- Normalisation makes no fields. -/
theorem field_mem_pushNormalized {a : PathSegment O} (member : .field name ∈ pushNormalized p a) :
    .field name ∈ p ∨ a = .field name := by
  cases a with
  | field other =>
    rw [pushNormalized, List.mem_append, List.mem_singleton] at member
    exact member.imp_right Eq.symm
  | deref => simpa [pushNormalized] using member
  | offset k =>
    left
    simp only [pushNormalized] at member
    split at member
    · exact member
    · split_ifs at member
      · exact List.dropLast_subset _ member
      · exact List.dropLast_subset _ (by simpa using member)
    · split_ifs at member
      · exact member
      · simpa using member
  | value =>
    left
    have popped : ∀ l : List (PathSegment O), .field name ∈ (if l.getLast? = some .value then l else l ++ [.value]) →
        .field name ∈ l := by
      intro l inside
      split_ifs at inside
      · exact inside
      · simpa using inside
    have inside := popped _ member
    split_ifs at inside
    · exact List.dropLast_subset _ inside
    · exact inside

omit [Neg O] in
theorem field_mem_concat (member : .field name ∈ concat p t) : .field name ∈ p ∨ .field name ∈ t := by
  induction t generalizing p with
  | nil => exact .inl member
  | cons a t ih =>
    rcases ih member with front | later
    · exact (field_mem_pushNormalized front).imp_right fun same => List.mem_cons.mpr (.inl same.symm)
    · exact .inr (.tail _ later)

theorem field_mem_of_stripPrefix (found : stripPrefix p s = some t) (member : .field name ∈ t) :
    .field name ∈ p := by
  unfold stripPrefix at found
  cases last : s.getLast? with
  | none =>
    rw [last] at found
    exact Option.some.inj found ▸ member
  | some a =>
    rw [last] at found
    simp only at found
    split_ifs at found
    cases a with
    | offset m =>
      simp only at found
      split_ifs at found
      obtain rfl := Option.some.inj found
      rcases field_mem_concat member with sign | rest
      · rcases field_mem_concat (p := []) sign with none | none <;> simp at none
      · exact List.mem_of_mem_drop rest
    | field _ | deref | value =>
      simp only at found
      split at found
      · simp at found
      · next head tail split =>
        split_ifs at found
        obtain rfl := Option.some.inj found
        have inside : .field name ∈ p.drop s.dropLast.length := split ▸ List.mem_cons_of_mem head member
        exact List.mem_of_mem_drop inside

end Fields

end Ctadl.Cir
