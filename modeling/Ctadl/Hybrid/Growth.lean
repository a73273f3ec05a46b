import Ctadl.Hybrid.Insertion

/-! # Growth

A rebuild inserts the elements of the old table one by one into an empty one. It succeeds if the new table takes as
many, unless its size is refused; an insertion asks for room by that measure, and a reservation does unless its sums
wrap. A copy writes every element and its metadata where they were.
-/

namespace Ctadl.Hybrid.RawTable

open Function Collections Collections.Bits Probing

variable {T : Type} {small : ℕ} {table fresh out : RawTable T small} {hashOf : T → Word} {x y : T} {cap : ℕ}

section Empty

theorem wellFormed_new (hashOf : T → Word) (valid : ValidSmall small) : (new : RawTable T small).WellFormed hashOf where
  valid := valid
  shape := .inl rfl
  short := by simp [new]
  len_le := Nat.zero_le _
  len_eq := rfl
  stored i := by simp [new]
  control large := by simp [new] at large
  mirror large := by simp [new] at large
  occupied _ i isSet := by simp [new] at isSet
  sound := sound_empty

theorem allocate_spec (hashOf : T → Word) (valid : ValidSmall small) (shape : ValidCap small cap) (short : cap < 2 ^ 32) :
    ∃ fresh : RawTable T small, allocate cap = .ok fresh ∧ fresh.WellFormed hashOf ∧ fresh.cap = cap ∧ fresh.len = 0 ∧
      ∀ x, ¬ Holds fresh.bucket x := by
  have noneFull : ∀ i, ({ cap, len := 0, occupancy := 0, ctrl := fun _ => EMPTY, bucket := fun _ => none } : RawTable T small).full i =
      false := by
    intro i
    unfold full
    split_ifs
    · exact (by decide : (!EMPTY.msb) = false)
    · simp
  refine ⟨_, if_pos short, ⟨valid, shape, short, Nat.zero_le _, ?_, fun i => ?_, fun _ _ _ => rfl, fun _ _ _ => rfl, fun _ i isSet => ?_,
    sound_empty⟩, rfl, rfl, fun x => not_holds_empty⟩
  · rw [fullPlaces, List.filter_eq_nil_iff.mpr fun i _ => by rw [noneFull]; simp]
    rfl
  · rw [noneFull]
    simp
  · simp at isSet

theorem withCapacity_spec (hashOf : T → Word) (valid : ValidSmall small) (n : ℕ) :
    (withCapacity n : Except Fault (RawTable T small)) = .error .panic ∨ ∃ fresh : RawTable T small, withCapacity n = .ok fresh ∧
      fresh.WellFormed hashOf ∧ fresh.len = 0 ∧ ∀ x, ¬ Holds fresh.bucket x := by
  unfold withCapacity
  split_ifs with zero
  · exact .inr ⟨new, rfl, wellFormed_new hashOf valid, rfl, fun x => not_holds_empty⟩
  · rcases Nat.lt_or_ge (capFor small n) (2 ^ 32) with short | long
    · obtain ⟨fresh, allocated, wf, -, len, absent⟩ := allocate_spec hashOf valid (validCap_capFor valid n) short
      exact .inr ⟨fresh, allocated, wf, len, absent⟩
    · exact .inl (if_neg (by omega))

end Empty

section Rebuild

/-- Elements that are absent and differ go one by one into a table that has room for all of them. -/
theorem foldlM_insert {values : List T} (wf : fresh.WellFormed hashOf) (nodup : values.Nodup)
    (absent : ∀ x ∈ values, ¬ Holds fresh.bucket x) (room : fresh.len + values.length ≤ fresh.capacity) :
    ∃ out, values.foldlM (fun fresh value => fresh.insertUniqueNoGrow (hashOf value) value) fresh = .ok out ∧ out.WellFormed hashOf ∧
      out.cap = fresh.cap ∧ out.len = fresh.len + values.length ∧ ∀ y, Holds out.bucket y ↔ y ∈ values ∨ Holds fresh.bucket y := by
  induction values generalizing fresh with
  | nil => exact ⟨fresh, rfl, wf, rfl, rfl, by simp⟩
  | cons x values ih =>
    obtain ⟨differs, nodup⟩ := List.nodup_cons.mp nodup
    rw [List.length_cons] at room
    obtain ⟨added, inserted, adds⟩ := insertUniqueNoGrow_spec wf (absent x (.head _)) (by omega)
    have absent' : ∀ y ∈ values, ¬ Holds added.bucket y := by
      intro y member held
      rcases (adds.holds y).mp held with rfl | old
      · exact differs member
      · exact absent y (.tail _ member) old
    obtain ⟨out, done, wf', cap, len, holds⟩ := ih adds.wf nodup absent' (by
      rw [adds.len, capacity, adds.cap]
      rw [capacity] at room
      omega)
    refine ⟨out, ?_, wf', cap.trans adds.cap, by rw [len, adds.len, List.length_cons]; omega, fun y => ?_⟩
    · simp only [List.foldlM_cons, inserted, bind, Except.bind]
      exact done
    · rw [holds, adds.holds, List.mem_cons, or_left_comm, or_assoc]

/-- Insertions that return leave the capacity and count every element. -/
theorem foldlM_insert_len {values : List T}
    (done : values.foldlM (fun fresh value => fresh.insertUniqueNoGrow (hashOf value) value) fresh = .ok out) :
    out.len = fresh.len + values.length ∧ out.cap = fresh.cap := by
  induction values generalizing fresh with
  | nil =>
    obtain rfl := Except.ok.inj done
    exact ⟨rfl, rfl⟩
  | cons x values ih =>
    obtain ⟨added, inserted, rest⟩ := bind_ok.mp done
    obtain ⟨len, cap⟩ := insertUniqueNoGrow_len inserted
    obtain ⟨len', cap'⟩ := ih rest
    rw [List.length_cons]
    exact ⟨by omega, cap'.trans cap⟩

theorem insertSlotFrom_error {fuel : ℕ} {probe : ProbeSeq} {fault : Fault} (failed : fresh.insertSlotFrom fuel probe = .error fault) :
    fault = .hang := by
  induction fuel generalizing probe with
  | zero => exact (Except.error.inj failed).symm
  | succ fuel ih =>
    rw [insertSlotFrom] at failed
    split at failed
    · simp at failed
    · exact ih failed

theorem emptySlotFrom_error {fuel i : ℕ} {fault : Fault} (failed : fresh.emptySlotFrom fuel i = .error fault) : fault = .hang := by
  induction fuel generalizing i with
  | zero => exact (Except.error.inj failed).symm
  | succ fuel ih =>
    rw [emptySlotFrom] at failed
    split_ifs at failed
    exact ih failed

/-- Insertions fail in no way but that a probe never ends. -/
theorem foldlM_insert_error {values : List T} {fault : Fault}
    (failed : values.foldlM (fun fresh value => fresh.insertUniqueNoGrow (hashOf value) value) fresh = .error fault) : fault = .hang := by
  induction values generalizing fresh with
  | nil => simp [pure, Except.pure] at failed
  | cons x values ih =>
    simp only [List.foldlM_cons, insertUniqueNoGrow, bind, Except.bind] at failed
    cases found : fresh.emptySlot (hashOf x) with
    | error fault' =>
      simp only [found] at failed
      obtain rfl := Except.error.inj failed
      unfold emptySlot at found
      split_ifs at found
      · exact insertSlotFrom_error found
      · exact emptySlotFrom_error found
    | ok i =>
      simp only [found] at failed
      exact ih failed

variable (wf : table.WellFormed hashOf)
include wf

/-- A rebuild is the insertion of the elements into an empty table. -/
theorem rebuild_eq : table.rebuild cap hashOf = (allocate cap).bind fun fresh =>
    table.items.foldlM (fun fresh value => fresh.insertUniqueNoGrow (hashOf value) value) fresh := by
  have entries : (table.fullPlaces.filterMap fun i => (table.bucket i).map (i, ·)).map Prod.snd = table.items := by
    rw [List.map_filterMap, items]
    refine List.filterMap_congr fun i _ => ?_
    cases table.bucket i <;> rfl
  unfold rebuild
  simp only [bind, indices_spec wf]
  refine congrArg _ (funext fun fresh => ?_)
  rw [← entries, List.foldlM_map]
  exact foldlM_read (fun i member => held_of_fullPlaces wf member) (fun out _ value => out.insertUniqueNoGrow (hashOf value) value) fresh

/-- A rebuild succeeds if the new table takes as many elements. -/
theorem rebuild_spec (shape : ValidCap small cap) (short : cap < 2 ^ 32) (enough : table.len ≤ capacityAt small cap) :
    ∃ out, table.rebuild cap hashOf = .ok out ∧ out.WellFormed hashOf ∧ out.cap = cap ∧ out.len = table.len ∧
      ∀ y, Holds out.bucket y ↔ Holds table.bucket y := by
  obtain ⟨fresh, allocated, wf', isCap, empty, absent⟩ := allocate_spec hashOf wf.valid shape short
  obtain ⟨out, done, wfOut, isCap', len, holds⟩ := foldlM_insert wf' (nodup_items wf) (fun x _ => absent x)
    (by rw [empty, length_items wf, capacity, isCap]; omega)
  refine ⟨out, ?_, wfOut, isCap'.trans isCap, by rw [len, empty, length_items wf, Nat.zero_add], fun y => ?_⟩
  · rw [rebuild_eq wf, allocated]
    exact done
  · rw [holds, mem_items wf]
    simp [absent]

/-- A table that is too large is refused. -/
theorem rebuild_refused (long : 2 ^ 32 ≤ cap) : table.rebuild cap hashOf = .error .panic := by
  rw [rebuild_eq wf, allocate, if_neg (by omega)]
  rfl

/-- A rebuild that returns has counted every element, whether the table has room for them or not. -/
theorem rebuild_len (done : table.rebuild cap hashOf = .ok out) : out.len = table.len ∧ out.cap = cap := by
  rw [rebuild_eq wf] at done
  obtain ⟨fresh, allocated, done⟩ := bind_ok.mp done
  obtain ⟨len, isCap⟩ := foldlM_insert_len done
  unfold allocate at allocated
  split_ifs at allocated
  obtain rfl := Except.ok.inj allocated
  rw [length_items wf] at len
  exact ⟨by simpa using len, isCap⟩

/-- What a reservation asks for that does not fit, by sums that wrapped. -/
def Overruns (table : RawTable T small) (additional : ℕ) : Prop :=
  table.capacity < usizeAdd table.len additional ∧ capacityAt small (capFor small (usizeAdd table.len additional)) < table.len

/-- Nothing overruns below `2 ^ 61` elements in all. -/
theorem not_overruns {additional : ℕ} (fits : table.len + additional < 2 ^ 61) : ¬ Overruns table additional := by
  rintro ⟨-, less⟩
  rw [usizeAdd, Nat.mod_eq_of_lt (by omega)] at less
  have := le_capacityAt_capFor wf.valid fits
  omega

/-- A reservation that does not overrun keeps the elements, or is refused. -/
theorem reserve_spec {additional : ℕ} (fits : ¬ Overruns table additional) :
    table.reserve additional hashOf = .error .panic ∨ ∃ out, table.reserve additional hashOf = .ok out ∧ out.WellFormed hashOf ∧
      out.len = table.len ∧ ∀ y, Holds out.bucket y ↔ Holds table.bucket y := by
  unfold reserve
  simp only
  split_ifs with within
  · exact .inr ⟨table, rfl, wf, rfl, fun y => .rfl⟩
  · rcases Nat.lt_or_ge (capFor small (usizeAdd table.len additional)) (2 ^ 32) with short | long
    · obtain ⟨out, done, wf', -, len, holds⟩ := rebuild_spec wf (validCap_capFor wf.valid _) short (by
        by_contra less
        exact fits ⟨by omega, by omega⟩)
      exact .inr ⟨out, done, wf', len, holds⟩
    · exact .inl (rebuild_refused wf long)

/-- A reservation that overruns is not refused, and leaves no table that is well formed. -/
theorem reserve_overruns {additional : ℕ} (overruns : Overruns table additional) :
    table.reserve additional hashOf ≠ .error .panic ∧ ∀ out, table.reserve additional hashOf = .ok out → ¬ out.WellFormed hashOf := by
  obtain ⟨many, less⟩ := overruns
  have rebuilds : table.reserve additional hashOf = table.rebuild (capFor small (usizeAdd table.len additional)) hashOf :=
    if_neg (by omega)
  rw [rebuilds]
  generalize capFor small (usizeAdd table.len additional) = cap at less
  have short : cap < 2 ^ 32 := by
    have len := wf.len_le
    have := wf.short
    have := small_le wf.valid
    unfold capacity at len
    unfold capacityAt capacityFor at len less
    split_ifs at len less <;> omega
  refine ⟨fun refused => ?_, fun out done wf' => ?_⟩
  · obtain ⟨fresh, allocated, -⟩ : ∃ fresh : RawTable T small, allocate cap = .ok fresh ∧ True := ⟨_, if_pos short, trivial⟩
    rw [rebuild_eq wf, allocated] at refused
    have := foldlM_insert_error refused
    simp at this
  · obtain ⟨len, isCap⟩ := rebuild_len wf done
    have fits := wf'.len_le
    rw [capacity, isCap] at fits
    omega

end Rebuild

section Insert

variable [DecidableEq T]

/-- What an insertion may return. -/
def Inserts (hashOf : T → Word) (table : RawTable T small) (x : T) : Except Fault (RawTable T small × Bool) → Prop
  | .ok (out, isNew) => out.WellFormed hashOf ∧ (isNew = true ↔ ¬ Holds table.bucket x) ∧
      (∀ y, Holds out.bucket y ↔ y = x ∨ Holds table.bucket y) ∧ out.len = table.len + isNew.toNat
  | .error fault => fault = .panic

omit [DecidableEq T] in
theorem inserts_found (wf : table.WellFormed hashOf) (held : Holds table.bucket x) : Inserts hashOf table x (.ok (table, false)) := by
  refine ⟨wf, by simp [held], fun y => ⟨.inr, ?_⟩, rfl⟩
  rintro (rfl | old)
  · exact held
  · exact old

omit [DecidableEq T] in
theorem inserts_added (added : Added hashOf table x out) (absent : ¬ Holds table.bucket x) : Inserts hashOf table x (.ok (out, true)) :=
  ⟨added.wf, by simp [absent], added.holds, added.len⟩

variable (wf : table.WellFormed hashOf)
include wf

omit [DecidableEq T] in
/-- A table that is rebuilt for one more element takes it. -/
theorem rebuild_insert (absent : ¬ Holds table.bucket x) (shape : ValidCap small cap) (enough : table.len < capacityAt small cap) :
    table.rebuild cap hashOf = .error .panic ∨ ∃ grown, table.rebuild cap hashOf = .ok grown ∧ grown.WellFormed hashOf ∧
      grown.cap = cap ∧ grown.len < grown.capacity ∧ ¬ Holds grown.bucket x ∧
      ∀ out, Added hashOf grown x out → out.len = table.len + 1 ∧ ∀ y, Holds out.bucket y ↔ y = x ∨ Holds table.bucket y := by
  rcases Nat.lt_or_ge cap (2 ^ 32) with short | long
  · obtain ⟨grown, done, wf', isCap, len, holds⟩ := rebuild_spec wf shape short (by omega)
    refine .inr ⟨grown, done, wf', isCap, by rw [len, capacity, isCap]; exact enough, by rwa [holds], fun out added => ?_⟩
    refine ⟨by rw [added.len, len], fun y => ?_⟩
    rw [added.holds, holds]
  · exact .inl (rebuild_refused wf long)

theorem smallInsert_spec (few : table.cap ≤ small) : Inserts hashOf table x (table.smallInsert (hashOf x) x hashOf) := by
  obtain ⟨probed, searched, ends⟩ := smallProbe_spec wf few (v := x)
  simp only [smallInsert, searched, bind, Except.bind]
  cases probed with
  | found i => exact inserts_found wf ⟨i, ends⟩
  | vacant i =>
    obtain ⟨inside, empty, reaches, absent⟩ := ends
    have room : table.len < table.cap := by
      by_contra full
      have := table.fullPlaces.length
      have all : table.fullPlaces = List.range table.cap :=
        List.filter_sublist.eq_of_length (by rw [← fullPlaces, ← wf.len_eq, List.length_range]
                                             exact le_antisymm (wf.len_le.trans table.capacity_le_cap) (by omega))
      exact (wf.stored i).mpr (mem_fullPlaces.mp (all ▸ List.mem_range.mpr inside)) empty
    refine inserts_added (fill_added wf inside empty reaches absent ?_ fun large => absurd few (by omega)) absent
    rwa [capacity, capacityAt, if_neg (by omega)]
  | full =>
    obtain ⟨all, absent⟩ := ends
    have bound := small_le wf.valid
    rcases rebuild_insert wf absent (validCap_capFor wf.valid (table.len + 1)) (le_capacityAt_capFor wf.valid (by omega)) with
      refused | ⟨grown, done, wf', -, room, absent', adds⟩
    · rw [refused]
      rfl
    · obtain ⟨out, inserted, added⟩ := insertUniqueNoGrow_spec wf' absent' room
      obtain ⟨len, holds⟩ := adds out added
      simp only [done, inserted]
      exact ⟨added.wf, by simp [absent], holds, len⟩

omit [DecidableEq T] in
theorem growthLeft_eq_zero : table.growthLeft = 0 ↔ table.len = table.capacity := by
  have le := wf.len_le
  have := table.capacity_le_cap
  have := wf.short
  rw [growthLeft, usizeSub]
  omega

theorem largeInsert_spec (large : small < table.cap) : Inserts hashOf table x (table.largeInsert (hashOf x) x hashOf) := by
  obtain ⟨probed, searched, notFull, ends⟩ := largeProbe_spec wf large (v := x)
  simp only [largeInsert, searched, bind, Except.bind]
  cases probed with
  | found i => exact inserts_found wf ⟨i, ends⟩
  | full => exact absurd rfl notFull
  | vacant i =>
    obtain ⟨inside, empty, reaches, absent⟩ := ends
    have le := wf.len_le
    split_ifs with noRoom
    · rw [growthLeft_eq_zero wf] at noRoom
      have eight := wf.eight_le_cap large
      have shape : ValidCap small (table.cap * 2) := by
        obtain ⟨⟨k, power⟩, few | many⟩ := wf.shape.resolve_left (by omega)
        · omega
        · exact .inr ⟨⟨k + 1, by rw [power, pow_succ]⟩, .inr (by omega)⟩
      have enough : table.len < capacityAt small (table.cap * 2) := by
        rw [noRoom, capacity, capacityAt, capacityAt, if_pos large, if_pos (by omega), capacityFor, capacityFor]
        omega
      rcases rebuild_insert wf absent shape enough with refused | ⟨grown, done, wf', isCap, room, absent', adds⟩
      · rw [refused]
        rfl
      · obtain ⟨slot, found, inside', empty', reaches'⟩ := findInsertSlot_spec wf' (v := x) (by omega)
        have added : Added hashOf grown x (grown.fill slot x (h2 (hashOf x))) :=
          fill_added wf' inside' empty' reaches' absent' room fun _ => rfl
        obtain ⟨len, holds⟩ := adds _ added
        simp only [done, found]
        exact ⟨added.wf, by simp [absent], holds, len⟩
    · refine inserts_added (fill_added wf inside empty reaches absent ?_ fun _ => rfl) absent
      rw [growthLeft_eq_zero wf] at noRoom
      omega

/-- An insertion returns whether the element is new, with the element in the table, unless a table of the size it asks
for is refused. -/
theorem insert_spec (x : T) : Inserts hashOf table x (table.insert (hashOf x) x hashOf) := by
  rw [insert]
  split_ifs with large
  · exact largeInsert_spec wf (isLarge_iff.mp large)
  · exact smallInsert_spec wf (by simpa [isLarge] using large)

end Insert

section Clone

/-- Writing what some places hold, with their metadata, into a table of the same capacity. -/
theorem foldlM_fill (wf : table.WellFormed hashOf) {places : List ℕ} (inside : ∀ i ∈ places, i ∈ table.fullPlaces)
    (sameCap : fresh.cap = table.cap) :
    ∃ out, (places.filterMap fun i => (table.bucket i).map (i, ·)).foldlM
        (fun (fresh : RawTable T small) e => Except.ok (ε := Fault) (fresh.fill e.1 e.2 (table.metaByte e.1))) fresh = .ok out ∧
      out.cap = table.cap ∧ out.len = fresh.len + places.length ∧
      (∀ p, out.bucket p = if p ∈ places then table.bucket p else fresh.bucket p) ∧
      (small < table.cap → (∀ p < table.cap, out.ctrl p = if p ∈ places then table.ctrl p else fresh.ctrl p) ∧
        ∀ j < groupWidth, out.ctrl (table.cap + j) = if j ∈ places then table.ctrl j else fresh.ctrl (table.cap + j)) ∧
      (table.cap ≤ small → ∀ p, out.occupancy.getLsbD p = (decide (p ∈ places) || fresh.occupancy.getLsbD p)) := by
  induction places generalizing fresh with
  | nil => exact ⟨fresh, rfl, sameCap, rfl, by simp, fun _ => ⟨by simp, by simp⟩, by simp⟩
  | cons i places ih =>
    have here := inside i (.head _)
    have less := (mem_fullPlaces.mp here).1
    obtain ⟨x, isX⟩ := held_of_fullPlaces wf here
    obtain ⟨out, done, cap, len, bucket, ctrl, occupancy⟩ := ih (fun j member => inside j (.tail _ member))
      (show (fresh.fill i x (table.metaByte i)).cap = table.cap by rw [fill_cap, sameCap])
    refine ⟨out, ?_, cap, by rw [len, fill_len, List.length_cons]; omega, fun p => ?_, fun large => ⟨fun p inCap => ?_, fun j near => ?_⟩,
      fun few p => ?_⟩
    · simpa only [List.filterMap_cons, isX, Option.map_some, List.foldlM_cons, bind, Except.bind] using done
    · rw [bucket, fill_bucket]
      by_cases same : p = i <;> simp [same, isX]
    · obtain ⟨m, power⟩ := wf.large_power large
      have isByte : table.metaByte i = table.ctrl i := if_pos (isLarge_iff.mpr large)
      rw [(ctrl large).1 p inCap, ctrl_fill (sameCap ▸ power) (sameCap ▸ wf.short) (sameCap ▸ less) (sameCap ▸ large), isByte, sameCap]
      by_cases same : p = i
      · simp [same]
      · simp [same, show ¬ (i < groupWidth ∧ p = table.cap + i) by omega]
    · obtain ⟨m, power⟩ := wf.large_power large
      have isByte : table.metaByte i = table.ctrl i := if_pos (isLarge_iff.mpr large)
      rw [(ctrl large).2 j near, ctrl_fill (sameCap ▸ power) (sameCap ▸ wf.short) (sameCap ▸ less) (sameCap ▸ large), isByte, sameCap]
      by_cases same : j = i
      · subst same
        simp [near]
      · simp [same, show table.cap + j ≠ i by omega]
    · have := small_le wf.valid
      rw [occupancy few, fill_occupancy (sameCap ▸ few), BitVec.getLsbD_or, getLsbD_bit (by omega)]
      by_cases same : p = i <;> simp [same]

/-- A copy has every element in the same bucket. -/
theorem clone_spec (wf : table.WellFormed hashOf) : ∃ out, table.clone = .ok out ∧ out.WellFormed hashOf ∧ out.len = table.len ∧
    ∀ y, Holds out.bucket y ↔ Holds table.bucket y := by
  unfold clone
  split_ifs with zero
  · have nothing : ∀ y, ¬ Holds table.bucket y := by
      rintro y ⟨i, held⟩
      have := ((wf.stored i).mp (by rw [held]; simp)).1
      omega
    have empty := wf.len_le.trans table.capacity_le_cap
    exact ⟨new, rfl, wellFormed_new hashOf wf.valid, (by omega : table.len = 0).symm, fun y => by simp [nothing, new, not_holds_empty]⟩
  · obtain ⟨out, done, cap, len, bucket, ctrl, occupancy⟩ := foldlM_fill wf (fun i (member : i ∈ table.fullPlaces) => member)
      (show ({ cap := table.cap, len := 0, occupancy := 0, ctrl := fun _ => EMPTY, bucket := fun _ => none } :
        RawTable T small).cap = table.cap from rfl)
    have sameBucket : out.bucket = table.bucket := by
      funext p
      rw [bucket]
      split_ifs with member
      · rfl
      · by_contra held
        exact member (mem_fullPlaces.mpr ((wf.stored p).mp (Ne.symm held)))
    have control : small < table.cap → ∀ p < table.cap, out.ctrl p = table.ctrl p := by
      intro large p less
      rw [(ctrl large).1 p less]
      split_ifs with member
      · rfl
      · rw [wf.control large p less, show table.bucket p = none by
          by_contra held
          exact member (mem_fullPlaces.mpr ((wf.stored p).mp held))]
        rfl
    have sameFull : ∀ p < table.cap, out.full p = table.full p := by
      intro p less
      rcases Nat.lt_or_ge small table.cap with large | few
      · rw [full_of_large (by rwa [cap]), full_of_large large, control large p less]
      · rw [full_of_small (by rwa [cap]), occupancy few, Bool.eq_iff_iff]
        simp [mem_fullPlaces, less]
    have places : out.fullPlaces = table.fullPlaces := by
      rw [fullPlaces, fullPlaces, cap]
      exact List.filter_congr fun p member => sameFull p (List.mem_range.mp member)
    refine ⟨out, ?_, ⟨wf.valid, cap ▸ wf.shape, cap ▸ wf.short, ?_, ?_, fun i => ?_, fun large i less => ?_, fun large j near => ?_,
      fun few i isSet => ?_, by rw [cap, sameBucket]; exact wf.sound⟩, ?_, fun y => by rw [sameBucket]⟩
    · simp only [allocate, if_pos wf.short, indices_spec wf, bind, Except.bind]
      exact (foldlM_read (fun i member => held_of_fullPlaces wf member)
        (fun (fresh : RawTable T small) i value => .ok (fresh.fill i value (table.metaByte i))) _).trans done
    · rw [capacity, cap, len, Nat.zero_add, ← wf.len_eq]
      exact wf.len_le
    · rw [len, Nat.zero_add, places]
    · rw [sameBucket, cap, wf.stored i]
      exact and_congr_right fun less => by rw [sameFull i less]
    · rw [cap] at large less
      rw [control large i less, sameBucket, wf.control large i less]
    · rw [cap] at large ⊢
      have eight := wf.eight_le_cap large
      have inCap : j < table.cap := near.trans_le eight
      rw [(ctrl large).2 j near, (ctrl large).1 j inCap]
    · rw [cap] at few ⊢
      rw [occupancy few] at isSet
      simp only [BitVec.ofNat_eq_ofNat, BitVec.getLsbD_zero, Bool.or_false, decide_eq_true_eq] at isSet
      exact (mem_fullPlaces.mp isSet).1
    · rw [len, Nat.zero_add, ← wf.len_eq]

end Clone

end Ctadl.Hybrid.RawTable
