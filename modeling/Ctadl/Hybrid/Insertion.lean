import Ctadl.Hybrid.Lookup

/-! # Insertion, growth and copies

Filling an empty bucket that a search comes to keeps the invariants (`fill_added`). Every way an element gets into a
table does that: an insertion with room, and a rebuild, which inserts the elements of the old table one by one. A copy
keeps every element in its bucket.
-/

namespace Ctadl.Hybrid

open Function Collections Collections.Bits Probing

theorem bind_ok {α β : Type} {first : Except Fault α} {next : α → Except Fault β} {out : β} :
    first.bind next = .ok out ↔ ∃ a, first = .ok a ∧ next a = .ok out := by
  cases first <;> simp [Except.bind]

section Sizes

variable {small n : ℕ}

theorem small_lt_minLarge (valid : ValidSmall small) : small < minLargeBuckets small := by
  unfold minLargeBuckets minBuckets groupWidth
  rcases valid with rfl | ⟨k, -, rfl⟩
  · decide
  · have := Nat.one_le_two_pow (n := k)
    split_ifs <;> omega

theorem exists_minLarge (valid : ValidSmall small) : ∃ j, minLargeBuckets small = 2 ^ j := by
  unfold minLargeBuckets minBuckets groupWidth
  split_ifs with wide
  · rcases valid with rfl | ⟨k, -, rfl⟩
    · omega
    · exact ⟨k + 1, by rw [pow_succ, Nat.mul_comm]⟩
  · exact ⟨3, rfl⟩

theorem max_two_pow (a b : ℕ) : max (2 ^ a) (2 ^ b) = 2 ^ max a b := by
  rcases Nat.le_total a b with le | le
  · rw [Nat.max_eq_right le, Nat.max_eq_right (Nat.pow_le_pow_right (by omega) le)]
  · rw [Nat.max_eq_left le, Nat.max_eq_left (Nat.pow_le_pow_right (by omega) le)]

/-- The capacity of a large table is above the threshold. -/
theorem capFor_large (valid : ValidSmall small) (many : small < n) :
    small < capFor small n ∧ (∃ k, capFor small n = 2 ^ k) ∧ minLargeBuckets small ≤ capFor small n := by
  obtain ⟨k, power, -⟩ := exists_bucketsFor (by omega : n ≠ 0)
  obtain ⟨j, power'⟩ := exists_minLarge valid
  have above := small_lt_minLarge valid
  rw [capFor, if_pos many]
  exact ⟨by omega, ⟨max k j, by rw [power, power', max_two_pow]⟩, Nat.le_max_right _ _⟩

/-- A small table has at least as many slots as elements, and no more than the threshold. -/
theorem capFor_small (valid : ValidSmall small) (few : n ≤ small) :
    n ≤ capFor small n ∧ capFor small n ≤ small ∧ (capFor small n = 0 ∨ ∃ k, capFor small n = 2 ^ k) := by
  rw [capFor, if_neg (by omega), slotCountFor]
  split_ifs with none
  · rcases none with rfl | rfl <;> simp_all
  · push Not at none
    obtain ⟨k, -, rfl⟩ := valid.resolve_left none.2
    obtain ⟨j, power⟩ := exists_nextPowerOfTwo n
    have enough := le_nextPowerOfTwo (n := n)
    have fits := nextPowerOfTwo_le few
    have one : max (nextPowerOfTwo n) smallSlotsMin = nextPowerOfTwo n := by
      rw [smallSlotsMin, power]
      have := Nat.one_le_two_pow (n := j)
      omega
    rw [one, Nat.min_eq_left fits]
    exact ⟨enough, fits, .inr ⟨j, power⟩⟩

theorem validCap_capFor (valid : ValidSmall small) (n : ℕ) : ValidCap small (capFor small n) := by
  rcases Nat.lt_or_ge small n with many | few
  · obtain ⟨-, power, least⟩ := capFor_large valid many
    exact .inr ⟨power, .inr least⟩
  · obtain ⟨-, most, zero | power⟩ := capFor_small valid few
    · exact .inl zero
    · exact .inr ⟨power, .inl most⟩

/-- Unless a product wraps, the table has room for the elements. -/
theorem le_capacityAt_capFor (valid : ValidSmall small) (fits : n < 2 ^ 61) : n ≤ capacityAt small (capFor small n) := by
  rcases Nat.lt_or_ge small n with many | few
  · rw [capacityAt, if_pos (capFor_large valid many).1, capFor, if_pos many]
    exact (le_capacityFor_bucketsFor fits).trans (Nat.mul_le_mul_right _ (Nat.div_le_div_right (Nat.le_max_left _ _)))
  · obtain ⟨enough, most, -⟩ := capFor_small valid few
    rwa [capacityAt, if_neg (by omega)]

theorem capacityAt_le (small cap : ℕ) : capacityAt small cap ≤ cap := by
  unfold capacityAt capacityFor
  split_ifs <;> omega

end Sizes

namespace RawTable

variable {T : Type} {small : ℕ} {table : RawTable T small} {hashOf : T → Word} {x y : T} {i p : ℕ} {byte : Byte}

section Fields

@[simp] theorem fill_cap : (table.fill i x byte).cap = table.cap := by
  unfold fill setCtrl
  split_ifs <;> rfl

@[simp] theorem fill_len : (table.fill i x byte).len = table.len + 1 := by
  unfold fill setCtrl
  split_ifs <;> rfl

@[simp] theorem fill_bucket : (table.fill i x byte).bucket = update table.bucket i (some x) := by
  unfold fill setCtrl
  split_ifs <;> rfl

theorem fill_occupancy (few : table.cap ≤ small) : (table.fill i x byte).occupancy = table.occupancy ||| 1#64 <<< i := by
  rw [fill, if_neg (by simpa [isLarge] using few)]

theorem getLsbD_bit (inside : i < 64) : (1#64 <<< i).getLsbD p = decide (p = i) := by
  rw [BitVec.getLsbD_shiftLeft, BitVec.getLsbD_one]
  rcases Nat.lt_trichotomy p i with less | rfl | more
  · simp [less, less.ne]
  · simp [inside]
  · simp [show p - i ≠ 0 by omega, more.ne']

/-- Where the mirror of a control byte is. -/
theorem mirror_eq {cap m : ℕ} (power : cap = 2 ^ (m + 3)) (short : cap < 2 ^ 32) (inside : i < cap) :
    (usizeSub i groupWidth &&& (cap - 1)) + groupWidth = if i < groupWidth then cap + i else i := by
  have divides : cap ∣ 2 ^ 64 := by
    rw [power] at short ⊢
    exact Nat.pow_dvd_pow 2 (Nat.le_of_lt ((Nat.pow_lt_pow_iff_right (by omega)).mp short |>.trans (by omega)))
  obtain ⟨c, times⟩ := divides
  have eight : 8 ≤ cap := by
    rw [power, Nat.pow_add]
    have := Nat.one_le_two_pow (n := m)
    omega
  have masked : usizeSub i groupWidth &&& (cap - 1) = usizeSub i groupWidth % cap := by
    rw [power, Nat.and_two_pow_sub_one_eq_mod]
  rw [masked, usizeSub, Nat.mod_mod_of_dvd _ ⟨c, times⟩]
  rw [groupWidth]
  split_ifs with low
  · have positive : 0 < c := by
      rcases Nat.eq_zero_or_pos c with rfl | positive
      · omega
      · exact positive
    obtain ⟨d, rfl⟩ := Nat.exists_eq_add_of_lt positive
    have around : 2 ^ 64 + i - 8 = (cap + i - 8) + cap * d := by
      rw [times, Nat.zero_add, Nat.mul_add]
      omega
    rw [around, Nat.add_mul_mod_self_left, Nat.mod_eq_of_lt (by omega)]
    omega
  · have around : 2 ^ 64 + i - 8 = (i - 8) + cap * c := by omega
    rw [around, Nat.add_mul_mod_self_left, Nat.mod_eq_of_lt (by omega)]
    omega

/-- Filling a bucket of a large table sets its control byte, and the mirror of it if it has one. -/
theorem ctrl_fill {m : ℕ} (power : table.cap = 2 ^ (m + 3)) (short : table.cap < 2 ^ 32) (inside : i < table.cap)
    (large : small < table.cap) : (table.fill i x byte).ctrl p = if p = i ∨ i < groupWidth ∧ p = table.cap + i then byte else table.ctrl p := by
  have mirror := mirror_eq power short inside
  rw [fill, if_pos (isLarge_iff.mpr large), setCtrl]
  simp only [mask]
  rw [mirror]
  by_cases low : i < groupWidth
  · simp only [low, if_true, true_and, update_apply]
    by_cases first : p = table.cap + i <;> by_cases second : p = i <;> simp [first, second]
  · simp only [low, if_false, false_and, or_false, update_apply]
    split_ifs <;> rfl

end Fields

section Fill

variable (wf : table.WellFormed hashOf) (inside : i < table.cap)
include wf inside

theorem fill_ctrl (large : small < table.cap) (p : ℕ) :
    (table.fill i x byte).ctrl p = if p = i ∨ i < groupWidth ∧ p = table.cap + i then byte else table.ctrl p := by
  obtain ⟨m, power⟩ := wf.large_power large
  exact ctrl_fill power wf.short inside large

/-- What the metadata says after a bucket was filled. -/
theorem full_fill (short : small < table.cap → byte.msb = false) (less : p < table.cap) :
    (table.fill i x byte).full p = (decide (p = i) || table.full p) := by
  rcases Nat.lt_or_ge small table.cap with large | few
  · rw [full_of_large (by rwa [fill_cap]), full_of_large large, fill_ctrl wf inside large]
    by_cases same : p = i
    · simp [same, short large]
    · simp [same, show ¬ (i < groupWidth ∧ p = table.cap + i) by omega]
  · have := small_le wf.valid
    rw [full_of_small (by rwa [fill_cap]), full_of_small few, fill_occupancy few, BitVec.getLsbD_or, getLsbD_bit (by omega),
      Bool.or_comm]

/-- The buckets that are full afterwards are those that were and the one filled. -/
theorem fullPlaces_fill (short : small < table.cap → byte.msb = false) (empty : table.bucket i = none) :
    (table.fill i x byte).fullPlaces.Perm (i :: table.fullPlaces) := by
  have absent : i ∉ table.fullPlaces := fun member => (wf.stored i).mpr (mem_fullPlaces.mp member) empty
  refine (List.perm_ext_iff_of_nodup (nodup_fullPlaces _) (List.nodup_cons.mpr ⟨absent, nodup_fullPlaces _⟩)).mpr fun p => ?_
  rw [mem_fullPlaces, fill_cap, List.mem_cons, mem_fullPlaces]
  constructor
  · rintro ⟨less, isFull⟩
    rw [full_fill wf inside short less] at isFull
    simp only [Bool.or_eq_true, decide_eq_true_eq] at isFull
    exact isFull.imp_right fun isFull => ⟨less, isFull⟩
  · rintro (rfl | ⟨less, isFull⟩)
    · exact ⟨inside, by rw [full_fill wf inside short inside]; simp⟩
    · exact ⟨less, by rw [full_fill wf inside short less, isFull, Bool.or_true]⟩

end Fill

/-- A table with one more element. -/
structure Added (hashOf : T → Word) (table : RawTable T small) (x : T) (added : RawTable T small) : Prop where
  wf : added.WellFormed hashOf
  cap : added.cap = table.cap
  len : added.len = table.len + 1
  holds : ∀ y, Holds added.bucket y ↔ y = x ∨ Holds table.bucket y

/-- Filling an empty bucket that a search for the element comes to. -/
theorem fill_added (wf : table.WellFormed hashOf) (inside : i < table.cap) (empty : table.bucket i = none)
    (reaches : Reaches (stops small table.cap hashOf) table.bucket x i) (absent : ¬ Holds table.bucket x)
    (room : table.len < table.capacity) (isByte : small < table.cap → byte = h2 (hashOf x)) :
    Added hashOf table x (table.fill i x byte) := by
  have short : small < table.cap → byte.msb = false := fun large => isByte large ▸ msb_h2 _
  refine ⟨⟨wf.valid, by simpa using wf.shape, by simpa using wf.short, ?_, ?_, fun p => ?_, fun large p less => ?_, fun large j near => ?_,
    fun few p isSet => ?_, ?_⟩, fill_cap, fill_len, fun y => ?_⟩
  · simpa [capacity, Nat.succ_le_iff] using room
  · rw [fill_len, (fullPlaces_fill wf inside short empty).length_eq, List.length_cons, wf.len_eq]
  · rw [fill_bucket, fill_cap]
    by_cases same : p = i
    · subst same
      simp [inside, full_fill wf inside short inside]
    · rw [update_of_ne same, wf.stored p]
      refine and_congr_right fun less => ?_
      simp [full_fill wf inside short less, same]
  · rw [fill_cap] at large less
    rw [fill_ctrl wf inside large, fill_bucket]
    by_cases same : p = i
    · simp [same, isByte large]
    · rw [if_neg (by omega), update_of_ne same]
      exact wf.control large p less
  · rw [fill_cap] at large ⊢
    have eight := wf.eight_le_cap large
    rw [groupWidth] at near
    rw [fill_ctrl wf inside large, fill_ctrl wf inside large, groupWidth]
    by_cases same : j = i
    · rw [if_pos (.inr ⟨by omega, by omega⟩), if_pos (.inl same)]
    · rw [if_neg (by omega), if_neg (by omega)]
      exact wf.mirror large j (by rw [groupWidth]; omega)
  · rw [fill_cap] at few ⊢
    have := small_le wf.valid
    rw [fill_occupancy few, BitVec.getLsbD_or, getLsbD_bit (by omega)] at isSet
    simp only [Bool.or_eq_true, decide_eq_true_eq] at isSet
    rcases isSet with old | rfl
    · exact wf.occupied few p old
    · exact inside
  · rw [fill_bucket, fill_cap]
    exact wf.sound.fill empty reaches absent
  · rw [fill_bucket]
    exact holds_fill empty

theorem capacity_le_cap (table : RawTable T small) : table.capacity ≤ table.cap := capacityAt_le _ _

/-- An absent element goes into a table that has room. -/
theorem insertUniqueNoGrow_spec (wf : table.WellFormed hashOf) (absent : ¬ Holds table.bucket x) (room : table.len < table.capacity) :
    ∃ added, table.insertUniqueNoGrow (hashOf x) x = .ok added ∧ Added hashOf table x added := by
  have slot : ∃ i, table.emptySlot (hashOf x) = .ok i ∧ i < table.cap ∧ table.bucket i = none ∧
      Reaches (stops small table.cap hashOf) table.bucket x i := by
    unfold emptySlot
    split_ifs with large
    · exact findInsertSlot_spec wf (isLarge_iff.mp large)
    · exact smallEmptySlot_spec wf (by simpa [isLarge] using large) (room.trans_le table.capacity_le_cap)
  obtain ⟨i, found, inside, empty, reaches⟩ := slot
  refine ⟨_, ?_, fill_added wf inside empty reaches absent room fun _ => rfl⟩
  rw [insertUniqueNoGrow, found]
  rfl

/-- An insertion that returns adds one element, into a table of the same capacity. -/
theorem insertUniqueNoGrow_len {hash : Word} {added : RawTable T small} (done : table.insertUniqueNoGrow hash x = .ok added) :
    added.len = table.len + 1 ∧ added.cap = table.cap := by
  obtain ⟨i, -, filled⟩ := bind_ok.mp done
  obtain rfl := Except.ok.inj filled
  exact ⟨fill_len, fill_cap⟩

section Iteration

/-- The bits of the word at hand, then what the words after it yield. -/
theorem indicesFrom_ones {shift fuel n : ℕ} {bits : Word} {base rest : ℕ} (count : (ones bits).length = n) :
    table.indicesFrom shift (n + fuel) bits base (n + rest) =
      (table.indicesFrom shift fuel 0#64 base rest).map ((ones bits).map (fun bit => base + (bit >>> shift)) ++ ·) := by
  induction n generalizing bits with
  | zero =>
    have zero : bits = 0#64 := by
      by_contra some
      rw [ones_eq_cons some] at count
      simp at count
    rw [zero, ones_zero, Nat.zero_add, Nat.zero_add]
    cases table.indicesFrom shift fuel 0#64 base rest <;> rfl
  | succ n ih =>
    have some : bits ≠ 0#64 := by
      rintro rfl
      simp [ones_zero] at count
    rw [ones_eq_cons some] at count ⊢
    rw [show n + 1 + fuel = (n + fuel) + 1 by omega, show n + 1 + rest = (n + rest) + 1 by omega, indicesFrom, if_pos some]
    have next := ih (show (ones (bits &&& (bits - 1#64))).length = n by simpa using count)
    rw [next]
    cases table.indicesFrom shift fuel 0#64 base rest <;> rfl

/-- The iteration of a small table. -/
theorem indices_small (wf : table.WellFormed hashOf) (few : table.cap ≤ small) : table.indices = .ok table.fullPlaces := by
  have same : ones table.occupancy = table.fullPlaces := by
    refine List.Pairwise.eq_of_mem_iff sorted_ones (List.pairwise_lt_range.filter _) fun p => ?_
    rw [mem_ones, mem_fullPlaces, full_of_small few]
    exact ⟨fun isSet => ⟨wf.occupied few p isSet, isSet⟩, And.right⟩
  rw [indices, if_neg (by simpa [isLarge] using few)]
  have yields : table.indicesFrom 0 (table.len + table.cap) table.occupancy 0 (table.len + 0) = _ :=
    indicesFrom_ones (show (ones table.occupancy).length = table.len by rw [same, wf.len_eq])
  rw [Nat.add_zero] at yields
  rw [yields, show table.indicesFrom 0 table.cap 0#64 0 0 = .ok [] by cases table.cap <;> rfl]
  simp [same, Except.map]

/-- The full buckets from one on. -/
def placesFrom (table : RawTable T small) (base : ℕ) : List ℕ := (List.range' base (table.cap - base)).filter table.full

/-- A group at a time, the iteration of a large table yields the full buckets from the group on. -/
theorem indicesFrom_group (large : small < table.cap) {g groups fuel : ℕ} (split : table.cap = groupWidth * groups) (less : g < groups)
    (enough : groups ≤ g + fuel) :
    table.indicesFrom BitMask.shift ((table.placesFrom (groupWidth * g)).length + fuel)
      (Group.matchFull (table.group (groupWidth * g))) (groupWidth * g) (table.placesFrom (groupWidth * g)).length =
        .ok (table.placesFrom (groupWidth * g)) := by
  induction fuel generalizing g with
  | zero => omega
  | succ fuel ih =>
    rw [groupWidth] at split
    have here : (ones (Group.matchFull (table.group (groupWidth * g)))).map (fun bit => groupWidth * g + (bit >>> BitMask.shift)) =
        (List.range' (groupWidth * g) 8).filter table.full := by
      have iter : BitMask.iter (Group.matchFull (Group.load table.ctrl (groupWidth * g))) = _ := iter_matchFull
      have few : (ones (Group.matchFull (Group.load table.ctrl (groupWidth * g)))).length ≤ 64 :=
        (List.length_filter_le _ _).trans (by simp)
      rw [BitMask.iter, pops_eq_ones few] at iter
      have outside : ∀ bits : List ℕ, bits.map (fun bit => groupWidth * g + (bit >>> BitMask.shift)) =
          (bits.map (· >>> BitMask.shift)).map (groupWidth * g + ·) := fun bits => by rw [List.map_map]; rfl
      rw [group, outside, iter, List.range'_eq_map_range, List.filter_map]
      refine congrArg _ (List.filter_congr fun b _ => ?_)
      rw [Function.comp_apply, full_of_large large]
    have splits : table.placesFrom (groupWidth * g) =
        (List.range' (groupWidth * g) 8).filter table.full ++ table.placesFrom (groupWidth * (g + 1)) := by
      rw [placesFrom, placesFrom, ← List.filter_append]
      refine congrArg _ ?_
      rw [groupWidth, show 8 * (g + 1) = 8 * g + 8 by omega, show table.cap - 8 * g = 8 + (table.cap - (8 * g + 8)) by omega,
        List.range'_append_1]
    have count : (ones (Group.matchFull (table.group (groupWidth * g)))).length =
        ((List.range' (groupWidth * g) 8).filter table.full).length := by rw [← here, List.length_map]
    rw [splits, List.length_append, Nat.add_assoc, indicesFrom_ones count, here]
    cases later : table.placesFrom (groupWidth * (g + 1)) with
    | nil =>
      rw [List.length_nil, Nat.zero_add, indicesFrom]
      rfl
    | cons p rest =>
      have more : g + 1 < groups := by
        by_contra last
        have none : table.placesFrom (groupWidth * (g + 1)) = [] := by
          rw [placesFrom, groupWidth, show table.cap - 8 * (g + 1) = 0 by omega]
          rfl
        simp [none] at later
      have next := ih more (by omega)
      rw [later] at next
      rw [List.length_cons, show rest.length + 1 + (fuel + 1) = (rest.length + 1 + fuel) + 1 by omega, indicesFrom,
        if_neg (by simp), if_pos (by rw [groupWidth]; omega), show groupWidth * g + groupWidth = groupWidth * (g + 1) by ring]
      rw [List.length_cons] at next
      rw [next]
      rfl

/-- The iteration yields the full buckets, each once, and ends. -/
theorem indices_spec (wf : table.WellFormed hashOf) : table.indices = .ok table.fullPlaces := by
  rcases Nat.lt_or_ge small table.cap with large | few
  · obtain ⟨m, power⟩ := wf.large_power large
    have all : table.placesFrom 0 = table.fullPlaces := by rw [placesFrom, fullPlaces, List.range_eq_range', Nat.sub_zero]
    have yields := indicesFrom_group large (show table.cap = groupWidth * 2 ^ m by rw [power, Nat.pow_add, groupWidth, Nat.mul_comm])
      (Nat.two_pow_pos m) (show 2 ^ m ≤ 0 + table.cap by rw [power, Nat.pow_add]; omega)
    rw [indices, if_pos (isLarge_iff.mpr large), wf.len_eq]
    rw [Nat.mul_zero, all] at yields
    exact yields
  · exact indices_small wf few

/-- The elements in the order of their buckets. -/
def items (table : RawTable T small) : List T := table.fullPlaces.filterMap table.bucket

theorem mem_items (wf : table.WellFormed hashOf) : x ∈ table.items ↔ Holds table.bucket x := by
  rw [items, List.mem_filterMap]
  refine exists_congr fun i => ⟨And.right, fun held => ⟨mem_fullPlaces.mpr ((wf.stored i).mp ?_), held⟩⟩
  rw [held]
  simp

theorem nodup_items (wf : table.WellFormed hashOf) : table.items.Nodup :=
  (nodup_fullPlaces table).filterMap fun _ _ _ held held' => wf.sound.once held held'

/-- The full places hold elements. -/
theorem held_of_fullPlaces (wf : table.WellFormed hashOf) (member : i ∈ table.fullPlaces) : ∃ x, table.bucket i = some x :=
  Option.ne_none_iff_exists'.mp ((wf.stored i).mpr (mem_fullPlaces.mp member))

/-- Going through places and reading each is going through the elements there. -/
theorem foldlM_read {β : Type} {places : List ℕ} (held : ∀ i ∈ places, ∃ x, table.bucket i = some x) (f : β → ℕ → T → Except Fault β)
    (init : β) : places.foldlM (fun out i => do let value ← table.read i; f out i value) init =
      (places.filterMap fun i => (table.bucket i).map (i, ·)).foldlM (fun out e => f out e.1 e.2) init := by
  induction places generalizing init with
  | nil => rfl
  | cons i places ih =>
    obtain ⟨x, isX⟩ := held i (.head _)
    simp only [List.foldlM_cons, List.filterMap_cons, isX, Option.map_some, read, bind, Except.bind]
    cases f init i x with
    | error fault => rfl
    | ok next => exact ih (fun j member => held j (.tail _ member)) next

theorem iter_spec (wf : table.WellFormed hashOf) : table.iter = .ok table.items := by
  have reads : ∀ places : List ℕ, (∀ i ∈ places, ∃ x, table.bucket i = some x) →
      places.mapM table.read = .ok (places.filterMap table.bucket) := by
    intro places held
    induction places with
    | nil => rfl
    | cons i places ih =>
      obtain ⟨x, isX⟩ := held i (.head _)
      rw [List.mapM_cons, ih fun j member => held j (.tail _ member)]
      simp only [read, isX, bind, Except.bind, List.filterMap_cons]
      rfl
  rw [iter, indices_spec wf]
  exact reads _ fun i member => held_of_fullPlaces wf member

theorem length_items (wf : table.WellFormed hashOf) : table.items.length = table.len := by
  have all : ∀ places : List ℕ, (∀ i ∈ places, ∃ x, table.bucket i = some x) → (places.filterMap table.bucket).length = places.length := by
    intro places held
    induction places with
    | nil => rfl
    | cons i places ih =>
      obtain ⟨x, isX⟩ := held i (.head _)
      simp [isX, ih fun j member => held j (.tail _ member)]
  rw [wf.len_eq]
  exact all _ fun i member => held_of_fullPlaces wf member

end Iteration

end RawTable

end Ctadl.Hybrid
