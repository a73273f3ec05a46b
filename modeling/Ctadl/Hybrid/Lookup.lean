import Ctadl.Collections.Probing
import Ctadl.Hybrid.RawTable

/-! # Lookup in a table

What holds of every table (`WellFormed`): the shape of its capacity, its load, the agreement of the metadata with the
buckets, the mirror of the first control bytes, and that a search comes to every element. From it, the loops of both
regimes end, with the element where it is there and else with an empty bucket that a search for it comes to.
-/

namespace Ctadl.Hybrid

open Function Collections Collections.Bits Probing

/-- The thresholds that the table accepts. -/
def ValidSmall (small : ℕ) : Prop := small = 0 ∨ ∃ k ≤ 6, small = 2 ^ k

/-- A capacity is zero or a power of two, and no large one is as low as a small one. -/
def ValidCap (small cap : ℕ) : Prop := cap = 0 ∨ (∃ k, cap = 2 ^ k) ∧ (cap ≤ small ∨ minLargeBuckets small ≤ cap)

/-- The buckets that a search takes in at each of its steps. -/
def stops {T : Type} (small cap : ℕ) (hashOf : T → Word) (x : T) (k i : ℕ) : Prop :=
  if small < cap then ∃ b < groupWidth, (probeAt cap (hashOf x) k + b) % cap = i else ((hashOf x).toNat + k) % cap = i

namespace RawTable

variable {T : Type} {small : ℕ}

/-- What the metadata says of a bucket. -/
def full (table : RawTable T small) (i : ℕ) : Bool := if table.isLarge then !(table.ctrl i).msb else table.occupancy.getLsbD i

def fullPlaces (table : RawTable T small) : List ℕ := (List.range table.cap).filter table.full

/-- The invariants of a table. -/
structure WellFormed (hashOf : T → Word) (table : RawTable T small) : Prop where
  valid : ValidSmall small
  shape : ValidCap small table.cap
  short : table.cap < 2 ^ 32
  len_le : table.len ≤ table.capacity
  len_eq : table.len = table.fullPlaces.length
  stored : ∀ i, table.bucket i ≠ none ↔ i < table.cap ∧ table.full i = true
  control : small < table.cap → ∀ i < table.cap, table.ctrl i = (table.bucket i).elim EMPTY fun x => h2 (hashOf x)
  mirror : small < table.cap → ∀ j < groupWidth, table.ctrl (table.cap + j) = table.ctrl j
  occupied : table.cap ≤ small → ∀ i, table.occupancy.getLsbD i = true → i < table.cap
  sound : Sound (stops small table.cap hashOf) table.bucket

/-- What a search for an element finds out. -/
def Ends (table : RawTable T small) (hashOf : T → Word) (value : T) : Probed → Prop
  | .found i => table.bucket i = some value
  | .vacant i => i < table.cap ∧ table.bucket i = none ∧ Reaches (stops small table.cap hashOf) table.bucket value i ∧
      ¬ Holds table.bucket value
  | .full => table.len = table.cap ∧ ¬ Holds table.bucket value

theorem isLarge_iff {table : RawTable T small} : table.isLarge = true ↔ small < table.cap := by simp [isLarge]

theorem full_of_large {table : RawTable T small} (large : small < table.cap) (i : ℕ) : table.full i = !(table.ctrl i).msb := by
  rw [full, if_pos (isLarge_iff.mpr large)]

theorem full_of_small {table : RawTable T small} (few : table.cap ≤ small) (i : ℕ) : table.full i = table.occupancy.getLsbD i := by
  rw [full, if_neg (by simpa [isLarge] using few)]

theorem nodup_fullPlaces (table : RawTable T small) : table.fullPlaces.Nodup := List.nodup_range.filter _

theorem mem_fullPlaces {table : RawTable T small} {i : ℕ} : i ∈ table.fullPlaces ↔ i < table.cap ∧ table.full i = true := by
  simp [fullPlaces]

end RawTable

theorem small_le {small : ℕ} (valid : ValidSmall small) : small ≤ 64 := by
  rcases valid with rfl | ⟨k, le, rfl⟩
  · omega
  · exact Nat.pow_le_pow_right (n := 2) (by omega) le

theorem eight_le {small : ℕ} : 8 ≤ minLargeBuckets small := by
  unfold minLargeBuckets minBuckets groupWidth
  split_ifs <;> omega

theorem two_pow_of_le {k : ℕ} (le : 8 ≤ 2 ^ k) : 3 ≤ k := by
  by_contra less
  have := Nat.pow_lt_pow_right (a := 2) (by omega) (by omega : k < 3)
  omega

namespace RawTable

namespace WellFormed

variable {T : Type} {small : ℕ} {table : RawTable T small} {hashOf : T → Word} (wf : table.WellFormed hashOf)
include wf

theorem exists_power (some : table.cap ≠ 0) : ∃ m, table.cap = 2 ^ m := (wf.shape.resolve_left some).1

theorem large_power (large : small < table.cap) : ∃ m, table.cap = 2 ^ (m + 3) := by
  obtain ⟨⟨k, power⟩, few | many⟩ := wf.shape.resolve_left (by omega)
  · omega
  · have enough := many
    rw [power] at enough
    obtain ⟨m, rfl⟩ := Nat.exists_eq_add_of_le (two_pow_of_le (eight_le.trans enough))
    exact ⟨m, by rw [power, Nat.add_comm]⟩

theorem eight_le_cap (large : small < table.cap) : 8 ≤ table.cap := by
  obtain ⟨m, power⟩ := wf.large_power large
  rw [power, Nat.pow_add]
  have := Nat.one_le_two_pow (n := m)
  omega

theorem mask_eq (some : table.cap ≠ 0) (i : ℕ) : i &&& table.mask = i % table.cap := by
  obtain ⟨m, power⟩ := wf.exists_power some
  rw [mask, power, Nat.and_two_pow_sub_one_eq_mod]

/-- A control byte past the end is the one it mirrors. -/
theorem ctrl_mod (large : small < table.cap) {pos b : ℕ} (inside : pos < table.cap) (near : b < groupWidth) :
    table.ctrl (pos + b) = table.ctrl ((pos + b) % table.cap) := by
  have eight := wf.eight_le_cap large
  rw [groupWidth] at near
  rcases Nat.lt_or_ge (pos + b) table.cap with less | past
  · rw [Nat.mod_eq_of_lt less]
  · obtain ⟨j, ahead⟩ := Nat.exists_eq_add_of_le past
    rw [ahead, Nat.add_mod_left, Nat.mod_eq_of_lt (by omega)]
    exact wf.mirror large j (by rw [groupWidth]; omega)

/-- An empty bucket is one whose control byte has its highest bit. -/
theorem empty_iff (large : small < table.cap) {i : ℕ} (inside : i < table.cap) : table.bucket i = none ↔ (table.ctrl i).msb = true := by
  have stored := wf.stored i
  rw [full_of_large large] at stored
  cases held : table.bucket i <;> simp_all

/-- Fewer elements than the capacity leave an empty bucket. -/
theorem exists_empty (room : table.len < table.cap) : ∃ i < table.cap, table.bucket i = none := by
  by_contra none
  push Not at none
  have all : table.fullPlaces = List.range table.cap := by
    refine List.filter_eq_self.mpr fun i member => ?_
    exact ((wf.stored i).mp (none i (List.mem_range.mp member))).2
  have := wf.len_eq
  rw [all, List.length_range] at this
  omega

theorem len_lt_of_large (large : small < table.cap) : table.len < table.cap := by
  have le := wf.len_le
  have := wf.eight_le_cap large
  rw [capacity, capacityAt, if_pos large, capacityFor] at le
  omega

end WellFormed

section Large

variable {T : Type} {small : ℕ} {table : RawTable T small} {hashOf : T → Word} (wf : table.WellFormed hashOf)
  (large : small < table.cap) {v : T}

theorem probeAt_lt {cap : ℕ} (some : 0 < cap) (hash : Word) (k : ℕ) : probeAt cap hash k < cap := Nat.mod_lt _ some

include large in
theorem stops_large {k i : ℕ} :
    stops small table.cap hashOf v k i ↔ ∃ b < groupWidth, (probeAt table.cap (hashOf v) k + b) % table.cap = i := by
  rw [stops, if_pos large]

include wf

/-- The places of a group that are scanned are full, so the scan ends; and it misses no place it is given. -/
theorem scan_spec [DecidableEq T] {pos : ℕ} (inside : pos < table.cap) {bits : List ℕ}
    (held : ∀ b ∈ bits, table.bucket ((pos + b) % table.cap) ≠ none) :
    ∃ result, table.scan v pos bits = .ok result ∧ (∀ i, result = some i → table.bucket i = some v) ∧
      (result = none → ∀ b ∈ bits, table.bucket ((pos + b) % table.cap) ≠ some v) := by
  induction bits with
  | nil => exact ⟨none, rfl, by simp, by simp⟩
  | cons b bits ih =>
    obtain ⟨x, isX⟩ := Option.ne_none_iff_exists'.mp (held b (.head _))
    obtain ⟨result, scanned, hit, miss⟩ := ih fun b member => held b (.tail _ member)
    simp only [scan, read, wf.mask_eq (by omega), isX, bind, Except.bind]
    split_ifs with same
    · refine ⟨some _, rfl, fun i isI => ?_, by simp⟩
      obtain rfl := Option.some.inj isI
      rw [isX, same]
    · refine ⟨result, scanned, hit, fun none b' member => ?_⟩
      rcases List.mem_cons.mp member with rfl | later
      · rw [isX]
        simpa using same
      · exact miss none b' later

include large

/-- The scan of a group finds the element if the group has it. -/
theorem scan_group [DecidableEq T] {pos : ℕ} (inside : pos < table.cap) :
    ∃ result, table.scan v pos (BitMask.iter (Group.matchByte (table.group pos) (h2 (hashOf v)))) = .ok result ∧
      (∀ i, result = some i → table.bucket i = some v) ∧
      (result = none → ∀ b < groupWidth, table.bucket ((pos + b) % table.cap) ≠ some v) := by
  have held : ∀ b ∈ BitMask.iter (Group.matchByte (table.group pos) (h2 (hashOf v))), table.bucket ((pos + b) % table.cap) ≠ none := by
    intro b member
    obtain ⟨near, short⟩ := full_of_mem_matchByte (msb_h2 _) member
    rw [wf.ctrl_mod large inside near] at short
    rw [Ne, wf.empty_iff large (Nat.mod_lt _ (by omega)), short]
    simp
  obtain ⟨result, scanned, hit, miss⟩ := scan_spec wf (v := v) inside held
  refine ⟨result, scanned, hit, fun none b near held => miss none b (mem_matchByte near ?_) held⟩
  rw [wf.ctrl_mod large inside near, wf.control large _ (Nat.mod_lt _ (by omega)), held]
  rfl

/-- The lowest empty place of a group, if it has one. -/
theorem lowest_spec {pos : ℕ} (inside : pos < table.cap) :
    (∀ b, BitMask.lowest (Group.matchEmpty (table.group pos)) = some b →
      b < groupWidth ∧ table.bucket ((pos + b) % table.cap) = none) ∧
    (BitMask.lowest (Group.matchEmpty (table.group pos)) = none → ∀ b < groupWidth, table.bucket ((pos + b) % table.cap) ≠ none) := by
  rw [group, lowest_matchEmpty]
  refine ⟨fun b found => ?_, fun none b near => ?_⟩
  · obtain ⟨isEmpty, near, -⟩ := List.find?_range_eq_some.mp found
    have near := List.mem_range.mp near
    refine ⟨near, (wf.empty_iff large (Nat.mod_lt _ (by omega))).mpr ?_⟩
    rwa [← wf.ctrl_mod large inside near]
  · have isFull := List.find?_eq_none.mp none b (List.mem_range.mpr near)
    rw [Ne, wf.empty_iff large (Nat.mod_lt _ (by omega)), ← wf.ctrl_mod large inside near]
    exact isFull

/-- A probe meets an empty bucket before it has met as many groups as there are buckets. -/
theorem exists_stop : ∃ k < table.cap, ∃ i, stops small table.cap hashOf v k i ∧ table.bucket i = none := by
  obtain ⟨i, inside, empty⟩ := wf.exists_empty (wf.len_lt_of_large large)
  obtain ⟨m, power⟩ := wf.large_power large
  obtain ⟨k, early, b, near, reaches⟩ := exists_group power (hashOf v) inside
  refine ⟨k, ?_, i, (stops_large large).mpr ⟨b, near, reaches⟩, empty⟩
  rw [power, Nat.pow_add]
  omega

theorem moveNext_probeAt (k : ℕ) : (ProbeSeq.moveNext ⟨probeAt table.cap (hashOf v) k, groupWidth * k⟩ table.mask) =
    ⟨probeAt table.cap (hashOf v) (k + 1), groupWidth * (k + 1)⟩ := by
  obtain ⟨m, power⟩ := wf.large_power large
  rw [mask, ← probe_iterate power, ← probe_iterate power, Function.iterate_succ_apply']

/-- From a stop before which there is no empty bucket, the search of an insertion ends. -/
theorem largeProbeFrom_spec [DecidableEq T] {fuel k : ℕ} (taken : Taken (stops small table.cap hashOf) table.bucket v k)
    (missed : ∀ j < k, ∀ i, stops small table.cap hashOf v j i → table.bucket i ≠ some v)
    (enough : ∃ j < k + fuel, ∃ i, stops small table.cap hashOf v j i ∧ table.bucket i = none) :
    ∃ probed, table.largeProbeFrom (h2 (hashOf v)) v fuel ⟨probeAt table.cap (hashOf v) k, groupWidth * k⟩ = .ok probed ∧
      probed ≠ .full ∧ table.Ends hashOf v probed := by
  induction fuel generalizing k with
  | zero =>
    obtain ⟨j, less, i, stop, empty⟩ := enough
    have := taken.le stop empty
    omega
  | succ fuel ih =>
    have inside := probeAt_lt (by omega : 0 < table.cap) (hashOf v) k
    obtain ⟨result, scanned, hit, miss⟩ := scan_group wf large (v := v) inside
    obtain ⟨low, noLow⟩ := lowest_spec wf large inside
    simp only [largeProbeFrom, scanned, bind, Except.bind]
    cases result with
    | some i => exact ⟨.found i, rfl, by simp, hit i rfl⟩
    | none =>
      have missHere : ∀ i, stops small table.cap hashOf v k i → table.bucket i ≠ some v := by
        intro i stop
        obtain ⟨b, near, rfl⟩ := (stops_large large).mp stop
        exact miss rfl b near
      cases found : BitMask.lowest (Group.matchEmpty (table.group (probeAt table.cap (hashOf v) k))) with
      | some b =>
        obtain ⟨near, empty⟩ := low b found
        have first : stops small table.cap hashOf v k ((probeAt table.cap (hashOf v) k + b) % table.cap) :=
          (stops_large large).mpr ⟨b, near, rfl⟩
        refine ⟨.vacant ((probeAt table.cap (hashOf v) k + b) % table.cap), by simp only [wf.mask_eq (by omega : table.cap ≠ 0)], by simp,
          Nat.mod_lt _ (by omega), empty, ⟨k, first, taken⟩, ?_⟩
        refine wf.sound.not_holds (fun j le i stop => ?_) first empty
        rcases Nat.lt_or_eq_of_le le with before | rfl
        · exact missed j before i stop
        · exact missHere i stop
      | none =>
        simp only [moveNext_probeAt wf large]
        refine ih (taken.succ fun i stop => ?_) (fun j less i stop => ?_) ?_
        · obtain ⟨b, near, rfl⟩ := (stops_large large).mp stop
          exact noLow found b near
        · rcases Nat.lt_succ_iff_lt_or_eq.mp less with before | rfl
          · exact missed j before i stop
          · exact missHere i stop
        · obtain ⟨j, less, rest⟩ := enough
          exact ⟨j, by omega, rest⟩

theorem new_probeAt : ProbeSeq.new (hashOf v) table.mask = ⟨probeAt table.cap (hashOf v) 0, groupWidth * 0⟩ := by
  obtain ⟨m, power⟩ := wf.large_power large
  exact probe_iterate power 0

/-- The search of an insertion into a large table. -/
theorem largeProbe_spec [DecidableEq T] : ∃ probed, table.largeProbe (hashOf v) v = .ok probed ∧ probed ≠ .full ∧ table.Ends hashOf v probed := by
  rw [largeProbe, new_probeAt wf large]
  refine largeProbeFrom_spec wf large taken_zero (by simp) ?_
  simpa using exists_stop wf large (v := v)

omit wf large in
/-- A lookup makes the same steps as the search of an insertion. -/
theorem largeFindFrom_eq [DecidableEq T] {byte : Byte} {fuel : ℕ} {probe : ProbeSeq} : table.largeFindFrom byte v fuel probe =
    (table.largeProbeFrom byte v fuel probe).map fun
      | .found i => some i
      | .vacant _ | .full => none := by
  induction fuel generalizing probe with
  | zero => rfl
  | succ fuel ih =>
    simp only [largeFindFrom, largeProbeFrom, bind, Except.bind]
    cases table.scan v probe.pos (BitMask.iter (Group.matchByte (table.group probe.pos) byte)) with
    | error fault => rfl
    | ok result =>
      cases result with
      | some i => rfl
      | none =>
        simp only [BitMask.lowest, ih]
        by_cases none : Group.matchEmpty (table.group probe.pos) = 0#64
        · rw [if_neg (by simpa using none)]
          simp only [none]
          rfl
        · rw [if_pos none]
          simp only [if_neg none]
          rfl

/-- From a stop before which there is no empty bucket, the first empty bucket is found. -/
theorem insertSlotFrom_spec {fuel k : ℕ} (taken : Taken (stops small table.cap hashOf) table.bucket v k)
    (enough : ∃ j < k + fuel, ∃ i, stops small table.cap hashOf v j i ∧ table.bucket i = none) :
    ∃ i, table.insertSlotFrom fuel ⟨probeAt table.cap (hashOf v) k, groupWidth * k⟩ = .ok i ∧ i < table.cap ∧ table.bucket i = none ∧
      Reaches (stops small table.cap hashOf) table.bucket v i := by
  induction fuel generalizing k with
  | zero =>
    obtain ⟨j, less, i, stop, empty⟩ := enough
    have := taken.le stop empty
    omega
  | succ fuel ih =>
    obtain ⟨low, noLow⟩ := lowest_spec wf large (probeAt_lt (by omega : 0 < table.cap) (hashOf v) k)
    simp only [insertSlotFrom]
    cases found : BitMask.lowest (Group.matchEmpty (table.group (probeAt table.cap (hashOf v) k))) with
    | some b =>
      obtain ⟨near, empty⟩ := low b found
      exact ⟨(probeAt table.cap (hashOf v) k + b) % table.cap, by simp only [wf.mask_eq (by omega : table.cap ≠ 0)],
        Nat.mod_lt _ (by omega), empty, k, (stops_large large).mpr ⟨b, near, rfl⟩, taken⟩
    | none =>
      simp only [moveNext_probeAt wf large]
      refine ih (taken.succ fun i stop => ?_) ?_
      · obtain ⟨b, near, rfl⟩ := (stops_large large).mp stop
        exact noLow found b near
      · obtain ⟨j, less, rest⟩ := enough
        exact ⟨j, by omega, rest⟩

theorem findInsertSlot_spec : ∃ i, table.findInsertSlot (hashOf v) = .ok i ∧ i < table.cap ∧ table.bucket i = none ∧
    Reaches (stops small table.cap hashOf) table.bucket v i := by
  rw [findInsertSlot, new_probeAt wf large]
  refine insertSlotFrom_spec wf large taken_zero ?_
  simpa using exists_stop wf large (v := v)

end Large

section Small

variable {T : Type} {small : ℕ} {table : RawTable T small} {hashOf : T → Word} (wf : table.WellFormed hashOf)
  (few : table.cap ≤ small) {v : T}
include wf few

omit wf in
theorem stops_small {k i : ℕ} : stops small table.cap hashOf v k i ↔ ((hashOf v).toNat + k) % table.cap = i := by
  rw [stops, if_neg (by omega)]

theorem occupancy_iff {i : ℕ} : table.occupancy.getLsbD i = true ↔ table.bucket i ≠ none := by
  rw [wf.stored i, full_of_small few]
  exact ⟨fun isSet => ⟨wf.occupied few i isSet, isSet⟩, And.right⟩

omit wf few in
/-- So many slots on from any one, all slots have been passed. -/
theorem exists_offset {cap i : ℕ} (hash : ℕ) (inside : i < cap) : ∃ k < cap, (hash + k) % cap = i := by
  have less := Nat.mod_lt hash (by omega : cap > 0)
  refine ⟨(cap + i - hash % cap) % cap, Nat.mod_lt _ (by omega), ?_⟩
  rw [Nat.add_mod_mod, ← Nat.mod_add_mod, show hash % cap + (cap + i - hash % cap) = i + cap by omega, Nat.add_mod_right,
    Nat.mod_eq_of_lt inside]

omit few in
theorem next_slot {k : ℕ} (some : table.cap ≠ 0) :
    ((((hashOf v).toNat + k) % table.cap + 1) &&& table.mask) = ((hashOf v).toNat + (k + 1)) % table.cap := by
  rw [wf.mask_eq some, Nat.mod_add_mod, Nat.add_assoc]

theorem smallProbeFrom_spec [DecidableEq T] {n k : ℕ} (all : k + n = table.cap) (taken : Taken (stops small table.cap hashOf) table.bucket v k)
    (missed : ∀ j < k, ∀ i, stops small table.cap hashOf v j i → table.bucket i ≠ some v) :
    ∃ probed, table.smallProbeFrom v n (((hashOf v).toNat + k) % table.cap) = .ok probed ∧ table.Ends hashOf v probed := by
  induction n generalizing k with
  | zero =>
    -- All slots have been passed.
    have isFull : ∀ i < table.cap, table.bucket i ≠ none ∧ table.bucket i ≠ some v := by
      intro i inside
      obtain ⟨j, less, reaches⟩ := exists_offset (hashOf v).toNat inside
      have stop := (stops_small few).mpr reaches
      exact ⟨taken j (by omega) i stop, missed j (by omega) i stop⟩
    refine ⟨.full, rfl, ?_, ?_⟩
    · rw [wf.len_eq, fullPlaces, List.filter_eq_self.mpr, List.length_range]
      intro i member
      exact ((wf.stored i).mp (isFull i (List.mem_range.mp member)).1).2
    · rintro ⟨i, held⟩
      have inside := ((wf.stored i).mp (by rw [held]; simp)).1
      exact (isFull i inside).2 held
  | succ n ih =>
    have some : table.cap ≠ 0 := by omega
    have first : stops small table.cap hashOf v k (((hashOf v).toNat + k) % table.cap) := (stops_small few).mpr rfl
    have here : ∀ {i}, stops small table.cap hashOf v k i → i = ((hashOf v).toNat + k) % table.cap :=
      fun stop => ((stops_small few).mp stop).symm
    rw [smallProbeFrom]
    split_ifs with clear
    · have empty : table.bucket (((hashOf v).toNat + k) % table.cap) = none := by
        by_contra held
        rw [(occupancy_iff wf few).mpr held] at clear
        simp at clear
      refine ⟨_, rfl, Nat.mod_lt _ (by omega), empty, ⟨k, first, taken⟩, wf.sound.not_holds (fun j le i stop => ?_) first empty⟩
      rcases Nat.lt_or_eq_of_le le with before | rfl
      · exact missed j before i stop
      · rw [here stop, empty]
        simp
    · have held := (occupancy_iff wf few).mp (Bool.eq_true_of_not_eq_false clear)
      obtain ⟨x, isX⟩ := Option.ne_none_iff_exists'.mp held
      simp only [read, isX, bind, Except.bind]
      split_ifs with same
      · exact ⟨_, rfl, by rw [Ends, isX, same]⟩
      · rw [next_slot wf some]
        refine ih (by omega) (taken.succ fun i stop => ?_) fun j less i stop => ?_
        · rw [here stop]
          exact held
        · rcases Nat.lt_succ_iff_lt_or_eq.mp less with before | rfl
          · exact missed j before i stop
          · rw [here stop, isX]
            simpa using same

theorem smallProbe_spec [DecidableEq T] : ∃ probed, table.smallProbe (hashOf v) v = .ok probed ∧ table.Ends hashOf v probed := by
  by_cases some : table.cap = 0
  · have absent : ¬ Holds table.bucket v := by
      rintro ⟨i, held⟩
      have := ((wf.stored i).mp (by rw [held]; simp)).1
      omega
    have empty : table.len = table.cap := by rw [wf.len_eq, fullPlaces, some]; rfl
    exact ⟨.full, by rw [smallProbe, some]; rfl, empty, absent⟩
  · rw [smallProbe, wf.mask_eq some]
    exact smallProbeFrom_spec wf few (k := 0) (by omega) taken_zero (by simp)

theorem emptySlotFrom_spec {fuel k : ℕ} (taken : Taken (stops small table.cap hashOf) table.bucket v k)
    (enough : ∃ j < k + fuel, ∃ i, stops small table.cap hashOf v j i ∧ table.bucket i = none) (some : table.cap ≠ 0) :
    ∃ i, table.emptySlotFrom fuel (((hashOf v).toNat + k) % table.cap) = .ok i ∧ i < table.cap ∧ table.bucket i = none ∧
      Reaches (stops small table.cap hashOf) table.bucket v i := by
  induction fuel generalizing k with
  | zero =>
    obtain ⟨j, less, i, stop, empty⟩ := enough
    have := taken.le stop empty
    omega
  | succ fuel ih =>
    rw [emptySlotFrom]
    split_ifs with isSet
    · rw [next_slot wf some]
      refine ih (taken.succ fun i stop => ?_) ?_
      · rw [← (stops_small few).mp stop]
        exact (occupancy_iff wf few).mp isSet
      · obtain ⟨j, less, rest⟩ := enough
        exact ⟨j, by omega, rest⟩
    · refine ⟨_, rfl, Nat.mod_lt _ (by omega), ?_, k, (stops_small few).mpr rfl, taken⟩
      by_contra held
      exact isSet ((occupancy_iff wf few).mpr held)

theorem smallEmptySlot_spec (room : table.len < table.cap) :
    ∃ i, table.emptySlotFrom table.cap ((hashOf v).toNat &&& table.mask) = .ok i ∧ i < table.cap ∧ table.bucket i = none ∧
      Reaches (stops small table.cap hashOf) table.bucket v i := by
  have some : table.cap ≠ 0 := by omega
  obtain ⟨i, inside, empty⟩ := wf.exists_empty room
  obtain ⟨k, less, reaches⟩ := exists_offset (hashOf v).toNat inside
  rw [wf.mask_eq some]
  exact emptySlotFrom_spec wf few (k := 0) taken_zero ⟨k, by omega, i, (stops_small few).mpr reaches, empty⟩ some

end Small

/-- A lookup ends, and finds the element if and only if it is there. -/
theorem findIndex_spec {T : Type} [DecidableEq T] {small : ℕ} {table : RawTable T small} {hashOf : T → Word}
    (wf : table.WellFormed hashOf) (v : T) :
    ∃ found, table.findIndex (hashOf v) v = .ok found ∧ (found.isSome ↔ Holds table.bucket v) := by
  rw [findIndex]
  split_ifs with large
  · obtain ⟨probed, searched, notFull, ends⟩ := largeProbe_spec wf (isLarge_iff.mp large) (v := v)
    rw [largeFindIndex, largeFindFrom_eq, ← largeProbe, searched]
    cases probed with
    | found i => exact ⟨some i, rfl, by simpa using ⟨i, ends⟩⟩
    | vacant i => exact ⟨none, rfl, by simpa using ends.2.2.2⟩
    | full => exact absurd rfl notFull
  · obtain ⟨probed, searched, ends⟩ := smallProbe_spec wf (by simpa [isLarge] using large) (v := v)
    rw [searched]
    cases probed with
    | found i => exact ⟨some i, rfl, by simpa using ⟨i, ends⟩⟩
    | vacant i => exact ⟨none, rfl, by simpa using ends.2.2.2⟩
    | full => exact ⟨none, rfl, by simpa using ends.2⟩

end RawTable

end Ctadl.Hybrid
