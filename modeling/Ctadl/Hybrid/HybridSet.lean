import Ctadl.Hybrid.Growth

/-! # The hybrid set

A table with its hasher. Runs of the operations on a family of sets are compared with the same operations on finite
sets: a step returns what the finite sets answer and leaves sets that agree with them, or is refused for its size. The
one way this fails is a reservation whose sums wrap to less than the set holds.
-/

namespace Ctadl.Hybrid

open Function Collections Probing

structure HybridSet (T S : Type) (small : ℕ) where
  table : RawTable T small
  hasher : S

namespace HybridSet

variable {T S : Type} {small : ℕ}

def new (hasher : S) : HybridSet T S small := ⟨.new, hasher⟩

def withCapacity (hasher : S) (capacity : ℕ) : Except Fault (HybridSet T S small) := do
  let table ← RawTable.withCapacity capacity
  .ok ⟨table, hasher⟩

def len (set : HybridSet T S small) : ℕ := set.table.len

def iter (set : HybridSet T S small) : Except Fault (List T) := set.table.iter

def clone (set : HybridSet T S small) : Except Fault (HybridSet T S small) := do
  let table ← set.table.clone
  .ok ⟨table, set.hasher⟩

variable (hashOne : S → T → Word)

def reserve (set : HybridSet T S small) (additional : ℕ) : Except Fault (HybridSet T S small) := do
  let table ← set.table.reserve additional (hashOne set.hasher)
  .ok ⟨table, set.hasher⟩

variable [DecidableEq T]

def contains (set : HybridSet T S small) (value : T) : Except Fault Bool := do
  let found ← set.table.findIndex (hashOne set.hasher value) value
  .ok found.isSome

def insert (set : HybridSet T S small) (value : T) : Except Fault (HybridSet T S small × Bool) := do
  let (table, isNew) ← set.table.insert (hashOne set.hasher value) value (hashOne set.hasher)
  .ok (⟨table, set.hasher⟩, isNew)

def extend (set : HybridSet T S small) (values : List T) : Except Fault (HybridSet T S small) :=
  values.foldlM (fun set value => do
    let (set, _) ← set.insert hashOne value
    .ok set) set

/-- The union, with the smaller side inserted into the larger, and how many elements are new to the first set. -/
def merge (set other : HybridSet T S small) : Except Fault (HybridSet T S small × ℕ) :=
  if other.len = 0 then .ok (set, 0)
  else if set.len = 0 then .ok (other, other.len)
  else do
    let (target, source) := if other.len > set.len then (other, set) else (set, other)
    let merged ← target.extend hashOne (← source.iter)
    .ok (merged, usizeSub merged.len set.len)

end HybridSet

/-- An operation on a family of sets. A merge takes the second set out of the family. -/
inductive Op (T S : Type) where
  | withCapacity (r : ℕ) (hasher : S) (capacity : Word)
  | insert (r : ℕ) (value : T)
  | merge (r other : ℕ)
  | reserve (r : ℕ) (additional : Word)
  | clone (source r : ℕ)
  | extend (r : ℕ) (values : List T)

inductive Reply where
  | done
  | isNew (flag : Bool)
  | added (count : ℕ)
deriving DecidableEq, Repr

section Run

variable {T S : Type} {small : ℕ} [DecidableEq T] (hashOne : S → T → Word)

def step (sets : ℕ → HybridSet T S small) : Op T S → Except Fault ((ℕ → HybridSet T S small) × Reply)
  | .withCapacity r hasher capacity => do
    let set ← HybridSet.withCapacity hasher capacity.toNat
    .ok (update sets r set, .done)
  | .insert r value => do
    let (set, isNew) ← (sets r).insert hashOne value
    .ok (update sets r set, .isNew isNew)
  | .merge r s => do
    let taken := update sets s (.new (sets s).hasher)
    let (set, count) ← (taken r).merge hashOne (sets s)
    .ok (update taken r set, .added count)
  | .reserve r additional => do
    let set ← (sets r).reserve hashOne additional.toNat
    .ok (update sets r set, .done)
  | .clone source r => do
    let set ← (sets source).clone
    .ok (update sets r set, .done)
  | .extend r values => do
    let set ← (sets r).extend hashOne values
    .ok (update sets r set, .done)

/-- The same operation on finite sets. -/
def specStep (model : ℕ → Finset T) : Op T S → (ℕ → Finset T) × Reply
  | .withCapacity r _ _ => (update model r ∅, .done)
  | .insert r value => (update model r (insert value (model r)), .isNew (value ∉ model r))
  | .merge r s =>
    let taken := update model s ∅
    (update taken r (taken r ∪ model s), .added (model s \ taken r).card)
  | .reserve _ _ => (model, .done)
  | .clone source r => (update model r (model source), .done)
  | .extend r values => (update model r (model r ∪ values.toFinset), .done)

/-- A set that is well formed and answers every query as a finite set does. -/
structure Agrees (set : HybridSet T S small) (elements : Finset T) : Prop where
  wellFormed : set.table.WellFormed (hashOne set.hasher)
  contains : ∀ value, set.contains hashOne value = .ok (decide (value ∈ elements))
  len : set.len = elements.card
  iter : ∃ items, set.iter = .ok items ∧ items.Nodup ∧ items.toFinset = elements

/-- The sets agree with the finite sets all along a run, and so do the replies, until a size is refused or the run is over. -/
def Follows : List (Op T S) → (ℕ → HybridSet T S small) → (ℕ → Finset T) → Prop
  | [], sets, model => ∀ r, Agrees hashOne (sets r) (model r)
  | op :: ops, sets, model => (∀ r, Agrees hashOne (sets r) (model r)) ∧
    match step hashOne sets op with
    | .ok (sets', reply) => reply = (specStep model op).2 ∧ Follows ops sets' (specStep model op).1
    | .error fault => fault = .panic

/-- No reservation of the run overruns. -/
def Fits : List (Op T S) → (ℕ → HybridSet T S small) → Prop
  | [], _ => True
  | op :: ops, sets => (∀ r additional, op = .reserve r additional → ¬ (sets r).table.Overruns additional.toNat) ∧
    ∀ sets' reply, step hashOne sets op = .ok (sets', reply) → Fits ops sets'

def runs (ops : List (Op T S)) (sets : ℕ → HybridSet T S small) : Except Fault (ℕ → HybridSet T S small) :=
  ops.foldlM (fun sets op => do
    let (sets, _) ← step hashOne sets op
    .ok sets) sets

end Run

section Agreement

variable {T S : Type} {small : ℕ} {hashOne : S → T → Word} {set other out : HybridSet T S small}

/-- A well-formed set with certain elements. -/
structure Represents (hashOne : S → T → Word) (set : HybridSet T S small) (elements : Finset T) : Prop where
  wf : set.table.WellFormed (hashOne set.hasher)
  holds : ∀ value, Holds set.table.bucket value ↔ value ∈ elements

theorem represents_new (valid : ValidSmall small) (hasher : S) : Represents hashOne (HybridSet.new hasher : HybridSet T S small) ∅ :=
  ⟨RawTable.wellFormed_new (hashOne hasher) valid, fun value => by simp [HybridSet.new, RawTable.new, not_holds_empty]⟩

variable {elements others : Finset T} (represents : Represents hashOne set elements)

section Length

variable [DecidableEq T]
include represents

theorem Represents.items : set.table.items.toFinset = elements :=
  Finset.ext fun value => by rw [List.mem_toFinset, RawTable.mem_items represents.wf, represents.holds]

theorem Represents.len : set.len = elements.card := by
  rw [HybridSet.len, ← RawTable.length_items represents.wf, ← represents.items,
    List.toFinset_card_of_nodup (RawTable.nodup_items represents.wf)]

theorem Represents.agrees : Agrees hashOne set elements where
  wellFormed := represents.wf
  contains value := by
    obtain ⟨found, looked, isSome⟩ := RawTable.findIndex_spec represents.wf value
    rw [represents.holds] at isSome
    simp only [HybridSet.contains, looked, bind, Except.bind]
    exact congrArg _ (Bool.eq_iff_iff.mpr (by simpa using isSome))
  len := represents.len
  iter := ⟨_, RawTable.iter_spec represents.wf, RawTable.nodup_items represents.wf, represents.items⟩

end Length

/-- What an operation on one set may return. -/
def Returns (hashOne : S → T → Word) (elements : Finset T) {R : Type} (reply : R) : Except Fault (HybridSet T S small × R) → Prop
  | .ok (out, said) => Represents hashOne out elements ∧ said = reply
  | .error fault => fault = .panic

section Operations

theorem withCapacity_represents (hashOne : S → T → Word) (valid : ValidSmall small) (hasher : S) (n : ℕ) :
    HybridSet.withCapacity hasher n = (.error .panic : Except Fault (HybridSet T S small)) ∨
      ∃ out : HybridSet T S small, HybridSet.withCapacity hasher n = .ok out ∧ Represents hashOne out ∅ := by
  rcases RawTable.withCapacity_spec (hashOne hasher) valid n with refused | ⟨fresh, made, wf, -, absent⟩
  · simp only [HybridSet.withCapacity, refused]
    exact .inl rfl
  · simp only [HybridSet.withCapacity, made]
    exact .inr ⟨⟨fresh, hasher⟩, rfl, wf, fun value => by simp [absent]⟩

include represents

theorem insert_represents [DecidableEq T] (value : T) :
    Returns hashOne (insert value elements) (decide (value ∉ elements)) (set.insert hashOne value) := by
  have inserts := RawTable.insert_spec represents.wf value
  unfold HybridSet.insert
  cases done : set.table.insert (hashOne set.hasher value) value (hashOne set.hasher) with
  | error fault =>
    rw [done] at inserts
    exact inserts
  | ok result =>
    rw [done] at inserts
    obtain ⟨wf, isNew, holds, -⟩ := inserts
    refine ⟨⟨wf, fun y => by rw [holds, Finset.mem_insert, represents.holds]⟩, Bool.eq_iff_iff.mpr ?_⟩
    rw [isNew, represents.holds, decide_eq_true_eq]

theorem extend_represents [DecidableEq T] (values : List T) : set.extend hashOne values = .error .panic ∨
    ∃ out, set.extend hashOne values = .ok out ∧ Represents hashOne out (elements ∪ values.toFinset) := by
  induction values generalizing set elements with
  | nil => exact .inr ⟨set, rfl, by simpa using represents⟩
  | cons value values ih =>
    have inserted := insert_represents represents value
    simp only [HybridSet.extend, List.foldlM_cons, bind, Except.bind]
    cases done : set.insert hashOne value with
    | error fault =>
      rw [done] at inserted
      obtain rfl : fault = .panic := inserted
      exact .inl rfl
    | ok result =>
      rw [done] at inserted
      rcases ih inserted.1 with refused | ⟨out, extended, represents'⟩
      · exact .inl refused
      · refine .inr ⟨out, extended, ?_⟩
        rwa [List.toFinset_cons, Finset.union_insert, ← Finset.insert_union]

theorem reserve_represents {additional : ℕ} (fits : ¬ set.table.Overruns additional) :
    set.reserve hashOne additional = .error .panic ∨ ∃ out, set.reserve hashOne additional = .ok out ∧ Represents hashOne out elements := by
  rcases RawTable.reserve_spec represents.wf fits with refused | ⟨out, done, wf, -, holds⟩
  · simp only [HybridSet.reserve, refused]
    exact .inl rfl
  · simp only [HybridSet.reserve, done]
    exact .inr ⟨⟨out, set.hasher⟩, rfl, wf, fun value => by rw [holds, represents.holds]⟩

theorem clone_represents : ∃ out, set.clone = .ok out ∧ Represents hashOne out elements := by
  obtain ⟨out, done, wf, -, holds⟩ := RawTable.clone_spec represents.wf
  refine ⟨⟨out, set.hasher⟩, ?_, wf, fun value => by rw [holds, represents.holds]⟩
  simp only [HybridSet.clone, done]
  rfl

theorem len_lt : set.len < 2 ^ 32 :=
  (represents.wf.len_le.trans set.table.capacity_le_cap).trans_lt represents.wf.short

/-- A merge is the union, and counts the elements that the first set did not have. -/
theorem merge_represents [DecidableEq T] (represents' : Represents hashOne other others) :
    Returns hashOne (elements ∪ others) (others \ elements).card (set.merge hashOne other) := by
  -- Whichever side is the target, the union comes out.
  have unites : ∀ {target source : HybridSet T S small} {theirs ours : Finset T}, Represents hashOne target theirs →
      Represents hashOne source ours → theirs ∪ ours = elements ∪ others →
      Returns hashOne (elements ∪ others) (others \ elements).card (do
        let merged ← target.extend hashOne (← source.iter)
        .ok (merged, usizeSub merged.len set.len)) := by
    intro target source theirs ours isTarget isSource union
    simp only [HybridSet.iter, RawTable.iter_spec isSource.wf, bind, Except.bind]
    rcases extend_represents isTarget source.table.items with refused | ⟨out, extended, unions⟩
    · rw [refused]
      rfl
    · rw [extended]
      rw [isSource.items, union] at unions
      refine ⟨unions, ?_⟩
      have all := len_lt unions
      have grown : (elements ∪ others).card = elements.card + (others \ elements).card := by
        rw [← Finset.card_union_of_disjoint Finset.disjoint_sdiff, Finset.union_sdiff_self_eq_union]
      have isLen := unions.len
      have isLen' := represents.len
      rw [usizeSub]
      omega
  unfold HybridSet.merge
  split_ifs with empty' empty larger
  · rw [represents'.len, Finset.card_eq_zero] at empty'
    simpa [Returns, empty'] using represents
  · rw [represents.len, Finset.card_eq_zero] at empty
    refine ⟨by simpa [empty] using represents', ?_⟩
    rw [represents'.len, empty, Finset.sdiff_empty]
  · exact unites represents' represents (Finset.union_comm _ _)
  · exact unites represents represents' rfl

end Operations

section Steps

variable {sets sets' : ℕ → HybridSet T S small} {model : ℕ → Finset T} {op : Op T S}

theorem represents_update (all : ∀ r, Represents hashOne (sets r) (model r)) {r : ℕ} (here : Represents hashOne out elements) :
    ∀ s, Represents hashOne (update sets r out s) (update model r elements s) := by
  intro s
  by_cases same : s = r
  · subst same
    simpa using here
  · simpa [same] using all s

variable [DecidableEq T]

/-- A step that does not overrun. -/
theorem step_represents (valid : ValidSmall small) (all : ∀ r, Represents hashOne (sets r) (model r))
    (fits : ∀ r additional, op = .reserve r additional → ¬ (sets r).table.Overruns additional.toNat) :
    step hashOne sets op = .error .panic ∨ ∃ sets', step hashOne sets op = .ok (sets', (specStep model op).2) ∧
      ∀ r, Represents hashOne (sets' r) ((specStep model op).1 r) := by
  cases op with
  | withCapacity r hasher capacity =>
    rcases withCapacity_represents hashOne valid hasher capacity.toNat with refused | ⟨out, made, here⟩
    · simp only [step, refused]
      exact .inl rfl
    · simp only [step, made]
      exact .inr ⟨_, rfl, represents_update all here⟩
  | insert r value =>
    have inserted := insert_represents (all r) value
    cases done : (sets r).insert hashOne value with
    | error fault =>
      rw [done] at inserted
      obtain rfl : fault = .panic := inserted
      simp only [step, done]
      exact .inl rfl
    | ok result =>
      rw [done] at inserted
      obtain ⟨here, said⟩ := inserted
      refine .inr ⟨update sets r result.1, ?_, represents_update all here⟩
      simp only [step, done, bind, Except.bind, specStep, said]
  | merge r s =>
    have taken := represents_update all (r := s) (represents_new valid (sets s).hasher)
    have merged := merge_represents (taken r) (all s)
    cases done : (update sets s (HybridSet.new (sets s).hasher) r).merge hashOne (sets s) with
    | error fault =>
      rw [done] at merged
      obtain rfl : fault = .panic := merged
      simp only [step, done]
      exact .inl rfl
    | ok result =>
      rw [done] at merged
      obtain ⟨here, said⟩ := merged
      refine .inr ⟨update (update sets s (HybridSet.new (sets s).hasher)) r result.1, ?_, represents_update taken here⟩
      simp only [step, done, bind, Except.bind, specStep, said]
  | reserve r additional =>
    rcases reserve_represents (all r) (fits r additional rfl) with refused | ⟨out, done, here⟩
    · simp only [step, refused]
      exact .inl rfl
    · simp only [step, done]
      refine .inr ⟨_, rfl, fun s => ?_⟩
      have updated := represents_update all (r := r) here s
      rwa [update_eq_self] at updated
  | clone source r =>
    obtain ⟨out, done, here⟩ := clone_represents (all source)
    simp only [step, done]
    exact .inr ⟨_, rfl, represents_update all here⟩
  | extend r values =>
    rcases extend_represents (all r) values with refused | ⟨out, done, here⟩
    · simp only [step, refused]
      exact .inl rfl
    · simp only [step, done]
      exact .inr ⟨_, rfl, represents_update all here⟩

theorem Follows.agrees {ops : List (Op T S)} (follows : Follows hashOne ops sets model) : ∀ r, Agrees hashOne (sets r) (model r) := by
  cases ops with
  | nil => exact follows
  | cons op ops => exact follows.1

/-- A run of sets that agree follows the finite sets if and only if no reservation overruns. -/
theorem follows_iff_fits (valid : ValidSmall small) (ops : List (Op T S)) (all : ∀ r, Represents hashOne (sets r) (model r)) :
    Follows hashOne ops sets model ↔ Fits hashOne ops sets := by
  induction ops generalizing sets model with
  | nil => exact ⟨fun _ => trivial, fun _ r => (all r).agrees⟩
  | cons op ops ih =>
    constructor
    · rintro ⟨-, follows⟩
      have fits : ∀ r additional, op = .reserve r additional → ¬ (sets r).table.Overruns additional.toNat := by
        rintro r additional rfl overruns
        obtain ⟨notRefused, notFormed⟩ := RawTable.reserve_overruns (all r).wf overruns
        cases done : (sets r).table.reserve additional.toNat (hashOne (sets r).hasher) with
        | error fault =>
          simp only [step, HybridSet.reserve, done, bind, Except.bind] at follows
          exact notRefused (done.trans (congrArg _ follows))
        | ok out =>
          simp only [step, HybridSet.reserve, done, bind, Except.bind] at follows
          have agrees := (follows.2.agrees r).wellFormed
          rw [update_self] at agrees
          exact notFormed out done agrees
      refine ⟨fits, fun sets' reply stepped => ?_⟩
      simp only [stepped] at follows
      rcases step_represents valid all fits with refused | ⟨next, stepped', represents⟩
      · rw [stepped] at refused
        simp at refused
      · rw [stepped, Except.ok.injEq, Prod.mk.injEq] at stepped'
        obtain ⟨rfl, -⟩ := stepped'
        exact (ih represents).mp follows.2
    · rintro ⟨fits, later⟩
      refine ⟨fun r => (all r).agrees, ?_⟩
      rcases step_represents valid all fits with refused | ⟨sets', stepped, represents⟩
      · rw [refused]
      · rw [stepped]
        exact ⟨rfl, (ih represents).mpr (later _ _ stepped)⟩

/-- A run that follows the finite sets does not go on for ever. -/
theorem Follows.runs_ne_hang {ops : List (Op T S)} (follows : Follows hashOne ops sets model) : runs hashOne ops sets ≠ .error .hang := by
  induction ops generalizing sets model with
  | nil => simp [runs, pure, Except.pure]
  | cons op ops ih =>
    obtain ⟨-, follows⟩ := follows
    simp only [runs, List.foldlM_cons, bind, Except.bind]
    cases stepped : step hashOne sets op with
    | error fault =>
      simp only [stepped] at follows
      simp [follows]
    | ok result =>
      simp only [stepped] at follows
      exact ih follows.2

end Steps

end Agreement

section Runs

variable {T S : Type} {small : ℕ} [DecidableEq T]

/-- A run from empty sets, over any threshold, hash functions and operations, agrees with the run on finite sets until
a size is refused, if and only if no reservation comes out, its sums wrapped, at a size that holds less than the set does. -/
theorem follows_iff (valid : ValidSmall small) (hashOne : S → T → Word) (hashers : ℕ → S) (ops : List (Op T S)) :
    Follows hashOne ops (fun r => (.new (hashers r) : HybridSet T S small)) (fun _ => ∅) ↔
      Fits hashOne ops (fun r => (.new (hashers r) : HybridSet T S small)) :=
  follows_iff_fits valid ops fun r => represents_new valid (hashers r)

/-- Numbers hashed to themselves. -/
private def identity : Unit → ℕ → Word := fun _ n => n

theorem follows_iff_reserved : Follows identity [.reserve 0 3, .insert 0 5, .insert 1 7, .merge 0 1]
    (fun _ => (.new () : HybridSet ℕ Unit 64)) (fun _ => ∅) := by
  refine (follows_iff (.inr ⟨6, le_rfl, rfl⟩) identity (fun _ => ()) _).mpr ?_
  simp only [Fits, Op.reserve.injEq, reduceCtorEq, false_implies, implies_true, and_true]
  rintro r additional ⟨rfl, rfl⟩
  exact RawTable.not_overruns (RawTable.wellFormed_new (identity ()) (.inr ⟨6, le_rfl, rfl⟩)) (by decide)

/-- Nine elements in a Swiss table, and room for `2 ^ 61 - 8` more: the size wraps to eight buckets, and the search for
an empty one for the ninth element goes on for ever. -/
theorem reserve_wraps : ¬ Follows identity (((List.range 9).map (Op.insert 0)) ++ [.reserve 0 (2 ^ 61 - 8)])
    (fun _ => (.new () : HybridSet ℕ Unit 0)) (fun _ => ∅) := by
  have hangs : (match runs identity (((List.range 9).map (Op.insert 0)) ++ [.reserve 0 (2 ^ 61 - 8)])
      (fun _ => (.new () : HybridSet ℕ Unit 0)) with
    | .ok _ => none
    | .error fault => some fault) = some Fault.hang := by
    decide +kernel
  intro follows
  have notHang := follows.runs_ne_hang
  split at hangs
  · simp at hangs
  · rename_i fault isFault
    obtain rfl := Option.some.inj hangs
    exact notHang isFault

end Runs

end Ctadl.Hybrid
