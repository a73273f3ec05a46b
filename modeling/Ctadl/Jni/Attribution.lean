import Ctadl.Jni.Registry

/-! # Which links attribution makes

The walk cuts the entries into the longest runs that one class can explain (`attribute_eq`). A run one
class alone can explain goes to that class, so a link is fabricated exactly when such a run takes in
entries of two classes' tables: the guards do not see that boundary when the class of the first table
also declares, and does not register, the leading entries of the second.
-/

namespace Ctadl.Jni

open ClassIndex (add build classes declared)

variable {registry : JniRegistry} {index : ClassIndex} {run : List RegistryEntry} {entry : RegistryEntry}

/-- The classes that declare every entry of a run, and as many natives as it is long. -/
def explaining (index : ClassIndex) : List RegistryEntry → List String
  | [] => []
  | head :: rest => (index.classes head.name head.descriptor).filter fun cls =>
      rest.all (fun entry => (index.classes entry.name entry.descriptor).contains cls) &&
        decide (rest.length + 1 ≤ index.declared cls)

/-- The entries follow each other, repeat no signature, and some class can explain them. -/
def oneTable (registry : JniRegistry) (index : ClassIndex) (run : List RegistryEntry) : Bool :=
  decide (run.IsChain fun a b => registry.entrySize = 0 ∨ b.tableAddr = a.tableAddr + registry.entrySize) &&
    decide (run.map RegistryEntry.key).Nodup && decide (explaining index run ≠ [])

theorem narrow_explaining (nonempty : run ≠ []) :
    narrow (explaining index run) (index.classes entry.name entry.descriptor) index (run.length + 1) =
      explaining index (run ++ [entry]) := by
  obtain ⟨head, rest, rfl⟩ := List.exists_cons_of_ne_nil nonempty
  simp only [narrow, explaining, List.cons_append, List.filter_filter, List.all_append, List.all_cons, List.all_nil,
    List.length_append, List.length_cons, List.length_nil]
  refine List.filter_congr fun cls _ => ?_
  rw [Bool.eq_iff_iff]
  simp only [Bool.and_eq_true, decide_eq_true_eq, Bool.and_true]
  constructor
  · rintro ⟨⟨declares, enough⟩, all, -⟩
    exact ⟨⟨all, declares⟩, by omega⟩
  · rintro ⟨⟨all, declares⟩, enough⟩
    exact ⟨⟨declares, by omega⟩, all, by omega⟩

theorem narrowFirst_explaining :
    narrowFirst (index.classes entry.name entry.descriptor) index = explaining index [entry] := by
  simp [narrowFirst, explaining]

/-- An open run: a table as far as it goes, with what the walk remembers of it. -/
structure Open (registry : JniRegistry) (index : ClassIndex) (w : Walk) : Prop where
  nonempty : w.run ≠ []
  live : w.live = explaining index w.run
  seen : ∀ key, key ∈ w.seen ↔ key ∈ w.run.map RegistryEntry.key
  chain : w.run.IsChain fun a b => registry.entrySize = 0 ∨ b.tableAddr = a.tableAddr + registry.entrySize
  distinct : (w.run.map RegistryEntry.key).Nodup

theorem Open.first {out : Attribution} : Open registry index
    ⟨out, [entry], narrowFirst (index.classes entry.name entry.descriptor) index, [entry.key]⟩ where
  nonempty := by simp
  live := narrowFirst_explaining
  seen := by simp
  chain := by simp
  distinct := by simp

theorem contiguous_iff : contiguous registry run entry = true ↔
    ∀ last ∈ run.getLast?, registry.entrySize = 0 ∨ entry.tableAddr = last.tableAddr + registry.entrySize := by
  unfold contiguous
  cases run.getLast? <;> simp

/-- The walk keeps a run open for an entry exactly when the run with it is still one table. -/
theorem Open.grows_iff {w : Walk} (opened : Open registry index w) :
    (w.run ≠ [] ∧ contiguous registry w.run entry ∧ entry.key ∉ w.seen ∧
      narrow w.live (index.classes entry.name entry.descriptor) index (w.run.length + 1) ≠ []) ↔
    oneTable registry index (w.run ++ [entry]) = true := by
  rw [opened.live, narrow_explaining opened.nonempty, opened.seen, contiguous_iff]
  simp only [oneTable, Bool.and_eq_true, decide_eq_true_eq, List.isChain_append, List.map_append, List.map_cons,
    List.map_nil, List.nodup_append, and_assoc]
  constructor
  · rintro ⟨-, follows, fresh, explained⟩
    refine ⟨opened.chain, by simp, ?_, opened.distinct, by simp, ?_, explained⟩
    · intro last isLast next isNext
      obtain rfl : entry = next := by simpa using isNext
      exact follows last isLast
    · rintro key member _ (_ | ⟨_, none⟩) rfl
      exacts [fresh member, nomatch none]
  · rintro ⟨-, -, follows, -, -, fresh, explained⟩
    exact ⟨opened.nonempty, fun last isLast => follows last isLast entry (by simp),
      fun member => fresh _ member _ List.mem_cons_self rfl, explained⟩

theorem Open.grow {w : Walk} (opened : Open registry index w)
    (grows : oneTable registry index (w.run ++ [entry]) = true) : Open registry index
      { w with run := w.run ++ [entry],
               live := narrow w.live (index.classes entry.name entry.descriptor) index (w.run.length + 1),
               seen := entry.key :: w.seen } where
  nonempty := by simp
  live := by rw [opened.live, narrow_explaining opened.nonempty]
  seen key := by simp [opened.seen, or_comm]
  chain := by
    simp only [oneTable, Bool.and_eq_true, decide_eq_true_eq] at grows
    exact grows.1.1
  distinct := by
    simp only [oneTable, Bool.and_eq_true, decide_eq_true_eq] at grows
    exact grows.1.2

/-- The runs of the registry: the longest from the left that are one table as far as can be told. -/
def tableRuns (registry : JniRegistry) (index : ClassIndex) : List (List RegistryEntry) :=
  runsOf (oneTable registry index) registry.entries

def closeExplained (index : ClassIndex) (out : Attribution) (run : List RegistryEntry) : Attribution :=
  closeRun out run (explaining index run)

theorem walk_runsFrom {entries : List RegistryEntry} {w : Walk} (opened : Open registry index w) :
    closeRun (entries.foldl (Walk.visit registry index) w).out (entries.foldl (Walk.visit registry index) w).run
        (entries.foldl (Walk.visit registry index) w).live =
      (runsFrom (oneTable registry index) w.run entries).foldl (closeExplained index) w.out := by
  induction entries generalizing w with
  | nil => simp [runsFrom, closeExplained, opened.live]
  | cons entry entries ih =>
    rw [List.foldl_cons, runsFrom, Walk.visit]
    by_cases grows : oneTable registry index (w.run ++ [entry]) = true
    · rw [if_pos (opened.grows_iff.mpr grows), if_pos grows]
      exact ih (opened.grow grows)
    · rw [if_neg (opened.grows_iff.not.mpr grows), if_neg grows, List.foldl_cons, ih .first, closeExplained,
        opened.live]

/-- Attribution closes the longest runs, from the left. -/
theorem attribute_eq : registry.attribute index = (tableRuns registry index).foldl (closeExplained index) {} := by
  unfold JniRegistry.attribute tableRuns
  cases entries : registry.entries with
  | nil => rfl
  | cons entry rest => exact walk_runsFrom Open.first

/-- The class a run goes to: the one that can explain it, where there is exactly one. -/
def taker (index : ClassIndex) (run : List RegistryEntry) : Option String :=
  match explaining index run with
  | [cls] => some cls
  | _ => none

theorem taker_eq_some {cls : String} : taker index run = some cls ↔ explaining index run = [cls] := by
  unfold taker
  rcases explaining index run with _ | ⟨c, _ | ⟨other, more⟩⟩ <;> simp

/-- What closing a run attributes. -/
def given (index : ClassIndex) (run : List RegistryEntry) : List Attributed :=
  (taker index run).toList.flatMap fun cls => run.map (⟨cls, ·⟩)

theorem closeExplained_eq {out : Attribution} (nonempty : run ≠ []) : closeExplained index out run =
    ⟨out.tables + 1, out.attributed ++ given index run,
      out.unattributed + if (taker index run).isNone then run.length else 0⟩ := by
  unfold closeExplained closeRun given taker
  rw [if_neg nonempty]
  rcases explaining index run with _ | ⟨cls, _ | ⟨other, more⟩⟩ <;> simp

theorem foldl_closeExplained {runs : List (List RegistryEntry)} {out : Attribution}
    (nonempty : ∀ run ∈ runs, run ≠ []) : runs.foldl (closeExplained index) out =
      ⟨out.tables + runs.length, out.attributed ++ runs.flatMap (given index),
        out.unattributed + (runs.filter fun run => (taker index run).isNone).flatten.length⟩ := by
  induction runs generalizing out with
  | nil => simp
  | cons run runs ih =>
    obtain ⟨here, later⟩ := List.forall_mem_cons.mp nonempty
    rw [List.foldl_cons, closeExplained_eq here, ih later]
    cases one : (taker index run).isNone <;> simp [one] <;> omega

theorem tableRuns_nonempty : ∀ run ∈ tableRuns registry index, run ≠ [] :=
  runsOf_rule (· ≠ []) (fun _ _ => by simp) fun _ _ _ _ => by simp

theorem mem_attributed {a : Attributed} : a ∈ (registry.attribute index).attributed ↔
    ∃ run ∈ tableRuns registry index, explaining index run = [a.cls] ∧ a.entry ∈ run := by
  rw [attribute_eq, foldl_closeExplained tableRuns_nonempty, List.nil_append, List.mem_flatMap]
  refine exists_congr fun run => and_congr_right fun _ => ?_
  obtain ⟨cls, entry⟩ := a
  rw [← taker_eq_some, given]
  cases taker index run <;> simp [and_comm, eq_comm]

/-! ## Tables -/

/-- A class's `JNINativeMethod` table, as it lies in memory. -/
structure NativeTable where
  cls : String
  entries : List RegistryEntry

/-- The entries of a registry are those of `tables`, one after the other in address order. A table is
contiguous, and what it lists are distinct natives of its class. -/
structure Laid (registry : JniRegistry) (natives : List (String × String × String)) (tables : List NativeTable) :
    Prop where
  entries : registry.entries = tables.flatMap NativeTable.entries
  ordered : registry.entries.Pairwise fun a b => a.tableAddr < b.tableAddr
  contiguous : ∀ t ∈ tables, registry.entrySize = 0 ∨
    t.entries.IsChain fun a b => b.tableAddr = a.tableAddr + registry.entrySize
  distinct : ∀ t ∈ tables, (t.entries.map RegistryEntry.key).Nodup
  declared : ∀ t ∈ tables, ∀ entry ∈ t.entries, (t.cls, entry.name, entry.descriptor) ∈ natives

/-- The entry is in a table of the class. -/
def Registers (tables : List NativeTable) (cls : String) (entry : RegistryEntry) : Prop :=
  ∃ t ∈ tables, t.cls = cls ∧ entry ∈ t.entries

/-- Every link goes to the class whose table the entry is in. -/
def NoFabrication (tables : List NativeTable) (out : Attribution) : Prop :=
  ∀ a ∈ out.attributed, Registers tables a.cls a.entry

/-- The entries fall into `out.tables` runs; those of a run are all attributed, in order and to one class,
or all counted as unattributed. -/
def Partition (registry : JniRegistry) (out : Attribution) : Prop :=
  ∃ runs : List (List RegistryEntry × Option String),
    registry.entries = (runs.map Prod.fst).flatten ∧ (∀ run ∈ runs, run.1 ≠ []) ∧ out.tables = runs.length ∧
    out.attributed = (runs.flatMap fun run => run.2.toList.flatMap fun cls => run.1.map (⟨cls, ·⟩)) ∧
    out.unattributed = ((runs.filter fun run => run.2.isNone).flatMap Prod.fst).length

theorem attribute_partition : Partition registry (registry.attribute index) := by
  rw [attribute_eq, foldl_closeExplained tableRuns_nonempty]
  refine ⟨(tableRuns registry index).map fun run => (run, taker index run), ?_, ?_, ?_, ?_, ?_⟩
  · rw [List.map_map]
    exact flatten_runsOf.symm.trans (congrArg List.flatten (List.map_id _).symm)
  · simpa using tableRuns_nonempty
  · simp
  · rw [List.flatMap_map]
    rfl
  · rw [List.filter_map, List.flatMap_map]
    exact (Nat.zero_add _).trans (congrArg List.length List.flatMap_id.symm)

/-! ## The links of the tables' classes -/

theorem count_add {natives : List (String × String × String)} {index : ClassIndex} {cls : String} :
    (natives.foldl add index).declared cls =
      index.declared cls + (natives.filter fun native => decide (native.1 = cls)).length := by
  induction natives generalizing index with
  | nil => simp
  | cons native natives ih =>
    rw [List.foldl_cons, ih]
    by_cases same : cls = native.1
    · subst same
      simp [add, declared]
      omega
    · simp [add, declared, same, Ne.symm same]

theorem mem_classes_add {natives : List (String × String × String)} {index : ClassIndex} {name descriptor cls : String} :
    cls ∈ (natives.foldl add index).classes name descriptor ↔
      cls ∈ index.classes name descriptor ∨ (cls, name, descriptor) ∈ natives := by
  induction natives generalizing index with
  | nil => simp
  | cons native natives ih =>
    obtain ⟨c, key⟩ := native
    rw [List.foldl_cons, ih]
    by_cases same : (name, descriptor) = key
    · subst same
      simp [add, classes, or_assoc]
    · simp [add, classes, same]

theorem mem_classes {natives : List (String × String × String)} {name descriptor cls : String} :
    cls ∈ (build natives).classes name descriptor ↔ (cls, name, descriptor) ∈ natives := by
  unfold build
  rw [mem_classes_add]
  simp [classes]

/-- A class that declares all of a run that repeats nothing declares as many natives as it is long. -/
theorem length_le_declared {natives : List (String × String × String)} {cls : String}
    (distinct : (run.map RegistryEntry.key).Nodup)
    (declares : ∀ entry ∈ run, (cls, entry.name, entry.descriptor) ∈ natives) :
    run.length ≤ (build natives).declared cls := by
  have named : (run.map fun entry => (cls, entry.key)).Nodup := by
    have inj : Function.Injective fun key : String × String => (cls, key) := fun a b same => (Prod.mk.inj same).2
    simpa [Function.comp_def] using distinct.map inj
  have sub : (run.map fun entry => (cls, entry.key)) ⊆ natives.filter fun native => decide (native.1 = cls) := by
    intro native member
    obtain ⟨entry, inside, rfl⟩ := List.mem_map.mp member
    exact List.mem_filter.mpr ⟨declares entry inside, by simp⟩
  have le := (List.subperm_of_subset named sub).length_le
  unfold build
  rw [count_add]
  simpa [declared] using le

/-- A run repeats no signature. -/
theorem tableRuns_distinct : ∀ run ∈ tableRuns registry index, (run.map RegistryEntry.key).Nodup :=
  runsOf_rule (fun run => (run.map RegistryEntry.key).Nodup) (fun _ _ => by simp) fun run entry _ fits => by
    simp only [oneTable, Bool.and_eq_true, decide_eq_true_eq] at fits
    exact fits.1.2

/-- The class of one table explains a run of entries of its tables. -/
theorem mem_explaining {natives : List (String × String × String)} {cls : String} (nonempty : run ≠ [])
    (distinct : (run.map RegistryEntry.key).Nodup)
    (declares : ∀ entry ∈ run, (cls, entry.name, entry.descriptor) ∈ natives) :
    cls ∈ explaining (build natives) run := by
  have enough := length_le_declared distinct declares
  obtain ⟨head, rest, rfl⟩ := List.exists_cons_of_ne_nil nonempty
  obtain ⟨first, later⟩ := List.forall_mem_cons.mp declares
  simp only [explaining, List.mem_filter, Bool.and_eq_true, List.all_eq_true, List.contains_iff_mem,
    decide_eq_true_eq, mem_classes]
  exact ⟨first, later, enough⟩

variable {natives : List (String × String × String)} {tables : List NativeTable}

/-- One entry of `A`'s table, which declares the one entry of `B`'s table behind it as well. -/
def overlapping : JniRegistry := ⟨24, [⟨0x1000, "init", "()V"⟩, ⟨0x1018, "close", "()V"⟩]⟩

def overlappingNatives : List (String × String × String) :=
  [("A", "init", "()V"), ("A", "close", "()V"), ("B", "close", "()V")]

def overlappingTables : List NativeTable :=
  [⟨"A", [⟨0x1000, "init", "()V"⟩]⟩, ⟨"B", [⟨0x1018, "close", "()V"⟩]⟩]

theorem overlapping_laid : Laid overlapping overlappingNatives overlappingTables where
  entries := rfl
  ordered := by simp [overlapping]
  contiguous := by simp [overlappingTables]
  distinct := by simp [overlappingTables]
  declared := by simp [overlappingTables, overlappingNatives]

end Ctadl.Jni
