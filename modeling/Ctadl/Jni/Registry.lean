import Ctadl.Facts.Basic
import Ctadl.Jni.Segments

/-! # Attributing recovered `RegisterNatives` tables

A registry lists the entries of the tables found in one library, in address order, and does not say which
class registered them. `JniRegistry.attribute` walks them, keeping the classes that declare every entry since the run
began, and gives the entries of a run to the one class left when it closes.
-/

namespace Ctadl.Jni

/-- One recovered `JNINativeMethod`, as far as attribution reads it. -/
structure RegistryEntry where
  tableAddr : Nat
  name : String
  descriptor : String
deriving DecidableEq, Repr

def RegistryEntry.key (entry : RegistryEntry) : String × String := (entry.name, entry.descriptor)

/-- One import's recovered entries, sorted by address. An entry size of 0 is one not recorded. -/
structure JniRegistry where
  entrySize : Nat := 0
  entries : List RegistryEntry

/-- The Java side: which classes declare a signature, and how many natives a class declares. -/
structure ClassIndex where
  signatures : String × String → List String := fun _ => []
  counts : String → Nat := fun _ => 0

namespace ClassIndex

/-- Adds one native: its class, its name and its descriptor. -/
def add (index : ClassIndex) (native : String × String × String) : ClassIndex where
  signatures key := if key = native.2 then index.signatures key ++ [native.1] else index.signatures key
  counts cls := if cls = native.1 then index.counts cls + 1 else index.counts cls

def build (natives : List (String × String × String)) : ClassIndex := natives.foldl add {}

def classes (index : ClassIndex) (name descriptor : String) : List String := index.signatures (name, descriptor)

def declared (index : ClassIndex) (cls : String) : Nat := index.counts cls

end ClassIndex

/-- One attributed entry, and the class it went to. -/
structure Attributed where
  cls : String
  entry : RegistryEntry
deriving DecidableEq, Repr

/-- What `JniRegistry.attribute` made of one import's entries. -/
structure Attribution where
  tables : Nat := 0
  attributed : List Attributed := []
  unattributed : Nat := 0
deriving DecidableEq, Repr

/-- The classes still viable for a run of `length` entries. -/
def narrow (live declaring : List String) (index : ClassIndex) (length : Nat) : List String :=
  live.filter fun cls => declaring.contains cls && decide (length ≤ index.declared cls)

/-- The same, for a run that is starting. -/
def narrowFirst (declaring : List String) (index : ClassIndex) : List String :=
  declaring.filter fun cls => decide (1 ≤ index.declared cls)

/-- Closes a run, attributing it when exactly one class survived. -/
def closeRun (out : Attribution) (run : List RegistryEntry) (live : List String) : Attribution :=
  if run = [] then out
  else match live with
    | [cls] => { out with tables := out.tables + 1, attributed := out.attributed ++ run.map (⟨cls, ·⟩) }
    | _ => { out with tables := out.tables + 1, unattributed := out.unattributed + run.length }

/-- Where the walk is: what it has closed, the run that is open, the classes that declare all of it and
the signatures in it. -/
structure Walk where
  out : Attribution := {}
  run : List RegistryEntry := []
  live : List String := []
  seen : List (String × String) := []

/-- The entry comes right after the last of the run, as far as the entry size can tell. -/
def contiguous (registry : JniRegistry) (run : List RegistryEntry) (entry : RegistryEntry) : Bool :=
  registry.entrySize = 0 || run.getLast?.all fun last => entry.tableAddr = last.tableAddr + registry.entrySize

/-- One entry of the walk. -/
def Walk.visit (registry : JniRegistry) (index : ClassIndex) (w : Walk) (entry : RegistryEntry) : Walk :=
  let declaring := index.classes entry.name entry.descriptor
  let next := narrow w.live declaring index (w.run.length + 1)
  if w.run ≠ [] ∧ contiguous registry w.run entry ∧ entry.key ∉ w.seen ∧ next ≠ [] then
    { w with run := w.run ++ [entry], live := next, seen := entry.key :: w.seen }
  else
    { out := closeRun w.out w.run w.live, run := [entry], live := narrowFirst declaring index, seen := [entry.key] }

/-- Recovers the declaring class of each entry. -/
def JniRegistry.attribute (registry : JniRegistry) (index : ClassIndex) : Attribution :=
  let w := registry.entries.foldl (Walk.visit registry index) {}
  closeRun w.out w.run w.live

end Ctadl.Jni
