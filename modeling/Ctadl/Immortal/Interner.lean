import Ctadl.Immortal.Arena
import Mathlib.Data.List.Nodup

/-! # The sharded interner

A shard's values are written once, each to the next slot; a table of `id | hash32 << 32` finds them
again. Every section under a shard's lock is one step: the look-up of `intern` and of `try_get` under
the read lock, and the second half of `intern` under the write lock, which looks again before it
inserts. A thread whose look-up missed waits, with its value, for its second half; any number of
threads may wait for the same value. `from_raw` only reads the published length.

The hash table is not part of the repository: `HashTable` states what `find` and `insert_unique`
promise. A panic leaves a step without a result: the shard is full, or its arena is out of offsets.
-/

namespace Ctadl.Immortal

open Function

/-- A hash table of entries, each found again by the hash it was inserted with. -/
structure HashTable where
  Table : Type
  new : Table
  /-- The entries with their hashes. -/
  entries : Table → List (ℕ × ℕ)
  find : Table → ℕ → (ℕ → Bool) → Option ℕ
  insertUnique : Table → ℕ → ℕ → (ℕ → ℕ) → Table
  entries_new : entries new = []
  /-- A table that grows asks the hasher for the hashes of its entries. -/
  entries_insertUnique : ∀ table hash entry hasher, hasher entry = hash →
    (∀ e ∈ entries table, hasher e.2 = e.1) →
    ∀ e, e ∈ entries (insertUnique table hash entry hasher) ↔ e = (hash, entry) ∨ e ∈ entries table
  find_some : ∀ table hash eq entry, find table hash eq = some entry →
    (∃ e ∈ entries table, e.2 = entry) ∧ eq entry = true
  find_none : ∀ table hash eq, find table hash eq = none → ∀ e ∈ entries table, e.1 = hash → eq e.2 = false

/-- A table that looks through all its entries keeps the promises. -/
def HashTable.list : HashTable where
  Table := List (ℕ × ℕ)
  new := []
  entries table := table
  find table hash eq := (table.find? fun e => e.1 = hash ∧ eq e.2).map (·.2)
  insertUnique table hash entry _ := (hash, entry) :: table
  entries_new := rfl
  entries_insertUnique _ _ _ _ _ _ _ := List.mem_cons
  find_some table hash eq entry found := by
    obtain ⟨e, isFirst, rfl⟩ := Option.map_eq_some_iff.mp found
    have holds : e.1 = hash ∧ eq e.2 = true := by simpa using List.find?_some isFirst
    exact ⟨⟨e, List.mem_of_find?_eq_some isFirst, rfl⟩, holds.2⟩
  find_none table hash eq none e mem same := by
    have misses := List.find?_eq_none.mp (Option.map_eq_none_iff.mp none) e mem
    simpa [same] using misses

/-- A type an interner can hold: what a slot is, how a value is stored in the arena and read back. -/
structure Internable (V : Type) where
  Slot : Type
  Units : Type
  store : V → Bump Units → Option Slot × Bump Units
  load : Slot → (ℕ → Option (Memory Units)) → Option V
  /-- The units a slot points to. -/
  span : Slot → Span

namespace Internable

/-- A sized value is its own slot. -/
def sized (V : Type) : Internable V where
  Slot := V
  Units := Unit
  store v bump := (some v, bump)
  load slot _ := some slot
  span _ := ⟨0, 0⟩

/-- `[U]`: a slot is a span of the arena. -/
def slice (U : Type) : Internable (List U) where
  Slot := Span
  Units := U
  store := Bump.storeSlice
  load := loadSlice
  span slot := slot

/-- The bytes of a string. -/
def utf8 (s : String) : List UInt8 := s.toUTF8.data.toList

/-- `str`: its bytes are a slice. -/
def str : Internable String where
  Slot := Span
  Units := UInt8
  store s := Bump.storeSlice (utf8 s)
  load slot chunks := (loadSlice slot chunks).bind fun bytes => String.fromUTF8? ⟨bytes.toArray⟩
  span slot := slot

end Internable

/-- The shard count `2 ^ log2S` and the width of the ids, as the constructors assert them. -/
structure Config where
  log2S : ℕ
  bits : ℕ
  log2S_le : log2S ≤ 16
  log2S_lt : log2S < bits
  bits_le : bits ≤ 32

namespace Config

/-- The number of shards. -/
def S (config : Config) : ℕ := 2 ^ config.log2S

/-- The most values a shard may hold. -/
def limit (config : Config) : ℕ := 1 <<< (config.bits - config.log2S) - 1

end Config

/-- A shard: its table, length, arena and slot buckets, and the length that readers see. -/
structure Shard (H : HashTable) {V : Type} (I : Internable V) where
  table : H.Table
  len : ℕ
  arena : Bump I.Units
  slots : ℕ → Option (Memory I.Slot)
  published : ℕ

def Shard.new (H : HashTable) {V : Type} (I : Internable V) : Shard H I := ⟨H.new, 0, .empty, fun _ => none, 0⟩

/-- The slot of a local index. -/
def Shard.slotAt {H : HashTable} {V : Type} {I : Internable V} (shard : Shard H I) (local_ : ℕ) : Option I.Slot :=
  let (b, i) := split local_ FIRST_BUCKET
  if BUCKETS ≤ b ∨ FIRST_BUCKET <<< b ≤ i then none
  else (shard.slots b).bind fun bucket => bucket i

/-- The shard and local index an id names. -/
def decode (config : Config) (raw : ℕ) : ℕ × ℕ :=
  (raw &&& (config.S - 1), (raw >>> config.log2S + 2 ^ 32 - 1) % 2 ^ 32)

/-- The 64-bit hash the table indexes with, rebuilt from the stored half. -/
def tableHash (h32 : ℕ) : ℕ := h32 ||| h32 <<< 32

/-- The hasher of the table, from the half of the hash that an entry holds. -/
def entryHash (entry : ℕ) : ℕ := tableHash (entry >>> 32 % 2 ^ 32)

section Interner

variable {H : HashTable} {V : Type} [DecidableEq V] {I : Internable V} (config : Config) (hash64 : V → ℕ)

/-- The shards by number; a call on one number sees that shard alone. -/
abbrev Interner (H : HashTable) {V : Type} (I : Internable V) := ℕ → Shard H I

def shardOf (v : V) : ℕ := hash64 v >>> 32 &&& (config.S - 1)

def hash32 (v : V) : ℕ := hash64 v % 2 ^ 32

namespace Interner

/-- The value an id names; `none` is memory never written. -/
def get (interner : Interner H I) (raw : ℕ) : Option V :=
  let (shard, local_) := decode config raw
  ((interner shard).slotAt local_).bind fun slot => I.load slot (interner shard).arena.chunks

def find (interner : Interner H I) (table : H.Table) (h32 : ℕ) (v : V) : Option ℕ :=
  (H.find table (tableHash h32) fun e => e >>> 32 % 2 ^ 32 = h32 ∧ interner.get config (e % 2 ^ 32) = some v).map (· % 2 ^ 32)

/-- The id of a value if it was interned; also the first half of `intern`. -/
def tryGet (interner : Interner H I) (v : V) : Option ℕ :=
  interner.find config (interner (shardOf config hash64 v)).table (hash32 hash64 v) v

/-- The second half of `intern`, under the write lock. -/
def internWrite (interner : Interner H I) (v : V) : Interner H I × Option ℕ :=
  let s := shardOf config hash64 v
  let h32 := hash32 hash64 v
  let locked := interner s
  match interner.find config locked.table h32 v with
  | some id => (interner, some id)
  | none =>
    let local_ := locked.len
    if config.limit ≤ local_ then (interner, none)
    else
      let (b, i) := split local_ FIRST_BUCKET
      if BUCKETS ≤ b then (interner, none)
      else
        let bucket := (locked.slots b).getD fun _ => none
        match I.store v locked.arena with
        | (none, arena) =>
          (update interner s { locked with slots := update locked.slots b (some bucket), arena }, none)
        | (some slot, arena) =>
          let raw := (local_ + 1) <<< config.log2S % 2 ^ 32 ||| s
          let written : Shard H I :=
            { table := H.insertUnique locked.table (tableHash h32) (raw ||| h32 <<< 32) entryHash
              len := local_ + 1
              arena
              slots := update locked.slots b (some (update bucket i (some slot)))
              published := local_ + 1 }
          (update interner s written, some raw)

/-- The id whose bits are `raw`, if it was issued. -/
def fromRaw (interner : Interner H I) (raw : ℕ) : Option ℕ :=
  let (shard, local_) := decode config raw
  if local_ < (interner shard).published then some raw else none

end Interner

/-- The steps of the threads that use the interner. -/
inductive Step (V : Type)
  | intern (v : V)
  | write (v : V)
  | tryGet (v : V)
  | fromRaw (raw : ℕ)

/-- The interner, the values whose threads wait to write, and the ids issued so far. -/
structure System (H : HashTable) {V : Type} (I : Internable V) where
  interner : Interner H I
  waiting : List V
  issued : List (V × ℕ)

namespace System

def start (H : HashTable) {V : Type} (I : Internable V) : System H I := ⟨fun _ => .new H I, [], []⟩

/-- One step of some thread; without a thread waiting to write a value there is none to write it. -/
def step (system : System H I) : Step V → System H I
  | .intern v =>
    match system.interner.tryGet config hash64 v with
    | some id => { system with issued := system.issued ++ [(v, id)] }
    | none => { system with waiting := v :: system.waiting }
  | .write v =>
    if v ∈ system.waiting then
      match system.interner.internWrite config hash64 v with
      | (interner, some id) => ⟨interner, system.waiting.erase v, system.issued ++ [(v, id)]⟩
      | (interner, none) => ⟨interner, system.waiting.erase v, system.issued⟩
    else system
  | .tryGet v =>
    match system.interner.tryGet config hash64 v with
    | some id => { system with issued := system.issued ++ [(v, id)] }
    | none => system
  | .fromRaw _ => system

def run (system : System H I) (steps : List (Step V)) : System H I :=
  steps.foldl (step config hash64) system

end System

end Interner

end Ctadl.Immortal
