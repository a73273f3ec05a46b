import Ctadl.Hybrid.Swiss

/-! # One table, two regimes

A table probes linearly over at most `small` slots, which may all be full, and is a Swiss table above that. Which one
it is follows from its capacity. Both keep their elements in buckets; what is at the metadata pointer is an occupancy
word in a small table and control bytes in a large one.

An operation that does not return says why: an assertion fails, a loop goes on for ever, or a bucket is read that
holds no element. A probe that has met as many groups as there are buckets has met every bucket.
-/

namespace Ctadl.Hybrid

open Function Collections Collections.Bits

inductive Fault where
  | panic
  | hang
  | uninit
deriving DecidableEq, Repr

structure RawTable (T : Type) (small : ℕ) where
  cap : ℕ
  len : ℕ
  occupancy : Word
  ctrl : ℕ → Byte
  bucket : ℕ → Option T

/-- Where a probe ended. -/
inductive Probed where
  | found (index : ℕ)
  | vacant (index : ℕ)
  | full
deriving DecidableEq, Repr

def smallSlotsMin : ℕ := 1

/-- How many slots a small table needs for so many elements. -/
def slotCountFor (n smallMax : ℕ) : ℕ :=
  if n = 0 ∨ smallMax = 0 then 0 else min (max (nextPowerOfTwo n) smallSlotsMin) smallMax

def minLargeBuckets (small : ℕ) : ℕ := if 2 * small > minBuckets then 2 * small else minBuckets

/-- The capacity a table for so many elements needs. -/
def capFor (small n : ℕ) : ℕ := if n > small then max (bucketsFor n) (minLargeBuckets small) else slotCountFor n small

/-- How many elements a table of so many slots or buckets takes before it grows. -/
def capacityAt (small cap : ℕ) : ℕ := if cap > small then capacityFor cap else cap

namespace RawTable

variable {T : Type} {small : ℕ}

def new : RawTable T small where
  cap := 0
  len := 0
  occupancy := 0
  ctrl _ := 0
  bucket _ := none

/-- A table with every bucket empty. -/
def allocate (cap : ℕ) : Except Fault (RawTable T small) :=
  if cap < 2 ^ 32 then .ok { cap, len := 0, occupancy := 0, ctrl := fun _ => EMPTY, bucket := fun _ => none }
  else .error .panic

def withCapacity (capacity : ℕ) : Except Fault (RawTable T small) :=
  if capFor small capacity = 0 then .ok new else allocate (capFor small capacity)

def isLarge (table : RawTable T small) : Bool := table.cap > small

def mask (table : RawTable T small) : ℕ := table.cap - 1

def capacity (table : RawTable T small) : ℕ := capacityAt small table.cap

def growthLeft (table : RawTable T small) : ℕ := usizeSub table.capacity table.len

/-- Set a control byte and its mirror. -/
def setCtrl (table : RawTable T small) (index : ℕ) (byte : Byte) : RawTable T small :=
  let mirror := (usizeSub index groupWidth &&& table.mask) + groupWidth
  { table with ctrl := update (update table.ctrl index byte) mirror byte }

/-- Write an element and mark its bucket full. A small table has no use for the control byte. -/
def fill (table : RawTable T small) (index : ℕ) (value : T) (byte : Byte) : RawTable T small :=
  let written := { table with bucket := update table.bucket index (some value), len := table.len + 1 }
  if table.isLarge then written.setCtrl index byte
  else { written with occupancy := table.occupancy ||| 1#64 <<< index }

def metaByte (table : RawTable T small) (index : ℕ) : Byte := if table.isLarge then table.ctrl index else 0

/-- Read the element of a bucket. -/
def read (table : RawTable T small) (index : ℕ) : Except Fault T :=
  match table.bucket index with
  | some value => .ok value
  | none => .error .uninit

section Lookup

variable [DecidableEq T]

/-- Walk so many slots from one on, up to the first that is empty or holds the element. -/
def smallProbeFrom (table : RawTable T small) (value : T) : ℕ → ℕ → Except Fault Probed
  | 0, _ => .ok .full
  | n + 1, i =>
    if table.occupancy.getLsbD i = false then .ok (.vacant i)
    else do
      if (← table.read i) = value then .ok (.found i) else smallProbeFrom table value n ((i + 1) &&& table.mask)

def smallProbe (table : RawTable T small) (hash : Word) (value : T) : Except Fault Probed :=
  table.smallProbeFrom value table.cap (hash.toNat &&& table.mask)

/-- The first of some places of a group that holds the element. -/
def scan (table : RawTable T small) (value : T) (pos : ℕ) : List ℕ → Except Fault (Option ℕ)
  | [] => .ok none
  | bit :: bits => do
    let index := (pos + bit) &&& table.mask
    if (← table.read index) = value then .ok (some index) else scan table value pos bits

def group (table : RawTable T small) (pos : ℕ) : Word := Group.load table.ctrl pos

/-- The lookup of a large table: group by group, up to one that holds the element or has an empty bucket. -/
def largeFindFrom (table : RawTable T small) (byte : Byte) (value : T) : ℕ → ProbeSeq → Except Fault (Option ℕ)
  | 0, _ => .error .hang
  | fuel + 1, probe => do
    match ← table.scan value probe.pos (BitMask.iter (Group.matchByte (table.group probe.pos) byte)) with
    | some index => .ok (some index)
    | none =>
      if Group.matchEmpty (table.group probe.pos) ≠ 0#64 then .ok none
      else largeFindFrom table byte value fuel (probe.moveNext table.mask)

def largeFindIndex (table : RawTable T small) (hash : Word) (value : T) : Except Fault (Option ℕ) :=
  table.largeFindFrom (h2 hash) value table.cap (.new hash table.mask)

def findIndex (table : RawTable T small) (hash : Word) (value : T) : Except Fault (Option ℕ) :=
  if table.isLarge then table.largeFindIndex hash value
  else do
    match ← table.smallProbe hash value with
    | .found i => .ok (some i)
    | .vacant _ | .full => .ok none

/-- The search that an insertion makes in a large table: it ends at the element or at the first empty bucket. -/
def largeProbeFrom (table : RawTable T small) (byte : Byte) (value : T) : ℕ → ProbeSeq → Except Fault Probed
  | 0, _ => .error .hang
  | fuel + 1, probe => do
    match ← table.scan value probe.pos (BitMask.iter (Group.matchByte (table.group probe.pos) byte)) with
    | some index => .ok (.found index)
    | none =>
      match BitMask.lowest (Group.matchEmpty (table.group probe.pos)) with
      | some bit => .ok (.vacant ((probe.pos + bit) &&& table.mask))
      | none => largeProbeFrom table byte value fuel (probe.moveNext table.mask)

def largeProbe (table : RawTable T small) (hash : Word) (value : T) : Except Fault Probed :=
  table.largeProbeFrom (h2 hash) value table.cap (.new hash table.mask)

end Lookup

/-- The first empty bucket of a probe. -/
def insertSlotFrom (table : RawTable T small) : ℕ → ProbeSeq → Except Fault ℕ
  | 0, _ => .error .hang
  | fuel + 1, probe =>
    match BitMask.lowest (Group.matchEmpty (table.group probe.pos)) with
    | some bit => .ok ((probe.pos + bit) &&& table.mask)
    | none => insertSlotFrom table fuel (probe.moveNext table.mask)

def findInsertSlot (table : RawTable T small) (hash : Word) : Except Fault ℕ :=
  table.insertSlotFrom table.cap (.new hash table.mask)

/-- The first empty slot from one on. -/
def emptySlotFrom (table : RawTable T small) : ℕ → ℕ → Except Fault ℕ
  | 0, _ => .error .hang
  | fuel + 1, i => if table.occupancy.getLsbD i then emptySlotFrom table fuel ((i + 1) &&& table.mask) else .ok i

/-- The empty bucket an absent element goes to. -/
def emptySlot (table : RawTable T small) (hash : Word) : Except Fault ℕ :=
  if table.isLarge then table.findInsertSlot hash else table.emptySlotFrom table.cap (hash.toNat &&& table.mask)

/-- Insert an element that is absent into a table that has room. -/
def insertUniqueNoGrow (table : RawTable T small) (hash : Word) (value : T) : Except Fault (RawTable T small) := do
  let index ← table.emptySlot hash
  .ok (table.fill index value (h2 hash))

/-- The bits that an iteration yet has to yield, in the word at hand and in the groups after it. -/
def indicesFrom (table : RawTable T small) (shift : ℕ) : ℕ → Word → ℕ → ℕ → Except Fault (List ℕ)
  | _, _, _, 0 => .ok []
  | 0, _, _, _ + 1 => .error .hang
  | fuel + 1, bits, base, remaining + 1 =>
    if bits ≠ 0#64 then do
      let rest ← indicesFrom table shift fuel (bits &&& (bits - 1#64)) base remaining
      .ok ((base + (trailingZeros bits >>> shift)) :: rest)
    else if base + groupWidth < table.cap then
      indicesFrom table shift fuel (Group.matchFull (table.group (base + groupWidth))) (base + groupWidth) (remaining + 1)
    else .error .uninit

/-- The full buckets in their order. -/
def indices (table : RawTable T small) : Except Fault (List ℕ) :=
  if table.isLarge then
    table.indicesFrom BitMask.shift (table.len + table.cap) (Group.matchFull (table.group 0)) 0 table.len
  else table.indicesFrom 0 (table.len + table.cap) table.occupancy 0 table.len

def iter (table : RawTable T small) : Except Fault (List T) := do (← table.indices).mapM table.read

/-- Move every element into a table of another capacity. -/
def rebuild (table : RawTable T small) (newCap : ℕ) (hashOf : T → Word) : Except Fault (RawTable T small) := do
  let fresh ← allocate newCap
  (← table.indices).foldlM (fun fresh index => do
    let value ← table.read index
    fresh.insertUniqueNoGrow (hashOf value) value) fresh

section Insertion

variable [DecidableEq T]

def smallInsert (table : RawTable T small) (hash : Word) (value : T) (hashOf : T → Word) :
    Except Fault (RawTable T small × Bool) := do
  match ← table.smallProbe hash value with
  | .found _ => .ok (table, false)
  | .vacant i => .ok (table.fill i value 0, true)
  | .full => do
    let grown ← table.rebuild (capFor small (table.len + 1)) hashOf
    .ok (← grown.insertUniqueNoGrow hash value, true)

def largeInsert (table : RawTable T small) (hash : Word) (value : T) (hashOf : T → Word) :
    Except Fault (RawTable T small × Bool) := do
  match ← table.largeProbe hash value with
  | .found _ => .ok (table, false)
  | .vacant slot =>
    if table.growthLeft = 0 then do
      let grown ← table.rebuild (table.cap * 2) hashOf
      let slot ← grown.findInsertSlot hash
      .ok (grown.fill slot value (h2 hash), true)
    else .ok (table.fill slot value (h2 hash), true)
  | .full => .error .hang

def insert (table : RawTable T small) (hash : Word) (value : T) (hashOf : T → Word) :
    Except Fault (RawTable T small × Bool) :=
  if table.isLarge then table.largeInsert hash value hashOf else table.smallInsert hash value hashOf

end Insertion

/-- Make room for more elements. The sum wraps. -/
def reserve (table : RawTable T small) (additional : ℕ) (hashOf : T → Word) : Except Fault (RawTable T small) :=
  let want := usizeAdd table.len additional
  if want ≤ table.capacity then .ok table else table.rebuild (capFor small want) hashOf

/-- Every element in the bucket it has here. -/
def clone (table : RawTable T small) : Except Fault (RawTable T small) :=
  if table.cap = 0 then .ok new
  else do
    let fresh ← allocate table.cap
    (← table.indices).foldlM (fun fresh index => do
      let value ← table.read index
      .ok (fresh.fill index value (table.metaByte index))) fresh

end RawTable

end Ctadl.Hybrid
